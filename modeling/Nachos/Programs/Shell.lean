/-
  Nachos.Programs.Shell

  The program `test/shell.c`: it reads a line, cuts the blanks off its end, and hands what is
  left to `Exec`; an `&` at the end is cut off as well, and stands for the background.  The
  loops that look for the ends have no bounds, and an access outside of the buffer has no
  result.
-/

import Mathlib
import Nachos.Lib.CharArray
import Nachos.Lib.Words

namespace Nachos
namespace Shell

open CharArray Words

/-- The characters that the shell looks for: a newline, a blank and `&`. -/
def NEWLINE : Byte := 10

def BLANK : Byte := 32

def AMPERSAND : Byte := 38

/-- `exit`. -/
def EXIT : List Byte := [101, 120, 105, 116]

/-- `while(buffer[--i] == ' ') {}`. -/
def back (buffer : List Byte) : Nat → Option Nat
  | 0 => none
  | i + 1 => do
      let c ← buffer[i]?
      if c = BLANK then back buffer i else some i

/-- What is done to a line that has been read: the buffer, with `i` and `bg`. -/
def parse (buffer : List Byte) : Option (List Byte × Nat × Bool) := do
  let i ← scan (· == NEWLINE) buffer 0
  let buffer ← store buffer i BLANK
  let i ← back buffer i
  let c ← buffer[i]?
  if c = AMPERSAND then
    let buffer ← store buffer i BLANK
    let i ← back buffer i
    let buffer ← store buffer (i + 1) 0
    return (buffer, i + 1, true)
  else
    let buffer ← store buffer (i + 1) 0
    return (buffer, i + 1, false)

/-- The calls of `Exec`, for the buffers that `Read` fills: the command, and whether the shell
    does not wait for it. -/
def main : List (List Byte) → Option (List (List Byte × Bool))
  | [] => some []
  | buffer :: rest => do
      let (buffer, i, bg) ← parse buffer
      -- `n_strcmp("exit", buffer) == 0`
      if string buffer = EXIT then return []
      let calls ← main rest
      if i > 0 then return (string buffer, bg) :: calls else return calls

/-! ## What a line stands for -/

/-- Without the blanks at the end. -/
def trimmed (l : List Byte) : List Byte := l.rdropWhile (· = BLANK)

/-- The command of a line, if there is one. -/
def command (l : List Byte) : Option (List Byte × Bool) :=
  match (trimmed l).getLast? with
  | none => none
  | some c =>
      if c = AMPERSAND then
        if trimmed (trimmed l).dropLast = [] then none
        else some (trimmed (trimmed l).dropLast, true)
      else some (trimmed l, false)

/-- The commands of some lines, up to an `exit`. -/
def commands : List (List Byte) → Option (List (List Byte × Bool))
  | [] => some []
  | l :: rest => do
      let (s, bg) ← command l
      if s = EXIT then return []
      let calls ← commands rest
      return (s, bg) :: calls

variable {l s rest : List Byte} {c : Byte}

theorem back_blanks (h : ∀ x ∈ l, x = BLANK) : back (l ++ rest) l.length = none := by
  induction l using List.reverseRecOn generalizing rest with
  | nil => rfl
  | append_singleton l x ih =>
      obtain rfl : x = BLANK := h x (by simp)
      have hget : (l ++ [BLANK] ++ rest)[l.length]? = some BLANK := by simp
      rw [List.length_append, List.length_singleton, back, hget, Option.bind_eq_bind,
        Option.bind_some, if_pos rfl, List.append_assoc]
      exact ih fun x hx => h x (List.mem_append_left _ hx)

/-- The loop stops at the last character that is not a blank. -/
theorem back_eq (hc : c ≠ BLANK) (h : ∀ x ∈ l, x = BLANK) :
    back (s ++ c :: l ++ rest) (s.length + 1 + l.length) = some s.length := by
  induction l using List.reverseRecOn generalizing rest with
  | nil =>
      have hget : (s ++ [c] ++ rest)[s.length]? = some c := by simp
      rw [List.length_nil, Nat.add_zero, back, hget, Option.bind_eq_bind, Option.bind_some,
        if_neg hc]
  | append_singleton l x ih =>
      obtain rfl : x = BLANK := h x (by simp)
      have hget : (s ++ c :: (l ++ [BLANK]) ++ rest)[s.length + 1 + l.length]? = some BLANK := by
        have hlen : (s ++ c :: l).length = s.length + 1 + l.length := by
          rw [List.length_append, List.length_cons]
          omega
        have hsplit : s ++ c :: (l ++ [BLANK]) ++ rest = (s ++ c :: l) ++ BLANK :: rest := by simp
        rw [hsplit, List.getElem?_append_right (Nat.le_of_eq hlen), hlen, Nat.sub_self]
        rfl
      have hsplit : s ++ c :: (l ++ [BLANK]) ++ rest = s ++ c :: l ++ ([BLANK] ++ rest) := by simp
      rw [List.length_append, List.length_singleton, ← Nat.add_assoc, back, hget,
        Option.bind_eq_bind, Option.bind_some, if_pos rfl, hsplit]
      exact ih fun x hx => h x (List.mem_append_left _ hx)

/-- A line has blanks only, or a last character that is none. -/
theorem trimmed_cases (l : List Byte) :
    trimmed l = [] ∧ (∀ x ∈ l, x = BLANK) ∨
      ∃ s c blanks, trimmed l = s ++ [c] ∧ c ≠ BLANK ∧ l = s ++ c :: blanks ∧
        ∀ x ∈ blanks, x = BLANK := by
  rcases List.eq_nil_or_concat (trimmed l) with hnil | ⟨s, c, hs⟩
  · refine Or.inl ⟨hnil, fun x hx => ?_⟩
    simpa using List.rdropWhile_eq_nil_iff.mp hnil x hx
  · rw [List.concat_eq_append] at hs
    refine Or.inr ⟨s, c, l.rtakeWhile (· = BLANK), hs, ?_, ?_, fun x hx => ?_⟩
    · have hne : l.rdropWhile (· = BLANK) ≠ [] := fun h => by
        rw [trimmed, h] at hs
        exact List.append_ne_nil_of_right_ne_nil s (List.cons_ne_nil c []) hs.symm
      have hlast : (l.rdropWhile (· = BLANK)).getLast hne = c := by
        simp only [trimmed] at hs
        simp [hs]
      simpa [hlast] using List.rdropWhile_last_not (fun x => decide (x = BLANK)) l hne
    · have hsplit : trimmed l ++ l.rtakeWhile (· = BLANK) = l :=
        List.rdropWhile_append_rtakeWhile
      rw [hs, List.append_assoc, List.singleton_append] at hsplit
      exact hsplit.symm
    · simpa using List.mem_rtakeWhile_imp hx

/-- The command ends where the zero is stored. -/
theorem store_end (s : List Byte) (c : Byte) (hne : l ++ rest ≠ []) :
    ∃ tail, store (s ++ c :: l ++ rest) (s.length + 1) 0 = some (s ++ [c] ++ 0 :: tail) := by
  obtain ⟨x, tail, hx⟩ := List.exists_cons_of_ne_nil hne
  refine ⟨tail, ?_⟩
  have hstored := store_append (s ++ [c]) tail x 0
  rw [List.length_append, List.length_singleton] at hstored
  rw [← hstored, List.append_assoc, List.cons_append, hx, List.append_assoc,
    List.singleton_append]

/-- What is left of a line, and where the loop stops. -/
theorem back_trimmed (l rest : List Byte) :
    trimmed l = [] ∧ back (l ++ BLANK :: rest) l.length = none ∨
      ∃ s c blanks, trimmed l = s ++ [c] ∧ l = s ++ c :: blanks ∧
        back (l ++ BLANK :: rest) l.length = some s.length := by
  rcases trimmed_cases l with ⟨hnil, hblanks⟩ | ⟨s, c, blanks, hs, hc, rfl, hblanks⟩
  · exact Or.inl ⟨hnil, back_blanks hblanks⟩
  · refine Or.inr ⟨s, c, blanks, hs, rfl, ?_⟩
    have hlen : (s ++ c :: blanks).length = s.length + 1 + blanks.length := by
      rw [List.length_append, List.length_cons]
      omega
    rw [hlen]
    exact back_eq hc hblanks

/-- What comes of a line: its command, or no result when there is none. -/
def Parses (l : List Byte) (parsed : Option (List Byte × Nat × Bool)) : Prop :=
  (command l = none ∧ parsed = none) ∨
    ∃ s bg tail, command l = some (s, bg) ∧ s ≠ [] ∧ s ⊆ l ∧
      parsed = some (s ++ 0 :: tail, s.length, bg)

/-- An `&` at the end, and what stands before it. -/
theorem parses_background {blanks : List Byte}
    (hs : trimmed (s ++ AMPERSAND :: blanks) = s ++ [AMPERSAND]) (rest : List Byte) :
    Parses (s ++ AMPERSAND :: blanks) (do
      let i ← back (s ++ BLANK :: rest) s.length
      let buffer ← store (s ++ BLANK :: rest) (i + 1) 0
      return (buffer, i + 1, true)) := by
  rcases back_trimmed s rest with ⟨hnil, hback⟩ | ⟨s', c, blanks', hs', rfl, hback⟩
  · refine Or.inl ⟨?_, by rw [hback]; rfl⟩
    simp [command, hs, hnil]
  · obtain ⟨tail, htail⟩ := store_end s' c (show blanks' ++ BLANK :: rest ≠ [] by simp)
    refine Or.inr ⟨s' ++ [c], true, tail, ?_, by simp, ?_, ?_⟩
    · simp only [command, hs, List.getLast?_concat, if_true, List.dropLast_concat, hs']
      simp
    · intro x hx
      rw [List.append_assoc, List.cons_append]
      rcases List.mem_append.mp hx with hx | hx
      · exact List.mem_append_left _ hx
      · obtain rfl := List.mem_singleton.mp hx
        exact List.mem_append_right _ List.mem_cons_self
    · rw [hback, List.length_append, List.length_singleton]
      simp only [Option.bind_eq_bind, Option.bind_some, htail]
      rfl

/-- A line is parsed as its command, and a line without one is not parsed. -/
theorem parse_eq (h : NEWLINE ∉ l) (rest : List Byte) :
    Parses l (parse (l ++ NEWLINE :: rest)) := by
  have hscan : scan (· == NEWLINE) (l ++ NEWLINE :: rest) 0 = some l.length := by
    have hfound := scan_append (· == NEWLINE) [] l rest
      (fun x hx => by simpa using fun he : x = NEWLINE => h (he ▸ hx)) (beq_self_eq_true NEWLINE)
    simpa using hfound
  have hstore : store (l ++ NEWLINE :: rest) l.length BLANK = some (l ++ BLANK :: rest) :=
    store_append l rest NEWLINE BLANK
  rw [parse, hscan]
  simp only [Option.bind_eq_bind, Option.bind_some, hstore]
  rcases back_trimmed l rest with ⟨hnil, hback⟩ | ⟨s, c, blanks, hs, rfl, hback⟩
  · refine Or.inl ⟨?_, by rw [hback]; rfl⟩
    simp [command, hnil]
  · have hget : (s ++ c :: blanks ++ BLANK :: rest)[s.length]? = some c := by simp
    rw [hback]
    simp only [Option.bind_some, hget]
    by_cases hand : c = AMPERSAND
    · subst hand
      have hcut : store (s ++ AMPERSAND :: blanks ++ BLANK :: rest) s.length BLANK =
          some (s ++ BLANK :: (blanks ++ BLANK :: rest)) := by
        rw [List.append_assoc, List.cons_append, store_append]
      rw [if_pos rfl, hcut, Option.bind_some]
      exact parses_background hs (blanks ++ BLANK :: rest)
    · obtain ⟨tail, htail⟩ := store_end s c (show blanks ++ BLANK :: rest ≠ [] by simp)
      refine Or.inr ⟨s ++ [c], false, tail, ?_, by simp, ?_, ?_⟩
      · simp [command, hs, hand]
      · intro x hx
        rcases List.mem_append.mp hx with hx | hx
        · exact List.mem_append_left _ hx
        · obtain rfl := List.mem_singleton.mp hx
          exact List.mem_append_right _ List.mem_cons_self
      · rw [if_neg hand, htail, List.length_append, List.length_singleton]
        rfl

/-- A line that does not fit into the buffer has no end there. -/
theorem parse_overlong {buffer : List Byte} (h : NEWLINE ∉ buffer) : parse buffer = none := by
  have hscan : scan (· == NEWLINE) buffer 0 = none := by
    rw [scan, List.drop_zero, Option.map_eq_none_iff, List.findIdx?_eq_none_iff]
    exact fun x hx => by simpa using fun he : x = NEWLINE => h (he ▸ hx)
  rw [parse, hscan]
  rfl

end Shell
end Nachos
