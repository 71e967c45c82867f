/-
  Nachos.Lib.Stdio

  A text stream that is read line by line with `fgets` and `feof`, and the conversions of
  `sscanf` for words and integers, as far as the C standard says what they do.  A line is
  given by its characters without the newline that ends it.
-/

import Mathlib.Algebra.Group.Int.Defs
import Mathlib.Data.List.Basic
import Mathlib.Data.List.TakeWhile

namespace Stdio

/-! ## Streams -/

/-- What is left of a stream, and its end-of-file indicator. -/
structure FILE where
  rest : List Char
  eof : Bool

/-- At most `n` characters, up to the first newline; the indicator is set when the end is
    met before. -/
def read : Nat → List Char → List Char × FILE
  | 0, rest => ([], ⟨rest, false⟩)
  | _ + 1, [] => ([], ⟨[], true⟩)
  | n + 1, c :: rest =>
      if c = '\n' then ([c], ⟨rest, false⟩)
      else
        let (s, stream) := read n rest
        (c :: s, stream)

/-- `fgets (s, n, stream)`: when no character is read, the array `s` is as it was. -/
def fgets (s : List Char) (n : Nat) (stream : FILE) : List Char × FILE :=
  match read (n - 1) stream.rest with
  | ([], stream) => (s, stream)
  | (c :: line, stream) => (c :: line, stream)

variable {n : Nat} {line rest : List Char}

/-- A line is read with its newline when there is room for both. -/
theorem read_line (hline : '\n' ∉ line) (hn : line.length < n) :
    read n (line ++ '\n' :: rest) = (line ++ ['\n'], ⟨rest, false⟩) := by
  induction line generalizing n with
  | nil =>
      obtain ⟨n, rfl⟩ := Nat.exists_eq_succ_of_ne_zero (Nat.ne_of_gt hn)
      rfl
  | cons c line ih =>
      obtain ⟨n, rfl⟩ := Nat.exists_eq_succ_of_ne_zero (Nat.ne_of_gt (Nat.zero_lt_of_lt hn))
      obtain ⟨hc, hline⟩ := not_or.mp (mt List.mem_cons.mpr hline)
      rw [List.cons_append, read, if_neg (Ne.symm hc), ih hline (Nat.lt_of_succ_lt_succ hn)]
      rfl

/-- A line that takes all the room leaves its newline, and the end of the stream unseen. -/
theorem read_full (hline : '\n' ∉ line) :
    read line.length (line ++ rest) = (line, ⟨rest, false⟩) := by
  induction line with
  | nil =>
      cases rest with
      | nil => rfl
      | cons c rest => rfl
  | cons c line ih =>
      obtain ⟨hc, hline⟩ := not_or.mp (mt List.mem_cons.mpr hline)
      rw [List.cons_append, List.length_cons, read, if_neg (Ne.symm hc), ih hline]

/-- The end of the stream is seen after a last line without a newline. -/
theorem read_last (hline : '\n' ∉ line) (hn : line.length < n) :
    read n line = (line, ⟨[], true⟩) := by
  induction line generalizing n with
  | nil =>
      obtain ⟨n, rfl⟩ := Nat.exists_eq_succ_of_ne_zero (Nat.ne_of_gt hn)
      rfl
  | cons c line ih =>
      obtain ⟨n, rfl⟩ := Nat.exists_eq_succ_of_ne_zero (Nat.ne_of_gt (Nat.zero_lt_of_lt hn))
      obtain ⟨hc, hline⟩ := not_or.mp (mt List.mem_cons.mpr hline)
      rw [read, if_neg (Ne.symm hc), ih hline (Nat.lt_of_succ_lt_succ hn)]

theorem read_rest_le (n : Nat) (s : List Char) :
    (read n s).1.length + (read n s).2.rest.length = s.length := by
  induction n generalizing s with
  | zero => cases s <;> simp [read]
  | succ n ih =>
      cases s with
      | nil => rfl
      | cons c s =>
          rw [read]
          split
          · simp [Nat.add_comm]
          · have := ih s
            simp only [List.length_cons]
            omega

/-- How far a stream is from its end, for the loops that read it. -/
def FILE.left (stream : FILE) : Nat := if stream.eof then 0 else stream.rest.length + 1

/-- Each call brings the stream nearer to its end. -/
theorem fgets_left {s : List Char} {stream : FILE} (hn : 2 ≤ n) (heof : stream.eof = false) :
    (fgets s n stream).2.left < stream.left := by
  obtain ⟨k, rfl⟩ : ∃ k, n = k + 2 := ⟨n - 2, by omega⟩
  have hlen := read_rest_le (k + 1) stream.rest
  have hleft : (fgets s (k + 2) stream).2 = (read (k + 1) stream.rest).2 := by
    rw [fgets]
    split
    · rename_i h
      exact (congrArg Prod.snd h).symm
    · rename_i h
      exact (congrArg Prod.snd h).symm
  rw [hleft, FILE.left, FILE.left, heof]
  cases hrest : stream.rest with
  | nil => simp [read]
  | cons c rest =>
      rw [hrest] at hlen
      have hpos : 0 < (read (k + 1) (c :: rest)).1.length := by
        rw [read]
        split
        · simp
        · simp
      split
      · simp
      · simp only [List.length_cons] at hlen ⊢
        simp
        omega

/-! ## Conversions -/

/-- White space. -/
def isspace (c : Char) : Bool := c = ' ' || 9 ≤ c.toNat && c.toNat ≤ 13

/-- A white-space directive. -/
def skip (s : List Char) : List Char := s.dropWhile isspace

/-- `%s`, and what comes after the word. -/
def scanWord (s : List Char) : Option (List Char × List Char) :=
  match (skip s).takeWhile (! isspace ·) with
  | [] => none
  | c :: word => some (c :: word, (skip s).dropWhile (! isspace ·))

/-- White space and the character `c`. -/
def scanChar (c : Char) (s : List Char) : Option (List Char) :=
  match skip s with
  | [] => none
  | x :: s => if x = c then some s else none

/-- The value of a digit, 16 for what is none. -/
def digit (c : Char) : Nat :=
  if '0' ≤ c ∧ c ≤ '9' then c.toNat - '0'.toNat
  else if 'a' ≤ c ∧ c ≤ 'f' then c.toNat - 'a'.toNat + 10
  else if 'A' ≤ c ∧ c ≤ 'F' then c.toNat - 'A'.toNat + 10
  else 16

/-- The digits at the start. -/
def scanDigits (base : Nat) (s : List Char) : Option Nat :=
  match s.takeWhile (digit · < base) with
  | [] => none
  | c :: digits => some ((c :: digits).foldl (fun v c => base * v + digit c) 0)

/-- The number of `%i` without its sign: hexadecimal, octal or decimal. -/
def scanUnsigned : List Char → Option Nat
  | [] => none
  | c :: s =>
      if c = '0' then
        match s with
        | [] => some 0
        | x :: digits =>
            if x = 'x' ∨ x = 'X' then scanDigits 16 digits else scanDigits 8 (c :: x :: digits)
      else scanDigits 10 (c :: s)

/-- The number of `%i`. -/
def scanSigned : List Char → Option Int
  | [] => none
  | c :: s =>
      if c = '-' then (scanUnsigned s).map fun n => -(n : Int)
      else if c = '+' then (scanUnsigned s).map Int.ofNat
      else (scanUnsigned (c :: s)).map Int.ofNat

/-- `%i`; a number that is no `int` has no value. -/
def scanInt (s : List Char) : Option Int :=
  (scanSigned (skip s)).filter fun v => -2 ^ 31 ≤ v ∧ v < 2 ^ 31

/-! ### The newline at the end -/

/-- The same text, perhaps with a newline at the end. -/
def Ended (s t : List Char) : Prop := t = s ∨ t = s ++ ['\n']

theorem Ended.refl (s : List Char) : Ended s s := Or.inl rfl

theorem Ended.newline (s : List Char) : Ended s (s ++ ['\n']) := Or.inr rfl

theorem takeWhile_newline {p : Char → Bool} (hp : p '\n' = false) (s : List Char) :
    (s ++ ['\n']).takeWhile p = s.takeWhile p := by
  induction s with
  | nil => simp [hp]
  | cons c s ih =>
      rw [List.cons_append, List.takeWhile_cons, List.takeWhile_cons, ih]

theorem dropWhile_newline {p : Char → Bool} (hp : p '\n' = false) (s : List Char) :
    (s ++ ['\n']).dropWhile p = s.dropWhile p ++ ['\n'] := by
  induction s with
  | nil => simp [hp]
  | cons c s ih =>
      rw [List.cons_append, List.dropWhile_cons, List.dropWhile_cons, ih]
      split
      · rfl
      · rfl

section

variable {s t : List Char}

theorem Ended.skip (h : Ended s t) : Ended (skip s) (skip t) := by
  rcases h with rfl | rfl
  · exact Ended.refl _
  · unfold Stdio.skip
    rw [List.dropWhile_append]
    split
    · rename_i hnil
      rw [List.isEmpty_iff.mp hnil]
      exact Ended.refl []
    · exact Ended.newline _

/-- The word is the same, and so is what a computation makes of the rest that does not
    look at the newline. -/
theorem Ended.scanWord_bind {α : Type} (h : Ended s t)
    {f : List Char × List Char → Option α}
    (hf : ∀ word s' t', Ended s' t' → f (word, t') = f (word, s')) :
    (scanWord t >>= f) = (scanWord s >>= f) := by
  rcases h.skip with hs | hs
  · rw [scanWord, scanWord, hs]
  · rw [scanWord, scanWord, hs, takeWhile_newline (by decide), dropWhile_newline (by decide)]
    cases (Stdio.skip s).takeWhile (! isspace ·) with
    | nil => rfl
    | cons c word => exact hf _ _ _ (Ended.newline _)

theorem Ended.scanChar_bind {α : Type} (h : Ended s t) {c : Char} (hc : c ≠ '\n')
    {f : List Char → Option α} (hf : ∀ s' t', Ended s' t' → f t' = f s') :
    (scanChar c t >>= f) = (scanChar c s >>= f) := by
  rcases h.skip with hs | hs
  · rw [scanChar, scanChar, hs]
  · rw [scanChar, scanChar, hs]
    cases Stdio.skip s with
    | nil =>
        show (if '\n' = c then some [] else none) >>= f = none >>= f
        rw [if_neg (Ne.symm hc)]
    | cons x s =>
        show (if x = c then some (s ++ ['\n']) else none) >>= f =
          (if x = c then some s else none) >>= f
        split
        · exact hf _ _ (Ended.newline s)
        · rfl

theorem scanDigits_newline {base : Nat} (hbase : base ≤ 16) (s : List Char) :
    scanDigits base (s ++ ['\n']) = scanDigits base s := by
  have hdigit : decide (digit '\n' < base) = false := by
    rw [decide_eq_false_iff_not]
    exact Nat.not_lt_of_le hbase
  rw [scanDigits, scanDigits, takeWhile_newline hdigit]

theorem scanUnsigned_newline (s : List Char) : scanUnsigned (s ++ ['\n']) = scanUnsigned s := by
  cases s with
  | nil => rfl
  | cons c s =>
      by_cases hc : c = '0'
      · cases s with
        | nil =>
            rw [hc]
            rfl
        | cons x digits =>
            rw [List.cons_append, List.cons_append, scanUnsigned, scanUnsigned, if_pos hc,
              if_pos hc, scanDigits_newline (Nat.le_refl _), ← List.cons_append,
              ← List.cons_append, scanDigits_newline (by decide)]
      · have hdecimal : ∀ s, scanUnsigned (c :: s) = scanDigits 10 (c :: s) := fun s => if_neg hc
        rw [List.cons_append, hdecimal, hdecimal, ← List.cons_append,
          scanDigits_newline (by decide)]

theorem scanSigned_newline (s : List Char) : scanSigned (s ++ ['\n']) = scanSigned s := by
  cases s with
  | nil => rfl
  | cons c s =>
      rw [List.cons_append, scanSigned, scanSigned, scanUnsigned_newline, ← List.cons_append,
        scanUnsigned_newline]

theorem Ended.scanInt (h : Ended s t) : scanInt t = scanInt s := by
  rw [Stdio.scanInt, Stdio.scanInt]
  rcases h.skip with hs | hs
  · rw [hs]
  · rw [hs, scanSigned_newline]

end

end Stdio
