/-
  Nachos.Lib.CharArray

  Zero-terminated strings in arrays.  An array is the list of its elements; an access
  beyond its end is undefined.  `strcpy` copies one element after the other, so that a
  string can be moved to the front of the array that holds it.
-/

import Mathlib.Data.List.Basic

namespace CharArray

variable {α : Type} [Zero α] [DecidableEq α]

/-- The array holds this string at its start. -/
def Holds (buf s : List α) : Prop := ∃ rest, buf = s ++ 0 :: rest

/-- The string at the start of an array. -/
def string (buf : List α) : List α := buf.takeWhile (· ≠ 0)

/-- The first position from `p` on where the scan stops. -/
def scan (stop : α → Bool) (buf : List α) (p : Nat) : Option Nat :=
  ((buf.drop p).findIdx? stop).map (p + ·)

/-- `strlen`. -/
def strlen (buf : List α) : Option Nat := scan (· == 0) buf 0

/-- `memmove`. -/
def memmove (buf : List α) (dst src n : Nat) : Option (List α) :=
  if dst + n ≤ buf.length ∧ src + n ≤ buf.length then
    some (buf.take dst ++ (buf.drop src).take n ++ buf.drop (dst + n))
  else none

/-- `strcpy`, within one array. -/
def strcpy (buf : List α) (dst src : Nat) : Option (List α) :=
  match h : buf[src]? with
  | none => none
  | some c =>
      if dst < buf.length then
        if c = 0 then some (buf.set dst c) else strcpy (buf.set dst c) (dst + 1) (src + 1)
      else none
termination_by buf.length - src
decreasing_by
  have hlt := (List.getElem?_eq_some_iff.mp h).1
  rw [List.length_set]
  omega

/-- `buf[q] = c`. -/
def store (buf : List α) (q : Nat) (c : α) : Option (List α) :=
  if q < buf.length then some (buf.set q c) else none

/-- `while (!stop(src[p])) dst[q++] = src[p++];`: the two ends, and `dst`. -/
def copyUntil (stop : α → Bool) (src dst : List α) (p q : Nat) : Option (Nat × Nat × List α) :=
  match h : src[p]? with
  | none => none
  | some c =>
      have := (List.getElem?_eq_some_iff.mp h).1
      if stop c then some (p, q, dst)
      else (store dst q c).bind fun dst => copyUntil stop src dst (p + 1) (q + 1)
termination_by src.length - p

/-! ## Reading -/

theorem Holds.string {buf s : List α} (h : Holds buf s) (hs : (0 : α) ∉ s) : string buf = s := by
  obtain ⟨rest, rfl⟩ := h
  rw [CharArray.string, List.takeWhile_append_of_pos]
  · simp
  · intro c hc
    simpa using fun he : c = 0 => hs (he ▸ hc)

/-- An array with a zero in it holds a string. -/
theorem holds_of_mem {buf : List α} (h : (0 : α) ∈ buf) :
    ∃ s, Holds buf s ∧ (0 : α) ∉ s := by
  induction buf with
  | nil => cases h
  | cons c buf ih =>
      by_cases hc : c = 0
      · exact ⟨[], ⟨buf, by rw [hc, List.nil_append]⟩, by simp⟩
      · have hmem : (0 : α) ∈ buf := (List.mem_cons.mp h).resolve_left (Ne.symm hc)
        obtain ⟨s, ⟨rest, hrest⟩, hs⟩ := ih hmem
        refine ⟨c :: s, ⟨rest, by rw [hrest, List.cons_append]⟩, ?_⟩
        rw [List.mem_cons, not_or]
        exact ⟨Ne.symm hc, hs⟩

omit [Zero α] [DecidableEq α] in
/-- A scan passes what does not stop it. -/
theorem scan_append (stop : α → Bool) (pre mid post : List α) {c : α}
    (hmid : ∀ x ∈ mid, stop x = false) (hc : stop c = true) :
    scan stop (pre ++ mid ++ c :: post) pre.length = some (pre.length + mid.length) := by
  have hfind : (mid ++ c :: post).findIdx? stop = some mid.length := by
    rw [List.findIdx?_append, List.findIdx?_eq_none_iff.mpr hmid, List.findIdx?_cons, hc]
    simp
  rw [scan, List.append_assoc, List.drop_left, hfind, Option.map_some]

omit [Zero α] [DecidableEq α] in
theorem scan_le {stop : α → Bool} {buf : List α} {p e : Nat} (h : scan stop buf p = some e) :
    p ≤ e := by
  obtain ⟨n, -, rfl⟩ := Option.map_eq_some_iff.mp h
  exact Nat.le_add_right p n

omit [Zero α] [DecidableEq α] in
/-- A scan that stops begins inside. -/
theorem scan_lt {stop : α → Bool} {buf : List α} {p e : Nat} (h : scan stop buf p = some e) :
    p < buf.length := by
  by_contra hle
  rw [scan, List.drop_of_length_le (Nat.not_lt.mp hle)] at h
  cases h

omit [Zero α] [DecidableEq α] in
/-- One element of a scan. -/
theorem scan_some {stop : α → Bool} {buf : List α} {p : Nat} {c : α} (h : buf[p]? = some c) :
    scan stop buf p = if stop c then some p else scan stop buf (p + 1) := by
  obtain ⟨hlt, hc⟩ := List.getElem?_eq_some_iff.mp h
  rw [scan, List.drop_eq_getElem_cons hlt, hc, List.findIdx?_cons]
  split
  · simp
  · rw [scan, Option.map_map]
    congr 1
    funext n
    simp only [Function.comp_apply]
    omega

theorem strlen_append (s rest : List α) (hs : (0 : α) ∉ s) :
    strlen (s ++ 0 :: rest) = some s.length := by
  have h := scan_append (fun c : α => c == 0) [] s rest
    (fun c hc => by simpa using fun he : c = 0 => hs (he ▸ hc)) (beq_self_eq_true 0)
  simpa [strlen] using h

/-! ## Copying -/

omit [DecidableEq α] in
/-- A string is moved down over what stands before it, with as many elements behind it as it
    is moved by. -/
theorem memmove_down (s pre rest : List α) (h : pre.length ≤ rest.length + 1) :
    ∃ rest', memmove (pre ++ s ++ 0 :: rest) 0 pre.length (pre.length + s.length) =
        some (s ++ 0 :: rest') ∧
      rest'.length = pre.length + rest.length := by
  have hmoved : ((pre ++ s ++ 0 :: rest).drop pre.length).take (pre.length + s.length) =
      s ++ (0 :: rest).take pre.length := by
    rw [List.append_assoc, List.drop_left, Nat.add_comm, List.take_length_add_append]
  have hkept : (pre ++ s ++ 0 :: rest).drop (0 + (pre.length + s.length)) = 0 :: rest := by
    rw [Nat.zero_add, ← List.length_append, List.drop_left]
  rw [memmove, if_pos (by simp; omega), hmoved, hkept, List.take_zero, List.nil_append,
    List.append_assoc]
  cases pre with
  | nil => exact ⟨rest, by simp, by simp⟩
  | cons c pre => exact ⟨rest.take pre.length ++ 0 :: rest, by simp, by simp at h ⊢; omega⟩

omit [Zero α] [DecidableEq α] in
theorem store_of_lt {buf : List α} {q : Nat} (h : q < buf.length) (c : α) :
    store buf q c = some (buf.set q c) := if_pos h

omit [Zero α] [DecidableEq α] in
theorem store_append (pre rest : List α) (c x : α) :
    store (pre ++ c :: rest) pre.length x = some (pre ++ x :: rest) := by
  simp [store]

omit [Zero α] [DecidableEq α] in
theorem copyUntil_some {stop : α → Bool} {src dst : List α} {p q : Nat} {c : α}
    (h : src[p]? = some c) : copyUntil stop src dst p q =
      if stop c then some (p, q, dst)
      else (store dst q c).bind fun dst => copyUntil stop src dst (p + 1) (q + 1) := by
  rw [copyUntil]
  split
  · rename_i hnone
    rw [h] at hnone
    cases hnone
  · rename_i c' hc'
    obtain rfl : c = c' := Option.some.inj (h.symm.trans hc')
    rfl

omit [Zero α] [DecidableEq α] in
/-- A copy goes as far as a scan, when there is room for what it passes. -/
theorem copyUntil_scan {stop : α → Bool} {src : List α} {p e : Nat}
    (h : scan stop src p = some e) {pre rest : List α} (hroom : e ≤ p + rest.length) :
    copyUntil stop src (pre ++ rest) p pre.length = some (e, pre.length + (e - p),
      pre ++ (src.drop p).take (e - p) ++ rest.drop (e - p)) := by
  induction rest generalizing p pre with
  | nil =>
      have hlt := scan_lt h
      obtain rfl : p = e := Nat.le_antisymm (scan_le h) hroom
      rw [scan_some (List.getElem?_eq_getElem hlt)] at h
      rw [copyUntil_some (List.getElem?_eq_getElem hlt)]
      split at h
      · simp [*]
      · exact absurd (scan_le h) (by omega)
  | cons r rest ih =>
      have hlt := scan_lt h
      rw [scan_some (List.getElem?_eq_getElem hlt)] at h
      rw [copyUntil_some (List.getElem?_eq_getElem hlt)]
      split at h
      · rename_i hstop
        obtain rfl := Option.some.inj h
        simp [hstop]
      · rename_i hgo
        have hle := scan_le h
        rw [if_neg hgo, store_of_lt (by simp), Option.bind_some]
        have hset : (pre ++ r :: rest).set pre.length src[p] = pre ++ [src[p]] ++ rest := by simp
        have hend : e - p = e - (p + 1) + 1 := by omega
        -- What has been copied is in front of the copy.
        have hcopy : copyUntil stop src (pre ++ [src[p]] ++ rest) (p + 1)
            (pre ++ [src[p]]).length = _ := ih h (by rw [List.length_cons] at hroom; omega)
        rw [List.length_append, List.length_singleton] at hcopy
        rw [hset, hcopy, hend, List.drop_eq_getElem_cons hlt, List.take_succ_cons,
          List.drop_succ_cons]
        simp
        omega

/-- One element of a copy. -/
theorem strcpy_some {buf : List α} {dst src : Nat} {c : α} (h : buf[src]? = some c)
    (hdst : dst < buf.length) :
    strcpy buf dst src =
      if c = 0 then some (buf.set dst c) else strcpy (buf.set dst c) (dst + 1) (src + 1) := by
  rw [strcpy]
  split
  · rename_i hnone
    rw [h] at hnone
    cases hnone
  · rename_i c' hc'
    obtain rfl : c = c' := Option.some.inj (h.symm.trans hc')
    rw [if_pos hdst]

/-- The string at `src` is copied down to `dst`: each element is read before the copy reaches
    it. -/
theorem strcpy_down (s : List α) (pre mid rest : List α) (hs : (0 : α) ∉ s) :
    ∃ rest', strcpy (pre ++ mid ++ s ++ 0 :: rest) pre.length (pre.length + mid.length) =
        some (pre ++ s ++ 0 :: rest') ∧
      rest'.length = mid.length + rest.length := by
  induction s generalizing pre mid with
  | nil =>
      rw [strcpy_some (c := 0) (by simp)
          (by simp only [List.length_append, List.length_cons]; omega), if_pos rfl]
      cases mid with
      | nil => exact ⟨rest, by simp, by simp⟩
      | cons m mid => exact ⟨mid ++ 0 :: rest, by simp, by simp; omega⟩
  | cons c s ih =>
      rw [List.mem_cons, not_or] at hs
      rw [strcpy_some (c := c) (by simp)
          (by simp only [List.length_append, List.length_cons]; omega), if_neg (Ne.symm hs.1)]
      -- The first element of the string is now the last one before the copy.
      cases mid with
      | nil =>
          obtain ⟨rest', hcpy, hlen⟩ := ih (pre ++ [c]) [] hs.2
          refine ⟨rest', ?_, hlen⟩
          simpa using hcpy
      | cons m mid =>
          obtain ⟨rest', hcpy, hlen⟩ := ih (pre ++ [c]) (mid ++ [c]) hs.2
          refine ⟨rest', ?_, by simpa using hlen⟩
          have hset : (pre ++ m :: mid ++ c :: s ++ 0 :: rest).set pre.length c =
              pre ++ [c] ++ (mid ++ [c]) ++ s ++ 0 :: rest := by simp
          have hdst : pre.length + 1 = (pre ++ [c]).length := by simp
          have hsrc : pre.length + (m :: mid).length + 1 =
              (pre ++ [c]).length + (mid ++ [c]).length := by
            simp
            omega
          rw [hset, hsrc, hdst, hcpy]
          simp

/-- Without a zero the copy runs off the end. -/
theorem strcpy_none {buf : List α} {dst src : Nat} (h : (0 : α) ∉ buf) :
    strcpy buf dst src = none := by
  induction hn : buf.length - src using Nat.strongRecOn generalizing buf dst src with
  | _ n ih =>
  cases hget : buf[src]? with
  | none => rw [strcpy]; split <;> simp_all
  | some c =>
      obtain ⟨hlt, hc⟩ := List.getElem?_eq_some_iff.mp hget
      have hne : c ≠ 0 := fun he => h (he ▸ hc ▸ List.getElem_mem hlt)
      by_cases hdst : dst < buf.length
      · rw [strcpy_some hget hdst, if_neg hne]
        refine ih _ (by rw [List.length_set]; omega) (fun hmem => ?_) rfl
        rcases List.mem_or_eq_of_mem_set hmem with hmem | he
        · exact h hmem
        · exact hne he.symm
      · rw [strcpy]
        split
        · rfl
        · rw [if_neg hdst]

end CharArray
