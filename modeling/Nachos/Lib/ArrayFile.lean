/-
  Nachos.Lib.ArrayFile

  An array that is read and overwritten from a position on, and that grows when a write
  goes past its end.  Reading past the end returns what there is; writing from past the
  end does nothing.  `replies` is what a sequence of calls returns.

  An implementation keeps the elements by their numbers: `elems f n` is the array of the
  first `n` values of `f`.  `elems_slice` and `elems_overwrite` are the two facts that
  show that such a representation answers as the array does.
-/

import Mathlib.Data.List.Basic

namespace ArrayFile

variable {α : Type*}

inductive Call (α : Type*) where
  | readAt (n p : Nat)
  | writeAt (data : List α) (p : Nat)

inductive Reply (α : Type*) where
  | data (l : List α)
  | count (n : Int)
  deriving DecidableEq

/-- `data` from position `p` on. -/
def overwrite (a data : List α) (p : Nat) : List α :=
  a.take p ++ data ++ a.drop (p + data.length)

/-- What a call returns. -/
def reply (a : List α) : Call α → Reply α
  | .readAt n p => .data ((a.drop p).take n)
  | .writeAt data p => .count (if p ≤ a.length then data.length else 0)

/-- What a call leaves. -/
def after (a : List α) : Call α → List α
  | .readAt _ _ => a
  | .writeAt data p => if p ≤ a.length then overwrite a data p else a

/-- What a sequence of calls returns. -/
def replies (a : List α) : List (Call α) → List (Reply α)
  | [] => []
  | c :: cs => reply a c :: replies (after a c) cs

theorem replies_concat (a : List α) (cs : List (Call α)) (c : Call α) :
    replies a (cs ++ [c]) = replies a cs ++ [reply (cs.foldl after a) c] := by
  induction cs generalizing a with
  | nil => rfl
  | cons c' cs ih =>
      rw [List.cons_append, replies, ih, replies, List.cons_append, List.foldl_cons]

/-- Data at the end are appended. -/
theorem overwrite_end (a data : List α) : overwrite a data a.length = a ++ data := by
  rw [overwrite, List.take_length, List.drop_eq_nil_of_le (Nat.le_add_right _ _), List.append_nil]

/-! ## Elements by their numbers -/

/-- The first `n` values of `f`. -/
def elems (f : Nat → α) (n : Nat) : List α := (List.range n).map f

variable {f f' : Nat → α} {n : Nat}

@[simp] theorem length_elems : (elems f n).length = n := by
  rw [elems, List.length_map, List.length_range]

@[simp] theorem getElem_elems {i : Nat} (h : i < (elems f n).length) : (elems f n)[i] = f i := by
  simp only [elems, List.getElem_map, List.getElem_range]

/-- A read from `p` on ends with the array. -/
theorem elems_slice (f : Nat → α) (n k p : Nat) :
    ((elems f n).drop p).take k = elems (fun j => f (p + j)) (min k (n - p)) := by
  apply List.ext_getElem
  · simp
  · intro i hi hi'
    rw [List.getElem_take, List.getElem_drop, getElem_elems, getElem_elems]

/-- The elements from `p` on are those of `data`, and the others have not changed. -/
theorem elems_overwrite {data : List α} {p : Nat} (hp : p ≤ n)
    (hnew : ∀ j (hj : j < data.length), f' (p + j) = data[j])
    (hold : ∀ o < n, o < p ∨ p + data.length ≤ o → f' o = f o) :
    elems f' (max n (p + data.length)) = overwrite (elems f n) data p := by
  have htake : ((elems f n).take p).length = p := by
    rw [List.length_take, length_elems, Nat.min_eq_left hp]
  have hlen : (((elems f n).take p) ++ data).length = p + data.length := by
    rw [List.length_append, htake]
  unfold overwrite
  apply List.ext_getElem
  · rw [List.length_append, hlen, List.length_drop, length_elems, length_elems]
    omega
  · intro i hi hi'
    rw [length_elems] at hi
    rw [getElem_elems]
    by_cases hlow : i < p
    · -- Before the data.
      rw [List.getElem_append_left (by omega), List.getElem_append_left (by omega),
        List.getElem_take, getElem_elems, hold i (by omega) (Or.inl hlow)]
    · obtain ⟨j, rfl⟩ : ∃ j, i = p + j := ⟨i - p, by omega⟩
      by_cases hmid : j < data.length
      · rw [List.getElem_append_left (by omega), List.getElem_append_right (by omega), hnew j hmid]
        congr 1
        omega
      · -- After the data: the array went on there already.
        rw [List.getElem_append_right (by omega), List.getElem_drop, getElem_elems,
          hold (p + j) (by omega) (Or.inr (by omega))]
        congr 1
        omega

end ArrayFile
