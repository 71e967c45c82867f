/-
  Nachos.Lib.FlatMemory

  Arrays in a memory without bounds.  `slice` is the array at an address, and `put` stores
  one there; `slice_put` and `slice_put_apart` say what a store does to the arrays around it.
-/

import Nachos.Lib.ArrayFile

namespace FlatMemory

open ArrayFile

variable {α : Type*}

/-- The `n` elements from address `a` on. -/
def slice (mem : Nat → α) (a n : Nat) : List α := elems (fun i => mem (a + i)) n

/-- The memory with the elements of `l` from address `a` on. -/
def put (mem : Nat → α) (a : Nat) (l : List α) (x : Nat) : α :=
  if h : a ≤ x ∧ x - a < l.length then l[x - a] else mem x

variable {mem : Nat → α} {a b n p : Nat} {l : List α}

@[simp] theorem length_slice : (slice mem a n).length = n := by simp [slice]

@[simp] theorem getElem_slice {i : Nat} (h : i < (slice mem a n).length) :
    (slice mem a n)[i] = mem (a + i) := getElem_elems h

theorem put_nil : put mem a [] = mem := by
  funext x
  simp [put]

/-- A store of one more element. -/
theorem update_put (c : α) :
    Function.update (put mem a l) (a + l.length) c = put mem a (l ++ [c]) := by
  funext x
  by_cases hx : x = a + l.length
  · subst hx
    simp [put]
  · rw [Function.update_of_ne hx]
    unfold put
    by_cases h : a ≤ x ∧ x - a < l.length
    · have h' : a ≤ x ∧ x - a < (l ++ [c]).length := by
        rw [List.length_append]
        omega
      rw [dif_pos h, dif_pos h', List.getElem_append_left h.2]
    · have h' : ¬ (a ≤ x ∧ x - a < (l ++ [c]).length) := by
        rw [List.length_append, List.length_singleton]
        omega
      rw [dif_neg h, dif_neg h']

theorem put_of_mem {i : Nat} (h : i < l.length) : put mem a l (a + i) = l[i] := by
  have hin : a ≤ a + i ∧ a + i - a < l.length := by omega
  rw [put, dif_pos hin]
  congr 1
  omega

theorem put_outside {x : Nat} (h : x < a ∨ a + l.length ≤ x) : put mem a l x = mem x := by
  rw [put, dif_neg (by omega)]

/-- An array that the store does not touch. -/
theorem slice_put_apart (h : a + n ≤ b ∨ b + l.length ≤ a) :
    slice (put mem b l) a n = slice mem a n := by
  apply List.ext_getElem (by simp)
  intro i hi _
  have hin : i < n := by simpa using hi
  rw [getElem_slice, getElem_slice, put_outside (by omega)]

/-- The array that the store is in. -/
theorem slice_put (h : p + l.length ≤ n) :
    slice (put mem (a + p) l) a n = overwrite (slice mem a n) l p := by
  have hover : elems (fun i => put mem (a + p) l (a + i)) (max n (p + l.length)) =
      overwrite (elems (fun i => mem (a + i)) n) l p :=
    elems_overwrite (by omega) (fun j hj => by rw [← Nat.add_assoc, put_of_mem hj])
      (fun o _ hout => put_outside (by omega))
  rwa [Nat.max_eq_left h] at hover

end FlatMemory
