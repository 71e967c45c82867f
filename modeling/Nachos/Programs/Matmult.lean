/-
  Nachos.Programs.Matmult

  The program `test/matmult.c`: three nested loops that multiply two matrices.  The indices are
  those of the arrays, and the arithmetic is that of the machine, modulo 2^32.
-/

import Mathlib

namespace Nachos
namespace Matmult

variable {n : Nat}

/-- A square array of `int`. -/
abbrev Table (n : Nat) := Matrix (Fin n) (Fin n) (BitVec 32)

/-- `C[i][j] = x`. -/
def assign (C : Table n) (i j : Fin n) (x : BitVec 32) : Table n :=
  fun i' j' => if i' = i ∧ j' = j then x else C i' j'

/-- The loop over `k`. -/
def sumLoop (A B : Table n) (i j : Fin n) : List (Fin n) → Table n → Table n
  | [], C => C
  | k :: ks, C => sumLoop A B i j ks (assign C i j (C i j + A i k * B k j))

/-- The loop over `j`. -/
def rowLoop (A B : Table n) (i : Fin n) : List (Fin n) → Table n → Table n
  | [], C => C
  | j :: js, C => rowLoop A B i js (sumLoop A B i j (List.finRange n) C)

/-- The loop over `i`. -/
def tableLoop (A B : Table n) : List (Fin n) → Table n → Table n
  | [], C => C
  | i :: is, C => tableLoop A B is (rowLoop A B i (List.finRange n) C)

/-- The matrices at the start. -/
def rowNumbers (n : Nat) : Table n := fun i _ => BitVec.ofNat 32 i

def columnNumbers (n : Nat) : Table n := fun _ j => BitVec.ofNat 32 j

/-- `main`: the argument of `Exit`. -/
def main (Dim : Nat) (h : 0 < Dim) : BitVec 32 :=
  let last : Fin Dim := ⟨Dim - 1, Nat.sub_one_lt_of_lt h⟩
  tableLoop (rowNumbers Dim) (columnNumbers Dim) (List.finRange Dim) 0 last last

section Loops

variable (A B C : Table n) (i j i' j' : Fin n)

/-- The inner loop adds its products to one place. -/
theorem sumLoop_apply (ks : List (Fin n)) :
    sumLoop A B i j ks C i' j' =
      C i' j' + if i' = i ∧ j' = j then (ks.map fun k => A i k * B k j).sum else 0 := by
  induction ks generalizing C with
  | nil => simp [sumLoop]
  | cons k ks ih =>
      rw [sumLoop, ih, assign]
      by_cases h : i' = i ∧ j' = j
      · obtain ⟨rfl, rfl⟩ := h
        simp [add_assoc]
      · simp [h]

/-- A row gets the products of the row, at the places that the loop has passed. -/
theorem rowLoop_apply (js : List (Fin n)) (hjs : js.Nodup) :
    rowLoop A B i js C i' j' = C i' j' + if i' = i ∧ j' ∈ js then (A * B) i j' else 0 := by
  induction js generalizing C with
  | nil => simp [rowLoop]
  | cons j js ih =>
      obtain ⟨hnot, hjs⟩ := List.nodup_cons.mp hjs
      have hsum : ((List.finRange n).map fun k => A i k * B k j).sum = (A * B) i j := by
        rw [Matrix.mul_apply, ← List.sum_ofFn, List.ofFn_eq_map]
      rw [rowLoop, ih _ hjs, sumLoop_apply, hsum]
      by_cases hj : j' = j
      · subst hj
        simp [hnot]
      · simp [hj]

theorem tableLoop_apply (is : List (Fin n)) (his : is.Nodup) :
    tableLoop A B is C i' j' = C i' j' + if i' ∈ is then (A * B) i' j' else 0 := by
  induction is generalizing C with
  | nil => simp [tableLoop]
  | cons i is ih =>
      obtain ⟨hnot, his⟩ := List.nodup_cons.mp his
      rw [tableLoop, ih _ his, rowLoop_apply _ _ _ _ _ _ _ (List.nodup_finRange n)]
      by_cases hi : i' = i
      · subst hi
        simp [hnot]
      · simp [hi]

/-- The three loops add the product of the matrices. -/
theorem loops_multiply : tableLoop A B (List.finRange n) C = C + A * B := by
  funext i' j'
  rw [tableLoop_apply _ _ _ _ _ _ (List.nodup_finRange n), if_pos (List.mem_finRange i')]
  rfl

end Loops

/-- The program exits with the last element of the product. -/
theorem main_eq (Dim : Nat) (h : 0 < Dim) :
    main Dim h = BitVec.ofNat 32 (Dim * ((Dim - 1) * (Dim - 1))) := by
  rw [main, loops_multiply, zero_add, Matrix.mul_apply]
  simp only [rowNumbers, columnNumbers, Finset.sum_const, Finset.card_univ, Fintype.card_fin,
    nsmul_eq_mul]
  rw [BitVec.natCast_eq_ofNat, ← BitVec.ofNat_mul, ← BitVec.ofNat_mul]

end Matmult
end Nachos
