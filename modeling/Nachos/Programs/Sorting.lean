/-
  Nachos.Programs.Sorting

  The programs `test/sort.c` and `test/sortf.c`.  The first sorts an array in place by
  insertion, the second has a function that sorts the start of one by exchanges.  The elements
  are compared and moved only, so they are integers here; an access outside of the array has
  no result.
-/

import Mathlib.Data.List.Induction
import Nachos.Lib.CharArray

namespace Nachos

open CharArray (store store_append)

namespace InsertionSort

/-- The `while` loop of `sort.c`, and the store behind it; `p` is `i + 1`. -/
def shift (key : Int) : Nat → List Int → Option (List Int)
  | 0, A => store A 0 key
  | p + 1, A => do
      let x ← A[p]?
      if x > key then
        let A ← store A (p + 1) x
        shift key p A
      else store A (p + 1) key

/-- The loop around it, from `j` on, with `n` rounds before it. -/
def sortFrom : Nat → Nat → List Int → Option (List Int)
  | 0, _, A => some A
  | n + 1, j, A => do
      let key ← A[j]?
      let A ← shift key j A
      sortFrom n (j + 1) A

/-- The two loops, for an array of `NUM` elements. -/
def sort (A : List Int) : Option (List Int) := sortFrom (A.length - 1) 1 A

/-- The array at the start: `A[i] = NUM - i`. -/
def filled (NUM : Nat) : List Int := (List.range NUM).map fun i : Nat => (NUM : Int) - i

/-- `main`: the elements that are printed before and after, and the argument of `Exit`. -/
def main (NUM : Nat) : Option (List Int × List Int × Int) := do
  let A ← sort (filled NUM)
  let status ← A[0]?
  return (filled NUM, A, status)

variable {pre : List Int}

/-- The key gets its place in the part that is sorted. -/
theorem shift_eq (key c : Int) (rest : List Int) (h : pre.Pairwise (· ≤ ·)) :
    ∃ B, shift key pre.length (pre ++ c :: rest) = some (B ++ rest) ∧ B.Perm (key :: pre) ∧
      B.Pairwise (· ≤ ·) := by
  induction pre using List.reverseRecOn generalizing c rest with
  | nil => exact ⟨[key], store_append [] rest c key, List.Perm.refl _, List.pairwise_singleton _ _⟩
  | append_singleton l x ih =>
      obtain ⟨hl, -, hx⟩ := List.pairwise_append.mp h
      have hget : (l ++ [x] ++ c :: rest)[l.length]? = some x := by simp
      have hstore : ∀ y, store (l ++ [x] ++ c :: rest) (l.length + 1) y =
          some (l ++ [x] ++ y :: rest) := by
        intro y
        have hstored := store_append (l ++ [x]) rest c y
        rwa [List.length_append, List.length_singleton] at hstored
      rw [List.length_append, List.length_singleton]
      by_cases hlt : x > key
      · -- the cell of `x` is free now
        obtain ⟨B, hB, hperm, hsorted⟩ := ih x (x :: rest) hl
        refine ⟨B ++ [x], ?_, ?_, ?_⟩
        · rw [shift, hget]
          simp only [Option.bind_eq_bind, Option.bind_some, if_pos hlt, hstore]
          rw [List.append_assoc, List.singleton_append, hB, List.append_assoc,
            List.singleton_append]
        · exact (hperm.append_right [x]).trans (List.Perm.refl _)
        · refine List.pairwise_append.mpr ⟨hsorted, List.pairwise_singleton _ _, ?_⟩
          intro a ha b hb
          obtain rfl := List.mem_singleton.mp hb
          rcases List.mem_cons.mp (hperm.mem_iff.mp ha) with rfl | hmem
          · exact Int.le_of_lt hlt
          · exact hx a hmem _ List.mem_cons_self
      · refine ⟨l ++ [x] ++ [key], ?_, ?_, ?_⟩
        · rw [shift, hget]
          simp only [Option.bind_eq_bind, Option.bind_some, if_neg hlt, hstore]
          rw [List.append_assoc (l ++ [x]), List.singleton_append]
        · exact List.perm_append_comm
        · refine List.pairwise_append.mpr ⟨h, List.pairwise_singleton _ _, ?_⟩
          intro a ha b hb
          obtain rfl := List.mem_singleton.mp hb
          rcases List.mem_append.mp ha with hmem | hmem
          · exact Int.le_trans (hx a hmem x List.mem_cons_self) (Int.not_lt.mp hlt)
          · exact List.mem_singleton.mp hmem ▸ Int.not_lt.mp hlt

/-- The part that is sorted grows up to the end. -/
theorem sortFrom_eq (rest : List Int) (h : pre.Pairwise (· ≤ ·)) :
    ∃ B, sortFrom rest.length pre.length (pre ++ rest) = some B ∧ B.Perm (pre ++ rest) ∧
      B.Pairwise (· ≤ ·) := by
  induction rest generalizing pre with
  | nil =>
      rw [List.append_nil]
      exact ⟨pre, rfl, List.Perm.refl _, h⟩
  | cons key rest ih =>
      have hget : (pre ++ key :: rest)[pre.length]? = some key := by simp
      obtain ⟨B, hB, hperm, hsorted⟩ := shift_eq key key rest h
      have hlen : B.length = pre.length + 1 := hperm.length_eq
      obtain ⟨C, hC, hperm', hsorted'⟩ := ih hsorted
      refine ⟨C, ?_, hperm'.trans ?_, hsorted'⟩
      · rw [List.length_cons, sortFrom, hget]
        simp only [Option.bind_eq_bind, Option.bind_some, hB]
        rw [← hlen, hC]
      · exact (hperm.append_right rest).trans List.perm_middle.symm

/-- The loops of `sort.c` sort every array, of any length, and access nothing outside of it. -/
theorem insertion_sorts (A : List Int) :
    ∃ B, sort A = some B ∧ B.Perm A ∧ B.Pairwise (· ≤ ·) := by
  cases A with
  | nil => exact ⟨[], rfl, List.Perm.refl _, List.Pairwise.nil⟩
  | cons a A => exact sortFrom_eq A (List.pairwise_singleton _ a)

theorem filled_perm (NUM : Nat) :
    ((List.range NUM).map fun i : Nat => (i : Int) + 1).Perm (filled NUM) := by
  have hreverse : filled NUM = ((List.range NUM).map fun i : Nat => (i : Int) + 1).reverse := by
    apply List.ext_getElem (by simp [filled])
    intro i hi hi'
    have hlt : i < NUM := by simpa [filled] using hi
    simp only [filled, List.getElem_map, List.getElem_range, List.getElem_reverse,
      List.length_map, List.length_range]
    omega
  rw [hreverse]
  exact (List.reverse_perm _).symm

/-- The program prints the numbers down to 1 and then up from 1.  It exits with 1, where the
    comment of the source expects 0. -/
theorem main_eq {NUM : Nat} (h : 0 < NUM) :
    main NUM = some (filled NUM, (List.range NUM).map fun i : Nat => (i : Int) + 1, 1) := by
  obtain ⟨B, hB, hperm, hsorted⟩ := insertion_sorts (filled NUM)
  have hup : ((List.range NUM).map fun i : Nat => (i : Int) + 1).Pairwise (· ≤ ·) := by
    refine List.pairwise_map.mpr (List.pairwise_lt_range.imp fun hab => ?_)
    omega
  have hcount : B = (List.range NUM).map fun i : Nat => (i : Int) + 1 :=
    List.Perm.eq_of_pairwise (fun _ _ _ _ hab hba => Int.le_antisymm hab hba) hsorted hup
      (hperm.trans (filled_perm NUM).symm)
  have hfirst : B[0]? = some 1 := by
    rw [hcount]
    simp [h]
  rw [main, hB]
  simp only [Option.bind_eq_bind, Option.bind_some, hfirst]
  rw [hcount]
  rfl

end InsertionSort

namespace ExchangeSort

/-- The inner loop of `sort`, from `j` on, with `n` rounds before it. -/
def pass : Nat → Nat → List Int → Option (List Int)
  | 0, _, p => some p
  | n + 1, j, p => do
      let x ← p[j]?
      let y ← p[j + 1]?
      if x > y then
        let p ← store p j y
        let p ← store p (j + 1) x
        pass n (j + 1) p
      else pass n (j + 1) p

/-- The outer loop, from `i` on. -/
def passes (size : Nat) : Nat → Nat → List Int → Option (List Int)
  | 0, _, p => some p
  | n + 1, i, p => do
      let p ← pass (size - i - 1) 0 p
      passes size n (i + 1) p

/-- `sort`. -/
def sort (p : List Int) (size : Nat) : Option (List Int) := passes size (size - 1) 0 p

/-- A pass moves a largest element to the end. -/
theorem pass_eq (pre mid rest : List Int) (x : Int) :
    ∃ front y, pass mid.length pre.length (pre ++ x :: (mid ++ rest)) =
        some (pre ++ (front ++ y :: rest)) ∧
      (front ++ [y]).Perm (x :: mid) ∧ ∀ a ∈ x :: mid, a ≤ y := by
  induction mid generalizing pre x with
  | nil => exact ⟨[], x, rfl, List.Perm.refl _, by simp⟩
  | cons y mid ih =>
      have hx : (pre ++ x :: (y :: mid ++ rest))[pre.length]? = some x := by simp
      have hy : (pre ++ x :: (y :: mid ++ rest))[pre.length + 1]? = some y := by simp
      -- the rest of the pass carries `b` on, and leaves `a`
      have hgo : ∀ a b, ∃ front c,
          pass mid.length (pre.length + 1) (pre ++ a :: b :: (mid ++ rest)) =
              some (pre ++ (a :: front ++ c :: rest)) ∧
            (front ++ [c]).Perm (b :: mid) ∧ ∀ d ∈ b :: mid, d ≤ c := by
        intro a b
        have hrest := ih (pre ++ [a]) b
        simpa only [List.length_append, List.length_singleton, List.append_assoc,
          List.singleton_append, List.cons_append, List.nil_append] using hrest
      rw [List.length_cons, pass, hx, hy]
      simp only [Option.bind_eq_bind, Option.bind_some]
      by_cases hlt : x > y
      · obtain ⟨front, c, hpass, hperm, hmax⟩ := hgo y x
        refine ⟨y :: front, c, ?_, (hperm.cons y).trans (List.Perm.swap x y mid), ?_⟩
        · have hfirst : store (pre ++ x :: (y :: mid ++ rest)) pre.length y =
              some (pre ++ y :: (y :: mid ++ rest)) := store_append _ _ _ _
          have hsecond : store (pre ++ y :: (y :: mid ++ rest)) (pre.length + 1) x =
              some (pre ++ y :: x :: (mid ++ rest)) := by
            have hstored := store_append (pre ++ [y]) (mid ++ rest) y x
            simpa using hstored
          rw [if_pos hlt, hfirst, Option.bind_some, hsecond, Option.bind_some, hpass]
        · intro a ha
          rcases List.mem_cons.mp ha with rfl | ha
          · exact hmax _ List.mem_cons_self
          · rcases List.mem_cons.mp ha with rfl | ha
            · exact Int.le_trans (Int.le_of_lt hlt) (hmax _ List.mem_cons_self)
            · exact hmax a (List.mem_cons_of_mem x ha)
      · obtain ⟨front, c, hpass, hperm, hmax⟩ := hgo x y
        refine ⟨x :: front, c, ?_, hperm.cons x, ?_⟩
        · rw [if_neg hlt]
          exact hpass
        · intro a ha
          rcases List.mem_cons.mp ha with rfl | ha
          · exact Int.le_trans (Int.not_lt.mp hlt) (hmax _ List.mem_cons_self)
          · exact hmax a ha

/-- After `i` passes the last `i` elements are in their places. -/
theorem passes_eq {front back : List Int} {size n i : Nat} (rest : List Int)
    (hlen : front.length = n + 1) (hsize : size = n + 1 + i)
    (hback : back.Pairwise (· ≤ ·)) (hle : ∀ a ∈ front, ∀ b ∈ back, a ≤ b) :
    ∃ B, passes size n i (front ++ (back ++ rest)) = some (B ++ rest) ∧
      B.Perm (front ++ back) ∧ B.Pairwise (· ≤ ·) := by
  induction n generalizing front back i with
  | zero =>
      obtain ⟨a, rfl⟩ := List.length_eq_one_iff.mp hlen
      refine ⟨[a] ++ back, by rw [passes, List.append_assoc], List.Perm.refl _, ?_⟩
      exact List.pairwise_append.mpr ⟨List.pairwise_singleton _ _, hback, hle⟩
  | succ n ih =>
      obtain ⟨x, mid, rfl⟩ := List.exists_cons_of_length_eq_add_one hlen
      have hmid : mid.length = n + 1 := Nat.succ.inj hlen
      obtain ⟨front, y, hpass, hperm, hmax⟩ := pass_eq [] mid (back ++ rest) x
      have hmem : ∀ {a}, a ∈ front ++ [y] → a ∈ x :: mid := fun ha => hperm.mem_iff.mp ha
      have hy : y ∈ x :: mid := hmem (by simp)
      have hfront : front.length = n + 1 := by
        have hcount := hperm.length_eq
        rw [List.length_append, List.length_singleton, List.length_cons, hmid] at hcount
        omega
      have hsorted : (y :: back).Pairwise (· ≤ ·) := List.pairwise_cons.mpr ⟨hle y hy, hback⟩
      have hbelow : ∀ a ∈ front, ∀ b ∈ y :: back, a ≤ b := by
        intro a ha b hb
        have ha' : a ∈ x :: mid := hmem (List.mem_append_left _ ha)
        rcases List.mem_cons.mp hb with rfl | hb
        · exact hmax a ha'
        · exact hle a ha' b hb
      obtain ⟨B, hB, hpermB, hsortedB⟩ :=
        ih hfront (show size = n + 1 + (i + 1) by omega) hsorted hbelow
      refine ⟨B, ?_, hpermB.trans ?_, hsortedB⟩
      · have hround : size - i - 1 = mid.length := by omega
        rw [List.nil_append, List.nil_append, List.length_nil] at hpass
        rw [passes, hround, List.cons_append, hpass]
        exact hB
      · have happend := hperm.append_right back
        rwa [List.append_assoc, List.singleton_append] at happend

/-- `sort` sorts the first `size` elements and leaves the others alone. -/
theorem exchanges_sort (p rest : List Int) :
    ∃ B, sort (p ++ rest) p.length = some (B ++ rest) ∧ B.Perm p ∧ B.Pairwise (· ≤ ·) := by
  cases p with
  | nil => exact ⟨[], rfl, List.Perm.refl _, List.Pairwise.nil⟩
  | cons x p =>
      have hnone : ∀ a ∈ x :: p, ∀ b ∈ ([] : List Int), a ≤ b := by simp
      obtain ⟨B, hB, hperm, hsorted⟩ :=
        passes_eq rest rfl (show (x :: p).length = p.length + 1 + 0 from rfl) List.Pairwise.nil
          hnone
      rw [List.append_nil] at hperm
      exact ⟨B, hB, hperm, hsorted⟩

end ExchangeSort

end Nachos
