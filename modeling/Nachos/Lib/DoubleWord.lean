/-
  Nachos.Lib.DoubleWord

  Two words of a machine taken as one number of twice the width, the high word first.
  What a machine does word by word (an addition with the carry out of the low words, a
  doubling, a change of the sign) is done to the number.
-/

import Mathlib.Tactic.Ring
import Mathlib.Tactic.Linarith
import Mathlib.Data.Nat.Basic

namespace DoubleWord

variable {w : Nat}

theorem toNat_append (hi lo : BitVec w) : (hi ++ lo).toNat = hi.toNat * 2 ^ w + lo.toNat := by
  rw [BitVec.toNat_append, ← Nat.shiftLeft_add_eq_or_of_lt lo.isLt, Nat.shiftLeft_eq]

/-- There is a carry out of a sum just when it is smaller than a summand. -/
theorem toNat_carry (lo lo' : BitVec w) :
    lo.toNat + lo'.toNat =
      (lo + lo').toNat + if lo + lo' < lo' then 2 ^ w else 0 := by
  have hlo : lo.toNat < 2 ^ w := lo.isLt
  have hlo' : lo'.toNat < 2 ^ w := lo'.isLt
  have hmod : (lo + lo').toNat = (lo.toNat + lo'.toNat) % 2 ^ w := BitVec.toNat_add lo lo'
  simp only [BitVec.lt_def]
  rcases Nat.lt_or_ge (lo.toNat + lo'.toNat) (2 ^ w) with h | h
  · rw [Nat.mod_eq_of_lt h] at hmod
    rw [if_neg (by omega)]
    omega
  · rw [Nat.mod_eq_sub_mod h, Nat.mod_eq_of_lt (by omega)] at hmod
    rw [if_pos (by omega)]
    omega

/-- A high word counts modulo `2 ^ w` only. -/
theorem ofNat_append (h : Nat) (lo : BitVec w) :
    BitVec.ofNat w h ++ lo = BitVec.ofNat (w + w) (h * 2 ^ w + lo.toNat) := by
  apply BitVec.eq_of_toNat_eq
  rw [toNat_append, BitVec.toNat_ofNat, BitVec.toNat_ofNat, Nat.pow_add, Nat.mod_mul,
    Nat.mul_add_mod_self_right, Nat.mod_eq_of_lt lo.isLt, Nat.mul_comm h,
    Nat.mul_add_div (Nat.two_pow_pos w), Nat.div_eq_of_lt lo.isLt, Nat.add_zero,
    Nat.mul_comm, Nat.add_comm]

theorem append_eq_ofNat (hi lo : BitVec w) :
    hi ++ lo = BitVec.ofNat (w + w) (hi.toNat * 2 ^ w + lo.toNat) := by
  rw [← ofNat_append, BitVec.ofNat_toNat, BitVec.setWidth_eq]

/-- The sum, word by word. -/
theorem add_append (hi hi' lo lo' : BitVec w) :
    ((if lo + lo' < lo' then hi + 1 else hi) + hi') ++ (lo + lo') =
      (hi ++ lo) + (hi' ++ lo') := by
  have hhigh : (if lo + lo' < lo' then hi + 1 else hi) + hi' =
      BitVec.ofNat w (hi.toNat + hi'.toNat + if lo + lo' < lo' then 1 else 0) := by
    apply BitVec.eq_of_toNat_eq
    split <;> simp [Nat.add_right_comm]
  have hlow := toNat_carry lo lo'
  rw [hhigh, ofNat_append, append_eq_ofNat hi, append_eq_ofNat hi', ← BitVec.ofNat_add]
  congr 1
  split at hlow
  · rename_i hc
    rw [if_pos hc]
    linarith [hlow]
  · rename_i hc
    rw [if_neg hc]
    linarith [hlow]

/-- The double, with the bit that is shifted out of the low word. -/
theorem shiftLeft_append (hi lo : BitVec w) :
    (if lo.msb then hi <<< 1 ||| 1 else hi <<< 1) ++ (lo <<< 1) = (hi ++ lo) <<< 1 := by
  have hbit : ∀ i < w, (if lo.msb then hi <<< 1 ||| 1 else hi <<< 1).getLsbD i =
      if i = 0 then lo.msb else hi.getLsbD (i - 1) := by
    intro i hi'
    have hlt : i - 1 < w := by omega
    split <;> rename_i hmsb <;> by_cases h0 : i = 0 <;> simp_all
  apply BitVec.eq_of_getLsbD_eq
  intro i hi'
  simp only [BitVec.getLsbD_append, BitVec.getLsbD_shiftLeft]
  split
  · -- a bit of the low word
    rename_i hlow
    by_cases h0 : i < 1
    · simp [h0]
    · have : i - 1 < w := by omega
      simp [hlow, h0, this, hi']
  · -- a bit of the high word, the lowest of which comes out of the low word
    rename_i hhigh
    have h0 : ¬ i < 1 := by omega
    rw [hbit (i - w) (by omega)]
    by_cases heq : i = w
    · subst heq
      have : i - 1 < i := by omega
      simp [h0, this, hi', BitVec.msb_eq_getLsbD_last]
    · have hne : ¬ i - w = 0 := by omega
      have hge : ¬ i - 1 < w := by omega
      have hsub : i - 1 - w = i - w - 1 := by omega
      simp [h0, hne, hge, hi', hsub]

/-- The sign changed: the complement of both words and one more. -/
theorem neg_append (hi lo : BitVec (w + 1)) :
    (if ~~~lo + 1 = 0 then ~~~hi + 1 else ~~~hi) ++ (~~~lo + 1) = -(hi ++ lo) := by
  have hone : (0 : BitVec (w + 1)) ++ (1 : BitVec (w + 1)) =
      (1 : BitVec (w + 1 + (w + 1))) := by
    rw [append_eq_ofNat]
    simp
  have hlt : ~~~lo + 1 < 1 ↔ ~~~lo + 1 = 0 := by
    have hval : (1 : BitVec (w + 1)).toNat = 1 := BitVec.toNat_one (by omega)
    rw [BitVec.lt_def, hval, Nat.lt_one_iff, BitVec.toNat_eq]
    rfl
  have hneg : -(hi ++ lo) = ~~~(hi ++ lo) + 1 := BitVec.neg_eq_not_add _
  have hzero : ∀ x : BitVec (w + 1), x + 0 = x := fun x => BitVec.add_zero x
  have hsum := add_append (~~~hi) 0 (~~~lo) 1
  rw [hone, hzero, ← BitVec.not_append, ← hneg] at hsum
  simpa only [hlt] using hsum

end DoubleWord
