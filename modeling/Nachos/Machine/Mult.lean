/-
  Nachos.Machine.Mult

  The multiplication of the simulated processor (`Mult` in `machine/mipssim.cc`).  It
  makes both factors positive, goes through the bits of `a` with `b` shifted along in two
  words, adds up what the set bits select, and changes the sign of the two words of the
  result in the end.

  The words of the simulator have 32 bits and wrap around; `a >> 1` keeps the sign of `a`.
-/

import Nachos.Lib.DoubleWord

namespace Nachos
namespace Mips

open DoubleWord

/-- The local words of `Mult` that its loop changes. -/
structure MultState where
  a : BitVec 32
  bLo : BitVec 32
  bHi : BitVec 32
  lo : BitVec 32
  hi : BitVec 32
deriving DecidableEq, Repr

namespace MultState

/-- `lo += bLo`, the carry into `hi`, and `hi += bHi`. -/
def add (s : MultState) : MultState :=
  let lo := s.lo + s.bLo
  { s with lo := lo, hi := (if lo < s.bLo then s.hi + 1 else s.hi) + s.bHi }

/-- The end of an iteration: `bHi` and `bLo` go to the left, `a` goes to the right. -/
def shift (s : MultState) : MultState :=
  { s with
    bHi := if s.bLo &&& 0x80000000 ≠ 0 then s.bHi <<< 1 ||| 1 else s.bHi <<< 1
    bLo := s.bLo <<< 1
    a := s.a.sshiftRight 1 }

/-- The words of the result: of the sum, or of its two's complement. -/
def result (negative : Bool) (s : MultState) : BitVec 32 × BitVec 32 :=
  if negative then
    let lo := ~~~s.lo + 1
    (if lo = 0 then ~~~s.hi + 1 else ~~~s.hi, lo)
  else (s.hi, s.lo)

end MultState

/-- `n` iterations of the loop of `Mult`, or as many as there are before its `break`. -/
def multLoop : Nat → MultState → MultState
  | 0, s => s
  | n + 1, s =>
      if s.a &&& 1 ≠ 0 then
        if s.a &&& 0xfffffffe = 0 then s.add else multLoop n s.add.shift
      else multLoop n s.shift

/-- What `Mult` puts in `*hiPtr` and `*loPtr`. -/
def Mult (a b : BitVec 32) (signedArith : Bool) : BitVec 32 × BitVec 32 :=
  if a = 0 ∨ b = 0 then (0, 0)
  else
    let negative := signedArith && (a.slt 0 != b.slt 0)
    let a := if signedArith ∧ a.slt 0 then -a else a
    let b := if signedArith ∧ b.slt 0 then -b else b
    (multLoop 32 { a := a, bLo := b, bHi := 0, lo := 0, hi := 0 }).result negative

/-! ## The loop -/

theorem and_one_ne_zero (x : BitVec 32) : x &&& 1 ≠ 0 ↔ x.toNat % 2 = 1 := by
  rw [Ne, BitVec.toNat_eq, BitVec.toNat_and]
  show ¬ x.toNat &&& 1 = 0 ↔ _
  rw [Nat.and_one_is_mod]
  omega

theorem and_msb_ne_zero (x : BitVec 32) : x &&& 0x80000000 ≠ 0 ↔ x.msb = true := by
  have hmask : (0x80000000 : BitVec 32) = BitVec.twoPow 32 31 := by decide
  rw [hmask, BitVec.and_twoPow, BitVec.msb_eq_getLsbD_last]
  split
  · rename_i h
    simp [h]
  · rename_i h
    simpa using h

/-- The test of the `break`: no bit but the lowest is left. -/
theorem and_high_eq_zero (x : BitVec 32) : x &&& 0xfffffffe = 0 ↔ x.toNat < 2 := by
  have hmask : x &&& (0xfffffffe : BitVec 32) = (x >>> 1) <<< 1 := by
    apply BitVec.eq_of_getLsbD_eq
    intro i hi
    have hbit : (0xfffffffe : BitVec 32).getLsbD i = (~~~(1 : BitVec 32)).getLsbD i := rfl
    rw [BitVec.getLsbD_and, hbit, BitVec.getLsbD_not, BitVec.getLsbD_shiftLeft,
      BitVec.getLsbD_ushiftRight]
    by_cases h0 : i = 0
    · simp [h0]
    · have hsucc : 1 + (i - 1) = i := by omega
      have hpos : ¬ i < 1 := by omega
      simp [hi, h0, hsucc, hpos]
  have hval : ((x >>> 1) <<< 1).toNat = x.toNat / 2 * 2 := by
    rw [BitVec.toNat_shiftLeft, BitVec.toNat_ushiftRight, Nat.shiftLeft_eq, Nat.shiftRight_one]
    have := x.isLt
    omega
  rw [hmask, BitVec.toNat_eq, hval]
  show _ = 0 ↔ _
  omega

/-- The bits of a word that an arithmetic shift moves, as a number. -/
theorem sshiftRight_mod {n : Nat} (x : BitVec 32) (hn : n < 32) :
    (x.sshiftRight 1).toNat % 2 ^ n = x.toNat / 2 % 2 ^ n := by
  apply Nat.eq_of_testBit_eq
  intro j
  rw [Nat.testBit_mod_two_pow, Nat.testBit_mod_two_pow, BitVec.testBit_toNat,
    BitVec.getLsbD_sshiftRight, Nat.testBit_div_two, BitVec.testBit_toNat]
  by_cases hj : j < n
  · have h32 : ¬ 32 ≤ j := by omega
    have hlt : j + 1 < 32 := by omega
    simp [h32, hlt, Nat.add_comm 1]
  · simp [hj]

namespace MultState

/-- What has been added up. -/
def sum (s : MultState) : BitVec 64 := s.hi ++ s.lo

/-- The other factor, as far as it is shifted. -/
def shifted (s : MultState) : BitVec 64 := s.bHi ++ s.bLo

theorem sum_add (s : MultState) : s.add.sum = s.sum + s.shifted :=
  DoubleWord.add_append _ _ _ _

theorem shifted_shift (s : MultState) : s.shift.shifted = 2 * s.shifted := by
  have hdouble : (2 : BitVec 64) * s.shifted = s.shifted <<< 1 := by
    rw [BitVec.shiftLeft_eq_mul_twoPow, BitVec.mul_comm]
    rfl
  rw [hdouble]
  simp only [shifted, shift, and_msb_ne_zero]
  exact shiftLeft_append _ _

/-- What has been added up and what is still to be added: of `a`, the iterations to
    come look at the lowest `n` bits. -/
def total (n : Nat) (s : MultState) : BitVec 64 :=
  s.sum + BitVec.ofNat 64 (s.a.toNat % 2 ^ n) * s.shifted

theorem total_zero (s : MultState) : s.total 0 = s.sum := by
  simp [total, Nat.mod_one]

theorem total_succ (n : Nat) (s : MultState) :
    s.total (n + 1) =
      s.sum + BitVec.ofNat 64 (s.a.toNat % 2 + s.a.toNat / 2 % 2 ^ n * 2) * s.shifted := by
  have hmod : s.a.toNat % 2 ^ (n + 1) = s.a.toNat % 2 + s.a.toNat / 2 % 2 ^ n * 2 := by
    rw [Nat.pow_succ', Nat.mod_mul, Nat.mul_comm 2]
  rw [total, hmod]

theorem total_shift {n : Nat} (s : MultState) (hn : n < 32) :
    s.shift.total n = s.sum + BitVec.ofNat 64 (s.a.toNat / 2 % 2 ^ n * 2) * s.shifted := by
  have ha : s.shift.a.toNat % 2 ^ n = s.a.toNat / 2 % 2 ^ n := sshiftRight_mod s.a hn
  rw [total, ha, shifted_shift, BitVec.ofNat_mul, BitVec.mul_assoc]
  rfl

/-- An iteration that finds the lowest bit set keeps the total. -/
theorem total_add {n : Nat} {s : MultState} (hn : n < 32) (hodd : s.a.toNat % 2 = 1) :
    s.add.shift.total n = s.total (n + 1) := by
  rw [total_shift _ hn, total_succ, sum_add, hodd, BitVec.ofNat_add, BitVec.add_mul,
    BitVec.one_mul, ← BitVec.add_assoc]
  rfl

/-- So does one that does not. -/
theorem total_skip {n : Nat} {s : MultState} (hn : n < 32) (heven : ¬ s.a.toNat % 2 = 1) :
    s.shift.total n = s.total (n + 1) := by
  have hzero : s.a.toNat % 2 = 0 := by omega
  rw [total_shift s hn, total_succ, hzero, Nat.zero_add]

end MultState

/-- The loop ends with the product in `hi` and `lo`. -/
theorem multLoop_sum (n : Nat) (s : MultState) (hn : n ≤ 32) :
    (multLoop n s).sum = s.total n := by
  induction n generalizing s with
  | zero => exact s.total_zero.symm
  | succ n ih =>
      unfold multLoop
      simp only [and_one_ne_zero, and_high_eq_zero]
      split
      · rename_i hodd
        split
        · -- the last set bit: the other factor is added once more
          rename_i hlast
          have hhigh : s.a.toNat / 2 = 0 := by omega
          rw [s.sum_add, s.total_succ, hodd, hhigh]
          simp
        · rw [ih _ (by omega), MultState.total_add (by omega) hodd]
      · rename_i heven
        rw [ih _ (by omega), MultState.total_skip (by omega) heven]

/-! ## The product -/

theorem zero_append_word (x : BitVec 32) : (0 : BitVec 32) ++ x = BitVec.ofNat 64 x.toNat := by
  rw [append_eq_ofNat]
  simp

/-- What the loop of `Mult` leaves: the product of the two words taken without sign. -/
theorem multLoop_product (a b : BitVec 32) :
    (multLoop 32 { a := a, bLo := b, bHi := 0, lo := 0, hi := 0 }).sum =
      BitVec.ofNat 64 (a.toNat * b.toNat) := by
  rw [multLoop_sum 32 _ (Nat.le_refl _), MultState.total, Nat.mod_eq_of_lt a.isLt,
    MultState.sum, MultState.shifted, zero_append_word, zero_append_word, BitVec.ofNat_mul]
  exact BitVec.zero_add _

/-- The sign and the size of a word, as `Mult` takes them apart. -/
theorem toInt_eq_sign (x : BitVec 32) :
    x.toInt = if x.slt 0 then -((-x).toNat : Int) else (x.toNat : Int) := by
  have hx := x.isLt
  have hmsb : x.slt 0 = decide (2 ^ 31 ≤ x.toNat) :=
    BitVec.slt_zero_eq_msb.trans (BitVec.msb_eq_decide x)
  rw [BitVec.toInt_eq_toNat_cond, BitVec.toNat_neg]
  by_cases hneg : 2 ^ 31 ≤ x.toNat
  · rw [if_neg (by omega), hmsb, if_pos (by simpa using hneg)]
    omega
  · rw [if_pos (by omega), hmsb, if_neg (by simpa using hneg)]

/-- The two words that `Mult` gives after its loop, by the sign of the result. -/
theorem result_append (negative : Bool) (a b : BitVec 32) :
    let r := (multLoop 32 { a := a, bLo := b, bHi := 0, lo := 0, hi := 0 }).result negative
    r.1 ++ r.2 =
      BitVec.ofInt 64 (if negative then -(a.toNat * b.toNat : Int) else a.toNat * b.toNat) := by
  have hprod : BitVec.ofInt 64 (a.toNat * b.toNat) =
      (multLoop 32 { a := a, bLo := b, bHi := 0, lo := 0, hi := 0 }).sum := by
    rw [multLoop_product, ← BitVec.ofInt_natCast, Int.natCast_mul]
  cases negative
  · exact hprod.symm
  · rw [if_pos rfl, BitVec.ofInt_neg, hprod]
    exact neg_append _ _

/-- The two words of `Mult`, before anything is said about their range. -/
theorem Mult_append (a b : BitVec 32) (signedArith : Bool) :
    (Mult a b signedArith).1 ++ (Mult a b signedArith).2 =
      BitVec.ofInt 64 (if signedArith then a.toInt * b.toInt else a.toNat * b.toNat) := by
  unfold Mult
  split
  · -- a factor is zero
    rename_i hzero
    have hnone : (if signedArith then a.toInt * b.toInt else (a.toNat * b.toNat : Int)) = 0 := by
      rcases hzero with rfl | rfl <;> cases signedArith <;> simp
    rw [hnone]
    rfl
  · rw [result_append]
    congr 1
    cases signedArith
    · rfl
    · rw [if_pos rfl, toInt_eq_sign a, toInt_eq_sign b]
      cases a.slt 0 <;> cases b.slt 0 <;> simp

/-- `Mult` gives the 64-bit product: of the words as signed integers if it is called for
    `OP_MULT`, as unsigned integers if it is called for `OP_MULTU`. -/
theorem Mult_eq_product (a b : BitVec 32) (signedArith : Bool) :
    if signedArith then
      ((Mult a b signedArith).1 ++ (Mult a b signedArith).2).toInt = a.toInt * b.toInt
    else
      ((Mult a b signedArith).1 ++ (Mult a b signedArith).2).toNat = a.toNat * b.toNat := by
  rw [Mult_append]
  cases signedArith
  · -- the product of two unsigned words is below `2 ^ 64`
    have hlt : a.toNat * b.toNat < 2 ^ 32 * 2 ^ 32 := Nat.mul_lt_mul'' a.isLt b.isLt
    rw [if_neg (by decide), if_neg (by decide), ← Int.natCast_mul, BitVec.ofInt_natCast,
      BitVec.toNat_ofNat]
    exact Nat.mod_eq_of_lt hlt
  · have hle : a.toInt * b.toInt ≤ 2 ^ 62 := BitVec.toInt_mul_toInt_le
    have hge : -2 ^ 62 ≤ a.toInt * b.toInt := BitVec.le_toInt_mul_toInt
    rw [if_pos rfl, if_pos rfl, BitVec.toInt_ofInt]
    exact Int.bmod_eq_of_le (by omega) (by omega)

end Mips
end Nachos
