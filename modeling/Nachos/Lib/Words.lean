/-
  Nachos.Lib.Words

  Arrays of bytes read as arrays of 32-bit words, least significant byte first,
  and written back.  An array is a function of the index, so reading and writing
  are inverse to each other without any bound.
-/

import Mathlib.Data.Int.Basic

namespace Words

abbrev Byte := BitVec 8

/-- Word `i` of an array of bytes. -/
def word (b : Nat → Byte) (i : Nat) : BitVec 32 :=
  b (4 * i + 3) ++ b (4 * i + 2) ++ b (4 * i + 1) ++ b (4 * i)

/-- Byte `j` of an array of words. -/
def byte (w : Nat → BitVec 32) (j : Nat) : Byte := (w (j / 4)).extractLsb' (8 * (j % 4)) 8

/-- Word `i`, as a signed integer. -/
def int (b : Nat → Byte) (i : Nat) : Int := (word b i).toInt

/-- The bytes of an array of integers. -/
def ofInts (x : Nat → Int) : Nat → Byte := byte fun i => BitVec.ofInt 32 (x i)

theorem getLsbD_word (b : Nat → Byte) (i j : Nat) (hj : j < 32) :
    (word b i).getLsbD j = (b (4 * i + j / 8)).getLsbD (j % 8) := by
  have h4 : j / 8 = 0 ∨ j / 8 = 1 ∨ j / 8 = 2 ∨ j / 8 = 3 := by omega
  unfold word
  simp only [BitVec.getLsbD_append]
  rcases h4 with h | h | h | h
  · have h8 : j < 8 := by omega
    simp [h8, h, Nat.mod_eq_of_lt h8]
  · have h8 : ¬ j < 8 := by omega
    have h16 : j - 8 < 8 := by omega
    have hm : j % 8 = j - 8 := by omega
    simp [h8, h16, h, hm]
  · have h8 : ¬ j < 8 := by omega
    have h16 : ¬ j - 8 < 8 := by omega
    have h24 : j - 8 - 8 < 8 := by omega
    have hm : j % 8 = j - 8 - 8 := by omega
    simp [h8, h16, h24, h, hm]
  · have h8 : ¬ j < 8 := by omega
    have h16 : ¬ j - 8 < 8 := by omega
    have h24 : ¬ j - 8 - 8 < 8 := by omega
    have hm : j % 8 = j - 8 - 8 - 8 := by omega
    simp [h8, h16, h24, h, hm]

theorem getLsbD_byte (w : Nat → BitVec 32) (j k : Nat) (hk : k < 8) :
    (byte w j).getLsbD k = (w (j / 4)).getLsbD (8 * (j % 4) + k) := by
  simp [byte, hk]

@[simp] theorem word_byte (w : Nat → BitVec 32) (i : Nat) : word (byte w) i = w i := by
  apply BitVec.eq_of_getLsbD_eq
  intro j hj
  have hd : (4 * i + j / 8) / 4 = i := by omega
  have hm : 8 * ((4 * i + j / 8) % 4) + j % 8 = j := by omega
  rw [getLsbD_word _ _ _ hj, getLsbD_byte _ _ _ (Nat.mod_lt _ (by decide)), hd, hm]

/-- A word depends on its four bytes. -/
theorem word_congr {b b' : Nat → Byte} {i : Nat} (h : ∀ j, j / 4 = i → b j = b' j) :
    word b i = word b' i := by
  unfold word
  rw [h (4 * i + 3) (by omega), h (4 * i + 2) (by omega), h (4 * i + 1) (by omega),
    h (4 * i) (by omega)]

theorem int_congr {b b' : Nat → Byte} {i : Nat} (h : ∀ j, j / 4 = i → b j = b' j) :
    int b i = int b' i := by
  unfold int
  rw [word_congr h]

/-- An integer in the range of a word survives the round trip. -/
theorem int_ofInts {x : Nat → Int} {i : Nat} (hlo : -2147483648 ≤ x i) (hhi : x i < 2147483648) :
    int (ofInts x) i = x i := by
  unfold int ofInts
  rw [word_byte, BitVec.toInt_ofInt, Int.bmod_def]
  split <;> omega

theorem int_lower (b : Nat → Byte) (i : Nat) : -2147483648 ≤ int b i := by
  have := BitVec.le_toInt (word b i)
  unfold int
  omega

theorem int_upper (b : Nat → Byte) (i : Nat) : int b i < 2147483648 := by
  have := BitVec.toInt_lt (x := word b i)
  unfold int
  omega

end Words
