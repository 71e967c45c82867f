/-
  Nachos.Filesys.BitMap

  `utility/bitmap.cc`: an array of bits in an array of 32-bit words.  The map
  stands for the set of its set bits; every operation is described by what it
  does to that set.  Reading a map from a file and writing it to one are with the
  files.
-/

import Mathlib.Data.List.Nodup
import Nachos.Filesys.Disk

namespace Nachos

open Words

structure BitMap where
  numBits : Nat
  map : Nat → BitVec 32

namespace BitMap

/-- `ASSERT(which >= 0 && which < numBits)`. -/
def InRange (m : BitMap) (which : Int) : Prop := 0 ≤ which ∧ which < m.numBits

instance (m : BitMap) (which : Int) : Decidable (m.InRange which) :=
  inferInstanceAs (Decidable (_ ∧ _))

def setWord (m : BitMap) (i : Nat) (x : BitVec 32) : BitMap :=
  { m with map := fun j => if j = i then x else m.map j }

/-- `BitMap::Mark`; `none` when the `ASSERT` fails. -/
def mark (m : BitMap) (which : Int) : Option BitMap :=
  if m.InRange which then
    let i := which.toNat
    some (m.setWord (i / 32) (m.map (i / 32) ||| 1#32 <<< (i % 32)))
  else none

/-- `BitMap::Clear`. -/
def clear (m : BitMap) (which : Int) : Option BitMap :=
  if m.InRange which then
    let i := which.toNat
    some (m.setWord (i / 32) (m.map (i / 32) &&& ~~~(1#32 <<< (i % 32))))
  else none

/-- `BitMap::Test`. -/
def test (m : BitMap) (which : Int) : Option Bool :=
  if m.InRange which then
    let i := which.toNat
    some (m.map (i / 32) &&& 1#32 <<< (i % 32) != 0#32)
  else none

/-- `BitMap::Find`: the first clear bit is marked; `-1` when there is none. -/
def find (m : BitMap) : Int × BitMap :=
  match (List.range m.numBits).find? fun (i : Nat) => m.test i == some false with
  | some i => (i, (m.mark i).getD m)
  | none => (-1, m)

/-- `BitMap::NumClear`. -/
def numClear (m : BitMap) : Nat :=
  (List.range m.numBits).countP fun (i : Nat) => m.test i == some false

/-- The loop of `BitMap::BitMap`: clear the first `n` bits. -/
def clearFirst (m : BitMap) : Nat → BitMap
  | 0 => m
  | n + 1 => ((m.clearFirst n).clear n).getD (m.clearFirst n)

/-- `BitMap::BitMap`, over the words it allocates. -/
def create (nitems : Nat) (words : Nat → BitVec 32) : BitMap :=
  (BitMap.mk nitems words).clearFirst nitems

/-! ## The set of bits -/

/-- Bit `i` is set. -/
def has (m : BitMap) (i : Nat) : Bool := (m.map (i / 32)).getLsbD (i % 32)

theorem and_twoPow_ne_zero (x : BitVec 32) {k : Nat} (hk : k < 32) :
    (x &&& 1#32 <<< k != 0#32) = x.getLsbD k := by
  have hbit : (x &&& 1#32 <<< k).getLsbD k = x.getLsbD k := by
    simp [hk]
  cases hx : x.getLsbD k with
  | true =>
      rw [bne_iff_ne]
      intro h
      rw [h, hx] at hbit
      simp at hbit
  | false =>
      rw [bne_eq_false_iff_eq]
      apply BitVec.eq_of_getLsbD_eq
      intro j hj
      by_cases hjk : j = k
      · subst hjk
        simp [hx]
      · have hne : j < k ∨ j - k ≠ 0 := by omega
        simp only [BitVec.getLsbD_and, BitVec.getLsbD_shiftLeft, BitVec.getLsbD_zero,
          BitVec.getLsbD_one]
        rcases hne with h | h <;> simp [h]

theorem test_eq (m : BitMap) {i : Nat} (hi : i < m.numBits) : m.test i = some (m.has i) := by
  have hr : m.InRange i := ⟨by omega, by omega⟩
  have hk : i % 32 < 32 := Nat.mod_lt _ (by decide)
  simp only [test, hr, if_true, Int.toNat_natCast, has, and_twoPow_ne_zero _ hk]

theorem has_setWord (m : BitMap) (w : Nat) (x : BitVec 32) (j : Nat) :
    (m.setWord w x).has j = if j / 32 = w then x.getLsbD (j % 32) else m.has j := by
  unfold has setWord
  by_cases h : j / 32 = w <;> simp [h]

theorem mark_eq (m : BitMap) {i : Nat} (hi : i < m.numBits) :
    ∃ m', m.mark i = some m' ∧ m'.numBits = m.numBits ∧
      ∀ j, m'.has j = (m.has j || j == i) := by
  have hr : m.InRange i := ⟨by omega, by omega⟩
  refine ⟨m.setWord (i / 32) (m.map (i / 32) ||| 1#32 <<< (i % 32)),
    by simp only [mark, hr, if_true, Int.toNat_natCast], rfl, fun j => ?_⟩
  rw [has_setWord]
  have hj : j % 32 < 32 := Nat.mod_lt _ (by decide)
  have hk : i % 32 < 32 := Nat.mod_lt _ (by decide)
  by_cases hw : j / 32 = i / 32
  · rw [if_pos hw]
    have hext : j % 32 = i % 32 ↔ j = i := by omega
    have hbit : (1#32 <<< (i % 32)).getLsbD (j % 32) = (j == i) := by
      simp only [BitVec.getLsbD_shiftLeft, BitVec.getLsbD_one]
      by_cases hji : j = i
      · simp [hji, hk]
      · have hne : j % 32 < i % 32 ∨ j % 32 - i % 32 ≠ 0 := by
          have := mt hext.mp hji
          omega
        rcases hne with h | h <;> simp [h, hji]
    rw [BitVec.getLsbD_or, hbit]
    simp [has, hw]
  · have hne : j ≠ i := fun h => hw (by rw [h])
    simp [hw, hne]

theorem clear_eq (m : BitMap) {i : Nat} (hi : i < m.numBits) :
    ∃ m', m.clear i = some m' ∧ m'.numBits = m.numBits ∧
      ∀ j, m'.has j = (m.has j && j != i) := by
  have hr : m.InRange i := ⟨by omega, by omega⟩
  refine ⟨m.setWord (i / 32) (m.map (i / 32) &&& ~~~(1#32 <<< (i % 32))),
    by simp only [clear, hr, if_true, Int.toNat_natCast], rfl, fun j => ?_⟩
  rw [has_setWord]
  have hj : j % 32 < 32 := Nat.mod_lt _ (by decide)
  have hk : i % 32 < 32 := Nat.mod_lt _ (by decide)
  by_cases hw : j / 32 = i / 32
  · rw [if_pos hw]
    have hext : j % 32 = i % 32 ↔ j = i := by omega
    have hbit : (~~~(1#32 <<< (i % 32))).getLsbD (j % 32) = (j != i) := by
      simp only [BitVec.getLsbD_not, BitVec.getLsbD_shiftLeft, BitVec.getLsbD_one, hj]
      by_cases hji : j = i
      · simp [hji]
      · have hne : j % 32 < i % 32 ∨ j % 32 - i % 32 ≠ 0 := by
          have := mt hext.mp hji
          omega
        rcases hne with h | h <;> simp [h, hji]
    rw [BitVec.getLsbD_and, hbit]
    simp [has, hw]
  · have hne : j ≠ i := fun h => hw (by rw [h])
    simp [hw, hne]

/-- A clear bit exists: `find` returns one and marks it. -/
theorem find_spec (m : BitMap) (h : ∃ i < m.numBits, m.has i = false) :
    ∃ (i : Nat) (m' : BitMap), m.find = ((i : Int), m') ∧ i < m.numBits ∧ m.has i = false ∧
      m'.numBits = m.numBits ∧ ∀ j, m'.has j = (m.has j || j == i) := by
  obtain ⟨j, hj, hclear⟩ := h
  have hsome : ((List.range m.numBits).find? fun (i : Nat) => m.test i == some false).isSome := by
    rw [List.find?_isSome]
    exact ⟨j, List.mem_range.mpr hj, by rw [m.test_eq hj, hclear]; rfl⟩
  obtain ⟨i, hi⟩ := Option.isSome_iff_exists.mp hsome
  have hlt : i < m.numBits := List.mem_range.mp (List.mem_of_find?_eq_some hi)
  have htest := List.find?_some hi
  rw [m.test_eq hlt] at htest
  obtain ⟨m', hm, hn, hhas⟩ := m.mark_eq hlt
  refine ⟨i, m', ?_, hlt, by simpa using htest, hn, hhas⟩
  unfold find
  rw [hi]
  simp only [hm, Option.getD_some]

/-- No clear bit: `find` fails. -/
theorem find_none (m : BitMap) (h : ∀ i < m.numBits, m.has i = true) : m.find = (-1, m) := by
  have hnone : ((List.range m.numBits).find? fun (i : Nat) => m.test i == some false) = none := by
    rw [List.find?_eq_none]
    intro i hi
    have hlt := List.mem_range.mp hi
    rw [m.test_eq hlt, h i hlt]
    simp
  unfold find
  rw [hnone]

theorem numClear_eq (m : BitMap) :
    m.numClear = (List.range m.numBits).countP fun i => !m.has i := by
  apply List.countP_congr
  intro i hi
  rw [m.test_eq (List.mem_range.mp hi)]
  cases m.has i <;> simp

/-- Marking a clear bit leaves one clear bit less. -/
theorem numClear_mark {m m' : BitMap} {i : Nat} (hi : i < m.numBits) (hclear : m.has i = false)
    (hn : m'.numBits = m.numBits) (h : ∀ j, m'.has j = (m.has j || j == i)) :
    m.numClear = m'.numClear + 1 := by
  have hp : (List.range m.numBits).Perm (i :: (List.range m.numBits).erase i) :=
    List.perm_cons_erase (List.mem_range.mpr hi)
  have hrest : ((List.range m.numBits).erase i).countP (fun j => !m'.has j) =
      ((List.range m.numBits).erase i).countP (fun j => !m.has j) := by
    apply List.countP_congr
    intro j hj
    have hne : j ≠ i := fun he => List.nodup_range.not_mem_erase (he ▸ hj)
    simp [h, hne]
  rw [numClear_eq, numClear_eq, hn, hp.countP_eq, hp.countP_eq, List.countP_cons,
    List.countP_cons, hrest, h]
  simp [hclear]

theorem numClear_pos {m : BitMap} (h : 0 < m.numClear) : ∃ i < m.numBits, m.has i = false := by
  rw [numClear_eq, List.countP_pos_iff] at h
  obtain ⟨i, hi, hc⟩ := h
  exact ⟨i, List.mem_range.mp hi, by simpa using hc⟩

/-- No clear bit is counted: `find` fails. -/
theorem find_full {m : BitMap} (h : m.numClear = 0) : m.find = (-1, m) := by
  rw [numClear_eq, List.countP_eq_zero] at h
  refine m.find_none fun i hi => ?_
  have := h i (List.mem_range.mpr hi)
  simpa using this

theorem clearFirst_spec (m : BitMap) (n : Nat) (hn : n ≤ m.numBits) :
    (m.clearFirst n).numBits = m.numBits ∧
      ∀ j, (m.clearFirst n).has j = (m.has j && decide (n ≤ j)) := by
  induction n with
  | zero => exact ⟨rfl, fun j => by simp [clearFirst]⟩
  | succ n ih =>
      obtain ⟨hb, hh⟩ := ih (Nat.le_of_succ_le hn)
      obtain ⟨m', hm, hn', hh'⟩ := (m.clearFirst n).clear_eq (i := n) (by omega)
      have he : m.clearFirst (n + 1) = m' := by
        simp only [clearFirst, hm, Option.getD_some]
      rw [he]
      refine ⟨hn'.trans hb, fun j => ?_⟩
      rw [hh', hh, Bool.and_assoc]
      congr 1
      by_cases hj : j = n
      · simp [hj]
      · have hle : n ≤ j ↔ n + 1 ≤ j := by omega
        simp [hj, hle]

/-- A new map is empty. -/
theorem create_spec (n : Nat) (words : Nat → BitVec 32) :
    (create n words).numBits = n ∧ ∀ j < n, (create n words).has j = false := by
  obtain ⟨hb, hh⟩ := (BitMap.mk n words).clearFirst_spec n (le_refl n)
  refine ⟨hb, fun j hj => ?_⟩
  rw [create, hh]
  have : ¬ n ≤ j := by omega
  simp [this]

/-! ## Taking several bits -/

/-- `m'` is `m` with the clear bits of `L` marked. -/
structure Takes (m : BitMap) (L : List Nat) (m' : BitMap) : Prop where
  nodup : L.Nodup
  clear : ∀ x ∈ L, x < m.numBits ∧ m.has x = false
  numBits : m'.numBits = m.numBits
  has : ∀ j, m'.has j = (m.has j || decide (j ∈ L))
  numClear : m.numClear = m'.numClear + L.length

theorem Takes.refl (m : BitMap) : Takes m [] m :=
  ⟨List.nodup_nil, by simp, rfl, by simp, rfl⟩

theorem Takes.trans {m₁ m₂ m₃ : BitMap} {L L' : List Nat} (h : Takes m₁ L m₂)
    (h' : Takes m₂ L' m₃) : Takes m₁ (L ++ L') m₃ := by
  have hfresh : ∀ x ∈ L', m₁.has x = false ∧ x ∉ L := by
    intro x hx
    have hc := (h'.clear x hx).2
    rw [h.has, Bool.or_eq_false_iff] at hc
    exact ⟨hc.1, by simpa using hc.2⟩
  refine ⟨?_, ?_, h'.numBits.trans h.numBits, fun j => ?_, ?_⟩
  · refine List.nodup_append.mpr ⟨h.nodup, h'.nodup, fun x hx y hy hxy => ?_⟩
    exact (hfresh y hy).2 (hxy ▸ hx)
  · intro x hx
    rcases List.mem_append.mp hx with hx | hx
    · exact h.clear x hx
    · exact ⟨h.numBits ▸ (h'.clear x hx).1, (hfresh x hx).1⟩
  · rw [h'.has, h.has, Bool.or_assoc]
    simp
  · rw [h.numClear, h'.numClear, List.length_append]
    omega

/-- A map with a clear bit: `find` takes one. -/
theorem find_takes {m : BitMap} (h : 0 < m.numClear) :
    ∃ (i : Nat) (m' : BitMap), m.find = ((i : Int), m') ∧ Takes m [i] m' := by
  obtain ⟨i, m', hf, hi, hc, hn, hh⟩ := m.find_spec (numClear_pos h)
  refine ⟨i, m', hf, List.nodup_singleton i, ?_, hn, fun j => ?_, ?_⟩
  · intro x hx
    obtain rfl := List.mem_singleton.mp hx
    exact ⟨hi, hc⟩
  · rw [hh]
    congr 1
    by_cases hj : j = i <;> simp [hj]
  · exact numClear_mark hi hc hn hh

end BitMap

end Nachos
