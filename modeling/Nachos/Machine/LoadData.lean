/-
  Nachos.Machine.LoadData

  What the simulated processor makes of the bytes that a load finds, and which bytes a store
  leaves, against the architecture: the masks and swaps of `mipssim.cc` and of the byte order
  give the numbers that the bytes make in that order.
-/

import Nachos.Machine.LoadStore
import Nachos.Machine.MipsMemory

namespace Nachos
namespace Mips

open HostInt Words Vm

/-! ## The parts of a load and of a store -/

/-- `OP_LH`, `OP_LHU` and `OP_LW` check the address themselves, and the kernel halts. -/
def MemOp.refuses (tmp : BitVec 32) : MemOp → Bool
  | .LH | .LHU => tmp &&& 0x1 != 0
  | .LW => tmp &&& 0x3 != 0
  | _ => false

/-- `nextLoadValue`, from what the register held and the value read. -/
def MemOp.loaded (std : Edition) (old value tmp : BitVec 32) : MemOp → Option (BitVec 32)
  | .LB => some (if value &&& 0x80 ≠ 0 then value ||| 0xffffff00 else value &&& 0xff)
  | .LBU => some (value &&& 0xff)
  | .LH => some (if value &&& 0x8000 ≠ 0 then value ||| 0xffff0000 else value &&& 0xffff)
  | .LHU => some (value &&& 0xffff)
  | .LW => some value
  | .LWL => mergeLWL std old value (alignment tmp)
  | .LWR => some (mergeLWR old value (alignment tmp))
  | _ => none

/-- The word that `OP_SWL` and `OP_SWR` write, from the word read. -/
def MemOp.merged (std : Edition) (value reg tmp : BitVec 32) : MemOp → Option (BitVec 32)
  | .SWL => some (mergeSWL value reg (alignment tmp))
  | .SWR => mergeSWR std value reg (alignment tmp)
  | _ => none

/-- The operations that read a word and write it back. -/
def MemOp.mergesWord : MemOp → Bool
  | .SWL | .SWR => true
  | _ => false

section

variable [VmConfig] {PageFault : PageFaultHandler} {std : Edition} {m : Machine}
  {tmp : BitVec 32} {rt : Nat} {op : MemOp}

/-- The `switch` of `OneInstruction` for a load, in its parts. -/
theorem execute_load (h : op.storesAligned = false) (h' : op.mergesWord = false) :
    m.execute PageFault std tmp rt op =
      (if op.refuses tmp then throw (.halt .ADDRESSERROR_EXCEPTION)
      else do
        let (m, value) ← m.ReadMem PageFault tmp op.size
        let next ← defined (op.loaded std (m.loadedBefore rt) value tmp)
        pure (m, rt, next)) := by
  cases op
  case SB | SH | SW => exact absurd h (by decide)
  case SWL | SWR => exact absurd h' (by decide)
  case LH | LHU | LW =>
    simp only [Machine.execute, MemOp.refuses, bne_iff_ne]
    rfl
  all_goals rfl

/-- For a store of aligned data. -/
theorem execute_store (h : op.storesAligned = true) :
    m.execute PageFault std tmp rt op = (do
      let m ← m.WriteMem PageFault tmp op.size (m.registers rt)
      pure (m, 0, 0)) := by
  cases op
  case SB | SH | SW => rfl
  all_goals exact absurd h (by decide)

/-- For a store that is not aligned. -/
theorem execute_merge (h : op.mergesWord = true) :
    m.execute PageFault std tmp rt op = (do
      let (m, value) ← m.ReadMem PageFault (tmp &&& ~~~0x3) 4
      let value ← defined (op.merged std value (m.registers rt) tmp)
      let m ← m.WriteMem PageFault (tmp &&& ~~~0x3) 4 value
      pure (m, 0, 0)) := by
  cases op
  case SWL | SWR => rfl
  all_goals exact absurd h (by decide)

end

/-! ## The data of loads and stores -/

section

variable (order : Endianess) (b : Nat → Byte) (x : BitVec 32)

theorem getLsbD_four {i : Nat} (hi : i < 32) :
    (b 3 ++ b 2 ++ b 1 ++ b 0).getLsbD i = (b (i / 8)).getLsbD (i % 8) := by
  have hword := getLsbD_word b 0 i hi
  rwa [Nat.mul_zero, Nat.zero_add] at hword

/-- The bytes of a number of four bytes. -/
theorem valueByte_four {j : Nat} (hj : j < 4) : valueByte (b 3 ++ b 2 ++ b 1 ++ b 0) j = b j := by
  apply BitVec.eq_of_getLsbD_eq
  intro k hk
  have hd : (8 * j + k) / 8 = j := by omega
  have hm : (8 * j + k) % 8 = k := by omega
  unfold valueByte
  rw [BitVec.getLsbD_extractLsb', getLsbD_four b (by omega), hd, hm, decide_eq_true hk,
    Bool.true_and]

theorem valueByte_two {j : Nat} (hj : j < 2) : valueByte ((b 1 ++ b 0).setWidth 32) j = b j := by
  apply BitVec.eq_of_getLsbD_eq
  intro k hk
  unfold valueByte
  rw [BitVec.getLsbD_extractLsb', BitVec.getLsbD_setWidth, BitVec.getLsbD_append,
    decide_eq_true hk, Bool.true_and, decide_eq_true (show 8 * j + k < 32 by omega),
    Bool.true_and]
  have hcases : j = 0 ∨ j = 1 := by omega
  rcases hcases with rfl | rfl
  · rw [if_pos (by omega)]
    simp
  · rw [if_neg (by omega)]
    simp

theorem four_bytes : valueByte x 3 ++ valueByte x 2 ++ valueByte x 1 ++ valueByte x 0 = x :=
  readValue_valueByte (b := valueByte x) fun _ _ => rfl

theorem two_bytes : x.setWidth 16 = valueByte x 1 ++ valueByte x 0 := by
  apply BitVec.eq_of_getLsbD_eq
  intro i hi
  unfold valueByte
  rw [BitVec.getLsbD_setWidth, BitVec.getLsbD_append, BitVec.getLsbD_extractLsb',
    BitVec.getLsbD_extractLsb']
  by_cases hlt : i < 8
  · simp [hlt, hi]
  · simp [hlt, hi, show i - 8 < 8 by omega, show 8 + (i - 8) = i by omega]

/-- The bytes of a word are reversed for the order of the other kind. -/
theorem WordToHost_four : order.WordToHost (b 3 ++ b 2 ++ b 1 ++ b 0) = wordOf order b := by
  cases order with
  | IS_LITTLE_ENDIAN => rfl
  | IS_BIG_ENDIAN =>
    have hmask : ∀ i < 32, ((0x000000ff : Nat) : BitVec 32).getLsbD i = decide (i < 8) ∧
        ((0x0000ff00 : Nat) : BitVec 32).getLsbD i = decide (8 ≤ i ∧ i < 16) ∧
        ((0x00ff0000 : Nat) : BitVec 32).getLsbD i = decide (16 ≤ i ∧ i < 24) ∧
        (0xff000000 : BitVec 32).getLsbD i = decide (24 ≤ i) := by decide
    have hb : ∀ i < 32, (wordOf .IS_BIG_ENDIAN b).getLsbD i = (b (3 - i / 8)).getLsbD (i % 8) :=
      fun i hi => getLsbD_four (fun j => b (place 4 j .IS_BIG_ENDIAN)) hi
    unfold Endianess.WordToHost
    rw [if_neg (by decide)]
    apply BitVec.eq_of_getLsbD_eq
    intro i hi
    obtain ⟨h0, h1, h2, h3⟩ := hmask i hi
    rw [BitVec.getLsbD_or, BitVec.getLsbD_or, BitVec.getLsbD_or, BitVec.getLsbD_and,
      BitVec.getLsbD_and, BitVec.getLsbD_and, BitVec.getLsbD_and, h0, h1, h2, h3,
      BitVec.getLsbD_ushiftRight, BitVec.getLsbD_ushiftRight, BitVec.getLsbD_shiftLeft,
      BitVec.getLsbD_shiftLeft, hb i hi]
    -- each of the four masks lets one byte through
    have hcases : i / 8 = 0 ∨ i / 8 = 1 ∨ i / 8 = 2 ∨ i / 8 = 3 := by omega
    rcases hcases with h | h | h | h
    · rw [getLsbD_four b (by omega), show (24 + i) / 8 = 3 by omega,
        show (24 + i) % 8 = i % 8 by omega, h]
      simp [show i < 8 by omega, show ¬ 8 ≤ i by omega, show ¬ 16 ≤ i by omega,
        show ¬ 24 ≤ i by omega]
    · rw [getLsbD_four b (i := 8 + i) (by omega), show (8 + i) / 8 = 2 by omega,
        show (8 + i) % 8 = i % 8 by omega, h]
      simp [show ¬ i < 8 by omega, show 8 ≤ i by omega, show i < 16 by omega,
        show ¬ 16 ≤ i by omega, show ¬ 24 ≤ i by omega]
    · rw [getLsbD_four b (i := i - 8) (by omega), show (i - 8) / 8 = 1 by omega,
        show (i - 8) % 8 = i % 8 by omega, h]
      simp [show ¬ i < 8 by omega, show ¬ i < 16 by omega, show 8 ≤ i by omega,
        show 16 ≤ i by omega, show i < 24 by omega, show ¬ 24 ≤ i by omega, hi]
    · rw [getLsbD_four b (i := i - 24) (by omega), show (i - 24) / 8 = 0 by omega,
        show (i - 24) % 8 = i % 8 by omega, h]
      simp [show ¬ i < 8 by omega, show ¬ i < 16 by omega, show ¬ i < 24 by omega,
        show 24 ≤ i by omega, hi]

theorem ShortToHost_two : order.ShortToHost (b 1 ++ b 0) = halfOf order b := by
  cases order with
  | IS_LITTLE_ENDIAN => rfl
  | IS_BIG_ENDIAN =>
    have hmask : ∀ i < 16, ((0xff00 : Nat) : BitVec 16).getLsbD i = decide (8 ≤ i) ∧
        (0x00ff : BitVec 16).getLsbD i = decide (i < 8) := by decide
    unfold Endianess.ShortToHost
    rw [if_neg (by decide)]
    show _ = (b 0 ++ b 1 : BitVec (8 + 8))
    apply BitVec.eq_of_getLsbD_eq
    intro i hi
    obtain ⟨h0, h1⟩ := hmask i hi
    rw [BitVec.getLsbD_or, BitVec.getLsbD_and, BitVec.getLsbD_and, h0, h1,
      BitVec.getLsbD_ushiftRight, BitVec.getLsbD_shiftLeft, BitVec.getLsbD_append,
      BitVec.getLsbD_append, BitVec.getLsbD_append]
    by_cases hlt : i < 8
    · simp [hlt, show ¬ 8 ≤ i by omega]
    · simp [hlt, hi, show 8 ≤ i by omega, show i - 8 < 8 by omega]

theorem read_word : order.read 4 (readValue 4 b) = wordOf order b := WordToHost_four order b

theorem half_back (y : BitVec 16) : (y.setWidth 32).setWidth 16 = y := by
  apply BitVec.eq_of_toNat_eq
  have hlt : y.toNat < 2 ^ 16 := y.isLt
  rw [BitVec.toNat_setWidth, BitVec.toNat_setWidth, Nat.mod_eq_of_lt (by omega),
    Nat.mod_eq_of_lt (by omega)]

theorem read_half : order.read 2 (readValue 2 b) = (halfOf order b).setWidth 32 := by
  show (order.ShortToHost (((b 1 ++ b 0 : BitVec (8 + 8)).setWidth 32).setWidth 16)).setWidth 32 = _
  rw [half_back, ShortToHost_two]

/-- A load of aligned data makes of the bytes what the architecture says. -/
theorem loaded_result {op : MemOp} {std : Edition} {old tmp y : BitVec 32}
    (h : op.result order b = some y) :
    op.loaded std old (order.read op.size (readValue op.size b)) tmp = some y := by
  have himmediate : immediate ((halfOf order b).setWidth 32) = halfOf order b := by
    rw [immediate, ← BitVec.setWidth_eq_extractLsb' (by decide)]
    exact half_back _
  cases op <;> cases h
  case LB =>
    have hsign : ∀ z : BitVec 8, (if z.signExtend 32 &&& 0x80 ≠ 0 then
        z.signExtend 32 ||| 0xffffff00 else z.signExtend 32 &&& 0xff) = z.signExtend 32 := by
      decide +kernel
    exact congrArg some (hsign (b 0))
  case LBU =>
    have hzero : ∀ z : BitVec 8, z.signExtend 32 &&& 0xff = z.setWidth 32 := by decide +kernel
    exact congrArg some (hzero (b 0))
  case LH =>
    have hsame : (halfOf order b).setWidth 32 &&& 0xffff = (halfOf order b).setWidth 32 := by
      rw [unsigned_eq, unsigned, himmediate]
    have hextra := extra_IFMT ((halfOf order b).setWidth 32)
    simp only [extra, hsame, signed, himmediate] at hextra
    have hread : order.read MemOp.LH.size (readValue MemOp.LH.size b) =
        (halfOf order b).setWidth 32 := read_half order b
    unfold MemOp.loaded
    rw [hread, hsame, hextra]
  case LHU =>
    show some (order.read 2 (readValue 2 b) &&& 0xffff) = _
    rw [read_half, unsigned_eq, unsigned, himmediate]
  case LW => exact congrArg some (read_word order b)

/-- A store puts the bytes where the architecture says. -/
theorem write_byte {size j : Nat} (hsize : size = 1 ∨ size = 2 ∨ size = 4) (hj : j < size) :
    valueByte (order.write size x) j = storedByte order size x j := by
  rcases hsize with rfl | rfl | rfl
  · obtain rfl : j = 0 := by omega
    cases order with
    | IS_LITTLE_ENDIAN => rfl
    | IS_BIG_ENDIAN => rfl
  · show valueByte ((order.ShortToHost (x.setWidth 16)).setWidth 32) j = _
    rw [two_bytes, ShortToHost_two]
    exact valueByte_two (fun j => valueByte x (place 2 j order)) hj
  · show valueByte (order.WordToHost x) j = _
    rw [← four_bytes x, WordToHost_four, four_bytes]
    exact valueByte_four (fun j => valueByte x (place 4 j order)) hj

end
end Mips
end Nachos
