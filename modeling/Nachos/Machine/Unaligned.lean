/-
  Nachos.Machine.Unaligned

  The instructions for words that are not aligned.  `OP_SWL` and `OP_SWR` read and write
  the word that the address is in; `OP_LWL` and `OP_LWR` hand the address to `ReadMem` as
  it is, and the translation has an `ASSERT` against words that are not aligned.
-/

import Nachos.Lib.Guarded
import Nachos.Machine.LoadStore

namespace Nachos
namespace Mips
namespace Machine

open Guarded HostInt Words Vm Vm.MMU

variable [VmConfig] {PageFault : PageFaultHandler} {std : Edition} {m m' : Machine}
  {tmp : BitVec 32} {rt : Nat}

/-! ## The tables -/

/-- With a page fault handler of which only the table matters, the translation is that of
    the tables. -/
theorem Translate_table {raise : FaultHandler}
    (hraise : ∀ (m : Machine) (virtAddr : BitVec 32),
      (m.raisePageFault PageFault virtAddr).map translationTable =
        (raise m.translationTable virtAddr.toInt).mapError .stop)
    (m : Machine) (virtAddr : BitVec 32) (size : Nat) (writing : Bool) :
    (m.Translate PageFault virtAddr size writing).map (fun r => (r.1.translationTable, r.2)) =
      (MMU.Translate raise m.translationTable virtAddr size writing).mapError .stop := by
  have hentry : ∀ (m : Machine) (vpn : Int),
      (m.entry vpn).map id = (m.translationTable.entry vpn).mapError .stop := by
    intro m vpn
    unfold entry
    cases m.translationTable.entry vpn with
    | error s => rfl
    | ok e => rfl
  have hload : ∀ vpn, (m.loadPage PageFault virtAddr vpn).map translationTable =
      (MMU.loadPage raise m.translationTable virtAddr.toInt vpn).mapError .stop := by
    intro vpn
    refine bind_related (hentry m vpn) fun e => ?_
    dsimp only [id_eq]
    split
    · rfl
    refine bind_related (hraise m virtAddr) fun m' => ?_
    refine bind_related (hentry m' vpn) fun e => ?_
    dsimp only [id_eq]
    split
    · rfl
    · rfl
  -- The two functions take the same branches, up to the first call that changes the machine.
  unfold Translate MMU.Translate
  split
  · rfl
  dsimp only
  split
  · rfl
  refine bind_related (hentry m _) fun e => ?_
  dsimp only [id_eq]
  split
  · rfl
  split
  · rfl
  refine bind_related (hload _) fun m' => ?_
  cases MMU.finish m'.translationTable _ _ writing with
  | error s => rfl
  | ok x => rfl

/-! ## The loads -/

omit [VmConfig] in
/-- Of an address and the third one after it, one is not aligned. -/
theorem unaligned_or (a : BitVec 32) : a &&& 0x3 ≠ 0 ∨ (a + 3) &&& 0x3 ≠ 0 := by
  have hmod : ∀ x : BitVec 32, (x &&& 0x3).toNat = x.toNat % 4 := by
    intro x
    rw [BitVec.toNat_and]
    exact Nat.and_two_pow_sub_one_eq_mod x.toNat 2
  rw [← not_and_or]
  rintro ⟨h₀, h₃⟩
  have h₀' : a.toNat % 4 = 0 := by
    rw [← hmod, h₀]
    rfl
  have h₃' : (a.toNat + 3) % 2 ^ 32 % 4 = 0 := by
    have hsum := hmod (a + 3)
    rw [h₃, BitVec.toNat_add] at hsum
    exact hsum.symm
  omega

theorem ReadMem_unaligned (h : tmp &&& 0x3 ≠ 0) :
    m.ReadMem PageFault tmp 4 = .error (.stop .assert) := by
  have htrans : m.Translate PageFault tmp 4 false = .error (.stop .assert) :=
    if_pos (Or.inl ⟨rfl, h⟩)
  unfold ReadMem locate
  rw [htrans]
  rfl

/-- A partial load of a word that is not aligned makes an `ASSERT` fail. -/
theorem execute_unaligned {op : MemOp} (hop : op = .LWL ∨ op = .LWR) (h : tmp &&& 0x3 ≠ 0) :
    m.execute PageFault std tmp rt op = .error (.stop .assert) := by
  rcases hop with rfl | rfl
  · rw [execute, ReadMem_unaligned h]
    rfl
  · rw [execute, ReadMem_unaligned h]
    rfl

theorem executeAt_unaligned {op : MemOp} (hop : op = .LWL ∨ op = .LWR) (h : tmp &&& 0x3 ≠ 0) :
    m.executeAt PageFault std op tmp rt ≠ .ok m' := by
  intro hok
  obtain ⟨pcAfter, -, hrest⟩ := bind_ok.mp hok
  rw [execute_unaligned hop h] at hrest
  exact nomatch hrest

/-! ## A word stored and loaded -/

/-- `SWL` at `a` and `SWR` at `a + 3` from the register `rt`, then `LWL` at `a` and `LWR` at
    `a + 3` into the register `rt'`. -/
def storeLoad (PageFault : PageFaultHandler) (std : Edition) (m : Machine) (rt rt' : Nat)
    (a : BitVec 32) : Except Ending Machine := do
  let m ← m.executeAt PageFault std .SWL a rt
  let m ← m.executeAt PageFault std .SWR (a + 3) rt
  let m ← m.executeAt PageFault std .LWL a rt'
  m.executeAt PageFault std .LWR (a + 3) rt'

/-- The byte at a virtual address whose page is in main memory. -/
def byteAt (m : Machine) (x : Nat) : Option Byte :=
  let e := m.translationTable.pageTable (x / PageSize)
  if x / PageSize < m.translationTable.maxNumPages ∧ e.valid then
    some (m.mainMemory (e.physicalPage * PageSize + (x % PageSize : Nat)))
  else none

/-- The four instructions are executed; `v` is in the register once the delayed load is
    applied, and the bytes elsewhere are as they were. -/
def RoundTrip (PageFault : PageFaultHandler) (std : Edition) (m : Machine) (rt rt' : Nat)
    (a v : BitVec 32) : Prop :=
  ∃ m' r, storeLoad PageFault std m rt rt' a = .ok m' ∧
    DelayedLoad m'.registers 0 0 = some r ∧ r rt' = v ∧
    ∀ x b b', x < a.toNat ∨ a.toNat + 3 < x → m.byteAt x = some b → m'.byteAt x = some b' →
      b' = b

/-- One of the two loads makes an `ASSERT` fail, wherever the word is. -/
theorem roundTrip_never (PageFault : PageFaultHandler) (std : Edition) (m : Machine)
    (rt rt' : Nat) (a v : BitVec 32) : ¬ RoundTrip PageFault std m rt rt' a v := by
  rintro ⟨m', r, hok, -⟩
  obtain ⟨m₁, -, hok⟩ := bind_ok.mp hok
  obtain ⟨m₂, -, hok⟩ := bind_ok.mp hok
  obtain ⟨m₃, hleft, hright⟩ := bind_ok.mp hok
  rcases unaligned_or a with h | h
  · exact executeAt_unaligned (Or.inl rfl) h hleft
  · exact executeAt_unaligned (Or.inr rfl) h hright

/-- The bytes of the word are in pages that may be read and written. -/
def Accessible (m : Machine) (a : BitVec 32) : Prop :=
  a.toNat + 3 < 2 ^ 31 ∧ ∀ j < 4,
    let p := (a.toNat + j) / PageSize
    p < m.translationTable.maxNumPages ∧ (m.translationTable.pageTable p).readAllowed ∧
      (m.translationTable.pageTable p).writeAllowed

omit [VmConfig] in
/-- A page in the first frame, and `0x01020304` in register 4. -/
def onePageMachine : Machine where
  registers := (Registers.set (fun _ => 0) 4 0x01020304).set NEXTPC_REG 4
  translationTable := ⟨1, fun _ => ⟨0, true, false, false, true, true⟩⟩
  mainMemory _ := 0
  mips_endianess := .IS_BIG_ENDIAN

omit [VmConfig] in
theorem onePageMachine_asserts :
    let _ := VmConfig.two
    storeLoad (fun _ _ => .error .undefined) .cxx98 onePageMachine 4 5 0 =
      .error (.stop .assert) := by
  rfl

omit [VmConfig] in
/-- The word at address 0. -/
theorem roundTrip_fails :
    let _ := VmConfig.two
    ¬ ∀ (PageFault : PageFaultHandler) (std : Edition) (m : Machine) (rt rt' : Nat)
      (a v : BitVec 32), m.mips_endianess = .IS_BIG_ENDIAN → Accessible m a →
      (∀ p, (m.translationTable.pageTable p).valid = true ∧
        (m.translationTable.pageTable p).physicalPage = 0) →
      rt < 32 → 0 < rt' → rt' < 32 → m.registers rt = v → m.registers LOAD_REG = 0 →
        RoundTrip PageFault std m rt rt' a v := by
  intro _ h
  have haccess : Accessible onePageMachine 0 := by
    refine ⟨by decide, fun j hj => ?_⟩
    have hp : (0 + j) / PageSize = 0 := Nat.div_eq_of_lt (by
      have : 4 ≤ PageSize := by decide
      omega)
    dsimp only
    rw [show (0 : BitVec 32).toNat = 0 from rfl, hp]
    decide
  obtain ⟨m', r, hok, -⟩ := h (fun _ _ => .error .undefined) .cxx98 onePageMachine 4 5 0
    0x01020304 rfl haccess (fun _ => ⟨rfl, rfl⟩) (by decide) (by decide) (by decide) rfl rfl
  rw [onePageMachine_asserts] at hok
  exact nomatch hok

end Machine
end Mips
end Nachos
