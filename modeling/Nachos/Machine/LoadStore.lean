/-
  Nachos.Machine.LoadStore

  The loads and stores of the simulated processor: `MMU::ReadMem` and `MMU::WriteMem` on
  the memory of the machine, and what `Machine::OneInstruction` does for an operation on
  the memory.  The kernel's page fault handler, which may give the processor to other
  threads, is a parameter on the whole machine.
-/

import Nachos.Machine.Mips
import Nachos.Vm.ByteOrder
import Nachos.Vm.Translate

namespace Nachos
namespace Mips

open HostInt Words Vm Vm.MMU

/-- What user code sees of the simulated machine. -/
structure Machine where
  registers : Registers
  translationTable : TranslationTable
  mainMemory : Int → Byte
  mips_endianess : Endianess

/-- How the simulation ends: the translation stops it, the handler of an exception calls
    `Halt (-1)`, or the C++ program has no defined result. -/
inductive Ending where
  | stop (s : Stop)
  | halt (e : ExceptionType)
  | undefined
deriving DecidableEq, Repr

/-- `PageFaultManager::PageFault`, by the virtual page, as the machine is when it returns. -/
abbrev PageFaultHandler := Machine → Int → Except Ending Machine

/-- An operation of the host that has a result. -/
def defined {α : Type} : Option α → Except Ending α
  | some x => .ok x
  | none => .error .undefined

/-! ## The merges -/

/-- The byte of an address within its word. -/
def alignment (tmp : BitVec 32) : Nat := (tmp &&& 0x3).toNat

/-- `nextLoadValue` of `OP_LWL`, from what the register holds and the word read. -/
def mergeLWL (std : Edition) (old value : BitVec 32) : Nat → Option (BitVec 32)
  | 0 => some value
  | 1 => (shl std value 8).map (old &&& 0xff ||| ·)
  | 2 => (shl std value 16).map (old &&& 0xffff ||| ·)
  | _ => (shl std value 24).map (old &&& 0xffffff ||| ·)

/-- `nextLoadValue` of `OP_LWR`. -/
def mergeLWR (old value : BitVec 32) : Nat → BitVec 32
  | 0 => old &&& 0xffffff00 ||| value.sshiftRight 24 &&& 0xff
  | 1 => old &&& 0xffff0000 ||| value.sshiftRight 16 &&& 0xffff
  | 2 => old &&& 0xff000000 ||| value.sshiftRight 8 &&& 0xffffff
  | _ => value

/-- The word that `OP_SWL` writes, from the word read and the register. -/
def mergeSWL (value reg : BitVec 32) : Nat → BitVec 32
  | 0 => reg
  | 1 => value &&& 0xff000000 ||| reg.sshiftRight 8 &&& 0xffffff
  | 2 => value &&& 0xffff0000 ||| reg.sshiftRight 16 &&& 0xffff
  | _ => value &&& 0xffffff00 ||| reg.sshiftRight 24 &&& 0xff

/-- The word that `OP_SWR` writes. -/
def mergeSWR (std : Edition) (value reg : BitVec 32) : Nat → Option (BitVec 32)
  | 0 => (shl std reg 24).map (value &&& 0xffffff ||| ·)
  | 1 => (shl std reg 16).map (value &&& 0xffff ||| ·)
  | 2 => (shl std reg 8).map (value &&& 0xff ||| ·)
  | _ => some reg

namespace Machine

variable [VmConfig] (PageFault : PageFaultHandler)

/-! ## The memory -/

omit [VmConfig] in
/-- The getters of the table. -/
def entry (m : Machine) (vpn : Int) : Except Ending Entry :=
  (m.translationTable.entry vpn).mapError .stop

/-- `RaiseException (PAGEFAULT_EXCEPTION, badVAddr)`: a delayed load is finished first. -/
def raisePageFault (m : Machine) (badVAddr : BitVec 32) : Except Ending Machine := do
  let r ← defined (DelayedLoad (m.registers.set BADVADDR_REG badVAddr) 0 0)
  PageFault { m with registers := r } (badVAddr.toInt.tdiv PageSize)

/-- If the page is not yet in main memory, run the page fault manager. -/
def loadPage (m : Machine) (virtAddr : BitVec 32) (vpn : Int) : Except Ending Machine := do
  let e ← m.entry vpn
  if e.valid then pure m
  else do
    let m ← m.raisePageFault PageFault virtAddr
    let e ← m.entry vpn
    if e.valid then pure m else throw (.stop .exit)

/-- `MMU::Translate`. -/
def Translate (m : Machine) (virtAddr : BitVec 32) (size : Nat) (writing : Bool) :
    Except Ending (Machine × ExceptionType × Int) :=
  if size = 4 ∧ virtAddr &&& 0x3 ≠ 0 ∨ size = 2 ∧ virtAddr &&& 0x1 ≠ 0 then
    .error (.stop .assert)
  else
    let vpn := virtAddr.toInt.tdiv PageSize
    let offset := virtAddr.toInt.tmod PageSize
    if vpn ≥ m.translationTable.maxNumPages then .ok (m, .ADDRESSERROR_EXCEPTION, 0)
    else do
      let e ← m.entry vpn
      if ¬ e.readAllowed ∧ ¬ e.writeAllowed then pure (m, .ADDRESSERROR_EXCEPTION, 0)
      else if writing ∧ ¬ e.writeAllowed then pure (m, .READONLY_EXCEPTION, 0)
      else do
        let m ← m.loadPage PageFault virtAddr vpn
        let (t, exc, physAddr) ←
          (MMU.finish m.translationTable vpn offset writing).mapError .stop
        pure ({ m with translationTable := t }, exc, physAddr)

/-- The two calls of `Translate` at the start of `ReadMem` and `WriteMem`, with the
    address that both give.  Any exception but a page fault ends in `Halt (-1)`. -/
def locate (m : Machine) (virtAddr : BitVec 32) (size : Nat) (writing : Bool) :
    Except Ending (Machine × Int) := do
  let (m, exc, physAddr) ← m.Translate PageFault virtAddr size writing
  let (m, _, physAddrEnd) ← m.Translate PageFault virtAddr size writing
  if exc ≠ .NO_EXCEPTION then throw (.halt exc)
  else if physAddr = physAddrEnd then pure (m, physAddr)
  else throw (.stop .assert)

/-- `MMU::ReadMem`. -/
def ReadMem (m : Machine) (virtAddr : BitVec 32) (size : Nat) :
    Except Ending (Machine × BitVec 32) := do
  let (m, physAddr) ← m.locate PageFault virtAddr size false
  if size = 1 ∨ size = 2 ∨ size = 4 then
    pure (m, m.mips_endianess.read size
      (readValue size fun j => m.mainMemory (physAddr + (j : Int))))
  else throw (.stop .assert)

/-- `MMU::WriteMem`. -/
def WriteMem (m : Machine) (addr : BitVec 32) (size : Nat) (value : BitVec 32) :
    Except Ending Machine := do
  let (m, physicalAddress) ← m.locate PageFault addr size true
  if size = 1 ∨ size = 2 ∨ size = 4 then
    let value := m.mips_endianess.write size value
    pure { m with
      mainMemory := fun p =>
        if physicalAddress ≤ p ∧ p < physicalAddress + size then
          valueByte value (p - physicalAddress).toNat
        else m.mainMemory p }
  else throw (.stop .assert)

/-! ## The instructions -/

/-- What a partial load goes on from: the value of the register, or the one that a
    delayed load is about to put into it. -/
def loadedBefore (m : Machine) (rt : Nat) : BitVec 32 :=
  if m.registers LOAD_REG = BitVec.ofNat 32 rt then m.registers LOADVALUE_REG
  else m.registers rt

/-- The `switch` of `OneInstruction` for the loads and stores, `tmp` being the address, with
    `nextLoadReg` and `nextLoadValue`. -/
def execute (std : Edition) (m : Machine) (tmp : BitVec 32) (rt : Nat) :
    MemOp → Except Ending (Machine × Nat × BitVec 32)
  | .LB => do
      let (m, value) ← m.ReadMem PageFault tmp 1
      pure (m, rt, if value &&& 0x80 ≠ 0 then value ||| 0xffffff00 else value &&& 0xff)
  | .LBU => do
      let (m, value) ← m.ReadMem PageFault tmp 1
      pure (m, rt, value &&& 0xff)
  | .LH =>
      if tmp &&& 0x1 ≠ 0 then throw (.halt .ADDRESSERROR_EXCEPTION)
      else do
        let (m, value) ← m.ReadMem PageFault tmp 2
        pure (m, rt, if value &&& 0x8000 ≠ 0 then value ||| 0xffff0000 else value &&& 0xffff)
  | .LHU =>
      if tmp &&& 0x1 ≠ 0 then throw (.halt .ADDRESSERROR_EXCEPTION)
      else do
        let (m, value) ← m.ReadMem PageFault tmp 2
        pure (m, rt, value &&& 0xffff)
  | .LW =>
      if tmp &&& 0x3 ≠ 0 then throw (.halt .ADDRESSERROR_EXCEPTION)
      else do
        let (m, value) ← m.ReadMem PageFault tmp 4
        pure (m, rt, value)
  | .LWL => do
      let (m, value) ← m.ReadMem PageFault tmp 4
      let next ← defined (mergeLWL std (m.loadedBefore rt) value (alignment tmp))
      pure (m, rt, next)
  | .LWR => do
      let (m, value) ← m.ReadMem PageFault tmp 4
      pure (m, rt, mergeLWR (m.loadedBefore rt) value (alignment tmp))
  | .SB => do
      let m ← m.WriteMem PageFault tmp 1 (m.registers rt)
      pure (m, 0, 0)
  | .SH => do
      let m ← m.WriteMem PageFault tmp 2 (m.registers rt)
      pure (m, 0, 0)
  | .SW => do
      let m ← m.WriteMem PageFault tmp 4 (m.registers rt)
      pure (m, 0, 0)
  | .SWL => do
      let (m, value) ← m.ReadMem PageFault (tmp &&& ~~~0x3) 4
      let value := mergeSWL value (m.registers rt) (alignment tmp)
      let m ← m.WriteMem PageFault (tmp &&& ~~~0x3) 4 value
      pure (m, 0, 0)
  | .SWR => do
      let (m, value) ← m.ReadMem PageFault (tmp &&& ~~~0x3) 4
      let value ← defined (mergeSWR std value (m.registers rt) (alignment tmp))
      let m ← m.WriteMem PageFault (tmp &&& ~~~0x3) 4 value
      pure (m, 0, 0)

/-- `OneInstruction` once the address is known. -/
def executeAt (std : Edition) (m : Machine) (op : MemOp) (tmp : BitVec 32) (rt : Nat) :
    Except Ending Machine := do
  let pcAfter ← defined (add (m.registers NEXTPC_REG) 4)
  let (m, nextLoadReg, nextLoadValue) ← m.execute PageFault std tmp rt op
  let r ← defined (DelayedLoad m.registers (BitVec.ofNat 32 nextLoadReg) nextLoadValue)
  let r := r.set PREVPC_REG (r PC_REG)
  let r := r.set PC_REG (r NEXTPC_REG)
  pure { m with registers := r.set NEXTPC_REG pcAfter }

/-- `Machine::OneInstruction` from the decoded instruction on, for a load or a store. -/
def OneInstruction (std : Edition) (m : Machine) (instr : Instruction) (op : MemOp) :
    Except Ending Machine := do
  let tmp ← defined (add (m.registers instr.rs) instr.extra)
  m.executeAt PageFault std op tmp instr.rt

end Machine

end Mips
end Nachos
