/-
  Nachos.Machine.UserRuns

  User programs on the simulated machine, with demand paging under them: `Machine::Run` for
  the running thread, in the steps between which the kernel may come in.  An instruction
  reads its word from the memory, and a load or a store goes to the memory once more; at
  either place the page may have to be brought in first.  Every thread has the registers
  that it had when it was switched out.

  The system calls, the floating point operations and the exceptions other than a page fault
  are left out: there is no step for them.
-/

import Nachos.Machine.LoadData
import Nachos.Machine.LoadDelay

namespace Nachos
namespace Mips

open HostInt Words Vm Transition

/-! ## The machine -/

/-- How far the thread is in `OneInstruction`: at its start, or before the access of an
    operation to the memory, where the address and the register to be stored are taken. -/
inductive Phase where
  | start
  | access (op : MemOp) (tmp : BitVec 32) (rt : Nat) (reg : BitVec 32)
deriving DecidableEq

structure Running where
  machine : Vm.Machine
  registers : Vm.ThreadId → Registers
  phase : Vm.ThreadId → Phase

/-- What comes next: the kernel runs (`kernel`), the page that the running thread accesses is
    brought in (`fault`), an integer operation is executed, the address of a load or a store
    is computed, or its access is made. -/
inductive Act where
  | kernel (move : Vm.Move)
  | fault (buffer : Page)
  | integer
  | address
  | memory

namespace Running

variable [VmConfig] (T : Threads) (std : Edition) (s : Running)

def current : Vm.ThreadId := s.machine.system.current

/-- The registers of the thread that runs. -/
def regs : Registers := s.registers s.current

def setRegs (r : Registers) : Running :=
  { s with registers := Function.update s.registers s.current r }

def setPhase (p : Phase) : Running := { s with phase := Function.update s.phase s.current p }

/-- `MMU::ReadMem` for a page that is there. -/
def load (virtAddr : BitVec 32) (size : Nat) : Option (Running × BitVec 32) :=
  if virtAddr.msb then none
  else do
    let move := Vm.Move.load virtAddr.toNat size
    let value ← s.machine.loaded T (T.process s.current) move
    let machine ← s.machine.step T move
    some ({ s with machine := machine }, value)

/-- `MMU::WriteMem` for a page that is there. -/
def store (virtAddr : BitVec 32) (size : Nat) (value : BitVec 32) : Option Running :=
  if virtAddr.msb then none
  else (s.machine.step T (.store virtAddr.toNat size value)).map fun machine =>
    { s with machine := machine }

/-- The first access that the thread makes now: the address, the size, whether it writes. -/
def wanted : BitVec 32 × Nat × Bool :=
  match s.phase s.current with
  | .start => (s.regs PC_REG, 4, false)
  | .access op tmp _ _ =>
      if op.mergesWord then (tmp &&& ~~~0x3, 4, false) else (tmp, op.size, op.storesAligned)

/-- What the kernel may do here: between two instructions another thread may get the
    processor, and on a page fault it is the kernel that runs. -/
def permits : Vm.Move → Bool
  | .switch _ => s.phase s.current = .start || (s.machine.system.pc s.current).isSome
  | .destroy _ => s.phase s.current = .start
  | .advance => true
  | _ => false

/-- `RaiseException (PAGEFAULT_EXCEPTION, virtAddr)` from `Translate`. -/
def fault (buffer : Page) : Option Running :=
  let (virtAddr, size, writing) := s.wanted
  let e := s.machine.system.memory.entry (T.process s.current) (virtAddr.toNat / PageSize)
  if virtAddr.msb ∨ virtAddr.toNat % size ≠ 0 ∨ writing ∧ ¬ e.writeAllowed then none
  else do
    let r ← DelayedLoad (s.regs.set BADVADDR_REG virtAddr) 0 0
    let machine ← s.machine.step T (.fault (virtAddr.toNat / PageSize) buffer)
    some { s.setRegs r with machine := machine }

/-- The instruction of the thread is read. -/
def fetch : Option (Running × Instruction) :=
  if s.phase s.current = .start then do
    let (s, raw) ← s.load T (s.regs PC_REG) 4
    some (s, Decode raw)
  else none

/-- What a partial load goes on from. -/
def loadedBefore (rt : Nat) : BitVec 32 :=
  if s.regs LOAD_REG = BitVec.ofNat 32 rt then s.regs LOADVALUE_REG else s.regs rt

/-- The end of a load or a store. -/
def finish (nextLoadReg : Nat) (nextLoadValue : BitVec 32) : Option Running := do
  let r ← complete s.regs nextLoadReg nextLoadValue
  some ((s.setRegs r).setPhase .start)

/-- The access of a load or a store. -/
def access (op : MemOp) (tmp : BitVec 32) (rt : Nat) (reg : BitVec 32) : Option Running :=
  if op.storesAligned then do
    let s ← s.store T tmp op.size reg
    s.finish 0 0
  else if op.mergesWord then do
    let (s, value) ← s.load T (tmp &&& ~~~0x3) 4
    let value ← op.merged std value (s.regs rt) tmp
    let s ← s.store T (tmp &&& ~~~0x3) 4 value
    s.finish 0 0
  else if op.refuses tmp then none
  else do
    let (s, value) ← s.load T tmp op.size
    let next ← op.loaded std (s.loadedBefore rt) value tmp
    s.finish rt next

/-- A step; there is none where the simulator stops, or where the code above does not come
    to this. -/
def step : Act → Option Running
  | .kernel move =>
      if s.permits move then
        (s.machine.step T move).map fun machine => { s with machine := machine }
      else none
  | .fault buffer => s.fault T buffer
  | .integer => do
      let (s, instr) ← s.fetch T
      match instr.opCode with
      | .int op =>
          match OneInstruction std s.regs instr op with
          | some (.advanced r) => some (s.setRegs r)
          | _ => none
      | _ => none
  | .address => do
      let (s, instr) ← s.fetch T
      match instr.opCode with
      | .mem op => do
          let tmp ← add (s.regs instr.rs) instr.extra
          some (s.setPhase (.access op tmp instr.rt (s.regs instr.rt)))
      | _ => none
  | .memory =>
      match s.phase s.current with
      | .access op tmp rt reg => s.access T std op tmp rt reg
      | .start => none

end Running

end Mips
end Nachos
