/-
  Nachos.Machine.MipsMemory

  The loads and stores of the MIPS I architecture on a memory that is there as a whole, and
  a machine of any number of threads that execute them with the integer operations, one
  instruction at a time.  Threads of one process share its memory.  The operations for words
  that are not aligned are left out.
-/

import Nachos.Machine.MipsArch
import Nachos.Vm.ByteOrder

namespace Nachos
namespace Mips

open HostInt Words Vm

/-! ## The encoding -/

/-- An operation on the memory, by the opcode in bits 31:26. -/
def memoryOpcode : Nat → Option MemOp
  | 0x20 => some .LB
  | 0x21 => some .LH
  | 0x22 => some .LWL
  | 0x23 => some .LW
  | 0x24 => some .LBU
  | 0x25 => some .LHU
  | 0x26 => some .LWR
  | 0x28 => some .SB
  | 0x29 => some .SH
  | 0x2a => some .SWL
  | 0x2b => some .SW
  | 0x2e => some .SWR
  | _ => none

/-- The operation on the memory that a word encodes. -/
def memoryOperation (w : BitVec 32) : Option MemOp := memoryOpcode (w.extractLsb' 26 6).toNat

/-- The operation on the memory of an entry of the tables. -/
def OpCode.mem? : OpCode → Option MemOp
  | .mem op => some op
  | _ => none

theorem mem?_eq_some {o : OpCode} {op : MemOp} : o.mem? = some op ↔ o = .mem op := by
  cases o <;> simp [OpCode.mem?]

theorem opTable_mem : ∀ n < 64, (opTable.getD n (.RES, .IFMT)).1.mem? = memoryOpcode n ∧
    ∀ op ∈ memoryOpcode n, (opTable.getD n (.RES, .IFMT)).2 = .IFMT := by decide

theorem specialTable_mem : ∀ n < 64, (specialTable.getD n .RES).mem? = none := by decide

theorem cop1_table_mem : ∀ n < 64, (cop1STable.getD n .RES).mem? = none ∧
    (cop1DTable.getD n .RES).mem? = none := by decide

theorem cop1_mem (w : BitVec 32) : (cop1 w).mem? = none := by
  obtain ⟨hS, hD⟩ := cop1_table_mem _ (funct_lt w)
  simp only [cop1]
  repeat' split
  all_goals first | exact hS | exact hD | rfl

theorem bcond_mem (w : BitVec 32) : (bcond w).mem? = none := by
  simp only [bcond]
  repeat' split
  all_goals rfl

/-- `Decode` maps a word to the operation on the memory that it encodes, and to no other. -/
theorem Decode_mem (w : BitVec 32) (op : MemOp) :
    (Decode w).opCode = .mem op ↔ memoryOperation w = some op := by
  have hlt : (w.extractLsb' 26 6).toNat < 64 := (w.extractLsb' 26 6).isLt
  obtain ⟨-, hspecial, hbcond, hcop1⟩ := opTable_int _ hlt
  obtain ⟨hmem, -⟩ := opTable_mem _ hlt
  rw [← mem?_eq_some]
  unfold Decode memoryOperation
  simp only [opPtr_eq]
  generalize (opTable.getD (w.extractLsb' 26 6).toNat (.RES, .IFMT)).1 = o at *
  generalize (w.extractLsb' 26 6).toNat = n at *
  split
  · rw [hspecial.mp rfl, specialTable_mem _ (funct_lt w)]
    rfl
  · rw [hbcond.mp rfl, bcond_mem]
    rfl
  · rw [hcop1.mp rfl, cop1_mem]
    rfl
  · rw [hmem]

/-- The offset of an operation on the memory is the sign-extended immediate field. -/
theorem Decode_offset {w : BitVec 32} {op : MemOp} (h : memoryOperation w = some op) :
    (Decode w).extra = signed w := by
  have hlt : (w.extractLsb' 26 6).toNat < 64 := (w.extractLsb' 26 6).isLt
  have hformat : (opPtr w).2 = .IFMT := by
    rw [opPtr_eq]
    exact (opTable_mem _ hlt).2 op h
  show extra w (opPtr w).2 = _
  rw [hformat, extra_IFMT]

/-- A word encodes an integer operation or one on the memory. -/
theorem operation_of_memory {w : BitVec 32} {op : MemOp} (h : memoryOperation w = some op) :
    operation w = none := by
  cases hint : operation w with
  | none => rfl
  | some op' =>
      rw [← Decode_mem] at h
      rw [← Decode_int, h] at hint
      exact nomatch hint

/-! ## The registers of an instruction -/

/-- The registers that an integer operation reads or writes. -/
def IntOp.operands (w : BitVec 32) : IntOp → List (BitVec 5)
  | .ADD | .ADDU | .AND | .NOR | .OR | .SLLV | .SLT | .SLTU | .SRAV | .SRLV | .SUB | .SUBU
  | .XOR => [rs w, rt w, rd w]
  | .ADDI | .ADDIU | .ANDI | .ORI | .SLTI | .SLTIU | .XORI => [rs w, rt w]
  | .BEQ | .BNE | .DIV | .DIVU | .MULT | .MULTU => [rs w, rt w]
  | .BGEZ | .BGTZ | .BLEZ | .BLTZ | .JR | .MTHI | .MTLO => [rs w]
  | .BGEZAL | .BLTZAL => [rs w, 31]
  | .J => []
  | .JAL => [31]
  | .JALR => [rs w, rd w]
  | .LUI => [rt w]
  | .MFHI | .MFLO => [rd w]
  | .SLL | .SRA | .SRL => [rt w, rd w]

/-! ## Numbers in the memory -/

/-- The byte of a number of `size` bytes that has the offset `j`, counted from the least
    significant one: the order is an involution, so it is also the offset of byte `j`. -/
def place (size j : Nat) : Endianess → Nat
  | .IS_LITTLE_ENDIAN => j
  | .IS_BIG_ENDIAN => size - 1 - j

/-- The number that four bytes make. -/
def wordOf (order : Endianess) (b : Nat → Byte) : BitVec 32 :=
  b (place 4 3 order) ++ b (place 4 2 order) ++ b (place 4 1 order) ++ b (place 4 0 order)

/-- The number that two bytes make. -/
def halfOf (order : Endianess) (b : Nat → Byte) : BitVec 16 :=
  b (place 2 1 order) ++ b (place 2 0 order)

/-- The byte of a register that is stored at the offset `j`. -/
def storedByte (order : Endianess) (size : Nat) (x : BitVec 32) (j : Nat) : Byte :=
  x.extractLsb' (8 * place size j order) 8

/-- The size of the data of an operation. -/
def MemOp.size : MemOp → Nat
  | .LB | .LBU | .SB => 1
  | .LH | .LHU | .SH => 2
  | _ => 4

/-- What an aligned load makes of the bytes. -/
def MemOp.result (order : Endianess) (b : Nat → Byte) : MemOp → Option (BitVec 32)
  | .LB => some ((b 0).signExtend 32)
  | .LBU => some ((b 0).setWidth 32)
  | .LH => some ((halfOf order b).signExtend 32)
  | .LHU => some ((halfOf order b).setWidth 32)
  | .LW => some (wordOf order b)
  | _ => none

/-- The stores of aligned data. -/
def MemOp.storesAligned : MemOp → Bool
  | .SB | .SH | .SW => true
  | _ => false

/-! ## The machine -/

/-- What is the same all the time: the byte order, the process of each thread, and the pages
    that a process may access, and write. -/
structure Surroundings where
  order : Endianess
  process : Vm.ThreadId → SpaceId
  accessible : SpaceId → Nat → Bool
  writable : SpaceId → Nat → Bool

/-- A thread: the processor, with all loads done, and the register that the last instruction
    has loaded, which the next one cannot use yet. -/
structure Core where
  cpu : Cpu
  loading : BitVec 5

/-- The threads and the memories of the processes, as far as the bytes are known. -/
structure Flat where
  core : Vm.ThreadId → Core
  memory : SpaceId → Nat → Option Byte

namespace Flat

variable [VmConfig] (e : Surroundings) (f : Flat) (t : Vm.ThreadId)

/-- The thread may access data of this size. -/
def Allowed (a size : Nat) (writing : Bool) : Prop :=
  a % size = 0 ∧ e.accessible (e.process t) (a / PageSize) = true ∧
    (writing = true → e.writable (e.process t) (a / PageSize) = true)

instance (a size : Nat) (writing : Bool) : Decidable (Allowed e t a size writing) :=
  inferInstanceAs (Decidable (_ ∧ _ ∧ _))

/-- The bytes at an address, when they are known. -/
def bytes (a size : Nat) : Option (Nat → Byte) :=
  if Allowed e t a size false ∧ (List.range size).all fun j =>
      (f.memory (e.process t) (a + j)).isSome then
    some fun j => (f.memory (e.process t) (a + j)).getD 0
  else none

/-- The instruction that the thread comes to. -/
def instruction : Option (BitVec 32) :=
  (f.bytes e t (f.core t).cpu.pc.toNat 4).map (wordOf e.order)

/-- The thread goes on with another processor state. -/
def setCore (k : Core) : Flat := { f with core := Function.update f.core t k }

/-- The address of an operation on the memory. -/
def address (w : BitVec 32) : BitVec 32 := (f.core t).cpu.s w + signed w

/-- An operation on the memory. -/
def access (w : BitVec 32) (op : MemOp) : Option Flat :=
  let cpu := (f.core t).cpu
  let a := (f.address t w).toNat
  if op.storesAligned then
    if Allowed e t a op.size true then
      some { f.setCore t ⟨cpu.next, 0⟩ with
        memory := fun b i =>
          if b = e.process t ∧ a ≤ i ∧ i < a + op.size then
            some (storedByte e.order op.size (cpu.t w) (i - a))
          else f.memory b i }
    else none
  else do
    let bytes ← f.bytes e t a op.size
    let x ← op.result e.order bytes
    some (f.setCore t ⟨(cpu.write (rt w) x).next, rt w⟩)

/-- The thread executes one instruction.  There is no step where an exception is raised. -/
def step : Option Flat := do
  let w ← f.instruction e t
  match operation w, memoryOperation w with
  | some op, _ => (((f.core t).cpu.effect w op).map fun cpu => f.setCore t ⟨cpu, 0⟩)
  | none, some op => f.access e t w op
  | none, none => none

end Flat

end Mips
end Nachos
