/-
  Nachos.Machine.Mips

  The simulated processor: the decoding of an instruction word (`Instruction::Decode` with
  its tables in `machine/mipssim.h`), and what `Machine::OneInstruction` does to the integer
  registers for an operation on them.  The registers are an array of 32-bit words in the
  host, and their sums, shifts and quotients are those of the signed integers of C++.

  Left out are the operations that use the memory or the floating point registers, the
  system call and the reserved operations.
-/

import Nachos.Lib.HostInt
import Nachos.Machine.Mult
import Mathlib.Logic.Function.Basic

namespace Nachos
namespace Mips

/-! ## Decoding -/

/-- The integer operations: `OP_ADD` is `ADD`. -/
inductive IntOp where
  | ADD | ADDI | ADDIU | ADDU | AND | ANDI | BEQ | BGEZ | BGEZAL | BGTZ | BLEZ | BLTZ | BLTZAL
  | BNE | DIV | DIVU | J | JAL | JALR | JR | LUI | MFHI | MFLO | MTHI | MTLO | MULT | MULTU | NOR
  | OR | ORI | SLL | SLLV | SLT | SLTI | SLTIU | SLTU | SRA | SRAV | SRL | SRLV | SUB | SUBU
  | XOR | XORI
deriving DecidableEq, Repr

/-- The loads and stores. -/
inductive MemOp where
  | LB | LBU | LH | LHU | LW | LWL | LWR | SB | SH | SW | SWL | SWR
deriving DecidableEq, Repr

/-- The floating point operations. -/
inductive FpOp where
  | LWC1 | LDC1 | SWC1 | SDC1 | ABS_S | ABS_D | ADD_S | ADD_D | DIV_S | DIV_D | MUL_S | MUL_D
  | NEG_S | NEG_D | SUB_S | SUB_D | CVT_S_D | CVT_S_W | CVT_W_S | CVT_W_D | CVT_D_S | CVT_D_W
  | CEIL_W_S | CEIL_W_D | FLOOR_W_S | FLOOR_W_D | ROUND_W_S | ROUND_W_D | TRUNC_W_S | TRUNC_W_D
  | MOV_S | MOV_D | BC1F | BC1T | BC1FL | BC1TL | SQRT_S | SQRT_D | C_F_S | C_UN_S | C_EQ_S
  | C_UEQ_S | C_OLT_S | C_ULT_S | C_OLE_S | C_ULE_S | C_SF_S | C_NGLE_S | C_SEQ_S | C_NGL_S
  | C_LT_S | C_NGE_S | C_LE_S | C_NGT_S | C_F_D | C_UN_D | C_EQ_D | C_UEQ_D | C_OLT_D | C_ULT_D
  | C_OLE_D | C_ULE_D | C_SF_D | C_NGLE_D | C_SEQ_D | C_NGL_D | C_LT_D | C_NGE_D | C_LE_D
  | C_NGT_D | MFC1 | CFC1 | MTC1 | CTC1
deriving DecidableEq, Repr

/-- What the tables map an instruction to.  `SPECIAL`, `BCOND` and `COP1` stand for a
    further decoding. -/
inductive OpCode where
  | int (op : IntOp)
  | mem (op : MemOp)
  | fp (op : FpOp)
  | SYSCALL | UNIMP | RES | SPECIAL | BCOND | COP1
deriving DecidableEq, Repr

inductive Format where
  | IFMT | JFMT | RFMT
deriving DecidableEq, Repr

/-- By bits 31:26 of the instruction. -/
def opTable : List (OpCode × Format) :=
  [(.SPECIAL, .RFMT), (.BCOND, .IFMT), (.int .J, .JFMT), (.int .JAL, .JFMT), (.int .BEQ, .IFMT),
   (.int .BNE, .IFMT), (.int .BLEZ, .IFMT), (.int .BGTZ, .IFMT), (.int .ADDI, .IFMT),
   (.int .ADDIU, .IFMT), (.int .SLTI, .IFMT), (.int .SLTIU, .IFMT), (.int .ANDI, .IFMT),
   (.int .ORI, .IFMT), (.int .XORI, .IFMT), (.int .LUI, .IFMT), (.UNIMP, .IFMT), (.COP1, .IFMT),
   (.UNIMP, .IFMT), (.UNIMP, .IFMT), (.RES, .IFMT), (.RES, .IFMT), (.RES, .IFMT), (.RES, .IFMT),
   (.RES, .IFMT), (.RES, .IFMT), (.RES, .IFMT), (.RES, .IFMT), (.RES, .IFMT), (.RES, .IFMT),
   (.RES, .IFMT), (.RES, .IFMT), (.mem .LB, .IFMT), (.mem .LH, .IFMT), (.mem .LWL, .IFMT),
   (.mem .LW, .IFMT), (.mem .LBU, .IFMT), (.mem .LHU, .IFMT), (.mem .LWR, .IFMT), (.RES, .IFMT),
   (.mem .SB, .IFMT), (.mem .SH, .IFMT), (.mem .SWL, .IFMT), (.mem .SW, .IFMT), (.RES, .IFMT),
   (.RES, .IFMT), (.mem .SWR, .IFMT), (.RES, .IFMT), (.UNIMP, .IFMT), (.fp .LWC1, .IFMT),
   (.UNIMP, .IFMT), (.UNIMP, .IFMT), (.RES, .IFMT), (.fp .LDC1, .IFMT), (.RES, .IFMT),
   (.RES, .IFMT), (.UNIMP, .IFMT), (.fp .SWC1, .IFMT), (.UNIMP, .IFMT), (.UNIMP, .IFMT),
   (.RES, .IFMT), (.fp .SDC1, .IFMT), (.RES, .IFMT), (.RES, .IFMT)]

/-- By the funct field of a `SPECIAL` instruction. -/
def specialTable : List OpCode :=
  [.int .SLL, .RES, .int .SRL, .int .SRA, .int .SLLV, .RES, .int .SRLV, .int .SRAV, .int .JR,
   .int .JALR, .RES, .RES, .SYSCALL, .UNIMP, .RES, .RES, .int .MFHI, .int .MTHI, .int .MFLO,
   .int .MTLO, .RES, .RES, .RES, .RES, .int .MULT, .int .MULTU, .int .DIV, .int .DIVU, .RES, .RES,
   .RES, .RES, .int .ADD, .int .ADDU, .int .SUB, .int .SUBU, .int .AND, .int .OR, .int .XOR,
   .int .NOR, .RES, .RES, .int .SLT, .int .SLTU, .RES, .RES, .RES, .RES, .RES, .RES, .RES, .RES,
   .RES, .RES, .RES, .RES, .RES, .RES, .RES, .RES, .RES, .RES, .RES, .RES]

/-- By the function field of a single precision `COP1` instruction. -/
def cop1STable : List OpCode :=
  [.fp .ADD_S, .fp .SUB_S, .fp .MUL_S, .fp .DIV_S, .fp .SQRT_S, .fp .ABS_S, .fp .MOV_S,
   .fp .NEG_S, .RES, .RES, .RES, .RES, .fp .ROUND_W_S, .fp .TRUNC_W_S, .fp .CEIL_W_S,
   .fp .FLOOR_W_S, .RES, .UNIMP, .UNIMP, .UNIMP, .RES, .RES, .RES, .RES, .RES, .RES, .RES, .RES,
   .RES, .RES, .RES, .RES, .RES, .fp .CVT_D_S, .RES, .RES, .fp .CVT_W_S, .RES, .RES, .RES, .RES,
   .RES, .RES, .RES, .RES, .RES, .RES, .RES, .fp .C_F_S, .fp .C_UN_S, .fp .C_EQ_S, .fp .C_UEQ_S,
   .fp .C_OLT_S, .fp .C_ULT_S, .fp .C_OLE_S, .fp .C_ULE_S, .fp .C_SF_S, .fp .C_NGLE_S,
   .fp .C_SEQ_S, .fp .C_NGL_S, .fp .C_LT_S, .fp .C_NGE_S, .fp .C_LE_S, .fp .C_NGT_S]

/-- By the function field of a double precision `COP1` instruction. -/
def cop1DTable : List OpCode :=
  [.fp .ADD_D, .fp .SUB_D, .fp .MUL_D, .fp .DIV_D, .fp .SQRT_D, .fp .ABS_D, .fp .MOV_D,
   .fp .NEG_D, .RES, .RES, .RES, .RES, .fp .ROUND_W_D, .fp .TRUNC_W_D, .fp .CEIL_W_D,
   .fp .FLOOR_W_D, .RES, .UNIMP, .UNIMP, .UNIMP, .RES, .RES, .RES, .RES, .RES, .RES, .RES, .RES,
   .RES, .RES, .RES, .RES, .fp .CVT_S_D, .RES, .RES, .RES, .fp .CVT_W_D, .RES, .RES, .RES, .RES,
   .RES, .RES, .RES, .RES, .RES, .RES, .RES, .fp .C_F_D, .fp .C_UN_D, .fp .C_EQ_D, .fp .C_UEQ_D,
   .fp .C_OLT_D, .fp .C_ULT_D, .fp .C_OLE_D, .fp .C_ULE_D, .fp .C_SF_D, .fp .C_NGLE_D,
   .fp .C_SEQ_D, .fp .C_NGL_D, .fp .C_LT_D, .fp .C_NGE_D, .fp .C_LE_D, .fp .C_NGT_D]

/-- An `Instruction` object.  The numbers of registers are five bits of the word. -/
structure Instruction where
  value : BitVec 32
  opCode : OpCode
  rs : Nat
  rt : Nat
  rd : Nat
  fs : Nat
  ft : Nat
  fd : Nat
  /-- Immediate, target, shift amount or offset.  Immediates are sign-extended. -/
  extra : BitVec 32
deriving DecidableEq, Repr

/-- The five bits of a word from bit `n` on. -/
def register (value : BitVec 32) (n : Nat) : Nat := ((value >>> n) &&& 0x1f).toNat

/-- What a branch on a condition (`BCOND`) is, by its field for `rt`. -/
def bcond (value : BitVec 32) : OpCode :=
  let i := value &&& 0x1f0000
  if i = 0 then .int .BLTZ
  else if i = 0x10000 then .int .BGEZ
  else if i = 0x100000 then .int .BLTZAL
  else if i = 0x110000 then .int .BGEZAL
  else .UNIMP

def funct (value : BitVec 32) : Nat := (value &&& 0x3f).toNat

/-- What a floating point instruction (`COP1`) is. -/
def cop1 (value : BitVec 32) : OpCode :=
  let rs := register value 21
  let rt := register value 16
  if rs = 0x10 then cop1STable.getD (funct value) .RES
  else if rs = 0x11 then cop1DTable.getD (funct value) .RES
  else if rs = 0x08 ∧ rt = 0x00 then .fp .BC1F
  else if rs = 0x08 ∧ rt = 0x01 then .fp .BC1T
  else if rs = 0x00 then .fp .MFC1
  else if rs = 0x02 then .fp .CFC1
  else if rs = 0x04 then .fp .MTC1
  else if rs = 0x06 then .fp .CTC1
  else if rs = 0x14 then
    if funct value = 0x20 then .fp .CVT_S_W
    else if funct value = 0x21 then .fp .CVT_D_W
    else .UNIMP
  else .UNIMP

/-- The entry of `opTable` for a word. -/
def opPtr (value : BitVec 32) : OpCode × Format :=
  opTable.getD ((value >>> 26) &&& 0x3f).toNat (.RES, .IFMT)

/-- The field `extra`, by the format of the instruction. -/
def extra (value : BitVec 32) : Format → BitVec 32
  | .IFMT =>
      let extra := value &&& 0xffff
      if extra &&& 0x8000 ≠ 0 then extra ||| 0xffff0000 else extra
  | .RFMT => (value >>> 6) &&& 0x1f
  | .JFMT => value &&& 0x3ffffff

/-- `Instruction::Decode`. -/
def Decode (value : BitVec 32) : Instruction where
  value := value
  opCode :=
    match (opPtr value).1 with
    | .SPECIAL => specialTable.getD (funct value) .RES
    | .BCOND => bcond value
    | .COP1 => cop1 value
    | op => op
  rs := register value 21
  rt := register value 16
  rd := register value 11
  fs := register value 11
  ft := register value 16
  fd := register value 6
  extra := extra value (opPtr value).2

/-! ## The registers -/

def NUM_INT_REGS : Nat := 40

def R31 : Nat := 31
def HI_REG : Nat := 32
def LO_REG : Nat := 33
def PC_REG : Nat := 34
def NEXTPC_REG : Nat := 35
def PREVPC_REG : Nat := 36
def LOAD_REG : Nat := 37
def LOADVALUE_REG : Nat := 38
def BADVADDR_REG : Nat := 39

/-- The array `int_registers`, of `NUM_INT_REGS` words. -/
abbrev Registers := Nat → BitVec 32

def Registers.set (r : Registers) (i : Nat) (x : BitVec 32) : Registers := Function.update r i x

/-- `Machine::DelayedLoad`.  The register of the load that is pending is an index. -/
def DelayedLoad (r : Registers) (nextReg nextValue : BitVec 32) : Option Registers :=
  let i := (r LOAD_REG).toNat
  if i < NUM_INT_REGS then
    some ((((r.set i (r LOADVALUE_REG)).set LOAD_REG nextReg).set LOADVALUE_REG nextValue).set 0 0)
  else none

/-! ## Execution -/

/-- How the `switch` of `OneInstruction` is left: with the registers and the next program
    counter, or by a return after `RaiseException (OVERFLOW_EXCEPTION, 0)`. -/
inductive Executed where
  | goesOn (r : Registers) (pcAfter : BitVec 32)
  | overflows

/-- The end of `OneInstruction`: the next instruction, or the call of the handler of an
    overflow with the registers as they are then. -/
inductive Outcome where
  | advanced (r : Registers)
  | raised (r : Registers)

open HostInt

/-- `IndexToAddr (x)`. -/
def IndexToAddr (std : Edition) (x : BitVec 32) : Option (BitVec 32) := shl std x 2

def SIGN_BIT : BitVec 32 := 0x80000000

section

variable (std : Edition) (r : Registers) (pcAfter : BitVec 32)

/-- The next program counter of a branch. -/
def branch (extra : BitVec 32) (taken : Bool) : Option Executed :=
  if taken then do
    let offset ← IndexToAddr std extra
    let pcAfter ← add (r NEXTPC_REG) offset
    pure (.goesOn r pcAfter)
  else pure (.goesOn r pcAfter)

/-- A factor of `Mult` once everything is positive: `if (a < 0) a = -a`. -/
def positive (signedArith : Bool) (a : BitVec 32) : Option (BitVec 32) :=
  if signedArith && a.slt 0 then neg a else pure a

/-- The call of `Mult`, as far as it is defined: only the changes of sign may not be. -/
def mult (a b : BitVec 32) (signedArith : Bool) : Option (BitVec 32 × BitVec 32) :=
  if a = 0 ∨ b = 0 then pure (Mult a b signedArith)
  else do
    let _ ← positive signedArith a
    let _ ← positive signedArith b
    pure (Mult a b signedArith)

/-- The `switch` of `OneInstruction`, for the integer operations. -/
def execute (instr : Instruction) : IntOp → Option Executed
  | .ADD => do
      let sum ← add (r instr.rs) (r instr.rt)
      if (r instr.rs ^^^ r instr.rt) &&& SIGN_BIT = 0 ∧ (r instr.rs ^^^ sum) &&& SIGN_BIT ≠ 0 then
        pure .overflows
      else pure (.goesOn (r.set instr.rd sum) pcAfter)
  | .ADDI => do
      let sum ← add (r instr.rs) instr.extra
      if (r instr.rs ^^^ instr.extra) &&& SIGN_BIT = 0 ∧ (instr.extra ^^^ sum) &&& SIGN_BIT ≠ 0 then
        pure .overflows
      else pure (.goesOn (r.set instr.rt sum) pcAfter)
  | .ADDIU => do
      let sum ← add (r instr.rs) instr.extra
      pure (.goesOn (r.set instr.rt sum) pcAfter)
  | .ADDU => do
      let sum ← add (r instr.rs) (r instr.rt)
      pure (.goesOn (r.set instr.rd sum) pcAfter)
  | .AND => pure (.goesOn (r.set instr.rd (r instr.rs &&& r instr.rt)) pcAfter)
  | .ANDI => pure (.goesOn (r.set instr.rt (r instr.rs &&& (instr.extra &&& 0xffff))) pcAfter)
  | .BEQ => branch std r pcAfter instr.extra (r instr.rs == r instr.rt)
  | .BGEZAL => do
      let link ← add (r NEXTPC_REG) 4
      let r := r.set R31 link
      branch std r pcAfter instr.extra (r instr.rs &&& SIGN_BIT == 0)
  | .BGEZ => branch std r pcAfter instr.extra (r instr.rs &&& SIGN_BIT == 0)
  | .BGTZ => branch std r pcAfter instr.extra ((0 : BitVec 32).slt (r instr.rs))
  | .BLEZ => branch std r pcAfter instr.extra ((r instr.rs).sle 0)
  | .BLTZAL => do
      let link ← add (r NEXTPC_REG) 4
      let r := r.set R31 link
      branch std r pcAfter instr.extra (r instr.rs &&& SIGN_BIT != 0)
  | .BLTZ => branch std r pcAfter instr.extra (r instr.rs &&& SIGN_BIT != 0)
  | .BNE => branch std r pcAfter instr.extra (r instr.rs != r instr.rt)
  | .DIV =>
      if r instr.rt = 0 then pure (.goesOn ((r.set LO_REG 0).set HI_REG 0) pcAfter)
      else do
        let quotient ← div (r instr.rs) (r instr.rt)
        let remainder ← rem (r instr.rs) (r instr.rt)
        pure (.goesOn ((r.set LO_REG quotient).set HI_REG remainder) pcAfter)
  | .DIVU =>
      if r instr.rt = 0 then pure (.goesOn ((r.set LO_REG 0).set HI_REG 0) pcAfter)
      else
        pure (.goesOn ((r.set LO_REG (r instr.rs / r instr.rt)).set HI_REG
          (r instr.rs % r instr.rt)) pcAfter)
  | .JAL => do
      let link ← add (r NEXTPC_REG) 4
      let target ← IndexToAddr std instr.extra
      pure (.goesOn (r.set R31 link) ((pcAfter &&& 0xf0000000) ||| target))
  | .J => do
      let target ← IndexToAddr std instr.extra
      pure (.goesOn r ((pcAfter &&& 0xf0000000) ||| target))
  | .JALR => do
      let link ← add (r NEXTPC_REG) 4
      let r := r.set instr.rd link
      pure (.goesOn r (r instr.rs))
  | .JR => pure (.goesOn r (r instr.rs))
  | .LUI => do
      let upper ← shl std instr.extra 16
      pure (.goesOn (r.set instr.rt upper) pcAfter)
  | .MFHI => pure (.goesOn (r.set instr.rd (r HI_REG)) pcAfter)
  | .MFLO => pure (.goesOn (r.set instr.rd (r LO_REG)) pcAfter)
  | .MTHI => pure (.goesOn (r.set HI_REG (r instr.rs)) pcAfter)
  | .MTLO => pure (.goesOn (r.set LO_REG (r instr.rs)) pcAfter)
  | .MULT => do
      let (hi, lo) ← mult (r instr.rs) (r instr.rt) true
      pure (.goesOn ((r.set HI_REG hi).set LO_REG lo) pcAfter)
  | .MULTU => do
      let (hi, lo) ← mult (r instr.rs) (r instr.rt) false
      pure (.goesOn ((r.set HI_REG hi).set LO_REG lo) pcAfter)
  | .NOR => pure (.goesOn (r.set instr.rd (~~~(r instr.rs ||| r instr.rt))) pcAfter)
  | .OR => pure (.goesOn (r.set instr.rd (r instr.rs ||| r instr.rs)) pcAfter)
  | .ORI => pure (.goesOn (r.set instr.rt (r instr.rs ||| (instr.extra &&& 0xffff))) pcAfter)
  | .SLL => do
      let shifted ← shl std (r instr.rt) instr.extra
      pure (.goesOn (r.set instr.rd shifted) pcAfter)
  | .SLLV => do
      let shifted ← shl std (r instr.rt) (r instr.rs &&& 0x1f)
      pure (.goesOn (r.set instr.rd shifted) pcAfter)
  | .SLT =>
      pure (.goesOn (r.set instr.rd (if (r instr.rs).slt (r instr.rt) then 1 else 0)) pcAfter)
  | .SLTI =>
      pure (.goesOn (r.set instr.rt (if (r instr.rs).slt instr.extra then 1 else 0)) pcAfter)
  | .SLTIU =>
      pure (.goesOn (r.set instr.rt (if (r instr.rs).ult instr.extra then 1 else 0)) pcAfter)
  | .SLTU =>
      pure (.goesOn (r.set instr.rd (if (r instr.rs).ult (r instr.rt) then 1 else 0)) pcAfter)
  | .SRA | .SRL => do
      -- `tmp` is an `int` too, so the shift of a logical operation keeps the sign
      let shifted ← shr (r instr.rt) instr.extra
      pure (.goesOn (r.set instr.rd shifted) pcAfter)
  | .SRAV | .SRLV => do
      let shifted ← shr (r instr.rt) (r instr.rs &&& 0x1f)
      pure (.goesOn (r.set instr.rd shifted) pcAfter)
  | .SUB => do
      let diff ← sub (r instr.rs) (r instr.rt)
      if (r instr.rs ^^^ r instr.rt) &&& SIGN_BIT ≠ 0 ∧
          (r instr.rs ^^^ diff) &&& SIGN_BIT ≠ 0 then
        pure .overflows
      else pure (.goesOn (r.set instr.rd diff) pcAfter)
  | .SUBU => do
      let diff ← sub (r instr.rs) (r instr.rt)
      pure (.goesOn (r.set instr.rd diff) pcAfter)
  | .XOR => pure (.goesOn (r.set instr.rd (r instr.rs ^^^ r instr.rt)) pcAfter)
  | .XORI => pure (.goesOn (r.set instr.rt (r instr.rs ^^^ (instr.extra &&& 0xffff))) pcAfter)

end

/-- The end of `OneInstruction`: the delayed load, then the program counters go on.  An
    overflow returns from the middle, with the exception raised. -/
def finish (r : Registers) : Executed → Option Outcome
  | .goesOn r pcAfter => do
      let r ← DelayedLoad r 0 0
      let r := r.set PREVPC_REG (r PC_REG)
      let r := r.set PC_REG (r NEXTPC_REG)
      pure (.advanced (r.set NEXTPC_REG pcAfter))
  | .overflows => do
      let r ← DelayedLoad (r.set BADVADDR_REG 0) 0 0
      pure (.raised r)

/-- `Machine::OneInstruction` from the decoded instruction on, for an integer operation. -/
def OneInstruction (std : Edition) (r : Registers) (instr : Instruction) (op : IntOp) :
    Option Outcome := do
  let pcAfter ← add (r NEXTPC_REG) 4
  let executed ← execute std r pcAfter instr op
  finish r executed

end Mips
end Nachos
