/-
  Nachos.Machine.MipsArch

  The integer operations of the MIPS I architecture, from its own encoding of an
  instruction and on its own state: thirty-two registers of which the first is always
  zero, `HI` and `LO`, the address of the instruction and that of the next one.  The next
  instruction is in the delay slot when this one branches, so a branch counts from there
  and a link is the address behind it.
-/

import Nachos.Machine.Mips

namespace Nachos
namespace Mips

/-- The state of the processor that the architecture defines. -/
@[ext] structure Cpu where
  gpr : BitVec 5 → BitVec 32
  zero : gpr 0 = 0
  hi : BitVec 32
  lo : BitVec 32
  pc : BitVec 32
  npc : BitVec 32

namespace Cpu

/-- A register takes a value, unless it is the one that is always zero. -/
def write (c : Cpu) (d : BitVec 5) (x : BitVec 32) : Cpu :=
  { c with
    gpr := fun i => if i = d ∧ d ≠ 0 then x else c.gpr i
    zero := by
      show (if 0 = d ∧ d ≠ 0 then x else c.gpr 0) = 0
      rw [if_neg (fun h => h.2 h.1.symm), c.zero] }

/-- Nothing is written to the register that is always zero. -/
theorem write_zero (c : Cpu) (x : BitVec 32) : c.write 0 x = c :=
  Cpu.ext (funext fun _ => if_neg fun h => h.2 rfl) rfl rfl rfl rfl

/-- On to the next instruction, with `npc` behind it. -/
def goto (c : Cpu) (npc : BitVec 32) : Cpu := { c with pc := c.npc, npc := npc }

def next (c : Cpu) : Cpu := c.goto (c.npc + 4)

def setHiLo (c : Cpu) (hi lo : BitVec 32) : Cpu := { c with hi := hi, lo := lo }

end Cpu

/-! ## The encoding -/

section

variable (w : BitVec 32)

def rs : BitVec 5 := w.extractLsb' 21 5
def rt : BitVec 5 := w.extractLsb' 16 5
def rd : BitVec 5 := w.extractLsb' 11 5
def sa : BitVec 5 := w.extractLsb' 6 5
def immediate : BitVec 16 := w.extractLsb' 0 16
def target : BitVec 26 := w.extractLsb' 0 26

/-- An operation with its own opcode, in bits 31:26. -/
def ofOpcode : Nat → Option IntOp
  | 0x02 => some .J
  | 0x03 => some .JAL
  | 0x04 => some .BEQ
  | 0x05 => some .BNE
  | 0x06 => some .BLEZ
  | 0x07 => some .BGTZ
  | 0x08 => some .ADDI
  | 0x09 => some .ADDIU
  | 0x0a => some .SLTI
  | 0x0b => some .SLTIU
  | 0x0c => some .ANDI
  | 0x0d => some .ORI
  | 0x0e => some .XORI
  | 0x0f => some .LUI
  | _ => none

/-- An operation with opcode 0, by the function field in bits 5:0. -/
def ofFunction : Nat → Option IntOp
  | 0x00 => some .SLL
  | 0x02 => some .SRL
  | 0x03 => some .SRA
  | 0x04 => some .SLLV
  | 0x06 => some .SRLV
  | 0x07 => some .SRAV
  | 0x08 => some .JR
  | 0x09 => some .JALR
  | 0x10 => some .MFHI
  | 0x11 => some .MTHI
  | 0x12 => some .MFLO
  | 0x13 => some .MTLO
  | 0x18 => some .MULT
  | 0x19 => some .MULTU
  | 0x1a => some .DIV
  | 0x1b => some .DIVU
  | 0x20 => some .ADD
  | 0x21 => some .ADDU
  | 0x22 => some .SUB
  | 0x23 => some .SUBU
  | 0x24 => some .AND
  | 0x25 => some .OR
  | 0x26 => some .XOR
  | 0x27 => some .NOR
  | 0x2a => some .SLT
  | 0x2b => some .SLTU
  | _ => none

/-- An operation with opcode 1, by the field for `rt`. -/
def ofCondition : Nat → Option IntOp
  | 0x00 => some .BLTZ
  | 0x01 => some .BGEZ
  | 0x10 => some .BLTZAL
  | 0x11 => some .BGEZAL
  | _ => none

/-- The integer operation that a word encodes. -/
def operation : Option IntOp :=
  match (w.extractLsb' 26 6).toNat with
  | 0 => ofFunction (w.extractLsb' 0 6).toNat
  | 1 => ofCondition (rt w).toNat
  | opcode => ofOpcode opcode

end

/-! ## The operations -/

section

variable (c : Cpu) (w : BitVec 32)

/-- The contents of the register `rs`. -/
def Cpu.s : BitVec 32 := c.gpr (rs w)

/-- The contents of the register `rt`. -/
def Cpu.t : BitVec 32 := c.gpr (rt w)

def signed : BitVec 32 := (immediate w).signExtend 32

def unsigned : BitVec 32 := (immediate w).setWidth 32

/-- A result in `rd`. -/
def Cpu.toRd (x : BitVec 32) : Option Cpu := some (c.write (rd w) x).next

/-- A result in `rt`. -/
def Cpu.toRt (x : BitVec 32) : Option Cpu := some (c.write (rt w) x).next

/-- A branch, which counts in words from the delay slot. -/
def Cpu.branch (taken : Prop) [Decidable taken] : Option Cpu :=
  some (if taken then c.goto (c.npc + (signed w <<< 2)) else c.next)

/-- The return address, behind the delay slot. -/
def Cpu.link (d : BitVec 5) : Cpu := c.write d (c.npc + 4)

/-- The target of a jump, in the part of the memory that the delay slot is in. -/
def Cpu.region : BitVec 32 := c.npc.extractLsb' 28 4 ++ target w ++ 0#2

/-- What an operation does.  It gives `none` for an integer overflow, by which the state
    is left as it was. -/
def Cpu.effect : IntOp → Option Cpu
  | .ADD => if (c.s w).saddOverflow (c.t w) then none else c.toRd w (c.s w + c.t w)
  | .ADDI => if (c.s w).saddOverflow (signed w) then none else c.toRt w (c.s w + signed w)
  | .ADDIU => c.toRt w (c.s w + signed w)
  | .ADDU => c.toRd w (c.s w + c.t w)
  | .AND => c.toRd w (c.s w &&& c.t w)
  | .ANDI => c.toRt w (c.s w &&& unsigned w)
  | .BEQ => c.branch w (c.s w = c.t w)
  | .BGEZ => c.branch w (0 ≤ (c.s w).toInt)
  | .BGEZAL => (c.link 31).branch w (0 ≤ (c.s w).toInt)
  | .BGTZ => c.branch w (0 < (c.s w).toInt)
  | .BLEZ => c.branch w ((c.s w).toInt ≤ 0)
  | .BLTZ => c.branch w ((c.s w).toInt < 0)
  | .BLTZAL => (c.link 31).branch w ((c.s w).toInt < 0)
  | .BNE => c.branch w (c.s w ≠ c.t w)
  | .DIV =>
      some (c.setHiLo (BitVec.ofInt 32 ((c.s w).toInt.tmod (c.t w).toInt))
        (BitVec.ofInt 32 ((c.s w).toInt.tdiv (c.t w).toInt))).next
  | .DIVU =>
      some (c.setHiLo (BitVec.ofNat 32 ((c.s w).toNat % (c.t w).toNat))
        (BitVec.ofNat 32 ((c.s w).toNat / (c.t w).toNat))).next
  | .J => some (c.goto (c.region w))
  | .JAL => some ((c.link 31).goto (c.region w))
  | .JALR => some ((c.link (rd w)).goto (c.s w))
  | .JR => some (c.goto (c.s w))
  | .LUI => c.toRt w (immediate w ++ 0#16)
  | .MFHI => c.toRd w c.hi
  | .MFLO => c.toRd w c.lo
  | .MTHI => some (c.setHiLo (c.s w) c.lo).next
  | .MTLO => some (c.setHiLo c.hi (c.s w)).next
  | .MULT =>
      let product := BitVec.ofInt 64 ((c.s w).toInt * (c.t w).toInt)
      some (c.setHiLo (product.extractLsb' 32 32) (product.extractLsb' 0 32)).next
  | .MULTU =>
      let product := BitVec.ofNat 64 ((c.s w).toNat * (c.t w).toNat)
      some (c.setHiLo (product.extractLsb' 32 32) (product.extractLsb' 0 32)).next
  | .NOR => c.toRd w (~~~(c.s w ||| c.t w))
  | .OR => c.toRd w (c.s w ||| c.t w)
  | .ORI => c.toRt w (c.s w ||| unsigned w)
  | .SLL => c.toRd w (c.t w <<< (sa w).toNat)
  | .SLLV => c.toRd w (c.t w <<< ((c.s w).toNat % 32))
  | .SLT => c.toRd w (if (c.s w).toInt < (c.t w).toInt then 1 else 0)
  | .SLTI => c.toRt w (if (c.s w).toInt < (signed w).toInt then 1 else 0)
  | .SLTIU => c.toRt w (if (c.s w).toNat < (signed w).toNat then 1 else 0)
  | .SLTU => c.toRd w (if (c.s w).toNat < (c.t w).toNat then 1 else 0)
  | .SRA => c.toRd w ((c.t w).sshiftRight (sa w).toNat)
  | .SRAV => c.toRd w ((c.t w).sshiftRight ((c.s w).toNat % 32))
  | .SRL => c.toRd w (c.t w >>> (sa w).toNat)
  | .SRLV => c.toRd w (c.t w >>> ((c.s w).toNat % 32))
  | .SUB => if (c.s w).ssubOverflow (c.t w) then none else c.toRd w (c.s w - c.t w)
  | .SUBU => c.toRd w (c.s w - c.t w)
  | .XOR => c.toRd w (c.s w ^^^ c.t w)
  | .XORI => c.toRt w (c.s w ^^^ unsigned w)

/-- The result of an operation is one that the architecture defines: the divisor is not
    zero, and a link does not overwrite the register that the instruction reads. -/
def Cpu.Defined : IntOp → Prop
  | .DIV | .DIVU => c.t w ≠ 0
  | .JALR => rd w ≠ rs w
  | .BGEZAL | .BLTZAL => rs w ≠ 31
  | _ => True

end

/-! ## The decoding of the simulator -/

/-- A field of a word, as the simulator takes it. -/
theorem field_eq (w : BitVec 32) (n k : Nat) (hk : k ≤ 32) :
    ((w >>> n) &&& BitVec.ofNat 32 (2 ^ k - 1)).toNat = (w.extractLsb' n k).toNat := by
  have hmask : 2 ^ k - 1 < 2 ^ 32 := by
    have := Nat.pow_le_pow_right (by decide : 0 < 2) hk
    have := Nat.two_pow_pos k
    omega
  rw [BitVec.toNat_and, BitVec.toNat_ushiftRight, BitVec.toNat_ofNat, Nat.mod_eq_of_lt hmask,
    Nat.and_two_pow_sub_one_eq_mod, BitVec.extractLsb'_toNat]

theorem register_eq (w : BitVec 32) (n : Nat) : register w n = (w.extractLsb' n 5).toNat :=
  field_eq w n 5 (by decide)

@[simp] theorem Decode_rs (w : BitVec 32) : (Decode w).rs = (rs w).toNat := register_eq w 21

@[simp] theorem Decode_rt (w : BitVec 32) : (Decode w).rt = (rt w).toNat := register_eq w 16

@[simp] theorem Decode_rd (w : BitVec 32) : (Decode w).rd = (rd w).toNat := register_eq w 11

theorem funct_eq (w : BitVec 32) : funct w = (w.extractLsb' 0 6).toNat :=
  (congrArg (fun x => (x &&& (0x3f : BitVec 32)).toNat) (BitVec.ushiftRight_zero (x := w)).symm).trans
    (field_eq w 0 6 (by decide))

theorem opPtr_eq (w : BitVec 32) :
    opPtr w = opTable.getD (w.extractLsb' 26 6).toNat (.RES, .IFMT) := by
  unfold opPtr
  rw [← field_eq w 26 6 (by decide)]
  rfl

/-- The integer operation of an entry of the tables. -/
def OpCode.int? : OpCode → Option IntOp
  | .int op => some op
  | _ => none

theorem int?_eq_some {o : OpCode} {op : IntOp} : o.int? = some op ↔ o = .int op := by
  cases o <;> simp [OpCode.int?]

theorem specialTable_int : ∀ n < 64, (specialTable.getD n .RES).int? = ofFunction n := by decide

theorem opTable_int : ∀ n < 64, (opTable.getD n (.RES, .IFMT)).1.int? = ofOpcode n ∧
    ((opTable.getD n (.RES, .IFMT)).1 = .SPECIAL ↔ n = 0) ∧
    ((opTable.getD n (.RES, .IFMT)).1 = .BCOND ↔ n = 1) ∧
    ((opTable.getD n (.RES, .IFMT)).1 = .COP1 ↔ n = 17) := by decide

theorem cop1_table_int : ∀ n < 64, (cop1STable.getD n .RES).int? = none ∧
    (cop1DTable.getD n .RES).int? = none := by decide

theorem funct_lt (w : BitVec 32) : funct w < 64 := by
  rw [funct_eq]
  exact (w.extractLsb' 0 6).isLt

/-- A floating point instruction is no integer operation. -/
theorem cop1_int (w : BitVec 32) : (cop1 w).int? = none := by
  obtain ⟨hS, hD⟩ := cop1_table_int _ (funct_lt w)
  simp only [cop1]
  repeat' split
  all_goals first | exact hS | exact hD | rfl

/-- The field for `rt`, where it stands in the word. -/
theorem and_rt_mask (w : BitVec 32) :
    w &&& 0x1f0000 = BitVec.ofNat 32 ((rt w).toNat * 2 ^ 16) := by
  have hmask : w &&& (0x1f0000 : BitVec 32) = ((w >>> 16) &&& 0x1f) <<< 16 := by
    rw [BitVec.shiftLeft_and_distrib, BitVec.shiftLeft_ushiftRight, BitVec.and_assoc]
    rfl
  have hreg : ((w >>> 16) &&& 0x1f).toNat = (rt w).toNat := register_eq w 16
  apply BitVec.eq_of_toNat_eq
  rw [hmask, BitVec.toNat_shiftLeft, hreg, Nat.shiftLeft_eq, BitVec.toNat_ofNat]

theorem bcond_table_int : ∀ n < 32,
    (let i := BitVec.ofNat 32 (n * 2 ^ 16)
     if i = 0 then OpCode.int .BLTZ
     else if i = 0x10000 then .int .BGEZ
     else if i = 0x100000 then .int .BLTZAL
     else if i = 0x110000 then .int .BGEZAL
     else .UNIMP).int? = ofCondition n := by decide

theorem bcond_int (w : BitVec 32) : (bcond w).int? = ofCondition (rt w).toNat := by
  unfold bcond
  rw [and_rt_mask]
  exact bcond_table_int _ (rt w).isLt

/-- `Decode` maps a word to the integer operation that it encodes, and to no other. -/
theorem Decode_int (w : BitVec 32) (op : IntOp) :
    (Decode w).opCode = .int op ↔ operation w = some op := by
  obtain ⟨hint, hspecial, hbcond, hcop1⟩ :=
    opTable_int (w.extractLsb' 26 6).toNat (w.extractLsb' 26 6).isLt
  rw [← int?_eq_some]
  unfold Decode operation
  simp only [opPtr_eq]
  generalize (opTable.getD (w.extractLsb' 26 6).toNat (.RES, .IFMT)).1 = o at *
  generalize (w.extractLsb' 26 6).toNat = n at *
  split
  · rw [hspecial.mp rfl, specialTable_int _ (funct_lt w), funct_eq]
    rfl
  · rw [hbcond.mp rfl, bcond_int]
    rfl
  · rw [hcop1.mp rfl, cop1_int]
    rfl
  · rename_i hS hB _
    rw [hint]
    match n with
    | 0 => exact absurd (hspecial.mpr rfl) hS
    | 1 => exact absurd (hbcond.mpr rfl) hB
    | n + 2 => rfl

/-! ### The immediate field -/

/-- The format that the encoding of an operation has. -/
def IntOp.format : IntOp → Format
  | .J | .JAL => .JFMT
  | .ADDI | .ADDIU | .ANDI | .BEQ | .BGEZ | .BGEZAL | .BGTZ | .BLEZ | .BLTZ | .BLTZAL | .BNE
  | .LUI | .ORI | .SLTI | .SLTIU | .XORI => .IFMT
  | _ => .RFMT

theorem opTable_format : ∀ n < 64, ∀ op ∈ ofOpcode n,
    (opTable.getD n (.RES, .IFMT)).2 = op.format := by decide

theorem function_format : ∀ n < 64, ∀ op ∈ ofFunction n, op.format = .RFMT := by decide

theorem condition_format : ∀ n < 32, ∀ op ∈ ofCondition n, op.format = .IFMT := by decide

/-- The format in the tables is that of the operation. -/
theorem opPtr_format {w : BitVec 32} {op : IntOp} (h : operation w = some op) :
    (opPtr w).2 = op.format := by
  have hlt : (w.extractLsb' 26 6).toNat < 64 := (w.extractLsb' 26 6).isLt
  rw [opPtr_eq]
  unfold operation at h
  generalize (w.extractLsb' 26 6).toNat = n at *
  split at h
  · exact (function_format _ (w.extractLsb' 0 6).isLt op h).symm
  · exact (condition_format _ (rt w).isLt op h).symm
  · exact opTable_format _ hlt op h

theorem unsigned_eq (w : BitVec 32) : w &&& 0xffff = unsigned w := by
  apply BitVec.eq_of_toNat_eq
  have hlt : (immediate w).toNat < 2 ^ 16 := (immediate w).isLt
  rw [unsigned, BitVec.toNat_setWidth, Nat.mod_eq_of_lt (by omega), immediate,
    ← field_eq w 0 16 (by decide), BitVec.ushiftRight_zero]
  rfl

theorem getLsbD_unsigned (w : BitVec 32) (i : Nat) :
    (unsigned w).getLsbD i = (decide (i < 32) && (immediate w).getLsbD i) := by
  rw [unsigned, BitVec.getLsbD_setWidth]

/-- Immediates are sign-extended. -/
theorem extra_IFMT (w : BitVec 32) : extra w .IFMT = signed w := by
  have hsign : (0x8000 : BitVec 32) = BitVec.twoPow 32 15 := by decide
  have hbit : unsigned w &&& 0x8000 ≠ 0 ↔ (immediate w).msb = true := by
    rw [hsign, BitVec.and_twoPow, getLsbD_unsigned, BitVec.msb_eq_getLsbD_last]
    cases h : (immediate w).getLsbD 15
    · simp
    · simpa using (by decide : BitVec.twoPow 32 15 ≠ 0#32)
  have hones : ∀ i < 32, (0xffff0000 : BitVec 32).getLsbD i = decide (16 ≤ i) := by decide
  simp only [extra]
  rw [unsigned_eq]
  simp only [hbit]
  apply BitVec.eq_of_getLsbD_eq
  intro i hi
  rw [signed, BitVec.getLsbD_signExtend]
  by_cases h16 : i < 16
  · have hlow : ¬ 16 ≤ i := by omega
    rw [if_pos h16]
    split
    · simp only [BitVec.getLsbD_or, hones i hi, getLsbD_unsigned, hi, hlow]
      simp
    · rw [getLsbD_unsigned, decide_eq_true hi, Bool.true_and]
  · have hhigh : 16 ≤ i := by omega
    have hnone : (immediate w).getLsbD i = false := BitVec.getLsbD_of_ge _ _ hhigh
    rw [if_neg h16]
    split <;> rename_i hmsb
    · simp only [BitVec.getLsbD_or, hones i hi, getLsbD_unsigned, hnone, hhigh, hmsb]
      simp [hi]
    · simp [getLsbD_unsigned, hnone, hmsb]

theorem extra_RFMT (w : BitVec 32) : extra w .RFMT = (sa w).setWidth 32 := by
  apply BitVec.eq_of_toNat_eq
  have hlt : (sa w).toNat < 2 ^ 5 := (sa w).isLt
  rw [BitVec.toNat_setWidth, Nat.mod_eq_of_lt (by omega)]
  exact register_eq w 6

theorem extra_JFMT (w : BitVec 32) : extra w .JFMT = (target w).setWidth 32 := by
  apply BitVec.eq_of_toNat_eq
  have hlt : (target w).toNat < 2 ^ 26 := (target w).isLt
  rw [BitVec.toNat_setWidth, Nat.mod_eq_of_lt (by omega), target, ← field_eq w 0 26 (by decide),
    BitVec.ushiftRight_zero]
  rfl

end Mips
end Nachos
