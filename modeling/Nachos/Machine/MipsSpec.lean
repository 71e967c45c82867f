/-
  Nachos.Machine.MipsSpec

  The simulated processor against the architecture: when an integer operation leaves the
  registers as the architecture says, and computes nothing that C++ leaves undefined.
-/

import Nachos.Machine.MipsArch

namespace Nachos
namespace Mips

open HostInt

/-- The registers of the simulator hold the state of the processor, and no load is
    pending. -/
structure Represents (r : Registers) (c : Cpu) : Prop where
  gpr : ∀ i : BitVec 5, r i.toNat = c.gpr i
  hi : r HI_REG = c.hi
  lo : r LO_REG = c.lo
  pc : r PC_REG = c.pc
  npc : r NEXTPC_REG = c.npc
  load : r LOAD_REG = 0

/-- What `OneInstruction` ends with is what the architecture says: the next state, or an
    overflow exception with the state as it was. -/
def Agrees (c : Cpu) : Option Cpu → Outcome → Prop
  | some c', .advanced r => Represents r c'
  | none, .raised r => Represents r c
  | _, _ => False

/-! ## The end of an instruction -/

/-- The registers after `OneInstruction`. -/
def settled (r : Registers) (pcAfter : BitVec 32) : Registers := fun i =>
  if i = NEXTPC_REG then pcAfter
  else if i = PC_REG then r NEXTPC_REG
  else if i = PREVPC_REG then r PC_REG
  else if i = 0 ∨ i = LOAD_REG ∨ i = LOADVALUE_REG then 0
  else r i

section

variable {r r' : Registers} {c c' : Cpu} {p x : BitVec 32} {d : BitVec 5}

/-- The registers hold the state, but for what the register that is always zero may have
    got in the meantime. -/
structure Nearly (r : Registers) (c : Cpu) : Prop where
  gpr : ∀ i : BitVec 5, i ≠ 0 → r i.toNat = c.gpr i
  hi : r HI_REG = c.hi
  lo : r LO_REG = c.lo
  pc : r PC_REG = c.pc
  npc : r NEXTPC_REG = c.npc
  load : r LOAD_REG = 0

theorem Represents.nearly (h : Represents r c) : Nearly r c :=
  ⟨fun i _ => h.gpr i, h.hi, h.lo, h.pc, h.npc, h.load⟩

theorem set_apply {i j : Nat} : r.set i x j = if j = i then x else r j :=
  Function.update_apply r i x j

theorem set_ne {i j : Nat} (h : j ≠ i) : r.set i x j = r j := set_apply.trans (if_neg h)

theorem set_self {i : Nat} : r.set i x i = x := set_apply.trans (if_pos rfl)

/-- A register of an instruction is none of the others. -/
theorem toNat_ne (d : BitVec 5) {i : Nat} (h : 32 ≤ i) : i ≠ d.toNat := by
  have : d.toNat < 2 ^ 5 := d.isLt
  omega

theorem Nearly.set (h : Nearly r c) : Nearly (r.set d.toNat x) (c.write d x) where
  gpr i hi := by
    show _ = if i = d ∧ d ≠ 0 then x else c.gpr i
    by_cases hd : i = d
    · rw [hd, set_self, if_pos ⟨rfl, hd ▸ hi⟩]
    · rw [if_neg (fun h => hd h.1), set_ne (fun h => hd (BitVec.eq_of_toNat_eq h)), h.gpr i hi]
  hi := (set_ne (toNat_ne d (by decide))).trans h.hi
  lo := (set_ne (toNat_ne d (by decide))).trans h.lo
  pc := (set_ne (toNat_ne d (by decide))).trans h.pc
  npc := (set_ne (toNat_ne d (by decide))).trans h.npc
  load := (set_ne (toNat_ne d (by decide))).trans h.load

/-- A register that is none of the instruction's own, nor one of the last three. -/
theorem Nearly.set_special {i : Nat} (h : Nearly r c) (hi : 32 ≤ i)
    (hpc : i ≠ PC_REG) (hnpc : i ≠ NEXTPC_REG) (hload : i ≠ LOAD_REG) :
    Nearly (r.set i x) (c.setHiLo (r.set i x HI_REG) (r.set i x LO_REG)) where
  gpr j hj := (set_ne (toNat_ne j hi).symm).trans (h.gpr j hj)
  hi := rfl
  lo := rfl
  pc := (set_ne hpc.symm).trans h.pc
  npc := (set_ne hnpc.symm).trans h.npc
  load := (set_ne hload.symm).trans h.load

theorem Nearly.setHi (h : Nearly r c) : Nearly (r.set HI_REG x) (c.setHiLo x c.lo) := by
  have hset := Nearly.set_special (x := x) (i := HI_REG) h (by decide) (by decide) (by decide)
    (by decide)
  rwa [set_self, set_ne (by decide), h.lo] at hset

theorem Nearly.setLo (h : Nearly r c) : Nearly (r.set LO_REG x) (c.setHiLo c.hi x) := by
  have hset := Nearly.set_special (x := x) (i := LO_REG) h (by decide) (by decide) (by decide)
    (by decide)
  rwa [set_self, set_ne (by decide), h.hi] at hset

/-- The end of an instruction makes the register zero again. -/
theorem Nearly.settled (h : Nearly r c) : Represents (settled r p) (c.goto p) where
  gpr i := by
    have hne : ∀ j, 32 ≤ j → i.toNat ≠ j := fun j hj => (toNat_ne i hj).symm
    unfold Mips.settled
    rw [if_neg (hne _ (by decide)), if_neg (hne _ (by decide)), if_neg (hne _ (by decide))]
    by_cases h0 : i = 0
    · subst h0
      exact (if_pos (Or.inl rfl)).trans c.zero.symm
    · have hz : i.toNat ≠ 0 := fun hz => h0 (BitVec.eq_of_toNat_eq hz)
      rw [if_neg, h.gpr i h0]
      · rfl
      · rintro (hz' | hz' | hz')
        · exact hz hz'
        · exact hne _ (by decide) hz'
        · exact hne _ (by decide) hz'
  hi := h.hi
  lo := h.lo
  pc := h.npc
  npc := rfl
  load := rfl

/-- The registers hold no two states. -/
theorem Represents.unique (h : Represents r c) (h' : Represents r c') : c' = c := by
  obtain ⟨g, z, hi, lo, pc, npc⟩ := c
  obtain ⟨g', z', hi', lo', pc', npc'⟩ := c'
  have hg : g' = g := funext fun i => (h'.gpr i).symm.trans (h.gpr i)
  have hhi : hi' = hi := h'.hi.symm.trans h.hi
  have hlo : lo' = lo := h'.lo.symm.trans h.lo
  have hpc : pc' = pc := h'.pc.symm.trans h.pc
  have hnpc : npc' = npc := h'.npc.symm.trans h.npc
  subst hg hhi hlo hpc hnpc
  rfl

theorem finish_goesOn (h : r' LOAD_REG = 0) :
    finish r (.goesOn r' p) = some (.advanced (Mips.settled r' p)) := by
  have hload : DelayedLoad r' 0 0 =
      some ((((r'.set 0 (r' LOADVALUE_REG)).set LOAD_REG 0).set LOADVALUE_REG 0).set 0 0) := by
    unfold DelayedLoad
    rw [h]
    rfl
  simp only [finish, hload]
  show some (Outcome.advanced _) = _
  congr 2
  funext i
  simp only [set_apply, Mips.settled, NEXTPC_REG, PC_REG, PREVPC_REG, LOAD_REG, LOADVALUE_REG]
  grind

/-- An instruction that goes on agrees with the architecture just when that gives the same
    state. -/
theorem yields_goesOn {s : Option Cpu} (h : Nearly r' c') :
    Yields (Agrees c s) (finish r (.goesOn r' p)) ↔ s = some (c'.goto p) := by
  rw [finish_goesOn h.load, yields_some]
  cases s with
  | none => simp [Agrees]
  | some c₁ =>
    have hset : Represents (Mips.settled r' p) (c'.goto p) := h.settled
    rw [Option.some.injEq]
    exact ⟨fun h₁ => hset.unique h₁, fun h₁ => h₁ ▸ hset⟩

end

/-! ## When the two agree -/

section

variable (std : Edition) (c : Cpu) (w : BitVec 32)

/-- The offset of a branch can be shifted and added. -/
def Cpu.Reachable : Prop :=
  Shiftable std (signed w) 2 ∧ c.npc.saddOverflow (signed w <<< 2) = false

/-- The condition on the operands of an operation. -/
def Cpu.Operands : IntOp → Prop
  | .ADD | .ADDU => (c.s w).saddOverflow (c.t w) = false
  | .ADDI | .ADDIU => (c.s w).saddOverflow (signed w) = false
  | .SUB | .SUBU => (c.s w).ssubOverflow (c.t w) = false
  | .BEQ => c.s w = c.t w → c.Reachable std w
  | .BGEZ | .BGEZAL => 0 ≤ (c.s w).toInt → c.Reachable std w
  | .BGTZ => 0 < (c.s w).toInt → c.Reachable std w
  | .BLEZ => (c.s w).toInt ≤ 0 → c.Reachable std w
  | .BLTZ | .BLTZAL => (c.s w).toInt < 0 → c.Reachable std w
  | .BNE => c.s w ≠ c.t w → c.Reachable std w
  | .DIV => (c.s w).sdivOverflow (c.t w) = false
  | .MULT =>
      c.s w = 0 ∨ c.t w = 0 ∨ (c.s w).negOverflow = false ∧ (c.t w).negOverflow = false
  | .J | .JAL => (c.npc + 4).extractLsb' 28 4 = c.npc.extractLsb' 28 4
  | .LUI => Shiftable std (signed w) 16
  | .OR => rd w = 0 ∨ c.t w &&& ~~~c.s w = 0
  | .SLL => Shiftable std (c.t w) (sa w).toNat
  | .SLLV => Shiftable std (c.t w) ((c.s w).toNat % 32)
  | .SRL => rd w = 0 ∨ sa w = 0 ∨ (c.t w).msb = false
  | .SRLV => rd w = 0 ∨ (c.s w).toNat % 32 = 0 ∨ (c.t w).msb = false
  | _ => True

/-- The condition on the state and the instruction: the address behind the delay slot and
    the operands stay in their ranges. -/
def Cpu.Meets (op : IntOp) : Prop := c.npc.saddOverflow 4 = false ∧ c.Operands std w op

end

section

variable {std : Edition} {r : Registers} {c c' : Cpu} {w : BitVec 32} {op : IntOp}

theorem Represents.s (h : Represents r c) : r (Decode w).rs = c.s w := by
  rw [Decode_rs, h.gpr]
  rfl

theorem Represents.t (h : Represents r c) : r (Decode w).rt = c.t w := by
  rw [Decode_rt, h.gpr]
  rfl

/-- The step of the simulator, after the check of the program counter. -/
theorem yields_OneInstruction (h : Represents r c) (P : Outcome → Prop) :
    Yields P (OneInstruction std r (Decode w) op) ↔
      c.npc.saddOverflow 4 = false ∧
        Yields (fun e => Yields P (finish r e)) (execute std r (c.npc + 4) (Decode w) op) := by
  unfold OneInstruction
  rw [yields_add, h.npc, yields_bind]

theorem write_eq_iff {d : BitVec 5} {x y p : BitVec 32} :
    some ((c.write d y).goto p) = some ((c.write d x).goto p) ↔ d = 0 ∨ x = y := by
  constructor
  · intro heq
    have hgpr := congrFun (congrArg Cpu.gpr (Option.some.inj heq)) d
    by_cases hd : d = 0
    · exact Or.inl hd
    · have hget : ∀ z, ((c.write d z).goto p).gpr d = z := fun z => if_pos ⟨rfl, hd⟩
      rw [hget, hget] at hgpr
      exact Or.inr hgpr.symm
  · rintro (rfl | rfl)
    · rw [Cpu.write_zero, Cpu.write_zero]
    · rfl

/-- A result that is written to a register. -/
theorem yields_write (h : Represents r c) {d : BitVec 5} {x y : BitVec 32} :
    Yields (Agrees c (some (c.write d y).next)) (finish r (.goesOn (r.set d.toNat x) (c.npc + 4))) ↔
      d = 0 ∨ x = y := by
  rw [yields_goesOn h.nearly.set]
  exact write_eq_iff

/-- The result that the architecture has, written to its register. -/
theorem yields_result (h : Represents r c) {d : BitVec 5} {x y : BitVec 32} (hxy : x = y) :
    Yields (Agrees c (some (c.write d y).next))
      (finish r (.goesOn (r.set d.toNat x) (c.npc + 4))) :=
  (yields_write h).mpr (Or.inr hxy)

/-- A branch, of an instruction that may have set a link before. -/
theorem yields_branch (h : Nearly r' c') (hnpc : c'.npc = c.npc) {taken : Bool} {p : Prop}
    [Decidable p] (ht : taken = true ↔ p) :
    Yields (fun e => Yields (Agrees c (c'.branch w p)) (finish r e))
      (branch std r' (c.npc + 4) (signed w) taken) ↔ (p → c.Reachable std w) := by
  have hgo : ∀ q, Yields (Agrees c (some (c'.goto q))) (finish r (.goesOn r' q)) :=
    fun q => (yields_goesOn h).mpr rfl
  unfold branch Cpu.branch IndexToAddr
  by_cases hp : p
  · have htwo : (2 : BitVec 32).toNat = 2 := rfl
    have hreach : c.Reachable std w ↔ Shiftable std (signed w) 2 ∧
      c.npc.saddOverflow (signed w <<< 2) = false := Iff.rfl
    rw [if_pos (ht.mpr hp), if_pos hp, yields_shl, yields_add, h.npc, hnpc, yields_pure, htwo,
      hreach]
    simp [hp, hgo]
  · rw [if_neg (fun h => hp (ht.mp h)), if_neg hp, yields_pure, Cpu.next, hnpc]
    simp [hp, hgo]

/-! ### The operators -/

theorem and_SIGN_BIT (x : BitVec 32) : x &&& SIGN_BIT ≠ 0 ↔ x.msb = true := and_msb_ne_zero x

theorem bltz_test (x : BitVec 32) : (x &&& SIGN_BIT != 0) = true ↔ x.toInt < 0 := by
  rw [bne_iff_ne, and_SIGN_BIT, BitVec.msb_eq_toInt, decide_eq_true_eq]

theorem bgez_test (x : BitVec 32) : (x &&& SIGN_BIT == 0) = true ↔ 0 ≤ x.toInt := by
  rw [← Int.not_lt, ← bltz_test, bne_iff_ne, not_not, beq_iff_eq]

theorem and_0x1f (x : BitVec 32) : (x &&& 0x1f).toNat = x.toNat % 32 := by
  rw [BitVec.toNat_and]
  exact Nat.and_two_pow_sub_one_eq_mod x.toNat 5

/-- The low bits of an immediate are those of the instruction. -/
theorem signed_and (w : BitVec 32) : signed w &&& 0xffff = unsigned w := by
  have hmask : ∀ i < 32, (0xffff : BitVec 32).getLsbD i = decide (i < 16) := by decide
  apply BitVec.eq_of_getLsbD_eq
  intro i hi
  rw [BitVec.getLsbD_and, hmask i hi, getLsbD_unsigned, signed, BitVec.getLsbD_signExtend]
  by_cases h16 : i < 16
  · simp only [hi, h16]
    simp
  · have hnone : (immediate w).getLsbD i = false := BitVec.getLsbD_of_ge _ _ (by omega)
    simp only [hi, h16, hnone]
    simp

theorem signed_shl (w : BitVec 32) : signed w <<< 16 = immediate w ++ 0#16 := by
  apply BitVec.eq_of_getLsbD_eq
  intro i hi
  rw [BitVec.getLsbD_append, BitVec.getLsbD_shiftLeft, signed, BitVec.getLsbD_signExtend]
  by_cases h16 : i < 16
  · simp [h16]
  · have hlow : i - 16 < 16 := by omega
    have h32 : i - 16 < 32 := by omega
    simp only [hi, h16, hlow, h32]
    simp

theorem or_self_eq_or (x y : BitVec 32) : x ||| x = x ||| y ↔ y &&& ~~~x = 0 := by
  rw [BitVec.or_self]
  constructor
  · intro h
    rw [h]
    apply BitVec.eq_of_getLsbD_eq
    intro i hi
    simp only [BitVec.getLsbD_and, BitVec.getLsbD_not, BitVec.getLsbD_or]
    cases x.getLsbD i <;> cases y.getLsbD i <;> simp
  · intro h
    apply BitVec.eq_of_getLsbD_eq
    intro i hi
    have hbit : (y &&& ~~~x).getLsbD i = false := by rw [h]; exact BitVec.getLsbD_zero
    rw [BitVec.getLsbD_and, BitVec.getLsbD_not] at hbit
    rw [BitVec.getLsbD_or]
    cases hx : x.getLsbD i <;> cases hy : y.getLsbD i <;> simp_all

/-- A shift to the right that keeps the sign is one that does not, where there is no sign. -/
theorem sshiftRight_eq_iff (x : BitVec 32) {n : Nat} :
    x.sshiftRight n = x >>> n ↔ n = 0 ∨ x.msb = false := by
  constructor
  · intro h
    by_cases hn : n = 0
    · exact Or.inl hn
    · have hmsb := congrArg BitVec.msb h
      rw [BitVec.msb_sshiftRight, BitVec.msb_ushiftRight] at hmsb
      right
      simpa [hn] using hmsb
  · rintro (rfl | h)
    · simp
    · exact BitVec.sshiftRight_eq_of_msb_false h

/-- An addition that is defined does not look like an overflow. -/
theorem add_test {x y z : BitVec 32} (h : x.saddOverflow y = false) (hz : z = x ∨ z = y) :
    ¬ ((x ^^^ y) &&& SIGN_BIT = 0 ∧ (z ^^^ (x + y)) &&& SIGN_BIT ≠ 0) := by
  rintro ⟨hxy, hsum⟩
  have hsame : x.msb = y.msb := by
    have hnot : ¬ (x ^^^ y).msb = true := fun hne => (and_SIGN_BIT _).mpr hne hxy
    rw [BitVec.msb_xor] at hnot
    simpa using hnot
  have hzx : z.msb = x.msb := by
    rcases hz with rfl | rfl
    · rfl
    · exact hsame.symm
  rw [and_SIGN_BIT, BitVec.msb_xor, msb_add_of_defined h hsame, hzx] at hsum
  simp at hsum

theorem sub_test {x y : BitVec 32} (h : x.ssubOverflow y = false) :
    ¬ ((x ^^^ y) &&& SIGN_BIT ≠ 0 ∧ (x ^^^ (x - y)) &&& SIGN_BIT ≠ 0) := by
  rintro ⟨hxy, hdiff⟩
  have hother : x.msb ≠ y.msb := by
    rw [and_SIGN_BIT, BitVec.msb_xor] at hxy
    simpa using hxy
  rw [and_SIGN_BIT, BitVec.msb_xor, msb_sub_of_defined h hother] at hdiff
  simp at hdiff

theorem sa_toNat (w : BitVec 32) : ((sa w).setWidth 32).toNat = (sa w).toNat := by
  have hlt : (sa w).toNat < 2 ^ 5 := (sa w).isLt
  rw [BitVec.toNat_setWidth, Nat.mod_eq_of_lt (by omega)]

/-- The target of a jump, put together by the simulator. -/
theorem jump_target (p w : BitVec 32) :
    (p &&& (0xf0000000 : BitVec 32)) ||| ((target w).setWidth 32 <<< 2) =
      p.extractLsb' 28 4 ++ target w ++ 0#2 := by
  have hmask : ∀ i < 32, (0xf0000000 : BitVec 32).getLsbD i = decide (28 ≤ i) := by decide
  apply BitVec.eq_of_getLsbD_eq
  intro i hi
  rw [BitVec.getLsbD_or, BitVec.getLsbD_and, hmask i hi, BitVec.getLsbD_shiftLeft,
    BitVec.getLsbD_setWidth, BitVec.getLsbD_append, BitVec.getLsbD_append,
    BitVec.getLsbD_extractLsb']
  by_cases h2 : i < 2
  · have h28 : ¬ 28 ≤ i := by omega
    simp [h2, h28]
  · by_cases h26 : i - 2 < 26
    · have h28 : ¬ 28 ≤ i := by omega
      have h32 : i - 2 < 32 := by omega
      simp [h2, h28, h26, hi, h32]
    · have h28 : 28 ≤ i := by omega
      have hnone : (target w).getLsbD (i - 2) = false := BitVec.getLsbD_of_ge _ _ (by omega)
      have hsub : 28 + (i - 2 - 26) = i := by omega
      have hfour : i - 2 - 26 < 4 := by omega
      simp [h2, h26, h28, hnone, hsub, hfour]

theorem region_inj {x y : BitVec 4} :
    x ++ target w ++ 0#2 = y ++ target w ++ 0#2 ↔ x = y :=
  (BitVec.append_left_inj _).trans (BitVec.append_left_inj _)

theorem target_shiftable (std : Edition) (w : BitVec 32) :
    Shiftable std ((target w).setWidth 32) 2 := by
  intro _
  have hlt : (target w).toNat < 2 ^ 26 := (target w).isLt
  have hval : ((target w).setWidth 32).toNat = (target w).toNat := by
    rw [BitVec.toNat_setWidth, Nat.mod_eq_of_lt (by omega)]
  rw [BitVec.msb_eq_decide, hval, decide_eq_false_iff_not]
  omega

theorem goto_eq_iff {p q : BitVec 32} : some (c.goto q) = some (c.goto p) ↔ p = q := by
  constructor
  · intro heq
    exact (congrArg Cpu.npc (Option.some.inj heq)).symm
  · rintro rfl
    rfl

theorem sdiv_eq_ofInt (x y : BitVec 32) : x.sdiv y = BitVec.ofInt 32 (x.toInt.tdiv y.toInt) :=
  BitVec.eq_of_toInt_eq (by rw [BitVec.toInt_sdiv, BitVec.toInt_ofInt])

theorem srem_eq_ofInt (x y : BitVec 32) : x.srem y = BitVec.ofInt 32 (x.toInt.tmod y.toInt) := by
  rw [← BitVec.toInt_srem, BitVec.ofInt_toInt]

theorem udiv_eq_ofNat (x y : BitVec 32) : x / y = BitVec.ofNat 32 (x.toNat / y.toNat) := by
  rw [← BitVec.toNat_udiv, BitVec.ofNat_toNat, BitVec.setWidth_eq]

theorem umod_eq_ofNat (x y : BitVec 32) : x % y = BitVec.ofNat 32 (x.toNat % y.toNat) := by
  rw [← BitVec.toNat_umod, BitVec.ofNat_toNat, BitVec.setWidth_eq]

/-- The two words of `Mult`, as the architecture names them. -/
theorem Mult_words (x y : BitVec 32) (signedArith : Bool) :
    let product := BitVec.ofInt 64 (if signedArith then x.toInt * y.toInt else x.toNat * y.toNat)
    (Mult x y signedArith).1 = product.extractLsb' 32 32 ∧
      (Mult x y signedArith).2 = product.extractLsb' 0 32 := by
  intro product
  have happend : (Mult x y signedArith).1 ++ (Mult x y signedArith).2 = product :=
    Mult_append x y signedArith
  rw [← happend, BitVec.extractLsb'_append_eq_ite, BitVec.extractLsb'_append_eq_ite]
  simp

theorem yields_positive {β : Type} {x : BitVec 32} {signedArith : Bool} {P : β → Prop}
    {y : Option β} :
    Yields P (positive signedArith x >>= fun _ => y) ↔
      (signedArith = true → x.negOverflow = false) ∧ Yields P y := by
  have hneg : ¬ x.slt 0 = true → x.negOverflow = false := by
    intro hx
    have h0 : (0 : BitVec 32).toInt = 0 := rfl
    rw [BitVec.slt_iff_toInt_lt] at hx
    rw [BitVec.negOverflow, beq_eq_false_iff_ne]
    omega
  unfold positive
  cases signedArith
  · simp
  · rw [Bool.true_and]
    split
    · rw [yields_neg]
      simp
    · rename_i hx
      simp [hneg hx]

theorem yields_mult {β : Type} {x y : BitVec 32} {signedArith : Bool} {P : β → Prop}
    {f : BitVec 32 × BitVec 32 → Option β} :
    Yields P (mult x y signedArith >>= f) ↔
      (signedArith = true → x = 0 ∨ y = 0 ∨ x.negOverflow = false ∧ y.negOverflow = false) ∧
        Yields P (f (Mult x y signedArith)) := by
  unfold mult
  by_cases hzero : x = 0 ∨ y = 0
  · rw [if_pos hzero, pure_bind]
    simp only [hzero, ← or_assoc, true_or, implies_true, true_and]
  · have hsigns : (x = 0 ∨ y = 0 ∨ x.negOverflow = false ∧ y.negOverflow = false) ↔
        x.negOverflow = false ∧ y.negOverflow = false := by
      rw [← or_assoc]
      exact or_iff_right hzero
    rw [if_neg hzero, bind_assoc, yields_positive, bind_assoc, yields_positive, pure_bind, hsigns,
      ← and_assoc, imp_and]

/-- Whether an operation does what the architecture says, once the next program counter is
    computed. -/
theorem execute_iff (h : Represents r c) (hop : operation w = some op) (hdef : c.Defined w op)
    (hpc : c.npc.saddOverflow 4 = false) :
    Yields (fun e => Yields (Agrees c (c.effect w op)) (finish r e))
      (execute std r (c.npc + 4) (Decode w) op) ↔ c.Operands std w op := by
  have hextra : (Decode w).extra = extra w op.format := congrArg (extra w) (opPtr_format hop)
  have hwrite : ∀ {d : BitVec 5} {x y : BitVec 32}, x = y →
      Yields (Agrees c (some (c.write d y).next))
        (finish r (.goesOn (r.set d.toNat x) (c.npc + 4))) := yields_result h
  have htwo : (2 : BitVec 32).toNat = 2 := rfl
  -- the registers with a link, and what the instruction reads behind it
  have hlink : Nearly (r.set R31 (c.npc + 4)) (c.link 31) := Nearly.set (d := 31) h.nearly
  have hnpc : (c.link 31).npc = c.npc := rfl
  have hread : rs w ≠ 31 → r.set R31 (c.npc + 4) (Decode w).rs = c.s w := by
    intro hne
    rw [set_ne, h.s]
    rw [Decode_rs]
    exact fun heq => hne (BitVec.eq_of_toNat_eq heq)
  cases op
  -- a result from two registers
  case AND | NOR | XOR | MFHI | MFLO | SLT | SLTU =>
    simp only [execute, h.s, h.t, h.hi, h.lo, yields_pure, Decode_rd, Cpu.effect, Cpu.toRd,
      Cpu.Operands, iff_true]
    apply hwrite
    simp [BitVec.slt_eq_decide, BitVec.ult_eq_decide]
  case OR =>
    simp only [execute, h.s, yields_pure, Decode_rd, Cpu.effect, Cpu.toRd, Cpu.Operands,
      yields_write h, or_self_eq_or]
  case ADDU | SUBU =>
    simp only [execute, h.s, h.t, yields_add, yields_sub, yields_pure, Decode_rd, Cpu.effect,
      Cpu.toRd, Cpu.Operands, hwrite, and_true]
  case ADD | SUB =>
    simp only [execute, h.s, h.t, yields_add, yields_sub, Decode_rd, Cpu.effect, Cpu.toRd,
      Cpu.Operands, and_iff_left_iff_imp]
    intro hdefined
    first | rw [if_neg (add_test hdefined (Or.inl rfl))] | rw [if_neg (sub_test hdefined)]
    rw [hdefined, if_neg Bool.false_ne_true, yields_pure]
    exact hwrite rfl
  -- a result from a register and an immediate
  case ANDI | ORI | XORI | SLTI | SLTIU =>
    simp only [execute, h.s, hextra, IntOp.format, extra_IFMT, signed_and, yields_pure, Decode_rt,
      Cpu.effect, Cpu.toRt, Cpu.Operands, iff_true]
    apply hwrite
    simp [BitVec.slt_eq_decide, BitVec.ult_eq_decide]
  case ADDIU =>
    simp only [execute, h.s, hextra, IntOp.format, extra_IFMT, yields_add, yields_pure, Decode_rt,
      Cpu.effect, Cpu.toRt, Cpu.Operands, hwrite, and_true]
  case ADDI =>
    simp only [execute, h.s, hextra, IntOp.format, extra_IFMT, yields_add, Decode_rt, Cpu.effect,
      Cpu.toRt, Cpu.Operands, and_iff_left_iff_imp]
    intro hdefined
    rw [if_neg (add_test hdefined (Or.inr rfl)), hdefined, if_neg Bool.false_ne_true, yields_pure]
    exact hwrite rfl
  case LUI =>
    have hcount : (16 : BitVec 32).toNat = 16 := rfl
    simp only [execute, hextra, IntOp.format, extra_IFMT, yields_shl, yields_pure, Decode_rt,
      Cpu.effect, Cpu.toRt, Cpu.Operands, hcount, signed_shl, hwrite, and_true]
    simp
  -- a shift
  case SLL =>
    have hlt : (sa w).toNat < 32 := (sa w).isLt
    simp only [execute, h.t, hextra, IntOp.format, extra_RFMT, yields_shl, yields_pure, Decode_rd,
      Cpu.effect, Cpu.toRd, Cpu.Operands, sa_toNat, hlt, hwrite, and_true, true_and]
  case SLLV =>
    have hlt : (c.s w).toNat % 32 < 32 := Nat.mod_lt _ (by decide)
    simp only [execute, h.s, h.t, yields_shl, yields_pure, Decode_rd, Cpu.effect, Cpu.toRd,
      Cpu.Operands, and_0x1f, hlt, hwrite, and_true, true_and]
  case SRA =>
    have hlt : (sa w).toNat < 32 := (sa w).isLt
    simp only [execute, h.t, hextra, IntOp.format, extra_RFMT, yields_shr, yields_pure, Decode_rd,
      Cpu.effect, Cpu.toRd, Cpu.Operands, sa_toNat, hlt, hwrite, and_true]
  case SRAV =>
    have hlt : (c.s w).toNat % 32 < 32 := Nat.mod_lt _ (by decide)
    simp only [execute, h.s, h.t, yields_shr, yields_pure, Decode_rd, Cpu.effect, Cpu.toRd,
      Cpu.Operands, and_0x1f, hlt, hwrite, and_true]
  case SRL =>
    have hlt : (sa w).toNat < 32 := (sa w).isLt
    have hzero : (sa w).toNat = 0 ↔ sa w = 0 := (BitVec.toNat_eq (y := 0)).symm
    simp only [execute, h.t, hextra, IntOp.format, extra_RFMT, yields_shr, yields_pure, Decode_rd,
      Cpu.effect, Cpu.toRd, Cpu.Operands, sa_toNat, hlt, true_and, yields_write h,
      sshiftRight_eq_iff, hzero]
  case SRLV =>
    have hlt : (c.s w).toNat % 32 < 32 := Nat.mod_lt _ (by decide)
    simp only [execute, h.s, h.t, yields_shr, yields_pure, Decode_rd, Cpu.effect, Cpu.toRd,
      Cpu.Operands, and_0x1f, hlt, true_and, yields_write h, sshiftRight_eq_iff]
  -- a branch
  case BEQ | BNE | BGTZ | BLEZ =>
    simp only [execute, h.s, h.t, hextra, IntOp.format, extra_IFMT, Cpu.effect, Cpu.Operands]
    apply yields_branch h.nearly rfl
    simp [BitVec.slt_eq_decide, BitVec.sle_eq_decide]
  case BGEZ =>
    simp only [execute, h.s, hextra, IntOp.format, extra_IFMT, Cpu.effect, Cpu.Operands]
    exact yields_branch h.nearly rfl (bgez_test _)
  case BLTZ =>
    simp only [execute, h.s, hextra, IntOp.format, extra_IFMT, Cpu.effect, Cpu.Operands]
    exact yields_branch h.nearly rfl (bltz_test _)
  case BGEZAL =>
    simp only [execute, hextra, IntOp.format, extra_IFMT, h.npc, yields_add, hpc, true_and,
      hread hdef, Cpu.effect, Cpu.Operands]
    exact yields_branch hlink hnpc (bgez_test _)
  case BLTZAL =>
    simp only [execute, hextra, IntOp.format, extra_IFMT, h.npc, yields_add, hpc, true_and,
      hread hdef, Cpu.effect, Cpu.Operands]
    exact yields_branch hlink hnpc (bltz_test _)
  -- a jump
  case J =>
    simp only [execute, IndexToAddr, hextra, IntOp.format, extra_JFMT, yields_shl, yields_pure,
      Cpu.effect, Cpu.Operands, htwo, target_shiftable, yields_goesOn h.nearly, jump_target,
      Cpu.region, goto_eq_iff, region_inj]
    simp
  case JAL =>
    simp only [execute, IndexToAddr, hextra, IntOp.format, extra_JFMT, h.npc, yields_add, hpc,
      true_and, yields_shl, yields_pure, Cpu.effect, Cpu.Operands, htwo, target_shiftable,
      yields_goesOn hlink, jump_target, Cpu.region, goto_eq_iff, region_inj]
    simp
  case JR =>
    simp only [execute, h.s, yields_pure, Cpu.effect, Cpu.Operands, yields_goesOn h.nearly]
  case JALR =>
    have hne : (Decode w).rs ≠ (rd w).toNat := by
      rw [Decode_rs]
      exact fun heq => hdef (BitVec.eq_of_toNat_eq heq).symm
    have hrd : Nearly (r.set (rd w).toNat (c.npc + 4)) (c.link (rd w)) := h.nearly.set
    simp only [execute, h.npc, yields_add, hpc, yields_pure, Decode_rd, set_ne hne, h.s, Cpu.effect,
      Cpu.Operands, yields_goesOn hrd, and_self]
  -- `HI` and `LO`
  case MTHI =>
    simp only [execute, h.s, yields_pure, Cpu.effect, Cpu.Operands, yields_goesOn h.nearly.setHi,
      iff_true]
    rfl
  case MTLO =>
    simp only [execute, h.s, yields_pure, Cpu.effect, Cpu.Operands, yields_goesOn h.nearly.setLo,
      iff_true]
    rfl
  case DIV =>
    simp only [execute, h.s, h.t, if_neg hdef, yields_div, yields_rem, yields_pure, Cpu.effect,
      Cpu.Operands, yields_goesOn h.nearly.setLo.setHi, sdiv_eq_ofInt, srem_eq_ofInt]
    exact ⟨fun hdiv => hdiv.1.2, fun hdiv => ⟨⟨hdef, hdiv⟩, ⟨hdef, hdiv⟩, rfl⟩⟩
  case DIVU =>
    simp only [execute, h.s, h.t, if_neg hdef, yields_pure, Cpu.effect,
      Cpu.Operands, yields_goesOn h.nearly.setLo.setHi, iff_true, udiv_eq_ofNat, umod_eq_ofNat]
    rfl
  case MULT =>
    obtain ⟨hhi, hlo⟩ := Mult_words (c.s w) (c.t w) true
    simp only [execute, h.s, h.t, yields_mult, yields_pure, Cpu.effect, Cpu.Operands,
      yields_goesOn h.nearly.setHi.setLo, hhi, hlo, if_true]
    exact ⟨fun hmult => hmult.1 trivial, fun hneg => ⟨fun _ => hneg, rfl⟩⟩
  case MULTU =>
    obtain ⟨hhi, hlo⟩ := Mult_words (c.s w) (c.t w) false
    rw [if_neg Bool.false_ne_true, ← Int.natCast_mul, BitVec.ofInt_natCast] at hhi hlo
    simp only [execute, h.s, h.t, yields_mult, yields_pure, Cpu.effect, Cpu.Operands,
      yields_goesOn h.nearly.setHi.setLo, hhi, hlo, iff_true]
    exact ⟨fun hsigned => absurd hsigned Bool.false_ne_true, rfl⟩

/-- For an instruction that `Decode` maps to an integer operation with a result that the
    architecture defines: the word encodes the operation there too, and `OneInstruction`
    changes the registers as the architecture says and computes nothing undefined just
    when the condition is met. -/
theorem OneInstruction_iff (h : Represents r c) (hop : (Decode w).opCode = .int op)
    (hdef : c.Defined w op) :
    operation w = some op ∧
      (Yields (Agrees c (c.effect w op)) (OneInstruction std r (Decode w) op) ↔
        c.Meets std w op) := by
  have henc := (Decode_int w op).mp hop
  refine ⟨henc, ?_⟩
  rw [yields_OneInstruction h]
  exact and_congr_right fun hpc => execute_iff h henc hdef hpc

end

/-! ## Two instructions -/

/-- A state with one in register 2 and zero in the others. -/
def sample : Cpu where
  gpr i := if i = 2 then 1 else 0
  zero := rfl
  hi := 0
  lo := 0
  pc := 0
  npc := 4

def sampleRegisters : Registers := fun i => if i = 2 then 1 else if i = NEXTPC_REG then 4 else 0

theorem sample_represents : Represents sampleRegisters sample where
  gpr := by decide
  hi := rfl
  lo := rfl
  pc := rfl
  npc := rfl
  load := rfl

/-- `or $3, $1, $2`. -/
def orWord : BitVec 32 := 0x00221825

/-- `addu $3, $1, $2`. -/
def adduWord : BitVec 32 := 0x00221821

theorem OneInstruction_addu :
    operation adduWord = some .ADDU ∧
      (Yields (Agrees sample (sample.effect adduWord .ADDU))
          (OneInstruction .cxx11 sampleRegisters (Decode adduWord) .ADDU) ↔
        sample.Meets .cxx11 adduWord .ADDU) :=
  OneInstruction_iff sample_represents (by decide) trivial

/-- `or` takes the register `rs` twice: of zero and one it makes zero. -/
theorem OneInstruction_or : ∃ (r : Registers) (c : Cpu) (w : BitVec 32) (op : IntOp),
    Represents r c ∧ (Decode w).opCode = .int op ∧ c.Defined w op ∧
      ∀ std, ¬ Yields (Agrees c (c.effect w op)) (OneInstruction std r (Decode w) op) := by
  refine ⟨sampleRegisters, sample, orWord, .OR, sample_represents, by decide, trivial, ?_⟩
  intro std hyields
  obtain ⟨hpc, hexecute⟩ := (yields_OneInstruction sample_represents _).mp hyields
  have hor : rd orWord = 0 ∨ sample.t orWord &&& ~~~sample.s orWord = 0 :=
    (@execute_iff std sampleRegisters sample orWord .OR sample_represents (by decide) trivial
      hpc).mp hexecute
  exact absurd hor (by decide)

end Mips
end Nachos
