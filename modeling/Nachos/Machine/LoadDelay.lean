/-
  Nachos.Machine.LoadDelay

  The delayed loads of the simulated processor.  A load puts its value into a register at
  the end of the next instruction, or already when a page fault comes in between.  For a
  program that does not use the register in the next instruction it makes no difference:
  the processor behaves as if all loads were done at once.
-/

import Nachos.Machine.LoadStore
import Nachos.Machine.MipsMemory
import Nachos.Machine.MipsSpec

namespace Nachos
namespace Mips

open HostInt Words Vm

/-! ## Changes that an operation does not see -/

def Executed.map (g : Registers → Registers) : Executed → Executed
  | .goesOn r pcAfter => .goesOn (g r) pcAfter
  | .overflows => .overflows

/-- A change of the registers that leaves those with `P` alone. -/
structure Spares (P : Nat → Prop) (g : Registers → Registers) : Prop where
  reads : ∀ r i, P i → g r i = r i
  sets : ∀ r i x, P i → g (r.set i x) = (g r).set i x

/-- The registers that an integer operation has to do with. -/
def Touched (w : BitVec 32) (op : IntOp) (i : Nat) : Prop :=
  (∃ d ∈ op.operands w, d.toNat = i) ∨ i = HI_REG ∨ i = LO_REG ∨ i = NEXTPC_REG

section

variable {std : Edition} {r : Registers} {p : BitVec 32} {w : BitVec 32} {op : IntOp}
  {g : Registers → Registers}

theorem branch_spares (h : g r NEXTPC_REG = r NEXTPC_REG) (x : BitVec 32) (taken : Bool) :
    branch std (g r) p x taken = (branch std r p x taken).map (Executed.map g) := by
  unfold branch
  rw [h]
  split
  · simp [Option.map_bind, Executed.map, Function.comp_def]
  · rfl

/-- A change of other registers can be made before the operation or after it. -/
theorem execute_spares (h : Spares (Touched w op) g) :
    execute std (g r) p (Decode w) op =
      (execute std r p (Decode w) op).map (Executed.map g) := by
  have hread : ∀ d ∈ op.operands w, ∀ r : Registers, g r d.toNat = r d.toNat :=
    fun d hd r => h.reads r _ (Or.inl ⟨d, hd, rfl⟩)
  have hset : ∀ d ∈ op.operands w, ∀ (r : Registers) x,
      g (r.set d.toNat x) = (g r).set d.toNat x :=
    fun d hd r x => h.sets r _ x (Or.inl ⟨d, hd, rfl⟩)
  have hnext : ∀ r : Registers, g r NEXTPC_REG = r NEXTPC_REG :=
    fun r => h.reads r _ (Or.inr (Or.inr (Or.inr rfl)))
  have hhi : ∀ r : Registers, g r HI_REG = r HI_REG := fun r => h.reads r _ (Or.inr (Or.inl rfl))
  have hlo : ∀ r : Registers, g r LO_REG = r LO_REG :=
    fun r => h.reads r _ (Or.inr (Or.inr (Or.inl rfl)))
  have hsetHi : ∀ (r : Registers) x, g (r.set HI_REG x) = (g r).set HI_REG x :=
    fun r x => h.sets r _ x (Or.inr (Or.inl rfl))
  have hsetLo : ∀ (r : Registers) x, g (r.set LO_REG x) = (g r).set LO_REG x :=
    fun r x => h.sets r _ x (Or.inr (Or.inr (Or.inl rfl)))
  -- what is known of the registers of the instruction, one after the other
  have hlink : (31 : BitVec 5).toNat = R31 := rfl
  cases op
  all_goals simp only [IntOp.operands, List.forall_mem_cons, List.not_mem_nil, false_imp_iff,
    implies_true, and_true, hlink] at hread hset
  case BEQ | BNE | BGEZ | BGTZ | BLEZ | BLTZ =>
    simp only [execute, Decode_rs, Decode_rt, hread, branch_spares (hnext r)]
  case BGEZAL | BLTZAL =>
    have hnext' : ∀ x, g (r.set R31 x) NEXTPC_REG = r.set R31 x NEXTPC_REG := fun x => hnext _
    simp only [execute, Option.bind_eq_bind, Option.map_bind, Function.comp_def, Decode_rs, hnext r,
      ← hset.2, hread.1, branch_spares (hnext' _)]
  case DIV | DIVU =>
    simp only [execute, Decode_rs, Decode_rt, hread]
    split
    · simp [Executed.map, hsetHi, hsetLo]
    · simp [Option.map_bind, Executed.map, hsetHi, hsetLo]
  case JALR =>
    simp only [execute, Option.bind_eq_bind, Option.map_bind, Function.comp_def, Decode_rs,
      Decode_rd, hnext r, ← hset.2, hread.1]
    rfl
  all_goals
    simp [execute, hread, Option.map_bind, Function.comp_def, Executed.map, apply_ite, hset, hhi,
      hlo, hsetHi, hsetLo, hnext]

/-- A register that the operation has nothing to do with keeps its value. -/
theorem execute_keeps {r' : Registers} {p' : BitVec 32} {i : Nat} (hi : ¬ Touched w op i)
    (h : execute std r p (Decode w) op = some (.goesOn r' p')) : r' i = r i := by
  -- to put the value there that it has is a change of other registers
  have hspares : Spares (Touched w op) (fun q => q.set i (r i)) := by
    have hne : ∀ j, Touched w op j → j ≠ i := by
      rintro j hj rfl
      exact hi hj
    exact ⟨fun q j hj => set_ne (hne j hj), fun q j x hj => Function.update_comm (hne j hj) _ _ _⟩
  have hself : r.set i (r i) = r := Function.update_eq_self i r
  have hex : execute std (r.set i (r i)) p (Decode w) op =
      (execute std r p (Decode w) op).map (Executed.map fun q => q.set i (r i)) :=
    execute_spares (g := fun q => q.set i (r i)) (r := r) (p := p) hspares
  rw [hself, h] at hex
  have hr' : r' = r'.set i (r i) := by
    injection hex with hex
    injection hex
  rw [hr', set_self]

end

/-! ## The load that is pending -/

/-- The registers once the pending load is done. -/
def arrived (r : Registers) : Registers :=
  (((r.set (r LOAD_REG).toNat (r LOADVALUE_REG)).set LOAD_REG 0).set LOADVALUE_REG 0).set 0 0

section

variable {std : Edition} {r r' : Registers} {p : BitVec 32} {w : BitVec 32} {op : IntOp}

theorem DelayedLoad_arrived (h : (r LOAD_REG).toNat < 32) :
    DelayedLoad r 0 0 = some (arrived r) := by
  have hlt : (r LOAD_REG).toNat < NUM_INT_REGS := Nat.lt_trans h (by decide)
  exact if_pos hlt

theorem arrived_apply (i : Nat) : arrived r i =
    if i = 0 ∨ i = LOADVALUE_REG ∨ i = LOAD_REG then 0
    else if i = (r LOAD_REG).toNat then r LOADVALUE_REG else r i := by
  simp only [arrived, set_apply]
  grind

theorem not_touched {i : Nat} (h : PREVPC_REG ≤ i) : ¬ Touched w op i := by
  rintro (⟨d, -, hd⟩ | hi | hi | hi)
  · have hlt : d.toNat < 2 ^ 5 := d.isLt
    have hle : 36 ≤ i := h
    omega
  all_goals
    subst hi
    exact absurd h (by decide)

/-- The value `v` is in register `l`, and no load is pending. -/
def landed (l : Nat) (v : BitVec 32) (q : Registers) : Registers :=
  ((q.set l v).set LOAD_REG 0).set LOADVALUE_REG 0

/-- Where the pending load goes: nothing is put into the register that is always zero. -/
def landing (r : Registers) : Nat :=
  if (r LOAD_REG).toNat = 0 then LOADVALUE_REG else (r LOAD_REG).toNat

theorem landed_apply {l : Nat} {v : BitVec 32} (i : Nat) : landed l v r i =
    if i = LOADVALUE_REG ∨ i = LOAD_REG then 0 else if i = l then v else r i := by
  simp only [landed, set_apply]
  grind

theorem landed_load {l : Nat} {v : BitVec 32} : landed l v r LOAD_REG = 0 := by
  rw [landed_apply, if_pos (Or.inr rfl)]

theorem landed_set {l i : Nat} {v x : BitVec 32} (hl : i ≠ l) (hi : i ≠ LOAD_REG)
    (hi' : i ≠ LOADVALUE_REG) : landed l v (r.set i x) = (landed l v r).set i x := by
  have hcomm : ∀ (q : Registers) (j : Nat) (y : BitVec 32), i ≠ j →
      (q.set i x).set j y = (q.set j y).set i x :=
    fun q j y hij => Function.update_comm hij _ _ _
  unfold landed
  rw [hcomm _ _ _ hl, hcomm _ _ _ hi, hcomm _ _ _ hi']

theorem arrived_eq_landed (hzero : r 0 = 0) :
    arrived r = landed (landing r) (r LOADVALUE_REG) r := by
  funext i
  rw [arrived_apply, landed_apply]
  unfold landing
  grind

/-- A load that has landed makes no difference to what is done in the end. -/
theorem DelayedLoad_landed {q : Registers} (hl : (r LOAD_REG).toNat < 32)
    (hload : q LOAD_REG = r LOAD_REG) (hvalue : q LOADVALUE_REG = r LOADVALUE_REG) :
    DelayedLoad (landed (landing r) (r LOADVALUE_REG) q) 0 0 = DelayedLoad q 0 0 := by
  have hlt : (landed (landing r) (r LOADVALUE_REG) q LOAD_REG).toNat < 32 := by
    rw [landed_load]
    decide
  rw [DelayedLoad_arrived hlt, DelayedLoad_arrived (hload ▸ hl)]
  refine congrArg some (funext fun i => ?_)
  have hz : (0 : BitVec 32).toNat = 0 := rfl
  rw [arrived_apply, arrived_apply, landed_load, landed_apply i, hload, hvalue]
  unfold landing
  grind

/-- An operation that has nothing to do with the register of the pending load does the same
    as if the load were done before. -/
theorem OneInstruction_arrived (hzero : r 0 = 0) (hl : (r LOAD_REG).toNat < 32)
    (hfree : (r LOAD_REG).toNat = 0 ∨ ¬ Touched w op (r LOAD_REG).toNat) :
    OneInstruction std (arrived r) (Decode w) op = OneInstruction std r (Decode w) op := by
  have hfree' : ¬ Touched w op (landing r) := by
    unfold landing
    split
    · exact not_touched (by decide)
    · rename_i hne
      exact hfree.resolve_left hne
  have hbad : BADVADDR_REG ≠ landing r := by
    unfold landing
    split
    · decide
    · have hbad : BADVADDR_REG = 39 := rfl
      omega
  -- the load is a change of registers that the operation does not see
  have hspares : Spares (Touched w op) (landed (landing r) (r LOADVALUE_REG)) := by
    have hne : ∀ i j, ¬ Touched w op i → Touched w op j → j ≠ i := by
      rintro i j hi hj rfl
      exact hi hj
    have hload : ∀ j, Touched w op j → j ≠ LOAD_REG := fun j => hne _ j (not_touched (by decide))
    have hvalue : ∀ j, Touched w op j → j ≠ LOADVALUE_REG :=
      fun j => hne _ j (not_touched (by decide))
    refine ⟨fun q j hj => ?_, fun q j x hj =>
      landed_set (hne _ j hfree' hj) (hload j hj) (hvalue j hj)⟩
    rw [landed_apply, if_neg (not_or.mpr ⟨hvalue j hj, hload j hj⟩), if_neg (hne _ j hfree' hj)]
  have hnext : landed (landing r) (r LOADVALUE_REG) r NEXTPC_REG = r NEXTPC_REG :=
    hspares.reads r _ (by simp [Touched])
  unfold OneInstruction
  rw [arrived_eq_landed hzero, hnext]
  congr 1
  funext pcAfter
  rw [execute_spares hspares]
  cases hex : execute std r pcAfter (Decode w) op with
  | none => rfl
  | some x =>
    simp only [Option.map_some, Option.bind_eq_bind, Option.bind_some]
    cases x with
    | overflows =>
      simp only [Executed.map, finish]
      rw [← landed_set hbad (by decide) (by decide),
        DelayedLoad_landed hl (set_ne (by decide)) (set_ne (by decide))]
    | goesOn r' p' =>
      have hkeep : ∀ i, ¬ Touched w op i → r' i = r i := fun i hi => execute_keeps hi hex
      simp only [Executed.map, finish]
      rw [DelayedLoad_landed hl (hkeep _ (not_touched (by decide)))
        (hkeep _ (not_touched (by decide)))]

end

/-! ## The processor with all loads done -/

/-- The end of `OneInstruction` after a load or a store. -/
def complete (r : Registers) (nextLoadReg : Nat) (nextLoadValue : BitVec 32) :
    Option Registers := do
  let pcAfter ← add (r NEXTPC_REG) 4
  let r ← DelayedLoad r (BitVec.ofNat 32 nextLoadReg) nextLoadValue
  let r := r.set PREVPC_REG (r PC_REG)
  let r := r.set PC_REG (r NEXTPC_REG)
  pure (r.set NEXTPC_REG pcAfter)

/-- The registers hold the state of the thread once the pending load is done, which is that
    of the last instruction if there is one. -/
structure Follows (r : Registers) (k : Core) : Prop where
  zero : r 0 = 0
  pending : r LOAD_REG = 0 ∨ r LOAD_REG = k.loading.setWidth 32
  state : Represents (arrived r) k.cpu

section

variable {std : Edition} {r r' : Registers} {k : Core} {w : BitVec 32} {op : IntOp} {c : Cpu}

theorem toNat_register (d : BitVec 5) : (d.setWidth 32).toNat = d.toNat := by
  have hlt : d.toNat < 2 ^ 5 := d.isLt
  rw [BitVec.toNat_setWidth, Nat.mod_eq_of_lt (by omega)]

theorem Follows.load_cases (h : Follows r k) :
    (r LOAD_REG).toNat = 0 ∨ (r LOAD_REG).toNat = k.loading.toNat := by
  rcases h.pending with hload | hload
  · exact Or.inl (hload ▸ rfl)
  · exact Or.inr (hload ▸ toNat_register k.loading)

theorem Follows.load_lt (h : Follows r k) : (r LOAD_REG).toNat < 32 := by
  have hlt : k.loading.toNat < 2 ^ 5 := k.loading.isLt
  have hcases := h.load_cases
  omega

/-- The registers of the processor that are none of the instruction's own. -/
theorem Follows.special (h : Follows r k) {i : Nat} (hi : 32 ≤ i) (hload : i ≠ LOAD_REG)
    (hvalue : i ≠ LOADVALUE_REG) : arrived r i = r i := by
  have hlt := h.load_lt
  rw [arrived_apply, if_neg (by omega), if_neg (by omega)]

theorem Follows.pc (h : Follows r k) : r PC_REG = k.cpu.pc :=
  (h.special (by decide) (by decide) (by decide)).symm.trans h.state.pc

theorem Follows.npc (h : Follows r k) : r NEXTPC_REG = k.cpu.npc :=
  (h.special (by decide) (by decide) (by decide)).symm.trans h.state.npc

/-- A register that is not being loaded holds its value. -/
theorem Follows.read (h : Follows r k) {d : BitVec 5} (hd : k.loading = 0 ∨ k.loading ≠ d) :
    r d.toNat = k.cpu.gpr d := by
  have hlt : d.toNat < 2 ^ 5 := d.isLt
  have hload : LOAD_REG = 37 := rfl
  have hvalue : LOADVALUE_REG = 38 := rfl
  rw [← h.state.gpr d, arrived_apply]
  by_cases hz : d.toNat = 0
  · rw [if_pos (Or.inl hz), hz, h.zero]
  · rw [if_neg (by omega), if_neg]
    intro hd'
    rcases h.load_cases with h0 | hl
    · omega
    · rcases hd with h0 | hne
      · rw [h0] at hl
        exact hz (hd'.trans hl)
      · exact hne (BitVec.eq_of_toNat_eq (hl.symm.trans hd'.symm))

/-- Where no load is pending, the registers are those of the processor. -/
theorem Represents.follows (h : Represents r c) (d : BitVec 5) : Follows r ⟨c, d⟩ := by
  have hzero : r 0 = 0 := (h.gpr 0).trans c.zero
  have hl : (r LOAD_REG).toNat = 0 := by
    rw [h.load]
    rfl
  have harrived : ∀ i, i ≠ LOAD_REG → i ≠ LOADVALUE_REG → arrived r i = r i := by
    intro i hload hvalue
    rw [arrived_apply, hl]
    grind
  have hne : ∀ i : BitVec 5, ∀ j, 32 ≤ j → i.toNat ≠ j := fun i j hj => (toNat_ne i hj).symm
  refine ⟨hzero, Or.inl h.load, ?_, ?_, ?_, ?_, ?_, ?_⟩
  · exact fun i => (harrived _ (hne i _ (by decide)) (hne i _ (by decide))).trans (h.gpr i)
  · exact (harrived _ (by decide) (by decide)).trans h.hi
  · exact (harrived _ (by decide) (by decide)).trans h.lo
  · exact (harrived _ (by decide) (by decide)).trans h.pc
  · exact (harrived _ (by decide) (by decide)).trans h.npc
  · rw [arrived_apply, if_pos (Or.inr (Or.inr rfl))]

/-- A page fault finishes the load that is pending. -/
theorem Follows.fault (h : Follows r k) (x : BitVec 32) :
    ∃ r', DelayedLoad (r.set BADVADDR_REG x) 0 0 = some r' ∧ Follows r' k := by
  have hload : r.set BADVADDR_REG x LOAD_REG = r LOAD_REG := set_ne (by decide)
  have hvalue : r.set BADVADDR_REG x LOADVALUE_REG = r LOADVALUE_REG := set_ne (by decide)
  have hlt := h.load_lt
  -- all registers but that of the address are as if there were no fault
  have hsame : ∀ i, i ≠ BADVADDR_REG → arrived (r.set BADVADDR_REG x) i = arrived r i := by
    intro i hi
    rw [arrived_apply, arrived_apply, hload, hvalue, set_ne hi]
  have hne : ∀ i : BitVec 5, i.toNat ≠ BADVADDR_REG := fun i => (toNat_ne i (by decide)).symm
  have hrep : Represents (arrived (r.set BADVADDR_REG x)) k.cpu :=
    { gpr := fun i => (hsame _ (hne i)).trans (h.state.gpr i)
      hi := (hsame _ (by decide)).trans h.state.hi
      lo := (hsame _ (by decide)).trans h.state.lo
      pc := (hsame _ (by decide)).trans h.state.pc
      npc := (hsame _ (by decide)).trans h.state.npc
      load := (hsame _ (by decide)).trans h.state.load }
  exact ⟨_, DelayedLoad_arrived (hload ▸ hlt), hrep.follows k.loading⟩

/-- An integer operation that does not use the register being loaded. -/
theorem Follows.integer (h : Follows r k) (hop : operation w = some op)
    (hfree : k.loading = 0 ∨ k.loading ∉ op.operands w) (hdef : k.cpu.Defined w op)
    (hmeets : k.cpu.Meets std w op) (heffect : k.cpu.effect w op = some c) :
    ∃ r', OneInstruction std r (Decode w) op = some (.advanced r') ∧ Follows r' ⟨c, 0⟩ := by
  have hfree' : (r LOAD_REG).toNat = 0 ∨ ¬ Touched w op (r LOAD_REG).toNat := by
    rcases h.load_cases with h0 | hl
    · exact Or.inl h0
    · rcases hfree with h0 | hnot
      · rw [h0] at hl
        exact Or.inl hl
      · right
        rintro (⟨d, hd, heq⟩ | hi | hi | hi)
        · exact hnot (BitVec.eq_of_toNat_eq (heq.trans hl) ▸ hd)
        all_goals
          have hlt := h.load_lt
          rw [hi] at hlt
          exact absurd hlt (by decide)
  have hyields := ((OneInstruction_iff h.state ((Decode_int w op).mpr hop) hdef).2).mpr hmeets
  rw [OneInstruction_arrived h.zero h.load_lt hfree', heffect] at hyields
  obtain ⟨outcome, hone, hagrees⟩ := hyields
  cases outcome with
  | advanced r' => exact ⟨r', hone, hagrees.follows 0⟩
  | raised r' => exact absurd hagrees id

/-- The end of a load of the register `d`, or of a store. -/
theorem Follows.complete (h : Follows r k) (hnpc : k.cpu.npc.saddOverflow 4 = false)
    (d : BitVec 5) (x : BitVec 32) :
    ∃ r', Mips.complete r d.toNat x = some r' ∧ Follows r' ⟨(k.cpu.write d x).next, d⟩ := by
  have hd : (BitVec.ofNat 32 d.toNat).toNat = d.toNat := by
    have hlt : d.toNat < 2 ^ 5 := d.isLt
    rw [BitVec.toNat_ofNat, Nat.mod_eq_of_lt (by omega)]
  have hadd : add (r NEXTPC_REG) 4 = some (k.cpu.npc + 4) := by
    unfold add
    rw [h.npc, hnpc]
    rfl
  have hlt : (r LOAD_REG).toNat < NUM_INT_REGS := Nat.lt_trans h.load_lt (by decide)
  generalize hr' : (((((((r.set (r LOAD_REG).toNat (r LOADVALUE_REG)).set LOAD_REG
    (BitVec.ofNat 32 d.toNat)).set LOADVALUE_REG x).set 0 0).set PREVPC_REG k.cpu.pc).set PC_REG
    k.cpu.npc).set NEXTPC_REG (k.cpu.npc + 4)) = r'
  have hval : ∀ i, r' i =
      if i = NEXTPC_REG then k.cpu.npc + 4
      else if i = PC_REG then k.cpu.npc
      else if i = PREVPC_REG then k.cpu.pc
      else if i = 0 then 0
      else if i = LOADVALUE_REG then x
      else if i = LOAD_REG then BitVec.ofNat 32 d.toNat
      else if i = (r LOAD_REG).toNat then r LOADVALUE_REG
      else r i := by
    intro i
    rw [← hr']
    simp only [set_apply]
  have hload : r' LOAD_REG = BitVec.ofNat 32 d.toNat := by
    rw [hval]
    rfl
  -- what the registers are once this load is done too
  have hgpr : ∀ i : BitVec 5, arrived r' i.toNat =
      if i = d ∧ d ≠ 0 then x else arrived r i.toNat := by
    intro i
    have hne : ∀ j, 32 ≤ j → i.toNat ≠ j := fun j hj => (toNat_ne i hj).symm
    have hvalue : r' LOADVALUE_REG = x := by
      rw [hval]
      rfl
    by_cases hi : i = 0
    · subst hi
      have hz : ∀ q : Registers, arrived q (0 : BitVec 5).toNat = 0 :=
        fun q => (arrived_apply 0).trans (if_pos (Or.inl rfl))
      rw [hz, hz, if_neg fun h0 => h0.2 h0.1.symm]
    · have hi' : i.toNat ≠ 0 := fun h0 => hi (BitVec.eq_of_toNat_eq h0)
      have hnot : ¬ (i.toNat = 0 ∨ i.toNat = LOADVALUE_REG ∨ i.toNat = LOAD_REG) := by
        rintro (h0 | h0 | h0)
        · exact hi' h0
        · exact hne _ (by decide) h0
        · exact hne _ (by decide) h0
      have hold : r' i.toNat = arrived r i.toNat := by
        rw [arrived_apply, if_neg hnot, hval]
        simp only [hne NEXTPC_REG (by decide), hne PC_REG (by decide), hne PREVPC_REG (by decide),
          hne LOADVALUE_REG (by decide), hne LOAD_REG (by decide), hi', if_false]
      rw [arrived_apply, if_neg hnot, hload, hd, hvalue, hold]
      by_cases hid : i = d
      · rw [if_pos (hid ▸ rfl), if_pos ⟨hid, hid ▸ hi⟩]
      · rw [if_neg fun h0 => hid (BitVec.eq_of_toNat_eq h0), if_neg fun h0 => hid h0.1]
  have hspecial : ∀ i, 32 ≤ i → i ≠ LOAD_REG → i ≠ LOADVALUE_REG → arrived r' i = r' i := by
    intro i hi hl hv
    have hdlt : d.toNat < 2 ^ 5 := d.isLt
    rw [arrived_apply, if_neg (by omega), hload, hd, if_neg (by omega)]
  have hkeep : ∀ i, 32 ≤ i → i < PC_REG → arrived r' i = arrived r i := by
    intro i hi hpc
    have hlt := h.load_lt
    have hpc' : PC_REG = 34 := rfl
    have hne : ∀ j, 34 ≤ j → i ≠ j := fun j hj => by omega
    rw [hspecial i hi (hne _ (by decide)) (hne _ (by decide)),
      h.special hi (hne _ (by decide)) (hne _ (by decide)), hval]
    have hz : i ≠ 0 := by omega
    have hl : i ≠ (r LOAD_REG).toNat := by omega
    simp only [hne NEXTPC_REG (by decide), hne PC_REG (by decide), hne PREVPC_REG (by decide),
      hne LOADVALUE_REG (by decide), hne LOAD_REG (by decide), hz, hl, if_false]
  refine ⟨r', ?_, ?_, Or.inr (hload.trans ?_), ?_, ?_, ?_, ?_, ?_, ?_⟩
  · unfold Mips.complete DelayedLoad
    rw [hadd]
    dsimp only [Option.bind_eq_bind, Option.bind_some]
    rw [if_pos hlt]
    dsimp only [Option.bind_some]
    have hne : ∀ j, 34 ≤ j → j ≠ (r LOAD_REG).toNat := by
      intro j hj
      have hl := h.load_lt
      omega
    have hpc : PC_REG ≠ (r LOAD_REG).toNat := hne _ (by decide)
    have hnext : NEXTPC_REG ≠ (r LOAD_REG).toNat := hne _ (by decide)
    rw [← hr', ← h.pc, ← h.npc]
    have hother : ∀ j, j ≠ 0 → j ≠ LOADVALUE_REG → j ≠ LOAD_REG → j ≠ (r LOAD_REG).toNat →
        ((((r.set (r LOAD_REG).toNat (r LOADVALUE_REG)).set LOAD_REG
          (BitVec.ofNat 32 d.toNat)).set LOADVALUE_REG x).set 0 0) j = r j := by
      intro j h0 h1 h2 h3
      rw [set_ne h0, set_ne h1, set_ne h2, set_ne h3]
    rw [hother PC_REG (by decide) (by decide) (by decide) hpc, set_ne (by decide),
      hother NEXTPC_REG (by decide) (by decide) (by decide) hnext]
    rfl
  · rw [hval]
    rfl
  · apply BitVec.eq_of_toNat_eq
    rw [hd, toNat_register]
  · intro i
    rw [hgpr, h.state.gpr]
    rfl
  · exact (hkeep _ (by decide) (by decide)).trans h.state.hi
  · exact (hkeep _ (by decide) (by decide)).trans h.state.lo
  · rw [hspecial _ (by decide) (by decide) (by decide), hval]
    rfl
  · rw [hspecial _ (by decide) (by decide) (by decide), hval]
    rfl
  · rw [arrived_apply, if_pos (Or.inr (Or.inr rfl))]

end

end Mips
end Nachos
