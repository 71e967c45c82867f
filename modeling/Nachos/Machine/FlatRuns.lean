/-
  Nachos.Machine.FlatRuns

  The simulated machine against the architecture: user programs that are run with delayed
  loads, by threads that take turns, on pages that come and go between the frames, the
  executable files and the swap area, do what they would do on a processor that executes one
  instruction after the other on a memory that is always there.
-/

import Nachos.Machine.UserRuns

namespace Nachos
namespace Mips

open HostInt Words Vm Transition

variable [VmConfig]

/-! ## Programs -/

/-- What the program has to keep to at its next instruction: it does not use the register
    that the instruction before it loads, an integer operation has a defined result and
    operands for which the simulated processor computes it, and addresses are in the lower
    half. -/
structure Flat.Fine (e : Surroundings) (f : Flat) (t : Vm.ThreadId) (std : Edition) : Prop where
  pc : (f.core t).cpu.pc.msb = false
  integer : ∀ w op, f.instruction e t = some w → operation w = some op →
    ((f.core t).loading = 0 ∨ (f.core t).loading ∉ op.operands w) ∧
      (f.core t).cpu.Defined w op ∧ (f.core t).cpu.Meets std w op
  memory : ∀ w op, f.instruction e t = some w → memoryOperation w = some op →
    ((f.core t).loading = 0 ∨ (f.core t).loading ≠ rs w ∧
        (op.storesAligned = true → (f.core t).loading ≠ rt w)) ∧
      (f.core t).cpu.npc.saddOverflow 4 = false ∧
      ((f.core t).cpu.s w).saddOverflow (signed w) = false ∧ (f.address t w).msb = false

/-- The surroundings of the threads on a machine. -/
def surroundings (T : Threads) (m : Vm.Machine) : Surroundings where
  order := m.mips_endianess
  process := T.process
  accessible b v := (m.system.memory.rights b v).1 || (m.system.memory.rights b v).2
  writable b v := (m.system.memory.rights b v).2

/-! ## What is under the programs -/

/-- The system has come here by user accesses and by page faults that were not interrupted,
    and `c` is what has been stored last. -/
def Past (T : Threads) (s₀ : Vm.System) (c : Contents) (s : Vm.System) : Prop :=
  ∃ tr, Run (Vm.step T) s₀ tr s ∧ (∀ x ∈ tr, Complete x.1 x.2) ∧ contents T s₀.memory tr = c

section Past

variable {T : Threads} {s₀ s s' : Vm.System} {c : Contents} {mv : Vm.Move}

theorem Past.step (h : Past T s₀ c s) (hc : Complete s mv) (hs : Vm.step T s mv = some s') :
    Past T s₀ (c.after T (s, mv)) s' := by
  obtain ⟨tr, hr, hall, rfl⟩ := h
  refine ⟨tr ++ [(s, mv)], hr.snoc hs, fun x hx => ?_, ?_⟩
  · rcases List.mem_append.mp hx with hx | hx
    · exact hall x hx
    · obtain rfl := List.mem_singleton.mp hx
      exact hc
  · unfold contents
    rw [List.foldl_append]
    rfl

omit [VmConfig] in
/-- The accesses of user code, and the page faults they raise, are complete steps. -/
theorem complete_of_user (hd : ∀ b, mv ≠ .destroy b) (hw : ∀ t, mv ≠ .switch t)
    (ha : mv ≠ .advance) : Complete s mv :=
  ⟨hd, fun t ht => absurd ht (hw t), fun h => absurd h ha⟩

theorem Past.rights (h : Past T s₀ c s) : s.memory.rights = s₀.memory.rights := by
  obtain ⟨tr, hr, -, -⟩ := h
  refine hr.invariant (I := fun s => s.memory.rights = s₀.memory.rights) rfl fun s a s' ih hs => ?_
  rw [← ih]
  cases step_cases hs with
  | load hu hm' =>
    obtain ⟨a, ht, -, -⟩ := readMem_cases hm'
    obtain ⟨rfl, -, -, -⟩ := translate_cases ht
    exact rights_modifyEntry (f := .accessed false) (fun _ => rfl) fun _ => rfl
  | store hu hm' =>
    obtain ⟨m₁, a, ht, -, rfl⟩ := writeMem_cases hm'
    obtain ⟨rfl, -, -, -⟩ := translate_cases ht
    exact rights_modifyEntry (f := .accessed true) (fun _ => rfl) fun _ => rfl
  | advance hp hr => exact next_rights hr
  | _ => rfl

end Past

/-! ## The simulation -/

/-- The thread is in the middle of a load or a store: the address, and the value to be
    stored, are right if the program does not use the register that is being loaded. -/
def Begun (e : Surroundings) (f : Flat) (t : Vm.ThreadId) (op : MemOp) (tmp : BitVec 32)
    (reg : Nat) (value : BitVec 32) : Prop :=
  ∀ w, f.instruction e t = some w → memoryOperation w = some op ∧ reg = (rt w).toNat ∧
    ((f.core t).loading = 0 ∨ (f.core t).loading ≠ rs w → tmp = f.address t w) ∧
    ((f.core t).loading = 0 ∨ (f.core t).loading ≠ rt w → value = (f.core t).cpu.t w)

/-- The simulated machine is where the flat one is, but for what is going on in the running
    thread. -/
structure Simulates (T : Threads) (m₀ : Vm.Machine) (s : Running) (f : Flat) : Prop where
  past : Past T m₀.system f.memory s.machine.system
  order : s.machine.mips_endianess = m₀.mips_endianess
  follows : ∀ t, Follows (s.registers t) (f.core t)
  others : ∀ t, t ≠ s.current → s.phase t = .start
  begun : ∀ op tmp reg value, s.phase s.current = .access op tmp reg value →
    Begun (surroundings T m₀) f s.current op tmp reg value

section Steps

variable {T : Threads} {std : Edition} {m₀ : Vm.Machine} {s s' : Running} {f f' : Flat}

omit [VmConfig] in
theorem readValue_congr {size : Nat} {b b' : Nat → Byte} (hsize : size = 1 ∨ size = 2 ∨ size = 4)
    (h : ∀ j < size, b j = b' j) : readValue size b = readValue size b' := by
  rcases hsize with rfl | rfl | rfl
  · unfold readValue
    rw [if_pos rfl, if_pos rfl, h 0 (by decide)]
  · show ((b 1 ++ b 0 : BitVec (8 + 8)).setWidth 32) = (b' 1 ++ b' 0 : BitVec (8 + 8)).setWidth 32
    rw [h 0 (by decide), h 1 (by decide)]
  · unfold readValue
    rw [if_neg (by decide), if_neg (by decide), if_neg (by decide), if_neg (by decide),
      h 0 (by decide), h 1 (by decide), h 2 (by decide), h 3 (by decide)]

/-- What a load of the running thread does. -/
theorem load_cases {a raw : BitVec 32} {size : Nat} (hs : s.load T a size = some (s', raw)) :
    a.msb = false ∧ ∃ m value, s.machine.system.inUserCode T ∧
      s.machine.system.memory.ReadMem (T.process s.current) a.toNat size = some (m, value) ∧
      raw = s.machine.mips_endianess.read size value ∧
      s' = { s with machine := { s.machine with system := { s.machine.system with
        memory := m } } } := by
  unfold Running.load at hs
  split at hs
  · exact absurd hs (by simp)
  rename_i ha
  refine ⟨Bool.eq_false_of_not_eq_true ha, ?_⟩
  obtain ⟨value, hloaded, hs⟩ := Option.bind_eq_some_iff.mp hs
  obtain ⟨machine, hstep, hs⟩ := Option.bind_eq_some_iff.mp hs
  obtain ⟨sys, hsys, rfl⟩ := Option.map_eq_some_iff.mp hstep
  obtain ⟨rfl, rfl⟩ := Prod.mk.inj (Option.some.inj hs)
  unfold Vm.Machine.loaded at hloaded
  dsimp only at hloaded
  have hme : T.process s.machine.system.current = T.process s.current := rfl
  rw [if_pos hme] at hloaded
  obtain ⟨⟨m, value'⟩, hread, rfl⟩ := Option.map_eq_some_iff.mp hloaded
  cases step_cases hsys with
  | @load _ _ m' value'' hu hm' =>
    obtain ⟨rfl, -⟩ := Prod.mk.inj (Option.some.inj (hread.symm.trans hm'))
    exact ⟨m, value', hu, hread, rfl, rfl⟩

/-- What a store of the running thread does. -/
theorem store_cases {a value : BitVec 32} {size : Nat} (hs : s.store T a size value = some s') :
    a.msb = false ∧ ∃ m, Vm.step T s.machine.system
        (.store a.toNat size (s.machine.mips_endianess.write size value)) =
          some { s.machine.system with memory := m } ∧
      (size = 1 ∨ size = 2 ∨ size = 4) ∧
      s' = { s with machine := { s.machine with system := { s.machine.system with
        memory := m } } } := by
  unfold Running.store at hs
  split at hs
  · exact absurd hs (by simp)
  rename_i ha
  refine ⟨Bool.eq_false_of_not_eq_true ha, ?_⟩
  obtain ⟨machine, hstep, rfl⟩ := Option.map_eq_some_iff.mp hs
  obtain ⟨sys, hsys, rfl⟩ := Option.map_eq_some_iff.mp hstep
  cases step_cases hsys with
  | @store _ _ m' _ hu hm' =>
    obtain ⟨-, -, -, hsize, -⟩ := writeMem_cases hm'
    exact ⟨m', hsys, hsize, rfl⟩

/-- The threads and the memories after a load, or another step that leaves the memories. -/
structure SameThreads (T : Threads) (m₀ : Vm.Machine) (s s' : Running) (c : Contents) : Prop where
  past : Past T m₀.system c s'.machine.system
  order : s'.machine.mips_endianess = m₀.mips_endianess
  current : s'.current = s.current
  registers : s'.registers = s.registers
  phase : s'.phase = s.phase

theorem SameThreads.regs {c : Contents} (h : SameThreads T m₀ s s' c) :
    s'.regs = s.registers s.current := by
  unfold Running.regs
  rw [h.registers, h.current]

/-- A load of the running thread changes nothing that the program sees, and returns the bytes
    that the flat memory has. -/
theorem Simulates.load (h : Simulates T m₀ s f) (h₀ : Booted m₀.system)
    (hfiles : ∀ b, (m₀.system.memory.spaces b).mapped_files = []) {a raw : BitVec 32} {size : Nat}
    (hs : s.load T a size = some (s', raw)) : SameThreads T m₀ s s' f.memory ∧
      ∀ b, f.bytes (surroundings T m₀) s.current a.toNat size = some b →
        raw = m₀.mips_endianess.read size (readValue size b) := by
  obtain ⟨-, m, value, hu, hread, rfl, rfl⟩ := load_cases hs
  have hstep : Vm.step T s.machine.system (.load a.toNat size) =
      some { s.machine.system with memory := m } := by
    have hread' : s.machine.system.memory.ReadMem (T.process s.machine.system.current) a.toNat
        size = some (m, value) := hread
    unfold Vm.step
    dsimp only
    rw [if_pos hu, hread']
    rfl
  have hpast := h.past.step (complete_of_user (by simp) (by simp) (by simp)) hstep
  refine ⟨⟨hpast, h.order, rfl, rfl, rfl⟩, fun b hb => ?_⟩
  -- the bytes that are known are those that are found
  obtain ⟨tr, hr, hall, hc⟩ := h.past
  obtain ⟨found, rfl, hfound⟩ := load_contents h₀ hfiles hr hall hread
  obtain ⟨x, ht, hsize, -⟩ := readMem_cases hread
  rw [h.order]
  congr 1
  apply readValue_congr hsize
  intro j hj
  unfold Flat.bytes at hb
  split at hb
  · rename_i hknown
    have hsome := List.all_eq_true.mp hknown.2 j (List.mem_range.mpr hj)
    obtain ⟨y, hy⟩ := Option.isSome_iff_exists.mp hsome
    obtain rfl := Option.some.inj hb
    have hy' : f.memory (T.process s.current) (a.toNat + j) = some y := hy
    rw [hc] at hfound
    show found j = (f.memory (T.process s.current) (a.toNat + j)).getD 0
    rw [hy', hfound j hj y hy']
    rfl
  · exact absurd hb (by simp)

/-- After a store the memory is what the architecture says. -/
theorem Simulates.store (h : Simulates T m₀ s f) {a value : BitVec 32} {size : Nat}
    (hs : s.store T a size value = some s') :
    SameThreads T m₀ s s' fun b i =>
      if b = T.process s.current ∧ a.toNat ≤ i ∧ i < a.toNat + size then
        some (storedByte m₀.mips_endianess size value (i - a.toNat))
      else f.memory b i := by
  obtain ⟨-, m, hstep, hsize, rfl⟩ := store_cases hs
  have hpast := h.past.step (complete_of_user (by simp) (by simp) (by simp)) hstep
  refine ⟨?_, h.order, rfl, rfl, rfl⟩
  convert hpast using 1
  funext b i
  show _ = Contents.put f.memory (T.process s.current) a.toNat size _ b i
  unfold Contents.put
  by_cases hin : b = T.process s.current ∧ a.toNat ≤ i ∧ i < a.toNat + size
  · rw [if_pos hin, if_pos hin, h.order, write_byte _ _ hsize (by omega)]
  · rw [if_neg hin, if_neg hin]

/-- One thread goes on, in the simulated machine and in the flat one. -/
theorem Simulates.advance (h : Simulates T m₀ s f) {c : Contents} {s₁ : Running}
    (hs : SameThreads T m₀ s s₁ c) {r : Registers} {k : Core} (hr : Follows r k) :
    Simulates T m₀ ((s₁.setRegs r).setPhase .start) { f.setCore s.current k with memory := c } where
  past := hs.past
  order := hs.order
  follows t := by
    show Follows (Function.update s₁.registers s₁.current r t)
      (Function.update f.core s.current k t)
    rw [hs.registers, hs.current]
    by_cases ht : t = s.current
    · subst ht
      rw [Function.update_self, Function.update_self]
      exact hr
    · rw [Function.update_of_ne ht, Function.update_of_ne ht]
      exact h.follows t
  others t ht := by
    have ht' : t ≠ s₁.current := ht
    show Function.update s₁.phase s₁.current .start t = _
    rw [Function.update_of_ne ht', hs.phase]
    exact h.others t fun heq => ht' (heq.trans hs.current.symm)
  begun op tmp reg value hp := by
    have hp' : Function.update s₁.phase s₁.current .start s₁.current = .access op tmp reg value :=
      hp
    rw [Function.update_self] at hp'
    exact absurd hp' (by simp)

/-- The kernel runs between two instructions, or in a page fault. -/
theorem Simulates.kernel (h : Simulates T m₀ s f) {mv : Vm.Move}
    (hs : s.step T std (.kernel mv) = some s') (hc : Complete s.machine.system mv) :
    Simulates T m₀ s' f := by
  simp only [Running.step] at hs
  split at hs
  · rename_i hpermits
    obtain ⟨machine, hstep, rfl⟩ := Option.map_eq_some_iff.mp hs
    obtain ⟨sys, hsys, rfl⟩ := Option.map_eq_some_iff.mp hstep
    cases mv with
    | load | store | fault => exact absurd hpermits (by simp [Running.permits])
    | destroy b => exact absurd rfl (hc.1 b)
    | advance =>
      have hpast := h.past.step hc hsys
      have hcur : sys.current = s.machine.system.current := by
        cases step_cases hsys with
        | advance hp hr => rfl
      exact ⟨hpast, h.order, h.follows, fun t ht => h.others t fun heq => ht (heq.trans hcur.symm),
        fun op tmp reg value hp => by
          have hcur' : sys.current = s.current := hcur
          show Begun _ f sys.current op tmp reg value
          rw [hcur']
          exact h.begun op tmp reg value (hcur' ▸ hp)⟩
    | switch t =>
      have hpast := h.past.step hc hsys
      -- the thread that stops is between two instructions
      have hstart : ∀ u, s.phase u = .start := by
        intro u
        by_cases hu : u = s.current
        · have hnone : s.machine.system.pc s.current = none := hc.2.1 t rfl
          rw [hu]
          simpa [Running.permits, hnone] using hpermits
        · exact h.others u hu
      refine ⟨hpast, h.order, h.follows, fun u _ => hstart u, fun op tmp reg value hp => ?_⟩
      exact absurd ((hstart _).symm.trans hp) (by simp)
  · exact absurd hs (by simp)

/-- A page fault: the load that is pending is done, and the kernel takes over. -/
theorem Simulates.fault (h : Simulates T m₀ s f) {buffer : Page}
    (hs : s.step T std (.fault buffer) = some s') : Simulates T m₀ s' f := by
  simp only [Running.step, Running.fault] at hs
  split at hs
  · exact absurd hs (by simp)
  obtain ⟨r, hr, hs⟩ := Option.bind_eq_some_iff.mp hs
  obtain ⟨machine, hstep, hs⟩ := Option.bind_eq_some_iff.mp hs
  obtain ⟨sys, hsys, rfl⟩ := Option.map_eq_some_iff.mp hstep
  obtain rfl := Option.some.inj hs
  have hpast := h.past.step (complete_of_user (by simp [Vm.Machine.ordered])
    (by simp [Vm.Machine.ordered]) (by simp [Vm.Machine.ordered])) hsys
  have hcur : sys.current = s.current := by
    cases step_cases hsys with
    | fault hu hv ha => rfl
  refine ⟨hpast, h.order, fun t => ?_, fun t ht => h.others t fun heq => ht (heq.trans hcur.symm),
    fun op tmp reg value hp => ?_⟩
  · show Follows (Function.update s.registers s.current r t) (f.core t)
    by_cases ht : t = s.current
    · subst ht
      obtain ⟨r', hr', hfollows⟩ := (h.follows s.current).fault s.wanted.1
      obtain rfl := Option.some.inj (hr'.symm.trans hr)
      rwa [Function.update_self]
    · rw [Function.update_of_ne ht]
      exact h.follows t
  · show Begun _ f sys.current op tmp reg value
    rw [hcur]
    exact h.begun op tmp reg value (hcur ▸ hp)

/-- The instruction that is read is that of the flat machine. -/
theorem Simulates.fetch (h : Simulates T m₀ s f) (h₀ : Booted m₀.system)
    (hfiles : ∀ b, (m₀.system.memory.spaces b).mapped_files = []) {instr : Instruction}
    (hs : s.fetch T = some (s', instr)) :
    SameThreads T m₀ s s' f.memory ∧ s.phase s.current = .start ∧
      ∀ w, f.instruction (surroundings T m₀) s.current = some w → instr = Decode w := by
  unfold Running.fetch at hs
  split at hs
  · rename_i hstart
    obtain ⟨⟨s₁, raw⟩, hload, hs⟩ := Option.bind_eq_some_iff.mp hs
    obtain ⟨rfl, rfl⟩ := Prod.mk.inj (Option.some.inj hs)
    obtain ⟨hsame, hraw⟩ := h.load h₀ hfiles hload
    refine ⟨hsame, hstart, fun w hw => ?_⟩
    obtain ⟨b, hb, rfl⟩ := Option.map_eq_some_iff.mp hw
    have hpc : s.regs PC_REG = (f.core s.current).cpu.pc := (h.follows s.current).pc
    rw [hraw b (hpc ▸ hb), read_word]
    rfl
  · exact absurd hs (by simp)

/-- An integer operation. -/
theorem Simulates.integer (h : Simulates T m₀ s f) (h₀ : Booted m₀.system)
    (hfiles : ∀ b, (m₀.system.memory.spaces b).mapped_files = [])
    (hs : s.step T std .integer = some s')
    (hf : f.step (surroundings T m₀) s.current = some f')
    (hfine : f.Fine (surroundings T m₀) s.current std) : Simulates T m₀ s' f' := by
  simp only [Running.step] at hs
  obtain ⟨⟨s₁, instr⟩, hfetch, hs⟩ := Option.bind_eq_some_iff.mp hs
  obtain ⟨w, hw, hf⟩ := Option.bind_eq_some_iff.mp hf
  obtain ⟨hsame, hstart, hinstr⟩ := h.fetch h₀ hfiles hfetch
  obtain rfl := hinstr w hw
  have hregs : s₁.regs = s.regs := hsame.regs
  dsimp only at hs
  split at hs
  · rename_i op hop
    have henc := (Decode_int w op).mp hop
    rw [henc] at hf
    obtain ⟨cpu, heffect, rfl⟩ := Option.map_eq_some_iff.mp hf
    obtain ⟨hfree, hdef, hmeets⟩ := hfine.integer w op hw henc
    obtain ⟨r, hone, hr⟩ := (h.follows s.current).integer henc hfree hdef hmeets heffect
    have hone' : OneInstruction std s₁.regs (Decode w) op = some (.advanced r) := hregs ▸ hone
    rw [hone'] at hs
    obtain rfl := Option.some.inj hs
    have hphase : (s₁.setRegs r).setPhase .start = s₁.setRegs r := by
      have hstart₁ : s₁.phase s₁.current = .start := by rw [hsame.phase, hsame.current, hstart]
      show Running.mk _ _ (Function.update s₁.phase s₁.current .start) = _
      rw [← hstart₁, Function.update_eq_self]
      rfl
    have hadvance := h.advance hsame hr
    rw [hphase] at hadvance
    exact hadvance
  · exact absurd hs (by simp)

/-- A load or a store begins. -/
theorem Simulates.address (h : Simulates T m₀ s f) (h₀ : Booted m₀.system)
    (hfiles : ∀ b, (m₀.system.memory.spaces b).mapped_files = [])
    (hs : s.step T std .address = some s') : Simulates T m₀ s' f := by
  simp only [Running.step] at hs
  obtain ⟨⟨s₁, instr⟩, hfetch, hs⟩ := Option.bind_eq_some_iff.mp hs
  obtain ⟨hsame, hstart, hinstr⟩ := h.fetch h₀ hfiles hfetch
  have hregs : s₁.regs = s.regs := hsame.regs
  dsimp only at hs
  split at hs
  · rename_i op hop
    obtain ⟨tmp, htmp, hs⟩ := Option.bind_eq_some_iff.mp hs
    obtain rfl := Option.some.inj hs
    refine ⟨hsame.past, hsame.order, fun t => ?_, fun t ht => ?_, fun op' tmp' reg value hp => ?_⟩
    · show Follows (s₁.registers t) _
      rw [hsame.registers]
      exact h.follows t
    · have ht' : t ≠ s₁.current := ht
      show Function.update s₁.phase s₁.current _ t = _
      rw [Function.update_of_ne ht', hsame.phase]
      exact h.others t fun heq => ht' (heq.trans hsame.current.symm)
    · have hp' : Function.update s₁.phase s₁.current (.access op tmp instr.rt (s₁.regs instr.rt))
          s₁.current = .access op' tmp' reg value := hp
      rw [Function.update_self] at hp'
      obtain ⟨rfl, rfl, rfl, rfl⟩ := Phase.access.inj hp'
      show Begun _ f s₁.current op tmp instr.rt (s₁.regs instr.rt)
      rw [hsame.current, hregs] at *
      intro w hw
      obtain rfl := hinstr w hw
      have henc := (Decode_mem w op).mp hop
      refine ⟨henc, Decode_rt w, fun hfree => ?_, fun hfree => ?_⟩
      · have hrs : s.regs (Decode w).rs = (f.core s.current).cpu.s w := by
          rw [Decode_rs]
          exact (h.follows s.current).read hfree
        rw [hrs, Decode_offset henc] at htmp
        unfold add at htmp
        split at htmp
        · exact absurd htmp (by simp)
        · exact (Option.some.inj htmp).symm
      · rw [Decode_rt]
        exact (h.follows s.current).read hfree
  · exact absurd hs (by simp)

/-- The access of a load or a store, with the rest of the instruction. -/
theorem Simulates.memory (h : Simulates T m₀ s f) (h₀ : Booted m₀.system)
    (hfiles : ∀ b, (m₀.system.memory.spaces b).mapped_files = [])
    (hs : s.step T std .memory = some s')
    (hf : f.step (surroundings T m₀) s.current = some f')
    (hfine : f.Fine (surroundings T m₀) s.current std) : Simulates T m₀ s' f' := by
  simp only [Running.step] at hs
  split at hs
  · rename_i op tmp reg value hphase
    obtain ⟨w, hw, hf⟩ := Option.bind_eq_some_iff.mp hf
    obtain ⟨henc, rfl, htmp, hvalue⟩ := h.begun _ _ _ _ hphase w hw
    rw [henc, operation_of_memory henc] at hf
    obtain ⟨hfree, hnpc, -, -⟩ := hfine.memory w op hw henc
    obtain rfl := htmp (hfree.imp id And.left)
    have hf : f.access (surroundings T m₀) s.current w op = some f' := hf
    unfold Flat.access at hf
    dsimp only at hf
    unfold Running.access at hs
    by_cases hstore : op.storesAligned = true
    · rw [if_pos hstore] at hf hs
      split at hf
      · obtain rfl := Option.some.inj hf
        obtain ⟨s₁, hs₁, hs⟩ := Option.bind_eq_some_iff.mp hs
        obtain ⟨r, hr, hs⟩ := Option.bind_eq_some_iff.mp hs
        obtain rfl := Option.some.inj hs
        obtain rfl := hvalue (hfree.imp id fun hne => hne.2 hstore)
        have hsame := h.store hs₁
        obtain ⟨r', hr', hfollows⟩ := (h.follows s.current).complete hnpc 0 0
        obtain rfl := Option.some.inj (hr'.symm.trans (hsame.regs ▸ hr))
        rw [Cpu.write_zero] at hfollows
        exact h.advance hsame hfollows
      · exact absurd hf (by simp)
    · rw [if_neg hstore] at hf hs
      obtain ⟨b, hb, hf⟩ := Option.bind_eq_some_iff.mp hf
      obtain ⟨x, hx, hf⟩ := Option.bind_eq_some_iff.mp hf
      obtain rfl := Option.some.inj hf
      -- a load of aligned data
      have hmerge : ¬ op.mergesWord = true := by
        intro hmerge
        cases op <;> first
          | exact absurd hmerge (by decide)
          | exact absurd hx (by simp [MemOp.result])
      rw [if_neg hmerge] at hs
      split at hs
      · exact absurd hs (by simp)
      obtain ⟨⟨s₁, raw⟩, hload, hs⟩ := Option.bind_eq_some_iff.mp hs
      obtain ⟨next, hnext, hs⟩ := Option.bind_eq_some_iff.mp hs
      obtain ⟨r, hr, hs⟩ := Option.bind_eq_some_iff.mp hs
      obtain rfl := Option.some.inj hs
      obtain ⟨hsame, hraw⟩ := h.load h₀ hfiles hload
      obtain rfl := hraw b hb
      obtain rfl := Option.some.inj ((loaded_result _ _ hx).symm.trans hnext)
      obtain ⟨r', hr', hfollows⟩ := (h.follows s.current).complete hnpc (rt w) x
      obtain rfl := Option.some.inj (hr'.symm.trans (hsame.regs ▸ hr))
      exact h.advance hsame hfollows
  · exact absurd hs (by simp)

/-! ### The running thread goes on -/

/-- What the page tables allow, the flat machine allows. -/
theorem Simulates.allowed (h : Simulates T m₀ s f) {a size : Nat} {writing : Bool}
    (ha : Flat.Allowed (surroundings T m₀) s.current a size writing) :
    a % size = 0 ∧
      let e := s.machine.system.memory.entry (T.process s.current) (a / PageSize)
      (e.readAllowed ∨ e.writeAllowed) ∧ (writing = true → e.writeAllowed = true) := by
  obtain ⟨hmod, hacc, hwrite⟩ := ha
  have hrights := congrFun (congrFun h.past.rights (T.process s.current)) (a / PageSize)
  obtain ⟨hread', hwrite'⟩ := Prod.mk.inj hrights
  refine ⟨hmod, ?_, fun hw => hwrite'.trans (hwrite hw)⟩
  have hacc' := Bool.or_eq_true _ _ ▸ hacc
  exact hacc'.imp (fun hr => hread'.trans hr) fun hw => hwrite'.trans hw

/-- A page that is there can be accessed; one that is not is brought in. -/
theorem Simulates.reach (h : Simulates T m₀ s f) (h₀ : Booted m₀.system)
    (hfiles : ∀ b, (m₀.system.memory.spaces b).mapped_files = [])
    (hu : s.machine.system.inUserCode T) {a size : Nat} {writing : Bool}
    (ha : Flat.Allowed (surroundings T m₀) s.current a size writing) :
    (∃ m x, s.machine.system.memory.Translate (T.process s.current) a size writing = some (m, x)) ∨
      ∀ buffer, ∃ sys, Vm.step T s.machine.system (.fault (a / PageSize) buffer) = some sys := by
  obtain ⟨hmod, hrights, hwrite⟩ := h.allowed ha
  cases hvalid : (s.machine.system.memory.entry (T.process s.current) (a / PageSize)).valid with
  | true =>
    left
    obtain ⟨tr, hr, hall, -⟩ := h.past
    obtain ⟨hinv, -, -, -, hlive, -⟩ := complete_run h₀ hfiles hr hall
    have hdead : s.machine.system.memory.status (T.process s.current) ≠ .dead := by
      rw [hlive]
      simp
    obtain ⟨-, -, hframe, -⟩ := hinv.frames.valid _ _ hdead hvalid
    unfold Memory.Translate
    dsimp only
    rw [if_neg (not_not.mpr hmod), if_neg, if_neg]
    · exact ⟨_, _, rfl⟩
    · rw [not_or]
      exact ⟨not_not.mpr hvalid, Nat.not_le.mpr hframe⟩
    · rw [not_or]
      exact ⟨not_not.mpr hrights, fun hw => hw.2 (hwrite hw.1)⟩
  | false =>
    right
    intro buffer
    unfold Vm.step
    dsimp only
    have hvalid' : ¬ (s.machine.system.memory.entry (T.process s.machine.system.current)
        (a / PageSize)).valid = true := by
      show ¬ (s.machine.system.memory.entry (T.process s.current) (a / PageSize)).valid = true
      rw [hvalid]
      simp
    rw [if_pos ⟨hu, hvalid', hrights⟩]
    exact ⟨_, rfl⟩

/-- The load can be made. -/
theorem load_some {a : BitVec 32} {size : Nat} (hu : s.machine.system.inUserCode T)
    (ha : a.msb = false) (hsize : size = 1 ∨ size = 2 ∨ size = 4) {m : Memory} {x : Nat}
    (ht : s.machine.system.memory.Translate (T.process s.current) a.toNat size false =
      some (m, x)) : ∃ s₁ raw, s.load T a size = some (s₁, raw) := by
  have hread : ∃ value, s.machine.system.memory.ReadMem (T.process s.current) a.toNat size =
      some (m, value) := by
    unfold Memory.ReadMem
    rw [if_pos hsize, ht]
    exact ⟨_, rfl⟩
  obtain ⟨value, hread⟩ := hread
  have hread' : s.machine.system.memory.ReadMem (T.process s.machine.system.current) a.toNat size =
      some (m, value) := hread
  have hme : T.process s.machine.system.current = T.process s.current := rfl
  have hloaded : s.machine.loaded T (T.process s.current) (.load a.toNat size) =
      some (s.machine.mips_endianess.read size value) := by
    unfold Vm.Machine.loaded
    dsimp only
    rw [if_pos hme, hread]
    rfl
  have hstep : s.machine.step T (.load a.toNat size) =
      some { s.machine with system := { s.machine.system with memory := m } } := by
    show (Vm.step T s.machine.system (.load a.toNat size)).map _ = _
    unfold Vm.step
    dsimp only
    rw [if_pos hu, hread']
    rfl
  unfold Running.load
  rw [ha, if_neg Bool.false_ne_true]
  dsimp only
  rw [hloaded, hstep]
  exact ⟨_, _, rfl⟩

/-- The store can be made. -/
theorem store_some {a value : BitVec 32} {size : Nat} (hu : s.machine.system.inUserCode T)
    (ha : a.msb = false) (hsize : size = 1 ∨ size = 2 ∨ size = 4) {m : Memory} {x : Nat}
    (ht : s.machine.system.memory.Translate (T.process s.current) a.toNat size true =
      some (m, x)) : ∃ s₁, s.store T a size value = some s₁ := by
  have ht' : s.machine.system.memory.Translate (T.process s.machine.system.current) a.toNat size
      true = some (m, x) := ht
  unfold Running.store
  rw [ha, if_neg Bool.false_ne_true]
  show ∃ s₁, ((Vm.step T s.machine.system (.store a.toNat size _)).map _).map _ = some s₁
  unfold Vm.step
  dsimp only
  rw [if_pos hu]
  unfold Memory.WriteMem
  rw [if_pos hsize, ht']
  exact ⟨_, rfl⟩

/-- The page that the thread wants is brought in. -/
theorem Simulates.fault_some (h : Simulates T m₀ s f) {a : BitVec 32} {size : Nat}
    {writing : Bool} {buffer : Page} (hwanted : s.wanted = (a, size, writing))
    (ha : a.msb = false)
    (hallowed : Flat.Allowed (surroundings T m₀) s.current a.toNat size writing) {sys : Vm.System}
    (hfault : Vm.step T s.machine.system (.fault (a.toNat / PageSize) buffer) = some sys) :
    ∃ s', s.step T std (.fault buffer) = some s' := by
  obtain ⟨hmod, -, hwrite⟩ := h.allowed hallowed
  obtain ⟨r, hr, -⟩ := (h.follows s.current).fault a
  have hr' : DelayedLoad (s.regs.set BADVADDR_REG a) 0 0 = some r := hr
  have hstep : s.machine.step T (.fault (a.toNat / PageSize) buffer) =
      some { s.machine with system := sys } := by
    show (Vm.step T s.machine.system (.fault (a.toNat / PageSize) buffer)).map _ = _
    rw [hfault]
    rfl
  show ∃ s', s.fault T buffer = some s'
  unfold Running.fault
  rw [hwanted]
  dsimp only
  rw [if_neg, hr', hstep]
  · exact ⟨_, rfl⟩
  · rw [ha, not_or, not_or]
    exact ⟨Bool.false_ne_true, not_not.mpr hmod, fun hw => hw.2 (hwrite hw.1)⟩

omit [VmConfig] in
theorem MemOp.size_cases (op : MemOp) : op.size = 1 ∨ op.size = 2 ∨ op.size = 4 := by
  cases op <;> decide

/-- What is allowed about the bytes that are known. -/
theorem Flat.allowed_of_bytes {e : Surroundings} {t : Vm.ThreadId} {a size : Nat}
    {b : Nat → Byte} (h : f.bytes e t a size = some b) : Flat.Allowed e t a size false := by
  unfold Flat.bytes at h
  split at h
  · rename_i hb
    exact hb.1
  · exact absurd h (by simp)

/-- At the start of an instruction. -/
theorem Simulates.goes_on_start (h : Simulates T m₀ s f) (h₀ : Booted m₀.system)
    (hfiles : ∀ b, (m₀.system.memory.spaces b).mapped_files = [])
    (hu : s.machine.system.inUserCode T) (hstart : s.phase s.current = .start)
    (hf : f.step (surroundings T m₀) s.current = some f')
    (hfine : f.Fine (surroundings T m₀) s.current std) :
    ∃ a s', (∀ mv, a ≠ .kernel mv) ∧ s.step T std a = some s' := by
  obtain ⟨w, hw, hf⟩ := Option.bind_eq_some_iff.mp hf
  obtain ⟨b, hb, -⟩ := Option.map_eq_some_iff.mp hw
  have hpc : s.regs PC_REG = (f.core s.current).cpu.pc := (h.follows s.current).pc
  have hallowed := Flat.allowed_of_bytes hb
  rcases h.reach h₀ hfiles hu hallowed with ⟨m, x, ht⟩ | hfault
  · obtain ⟨s₁, raw, hload⟩ := load_some hu hfine.pc (Or.inr (Or.inr rfl)) ht
    have hfetch : s.fetch T = some (s₁, Decode raw) := by
      unfold Running.fetch
      rw [if_pos hstart, hpc, hload]
      rfl
    obtain ⟨hsame, -, hinstr⟩ := h.fetch h₀ hfiles hfetch
    rw [hinstr w hw] at hfetch
    have hregs : s₁.regs = s.registers s.current := hsame.regs
    cases hop : operation w with
    | some op =>
      rw [hop] at hf
      obtain ⟨cpu, heffect, -⟩ := Option.map_eq_some_iff.mp hf
      obtain ⟨hfree, hdef, hmeets⟩ := hfine.integer w op hw hop
      obtain ⟨r, hone, -⟩ := (h.follows s.current).integer hop hfree hdef hmeets heffect
      refine ⟨.integer, s₁.setRegs r, by simp, ?_⟩
      simp only [Running.step, hfetch, Option.bind_eq_bind, Option.bind_some,
        (Decode_int w op).mpr hop, hregs, hone]
    | none =>
      cases hmem : memoryOperation w with
      | none =>
        rw [hop, hmem] at hf
        exact absurd hf (by simp)
      | some op =>
        obtain ⟨hfree, -, hadd, -⟩ := hfine.memory w op hw hmem
        have hrs : s.registers s.current (Decode w).rs = (f.core s.current).cpu.s w := by
          rw [Decode_rs]
          exact (h.follows s.current).read (hfree.imp id And.left)
        have htmp : add (s₁.regs (Decode w).rs) (Decode w).extra =
            some (f.address s.current w) := by
          unfold add
          rw [hregs, hrs, Decode_offset hmem, hadd]
          rfl
        refine ⟨.address, s₁.setPhase (.access op (f.address s.current w) (Decode w).rt
          (s₁.regs (Decode w).rt)), by simp, ?_⟩
        simp only [Running.step, hfetch, Option.bind_eq_bind, Option.bind_some,
          (Decode_mem w op).mpr hmem, htmp]
  · obtain ⟨sys, hsys⟩ := hfault fun _ => 0
    have hwanted : s.wanted = ((f.core s.current).cpu.pc, 4, false) := by
      unfold Running.wanted
      rw [hstart, hpc]
    obtain ⟨s', hs'⟩ := h.fault_some hwanted hfine.pc hallowed hsys
    exact ⟨_, s', by simp, hs'⟩

/-- Before the access of a load or a store. -/
theorem Simulates.goes_on_access (h : Simulates T m₀ s f) (h₀ : Booted m₀.system)
    (hfiles : ∀ b, (m₀.system.memory.spaces b).mapped_files = [])
    (hu : s.machine.system.inUserCode T) {op : MemOp} {tmp : BitVec 32} {reg : Nat}
    {value : BitVec 32} (hphase : s.phase s.current = .access op tmp reg value)
    (hf : f.step (surroundings T m₀) s.current = some f')
    (hfine : f.Fine (surroundings T m₀) s.current std) :
    ∃ a s', (∀ mv, a ≠ .kernel mv) ∧ s.step T std a = some s' := by
  obtain ⟨w, hw, hf⟩ := Option.bind_eq_some_iff.mp hf
  obtain ⟨henc, rfl, htmp, -⟩ := h.begun _ _ _ _ hphase w hw
  rw [henc, operation_of_memory henc] at hf
  obtain ⟨hfree, hnpc, -, hlow⟩ := hfine.memory w op hw henc
  obtain rfl := htmp (hfree.imp id And.left)
  have hf : f.access (surroundings T m₀) s.current w op = some f' := hf
  unfold Flat.access at hf
  dsimp only at hf
  -- which access it is
  obtain ⟨hallowed, hmerge⟩ : Flat.Allowed (surroundings T m₀) s.current
      (f.address s.current w).toNat op.size op.storesAligned ∧ op.mergesWord = false := by
    by_cases hstore : op.storesAligned = true
    · rw [if_pos hstore] at hf
      split at hf
      · rename_i hallowed
        refine ⟨hstore ▸ hallowed, ?_⟩
        cases op <;> first | rfl | exact absurd hstore (by decide)
      · exact absurd hf (by simp)
    · rw [if_neg hstore] at hf
      obtain ⟨b, hb, hf⟩ := Option.bind_eq_some_iff.mp hf
      obtain ⟨x, hx, -⟩ := Option.bind_eq_some_iff.mp hf
      refine ⟨Bool.eq_false_of_not_eq_true hstore ▸ Flat.allowed_of_bytes hb, ?_⟩
      cases op <;> first | rfl | exact absurd hx (by simp [MemOp.result])
  rcases h.reach h₀ hfiles hu hallowed with ⟨m, x, ht⟩ | hfault
  · by_cases hstore : op.storesAligned = true
    · rw [hstore] at ht
      obtain ⟨s₁, hs₁⟩ : ∃ s₁, s.store T (f.address s.current w) op.size value = some s₁ :=
        store_some hu hlow op.size_cases ht
      have hsame := h.store hs₁
      obtain ⟨r, hr, -⟩ := (h.follows s.current).complete hnpc 0 0
      have hr' : complete s₁.regs 0 0 = some r := hsame.regs ▸ hr
      refine ⟨.memory, (s₁.setRegs r).setPhase .start, by simp, ?_⟩
      simp only [Running.step, hphase, Running.access, hstore, if_true, hs₁, Option.bind_eq_bind,
        Option.bind_some, Running.finish, hr']
    · rw [Bool.eq_false_of_not_eq_true hstore] at ht
      rw [if_neg hstore] at hf
      obtain ⟨b, hb, hf⟩ := Option.bind_eq_some_iff.mp hf
      obtain ⟨y, hy, -⟩ := Option.bind_eq_some_iff.mp hf
      obtain ⟨s₁, raw, hload⟩ := load_some hu hlow op.size_cases ht
      obtain ⟨hsame, hraw⟩ := h.load h₀ hfiles hload
      obtain rfl := hraw b hb
      obtain ⟨r, hr, -⟩ := (h.follows s.current).complete hnpc (rt w) y
      have hr' : complete s₁.regs (rt w).toNat y = some r := hsame.regs ▸ hr
      have hrefuses : op.refuses (f.address s.current w) = false := by
        have haligned := MMU.aligned_passes ⟨op.size_cases, hallowed.1⟩
        rw [not_or] at haligned
        cases op <;> simp_all [MemOp.refuses, MemOp.size]
      have hloaded : op.loaded std (s₁.loadedBefore (rt w).toNat)
          (m₀.mips_endianess.read op.size (readValue op.size b)) (f.address s.current w) =
            some y := loaded_result _ _ hy
      refine ⟨.memory, (s₁.setRegs r).setPhase .start, by simp, ?_⟩
      simp only [Running.step, hphase, Running.access, hstore, hmerge, hrefuses, if_false, hload,
        Option.bind_eq_bind, Option.bind_some, hloaded, Running.finish, hr', Bool.false_eq_true]
  · obtain ⟨sys, hsys⟩ := hfault fun _ => 0
    have hwanted : s.wanted = (f.address s.current w, op.size, op.storesAligned) := by
      unfold Running.wanted
      rw [hphase]
      dsimp only
      rw [hmerge, if_neg Bool.false_ne_true]
    obtain ⟨s', hs'⟩ := h.fault_some hwanted hlow hallowed hsys
    exact ⟨_, s', by simp, hs'⟩

end Steps

/-! ## The runs -/

/-- The thread whose instruction is completed by a step. -/
def executed : Running × Act → Option Vm.ThreadId
  | (s, .integer) => some s.current
  | (s, .memory) => some s.current
  | _ => none

/-- A page fault is not interrupted, and the swap area has room for what is evicted. -/
def Whole (x : Running × Act) : Prop := ∀ mv, x.2 = .kernel mv → Complete x.1.machine.system mv

/-- The machine has been started: no page is in a frame or in the swap area, no file is mapped,
    all threads are between two instructions, and the flat machine is in the same state. -/
structure Started (T : Threads) (s : Running) (f : Flat) : Prop where
  booted : Booted s.machine.system
  unmapped : ∀ b, (s.machine.system.memory.spaces b).mapped_files = []
  phase : ∀ t, s.phase t = .start
  registers : ∀ t, Follows (s.registers t) (f.core t)
  memory : f.memory = s.machine.system.memory.initialContents

section Runs

variable {T : Threads} {std : Edition} {s₀ s : Running} {f₀ f : Flat}

theorem Started.simulates (h : Started T s₀ f₀) : Simulates T s₀.machine s₀ f₀ where
  past := ⟨[], .nil, by simp, h.memory.symm⟩
  order := rfl
  follows := h.registers
  others t _ := h.phase t
  begun _ _ _ _ hp := absurd ((h.phase _).symm.trans hp) (by simp)

/-- A step that completes no instruction. -/
theorem Simulates.stutters {s' : Running} {a : Act} (h : Simulates T s₀.machine s f)
    (h₀ : Started T s₀ f₀) (hs : s.step T std a = some s') (hnone : executed (s, a) = none)
    (hw : Whole (s, a)) : Simulates T s₀.machine s' f := by
  cases a with
  | kernel mv => exact h.kernel hs (hw mv rfl)
  | fault buffer => exact h.fault hs
  | address => exact h.address h₀.booted h₀.unmapped hs
  | integer | memory => exact absurd hnone (by simp [executed])

/-- A step that completes the instruction of a thread. -/
theorem Simulates.executes {s' : Running} {a : Act} {t : Vm.ThreadId} {f' : Flat}
    (h : Simulates T s₀.machine s f) (h₀ : Started T s₀ f₀) (hs : s.step T std a = some s')
    (ht : executed (s, a) = some t) (hf : f.step (surroundings T s₀.machine) t = some f')
    (hfine : f.Fine (surroundings T s₀.machine) t std) : Simulates T s₀.machine s' f' := by
  cases a with
  | integer =>
    obtain rfl := Option.some.inj ht
    exact h.integer h₀.booted h₀.unmapped hs hf hfine
  | memory =>
    obtain rfl := Option.some.inj ht
    exact h.memory h₀.booted h₀.unmapped hs hf hfine
  | kernel | fault | address => exact absurd ht (by simp [executed])

/-- Step by step, the flat machine goes on whenever an instruction is completed. -/
theorem Started.run (h : Started T s₀ f₀) {tr : List (Running × Act)}
    (hr : Run (Running.step T std) s₀ tr s) (hw : ∀ x ∈ tr, Whole x) :
    ∀ ftr f, Run (Flat.step (surroundings T s₀.machine)) f₀ ftr f →
      ftr.map Prod.snd = tr.filterMap executed →
      (∀ x ∈ ftr, x.1.Fine (surroundings T s₀.machine) x.2 std) → Simulates T s₀.machine s f := by
  induction hr with
  | nil =>
    intro ftr f hf hacts hfine
    obtain rfl := List.map_eq_nil_iff.mp hacts
    obtain rfl := hf.state_unique .nil
    exact h.simulates
  | @snoc tr s s' a hr hs ih =>
    intro ftr f hf hacts hfine
    have ih' := ih fun x hx => hw x (List.mem_append_left _ hx)
    rw [List.filterMap_append] at hacts
    cases ha : executed (s, a) with
    | none =>
      have hsame : ftr.map Prod.snd = tr.filterMap executed := by simpa [ha] using hacts
      exact (ih' ftr f hf hsame hfine).stutters h hs ha (hw _ (by simp))
    | some t =>
      -- the last step of the flat machine is that of the thread
      obtain ⟨ftr, x, rfl⟩ : ∃ l x, ftr = l ++ [x] := by
        rcases List.eq_nil_or_concat ftr with rfl | ⟨l, x, rfl⟩
        · exact absurd hacts (by simp [ha])
        · exact ⟨l, x, by simp⟩
      have hlast : ftr.map Prod.snd = tr.filterMap executed ∧ x.2 = t := by
        simpa [ha, List.map_append] using hacts
      obtain ⟨hf, hstep⟩ := hf.of_snoc
      have hbefore := ih' ftr x.1 hf hlast.1 fun y hy => hfine y (List.mem_append_left _ hy)
      exact hbefore.executes h hs ha (hlast.2 ▸ hstep) (hlast.2 ▸ hfine x (by simp))

omit [VmConfig] in
/-- `lw $3, 4($0)` at address 0, and the word that it loads, in the executable file. -/
def loadProgram : Memory :=
  let _ := VmConfig.two
  newMemory (fun _ => newSpace 1 (fun _ => 0) [])
    fun _ => ⟨fun i => [4, 0, 3, 0x8c, 0x78, 0x56, 0x34, 0x12].getD i 0, 128, 128⟩

omit [VmConfig] in
def loadCpu : Cpu := ⟨fun _ => 0, rfl, 0, 0, 0, 4⟩

omit [VmConfig] in
def loadStarts : Running where
  machine := ⟨⟨loadProgram, 0, fun _ => none⟩, .IS_LITTLE_ENDIAN⟩
  registers _ := fun i => if i = NEXTPC_REG then 4 else 0
  phase _ := .start

omit [VmConfig] in
def loadFlat : Flat where
  core _ := ⟨loadCpu, 0⟩
  memory := let _ := VmConfig.two; loadProgram.initialContents

omit [VmConfig] in
/-- The page of the instruction is brought in, and the instruction loads from it. -/
def loadActs : List Act :=
  .fault (fun _ => 0) :: List.replicate 5 (.kernel .advance) ++ [.address, .memory]

omit [VmConfig] in
theorem started_load : @Started VmConfig.two fourThreads loadStarts loadFlat :=
  let _ := VmConfig.two
  have hrep : Represents (fun i => if i = NEXTPC_REG then 4 else 0) loadCpu :=
    ⟨by decide, rfl, rfl, rfl, rfl, rfl⟩
  { booted := booted_new (fun _ => 1) (fun _ _ => 0) fun _ => []
    unmapped := fun _ => rfl
    phase := fun _ => rfl
    registers := fun _ => hrep.follows 0
    memory := rfl }

omit [VmConfig] in
theorem load_fine : @Flat.Fine VmConfig.two (@surroundings fourThreads loadStarts.machine) loadFlat
    0 .cxx11 := by
  let _ := VmConfig.two
  have hw : Flat.instruction (surroundings fourThreads loadStarts.machine) loadFlat 0 =
      some 0x8c030004 := by decide +kernel
  refine ⟨rfl, fun w op h hop => ?_, fun w op h hop => ?_⟩
  · obtain rfl := Option.some.inj (hw.symm.trans h)
    have hnone : operation 0x8c030004 = none := by decide
    exact absurd (hnone.symm.trans hop) (by simp)
  · obtain rfl := Option.some.inj (hw.symm.trans h)
    exact ⟨Or.inl rfl, by decide, by decide, by decide⟩

omit [VmConfig] in
/-- The step is a whole one, as far as can be seen. -/
def wholeAt (x : Running × Act) : Bool :=
  match x.2 with
  | .kernel mv => completeAt (x.1.machine.system, mv)
  | _ => true

end Runs

end Mips
end Nachos
