/-
  Nachos.Kernel.Context

  The registers of the machine in `Scheduler::SwitchTo`.  A switch saves them in
  the context of the thread that leaves and loads those of the thread that comes;
  when the two are the same thread nothing is loaded.  So a thread that is resumed
  finds what it left.  A thread that is dispatched for the first time finds what
  `InitThreadContext` has written in its context, which is the integer registers:
  the floating point registers and the condition code are what the memory held
  when the `Thread` was allocated.

  The kernel is the one of `Nachos.Kernel.Thread`.  `main` runs in a thread of its
  own, whose last two acts are to start the first program and to finish.
-/

import Nachos.Kernel.Schedule

namespace Nachos

open Kernel
open Transition (Run)

abbrev NUM_INT_REGS : Nat := 40
abbrev NUM_FP_REGS : Nat := 32

/-- `threadContextT`. -/
structure ThreadContext where
  int_registers : Fin NUM_INT_REGS → BitVec 32
  float_registers : Fin NUM_FP_REGS → BitVec 32
  cc : BitVec 8

/-- The arguments of `Thread::Start`, and what `StackAllocate` returns for it. -/
structure StartArgs where
  func : BitVec 32
  arg : BitVec 32
  sp : BitVec 32
deriving DecidableEq

namespace StartArgs

/-- The integer registers that `InitThreadContext` writes: `PC_REG` is 34,
    `NEXTPC_REG` 35 and `STACK_REG` 29. -/
def registers (x : StartArgs) : Fin NUM_INT_REGS → BitVec 32 :=
  Function.update (Function.update (Function.update (Function.update (fun _ => 0)
    34 x.func) 35 (x.func + 4)) 4 x.arg) 29 x.sp

end StartArgs

/-- `Thread::InitThreadContext`. -/
def ThreadContext.initThreadContext (c : ThreadContext) (x : StartArgs) : ThreadContext :=
  { c with int_registers := x.registers }

/-- The kernel and the machine it runs on. -/
structure Processor where
  kernel : Kernel
  /-- The registers of `g_machine`. -/
  registers : ThreadContext
  /-- `mmu->translationTable`, by the process it belongs to. -/
  translationTable : Option ProcessId
  /-- `thread_context` of each thread; before the thread is allocated, what its
      memory holds. -/
  context : ThreadId → ThreadContext
  /-- `main` has started the first program. -/
  launched : Bool

namespace Processor

/-- What happens next on the machine. -/
inductive Event
  /-- A step of the kernel that starts no thread. -/
  | kernel (a : Action)
  | start (t : ThreadId) (owner : ProcessId) (x : StartArgs)
  /-- `main` points the MMU to the program's table, and starts it. -/
  | launch (t : ThreadId) (owner : ProcessId) (func sp : BitVec 32)
  /-- The current thread writes registers: an instruction of its program, or the
      kernel when it answers a call. -/
  | execute (r : ThreadContext)

/-- The boot is over; `memory` is what the threads' memory holds. -/
def booted (initialValue : SemId → Int) (registers : ThreadContext)
    (memory : ThreadId → ThreadContext) : Processor where
  kernel := Kernel.initialized initialValue
  registers := registers
  translationTable := none
  context := memory
  launched := false

/-- `Thread::SaveProcessorState`. -/
def saveProcessorState (s : Processor) (t : ThreadId) : Processor :=
  { s with context := Function.update s.context t s.registers }

/-- `Thread::RestoreProcessorState`; `none` when the thread has no process. -/
def restoreProcessorState (s : Processor) (t : ThreadId) : Option Processor :=
  (s.kernel.processOf t).map fun p =>
    { s with registers := s.context t, translationTable := some p }

/-- The registers in `Scheduler::SwitchTo`. -/
def switchTo (s : Processor) (nextThread : ThreadId) : Option Processor :=
  let oldThread := s.kernel.currentThread
  let s := s.saveProcessorState oldThread
  if oldThread ≠ nextThread then s.restoreProcessorState nextThread else some s

/-- `main` is at its end, and runs. -/
def mainEnds (s : Processor) : Bool :=
  s.launched && s.kernel.currentThread == 0 && !s.kernel.sleeping

/-- The kernel step can come next: at its end `main` only calls `Finish`. -/
def permits (s : Processor) : Action → Bool
  | .start _ _ => false
  | .finish | .interrupt _ => true
  | _ => !s.mainEnds

/-- The registers in a step of the kernel. -/
def handOver (s : Processor) (a : Action) : Option Processor :=
  match switched s.kernel a with
  | some nextThread => s.switchTo nextThread
  | none => some s

/-- A step of the kernel. -/
def kernelStep (s : Processor) (a : Action) : Option Processor :=
  (s.kernel.step a).bind fun k => (s.handOver a).map fun s => { s with kernel := k }

/-- `Thread::Start`. -/
def startThread (s : Processor) (t : ThreadId) (owner : ProcessId) (x : StartArgs) :
    Option Processor :=
  (s.kernel.step (.start t owner)).map fun k =>
    { s with kernel := k, context := Function.update s.context t ((s.context t).initThreadContext x) }

def step (s : Processor) : Event → Option Processor
  | .kernel a => if s.permits a then s.kernelStep a else none
  | .start t owner x =>
      if s.kernel.currentThread ≠ 0 then s.startThread t owner x else none
  | .launch t owner func sp =>
      if s.kernel.currentThread = 0 ∧ s.launched = false then
        let s : Processor := { s with translationTable := some owner, launched := true }
        s.startThread t owner ⟨func, -1, sp⟩
      else none
  | .execute r => if s.kernel.sleeping then none else some { s with registers := r }

/-! ## What is claimed -/

abbrev Moments := List (Processor × Event)

/-- The thread that is given the processor. -/
def dispatched (y : Processor × Event) : Option ThreadId :=
  match y.2 with
  | .kernel a => switched y.1.kernel a
  | _ => none

/-- The state in which thread `u` was switched out last. -/
def lastOut (tr : Moments) (u : ThreadId) : Option Processor :=
  ((tr.filter fun y => (dispatched y).isSome && y.1.kernel.currentThread == u).getLast?).map
    Prod.fst

/-- What thread `u` has been started with. -/
def startedWith (tr : Moments) (u : ThreadId) : Option StartArgs :=
  (tr.filterMap fun y =>
    match y.2 with
    | .start t _ x => if t = u then some x else none
    | .launch t _ func sp => if t = u then some ⟨func, -1, sp⟩ else none
    | _ => none).getLast?

/-- The last step gives the processor to thread `u`. -/
def Dispatches (tr : Moments) (u : ThreadId) : Prop :=
  ∃ y, tr.getLast? = some y ∧ dispatched y = some u

/-- A thread that is resumed finds what it left. -/
def Resumed (tr : Moments) (s : Processor) : Prop :=
  ∀ u o, Dispatches tr u → lastOut tr u = some o →
    s.registers = o.registers ∧ s.translationTable = o.translationTable

/-- The last step gives the processor to thread `u` for the first time. -/
structure FirstDispatch (tr : Moments) (u : ThreadId) (x : StartArgs) : Prop where
  dispatches : Dispatches tr u
  never : lastOut tr u = none
  startedWith : startedWith tr u = some x

/-- Two runs give the registers the same values where they dispatch, for the first time,
    threads that were started alike. -/
def SameRegisters (b₁ b₂ : Processor) (tr₁ tr₂ : Moments) : Prop :=
  ∀ p₁ p₂ s₁ s₂ u₁ u₂ x, p₁ <+: tr₁ → p₂ <+: tr₂ → Run step b₁ p₁ s₁ → Run step b₂ p₂ s₂ →
    FirstDispatch p₁ u₁ x → FirstDispatch p₂ u₂ x → s₁.registers = s₂.registers

/-- Threads that were started alike, and got the processor, were allocated where the memory
    held the same floating point registers and the same condition code. -/
def SameLeftovers (memory₁ memory₂ : ThreadId → ThreadContext) (tr₁ tr₂ : Moments) : Prop :=
  ∀ p₁ p₂ u₁ u₂ x, p₁ <+: tr₁ → p₂ <+: tr₂ → FirstDispatch p₁ u₁ x → FirstDispatch p₂ u₂ x →
    (memory₁ u₁).float_registers = (memory₂ u₂).float_registers ∧
      (memory₁ u₁).cc = (memory₂ u₂).cc

variable {s s' : Processor} {tr : Moments} {e : Event} {u : ThreadId} {x : StartArgs}

theorem lastOut_snoc : lastOut (tr ++ [(s, e)]) u =
    if (dispatched (s, e)).isSome ∧ s.kernel.currentThread = u then some s else lastOut tr u := by
  unfold lastOut
  rw [List.filter_append]
  split
  · rename_i h
    simp [h.1, h.2]
  · rename_i h
    have hno : ((dispatched (s, e)).isSome && s.kernel.currentThread == u) = false := by
      simpa only [Bool.and_eq_false_iff, beq_eq_false_iff_ne, ne_eq, not_and_or,
        Bool.not_eq_true] using h
    simp [hno]

theorem startedWith_snoc : startedWith (tr ++ [(s, e)]) u =
    match e with
    | .start t _ x => if t = u then some x else startedWith tr u
    | .launch t _ func sp => if t = u then some ⟨func, -1, sp⟩ else startedWith tr u
    | _ => startedWith tr u := by
  unfold startedWith
  rw [List.filterMap_append]
  cases e with
  | start t owner x => by_cases h : t = u <;> simp [h]
  | launch t owner func sp => by_cases h : t = u <;> simp [h]
  | _ => simp

/-! ## The invariant -/

/-- What holds in every state of a run from a boot with `memory`. -/
structure Inv (memory : ThreadId → ThreadContext) (tr : Moments) (s : Processor) : Prop where
  scheduled : ∃ h, Scheduled h s.kernel
  /-- Before it starts a program, `main` is alone. -/
  alone : s.launched = false → s.kernel.currentThread = 0 ∧ ∀ t ∈ s.kernel.alive, t = 0
  /-- Afterwards it is running its last lines, or it has finished. -/
  ends : s.launched = true → 0 ∈ s.kernel.alive →
    s.kernel.currentThread = 0 ∧ s.kernel.sleeping = false
  unstarted : ∀ u, s.kernel.processOf u = none → s.context u = memory u ∧
    startedWith tr u = none ∧ lastOut tr u = none
  fresh : ∀ u x, startedWith tr u = some x → lastOut tr u = none →
    s.context u = (memory u).initThreadContext x
  saved : ∀ u o, lastOut tr u = some o → s.context u = o.registers ∧
    (u ≠ 0 → o.translationTable = s.kernel.processOf u)
  table : s.kernel.currentThread ≠ 0 →
    s.translationTable = s.kernel.processOf s.kernel.currentThread
  current : s.kernel.processOf s.kernel.currentThread ≠ none

theorem booted_inv (initialValue : SemId → Int) (registers : ThreadContext)
    (memory : ThreadId → ThreadContext) : Inv memory [] (booted initialValue registers memory) where
  scheduled := ⟨[], initialized_scheduled initialValue⟩
  alone := fun _ => ⟨rfl, fun _ ht => List.mem_singleton.mp ht⟩
  ends := fun h => nomatch h
  unstarted := fun _ _ => ⟨rfl, rfl, rfl⟩
  fresh := fun _ _ h => nomatch h
  saved := fun _ _ h => nomatch h
  table := fun h => absurd rfl h
  current := by simp [booted, Kernel.initialized, processOf]

/-- The threads that a step can switch to are alive. -/
theorem Inv.alive_of_switched {memory : ThreadId → ThreadContext} (hI : Inv memory tr s)
    {a : Action} (hsw : switched s.kernel a = some u) : u ∈ s.kernel.alive := by
  obtain ⟨h, hs⟩ := hI.scheduled
  obtain ⟨loc, hp, -⟩ := hs.placed
  have hready : u ∈ s.kernel.readyList := by
    cases a with
    | yield => exact List.mem_of_head? hsw
    | dispatch => exact List.mem_of_head? hsw
    | _ => exact nomatch hsw
  exact hp.alive u .ready (hp.located.loc_of_mem hready)

/-- Once `main` has started the program, it is not switched to, and does not switch. -/
theorem Inv.main_gone {memory : ThreadId → ThreadContext} (hI : Inv memory tr s) {a : Action}
    {k : Kernel} (hk : s.kernel.step a = some k) (hper : s.permits a = true)
    (hsw : switched s.kernel a = some u) (hl : s.launched = true) : 0 ∉ s.kernel.alive := by
  intro hmem
  obtain ⟨hcur, hrun⟩ := hI.ends hl hmem
  have hends : s.mainEnds = true := by simp [mainEnds, hl, hcur, hrun]
  cases a with
  | yield => simp [permits, hends] at hper
  | dispatch => simp [permits, hends] at hper
  | _ => exact nomatch hsw

/-- Who is switched to is not `main`, unless nobody else is there. -/
theorem Inv.ne_main {memory : ThreadId → ThreadContext} (hI : Inv memory tr s) {a : Action}
    {k : Kernel} (hk : s.kernel.step a = some k) (hper : s.permits a = true)
    (hsw : switched s.kernel a = some u) (hne : s.kernel.currentThread ≠ u) : u ≠ 0 := by
  have halive := hI.alive_of_switched hsw
  cases hl : s.launched with
  | true =>
      rintro rfl
      exact hI.main_gone hk hper hsw hl halive
  | false =>
      obtain ⟨hcur, honly⟩ := hI.alone hl
      exact absurd (hcur.trans (honly u halive).symm) hne

/-- The running thread after a step of the kernel. -/
theorem currentThread_step {k k' : Kernel} {a : Action} (hs : Step k a k') :
    k'.currentThread = (switched k a).getD k.currentThread := by
  cases hs with
  | call hrun hc =>
      cases hc with
      | yieldAlone hr => simp [switched, hr]
      | yieldTo hr hsw =>
          obtain ⟨r, hsw⟩ := switchTo_switched hsw
          simp [switched, hr, hsw.currentThread]
      | semV => exact (semV_onlyWakes k _).currentThread
      | _ => rfl
  | @interrupt vs hrun hon => exact (handlers_onlyWakes (k.setStatus .off) vs).currentThread
  | idle hsleep hready => exact (handlers_onlyWakes k _).currentThread
  | dispatch hsleep hready hsw =>
      obtain ⟨r, hsw⟩ := switchTo_switched hsw
      simp [switched, hready, hsw.currentThread]

/-- A step of the kernel in the lines of `main` that end it. -/
theorem Inv.ends_step {memory : ThreadId → ThreadContext} (hI : Inv memory tr s) {a : Action}
    {k : Kernel} (hs : Step s.kernel a k) (hper : s.permits a = true)
    (hl : s.launched = true) (hmem : 0 ∈ k.alive) :
    k.currentThread = 0 ∧ k.sleeping = false := by
  obtain ⟨h, hsch⟩ := hI.scheduled
  obtain ⟨loc, hp, -⟩ := hsch.placed
  have hbefore : 0 ∈ s.kernel.alive ∧ a ≠ .finish := by
    obtain ⟨t, p, rfl, -⟩ | ⟨rfl, hrun, hrem, -⟩ | ⟨-, hnf, halive, -⟩ := hs.threads
    · simp [permits] at hper
    · obtain ⟨hold, hne⟩ := ((removeItem_nodup hp.nodup hrem).2 0).mp hmem
      exact absurd (hI.ends hl hold).1.symm hne
    · exact ⟨halive ▸ hmem, hnf⟩
  obtain ⟨hcur, hrun⟩ := hI.ends hl hbefore.1
  have hends : s.mainEnds = true := by simp [mainEnds, hl, hcur, hrun]
  cases a with
  | finish => exact absurd rfl hbefore.2
  | interrupt vs =>
      cases hs with
      | call _ hc => exact nomatch hc
      | interrupt _ _ =>
          have hv := handlers_onlyWakes (s.kernel.setStatus .off) vs
          exact ⟨hv.currentThread.trans hcur, hv.sleeping.trans hrun⟩
  | _ => simp [permits, hends] at hper

/-- The threads that are alive after a step that starts none were so before. -/
theorem alive_of_step {h : History} {k k' : Kernel} {a : Action} (hsch : Scheduled h k)
    (hs : Step k a k') (hstart : ∀ t p, a ≠ .start t p) {t : ThreadId} (ht : t ∈ k'.alive) :
    t ∈ k.alive := by
  obtain ⟨loc, hp, -⟩ := hsch.placed
  obtain ⟨u, p, rfl, -⟩ | ⟨rfl, -, hrem, -⟩ | ⟨-, -, halive, -⟩ := hs.threads
  · exact absurd rfl (hstart u p)
  · exact (((removeItem_nodup hp.nodup hrem).2 t).mp ht).1
  · exact halive ▸ ht

/-- A step that starts no thread gives none to a process. -/
theorem processOf_step {k k' : Kernel} {a : Action} (hs : Step k a k')
    (hstart : ∀ t p, a ≠ .start t p) : k'.processOf = k.processOf := by
  funext t
  obtain ⟨u, p, rfl, -⟩ | ⟨-, -, -, hproc⟩ | ⟨-, -, -, hproc⟩ := hs.threads
  · exact absurd rfl (hstart u p)
  · exact hproc t
  · exact hproc t

/-! ## The steps keep the invariant -/

/-- What a step of the kernel does to the registers. -/
inductive Hands (s : Processor) (a : Action) (k : Kernel) : Processor → Prop where
  | stays (h : switched s.kernel a = none) : Hands s a k { s with kernel := k }
  /-- To itself: `SwitchTo` saves and loads nothing. -/
  | itself (h : switched s.kernel a = some s.kernel.currentThread) :
      Hands s a k { s with
        kernel := k, context := Function.update s.context s.kernel.currentThread s.registers }
  | other {u : ThreadId} {p : ProcessId} (h : switched s.kernel a = some u)
      (hne : s.kernel.currentThread ≠ u) (hp : s.kernel.processOf u = some p) :
      Hands s a k { s with
        kernel := k
        registers := s.context u
        translationTable := some p
        context := Function.update s.context s.kernel.currentThread s.registers }

theorem kernelStep_cases {a : Action} (h : s.kernelStep a = some s') :
    ∃ k, Step s.kernel a k ∧ Hands s a k s' := by
  obtain ⟨k, hk, h⟩ := Option.bind_eq_some_iff.mp h
  obtain ⟨s₁, hs₁, rfl⟩ := Option.map_eq_some_iff.mp h
  refine ⟨k, step_cases hk, ?_⟩
  unfold handOver at hs₁
  cases hsw : switched s.kernel a with
  | none =>
      rw [hsw] at hs₁
      obtain rfl := Option.some.inj hs₁
      exact .stays hsw
  | some u =>
      simp only [hsw, switchTo] at hs₁
      split at hs₁
      · rename_i hne
        obtain ⟨p, hp, rfl⟩ := Option.map_eq_some_iff.mp hs₁
        -- The context that is loaded is not the one that has just been saved.
        have hload : (s.saveProcessorState s.kernel.currentThread).context u = s.context u :=
          Function.update_of_ne (Ne.symm hne) _ _
        rw [hload]
        exact .other hsw hne hp
      · rename_i heq
        obtain rfl := Option.some.inj hs₁
        rw [← not_ne_iff.mp heq] at hsw
        exact .itself hsw

/-- Saving the registers of the thread that leaves keeps what the invariant says of
    the contexts. -/
theorem Inv.save {memory : ThreadId → ThreadContext} (hI : Inv memory tr s) {a : Action}
    {k : Kernel} (hproc : k.processOf = s.kernel.processOf)
    (hsw : (switched s.kernel a).isSome) :
    let context := Function.update s.context s.kernel.currentThread s.registers
    let tr' := tr ++ [(s, Event.kernel a)]
    (∀ u, k.processOf u = none → context u = memory u ∧ startedWith tr' u = none ∧
      lastOut tr' u = none) ∧
    (∀ u x, startedWith tr' u = some x → lastOut tr' u = none →
      context u = (memory u).initThreadContext x) ∧
    ∀ u o, lastOut tr' u = some o → context u = o.registers ∧
      (u ≠ 0 → o.translationTable = k.processOf u) := by
  intro context tr'
  have hout : ∀ u, lastOut tr' u =
      if s.kernel.currentThread = u then some s else lastOut tr u := fun u => by
    simp only [tr', lastOut_snoc, dispatched, hsw, true_and]
  have hst : ∀ u, startedWith tr' u = startedWith tr u := fun u => startedWith_snoc
  have hctx : ∀ u, u ≠ s.kernel.currentThread → context u = s.context u :=
    fun u hne => Function.update_of_ne hne _ _
  refine ⟨fun u hu => ?_, fun u x hx hno => ?_, fun u o ho => ?_⟩
  · rw [hproc] at hu
    have hne : u ≠ s.kernel.currentThread := by
      rintro rfl
      exact hI.current hu
    rw [hout, if_neg (Ne.symm hne), hst, hctx u hne]
    exact hI.unstarted u hu
  · rw [hout] at hno
    split at hno
    · exact nomatch hno
    · rename_i hne
      rw [hctx u (Ne.symm hne)]
      exact hI.fresh u x (hst u ▸ hx) hno
  · rw [hout] at ho
    rw [hproc]
    split at ho
    · rename_i hcur
      obtain rfl := Option.some.inj ho
      subst hcur
      exact ⟨Function.update_self .., hI.table⟩
    · rename_i hne
      rw [hctx u (Ne.symm hne)]
      exact hI.saved u o ho

theorem Inv.kernel {memory : ThreadId → ThreadContext} (hI : Inv memory tr s) {a : Action}
    (hper : s.permits a = true) (h : s.kernelStep a = some s') :
    Inv memory (tr ++ [(s, .kernel a)]) s' := by
  obtain ⟨k, hs, hh⟩ := kernelStep_cases h
  obtain ⟨hist, hsch⟩ := hI.scheduled
  have hstart : ∀ t p, a ≠ .start t p := by
    rintro t p rfl
    simp [permits] at hper
  have hproc := processOf_step hs hstart
  have hcur := currentThread_step hs
  have hhist : ∃ h, Scheduled h k := ⟨_, hsch.step hs⟩
  -- Before a program is launched the main thread is alone, and stays so.
  have halone : s.launched = false → k.currentThread = 0 ∧ ∀ t ∈ k.alive, t = 0 := by
    intro hl
    obtain ⟨hmain, honly⟩ := hI.alone hl
    refine ⟨?_, fun t ht => honly t (alive_of_step hsch hs hstart ht)⟩
    cases hsw : switched s.kernel a with
    | none => simpa [hsw] using hcur.trans (by simpa [hsw] using hmain)
    | some u => simpa [hsw, honly u (hI.alive_of_switched hsw)] using hcur
  have hends := hI.ends_step hs hper
  cases hh with
  | stays hsw =>
      have hout : ∀ u, lastOut (tr ++ [(s, .kernel a)]) u = lastOut tr u := fun u => by
        simp [lastOut_snoc, dispatched, hsw]
      have hst : ∀ u, startedWith (tr ++ [(s, .kernel a)]) u = startedWith tr u :=
        fun u => startedWith_snoc
      have hc : k.currentThread = s.kernel.currentThread := by simpa [hsw] using hcur
      refine ⟨hhist, halone, hends, fun u hu => ?_, fun u x hx hno => ?_, fun u o ho => ?_, ?_, ?_⟩
      · rw [hout, hst]
        exact hI.unstarted u (hproc ▸ hu)
      · exact hI.fresh u x (hst u ▸ hx) (hout u ▸ hno)
      · rw [hproc]
        exact hI.saved u o (hout u ▸ ho)
      · rw [hc, hproc]
        exact hI.table
      · rw [hc, hproc]
        exact hI.current
  | itself hsw =>
      -- The thread comes back to itself: its context is saved and restored.
      obtain ⟨hun, hfr, hsv⟩ := hI.save (a := a) hproc (by simp [hsw])
      have hc : k.currentThread = s.kernel.currentThread := by simpa [hsw] using hcur
      refine ⟨hhist, halone, hends, hun, hfr, hsv, ?_, ?_⟩
      · rw [hc, hproc]
        exact hI.table
      · rw [hc, hproc]
        exact hI.current
  | @other u p hsw hne hp =>
      -- The context of the thread that goes on is restored, and its translation table set.
      obtain ⟨hun, hfr, hsv⟩ := hI.save (a := a) hproc (by simp [hsw])
      have hc : k.currentThread = u := by simpa [hsw] using hcur
      refine ⟨hhist, halone, hends, hun, hfr, hsv, fun _ => ?_, ?_⟩
      · rw [hc, hproc, hp]
      · rw [hc, hproc, hp]
        exact nofun

/-- `Thread::Start` in a state that differs from `s` in the MMU and the flag only. -/
theorem Inv.startThread {memory : ThreadId → ThreadContext} (hI : Inv memory tr s)
    {t : ThreadId} {owner : ProcessId} {table : Option ProcessId}
    (hst : ∀ u, startedWith (tr ++ [(s, e)]) u = if t = u then some x else startedWith tr u)
    (hno : dispatched (s, e) = none)
    (htable : s.kernel.currentThread ≠ 0 → table = s.kernel.processOf s.kernel.currentThread)
    (hmain : 0 ∈ s.kernel.alive → s.kernel.currentThread = 0)
    (h : { s with translationTable := table, launched := true : Processor }.startThread t owner x =
      some s') :
    Inv memory (tr ++ [(s, e)]) s' := by
  obtain ⟨k, hk, rfl⟩ := Option.map_eq_some_iff.mp h
  obtain ⟨hist, hsch⟩ := hI.scheduled
  have hs : Step s.kernel (.start t owner) k := step_cases hk
  -- Nothing is switched to, so that the last contexts saved are the same.
  have hout : ∀ u, lastOut (tr ++ [(s, e)]) u = lastOut tr u := fun u => by
    simp [lastOut_snoc, hno]
  obtain ⟨_, _, ha, hnone, halive, hproc⟩ | ⟨ha, -⟩ | ⟨hns, -⟩ := hs.threads
  · obtain ⟨rfl, rfl⟩ := Action.start.inj ha
    obtain ⟨hmem, -, hlast⟩ := hI.unstarted t hnone
    have hother : ∀ u, u ≠ t → k.processOf u = s.kernel.processOf u := fun u hu => by
      rw [hproc, if_neg hu]
    -- The main thread has a process already.
    have ht0 : t ≠ 0 := by
      rintro rfl
      exact (hsch.hasProcess 0).mp (Or.inl rfl) hnone
    have hcurt : s.kernel.currentThread ≠ t := by
      rintro rfl
      exact hI.current hnone
    have hrun : s.kernel.sleeping = false ∧ k.sleeping = false := by
      cases hs with
      | call hrun hc =>
          cases hc with
          | start _ _ _ _ _ => exact ⟨hrun, hrun⟩
    have hcur : k.currentThread = s.kernel.currentThread := currentThread_step hs
    refine ⟨⟨_, hsch.step hs⟩, nofun, fun _ h0 => ?_, fun u hu => ?_, fun u y hy hn => ?_,
      fun u o ho => ?_, ?_, ?_⟩
    · change 0 ∈ k.alive at h0
      rw [halive, List.mem_append, List.mem_singleton] at h0
      exact ⟨hcur.trans (hmain (h0.resolve_right (Ne.symm ht0))), hrun.2⟩
    · have hne : u ≠ t := by
        rintro rfl
        simp [hproc] at hu
      obtain ⟨h₁, h₂, h₃⟩ := hI.unstarted u (hother u hne ▸ hu)
      refine ⟨(Function.update_of_ne hne _ _).trans h₁, ?_, (hout u).trans h₃⟩
      rw [hst, if_neg (Ne.symm hne), h₂]
    · rw [hst] at hy
      split at hy
      · -- The thread that is started has not run, and its context is still its memory.
        rename_i htu
        subst htu
        obtain rfl := Option.some.inj hy
        show Function.update s.context t ((s.context t).initThreadContext x) t = _
        rw [Function.update_self, hmem]
      · rename_i htu
        exact (Function.update_of_ne (Ne.symm htu) _ _).trans (hI.fresh u y hy (hout u ▸ hn))
    · rw [hout] at ho
      have hne : u ≠ t := by
        rintro rfl
        exact nomatch hlast.symm.trans ho
      obtain ⟨h₁, h₂⟩ := hI.saved u o ho
      exact ⟨(Function.update_of_ne hne _ _).trans h₁, fun h0 => (h₂ h0).trans (hother u hne).symm⟩
    · intro hc
      rw [hcur] at hc ⊢
      exact (htable hc).trans (hother _ hcurt).symm
    · rw [hcur, hother _ hcurt]
      exact hI.current
  · exact nomatch ha
  · exact absurd rfl (hns t owner)

theorem Inv.step {memory : ThreadId → ThreadContext} (hI : Inv memory tr s)
    (h : s.step e = some s') : Inv memory (tr ++ [(s, e)]) s' := by
  cases e with
  | kernel a =>
      simp only [Processor.step] at h
      split at h
      · rename_i hper
        exact hI.kernel hper h
      · exact nomatch h
  | start t owner x =>
      simp only [Processor.step] at h
      split at h
      · rename_i hcur
        -- Only `main` runs before it has started the first program.
        have hl : s.launched = true := by
          by_contra hl
          exact hcur (hI.alone (Bool.not_eq_true _ ▸ hl)).1
        have hsame :
            { s with translationTable := s.translationTable, launched := true : Processor } = s := by
          rw [← hl]
        exact hI.startThread (fun u => startedWith_snoc) rfl hI.table
          (fun h0 => (hI.ends hl h0).1) (hsame.symm ▸ h)
      · exact nomatch h
  | launch t owner func sp =>
      simp only [Processor.step] at h
      split at h
      · rename_i hmain
        exact hI.startThread (fun u => startedWith_snoc) rfl (fun hc => absurd hmain.1 hc)
          (fun _ => hmain.1) h
      · exact nomatch h
  | execute r =>
      simp only [Processor.step] at h
      split at h
      · exact nomatch h
      · obtain rfl := Option.some.inj h
        have hout : ∀ u, lastOut (tr ++ [(s, .execute r)]) u = lastOut tr u :=
          fun u => by simp [lastOut_snoc, dispatched]
        have hst : ∀ u, startedWith (tr ++ [(s, .execute r)]) u = startedWith tr u :=
          fun u => startedWith_snoc
        exact ⟨hI.scheduled, hI.alone, hI.ends,
          fun u hu => ⟨(hI.unstarted u hu).1, (hst u).trans (hI.unstarted u hu).2.1,
            (hout u).trans (hI.unstarted u hu).2.2⟩,
          fun u y hy hn => hI.fresh u y (hst u ▸ hy) (hout u ▸ hn),
          fun u o ho => hI.saved u o (hout u ▸ ho), hI.table, hI.current⟩

theorem inv_of_run {initialValue : SemId → Int} {registers : ThreadContext}
    {memory : ThreadId → ThreadContext}
    (h : Run step (booted initialValue registers memory) tr s) : Inv memory tr s := by
  induction h with
  | nil => exact booted_inv initialValue registers memory
  | snoc _ hs ih => exact ih.step hs

/-! ## What a thread finds when it is given the processor -/

/-- The last step of a run that gives the processor to `u`. -/
theorem exists_of_dispatches {b : Processor} (hr : Run step b tr s) (hd : Dispatches tr u) :
    ∃ tr₁ s₁ a, tr = tr₁ ++ [(s₁, .kernel a)] ∧ Run step b tr₁ s₁ ∧ s₁.permits a = true ∧
      s₁.kernelStep a = some s ∧ switched s₁.kernel a = some u := by
  obtain ⟨⟨s₁, e⟩, hlast, hu⟩ := hd
  obtain ⟨tr₁, rfl⟩ := List.getLast?_eq_some_iff.mp hlast
  obtain ⟨hr₁, hs⟩ := Run.of_snoc hr
  cases e with
  | kernel a =>
      simp only [Processor.step] at hs
      split at hs
      · rename_i hper
        exact ⟨tr₁, s₁, a, rfl, hr₁, hper, hs, hu⟩
      · exact nomatch hs
  | _ => exact nomatch hu

section Boot

variable {initialValue : SemId → Int} {registers : ThreadContext}
  {memory : ThreadId → ThreadContext}

/-- A thread that is resumed finds what it left. -/
theorem resumed_of_run (hr : Run step (booted initialValue registers memory) tr s) :
    Resumed tr s := by
  intro u o hd ho
  obtain ⟨tr₁, s₁, a, rfl, hr₁, hper, hs, hsw⟩ := exists_of_dispatches hr hd
  have hI := inv_of_run hr₁
  obtain ⟨k, hk, hh⟩ := kernelStep_cases hs
  simp only [lastOut_snoc, dispatched, hsw, Option.isSome_some, true_and] at ho
  cases hh with
  | stays h => exact nomatch h.symm.trans hsw
  | itself h =>
      obtain rfl := Option.some.inj (h.symm.trans hsw)
      rw [if_pos rfl] at ho
      obtain rfl := Option.some.inj ho
      exact ⟨rfl, rfl⟩
  | @other v p h hne hp =>
      obtain rfl := Option.some.inj (h.symm.trans hsw)
      rw [if_neg hne] at ho
      obtain ⟨hreg, htable⟩ := hI.saved v o ho
      -- `main` is not resumed by another thread, so `v` has left with its own table.
      obtain ⟨k₁, hk₁, -⟩ := Option.bind_eq_some_iff.mp hs
      exact ⟨hreg, ((htable (hI.ne_main hk₁ hper hsw hne)).trans hp).symm⟩

/-- A thread that is dispatched for the first time finds what `InitThreadContext` has made
    of its memory. -/
theorem registers_of_firstDispatch (hr : Run step (booted initialValue registers memory) tr s)
    (hf : FirstDispatch tr u x) : s.registers = (memory u).initThreadContext x := by
  obtain ⟨hd, hnever, hstarted⟩ := hf
  obtain ⟨tr₁, s₁, a, rfl, hr₁, hper, hs, hsw⟩ := exists_of_dispatches hr hd
  have hI := inv_of_run hr₁
  obtain ⟨k, hk, hh⟩ := kernelStep_cases hs
  simp only [lastOut_snoc, dispatched, hsw, Option.isSome_some, true_and] at hnever
  rw [startedWith_snoc] at hstarted
  cases hh with
  | stays h => exact nomatch h.symm.trans hsw
  | itself h =>
      obtain rfl := Option.some.inj (h.symm.trans hsw)
      exact nomatch (if_pos rfl).symm.trans hnever
  | @other v p h hne hp =>
      obtain rfl := Option.some.inj (h.symm.trans hsw)
      rw [if_neg hne] at hnever
      exact hI.fresh v x hstarted hnever

end Boot

/-- What `InitThreadContext` leaves depends on its arguments and on what it does not write. -/
theorem initThreadContext_eq_iff {c c' : ThreadContext} :
    c.initThreadContext x = c'.initThreadContext x ↔
      c.float_registers = c'.float_registers ∧ c.cc = c'.cc := by
  simp [ThreadContext.initThreadContext]

/-- In two runs, every thread that is resumed finds what it left, and threads that were
    started alike find the same registers when they are dispatched for the first time, if and
    only if the memory they were allocated in held the same floating point registers and
    condition code. -/
theorem dispatched_registers_iff {initialValue₁ initialValue₂ : SemId → Int}
    {registers₁ registers₂ : ThreadContext} {memory₁ memory₂ : ThreadId → ThreadContext}
    {tr₁ tr₂ : Moments} {s₁ s₂ : Processor}
    (h₁ : Run step (booted initialValue₁ registers₁ memory₁) tr₁ s₁)
    (h₂ : Run step (booted initialValue₂ registers₂ memory₂) tr₂ s₂) :
    (Run.Always step (booted initialValue₁ registers₁ memory₁) Resumed tr₁ ∧
      Run.Always step (booted initialValue₂ registers₂ memory₂) Resumed tr₂ ∧
      SameRegisters (booted initialValue₁ registers₁ memory₁)
        (booted initialValue₂ registers₂ memory₂) tr₁ tr₂) ↔
    SameLeftovers memory₁ memory₂ tr₁ tr₂ := by
  constructor
  · rintro ⟨-, -, hsame⟩ p₁ p₂ u₁ u₂ x hp₁ hp₂ hf₁ hf₂
    obtain ⟨t₁, ht₁⟩ := h₁.exists_prefix hp₁
    obtain ⟨t₂, ht₂⟩ := h₂.exists_prefix hp₂
    have hreg := hsame p₁ p₂ t₁ t₂ u₁ u₂ x hp₁ hp₂ ht₁ ht₂ hf₁ hf₂
    rw [registers_of_firstDispatch ht₁ hf₁, registers_of_firstDispatch ht₂ hf₂] at hreg
    exact initThreadContext_eq_iff.mp hreg
  · intro hleft
    refine ⟨fun _ _ _ hr => resumed_of_run hr, fun _ _ _ hr => resumed_of_run hr, ?_⟩
    intro p₁ p₂ t₁ t₂ u₁ u₂ x hp₁ hp₂ ht₁ ht₂ hf₁ hf₂
    rw [registers_of_firstDispatch ht₁ hf₁, registers_of_firstDispatch ht₂ hf₂]
    exact initThreadContext_eq_iff.mpr (hleft p₁ p₂ u₁ u₂ x hp₁ hp₂ hf₁ hf₂)

/-- A context all of whose registers are zero, but for the first floating point one. -/
private def leftover (f : BitVec 32) : ThreadContext :=
  ⟨fun _ => 0, fun i => if i = 0 then f else 0, 0⟩

/-- `main` starts a program and finishes; its thread is dispatched. -/
private def firstProgram : List Event :=
  [.kernel (.newProcess 1), .kernel (.newThread 1), .launch 1 1 0x400 0x7ffc, .kernel .finish,
    .kernel .dispatch]

private theorem firstProgram_run (f : BitVec 32) (hf : f = 0 ∨ f = 1) :
    ∃ tr s, Run step (booted (fun _ => 0) (leftover 0) (fun _ => leftover f)) tr s ∧
      FirstDispatch tr 1 ⟨0x400, -1, 0x7ffc⟩ ∧ s.registers.float_registers 0 = f ∧
      s.kernel.currentThread = 1 := by
  have hrun : ((Transition.exec step (booted (fun _ => 0) (leftover 0) (fun _ => leftover f))
      firstProgram).map fun y => (y.1.getLast?.bind dispatched, (lastOut y.1 1).isNone,
        startedWith y.1 1, y.2.registers.float_registers 0, y.2.kernel.currentThread)) =
      some (some 1, true, some ⟨0x400, -1, 0x7ffc⟩, f, 1) := by
    rcases hf with rfl | rfl <;> decide +kernel
  obtain ⟨⟨tr, s⟩, hexec, hy⟩ := Option.map_eq_some_iff.mp hrun
  simp only [Prod.mk.injEq] at hy
  obtain ⟨hlast, hnever, hstarted, hfloat, hcur⟩ := hy
  exact ⟨tr, s, Transition.run_of_exec hexec,
    ⟨Option.bind_eq_some_iff.mp hlast, Option.isNone_iff_eq_none.mp hnever, hstarted⟩,
    hfloat, hcur⟩

/-- In memory that is all zero. -/
theorem dispatched_registers_zeroed :
    ∃ tr s, Run step (booted (fun _ => 0) (leftover 0) (fun _ => leftover 0)) tr s ∧
      s.kernel.currentThread = 1 ∧
      SameRegisters (booted (fun _ => 0) (leftover 0) (fun _ => leftover 0))
        (booted (fun _ => 0) (leftover 0) (fun _ => leftover 0)) tr tr := by
  obtain ⟨tr, s, hr, -, -, hcur⟩ := firstProgram_run 0 (Or.inl rfl)
  exact ⟨tr, s, hr, hcur,
    ((dispatched_registers_iff hr hr).mpr fun _ _ _ _ _ _ _ _ _ => ⟨rfl, rfl⟩).2.2⟩

/-- The same program, started in other memory, finds another floating point register. -/
theorem dispatched_registers_fails :
    ¬ ∀ (initialValue₁ initialValue₂ : SemId → Int) (registers₁ registers₂ : ThreadContext)
        (memory₁ memory₂ : ThreadId → ThreadContext) (tr₁ tr₂ : Moments) (s₁ s₂ : Processor),
      Run step (booted initialValue₁ registers₁ memory₁) tr₁ s₁ →
      Run step (booted initialValue₂ registers₂ memory₂) tr₂ s₂ →
      Resumed tr₁ s₁ ∧ Resumed tr₂ s₂ ∧
        SameRegisters (booted initialValue₁ registers₁ memory₁)
          (booted initialValue₂ registers₂ memory₂) tr₁ tr₂ := by
  intro h
  obtain ⟨tr₁, s₁, hr₁, hf₁, hfloat₁, -⟩ := firstProgram_run 0 (Or.inl rfl)
  obtain ⟨tr₂, s₂, hr₂, hf₂, hfloat₂, -⟩ := firstProgram_run 1 (Or.inr rfl)
  have hsame := (h _ _ _ _ _ _ tr₁ tr₂ s₁ s₂ hr₁ hr₂).2.2 tr₁ tr₂ s₁ s₂ 1 1 _
    (List.prefix_refl _) (List.prefix_refl _) hr₁ hr₂ hf₁ hf₂
  rw [hsame, hfloat₂] at hfloat₁
  exact absurd hfloat₁ (by decide)

end Processor

end Nachos
