/-
  Nachos.Machine.Levels

  The interrupt level over whole runs of the machine.  `Instr.effect` says what a
  statement makes of the level and in which levels it may be executed at all,
  `flow` what a piece of code does; every body of a function flows back to the
  levels it was called with.  The invariant is that all kernel stacks are balanced
  for `flow`: the current one in the present levels, the others in the levels
  `SwitchTo` runs at.
-/

import Nachos.Lib.CallStack
import Nachos.Machine.Simulator

namespace Nachos

open CallStack

/-- The levels at which the processor changes hands. -/
def Levels.switching : Levels := ⟨.off, false⟩

/-- An operation may be called by the kernel at either level, and by a handler if
    it is one of those that only call `V`. -/
def Op.callable : Op → Levels → Bool
  | .semV _, a | .putAChar _, a => !a.inHandler || a.level = .off
  | _, a => !a.inHandler

/-- What a statement makes of the variable `oldLevel` and of the levels, where it
    may be executed. -/
def Instr.effect (o : IntStatus) (a : Levels) : Instr → Option (IntStatus × Levels)
  | .getStatus => some (a.level, a)
  | .setStatus now =>
      if now = .off ∨ a.inHandler = false then some (o, ⟨now, a.inHandler⟩) else none
  | .restoreStatus =>
      if o = .off ∨ a.inHandler = false then some (o, ⟨o, a.inHandler⟩) else none
  | .changeLevel now => if a.inHandler = false then some (o, ⟨now, false⟩) else none
  | .call op => if op.callable a then some (o, a) else none
  | .semTest _ | .lockTest _ | .sleep | .yieldNext | .assertSleep | .findNext | .switchTo _
  | .callCheckIfDue _ | .whileFired | .haltUnlessFired | .assertCheckIfDue | .takeDue _ =>
      if a = .switching then some (o, a) else none
  | .destroyFinished | .leaveProcess _ | .yieldIfAsked | .kernel =>
      if a.inHandler = false then some (o, a) else none
  | .assertOneTick | .systemCall | .run => if a = ⟨.on, false⟩ then some (o, a) else none
  | .enterHandler => if a = .switching then some (o, ⟨.off, true⟩) else none
  | .handler => if a = ⟨.off, true⟩ then some (o, a) else none
  | .leaveHandler => if a = ⟨.off, true⟩ then some (o, .switching) else none
  | _ => some (o, a)

/-- The levels at the end of a piece of code. -/
def flow : List Instr → IntStatus → Levels → Option Levels
  | [], _, a => some a
  | i :: code, o, a => (i.effect o a).bind fun x => flow code x.1 x.2

def Frame.ends (f : Frame) (a : Levels) : Option Levels := flow f.code f.oldLevel a

/-! ## Every function gives back the levels it is called with -/

theorem flow_op {op : Op} {o : IntStatus} {a : Levels} (h : op.callable a = true) :
    flow op.code o a = some a := by
  obtain ⟨l, b⟩ := a
  cases op <;> cases l <;> cases b <;> first | rfl | exact nomatch h

theorem callable_of_kernel {op : Op} {a : Levels} (h : a.inHandler = false) :
    op.callable a = true := by
  cases op <;> simp [Op.callable, h]

theorem flow_oneTick {n : Nat} {o : IntStatus} :
    flow (Code.oneTick n) o ⟨.on, false⟩ = some ⟨.on, false⟩ := rfl

theorem flow_idle {o : IntStatus} : flow Code.idle o .switching = some .switching := rfl

theorem flow_checkIfDue {b : Bool} {o : IntStatus} :
    flow (Code.checkIfDue b) o .switching = some .switching := rfl

theorem flow_sleep {o : IntStatus} : flow Code.sleep o .switching = some .switching := rfl

theorem flow_switchTo {t : ThreadId} {o : IntStatus} :
    flow (Code.switchTo t) o .switching = some .switching := rfl

theorem flow_deleteThread {t : ThreadId} {o l : IntStatus} :
    flow (Code.deleteThread t) o ⟨l, false⟩ = some ⟨l, false⟩ := by
  cases l <;> rfl

theorem flow_raiseException {o : IntStatus} :
    flow Code.raiseException o ⟨.on, false⟩ = some ⟨.on, false⟩ := rfl

theorem flow_kernel {o l : IntStatus} : flow [.kernel] o ⟨l, false⟩ = some ⟨l, false⟩ := rfl

/-- The call of a handler, put before the rest of the code, changes nothing. -/
theorem flow_fire {code : List Instr} {o : IntStatus} :
    flow (Code.fire ++ code) o .switching = flow code o .switching := rfl

/-! ## The invariant -/

/-- The `ASSERT`s on the interrupt level. -/
def Assertion.onLevel : Assertion → Bool
  | .setStatus | .oneTick | .checkIfDue | .sleep => true
  | .isHeldByCurrentThread | .processNull | .fromNow => false

namespace Simulator

variable {m m₁ m' : Simulator} {f g : Frame} {rest : List Frame} {i : Instr} {code : List Instr}
  {a : Levels}

/-- Every kernel stack is balanced, and no `ASSERT` on the level has failed. -/
structure Leveled (m : Simulator) : Prop where
  balanced : Parked Frame.ends Frame.entry .switching m.currentThread m.context m.levels m.stack
  asserts : ∀ x, m.failed = some x → x.onLevel = false

/-- What a statement does aside from the level and the kernel stacks. -/
structure Aside (m m₁ : Simulator) : Prop where
  levels : m₁.levels = m.levels
  currentThread : m₁.currentThread = m.currentThread
  context : m₁.context = m.context
  failed : m₁.failed = m.failed

theorem Aside.refl (m : Simulator) : Aside m m := ⟨rfl, rfl, rfl, rfl⟩

theorem aside_semPost (m : Simulator) (s : SemId) : Aside m (m.semPost s) := by
  unfold semPost
  dsimp only
  split
  · exact ⟨rfl, rfl, rfl, rfl⟩
  · exact ⟨rfl, rfl, rfl, rfl⟩

theorem aside_lockPass (m : Simulator) (l : LockId) : Aside m (m.lockPass l) := by
  unfold lockPass
  dsimp only
  split
  · exact ⟨rfl, rfl, rfl, rfl⟩
  · exact ⟨rfl, rfl, rfl, rfl⟩

theorem aside_condNext (m : Simulator) (c : CondId) : Aside m (m.condNext c) := by
  unfold condNext
  split
  · exact Aside.refl m
  · exact ⟨rfl, rfl, rfl, rfl⟩

theorem aside_foldl_readyToRun (m : Simulator) (l : List ThreadId) :
    Aside m (l.foldl readyToRun m) := by
  induction l generalizing m with
  | nil => exact Aside.refl m
  | cons t l ih =>
      -- One more thread on the ready list is nothing to the rest.
      obtain ⟨h₁, h₂, h₃, h₄⟩ := ih (m.readyToRun t)
      exact ⟨h₁, h₂, h₃, h₄⟩

theorem aside_condAll (m : Simulator) (c : CondId) : Aside m (m.condAll c) := by
  obtain ⟨h₁, h₂, h₃, h₄⟩ :=
    aside_foldl_readyToRun (m.setCondition c ⟨[]⟩) (m.condition c).waitqueue
  exact ⟨h₁, h₂, h₃, h₄⟩

/-- The top frame may execute its statement, and stays balanced past it. -/
theorem effect_of_balanced (h : Balanced Frame.ends Frame.entry a (f :: rest))
    (hcode : f.code = i :: code) :
    ∃ x, i.effect f.oldLevel a = some x ∧
      Balanced Frame.ends Frame.entry x.2 ({ f with code := code, oldLevel := x.1 } :: rest) := by
  have hflow : f.ends a = (i.effect f.oldLevel a).bind fun x => flow code x.1 x.2 := by
    simp only [Frame.ends, hcode, flow]
  cases hx : i.effect f.oldLevel a with
  | none =>
      have hsome := h.isSome
      simp [hflow, hx] at hsome
  | some x =>
      refine ⟨x, rfl, h.replace ?_ rfl⟩
      rw [hflow, hx]
      rfl

theorem Leveled.goOn (h : Leveled m) (ha : Aside m m₁)
    (hb : Balanced Frame.ends Frame.entry m.levels (g :: rest)) : Leveled (m₁.goOn g rest) := by
  refine ⟨⟨?_, ?_⟩, ?_⟩
  · show Balanced Frame.ends Frame.entry m₁.levels (g :: rest)
    rwa [ha.levels]
  · show ∀ t, t ≠ m₁.currentThread → _
    rw [ha.currentThread]
    intro t ht
    show Balanced Frame.ends Frame.entry .switching (m₁.context t)
    rw [ha.context]
    exact h.balanced.parked t ht
  · show ∀ x, m₁.failed = some x → _
    rw [ha.failed]
    exact h.asserts

theorem Leveled.enter (h : Leveled m) (ha : Aside m m₁)
    (hb : Balanced Frame.ends Frame.entry m.levels (g :: rest))
    (hcode : flow code m₁.level m.levels = some m.levels) : Leveled (m₁.enter code g rest) := by
  have hgo := h.goOn ha hb
  refine ⟨⟨?_, hgo.balanced.parked⟩, hgo.asserts⟩
  show Balanced Frame.ends Frame.entry m₁.levels
    (⟨code, m₁.level, m₁.status, m₁.levels⟩ :: g :: rest)
  have hends : Frame.ends ⟨code, m₁.level, m₁.status, m₁.levels⟩ m₁.levels = some m₁.levels := by
    rw [ha.levels]
    exact hcode
  exact Balanced.push hgo.balanced.running hends rfl

theorem Leveled.fail {x : Assertion} (h : Leveled m) (hx : x.onLevel = false) :
    Leveled (m.fail x) := by
  refine ⟨h.balanced, fun y hy => ?_⟩
  obtain rfl := Option.some.inj hy
  exact hx

/-- `SetStatus` gives the level it is asked for, by way of `OneTick` where it turns
    interrupts on. -/
theorem Leveled.setStatus {now : IntStatus} (h : Leveled m)
    (hhandler : now = .off ∨ m.inHandler = false)
    (hb : Balanced Frame.ends Frame.entry ⟨now, m.inHandler⟩ (g :: rest)) :
    Leveled (m.setStatus now g rest) := by
  have hlevel : Leveled ({ m with level := now }.goOn g rest) :=
    ⟨h.balanced.run hb, h.asserts⟩
  unfold Simulator.setStatus
  rw [if_pos hhandler]
  dsimp only
  split
  · rename_i htick
    -- `OneTick` is called with interrupts on, and not by a handler.
    have hout : m.inHandler = false := by
      rcases hhandler with hoff | hout
      · exact nomatch hoff.symm.trans htick.1
      · exact hout
    refine ⟨hlevel.balanced.run (Balanced.push hb ?_ rfl), hlevel.asserts⟩
    rw [htick.1, hout]
    exact flow_oneTick
  · exact hlevel

/-- The levels at which an effect is `some` of the levels themselves. -/
private theorem of_guard {p : Prop} [Decidable p] {o : IntStatus} {x : IntStatus × Levels}
    (h : (if p then some (o, a) else none) = some x) : p ∧ x = (o, a) := by
  split at h
  · exact ⟨‹p›, (Option.some.inj h).symm⟩
  · exact nomatch h

theorem Leveled.leaveProcess {t : ThreadId} (h : Leveled m) (hout : m.inHandler = false)
    (hb : Balanced Frame.ends Frame.entry m.levels (g :: rest))
    (he : m.leaveProcess t g rest = some m') : Leveled m' := by
  obtain ⟨p, -, he⟩ := Option.bind_eq_some_iff.mp he
  obtain rfl := Option.some.inj he
  have hleft : Leveled { m with
      numThreads := Function.update m.numThreads p (m.numThreads p - 1)
      context := Function.update m.context t [] } :=
    ⟨h.balanced.update .nil, h.asserts⟩
  split
  · refine hleft.enter (Aside.refl _) hb ?_
    show flow [.kernel] m.level ⟨m.level, m.inHandler⟩ = some ⟨m.level, m.inHandler⟩
    rw [hout]
    exact flow_kernel
  · exact hleft.goOn (Aside.refl _) hb

theorem Leveled.switchTo {t : ThreadId} (h : Leveled m) (hlevels : m.levels = .switching)
    (hb : Balanced Frame.ends Frame.entry m.levels (g :: rest)) :
    Leveled (m.switchTo t g rest) := by
  have hgo : Leveled (m.goOn g rest) := h.goOn (Aside.refl m) hb
  unfold Simulator.switchTo
  dsimp only
  split
  · exact hgo
  · rename_i hne
    have hpark : Parked Frame.ends Frame.entry .switching m.currentThread m.context .switching
        (g :: rest) := hlevels ▸ hgo.balanced
    refine ⟨?_, h.asserts⟩
    show Parked Frame.ends Frame.entry .switching t
      (Function.update m.context m.currentThread (g :: rest)) m.levels (m.context t)
    rw [hlevels]
    exact hpark.switch (Ne.symm hne)

theorem Leveled.start {t : ThreadId} {p : ProcessId} (h : Leveled m)
    (hb : Balanced Frame.ends Frame.entry m.levels (g :: rest)) :
    Leveled ((m.start t p).goOn g rest) :=
  ⟨(h.balanced.update (Balanced.base rfl)).run hb, h.asserts⟩

/-- A statement of a kernel function keeps the invariant. -/
theorem exec_leveled (h : Leveled m) (hs : m.stack = f :: rest) (hcode : f.code = i :: code)
    (he : m.exec { f with code := code } rest i = some m') : Leveled m' := by
  have hrun : Balanced Frame.ends Frame.entry m.levels (f :: rest) := hs ▸ h.balanced.running
  obtain ⟨x, hx, hb⟩ := effect_of_balanced hrun hcode
  cases i with
  | getStatus =>
      obtain rfl := Option.some.inj hx
      obtain rfl := Option.some.inj he
      exact h.goOn (Aside.refl m) hb
  | setStatus now =>
      obtain ⟨hout, rfl⟩ := of_guard hx
      obtain rfl := Option.some.inj he
      exact h.setStatus hout hb
  | restoreStatus =>
      obtain ⟨hout, rfl⟩ := of_guard hx
      obtain rfl := Option.some.inj he
      exact h.setStatus hout hb
  | semTest s =>
      obtain ⟨hlevels, rfl⟩ := of_guard hx
      simp only [exec] at he
      split at he
      · obtain rfl := Option.some.inj he
        exact h.enter ⟨rfl, rfl, rfl, rfl⟩ hb (hlevels ▸ flow_sleep)
      · obtain rfl := Option.some.inj he
        exact h.goOn (Aside.refl m) hb
  | semTake s =>
      obtain rfl := Option.some.inj hx
      obtain rfl := Option.some.inj he
      exact h.goOn ⟨rfl, rfl, rfl, rfl⟩ hb
  | semPost s =>
      obtain rfl := Option.some.inj hx
      obtain rfl := Option.some.inj he
      exact h.goOn (aside_semPost m s) hb
  | lockTest l =>
      obtain ⟨hlevels, rfl⟩ := of_guard hx
      simp only [exec] at he
      split at he
      · obtain rfl := Option.some.inj he
        exact h.enter ⟨rfl, rfl, rfl, rfl⟩ hb (hlevels ▸ flow_sleep)
      · obtain rfl := Option.some.inj he
        exact h.goOn ⟨rfl, rfl, rfl, rfl⟩ hb
  | lockPass l =>
      obtain rfl := Option.some.inj hx
      simp only [exec] at he
      split at he
      · obtain rfl := Option.some.inj he
        exact h.goOn (aside_lockPass m l) hb
      · obtain rfl := Option.some.inj he
        exact h.fail rfl
  | condNext c =>
      obtain rfl := Option.some.inj hx
      obtain rfl := Option.some.inj he
      exact h.goOn (aside_condNext m c) hb
  | condAll c =>
      obtain rfl := Option.some.inj hx
      obtain rfl := Option.some.inj he
      exact h.goOn (aside_condAll m c) hb
  | call o =>
      obtain ⟨hcall, rfl⟩ := of_guard hx
      obtain rfl := Option.some.inj he
      exact h.enter (Aside.refl m) hb (flow_op hcall)
  | sleep =>
      obtain ⟨hlevels, rfl⟩ := of_guard hx
      obtain rfl := Option.some.inj he
      exact h.enter (Aside.refl m) hb (hlevels ▸ flow_sleep)
  | start t owner =>
      obtain rfl := Option.some.inj hx
      simp only [exec] at he
      split at he
      · obtain rfl := Option.some.inj he
        exact h.start hb
      · obtain rfl := Option.some.inj he
        exact h.fail rfl
  | markFinished =>
      obtain rfl := Option.some.inj hx
      obtain ⟨alive, -, he⟩ := Option.bind_eq_some_iff.mp he
      obtain rfl := Option.some.inj he
      exact h.goOn ⟨rfl, rfl, rfl, rfl⟩ hb
  | yieldNext =>
      obtain ⟨hlevels, rfl⟩ := of_guard hx
      simp only [exec] at he
      split at he
      · obtain rfl := Option.some.inj he
        exact h.goOn (Aside.refl m) hb
      · obtain rfl := Option.some.inj he
        exact h.enter ⟨rfl, rfl, rfl, rfl⟩ hb (hlevels ▸ flow_switchTo)
  | assertSleep =>
      obtain ⟨hlevels, rfl⟩ := of_guard hx
      have hoff : m.level = .off := congrArg Levels.level hlevels
      simp only [exec, hoff] at he
      obtain rfl := Option.some.inj he
      exact h.goOn (Aside.refl m) hb
  | findNext =>
      obtain ⟨hlevels, rfl⟩ := of_guard hx
      simp only [exec] at he
      split at he
      · obtain rfl := Option.some.inj he
        -- The loop goes round: `findNext` is still to be executed.
        have hagain : ({ f with code := .findNext :: code } : Frame) = f := by
          rw [← hcode]
        refine h.enter (Aside.refl m) ?_ (hlevels ▸ flow_idle)
        exact hagain ▸ hrun
      · obtain rfl := Option.some.inj he
        exact h.enter ⟨rfl, rfl, rfl, rfl⟩ hb (hlevels ▸ flow_switchTo)
  | switchTo t =>
      obtain ⟨hlevels, rfl⟩ := of_guard hx
      obtain rfl := Option.some.inj he
      exact h.switchTo hlevels hb
  | destroyFinished =>
      obtain ⟨hout, rfl⟩ := of_guard hx
      simp only [exec] at he
      split at he
      · obtain rfl := Option.some.inj he
        exact h.goOn (Aside.refl m) hb
      · obtain rfl := Option.some.inj he
        refine h.enter ⟨rfl, rfl, rfl, rfl⟩ hb ?_
        have hlevels : m.levels = ⟨m.level, false⟩ := by
          rw [← hout]
          rfl
        rw [hlevels]
        exact flow_deleteThread
  | leaveProcess t =>
      obtain ⟨hout, rfl⟩ := of_guard hx
      exact h.leaveProcess hout hb he
  | assertOneTick =>
      obtain ⟨hlevels, rfl⟩ := of_guard hx
      have hon : m.level = .on := congrArg Levels.level hlevels
      simp only [exec, hon] at he
      obtain rfl := Option.some.inj he
      exact h.goOn (Aside.refl m) hb
  | incrTicks n =>
      obtain rfl := Option.some.inj hx
      obtain rfl := Option.some.inj he
      exact h.goOn ⟨rfl, rfl, rfl, rfl⟩ hb
  | changeLevel now =>
      simp only [Instr.effect] at hx
      split at hx
      · rename_i hout
        obtain rfl := Option.some.inj hx
        obtain rfl := Option.some.inj he
        refine ⟨h.balanced.run ?_, h.asserts⟩
        show Balanced Frame.ends Frame.entry ⟨now, m.inHandler⟩ _
        have hout' : m.inHandler = false := hout
        rw [hout']
        exact hb
      · exact nomatch hx
  | callCheckIfDue b =>
      obtain ⟨hlevels, rfl⟩ := of_guard hx
      obtain rfl := Option.some.inj he
      exact h.enter (Aside.refl m) hb (hlevels ▸ flow_checkIfDue)
  | whileFired =>
      obtain ⟨hlevels, rfl⟩ := of_guard hx
      simp only [exec] at he
      split at he
      · obtain rfl := Option.some.inj he
        refine h.goOn (Aside.refl m) (hb.replace ?_ rfl)
        rw [hlevels]
        rfl
      · obtain rfl := Option.some.inj he
        exact h.goOn (Aside.refl m) hb
  | yieldIfAsked =>
      obtain ⟨hout, rfl⟩ := of_guard hx
      simp only [exec] at he
      split at he
      · obtain rfl := Option.some.inj he
        refine h.enter ⟨rfl, rfl, rfl, rfl⟩ (hb.replace rfl rfl) (flow_op ?_)
        show (!m.inHandler) = true
        have hout' : m.inHandler = false := hout
        rw [hout']
        rfl
      · obtain rfl := Option.some.inj he
        exact h.goOn (Aside.refl m) hb
  | setMachineStatus st =>
      obtain rfl := Option.some.inj hx
      obtain rfl := Option.some.inj he
      exact h.goOn ⟨rfl, rfl, rfl, rfl⟩ hb
  | haltUnlessFired =>
      obtain ⟨hlevels, rfl⟩ := of_guard hx
      simp only [exec] at he
      split at he
      · obtain rfl := Option.some.inj he
        exact h.goOn (Aside.refl m) hb
      · obtain rfl := Option.some.inj he
        exact ⟨h.balanced, h.asserts⟩
  | forgetYield =>
      obtain rfl := Option.some.inj hx
      obtain rfl := Option.some.inj he
      exact h.goOn ⟨rfl, rfl, rfl, rfl⟩ hb
  | assertCheckIfDue =>
      obtain ⟨hlevels, rfl⟩ := of_guard hx
      have hoff : m.level = .off := congrArg Levels.level hlevels
      simp only [exec, hoff] at he
      obtain rfl := Option.some.inj he
      exact h.goOn (Aside.refl m) hb
  | saveMachineStatus =>
      obtain rfl := Option.some.inj hx
      obtain rfl := Option.some.inj he
      exact h.goOn (Aside.refl m) (hb.replace rfl rfl)
  | restoreMachineStatus =>
      obtain rfl := Option.some.inj hx
      obtain rfl := Option.some.inj he
      exact h.goOn ⟨rfl, rfl, rfl, rfl⟩ hb
  | takeDue b =>
      obtain ⟨hlevels, rfl⟩ := of_guard hx
      simp only [exec] at he
      split at he
      · obtain rfl := Option.some.inj he
        refine h.goOn ⟨rfl, rfl, rfl, rfl⟩ (hb.replace ?_ rfl)
        rw [hlevels]
        exact flow_fire
      · obtain rfl := Option.some.inj he
        exact h.goOn ⟨rfl, rfl, rfl, rfl⟩ hb
  | enterHandler =>
      simp only [Instr.effect] at hx
      split at hx
      · rename_i hlevels
        obtain rfl := Option.some.inj hx
        obtain rfl := Option.some.inj he
        have hoff : m.level = .off := congrArg Levels.level hlevels
        refine ⟨h.balanced.run ?_, h.asserts⟩
        show Balanced Frame.ends Frame.entry ⟨m.level, true⟩ _
        rw [hoff]
        exact hb
      · exact nomatch hx
  | leaveHandler =>
      simp only [Instr.effect] at hx
      split at hx
      · rename_i hlevels
        obtain rfl := Option.some.inj hx
        obtain rfl := Option.some.inj he
        have hoff : m.level = .off := congrArg Levels.level hlevels
        refine ⟨h.balanced.run ?_, h.asserts⟩
        show Balanced Frame.ends Frame.entry ⟨m.level, false⟩ _
        rw [hoff]
        exact hb
      · exact nomatch hx
  | kernel => exact nomatch he
  | systemCall => exact nomatch he
  | handler => exact nomatch he
  | run => exact nomatch he

theorem Leveled.schedule {n : Int} {ty : IntType} (h : Leveled m) : Leveled (m.schedule n ty) := by
  unfold Simulator.schedule
  split
  · exact ⟨h.balanced, h.asserts⟩
  · exact h.fail rfl

/-- Whatever the code above does keeps the invariant. -/
theorem choose_leveled {mv : Move} (h : Leveled m) (hs : m.stack = f :: rest)
    (hcode : f.code = i :: code)
    (he : m.choose f { f with code := code } rest i mv = some m') : Leveled m' := by
  have hrun : Balanced Frame.ends Frame.entry m.levels (f :: rest) := hs ▸ h.balanced.running
  obtain ⟨x, hx, hb⟩ := effect_of_balanced hrun hcode
  unfold choose at he
  split at he
  · obtain ⟨-, rfl⟩ := of_guard hx
    obtain rfl := Option.some.inj he
    exact h.goOn (Aside.refl m) hb
  · rename_i o
    obtain ⟨hout, rfl⟩ := of_guard hx
    obtain rfl := Option.some.inj he
    exact h.enter (Aside.refl m) hrun (flow_op (callable_of_kernel hout))
  · obtain rfl := Option.some.inj he
    exact h.schedule
  · obtain ⟨-, rfl⟩ := of_guard hx
    obtain rfl := Option.some.inj he
    exact h.goOn (Aside.refl m) hb
  · obtain ⟨hlevels, rfl⟩ := of_guard hx
    obtain rfl := Option.some.inj he
    exact h.enter (Aside.refl m) hrun (flow_op (callable_of_kernel (hlevels ▸ rfl)))
  · obtain rfl := Option.some.inj he
    exact h.schedule
  · obtain ⟨hlevels, rfl⟩ := of_guard hx
    obtain rfl := Option.some.inj he
    exact h.enter (Aside.refl m) hrun (hlevels ▸ flow_oneTick)
  · obtain ⟨-, rfl⟩ := of_guard hx
    obtain rfl := Option.some.inj he
    exact h.goOn (Aside.refl m) hb
  · obtain ⟨hlevels, rfl⟩ := of_guard hx
    obtain rfl := Option.some.inj he
    exact h.enter (Aside.refl m) hrun (flow_op (hlevels ▸ rfl))
  · obtain ⟨hlevels, rfl⟩ := of_guard hx
    obtain rfl := Option.some.inj he
    exact h.enter (Aside.refl m) hrun (flow_op (hlevels ▸ rfl))
  · obtain rfl := Option.some.inj he
    exact h.schedule
  · obtain rfl := Option.some.inj he
    exact ⟨h.balanced, h.asserts⟩
  · obtain ⟨hlevels, rfl⟩ := of_guard hx
    obtain rfl := Option.some.inj he
    exact h.enter ⟨rfl, rfl, rfl, rfl⟩ hrun (hlevels ▸ flow_oneTick)
  · obtain ⟨hlevels, rfl⟩ := of_guard hx
    obtain rfl := Option.some.inj he
    exact h.enter (Aside.refl m) hrun (hlevels ▸ flow_raiseException)
  · exact nomatch he

/-- One step keeps the invariant. -/
theorem step_leveled {mv : Move} (h : Leveled m) (hstep : m.step mv = some m') : Leveled m' := by
  obtain ⟨-, -, f, rest, hs, hcase⟩ := step_cases hstep
  rcases hcase with ⟨hnil, rfl⟩ | ⟨i, code, hcode, hchoose | hexec⟩
  · -- A frame without statements returns.
    have hrun : Balanced Frame.ends Frame.entry m.levels (f :: rest) := hs ▸ h.balanced.running
    refine ⟨h.balanced.run (hrun.pop ?_), h.asserts⟩
    simp only [Frame.ends, hnil, flow]
  · exact choose_leveled h hs hcode hchoose
  · exact exec_leveled h hs hcode hexec

theorem leveled_initialized (initialValue : SemId → Int) : Leveled (initialized initialValue) :=
  ⟨⟨.base rfl, fun _ _ => .nil⟩, fun _ hx => nomatch hx⟩

/-- The invariant holds in every state the machine reaches. -/
theorem leveled_of_run {initialValue : SemId → Int} {tr : List (Simulator × Move)}
    (hr : Transition.Run step (initialized initialValue) tr m) : Leveled m :=
  hr.invariant (leveled_initialized initialValue) fun _ _ _ h hs => step_leveled h hs

/-! ## What the invariant says of a state -/

theorem effect_of_top {i : Instr} (h : Leveled m) (hi : m.top = some i) :
    ∃ o, (i.effect o m.levels).isSome := by
  obtain ⟨f, hf, hi⟩ := Option.bind_eq_some_iff.mp hi
  obtain ⟨code, hcode⟩ : ∃ code, f.code = i :: code := by
    cases hc : f.code with
    | nil => simp [hc] at hi
    | cons j code =>
        rw [hc] at hi
        exact ⟨code, by rw [Option.some.inj hi]⟩
  obtain ⟨rest, hrest⟩ : ∃ rest, m.stack = f :: rest := by
    cases hs : m.stack with
    | nil => simp [hs] at hf
    | cons g rest =>
        rw [hs] at hf
        exact ⟨rest, by rw [Option.some.inj hf]⟩
  obtain ⟨x, hx, -⟩ := effect_of_balanced (hrest ▸ h.balanced.running) hcode
  exact ⟨f.oldLevel, by simp [hx]⟩

/-- In every state of a run: `SwitchTo` is entered with interrupts off; a call that is about
    to return finds the level its caller had on entry; user instructions are executed with
    interrupts on; and no `ASSERT` on the level has failed. -/
theorem interrupt_levels {initialValue : SemId → Int} {tr : List (Simulator × Move)}
    (hr : Transition.Run step (initialized initialValue) tr m) :
    (∀ t, m.top = some (.switchTo t) → m.level = .off) ∧
      (∀ f g rest, m.stack = f :: g :: rest → f.code = [] → m.level = f.entry.level) ∧
      (m.top = some .run → m.level = .on) ∧
      ∀ x, m.failed = some x → x.onLevel = false := by
  have h := leveled_of_run hr
  refine ⟨fun t ht => ?_, fun f g rest hs hnil => ?_, fun hrun => ?_, h.asserts⟩
  · obtain ⟨o, ho⟩ := effect_of_top h ht
    have hlevels : m.levels = .switching := by simpa [Instr.effect] using ho
    exact congrArg Levels.level hlevels
  · have hb : Balanced Frame.ends Frame.entry m.levels (f :: g :: rest) :=
      hs ▸ h.balanced.running
    have hends : f.ends m.levels = some m.levels := by
      simp only [Frame.ends, hnil, flow]
    exact (congrArg Levels.level (hb.entry_eq hends)).symm
  · obtain ⟨o, ho⟩ := effect_of_top h hrun
    have hlevels : m.levels = ⟨.on, false⟩ := by simpa [Instr.effect] using ho
    exact congrArg Levels.level hlevels

/-- Thread 0 starts thread 1 and waits for a semaphore; the handler of an interrupt
    counts it up while thread 1 executes user instructions, and thread 1 yields. -/
private def waitForHandler : List Move :=
  List.flatten
    [List.replicate 14 .next, [.call (.start 1 0)], List.replicate 18 .next,
      [.schedule 50 .disk, .call (.semP 0)], List.replicate 21 .next, [.oneTick 60],
      List.replicate 10 .next, [.call (.semV 0)], List.replicate 19 .next,
      [.raiseException, .next, .call .yield], List.replicate 22 .next]

/-- Thread 0 is back, about to return from `P`, at the level it called `P` at. -/
theorem interrupt_levels_blocked :
    ∃ (tr : List (Simulator × Move)) (m : Simulator),
      Transition.Run step (initialized fun _ => 0) tr m ∧ m.currentThread = 0 ∧
      ∃ f g, m.stack = [f, g] ∧ f.code = [] ∧ f.entry.level = .on ∧ m.level = f.entry.level := by
  obtain ⟨⟨tr, m⟩, he, hx⟩ := Option.map_eq_some_iff.mp
    (show (Transition.exec step (initialized fun _ => 0) waitForHandler).map
        (fun x => (x.2.currentThread, x.2.stack.map fun f => (f.code, f.entry.level))) =
      some (0, [([], .on), ([.kernel, .call .finish], .off)]) by decide +kernel)
  obtain ⟨hcur, hstack⟩ := Prod.mk.inj hx
  obtain ⟨f, rest, hs, hf, hrest⟩ := List.map_eq_cons_iff.mp hstack
  obtain ⟨g, rest', hs', -, hrest'⟩ := List.map_eq_cons_iff.mp hrest
  obtain rfl := List.map_eq_nil_iff.mp hrest'
  subst hs'
  have hr := Transition.run_of_exec he
  obtain ⟨hcode, hentry⟩ := Prod.mk.inj hf
  exact ⟨tr, m, hr, hcur, f, g, hs, hcode, hentry, (interrupt_levels hr).2.1 f g [] hs hcode⟩

end Simulator

end Nachos
