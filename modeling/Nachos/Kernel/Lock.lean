/-
  Nachos.Kernel.Lock

  One lock over all schedules.  `Release` hands the lock to the first sleeper
  before that thread runs: between the hand-over and the return from `Acquire`
  the new owner is on the ready list and nobody holds the lock.
-/

import Nachos.Kernel.Schedule

namespace Nachos
namespace Kernel

open Transition

/-- `Acquire` on `l` returns to a thread that was asleep in it. -/
def returnsInAcquire (l : LockId) : Option Resume → Bool
  | some (.lockAcquire l' _) => l' == l
  | _ => false

/-- The thread that a step returns to from a blocked `Acquire` on `l`. -/
def resumedIn (l : LockId) (k : Kernel) (a : Action) : Option ThreadId :=
  if returnsInAcquire l (returning k a) then switched k a else none

/-- The thread that returns from `Acquire` on `l` in a step, at once or later. -/
def acquires (l : LockId) (k : Kernel) (a : Action) : Option ThreadId :=
  if a = .lockAcquire l ∧ (k.lock l).free = true then some k.currentThread else resumedIn l k a

/-- The thread that blocks in `Acquire` on `l` in a step. -/
def blocksIn (l : LockId) (k : Kernel) (a : Action) : Option ThreadId :=
  if a = .lockAcquire l ∧ (k.lock l).free = false then some k.currentThread else none

/-- The thread a step hands `l` to. -/
def passedTo (l : LockId) (k : Kernel) (a : Action) : Option ThreadId :=
  if a = .lockRelease l then (k.lock l).sleepqueue.head? else none

/-- The blocked `Acquire` calls, in the order of the calls. -/
def blockedCalls (l : LockId) (tr : History) : List ThreadId :=
  tr.filterMap fun x => blocksIn l x.1 x.2

/-- The threads `Release` handed the lock to, in order. -/
def handedOver (l : LockId) (tr : History) : List ThreadId :=
  tr.filterMap fun x => passedTo l x.1 x.2

/-- The returns of blocked `Acquire` calls, in order. -/
def blockedReturns (l : LockId) (tr : History) : List ThreadId :=
  tr.filterMap fun x => resumedIn l x.1 x.2

/-- What one step does to whether `t` holds the lock. -/
def holdsAfter (l : LockId) (t : ThreadId) (b : Bool) (k : Kernel) (a : Action) : Bool :=
  if acquires l k a = some t then true
  else if a = .lockRelease l ∧ k.currentThread = t then false
  else b

/-- Thread `t` has returned from `Acquire` and not called `Release` since. -/
def holds (l : LockId) (tr : History) (t : ThreadId) : Bool :=
  tr.foldl (fun b x => holdsAfter l t b x.1 x.2) false

@[simp] theorem blockedCalls_snoc (l : LockId) (tr : History) (k : Kernel) (a : Action) :
    blockedCalls l (tr ++ [(k, a)]) = blockedCalls l tr ++ (blocksIn l k a).toList := by
  cases h : blocksIn l k a <;> simp [blockedCalls, h]

@[simp] theorem handedOver_snoc (l : LockId) (tr : History) (k : Kernel) (a : Action) :
    handedOver l (tr ++ [(k, a)]) = handedOver l tr ++ (passedTo l k a).toList := by
  cases h : passedTo l k a <;> simp [handedOver, h]

@[simp] theorem blockedReturns_snoc (l : LockId) (tr : History) (k : Kernel) (a : Action) :
    blockedReturns l (tr ++ [(k, a)]) = blockedReturns l tr ++ (resumedIn l k a).toList := by
  cases h : resumedIn l k a <;> simp [blockedReturns, h]

@[simp] theorem holds_snoc (l : LockId) (tr : History) (k : Kernel) (a : Action) (t : ThreadId) :
    holds l (tr ++ [(k, a)]) t = holdsAfter l t (holds l tr t) k a := by
  simp [holds]

/-! ## The invariant -/

/-- The invariant of one lock against the history.  `pend` is the thread that
    owns the lock and has not run since it was handed over, if there is one. -/
structure LockInv (l : LockId) (tr : History) (k : Kernel) (pend : Option ThreadId) : Prop where
  calls : blockedCalls l tr = handedOver l tr ++ (k.lock l).sleepqueue
  returns : handedOver l tr = blockedReturns l tr ++ pend.toList
  free_iff : (k.lock l).free = true ↔ (k.lock l).owner = none
  free_empty : (k.lock l).free = true → (k.lock l).sleepqueue = []
  owner : ∀ t, holds l tr t = true → (k.lock l).owner = some t
  pending : ∀ t, pend = some t → (k.lock l).owner = some t ∧ t ∈ k.readyList ∧
    (∃ o, k.resumeOf t = some (.lockAcquire l o)) ∧ ∀ u, holds l tr u = false
  ready : ∀ t ∈ k.readyList, ∀ o, k.resumeOf t = some (.lockAcquire l o) → pend = some t

/-- Steps that are not about `l`: no call on it, and no return into one. -/
structure Apart (l : LockId) (k : Kernel) (a : Action) : Prop where
  acquire : a ≠ .lockAcquire l
  release : a ≠ .lockRelease l
  resume : returnsInAcquire l (returning k a) = false

/-- A step that is not about `l` leaves it as it was. -/
theorem Step.lock_apart {k k' : Kernel} {a : Action} (hs : Step k a k') {l : LockId}
    (ha : Apart l k a) : k'.lock l = k.lock l := by
  cases hs with
  | call hrun hc =>
      cases hc with
      | yieldTo hr hsw =>
          obtain ⟨r, hsw⟩ := switchTo_switched hsw
          exact congrFun hsw.lock l
      | semV => exact congrFun (semV_onlyWakes _ _).lock l
      | @lockTake l' _ =>
          have hne : l ≠ l' := fun he => ha.acquire (he ▸ rfl)
          simp [setLock, hne]
      | @lockBlock l' _ =>
          have hne : l ≠ l' := fun he => ha.acquire (he ▸ rfl)
          simp [setLock, asleep, saveResume, hne]
      | @lockFree l' _ _ =>
          have hne : l ≠ l' := fun he => ha.release (he ▸ rfl)
          simp [setLock, hne]
      | @lockPass l' _ _ _ _ =>
          have hne : l ≠ l' := fun he => ha.release (he ▸ rfl)
          simp [setLock, readyToRun, hne]
      | _ => rfl
  | interrupt hrun hon => exact congrFun (handlers_onlyWakes (k.setStatus .off) _).lock l
  | idle hsleep hready => exact congrFun (handlers_onlyWakes k _).lock l
  | dispatch hsleep hready hsw =>
      obtain ⟨r, hsw⟩ := switchTo_switched hsw
      exact congrFun hsw.lock l

/-! ## The history after a step -/

section Effects

variable {l : LockId} {k : Kernel} {a : Action}

theorem Apart.blocksIn (h : Apart l k a) : blocksIn l k a = none := by
  simp [Kernel.blocksIn, h.acquire]

theorem Apart.passedTo (h : Apart l k a) : passedTo l k a = none := by
  simp [Kernel.passedTo, h.release]

theorem Apart.resumedIn (h : Apart l k a) : resumedIn l k a = none := by
  simp [Kernel.resumedIn, h.resume]

theorem Apart.holdsAfter (h : Apart l k a) (t : ThreadId) (b : Bool) :
    holdsAfter l t b k a = b := by
  simp [Kernel.holdsAfter, acquires, h.acquire, h.release, h.resumedIn]

end Effects

/-- A thread that is ready to return from `Acquire` after a step was so before,
    or is the one the step passes the lock to. -/
theorem Step.ready_acquiring {k k' : Kernel} {a : Action} {loc : ThreadId → Option Place}
    (hs : Step k a k') (hp : PlacedAt k loc) (hw : NoneQueued k) {l : LockId} {t : ThreadId}
    (ht : t ∈ k'.readyList) {o : IntStatus} (hr : k'.resumeOf t = some (.lockAcquire l o)) :
    (t ∈ k.readyList ∧ switched k a ≠ some t ∧ k.resumeOf t = some (.lockAcquire l o)) ∨
      (a = .lockRelease l ∧ ∃ rest, (k.lock l).sleepqueue = t :: rest) := by
  rcases hs.readied hp hw ht with
    ⟨hm, hsw, hsame⟩ | ⟨p, -, hr'⟩ | ⟨o', -, hr'⟩ | ⟨s, o', hr'⟩ | ⟨l', rest, o', ha, hq, hr'⟩
  · exact Or.inl ⟨hm, hsw, hsame.symm.trans hr⟩
  · simp [hr'] at hr
  · simp [hr'] at hr
  · simp [hr'] at hr
  · obtain ⟨rfl, -⟩ : l' = l ∧ o' = o := by simpa [hr'] using hr
    exact Or.inr ⟨ha, rest, hq⟩

namespace LockInv

variable {l : LockId} {tr : History} {k k' : Kernel} {a : Action} {pend : Option ThreadId}
  {loc : ThreadId → Option Place}

/-- While a hand-over is pending, the running thread is not the owner. -/
theorem pend_none (h : LockInv l tr k pend) (hp : PlacedAt k loc) (hrun : k.sleeping = false)
    (ho : (k.lock l).owner = some k.currentThread) : pend = none := by
  cases hpend : pend with
  | none => rfl
  | some t =>
      obtain ⟨hown, hready, -, -⟩ := h.pending t hpend
      obtain rfl : t = k.currentThread := Option.some.inj (hown.symm.trans ho)
      exact absurd hready (hp.current_not_ready hrun)

/-- While the lock is free, no hand-over is pending and nobody holds it. -/
theorem of_free (h : LockInv l tr k pend) (hf : (k.lock l).free = true) :
    pend = none ∧ ∀ t, holds l tr t = false := by
  have hnone := h.free_iff.mp hf
  refine ⟨?_, fun t => ?_⟩
  · cases hpend : pend with
    | none => rfl
    | some t =>
        have hown := (h.pending t hpend).1
        rw [hnone] at hown
        cases hown
  · cases ht : holds l tr t with
    | false => rfl
    | true =>
        have hown := h.owner t ht
        rw [hnone] at hown
        cases hown

/-- Ready threads after a step that passes the lock to nobody. -/
theorem ready_step (h : LockInv l tr k pend) (hp : PlacedAt k loc) (hw : NoneQueued k)
    (hs : Step k a k') (hne : a ≠ .lockRelease l ∨ (k.lock l).sleepqueue = []) :
    ∀ t ∈ k'.readyList, ∀ o, k'.resumeOf t = some (.lockAcquire l o) →
      pend = some t ∧ switched k a ≠ some t := by
  intro t ht o hr
  rcases hs.ready_acquiring hp hw ht hr with ⟨hm, hsw, hr⟩ | ⟨ha, rest, hq⟩
  · exact ⟨h.ready t hm o hr, hsw⟩
  · rcases hne with hne | hne
    · exact absurd ha hne
    · simp [hq] at hne

/-- A pending hand-over stays pending while its thread is not switched to. -/
theorem pending_step (h : LockInv l tr k pend) (hp : PlacedAt k loc) (hs : Step k a k')
    {t : ThreadId} (ht : pend = some t) (hsw : switched k a ≠ some t) :
    t ∈ k'.readyList ∧ ∃ o, k'.resumeOf t = some (.lockAcquire l o) := by
  obtain ⟨-, hready, ⟨o, hr⟩, -⟩ := h.pending t ht
  have hmem : t ∈ k.members .ready := hready
  have hsame := hs.resumeOf_same hp (hp.alive t .ready (hp.located.loc_of_mem hmem))
    (hp.not_current hmem (by simp))
  exact ⟨hs.stays_ready hready hsw, o, hsame.trans hr⟩

theorem apart (h : LockInv l tr k pend) (hp : PlacedAt k loc) (hw : NoneQueued k)
    (hs : Step k a k') (ha : Apart l k a) : LockInv l (tr ++ [(k, a)]) k' pend := by
  have hlock := hs.lock_apart ha
  refine ⟨?_, ?_, ?_, ?_, ?_, ?_, ?_⟩
  · rw [blockedCalls_snoc, handedOver_snoc, ha.blocksIn, ha.passedTo, hlock]
    simpa using h.calls
  · rw [blockedReturns_snoc, handedOver_snoc, ha.resumedIn, ha.passedTo]
    simpa using h.returns
  · rw [hlock]
    exact h.free_iff
  · rw [hlock]
    exact h.free_empty
  · intro t ht
    rw [holds_snoc, ha.holdsAfter] at ht
    rw [hlock]
    exact h.owner t ht
  · intro t ht
    obtain ⟨hown, -, ⟨o, hr⟩, hnot⟩ := h.pending t ht
    have hsw : switched k a ≠ some t := by
      intro hsw
      have := ha.resume
      simp [returning, hsw, hr, returnsInAcquire] at this
    obtain ⟨hready, hres⟩ := h.pending_step hp hs ht hsw
    refine ⟨by rw [hlock]; exact hown, hready, hres, fun u => ?_⟩
    rw [holds_snoc, ha.holdsAfter]
    exact hnot u
  · intro t ht o hr
    exact (h.ready_step hp hw hs (Or.inl ha.release) t ht o hr).1

/-- The thread the lock was handed to comes back in `Acquire`. -/
theorem resume (h : LockInv l tr k pend) (hp : PlacedAt k loc) (hw : NoneQueued k)
    (hs : Step k a k') (hret : returnsInAcquire l (returning k a) = true) :
    LockInv l (tr ++ [(k, a)]) k' none := by
  obtain ⟨t, hsw, o, hr⟩ : ∃ t, switched k a = some t ∧
      ∃ o, k.resumeOf t = some (.lockAcquire l o) := by
    unfold returning at hret
    cases hsw : switched k a with
    | none => simp [hsw, returnsInAcquire] at hret
    | some t =>
        rw [hsw, Option.bind_some] at hret
        refine ⟨t, rfl, ?_⟩
        revert hret
        cases k.resumeOf t with
        | none => simp [returnsInAcquire]
        | some r => cases r <;> simp [returnsInAcquire]
  -- Only `Yield` and the dispatcher switch to a thread.
  have hyd : a = .yield ∨ a = .dispatch := by
    cases a <;> simp_all [switched]
  have hacq : a ≠ .lockAcquire l := by rcases hyd with rfl | rfl <;> simp
  have hrel : a ≠ .lockRelease l := by rcases hyd with rfl | rfl <;> simp
  have hready : t ∈ k.readyList := by
    apply List.mem_of_mem_head?
    rcases hyd with rfl | rfl <;> exact hsw
  -- It is the one that the lock was handed to.
  have hpend := h.ready t hready o hr
  obtain ⟨hown, -, -, hnot⟩ := h.pending t hpend
  -- A switch leaves the locks.
  have hlock : k'.lock l = k.lock l := by
    cases hs with
    | call hrun hc =>
        cases hc with
        | yieldTo _ hsw =>
            obtain ⟨r, hsw⟩ := switchTo_switched hsw
            exact congrFun hsw.lock l
        | yieldAlone _ => rfl
        | _ => simp at hyd
    | dispatch _ _ hsw =>
        obtain ⟨r, hsw⟩ := switchTo_switched hsw
        exact congrFun hsw.lock l
    | _ => simp at hyd
  have hres : resumedIn l k a = some t := by simp [resumedIn, hret, hsw]
  refine ⟨?_, ?_, ?_, ?_, ?_, by simp, ?_⟩
  · rw [hlock]
    simpa [blocksIn, passedTo, hacq, hrel] using h.calls
  · simpa [passedTo, hrel, hres, hpend] using h.returns
  · rw [hlock]
    exact h.free_iff
  · rw [hlock]
    exact h.free_empty
  · intro u hu
    rw [hlock, hown]
    by_cases htu : t = u
    · rw [htu]
    · simp [holdsAfter, acquires, hacq, hrel, hres, htu, hnot] at hu
  · intro u hu o' hr'
    obtain ⟨hpu, hne⟩ := h.ready_step hp hw hs (Or.inl hrel) u hu o' hr'
    rw [hpend] at hpu
    exact absurd (hsw.trans hpu) hne

/-- `Acquire` finds the lock free. -/
theorem take (h : LockInv l tr k pend) (hp : PlacedAt k loc) (hw : NoneQueued k)
    (hrun : k.sleeping = false) (hf : (k.lock l).free = true) :
    LockInv l (tr ++ [(k, .lockAcquire l)])
      (k.setLock l { k.lock l with owner := some k.currentThread, free := false }) none := by
  obtain ⟨rfl, hnot⟩ := h.of_free hf
  have hs := Step.call hrun (Call.lockTake hf)
  have hq := h.free_empty hf
  refine ⟨?_, ?_, ?_, ?_, ?_, by simp, ?_⟩
  · simpa [blocksIn, passedTo, hf, setLock] using h.calls
  · simpa [passedTo, resumedIn, returning, switched, returnsInAcquire] using h.returns
  · simp [setLock]
  · simp [setLock]
  · intro u hu
    by_cases hcu : k.currentThread = u
    · simp [setLock, hcu]
    · simp [holdsAfter, acquires, hf, hcu, hnot] at hu
  · intro u hu o hr
    exact (h.ready_step hp hw hs (Or.inl (by simp)) u hu o hr).1

/-- `Acquire` finds the lock taken. -/
theorem block (h : LockInv l tr k pend) (hp : PlacedAt k loc) (hw : NoneQueued k)
    (hrun : k.sleeping = false) (hf : (k.lock l).free = false) :
    LockInv l (tr ++ [(k, .lockAcquire l)])
      ((k.setLock l
        { k.lock l with sleepqueue := (k.lock l).sleepqueue ++ [k.currentThread] }).asleep
          (.lockAcquire l k.level)) pend := by
  have hs := Step.call hrun (Call.lockBlock hf)
  have hlock : ∀ r, (((k.setLock l
      { k.lock l with sleepqueue := (k.lock l).sleepqueue ++ [k.currentThread] }).asleep r).lock l) =
        { k.lock l with sleepqueue := (k.lock l).sleepqueue ++ [k.currentThread] } := by
    intro r
    simp [asleep, saveResume, setLock]
  have hholds : ∀ t, holdsAfter l t (holds l tr t) k (.lockAcquire l) = holds l tr t := by
    intro t
    simp [holdsAfter, acquires, hf, resumedIn, returning, switched, returnsInAcquire]
  refine ⟨?_, ?_, ?_, ?_, ?_, ?_, ?_⟩
  · rw [blockedCalls_snoc, h.calls, hlock]
    simp [blocksIn, passedTo, hf]
  · simpa [passedTo, resumedIn, returning, switched, returnsInAcquire] using h.returns
  · rw [hlock]
    exact h.free_iff
  · rw [hlock]
    simp [hf]
  · intro u hu
    rw [holds_snoc, hholds] at hu
    rw [hlock]
    exact h.owner u hu
  · intro t ht
    obtain ⟨hown, -, -, hnot⟩ := h.pending t ht
    obtain ⟨hready, hres⟩ := h.pending_step hp hs ht (by simp [switched])
    refine ⟨by rw [hlock]; exact hown, hready, hres, fun u => ?_⟩
    rw [holds_snoc, hholds]
    exact hnot u
  · intro u hu o hr
    exact (h.ready_step hp hw hs (Or.inl (by simp)) u hu o hr).1

/-- After `Release` by the owner nobody holds the lock. -/
theorem released (h : LockInv l tr k pend) (ho : (k.lock l).owner = some k.currentThread)
    (t : ThreadId) : holdsAfter l t (holds l tr t) k (.lockRelease l) = false := by
  have hacq : acquires l k (.lockRelease l) = none := by
    simp [acquires, resumedIn, returning, switched, returnsInAcquire]
  unfold holdsAfter
  rw [hacq]
  by_cases hct : k.currentThread = t
  · simp [hct]
  · cases ht : holds l tr t with
    | false => simp
    | true => exact absurd (Option.some.inj (ho.symm.trans (h.owner t ht))) hct

/-- `Release` with no sleeper. -/
theorem free (h : LockInv l tr k pend) (hp : PlacedAt k loc) (hw : NoneQueued k)
    (hrun : k.sleeping = false) (ho : (k.lock l).owner = some k.currentThread)
    (hq : (k.lock l).sleepqueue = []) :
    LockInv l (tr ++ [(k, .lockRelease l)]) (k.setLock l ⟨[], true, none⟩) none := by
  obtain rfl := h.pend_none hp hrun ho
  have hs := Step.call hrun (Call.lockFree ho hq)
  refine ⟨?_, ?_, ?_, ?_, ?_, by simp, ?_⟩
  · simpa [blocksIn, passedTo, hq, setLock] using h.calls
  · simpa [passedTo, hq, resumedIn, returning, switched, returnsInAcquire] using h.returns
  · simp [setLock]
  · simp [setLock]
  · intro u hu
    rw [holds_snoc, h.released ho] at hu
    exact absurd hu (by simp)
  · intro u hu o hr
    exact (h.ready_step hp hw hs (Or.inr hq) u hu o hr).1

/-- `Release` hands the lock to the first sleeper. -/
theorem pass (h : LockInv l tr k pend) (hp : PlacedAt k loc) (hw : NoneQueued k)
    (hrun : k.sleeping = false) (ho : (k.lock l).owner = some k.currentThread)
    {t : ThreadId} {rest : List ThreadId} (hq : (k.lock l).sleepqueue = t :: rest) :
    LockInv l (tr ++ [(k, .lockRelease l)])
      ((k.setLock l ⟨rest, (k.lock l).free, some t⟩).readyToRun t) (some t) := by
  obtain rfl := h.pend_none hp hrun ho
  have hs := Step.call hrun (Call.lockPass ho hq)
  have hfree : (k.lock l).free = false := by
    cases hf : (k.lock l).free with
    | false => rfl
    | true => simp [h.free_empty hf] at hq
  have hmem : t ∈ k.members (.lockQueue l) := by simp [members, hq]
  obtain ⟨r, hr, o, rfl⟩ := hp.resume_of_mem hmem
  refine ⟨?_, ?_, ?_, ?_, ?_, ?_, ?_⟩
  · rw [blockedCalls_snoc, h.calls, handedOver_snoc]
    simp [blocksIn, passedTo, hq, setLock, readyToRun]
  · have hret := h.returns
    simp only [Option.toList_none, List.append_nil] at hret
    simp [passedTo, hq, resumedIn, returning, switched, returnsInAcquire, hret]
  · simp [setLock, readyToRun, hfree]
  · simp [setLock, readyToRun, hfree]
  · intro u hu
    rw [holds_snoc, h.released ho] at hu
    exact absurd hu (by simp)
  · rintro u hu
    obtain rfl := Option.some.inj hu
    refine ⟨by simp [setLock, readyToRun], by simp [readyToRun], ⟨o, hr⟩, fun v => ?_⟩
    rw [holds_snoc]
    exact h.released ho v
  · intro u hu o' hr'
    rcases hs.ready_acquiring hp hw hu hr' with ⟨hm, -, hr⟩ | ⟨-, rest', hq'⟩
    · exact absurd (h.ready u hm o' hr) (by simp)
    · rw [hq] at hq'
      rw [(List.cons.inj hq').1]

theorem step (h : LockInv l tr k pend) (hp : PlacedAt k loc) (hw : NoneQueued k)
    (hs : Step k a k') : ∃ pend', LockInv l (tr ++ [(k, a)]) k' pend' := by
  cases hret : returnsInAcquire l (returning k a) with
  | true => exact ⟨_, h.resume hp hw hs hret⟩
  | false =>
      by_cases hacq : a = .lockAcquire l
      · subst hacq
        cases hs with
        | call hrun hc =>
            cases hc with
            | lockTake hf => exact ⟨_, h.take hp hw hrun hf⟩
            | lockBlock hf => exact ⟨_, h.block hp hw hrun hf⟩
      · by_cases hrel : a = .lockRelease l
        · subst hrel
          cases hs with
          | call hrun hc =>
              cases hc with
              | lockFree ho hq => exact ⟨_, h.free hp hw hrun ho hq⟩
              | lockPass ho hq => exact ⟨_, h.pass hp hw hrun ho hq⟩
        · exact ⟨_, h.apart hp hw hs ⟨hacq, hrel, hret⟩⟩

end LockInv

theorem lockInv_of_run {initialValue : SemId → Int} {tr : History} {k : Kernel}
    (hr : Run Kernel.step (Kernel.initialized initialValue) tr k) (l : LockId) :
    ∃ pend, LockInv l tr k pend := by
  induction hr with
  | nil =>
      refine ⟨none, rfl, rfl, ?_, ?_, ?_, ?_, ?_⟩ <;> simp [Kernel.initialized, holds]
  | snoc hr hs ih =>
      obtain ⟨pend, hinv⟩ := ih
      have hsched := scheduled_of_run hr
      obtain ⟨loc, hp, -⟩ := hsched.placed
      exact hinv.step hp hsched.noneQueued (step_cases hs)

/-- The law of the lock over all schedules: `free` says that there is no owner,
    a free lock has no sleepers, the holder is the recorded owner, and the
    blocked threads get the lock, and return with it, in the order of their
    calls. -/
theorem lock_law (initialValue : SemId → Int) (l : LockId) (tr : History) (k : Kernel)
    (hr : Run Kernel.step (Kernel.initialized initialValue) tr k) :
    ((k.lock l).free = true ↔ (k.lock l).owner = none) ∧
      ((k.lock l).free = true → (k.lock l).sleepqueue = []) ∧
      (∀ t, holds l tr t = true → (k.lock l).owner = some t) ∧
      (∀ t u, holds l tr t = true → holds l tr u = true → t = u) ∧
      blockedCalls l tr = handedOver l tr ++ (k.lock l).sleepqueue ∧
      blockedReturns l tr <+: handedOver l tr := by
  obtain ⟨pend, h⟩ := lockInv_of_run hr l
  refine ⟨h.free_iff, h.free_empty, h.owner, ?_, h.calls, ?_⟩
  · intro t u ht hu
    exact Option.some.inj ((h.owner t ht).symm.trans (h.owner u hu))
  · rw [h.returns]
    exact List.prefix_append _ _

/-- Thread 1 blocks in `Acquire` and the main thread hands the lock over: thread 1
    owns the lock and nobody holds it yet. -/
theorem lock_law_handed_over :
    ∃ tr k, Run Kernel.step (Kernel.initialized fun _ => 0) tr k ∧
      ((k.lock 0).owner = some 1 ∧ handedOver 0 tr = [1] ∧ blockedReturns 0 tr = []) ∧
      ((k.lock 0).free = true ↔ (k.lock 0).owner = none) ∧
        ((k.lock 0).free = true → (k.lock 0).sleepqueue = []) ∧
        (∀ t, holds 0 tr t = true → (k.lock 0).owner = some t) ∧
        (∀ t u, holds 0 tr t = true → holds 0 tr u = true → t = u) ∧
        blockedCalls 0 tr = handedOver 0 tr ++ (k.lock 0).sleepqueue ∧
        blockedReturns 0 tr <+: handedOver 0 tr := by
  obtain ⟨⟨tr, k⟩, he, hx⟩ := Option.map_eq_some_iff.mp
    (show (exec Kernel.step (Kernel.initialized fun _ => 0)
        [.lockAcquire 0, .newThread 1, .start 1 0, .yield, .lockAcquire 0, .dispatch,
          .lockRelease 0]).map
            (fun x => ((x.2.lock 0).owner, handedOver 0 x.1, blockedReturns 0 x.1)) =
        some (some 1, [1], []) by decide)
  simp only [Prod.mk.injEq] at hx
  exact ⟨tr, k, run_of_exec he, hx, lock_law _ 0 tr k (run_of_exec he)⟩

end Kernel
end Nachos
