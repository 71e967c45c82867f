/-
  Nachos.Kernel.Step

  What one step of the kernel can do.  `Step` lists the outcomes, one
  constructor for each branch of an operation, with the state it leaves written
  out; `step_cases` says there are no others.  Proofs about steps are case
  analyses of `Step` and never unfold an operation.  A step that hands the
  processor over ends in `switchTo`, whose effect is described field by field.
-/

import Nachos.Kernel.Thread

namespace Nachos
namespace Kernel

/-- Where thread `t` goes on when it gets the processor. -/
def resumeOf (k : Kernel) (t : ThreadId) : Option Resume := (k.thread t).map Thread.resume

/-- The process thread `t` belongs to. -/
def processOf (k : Kernel) (t : ThreadId) : Option ProcessId := (k.thread t).bind Thread.process

/-! ## Update lemmas -/

@[simp] theorem resumeOf_saveResume (k : Kernel) (t u : ThreadId) (r : Resume) :
    (k.saveResume t r).resumeOf u =
      if u = t then (k.resumeOf t).map (fun _ => r) else k.resumeOf u := by
  by_cases hu : u = t
  · subst hu
    simp [resumeOf, saveResume, Function.comp_def]
  · simp [resumeOf, saveResume, hu]

@[simp] theorem processOf_saveResume (k : Kernel) (t u : ThreadId) (r : Resume) :
    (k.saveResume t r).processOf u = k.processOf u := by
  by_cases hu : u = t
  · subst hu
    simp only [processOf, saveResume, Function.update_self]
    cases k.thread u <;> rfl
  · simp [processOf, saveResume, Function.update_of_ne hu]

theorem foldl_readyToRun (ts : List ThreadId) (k : Kernel) :
    ts.foldl readyToRun k = { k with readyList := k.readyList ++ ts } := by
  induction ts generalizing k with
  | nil => simp
  | cons t ts ih =>
      rw [List.foldl_cons, ih]
      simp [readyToRun]

/-! ## Destroying the finished thread -/

/-- `~Thread` changes the object of the thread and the one of its process. -/
theorem deleteThread_cases {k k' : Kernel} {t : ThreadId} (h : k.deleteThread t = some k') :
    ∃ th p pr, k.thread t = some th ∧ th.process = some p ∧ k.process p = some pr ∧
      k' = (k.setThread t { th with typeId := .invalid }).setProcess p
        ⟨pr.numThreads - 1, pr.deleted || pr.numThreads - 1 == 0⟩ := by
  simp only [deleteThread, Option.bind_eq_bind, Option.bind_eq_some_iff, Option.pure_def,
    Option.some.injEq] at h
  obtain ⟨th, hth, p, hp, pr, hpr, rfl⟩ := h
  exact ⟨th, p, pr, hth, hp, hpr, rfl⟩

/-- The fields that deleting the finished thread leaves alone. -/
structure SameButObjects (k k' : Kernel) : Prop where
  currentThread : k'.currentThread = k.currentThread
  sleeping : k'.sleeping = k.sleeping
  readyList : k'.readyList = k.readyList
  alive : k'.alive = k.alive
  semaphore : k'.semaphore = k.semaphore
  lock : k'.lock = k.lock
  condition : k'.condition = k.condition
  resumeOf : ∀ u, k'.resumeOf u = k.resumeOf u
  processOf : ∀ u, k'.processOf u = k.processOf u

theorem destroyFinished_same {k k' : Kernel} (h : k.destroyFinished = some k') :
    SameButObjects k k' := by
  unfold destroyFinished at h
  split at h
  · obtain rfl := Option.some.inj h
    exact ⟨rfl, rfl, rfl, rfl, rfl, rfl, rfl, fun _ => rfl, fun _ => rfl⟩
  · obtain ⟨th, p, pr, hth, -, -, rfl⟩ := deleteThread_cases h
    refine ⟨rfl, rfl, rfl, rfl, rfl, rfl, rfl, fun u => ?_, fun u => ?_⟩ <;>
    · rename_i t _
      by_cases hu : u = t
      · subst hu
        simp only at hth
        simp [Kernel.resumeOf, Kernel.processOf, setProcess, setThread, hth]
      · simp [Kernel.resumeOf, Kernel.processOf, setProcess, setThread, Function.update_of_ne hu]

/-- The slot is empty after the finished thread, if any, is destroyed. -/
theorem destroyFinished_slot {k k' : Kernel} (h : k.destroyFinished = some k') :
    k'.threadToBeDestroyed = none := by
  unfold destroyFinished at h
  split at h
  · rename_i hnone
    obtain rfl := Option.some.inj h
    exact hnone
  · obtain ⟨-, -, -, -, -, -, rfl⟩ := deleteThread_cases h
    rfl

/-! ## Handing the processor over -/

/-- A switch enters the thread's first code, or comes back inside `SwitchTo`. -/
theorem switchTo_cases {k k' : Kernel} {t : ThreadId} (h : k.switchTo t = some k') :
    ∃ r, k.resumeOf t = some r ∧
      ((r = .startThreadExecution ∧
          k' = { k with currentThread := t, sleeping := false, level := .on }) ∨
        (r ≠ .startThreadExecution ∧ ∃ k₁,
          { k with currentThread := t, sleeping := false }.destroyFinished = some k₁ ∧
            k' = k₁.resumeOperation r)) := by
  simp only [switchTo, Option.bind_eq_bind, Option.bind_eq_some_iff] at h
  obtain ⟨th, hth, h⟩ := h
  refine ⟨th.resume, by simp [resumeOf, hth], ?_⟩
  split at h
  · rename_i hr
    exact Or.inl ⟨hr, (Option.some.inj h).symm⟩
  · rename_i hr
    obtain ⟨k₁, hk₁, h⟩ := Option.bind_eq_some_iff.mp h
    exact Or.inr ⟨hr, k₁, hk₁, (Option.some.inj h).symm⟩

/-- The value the semaphores have once a thread goes on at `r`: a thread that
    comes back in `P` takes one off. -/
def semaphoreAfter (k : Kernel) : Resume → SemId → Semaphore
  | .semP s _ => Function.update k.semaphore s
      { k.semaphore s with value := (k.semaphore s).value - 1 }
  | _ => k.semaphore

/-- The effect of a switch to `t`, which goes on at `r`. -/
structure Switched (k : Kernel) (t : ThreadId) (r : Resume) (k' : Kernel) : Prop where
  resume : k.resumeOf t = some r
  currentThread : k'.currentThread = t
  sleeping : k'.sleeping = false
  readyList : k'.readyList = k.readyList
  alive : k'.alive = k.alive
  semaphore : k'.semaphore = k.semaphoreAfter r
  lock : k'.lock = k.lock
  condition : k'.condition = k.condition
  resumeOf : ∀ u, k'.resumeOf u = k.resumeOf u
  processOf : ∀ u, k'.processOf u = k.processOf u

theorem switchTo_switched {k k' : Kernel} {t : ThreadId} (h : k.switchTo t = some k') :
    ∃ r, Switched k t r k' := by
  obtain ⟨r, hr, ⟨rfl, rfl⟩ | ⟨-, k₁, hk₁, rfl⟩⟩ := switchTo_cases h
  · exact ⟨_, hr, rfl, rfl, rfl, rfl, rfl, rfl, rfl, fun _ => rfl, fun _ => rfl⟩
  · have hs := destroyFinished_same hk₁
    refine ⟨r, hr, ?_, ?_, ?_, ?_, ?_, ?_, ?_, ?_, ?_⟩ <;> cases r <;>
      simp [resumeOperation, setStatus, setSemaphore, semaphoreAfter, Kernel.resumeOf,
        Kernel.processOf, hs.currentThread, hs.sleeping, hs.readyList, hs.alive, hs.semaphore,
        hs.lock, hs.condition]
    all_goals first
      | exact hs.resumeOf
      | exact hs.processOf

@[simp] theorem semaphoreAfter_queue (k : Kernel) (r : Resume) (s : SemId) :
    (k.semaphoreAfter r s).queue = (k.semaphore s).queue := by
  cases r <;> simp only [semaphoreAfter]
  rename_i s' _
  by_cases hs : s = s'
  · subst hs
    simp
  · rw [Function.update_of_ne hs]

/-! ## The outcomes of a step -/

/-- The state in which the current thread sleeps, to go on at `r`. -/
def asleep (k : Kernel) (r : Resume) : Kernel :=
  { k.saveResume k.currentThread r with sleeping := true, level := .off }

/-- The outcomes of an operation called by the running thread. -/
inductive Call (k : Kernel) : Action → Kernel → Prop where
  | newThread {t : ThreadId} (h : k.thread t = none) :
      Call k (.newThread t) (k.setThread t Thread.create)
  | newProcess {p : ProcessId} (h : k.process p = none) :
      Call k (.newProcess p) (k.setProcess p ⟨0, false⟩)
  | start {t : ThreadId} {p : ProcessId} {th : Thread} {pr : Process}
      (ht : k.thread t = some th) (hp : k.process p = some pr) (hnone : th.process = none)
      (hid : th.typeId = .thread) (hlive : pr.deleted = false) :
      Call k (.start t p)
        { (k.setProcess p { pr with numThreads := pr.numThreads + 1 }).setThread t
            ⟨.thread, some p, .startThreadExecution⟩ with
          alive := k.alive ++ [t], readyList := k.readyList ++ [t] }
  | finish {alive : List ThreadId} (h : removeItem k.currentThread [] k.alive = some alive) :
      Call k .finish
        (asleep { k with threadToBeDestroyed := some k.currentThread, alive := alive }
          (.finish k.level))
  | yieldAlone (h : k.readyList = []) : Call k .yield k
  | yieldTo {t : ThreadId} {rest : List ThreadId} {k' : Kernel} (h : k.readyList = t :: rest)
      (hs : { k.saveResume k.currentThread (.yield k.level) with
          readyList := rest ++ [k.currentThread], level := .off }.switchTo t = some k') :
      Call k .yield k'
  | setStatus {now : IntStatus} : Call k (.setStatus now) (k.setStatus now)
  | semPTake {s : SemId} (h : 0 < (k.semaphore s).value) :
      Call k (.semP s)
        (k.setSemaphore s { k.semaphore s with value := (k.semaphore s).value - 1 })
  | semPBlock {s : SemId} (h : (k.semaphore s).value ≤ 0) :
      Call k (.semP s)
        ((k.setSemaphore s
          { k.semaphore s with queue := (k.semaphore s).queue ++ [k.currentThread] }).asleep
            (.semP s k.level))
  | semV {s : SemId} : Call k (.semV s) (k.semV s)
  | lockTake {l : LockId} (h : (k.lock l).free = true) :
      Call k (.lockAcquire l)
        (k.setLock l { k.lock l with owner := some k.currentThread, free := false })
  | lockBlock {l : LockId} (h : (k.lock l).free = false) :
      Call k (.lockAcquire l)
        ((k.setLock l
          { k.lock l with sleepqueue := (k.lock l).sleepqueue ++ [k.currentThread] }).asleep
            (.lockAcquire l k.level))
  | lockFree {l : LockId} (ho : (k.lock l).owner = some k.currentThread)
      (hq : (k.lock l).sleepqueue = []) :
      Call k (.lockRelease l) (k.setLock l ⟨[], true, none⟩)
  | lockPass {l : LockId} {t : ThreadId} {rest : List ThreadId}
      (ho : (k.lock l).owner = some k.currentThread) (hq : (k.lock l).sleepqueue = t :: rest) :
      Call k (.lockRelease l) ((k.setLock l ⟨rest, (k.lock l).free, some t⟩).readyToRun t)
  | condWait {c : CondId} : Call k (.condWait c) (k.asleep (.condWait c k.level))
  | condSignalNone {c : CondId} (h : (k.condition c).waitqueue = []) : Call k (.condSignal c) k
  | condSignal {c : CondId} {t : ThreadId} {rest : List ThreadId}
      (h : (k.condition c).waitqueue = t :: rest) :
      Call k (.condSignal c) ((k.setCondition c ⟨rest⟩).readyToRun t)
  | condBroadcast {c : CondId} :
      Call k (.condBroadcast c)
        { k.setCondition c ⟨[]⟩ with
          readyList := k.readyList ++ (k.condition c).waitqueue }

/-- The outcomes of a step. -/
inductive Step (k : Kernel) : Action → Kernel → Prop where
  | call {a : Action} {k' : Kernel} (hrun : k.sleeping = false) (h : Call k a k') : Step k a k'
  | interrupt {vs : List SemId} (hrun : k.sleeping = false) (hon : k.level = .on) :
      Step k (.interrupt vs) (((k.setStatus .off).handlers vs).setStatus .on)
  | idle {vs : List SemId} (hsleep : k.sleeping = true) (hready : k.readyList = []) :
      Step k (.idle vs) (k.handlers vs)
  | dispatch {t : ThreadId} {rest : List ThreadId} {k' : Kernel} (hsleep : k.sleeping = true)
      (hready : k.readyList = t :: rest)
      (hs : { k with readyList := rest }.switchTo t = some k') : Step k .dispatch k'

/-- `V` counts up, and makes the first waiter ready if there is one. -/
theorem semV_eq (k : Kernel) (s : SemId) :
    k.semV s =
      { k.setSemaphore s ⟨(k.semaphore s).value + 1, (k.semaphore s).queue.tail⟩ with
        readyList := k.readyList ++ (k.semaphore s).queue.head?.toList } := by
  unfold semV
  cases hq : (k.semaphore s).queue with
  | nil => simp [setStatus, setSemaphore, hq]
  | cons t rest => simp [setStatus, setSemaphore, readyToRun, hq]

theorem condSignal_eq (k : Kernel) (c : CondId) :
    k.condSignal c =
      match (k.condition c).waitqueue with
      | [] => k
      | t :: rest => (k.setCondition c ⟨rest⟩).readyToRun t := by
  unfold condSignal
  cases hq : (k.condition c).waitqueue <;> simp [setStatus, setCondition, readyToRun, hq]

theorem condBroadcast_eq (k : Kernel) (c : CondId) :
    k.condBroadcast c =
      { k.setCondition c ⟨[]⟩ with readyList := k.readyList ++ (k.condition c).waitqueue } := by
  simp only [condBroadcast, foldl_readyToRun]
  rfl

theorem start_cases {k k' : Kernel} {t : ThreadId} {p : ProcessId} (h : k.start t p = some k') :
    Call k (.start t p) k' := by
  simp only [start, Option.bind_eq_bind, Option.bind_eq_some_iff] at h
  obtain ⟨th, hth, pr, hpr, h⟩ := h
  split at h
  · rename_i hc
    obtain ⟨hnone, hid, hlive⟩ := hc
    obtain rfl := Option.some.inj h
    rw [hid]
    exact Call.start hth hpr hnone hid hlive
  · exact absurd h (by simp)

theorem finish_cases {k k' : Kernel} (h : k.finish = some k') : Call k .finish k' := by
  simp only [finish, Option.bind_eq_bind, Option.bind_eq_some_iff] at h
  obtain ⟨alive, ha, h⟩ := h
  obtain rfl := Option.some.inj h
  exact Call.finish ha

theorem yield_cases {k k' : Kernel} (h : k.yield = some k') : Call k .yield k' := by
  cases hr : k.readyList with
  | nil =>
      have hk : k.yield = some k := by
        unfold yield
        simp only [setStatus, hr]
        rw [← hr]
      obtain rfl := Option.some.inj (hk.symm.trans h)
      exact Call.yieldAlone hr
  | cons t rest =>
      unfold yield at h
      simp only [setStatus, hr] at h
      exact Call.yieldTo hr h

theorem semP_cases {k k' : Kernel} {s : SemId} (h : k.semP s = some k') :
    Call k (.semP s) k' := by
  unfold semP at h
  dsimp only at h
  split at h
  · rename_i hv
    exact (Option.some.inj h) ▸ Call.semPBlock hv
  · rename_i hv
    exact (Option.some.inj h) ▸ Call.semPTake (Int.not_le.mp hv)

theorem lockAcquire_cases {k k' : Kernel} {l : LockId} (h : k.lockAcquire l = some k') :
    Call k (.lockAcquire l) k' := by
  unfold lockAcquire at h
  dsimp only at h
  split at h
  · rename_i hf
    exact (Option.some.inj h) ▸ Call.lockBlock hf
  · rename_i hf
    exact (Option.some.inj h) ▸ Call.lockTake (Bool.not_eq_false _ ▸ hf)

theorem lockRelease_cases {k k' : Kernel} {l : LockId} (h : k.lockRelease l = some k') :
    Call k (.lockRelease l) k' := by
  unfold lockRelease at h
  dsimp only at h
  split at h
  · rename_i ho
    have hlock : (k.setStatus .off).lock l = k.lock l := rfl
    rw [hlock] at h ho
    cases hq : (k.lock l).sleepqueue with
    | nil =>
        simp only [hq] at h
        exact (Option.some.inj h) ▸ Call.lockFree ho hq
    | cons t rest =>
        simp only [hq] at h
        exact (Option.some.inj h) ▸ Call.lockPass ho hq
  · exact absurd h (by simp)

theorem condSignal_cases {k : Kernel} {c : CondId} : Call k (.condSignal c) (k.condSignal c) := by
  rw [condSignal_eq]
  cases hq : (k.condition c).waitqueue with
  | nil => exact Call.condSignalNone hq
  | cons t rest => exact Call.condSignal hq

private theorem call_cases {k k' : Kernel} {a : Action} (hrun : k.sleeping = false)
    (h : k.step a = some k') (hi : ∀ vs, a ≠ .interrupt vs) (hd : ∀ vs, a ≠ .idle vs)
    (hs : a ≠ .dispatch) : Call k a k' := by
  cases a with
  | interrupt vs => exact absurd rfl (hi vs)
  | idle vs => exact absurd rfl (hd vs)
  | dispatch => exact absurd rfl hs
  | newThread t =>
      simp only [step, hrun, Bool.false_eq_true, if_false] at h
      split at h
      · rename_i ht
        exact (Option.some.inj h) ▸ Call.newThread ht
      · exact absurd h (by simp)
  | newProcess p =>
      simp only [step, hrun, Bool.false_eq_true, if_false] at h
      split at h
      · rename_i hp
        exact (Option.some.inj h) ▸ Call.newProcess hp
      · exact absurd h (by simp)
  | start t p => exact start_cases (by simpa [step, hrun] using h)
  | finish => exact finish_cases (by simpa [step, hrun] using h)
  | yield => exact yield_cases (by simpa [step, hrun] using h)
  | setStatus now =>
      have hk : k.setStatus now = k' := by simpa [step, hrun] using h
      exact hk ▸ Call.setStatus
  | semP s => exact semP_cases (by simpa [step, hrun] using h)
  | semV s =>
      have hk : k.semV s = k' := by simpa [step, hrun] using h
      exact hk ▸ Call.semV
  | lockAcquire l => exact lockAcquire_cases (by simpa [step, hrun] using h)
  | lockRelease l => exact lockRelease_cases (by simpa [step, hrun] using h)
  | condWait c =>
      have hk : k.condWait c = some k' := by simpa [step, hrun] using h
      exact (Option.some.inj hk) ▸ Call.condWait
  | condSignal c =>
      have hk : k.condSignal c = k' := by simpa [step, hrun] using h
      exact hk ▸ condSignal_cases
  | condBroadcast c =>
      have hk : k.condBroadcast c = k' := by simpa [step, hrun] using h
      rw [condBroadcast_eq] at hk
      exact hk ▸ Call.condBroadcast

/-- Everything a step can do. -/
theorem step_cases {k k' : Kernel} {a : Action} (h : k.step a = some k') : Step k a k' := by
  cases hrun : k.sleeping with
  | false =>
      cases a with
      | interrupt vs =>
          simp only [step, hrun, true_and] at h
          split at h
          · rename_i hon
            exact (Option.some.inj h) ▸ Step.interrupt hrun hon
          · exact absurd h (by simp)
      | idle vs => simp [step, hrun] at h
      | dispatch => simp [step, hrun] at h
      | _ => exact Step.call hrun (call_cases hrun h (by simp) (by simp) (by simp))
  | true =>
      cases a with
      | idle vs =>
          simp only [step, hrun, true_and] at h
          split at h
          · rename_i hready
            exact (Option.some.inj h) ▸ Step.idle hrun hready
          · exact absurd h (by simp)
      | dispatch =>
          cases hr : k.readyList with
          | nil => simp [step, hrun, hr] at h
          | cons t rest =>
              simp only [step, hrun, hr] at h
              exact Step.dispatch hrun hr h
      | _ => simp [step, hrun] at h

end Kernel
end Nachos
