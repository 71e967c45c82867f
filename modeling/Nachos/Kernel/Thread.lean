/-
  Nachos.Kernel.Thread

  The thread system of the kernel: the ready list, the three kinds of
  synchronization objects, and the operations of `kernel/thread.cc`,
  `kernel/scheduler.cc` and `kernel/synch.cc` that move threads between them.

  The kernel runs on one processor and every operation turns interrupts off, so
  an operation is one atomic step up to the point where it gives the processor
  away.  A thread gives it away in `Scheduler::SwitchTo` only, called by
  `Thread::Yield` and `Thread::Sleep`; what it still has to do when the
  processor comes back is its `Resume`.  The loop in `Thread::Sleep` (find a
  thread to run, else idle until an interrupt) runs while `currentThread` is
  still the sleeping thread: that is the flag `sleeping`.

  Objects are named by numbers that are never used twice.  The address space a
  dying process takes down with it is not part of this model.
-/

import Mathlib.Logic.Function.Basic
import Nachos.Lib.Run

namespace Nachos

abbrev ThreadId := Nat
abbrev ProcessId := Nat
abbrev SemId := Nat
abbrev LockId := Nat
abbrev CondId := Nat

/-- `INTERRUPTS_OFF` and `INTERRUPTS_ON`. -/
inductive IntStatus where
  | off
  | on
deriving DecidableEq, Repr

/-- The `typeId` field of a thread. -/
inductive ObjectTypeId where
  | thread
  | invalid
deriving DecidableEq, Repr

/-- What a thread that is not running does when the processor comes to it: it
    enters `StartThreadExecution`, or it comes back from the `SwitchTo` of one of
    these operations, which still has to restore the interrupt level. -/
inductive Resume where
  | startThreadExecution
  | yield (oldLevel : IntStatus)
  | semP (s : SemId) (oldLevel : IntStatus)
  | lockAcquire (l : LockId) (oldLevel : IntStatus)
  | condWait (c : CondId) (oldLevel : IntStatus)
  | finish (oldStatus : IntStatus)
deriving DecidableEq, Repr

structure Thread where
  typeId : ObjectTypeId
  process : Option ProcessId
  resume : Resume
deriving DecidableEq, Repr

/-- `Thread::Thread`: no process owner yet. -/
def Thread.create : Thread := ⟨.thread, none, .startThreadExecution⟩

structure Process where
  numThreads : Int
  /-- `delete` has been called on the process. -/
  deleted : Bool
deriving DecidableEq, Repr

structure Semaphore where
  value : Int
  queue : List ThreadId
deriving DecidableEq, Repr

structure Lock where
  sleepqueue : List ThreadId
  free : Bool
  owner : Option ThreadId
deriving DecidableEq, Repr

structure Condition where
  waitqueue : List ThreadId
deriving DecidableEq, Repr

structure Kernel where
  currentThread : ThreadId
  /-- The current thread is in the loop of `Thread::Sleep`. -/
  sleeping : Bool
  readyList : List ThreadId
  threadToBeDestroyed : Option ThreadId
  alive : List ThreadId
  level : IntStatus
  thread : ThreadId → Option Thread
  process : ProcessId → Option Process
  semaphore : SemId → Semaphore
  lock : LockId → Lock
  condition : CondId → Condition

/-- The state `Initialize` leaves: the thread "main-temp" runs in the process
    "BOOT", it has been started and taken off the ready list again, and
    interrupts are on.  The semaphores are those the run will use, each with its
    initial value. -/
def Kernel.initialized (initialValue : SemId → Int) : Kernel where
  currentThread := 0
  sleeping := false
  readyList := []
  threadToBeDestroyed := none
  alive := [0]
  level := .on
  thread := Function.update (fun _ => none) 0 (some ⟨.thread, some 0, .startThreadExecution⟩)
  process := Function.update (fun _ => none) 0 (some ⟨1, false⟩)
  semaphore s := ⟨initialValue s, []⟩
  lock _ := ⟨[], true, none⟩
  condition _ := ⟨[]⟩

namespace Kernel

/-! ## Updates of one object -/

def setSemaphore (k : Kernel) (s : SemId) (x : Semaphore) : Kernel :=
  { k with semaphore := Function.update k.semaphore s x }

def setLock (k : Kernel) (l : LockId) (x : Lock) : Kernel :=
  { k with lock := Function.update k.lock l x }

def setCondition (k : Kernel) (c : CondId) (x : Condition) : Kernel :=
  { k with condition := Function.update k.condition c x }

def setThread (k : Kernel) (t : ThreadId) (x : Thread) : Kernel :=
  { k with thread := Function.update k.thread t (some x) }

def setProcess (k : Kernel) (p : ProcessId) (x : Process) : Kernel :=
  { k with process := Function.update k.process p (some x) }

/-- `Interrupt::SetStatus`, less the tick it takes: the handlers a tick runs are
    a step of their own (`Action.interrupt`). -/
def setStatus (k : Kernel) (now : IntStatus) : Kernel := { k with level := now }

/-- Record where thread `t` is to go on (`Thread::SaveSimulatorState`). -/
def saveResume (k : Kernel) (t : ThreadId) (r : Resume) : Kernel :=
  { k with thread := Function.update k.thread t ((k.thread t).map fun th => { th with resume := r }) }

/-! ## `kernel/scheduler.cc` -/

/-- `Scheduler::ReadyToRun`. -/
def readyToRun (k : Kernel) (t : ThreadId) : Kernel :=
  { k with readyList := k.readyList ++ [t] }

/-- `Thread::~Thread`; `none` where it follows a pointer to no object. -/
def deleteThread (k : Kernel) (t : ThreadId) : Option Kernel := do
  let th ← k.thread t
  let k := k.setThread t { th with typeId := .invalid }
  let p ← th.process
  let pr ← k.process p
  let numThreads := pr.numThreads - 1
  -- The last thread of a process takes the process with it.
  return k.setProcess p ⟨numThreads, pr.deleted || numThreads == 0⟩

/-- The end of `Scheduler::SwitchTo`: delete the thread that finished, if any. -/
def destroyFinished (k : Kernel) : Option Kernel :=
  match k.threadToBeDestroyed with
  | none => some k
  | some t => { k with threadToBeDestroyed := none }.deleteThread t

/-- What is left of the operation that gave the processor away, from the return
    of its `SwitchTo` on. -/
def resumeOperation (k : Kernel) : Resume → Kernel
  | .startThreadExecution => k
  | .yield oldLevel => k.setStatus oldLevel
  | .semP s oldLevel =>
      (k.setSemaphore s { k.semaphore s with value := (k.semaphore s).value - 1 }).setStatus oldLevel
  | .lockAcquire _ oldLevel => k.setStatus oldLevel
  | .condWait _ oldLevel => k.setStatus oldLevel
  | .finish oldStatus => k.setStatus oldStatus

/-- `Scheduler::SwitchTo`, up to the point where `nextThread` is back in its own
    code: a thread dispatched for the first time enters `StartThreadExecution`,
    any other one comes back inside `SwitchTo`, destroys the finished thread and
    ends its operation. -/
def switchTo (k : Kernel) (nextThread : ThreadId) : Option Kernel := do
  let k := { k with currentThread := nextThread, sleeping := false }
  let th ← k.thread nextThread
  if th.resume = .startThreadExecution then
    return k.setStatus .on
  else
    let k ← k.destroyFinished
    return k.resumeOperation th.resume

/-! ## `kernel/thread.cc` -/

/-- `Thread::Start`: `none` when `process != NULL`. -/
def start (k : Kernel) (t : ThreadId) (owner : ProcessId) : Option Kernel := do
  let oldLevel := k.level
  let k := k.setStatus .off
  let th ← k.thread t
  let pr ← k.process owner
  if th.process = none ∧ th.typeId = .thread ∧ pr.deleted = false then
    let k := k.setProcess owner { pr with numThreads := pr.numThreads + 1 }
    let k := k.setThread t ⟨th.typeId, some owner, .startThreadExecution⟩
    return ({ k with alive := k.alive ++ [t] }.readyToRun t).setStatus oldLevel
  else none

/-- `Thread::Sleep` up to its loop; the loop's turns are steps of their own.
    `none` when interrupts are on. -/
def sleep (k : Kernel) (r : Resume) : Option Kernel :=
  if k.level = .off then some { k.saveResume k.currentThread r with sleeping := true } else none

/-- `List::RemoveItem`: it takes heads off and appends them again until it meets
    the item, so what stood before the item ends up behind what stood after it.
    It does not end when the item is absent. -/
def removeItem (item : ThreadId) (seen : List ThreadId) : List ThreadId → Option (List ThreadId)
  | [] => none
  | x :: rest => if x = item then some (rest ++ seen) else removeItem item (seen ++ [x]) rest

/-- `Thread::Finish`. -/
def finish (k : Kernel) : Option Kernel := do
  let oldStatus := k.level
  let k := k.setStatus .off
  let k := { k with threadToBeDestroyed := some k.currentThread }
  let alive ← removeItem k.currentThread [] k.alive
  { k with alive := alive }.sleep (.finish oldStatus)

/-- `Thread::Yield`. -/
def yield (k : Kernel) : Option Kernel :=
  let oldLevel := k.level
  let k := k.setStatus .off
  match k.readyList with
  | [] => some (k.setStatus oldLevel)
  | nextThread :: rest =>
      let k := { k with readyList := rest }.readyToRun k.currentThread
      (k.saveResume k.currentThread (.yield oldLevel)).switchTo nextThread

/-! ## `kernel/synch.cc` -/

/-- `Semaphore::P`. -/
def semP (k : Kernel) (s : SemId) : Option Kernel :=
  let oldLevel := k.level
  let k := k.setStatus .off
  let sem := k.semaphore s
  if sem.value ≤ 0 then
    (k.setSemaphore s { sem with queue := sem.queue ++ [k.currentThread] }).sleep (.semP s oldLevel)
  else
    some ((k.setSemaphore s { sem with value := sem.value - 1 }).setStatus oldLevel)

/-- `Semaphore::V`. -/
def semV (k : Kernel) (s : SemId) : Kernel :=
  let oldLevel := k.level
  let k := k.setStatus .off
  let sem := k.semaphore s
  match sem.queue with
  | [] => (k.setSemaphore s { sem with value := sem.value + 1 }).setStatus oldLevel
  | t :: rest => ((k.setSemaphore s ⟨sem.value + 1, rest⟩).readyToRun t).setStatus oldLevel

/-- `Lock::Acquire`. -/
def lockAcquire (k : Kernel) (l : LockId) : Option Kernel :=
  let oldLevel := k.level
  let k := k.setStatus .off
  let lock := k.lock l
  if lock.free = false then
    (k.setLock l { lock with sleepqueue := lock.sleepqueue ++ [k.currentThread] }).sleep
      (.lockAcquire l oldLevel)
  else
    some ((k.setLock l { lock with owner := some k.currentThread, free := false }).setStatus oldLevel)

/-- `Lock::Release`: `none` when the `ASSERT` on the owner fails. -/
def lockRelease (k : Kernel) (l : LockId) : Option Kernel :=
  let oldLevel := k.level
  let k := k.setStatus .off
  let lock := k.lock l
  if lock.owner = some k.currentThread then
    match lock.sleepqueue with
    | [] => some ((k.setLock l { lock with free := true, owner := none }).setStatus oldLevel)
    | t :: rest =>
        some (((k.setLock l ⟨rest, lock.free, some t⟩).readyToRun t).setStatus oldLevel)
  else none

/-- `Condition::Wait`. -/
def condWait (k : Kernel) (c : CondId) : Option Kernel :=
  let oldLevel := k.level
  (k.setStatus .off).sleep (.condWait c oldLevel)

/-- `Condition::Signal`. -/
def condSignal (k : Kernel) (c : CondId) : Kernel :=
  let oldLevel := k.level
  let k := k.setStatus .off
  match (k.condition c).waitqueue with
  | [] => k.setStatus oldLevel
  | t :: rest => ((k.setCondition c ⟨rest⟩).readyToRun t).setStatus oldLevel

/-- `Condition::Broadcast`: the threads of the wait queue, first to last, go to
    the ready list. -/
def condBroadcast (k : Kernel) (c : CondId) : Kernel :=
  let oldLevel := k.level
  let k := k.setStatus .off
  ((k.condition c).waitqueue.foldl readyToRun (k.setCondition c ⟨[]⟩)).setStatus oldLevel

/-- The handlers of the interrupts that are due, run with interrupts off; each
    of them calls `V`. -/
def handlers (k : Kernel) (vs : List SemId) : Kernel := vs.foldl semV k

end Kernel

/-- One step of the kernel: an operation called by the current thread, the
    handlers of due interrupts, or a turn of the loop of `Thread::Sleep`. -/
inductive Action where
  | newThread (t : ThreadId)
  | newProcess (p : ProcessId)
  | start (t : ThreadId) (owner : ProcessId)
  | finish
  | yield
  | setStatus (now : IntStatus)
  | semP (s : SemId)
  | semV (s : SemId)
  | lockAcquire (l : LockId)
  | lockRelease (l : LockId)
  | condWait (c : CondId)
  | condSignal (c : CondId)
  | condBroadcast (c : CondId)
  /-- `Interrupt::OneTick`: interrupts are on, the handlers call `V`. -/
  | interrupt (vs : List SemId)
  /-- `FindNextToRun` is `NULL`: `Interrupt::Idle` runs handlers. -/
  | idle (vs : List SemId)
  /-- `FindNextToRun` gives a thread: switch to it. -/
  | dispatch
deriving DecidableEq, Repr

namespace Kernel

/-- A step of the kernel; `none` when it cannot be taken (the wrong thread
    state, a failed `ASSERT`, or a pointer to no object). -/
def step (k : Kernel) : Action → Option Kernel
  | .dispatch =>
      match k.sleeping, k.readyList with
      | true, t :: rest => { k with readyList := rest }.switchTo t
      | _, _ => none
  | .idle vs => if k.sleeping = true ∧ k.readyList = [] then some (k.handlers vs) else none
  | .interrupt vs =>
      if k.sleeping = false ∧ k.level = .on then
        some (((k.setStatus .off).handlers vs).setStatus .on)
      else none
  | a => if k.sleeping then none else
      match a with
      | .newThread t =>
          if k.thread t = none then some (k.setThread t Thread.create) else none
      | .newProcess p =>
          if k.process p = none then some (k.setProcess p ⟨0, false⟩) else none
      | .start t owner => k.start t owner
      | .finish => k.finish
      | .yield => k.yield
      | .setStatus now => some (k.setStatus now)
      | .semP s => k.semP s
      | .semV s => some (k.semV s)
      | .lockAcquire l => k.lockAcquire l
      | .lockRelease l => k.lockRelease l
      | .condWait c => k.condWait c
      | .condSignal c => some (k.condSignal c)
      | .condBroadcast c => some (k.condBroadcast c)
      | _ => none

end Kernel

end Nachos
