/-
  Nachos.Machine.Simulator

  The kernel running on the simulated machine, one statement at a time.  The
  interrupt level is one variable of the machine, but each kernel operation saves
  it in a variable of its own, an operation may be left in `Scheduler::SwitchTo`
  and come back much later, and turning interrupts on runs `Interrupt::OneTick`,
  with handlers and possibly a `Yield`, in the middle of the operation.  So every
  thread has a kernel stack: one frame for each call that has not returned, with
  the statements still to execute and the local variables.

  The statements (`Instr`) are those of `kernel/thread.cc`, `kernel/synch.cc`,
  `kernel/scheduler.cc` and `machine/interrupt.cc`, in the order of the source.
  What the code above these operations does is not fixed: at the statements
  `kernel`, `systemCall`, `handler` and `run` the next `Move` says which operation
  is called, which interrupt a device schedules, or which instruction or
  exception comes next.
-/

import Nachos.Kernel.Thread
import Nachos.Machine.Interrupt

namespace Nachos

/-- `IDLE_MODE`, `SYSTEM_MODE` and `USER_MODE`. -/
inductive MachineStatus where
  | idle
  | system
  | user
deriving DecidableEq, Repr

/-- The operations the code above may call. -/
inductive Op where
  | semP (s : SemId)
  | semV (s : SemId)
  /-- `DriverConsole::PutAChar` and `GetAChar`, called by handlers. -/
  | putAChar (s : SemId)
  | lockAcquire (l : LockId)
  | lockRelease (l : LockId)
  | condWait (c : CondId)
  | condSignal (c : CondId)
  | condBroadcast (c : CondId)
  | yield
  | start (t : ThreadId) (owner : ProcessId)
  | finish
deriving DecidableEq, Repr

inductive Instr where
  -- The interrupt level, as the operations use it.
  | getStatus
  | setStatus (now : IntStatus)
  | restoreStatus
  -- Between the two, in `kernel/synch.cc`.
  | semTest (s : SemId)
  | semTake (s : SemId)
  | semPost (s : SemId)
  | lockTest (l : LockId)
  | lockPass (l : LockId)
  | condNext (c : CondId)
  | condAll (c : CondId)
  -- In `kernel/thread.cc` and `kernel/scheduler.cc`.
  | call (o : Op)
  | sleep
  | start (t : ThreadId) (owner : ProcessId)
  | markFinished
  | yieldNext
  | assertSleep
  | findNext
  | switchTo (nextThread : ThreadId)
  | destroyFinished
  | leaveProcess (t : ThreadId)
  -- In `machine/interrupt.cc`.
  | assertOneTick
  | incrTicks (nbcycles : Nat)
  | changeLevel (now : IntStatus)
  | callCheckIfDue (advanceClock : Bool)
  | whileFired
  | yieldIfAsked
  | setMachineStatus (st : MachineStatus)
  | haltUnlessFired
  | forgetYield
  | assertCheckIfDue
  | saveMachineStatus
  | restoreMachineStatus
  | takeDue (advanceClock : Bool)
  | enterHandler
  | leaveHandler
  -- Where the code above decides.
  | kernel
  | systemCall
  | handler
  | run
deriving DecidableEq, Repr

/-- The bodies of the operations.  Where the source has
    `oldLevel = SetStatus(INTERRUPTS_OFF)` it saves the level first as well. -/
def Op.code : Op → List Instr
  | .semP s => [.getStatus, .setStatus .off, .semTest s, .semTake s, .restoreStatus]
  | .semV s => [.getStatus, .setStatus .off, .semPost s, .restoreStatus]
  | .putAChar s => [.getStatus, .setStatus .off, .call (.semV s), .restoreStatus]
  | .lockAcquire l => [.getStatus, .setStatus .off, .lockTest l, .restoreStatus]
  | .lockRelease l => [.getStatus, .setStatus .off, .lockPass l, .restoreStatus]
  | .condWait _ => [.getStatus, .setStatus .off, .sleep, .restoreStatus]
  | .condSignal c => [.getStatus, .setStatus .off, .condNext c, .restoreStatus]
  | .condBroadcast c => [.getStatus, .setStatus .off, .condAll c, .restoreStatus]
  | .yield => [.getStatus, .setStatus .off, .yieldNext, .restoreStatus]
  | .start t owner => [.getStatus, .setStatus .off, .start t owner, .restoreStatus]
  | .finish => [.getStatus, .setStatus .off, .markFinished, .sleep, .restoreStatus]

namespace Code

/-- `Thread::Sleep`. -/
def sleep : List Instr := [.assertSleep, .findNext]

/-- `Scheduler::SwitchTo`. -/
def switchTo (nextThread : ThreadId) : List Instr := [.switchTo nextThread, .destroyFinished]

/-- `Thread::~Thread`. -/
def deleteThread (t : ThreadId) : List Instr :=
  [.getStatus, .setStatus .off, .leaveProcess t, .restoreStatus]

/-- `StartThreadExecution`, with the head of `Machine::Run`. -/
def startThreadExecution : List Instr := [.setStatus .on, .setMachineStatus .user, .run]

/-- `Machine::RaiseException`. -/
def raiseException : List Instr :=
  [.setMachineStatus .system, .systemCall, .setMachineStatus .user]

/-- `Interrupt::OneTick`. -/
def oneTick (nbcycles : Nat) : List Instr :=
  [.assertOneTick, .saveMachineStatus, .incrTicks nbcycles, .changeLevel .off,
    .callCheckIfDue false, .whileFired, .changeLevel .on, .yieldIfAsked]

/-- `Interrupt::Idle`. -/
def idle : List Instr :=
  [.setMachineStatus .idle, .callCheckIfDue true, .haltUnlessFired, .callCheckIfDue false,
    .whileFired, .forgetYield, .setMachineStatus .system]

/-- `Interrupt::CheckIfDue`; what follows a `takeDue` that fires is `fire`. -/
def checkIfDue (advanceClock : Bool) : List Instr :=
  [.saveMachineStatus, .assertCheckIfDue, .takeDue advanceClock]

def fire : List Instr :=
  [.enterHandler, .setMachineStatus .system, .handler, .restoreMachineStatus, .leaveHandler]

/-- The rest of `Initialize`, and `main`. -/
def main : List Instr := [.setStatus .on, .kernel, .call .finish]

end Code

/-- The level a piece of code runs at, and whether it runs for a handler. -/
structure Levels where
  level : IntStatus
  inHandler : Bool
deriving DecidableEq, Repr

/-- A call that has not returned.  `entry` is no variable of the code: it records
    the levels the caller had when it called. -/
structure Frame where
  code : List Instr
  oldLevel : IntStatus
  oldStatus : MachineStatus
  entry : Levels
deriving DecidableEq, Repr

/-- The `ASSERT`s the model knows. -/
inductive Assertion where
  | setStatus
  | oneTick
  | checkIfDue
  | sleep
  | isHeldByCurrentThread
  | processNull
  | fromNow
deriving DecidableEq, Repr

structure Simulator where
  level : IntStatus
  inHandler : Bool
  yieldOnReturn : Bool
  status : MachineStatus
  clock : Clock
  /-- What the last `CheckIfDue` returned. -/
  fired : Bool
  currentThread : ThreadId
  /-- The kernel stack of the current thread, top frame first. -/
  stack : List Frame
  /-- `simulator_context`: the kernel stacks of the other threads. -/
  context : ThreadId → List Frame
  readyList : List ThreadId
  threadToBeDestroyed : Option ThreadId
  alive : List ThreadId
  owner : ThreadId → Option ProcessId
  numThreads : ProcessId → Int
  semaphore : SemId → Semaphore
  lock : LockId → Lock
  condition : CondId → Condition
  /-- `Interrupt::Halt` has been called. -/
  halted : Bool
  /-- The `ASSERT` that has failed. -/
  failed : Option Assertion

namespace Simulator

def levels (m : Simulator) : Levels := ⟨m.level, m.inHandler⟩

/-- `Initialize` up to the point where it turns interrupts on. -/
def initialized (initialValue : SemId → Int) : Simulator where
  level := .off
  inHandler := false
  yieldOnReturn := false
  status := .system
  clock := Clock.initial
  fired := false
  currentThread := 0
  stack := [⟨Code.main, .off, .system, ⟨.off, false⟩⟩]
  context _ := []
  readyList := []
  threadToBeDestroyed := none
  alive := [0]
  owner := Function.update (fun _ => none) 0 (some 0)
  numThreads := Function.update (fun _ => 0) 0 1
  semaphore s := ⟨initialValue s, []⟩
  lock _ := ⟨[], true, none⟩
  condition _ := ⟨[]⟩
  halted := false
  failed := none

/-! ## The current stack

The functions below are given the top frame, already past the statement it
executes, and the frames under it. -/

/-- The top frame goes on. -/
def goOn (m : Simulator) (f : Frame) (rest : List Frame) : Simulator :=
  { m with stack := f :: rest }

/-- The top frame calls a function with this body. -/
def enter (m : Simulator) (code : List Instr) (f : Frame) (rest : List Frame) : Simulator :=
  { m with stack := ⟨code, m.level, m.status, m.levels⟩ :: f :: rest }

def fail (m : Simulator) (a : Assertion) : Simulator := { m with failed := some a }

/-- `Scheduler::ReadyToRun`. -/
def readyToRun (m : Simulator) (t : ThreadId) : Simulator :=
  { m with readyList := m.readyList ++ [t] }

def setSemaphore (m : Simulator) (s : SemId) (x : Semaphore) : Simulator :=
  { m with semaphore := Function.update m.semaphore s x }

def setLock (m : Simulator) (l : LockId) (x : Lock) : Simulator :=
  { m with lock := Function.update m.lock l x }

def setCondition (m : Simulator) (c : CondId) (x : Condition) : Simulator :=
  { m with condition := Function.update m.condition c x }

/-- `Interrupt::SetStatus`. -/
def setStatus (m : Simulator) (now : IntStatus) (f : Frame) (rest : List Frame) : Simulator :=
  if now = .off ∨ m.inHandler = false then
    let old := m.level
    let m := { m with level := now }
    if now = .on ∧ old = .off then m.enter (Code.oneTick 1) f rest else m.goOn f rest
  else m.fail .setStatus

/-! ## Statements -/

def semPost (m : Simulator) (s : SemId) : Simulator :=
  let sem := m.semaphore s
  match sem.queue with
  | [] => m.setSemaphore s { sem with value := sem.value + 1 }
  | t :: queue => (m.setSemaphore s ⟨sem.value + 1, queue⟩).readyToRun t

def lockPass (m : Simulator) (l : LockId) : Simulator :=
  let lock := m.lock l
  match lock.sleepqueue with
  | [] => m.setLock l { lock with free := true, owner := none }
  | t :: sleepqueue => (m.setLock l ⟨sleepqueue, lock.free, some t⟩).readyToRun t

def condNext (m : Simulator) (c : CondId) : Simulator :=
  match (m.condition c).waitqueue with
  | [] => m
  | t :: waitqueue => (m.setCondition c ⟨waitqueue⟩).readyToRun t

def condAll (m : Simulator) (c : CondId) : Simulator :=
  (m.condition c).waitqueue.foldl readyToRun (m.setCondition c ⟨[]⟩)

/-- `Thread::Start`, between the two `SetStatus`. -/
def start (m : Simulator) (t : ThreadId) (owner : ProcessId) : Simulator :=
  { m with
    owner := Function.update m.owner t (some owner)
    numThreads := Function.update m.numThreads owner (m.numThreads owner + 1)
    context := Function.update m.context t
      [⟨Code.startThreadExecution, .off, .system, ⟨.off, false⟩⟩]
    alive := m.alive ++ [t] }.readyToRun t

/-- `Scheduler::SwitchTo` up to the point where it runs as `nextThread`: that
    thread goes on where it was left. -/
def switchTo (m : Simulator) (nextThread : ThreadId) (f : Frame) (rest : List Frame) : Simulator :=
  let m := m.goOn f rest
  if m.currentThread = nextThread then m
  else
    { m with
      currentThread := nextThread
      context := Function.update m.context m.currentThread m.stack
      stack := m.context nextThread }

/-- Take the thread from its process, and delete its stack unless it is in use;
    the last thread deletes the process, which may take any operation. -/
def leaveProcess (m : Simulator) (t : ThreadId) (f : Frame) (rest : List Frame) :
    Option Simulator := do
  let p ← m.owner t
  let numThreads := m.numThreads p - 1
  let m :=
    { m with
      numThreads := Function.update m.numThreads p numThreads
      context := Function.update m.context t [] }
  return if numThreads = 0 then m.enter [.kernel] f rest else m.goOn f rest

/-- Execute a statement of the top frame. -/
def exec (m : Simulator) (f : Frame) (rest : List Frame) : Instr → Option Simulator
  | .getStatus => m.goOn { f with oldLevel := m.level } rest
  | .setStatus now => m.setStatus now f rest
  | .restoreStatus => m.setStatus f.oldLevel f rest
  | .semTest s =>
      let sem := m.semaphore s
      if sem.value ≤ 0 then
        (m.setSemaphore s { sem with queue := sem.queue ++ [m.currentThread] }).enter
          Code.sleep f rest
      else m.goOn f rest
  | .semTake s =>
      let sem := m.semaphore s
      (m.setSemaphore s { sem with value := sem.value - 1 }).goOn f rest
  | .semPost s => (m.semPost s).goOn f rest
  | .lockTest l =>
      let lock := m.lock l
      if lock.free = false then
        (m.setLock l { lock with sleepqueue := lock.sleepqueue ++ [m.currentThread] }).enter
          Code.sleep f rest
      else (m.setLock l { lock with owner := some m.currentThread, free := false }).goOn f rest
  | .lockPass l =>
      if (m.lock l).owner = some m.currentThread then (m.lockPass l).goOn f rest
      else m.fail .isHeldByCurrentThread
  | .condNext c => (m.condNext c).goOn f rest
  | .condAll c => (m.condAll c).goOn f rest
  | .call o => m.enter o.code f rest
  | .sleep => m.enter Code.sleep f rest
  | .start t owner =>
      if m.owner t = none then (m.start t owner).goOn f rest else m.fail .processNull
  | .markFinished => do
      let alive ← Kernel.removeItem m.currentThread [] m.alive
      return { m with threadToBeDestroyed := some m.currentThread, alive := alive }.goOn f rest
  | .yieldNext =>
      match m.readyList with
      | [] => m.goOn f rest
      | nextThread :: readyList =>
          ({ m with readyList := readyList }.readyToRun m.currentThread).enter
            (Code.switchTo nextThread) f rest
  | .assertSleep => if m.level = .off then m.goOn f rest else m.fail .sleep
  | .findNext =>
      match m.readyList with
      | [] => m.enter Code.idle { f with code := .findNext :: f.code } rest
      | nextThread :: readyList =>
          { m with readyList := readyList }.enter (Code.switchTo nextThread) f rest
  | .switchTo nextThread => m.switchTo nextThread f rest
  | .destroyFinished =>
      match m.threadToBeDestroyed with
      | none => m.goOn f rest
      | some t => { m with threadToBeDestroyed := none }.enter (Code.deleteThread t) f rest
  | .leaveProcess t => m.leaveProcess t f rest
  | .assertOneTick => if m.level = .on then m.goOn f rest else m.fail .oneTick
  | .incrTicks nbcycles => { m with clock := m.clock.incrTotalTicks nbcycles }.goOn f rest
  | .changeLevel now => { m with level := now }.goOn f rest
  | .callCheckIfDue advanceClock => m.enter (Code.checkIfDue advanceClock) f rest
  | .whileFired =>
      if m.fired then
        m.goOn { f with code := .callCheckIfDue false :: .whileFired :: f.code } rest
      else m.goOn f rest
  | .yieldIfAsked =>
      if m.yieldOnReturn then
        { m with yieldOnReturn := false, status := .system }.enter Op.yield.code
          { f with code := .restoreMachineStatus :: f.code } rest
      else m.goOn f rest
  | .setMachineStatus st => { m with status := st }.goOn f rest
  | .haltUnlessFired => if m.fired then m.goOn f rest else some { m with halted := true }
  | .forgetYield => { m with yieldOnReturn := false }.goOn f rest
  | .assertCheckIfDue => if m.level = .off then m.goOn f rest else m.fail .checkIfDue
  | .saveMachineStatus => m.goOn { f with oldStatus := m.status } rest
  | .restoreMachineStatus => { m with status := f.oldStatus }.goOn f rest
  | .takeDue advanceClock =>
      let r := m.clock.checkIfDue advanceClock (m.status = .idle)
      let m := { m with clock := r.1, fired := r.2 }
      if r.2 then m.goOn { f with code := Code.fire ++ f.code } rest else m.goOn f rest
  | .enterHandler => { m with inHandler := true }.goOn f rest
  | .leaveHandler => { m with inHandler := false, fired := true }.goOn f rest
  | .kernel | .systemCall | .handler | .run => none

/-- `Interrupt::Schedule`, called by a device; `fromNow` is an `int`. -/
def schedule (m : Simulator) (fromNow : Int) (type : IntType) : Simulator :=
  if 0 < fromNow then { m with clock := m.clock.schedule fromNow.toNat type }
  else m.fail .fromNow

end Simulator

/-- What comes next. -/
inductive Move where
  /-- The next statement, or the return of a frame without statements. -/
  | next
  | call (o : Op)
  | schedule (fromNow : Int) (type : IntType)
  /-- `Interrupt::YieldOnReturn`. -/
  | yieldOnReturn
  /-- A user instruction has been executed, or the ACIA is polled. -/
  | oneTick (nbcycles : Nat)
  | raiseException
deriving DecidableEq, Repr

namespace Simulator

/-- What the code above does at a statement that leaves it open.  Here `f` is the
    top frame, still at the statement, and `g` the frame past it. -/
def choose (m : Simulator) (f g : Frame) (rest : List Frame) : Instr → Move → Option Simulator
  | .kernel, .next => m.goOn g rest
  | .kernel, .call o => m.enter o.code f rest
  | .kernel, .schedule fromNow type => m.schedule fromNow type
  | .systemCall, .next => m.goOn g rest
  | .systemCall, .call o => m.enter o.code f rest
  | .systemCall, .schedule fromNow type => m.schedule fromNow type
  | .systemCall, .oneTick nbcycles => m.enter (Code.oneTick nbcycles) f rest
  | .handler, .next => m.goOn g rest
  | .handler, .call (.semV s) => m.enter (Op.semV s).code f rest
  | .handler, .call (.putAChar s) => m.enter (Op.putAChar s).code f rest
  | .handler, .schedule fromNow type => m.schedule fromNow type
  | .handler, .yieldOnReturn => some { m with yieldOnReturn := true }
  | .run, .oneTick nbcycles => { m with status := .user }.enter (Code.oneTick nbcycles) f rest
  | .run, .raiseException => m.enter Code.raiseException f rest
  | _, _ => none

/-- One step of the machine; `none` where there is no such step, because the
    machine has stopped or the code does not make this move. -/
def step (m : Simulator) (mv : Move) : Option Simulator :=
  if m.halted = true ∨ m.failed ≠ none then none
  else
    match m.stack, mv with
    | [], _ => none
    | ⟨[], _, _, _⟩ :: rest, .next => some { m with stack := rest }
    | ⟨[], _, _, _⟩ :: _, _ => none
    | f@⟨i :: code, _, _, _⟩ :: rest, mv =>
        let g := { f with code := code }
        match i with
        | .kernel | .systemCall | .handler | .run => m.choose f g rest i mv
        | i => if mv = .next then m.exec g rest i else none

/-- The statement about to be executed. -/
def top (m : Simulator) : Option Instr := m.stack.head?.bind fun f => f.code.head?

/-- Everything a step can do. -/
theorem step_cases {m m' : Simulator} {mv : Move} (h : m.step mv = some m') :
    m.halted = false ∧ m.failed = none ∧ ∃ f rest, m.stack = f :: rest ∧
      ((f.code = [] ∧ m' = { m with stack := rest }) ∨
        ∃ i code, f.code = i :: code ∧
          (m.choose f { f with code := code } rest i mv = some m' ∨
            m.exec { f with code := code } rest i = some m')) := by
  unfold step at h
  split at h
  · exact nomatch h
  rename_i hlive
  obtain ⟨hhalt, hfail⟩ := not_or.mp hlive
  refine ⟨Bool.eq_false_of_not_eq_true hhalt, not_not.mp hfail, ?_⟩
  split at h
  · exact nomatch h
  · rename_i o st e rest hs
    exact ⟨⟨[], o, st, e⟩, rest, hs, Or.inl ⟨rfl, (Option.some.inj h).symm⟩⟩
  · exact nomatch h
  · rename_i i code o st e rest hs
    refine ⟨⟨i :: code, o, st, e⟩, rest, hs, Or.inr ⟨i, code, rfl, ?_⟩⟩
    dsimp only at h
    split at h
    · exact Or.inl h
    · exact Or.inl h
    · exact Or.inl h
    · exact Or.inl h
    · split at h
      · exact Or.inr h
      · exact nomatch h

end Simulator

end Nachos
