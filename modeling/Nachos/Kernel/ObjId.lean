/-
  Nachos.Kernel.ObjId

  The system calls on kernel objects (`kernel/exception.cc`, `utility/objid.h`).
  A user program names an object by an identifier; the table `g_object_ids` maps
  it to the address of the object, and a system call trusts what it finds there
  once the `typeId` field has the right value.

  Semaphores, locks, conditions, open files and threads lie in one memory, and an
  address that has been freed may be used again.  The object last built at an
  address is known by a number that is never used twice, so the thread system
  under the calls is `Kernel` with these numbers as its names.  A deleted object
  keeps its `typeId`, which its destructor made invalid, until the address is
  used again.
-/

import Nachos.Kernel.Destroy

namespace Nachos

abbrev Addr := Nat

inductive Object where
  | semaphore (s : SemId)
  | lock (l : LockId)
  | condition (c : CondId)
  | file (f : Nat)
  | thread (t : ThreadId)
deriving DecidableEq, Repr

def Object.number : Object → Nat
  | .semaphore n | .lock n | .condition n | .file n | .thread n => n

/-- The value `last_id++` leaves in an `int`. -/
def nextId (last_id : Int) : Int := (last_id + 1 + 2 ^ 31) % 2 ^ 32 - 2 ^ 31

/-- `ObjId`.  `SearchObject` is the function `ids`: an identifier the map does not
    have gives `NULL`. -/
structure ObjId where
  last_id : Int
  ids : Int → Option Addr

namespace ObjId

/-- 0, 1 and 2 are used for file descriptors. -/
def create : ObjId := ⟨3, fun _ => none⟩

def addObject (o : ObjId) (ptr : Addr) : ObjId :=
  ⟨nextId o.last_id, Function.update o.ids o.last_id (some ptr)⟩

def removeObject (o : ObjId) (id : Int) : ObjId :=
  { o with ids := Function.update o.ids id none }

end ObjId

/-- Why a system call does not return: an `ASSERT` of the kernel, or a thread that
    goes on in an object whose memory has been freed. -/
inductive Failure where
  | isHeldByCurrentThread
  | semaphoreQueue
  | lockSleepqueue
  | conditionWaitqueue
  | freedMemory
deriving DecidableEq, Repr

structure System where
  kernel : Kernel
  objectIds : ObjId
  /-- The object last built at an address. -/
  memory : Addr → Option Object
  /-- The objects other than threads that have been deleted. -/
  deleted : Object → Bool
  /-- What `AddObject` was last given for an identifier. -/
  registered : Int → Option Object
  /-- The number of the next object. -/
  numObjects : Nat
  /-- The semaphores with smaller numbers belong to the device drivers. -/
  drivers : Nat
  /-- The thread a thread in `Thread::Join` waits for. -/
  joining : ThreadId → Option Addr
  /-- What the last system call of a thread returns. -/
  reply : ThreadId → Option Int
  failed : Option Failure

inductive SystemCall where
  | semCreate (initialValue : Int) (a : Addr)
  | semDestroy (id : Int)
  | semP (id : Int)
  | semV (id : Int)
  | lockCreate (a : Addr)
  | lockDestroy (id : Int)
  | lockAcquire (id : Int)
  | lockRelease (id : Int)
  | condCreate (a : Addr)
  | condDestroy (id : Int)
  | condWait (id : Int)
  | condSignal (id : Int)
  | condBroadcast (id : Int)
  | openFile (a : Addr)
  | close (id : Int)
  | exec (a : Addr)
  | newThread (a : Addr)
  | join (id : Int)
  | yield
  | exit
  /-- A call that waits for a device: `P` on a semaphore of its driver. -/
  | device (s : SemId)
deriving DecidableEq, Repr

/-- A system call of the running thread, with the address its allocation gets, or
    what the kernel does by itself. -/
inductive Request where
  | call (c : SystemCall)
  /-- A turn of the loop in `Thread::Join`. -/
  | joinLoop
  | interrupt (vs : List SemId)
  | idle (vs : List SemId)
  | dispatch
deriving DecidableEq, Repr

namespace System

/-- The kernel runs the thread "main-temp", and no object is registered. -/
def booted (initialValue : SemId → Int) (drivers : Nat) : System where
  kernel := Kernel.initialized initialValue
  objectIds := ObjId.create
  memory _ := none
  deleted _ := false
  registered _ := none
  numObjects := drivers + 1
  drivers := drivers
  joining _ := none
  reply _ := none
  failed := none

/-- The object has been built and not deleted. -/
def live (s : System) : Object → Bool
  | .thread t => (s.kernel.thread t).any fun th => th.typeId = .thread
  | o => !s.deleted o

/-- The object a system call finds under an identifier: `SearchObject`, and the
    look at the `typeId` of what the pointer points to. -/
def search (s : System) (id : Int) : Option Object :=
  (s.objectIds.ids id).bind fun a => (s.memory a).filter s.live

def fail (s : System) (f : Failure) : System := { s with failed := some f }

/-- The value the call of the current thread returns. -/
def answer (s : System) (n : Int) : System :=
  { s with reply := Function.update s.reply s.kernel.currentThread (some n) }

def delete (s : System) (o : Object) : System :=
  { s with deleted := Function.update s.deleted o true }

/-- `new`, at an address that is not in use. -/
def build (s : System) (a : Addr) (o : Object) : Option System :=
  if (s.memory a).any s.live then none
  else
    some { s with
      memory := Function.update s.memory a (some o)
      numObjects := s.numObjects + 1 }

/-- `AddObject`, whose result the call returns. -/
def register (s : System) (a : Addr) (o : Object) : System :=
  { s with
    objectIds := s.objectIds.addObject a
    registered := Function.update s.registered s.objectIds.last_id (some o) }.answer
    s.objectIds.last_id

/-- The thread the step switches to goes on in `P` of a deleted semaphore. -/
def resumesFreed (s : System) (a : Action) : Bool :=
  match Kernel.returning s.kernel a with
  | some (.semP n _) => s.deleted (.semaphore n)
  | _ => false

/-- An action of the thread system. -/
def act (s : System) (a : Action) : Option System :=
  (s.kernel.step a).map fun k =>
    { s with kernel := k, failed := if s.resumesFreed a then some .freedMemory else s.failed }

/-! ## System calls -/

/-- `new` of an object, and `AddObject`. -/
def create (s : System) (a : Addr) (o : Object) : Option System :=
  (s.build a o).map fun s => s.register a o

def semCreate (s : System) (initialValue : Int) (a : Addr) : Option System :=
  -- A number that was not used before names a semaphore nobody waits for.
  if (s.kernel.semaphore s.numObjects).queue = [] then
    { s with kernel := s.kernel.setSemaphore s.numObjects ⟨initialValue, []⟩ }.create a
      (.semaphore s.numObjects)
  else none

def lockCreate (s : System) (a : Addr) : Option System :=
  if (s.kernel.lock s.numObjects).sleepqueue = [] then
    { s with kernel := s.kernel.setLock s.numObjects ⟨[], true, none⟩ }.create a
      (.lock s.numObjects)
  else none

def condCreate (s : System) (a : Addr) : Option System :=
  if (s.kernel.condition s.numObjects).waitqueue = [] then
    { s with kernel := s.kernel.setCondition s.numObjects ⟨[]⟩ }.create a
      (.condition s.numObjects)
  else none

def openFile (s : System) (a : Addr) : Option System := s.create a (.file s.numObjects)

/-- `new Thread`, `AddObject` and `Start`, in the process `owner`. -/
def startThread (s : System) (owner : ProcessId) (a : Addr) : Option System := do
  let t := s.numObjects
  let s ← s.build a (.thread t)
  let s ← s.act (.newThread t)
  (s.register a (.thread t)).act (.start t owner)

/-- The `exec` call, where `new Process` succeeds. -/
def exec (s : System) (a : Addr) : Option System := do
  let p := s.numObjects
  let s ← s.act (.newProcess p)
  s.startThread p a

def newThread (s : System) (a : Addr) : Option System := do
  let p ← s.kernel.processOf s.kernel.currentThread
  s.startThread p a

/-- A call that applies an operation to what it finds under the identifier, if that
    is an object of the right type. -/
def applyTo (s : System) (id : Int) (operation : Object → Option Action) : Option System :=
  match (s.search id).bind operation with
  | some x => (s.answer 0).act x
  | none => s.answer (-1)

def semP (s : System) (id : Int) : Option System :=
  s.applyTo id fun
    | .semaphore n => some (.semP n)
    | _ => none

def semV (s : System) (id : Int) : Option System :=
  s.applyTo id fun
    | .semaphore n => some (.semV n)
    | _ => none

def lockAcquire (s : System) (id : Int) : Option System :=
  s.applyTo id fun
    | .lock n => some (.lockAcquire n)
    | _ => none

/-- `Lock::Release` has an `ASSERT`. -/
def lockRelease (s : System) (id : Int) : Option System :=
  match s.search id with
  | some (.lock n) =>
      if (s.kernel.lock n).owner = some s.kernel.currentThread then
        (s.answer 0).act (.lockRelease n)
      else s.fail .isHeldByCurrentThread
  | _ => s.answer (-1)

def condWait (s : System) (id : Int) : Option System :=
  s.applyTo id fun
    | .condition n => some (.condWait n)
    | _ => none

def condSignal (s : System) (id : Int) : Option System :=
  s.applyTo id fun
    | .condition n => some (.condSignal n)
    | _ => none

def condBroadcast (s : System) (id : Int) : Option System :=
  s.applyTo id fun
    | .condition n => some (.condBroadcast n)
    | _ => none

/-- The queue whose emptiness the destructor of a semaphore asserts. -/
def semaphoreQueue (s : System) : Object → Option (List ThreadId)
  | .semaphore n => some (s.kernel.semaphore n).queue
  | _ => none

def lockSleepqueue (s : System) : Object → Option (List ThreadId)
  | .lock n => some (s.kernel.lock n).sleepqueue
  | _ => none

def conditionWaitqueue (s : System) : Object → Option (List ThreadId)
  | .condition n => some (s.kernel.condition n).waitqueue
  | _ => none

/-- A call that deletes the object it finds under the identifier, if that is one of
    those with such a queue; `f` is the `ASSERT` of the destructor. -/
def destroy (s : System) (id : Int) (queue : Object → Option (List ThreadId)) (f : Failure) :
    System :=
  match s.search id with
  | none => s.answer (-1)
  | some o =>
      match queue o with
      | none => s.answer (-1)
      | some [] => (s.delete o).answer 0
      | some (_ :: _) => s.fail f

def semDestroy (s : System) (id : Int) : System := s.destroy id s.semaphoreQueue .semaphoreQueue

def lockDestroy (s : System) (id : Int) : System := s.destroy id s.lockSleepqueue .lockSleepqueue

def condDestroy (s : System) (id : Int) : System :=
  s.destroy id s.conditionWaitqueue .conditionWaitqueue

def close (s : System) (id : Int) : System :=
  match s.search id with
  | some (.file f) =>
      ({ s with objectIds := s.objectIds.removeObject id }.delete (.file f)).answer 0
  | _ => s.answer (-1)

def join (s : System) (id : Int) : System :=
  match s.search id with
  | some (.thread _) =>
      { s.answer 0 with
        joining := Function.update s.joining s.kernel.currentThread (s.objectIds.ids id) }
  | _ => s.answer 0

/-- `g_alive->Search(Idthread)`, for the address of `Idthread`. -/
def aliveAt (s : System) (a : Addr) : Bool :=
  match s.memory a with
  | some (.thread t) => t ∈ s.kernel.alive
  | _ => false

/-- `while (g_alive->Search(Idthread)) Yield();` -/
def joinLoop (s : System) : Option System :=
  match s.joining s.kernel.currentThread with
  | none => none
  | some a =>
      if s.aliveAt a then s.act .yield
      else some { s with joining := Function.update s.joining s.kernel.currentThread none }

def systemCall (s : System) : SystemCall → Option System
  | .semCreate initialValue a => s.semCreate initialValue a
  | .semDestroy id => s.semDestroy id
  | .semP id => s.semP id
  | .semV id => s.semV id
  | .lockCreate a => s.lockCreate a
  | .lockDestroy id => s.lockDestroy id
  | .lockAcquire id => s.lockAcquire id
  | .lockRelease id => s.lockRelease id
  | .condCreate a => s.condCreate a
  | .condDestroy id => s.condDestroy id
  | .condWait id => s.condWait id
  | .condSignal id => s.condSignal id
  | .condBroadcast id => s.condBroadcast id
  | .openFile a => s.openFile a
  | .close id => s.close id
  | .exec a => s.exec a
  | .newThread a => s.newThread a
  | .join id => s.join id
  | .yield => s.act .yield
  | .exit => s.act .finish
  | .device n => if n < s.drivers then s.act (.semP n) else none

/-- One step; `none` where the step cannot be taken. -/
def step (s : System) (r : Request) : Option System :=
  if s.failed ≠ none then none
  else
    match r with
    | .call c =>
        if s.kernel.sleeping = true ∨ s.joining s.kernel.currentThread ≠ none then none
        else s.systemCall c
    | .joinLoop => if s.kernel.sleeping then none else s.joinLoop
    | .interrupt vs => if vs.all (· < s.drivers) then s.act (.interrupt vs) else none
    | .idle vs => if vs.all (· < s.drivers) then s.act (.idle vs) else none
    | .dispatch => s.act .dispatch

end System

end Nachos
