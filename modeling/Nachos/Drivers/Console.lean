/-
  Nachos.Drivers.Console

  `drivers/drvConsole.cc` over `machine/console.cc`: any number of threads write strings to
  the display and read lines from the keyboard.  A lock for each side keeps the others out;
  a writer waits after each character for the interrupt that says that it has gone, and a
  reader before each character for the one that says that it has come.

  The keyboard is the text that is still to come from it, however it is spread over time.
  The statistics are left out.
-/

import Nachos.Drivers.DrvConsole
import Nachos.Kernel.Transcript

namespace Nachos
namespace DriverConsole

open Kernel Transition Words

/-- `EOF`, as a `char`. -/
def EOF : Byte := 0xFF

/-- `Console`, with what has been written to the display and what is to come from the
    keyboard; `polls` counts the calls of `CheckCharAvail` that are scheduled. -/
structure Console where
  intState : Bool
  putBusy : Bool
  incoming : Byte
  polls : Nat
  display : List Byte
  keyboard : List Byte

/-- The arguments of `GetString`. -/
structure Reading where
  buffer : Buffer
  nbcar : Int

/-- The places in `PutString` and `GetString`: before `Acquire`, at the test of the loop,
    before `P`, after it, and before `Release`. -/
inductive Pc where
  | putString (buffer : Nat → Byte) (nbcar : Int)
  | putLoop (buffer : Nat → Byte) (nbcar : Int) (i : Nat)
  | putWait (buffer : Nat → Byte) (nbcar : Int) (i : Nat)
  | getString (call : Reading)
  | enable (call : Reading)
  | getLoop (call : Reading) (i : Nat) (c : Byte) (buffer : Buffer)
  | take (call : Reading) (i : Nat) (buffer : Buffer)
  | getRelease (call : Reading) (i : Nat) (buffer : Buffer)

/-- The interrupts: a character has gone, or it is time to look at the keyboard, where
    something may be ready. -/
inductive Interrupt where
  | writeDone
  | checkCharAvail (ready : Bool)

namespace Console

variable (d : Console)

/-- `Console::PutChar`: `none` when the `ASSERT` fails. -/
def PutChar (ch : Byte) : Option Console :=
  if d.putBusy then none else some { d with putBusy := true, display := d.display ++ [ch] }

/-- `Console::GetChar`. -/
def GetChar : Byte × Console := (d.incoming, { d with incoming := EOF })

/-- `Console::EnableInterrupt`. -/
def EnableInterrupt : Console := { d with intState := true, polls := d.polls + 1 }

/-- `Console::DisableInterrupt`. -/
def DisableInterrupt : Console := { d with intState := false }

/-- `Console::WriteDone`; there is an interrupt only when a character is under way.
    `ConsolePut` calls `V` on the semaphore. -/
def WriteDone (put : SemId) : Option (Console × List SemId) :=
  if d.putBusy then some ({ d with putBusy := false }, [put]) else none

/-- The next call of `CheckCharAvail` is scheduled, unless the interrupt is disabled. -/
def reschedule : Console := { d with polls := d.polls - 1 + if d.intState then 1 else 0 }

/-- `Console::CheckCharAvail`, when it is scheduled.  `ConsoleGet` calls `V` on the
    semaphore.  `none` when `Read` fails, at the end of the keyboard's file. -/
def CheckCharAvail (get : SemId) (ready : Bool) : Option (Console × List SemId) :=
  if d.polls = 0 then none
  else if d.incoming ≠ EOF ∨ ready = false then some (d.reschedule, [])
  else
    match d.keyboard with
    | [] => none
    | c :: keyboard => some ({ d.reschedule with incoming := c, keyboard := keyboard }, [get])

end Console

/-- `DriverConsole`, with its semaphores and its locks. -/
def driver (get put : SemId) (mutexget mutexput : LockId) : Driver Console Pc Interrupt where
  sems := [get, put]
  locks := [mutexget, mutexput]
  entry
    | .putString _ _ => true
    | .getString _ => true
    | _ => false
  next _ p d :=
    match p with
    | .putString buffer nbcar =>
        some (some (.lockAcquire mutexput), d, some (.putLoop buffer nbcar 0))
    | .putLoop buffer nbcar i =>
        if i < nbcar then
          (d.PutChar (buffer i)).map fun d => (none, d, some (.putWait buffer nbcar i))
        else some (some (.lockRelease mutexput), d, none)
    | .putWait buffer nbcar i => some (some (.semP put), d, some (.putLoop buffer nbcar (i + 1)))
    | .getString call => some (some (.lockAcquire mutexget), d, some (.enable call))
    | .enable call => some (none, d.EnableInterrupt, some (.getLoop call 0 0 call.buffer))
    | .getLoop call i c buffer =>
        if i < call.nbcar ∧ c ≠ newline then
          some (some (.semP get), d, some (.take call i buffer))
        else some (none, d.DisableInterrupt, some (.getRelease call i (buffer.set i 0)))
    | .take call i buffer =>
        let (c, d) := d.GetChar
        some (none, d, some (.getLoop call (i + 1) c (buffer.set i c)))
    | .getRelease _ _ _ => some (some (.lockRelease mutexget), d, none)
  serve d
    | .writeDone => d.WriteDone put
    | .checkCharAvail ready => d.CheckCharAvail get ready
  halted _ := false

abbrev Moves := List (Driven Console Pc × Move Pc Interrupt)

/-- The start: the semaphores have the value 0 (`DriverConsole::DriverConsole`), nothing has
    been written (`Console::Console`), nobody is in the driver. -/
def initial (initialValue : SemId → Int) (get put : SemId) (keyboard : List Byte) :
    Driven Console Pc where
  kernel := Kernel.initialized (Function.update (Function.update initialValue get 0) put 0)
  device := ⟨false, false, EOF, 0, [], keyboard⟩
  pc _ := none

/-! ## The interrupts and the instructions -/

/-- Nothing is read, or the next character comes into the empty buffer. -/
theorem CheckCharAvail_cases {get : SemId} {d d' : Console} {ready : Bool} {vs : List SemId}
    (h : d.CheckCharAvail get ready = some (d', vs)) :
    0 < d.polls ∧ (d' = d.reschedule ∧ vs = [] ∨
      ∃ c keyboard, d.incoming = EOF ∧ d.keyboard = c :: keyboard ∧
        d' = { d.reschedule with incoming := c, keyboard := keyboard } ∧ vs = [get]) := by
  unfold Console.CheckCharAvail at h
  split at h
  · cases h
  · rename_i hpolls
    refine ⟨Nat.pos_of_ne_zero hpolls, ?_⟩
    split at h
    · obtain ⟨rfl, rfl⟩ := Prod.mk.inj (Option.some.inj h)
      exact Or.inl ⟨rfl, rfl⟩
    · rename_i hempty
      split at h
      · cases h
      · rename_i c keyboard hkeyboard
        obtain ⟨rfl, rfl⟩ := Prod.mk.inj (Option.some.inj h)
        refine Or.inr ⟨c, keyboard, ?_, hkeyboard, rfl, rfl⟩
        by_contra hne
        exact hempty (Or.inl hne)

/-- What a thread at a place does. -/
inductive Turn (get put : SemId) (mutexget mutexput : LockId) :
    Pc → Console → Option Action → Console → Option Pc → Prop where
  | putString {buffer : Nat → Byte} {nbcar : Int} {d : Console} :
      Turn get put mutexget mutexput (.putString buffer nbcar) d
        (some (.lockAcquire mutexput)) d (some (.putLoop buffer nbcar 0))
  | putChar {buffer : Nat → Byte} {nbcar : Int} {i : Nat} {d d' : Console} (hi : i < nbcar)
      (hput : d.PutChar (buffer i) = some d') :
      Turn get put mutexget mutexput (.putLoop buffer nbcar i) d none d'
        (some (.putWait buffer nbcar i))
  | putRelease {buffer : Nat → Byte} {nbcar : Int} {i : Nat} {d : Console} (hi : ¬ i < nbcar) :
      Turn get put mutexget mutexput (.putLoop buffer nbcar i) d
        (some (.lockRelease mutexput)) d none
  | putWait {buffer : Nat → Byte} {nbcar : Int} {i : Nat} {d : Console} :
      Turn get put mutexget mutexput (.putWait buffer nbcar i) d (some (.semP put)) d
        (some (.putLoop buffer nbcar (i + 1)))
  | getString {call : Reading} {d : Console} :
      Turn get put mutexget mutexput (.getString call) d (some (.lockAcquire mutexget)) d
        (some (.enable call))
  | enable {call : Reading} {d : Console} :
      Turn get put mutexget mutexput (.enable call) d none d.EnableInterrupt
        (some (.getLoop call 0 0 call.buffer))
  | getWait {call : Reading} {i : Nat} {c : Byte} {buffer : Buffer} {d : Console}
      (hi : i < call.nbcar ∧ c ≠ newline) :
      Turn get put mutexget mutexput (.getLoop call i c buffer) d (some (.semP get)) d
        (some (.take call i buffer))
  | getEnd {call : Reading} {i : Nat} {c : Byte} {buffer : Buffer} {d : Console}
      (hi : ¬ (i < call.nbcar ∧ c ≠ newline)) :
      Turn get put mutexget mutexput (.getLoop call i c buffer) d none d.DisableInterrupt
        (some (.getRelease call i (buffer.set i 0)))
  | take {call : Reading} {i : Nat} {buffer : Buffer} {d : Console} :
      Turn get put mutexget mutexput (.take call i buffer) d none d.GetChar.2
        (some (.getLoop call (i + 1) d.GetChar.1 (buffer.set i d.GetChar.1)))
  | getRelease {call : Reading} {i : Nat} {buffer : Buffer} {d : Console} :
      Turn get put mutexget mutexput (.getRelease call i buffer) d
        (some (.lockRelease mutexget)) d none

theorem next_cases {get put : SemId} {mutexget mutexput : LockId} {t : ThreadId} {p : Pc}
    {d d' : Console} {a : Option Action} {q : Option Pc}
    (h : (driver get put mutexget mutexput).next t p d = some (a, d', q)) :
    Turn get put mutexget mutexput p d a d' q := by
  cases p with
  | putString buffer nbcar =>
      cases h
      exact .putString
  | putLoop buffer nbcar i =>
      change (if (i : Int) < nbcar then _ else _) = _ at h
      split at h
      · rename_i hi
        obtain ⟨d₁, hput, hx⟩ := Option.map_eq_some_iff.mp h
        cases hx
        exact .putChar hi hput
      · rename_i hi
        cases h
        exact .putRelease hi
  | putWait buffer nbcar i =>
      cases h
      exact .putWait
  | getString call =>
      cases h
      exact .getString
  | enable call =>
      cases h
      exact .enable
  | getLoop call i c buffer =>
      change (if (i : Int) < call.nbcar ∧ c ≠ newline then _ else _) = _ at h
      split at h
      · rename_i hi
        cases h
        exact .getWait hi
      · rename_i hi
        cases h
        exact .getEnd hi
  | take call i buffer =>
      cases h
      exact .take
  | getRelease call i buffer =>
      cases h
      exact .getRelease

end DriverConsole
end Nachos
