/-
  Nachos.Drivers.DrvACIA

  `drivers/drvACIA.cc` in interrupt mode, over `machine/ACIA.cc` and
  `machine/ACIA_sysdep.cc`: a serial line on which a thread hands over the first
  character of a message and the emission interrupt the others, and from which the
  reception interrupt gathers a message that a thread then takes.

  What is handed to `PutChar`, the messages of the senders, the characters received
  and the results of `TtyReceive` are written down beside the state (`Record`), for
  the statements only.
-/

import Nachos.Kernel.Driver
import Nachos.Lib.Words

namespace Nachos
namespace DriverACIA

open Kernel Transition Words

/-- Size of the emission and reception buffers. -/
abbrev BUFFER_SIZE : Nat := 256

abbrev BUSY_WAITING : Nat := 0
abbrev REC_INTERRUPT : Nat := 1
abbrev SEND_INTERRUPT : Nat := 2

inductive RegStatus where
  | EMPTY
  | FULL
  deriving DecidableEq

/-- The device; `emissions` counts the emission interrupts that are scheduled. -/
structure ACIA where
  outputRegister : Byte
  inputRegister : Byte
  inputStateRegister : RegStatus
  outputStateRegister : RegStatus
  mode : Nat
  emissions : Nat

/-- A string of the program, up to its `'\0'`. -/
structure Message where
  chars : List Byte
  noNul : ∀ c ∈ chars, c ≠ 0

/-- The bytes of the string and its `'\0'`. -/
def Message.bytes (m : Message) : Nat → Byte := fun i => m.chars.getD i 0

/-- What a sender or a reader has of a string in a buffer of `n` bytes: at most
    `n - 1` characters and a `'\0'`. -/
def cut (n : Nat) (chars : List Byte) : List Byte := chars.take (n - 1) ++ [0]

/-- What has happened, for the statements. -/
structure Record where
  /-- The characters handed to `PutChar`, with what the output register was then. -/
  handed : List (Byte × RegStatus)
  /-- The messages of the `TtySend` calls that are past `P`. -/
  sent : List Message
  /-- The characters delivered while reception interrupts were enabled. -/
  delivered : List Byte
  /-- The results of `TtyReceive`, with its argument. -/
  received : List (Nat × List Byte)

/-- The driver and the device.  `send_overrun`, `receive_overrun`: the buffer has
    been accessed outside its bounds, and nothing is said of what comes then;
    `exited`: a routine has called `exit`. -/
structure State where
  acia : ACIA
  send_buffer : Nat → Byte
  receive_buffer : Nat → Byte
  ind_send : Nat
  ind_rec : Nat
  send_overrun : Bool
  receive_overrun : Bool
  exited : Bool
  record : Record

/-- The places in `TtySend` and `TtyReceive`: the call, and past `P`. -/
inductive Pc where
  | TtySend (buff : Message)
  | send (buff : Message)
  | TtyReceive (lg : Int)
  | receive (lg : Nat)

/-- The interrupts of the device: a character has gone, or the socket has been
    looked at. -/
inductive Interrupt where
  | emission
  | reception (received : Option Byte)

/-- The loop of `TtySend` and `TtyReceive`, with `n` rounds left: copy up to the
    `'\0'` and end the copy with one.  The result is the copy and the number of its
    bytes. -/
def copyLoop (src : Nat → Byte) : Nat → Nat → (Nat → Byte) → (Nat → Byte) × Nat
  | 0, i, dst => (Function.update dst (i - 1) 0, i)
  | n + 1, i, dst =>
      let dst := Function.update dst i (src i)
      if src i = 0 then (Function.update dst i 0, i + 1) else copyLoop src n (i + 1) dst

/-- `ACIA::PutChar` and `ACIA_sysdep::SendChar`. -/
def PutChar (d : State) (c : Byte) : State :=
  { d with
    acia := { d.acia with
      outputRegister := c, outputStateRegister := .FULL, emissions := d.acia.emissions + 1 }
    record := { d.record with
      handed := d.record.handed ++ [(c, d.acia.outputStateRegister)] } }

/-- `TtySend`, past `P`. -/
def ttySend (d : State) (buff : Message) : State :=
  let d := { d with record := { d.record with sent := d.record.sent ++ [buff] } }
  if d.acia.mode = REC_INTERRUPT ||| SEND_INTERRUPT then
    let send_buffer := (copyLoop buff.bytes BUFFER_SIZE 0 d.send_buffer).1
    let d := PutChar { d with ind_send := 0, send_buffer := send_buffer } (send_buffer 0)
    { d with ind_send := d.ind_send + 1 }
  else { d with exited := true }

/-- `TtyReceive`, past `P`. -/
def ttyReceive (d : State) (lg : Nat) : State :=
  if d.acia.mode = SEND_INTERRUPT then
    let (buff, i) := copyLoop d.receive_buffer lg 0 fun _ => 0
    if i ≤ BUFFER_SIZE then
      { d with
        ind_rec := 0
        acia := { d.acia with mode := SEND_INTERRUPT ||| REC_INTERRUPT }
        record := { d.record with
          received := d.record.received ++ [(lg, (List.range i).map buff)] } }
    else { d with receive_overrun := true }
  else { d with exited := true }

/-- `DriverACIA::InterruptSend`, with the semaphores it calls `V` on. -/
def InterruptSend (send_sema : SemId) (d : State) : State × List SemId :=
  if d.ind_send < BUFFER_SIZE then
    let c := d.send_buffer d.ind_send
    let d := PutChar d c
    ({ d with ind_send := d.ind_send + 1 }, if c = 0 then [send_sema] else [])
  else ({ d with send_overrun := true }, [])

/-- `DriverACIA::InterruptReceive`; `GetChar` drains the input register. -/
def InterruptReceive (receive_sema : SemId) (d : State) : State × List SemId :=
  let c := d.acia.inputRegister
  let d := { d with
    acia := { d.acia with inputRegister := 0, inputStateRegister := .EMPTY }
    record := { d.record with delivered := d.record.delivered ++ [c] } }
  if d.ind_rec < BUFFER_SIZE then
    let d := { d with receive_buffer := Function.update d.receive_buffer d.ind_rec c }
    if c = 0 then
      ({ d with
        acia := { d.acia with mode := d.acia.mode ^^^ REC_INTERRUPT }
        ind_rec := d.ind_rec + 1 }, [receive_sema])
    else ({ d with ind_rec := d.ind_rec + 1 }, [])
  else ({ d with receive_overrun := true }, [])

/-- `ACIA_sysdep::InterruptEm`; there is an interrupt only when one is scheduled. -/
def InterruptEm (send_sema : SemId) (d : State) : Option (State × List SemId) :=
  if 0 < d.acia.emissions then
    let d := { d with
      acia := { d.acia with
        emissions := d.acia.emissions - 1, outputRegister := 0, outputStateRegister := .EMPTY } }
    some (if d.acia.mode &&& SEND_INTERRUPT ≠ 0 then InterruptSend send_sema d else (d, []))
  else none

/-- `ACIA_sysdep::InterruptRec`. -/
def InterruptRec (receive_sema : SemId) (d : State) : Option Byte → State × List SemId
  | none => (d, [])
  | some c =>
      let d := { d with acia := { d.acia with inputRegister := c, inputStateRegister := .FULL } }
      if d.acia.mode &&& REC_INTERRUPT ≠ 0 then InterruptReceive receive_sema d else (d, [])

/-- `DriverACIA`, with its semaphores. -/
def driver (send_sema receive_sema : SemId) : Driver State Pc Interrupt where
  sems := [send_sema, receive_sema]
  locks := []
  entry
    | .TtySend _ => true
    | .TtyReceive _ => true
    | _ => false
  next _ p d :=
    match p with
    | .TtySend buff => some (some (.semP send_sema), d, some (.send buff))
    | .send buff => some (none, ttySend d buff, none)
    | .TtyReceive lg =>
        if lg ≤ 0 then some (none, d, none)
        else some (some (.semP receive_sema), d, some (.receive lg.toNat))
    | .receive lg => some (none, ttyReceive d lg, none)
  serve d
    | .emission => InterruptEm send_sema d
    | .reception received => some (InterruptRec receive_sema d received)
  halted d := d.exited || d.send_overrun || d.receive_overrun

/-- `DriverACIA::DriverACIA` in interrupt mode, after `ACIA::ACIA`.  The buffers and
    `ind_send` are not initialized. -/
def initialDevice (send_buffer receive_buffer : Nat → Byte) (ind_send : Nat) : State where
  acia := ⟨0, 0, .EMPTY, .EMPTY, SEND_INTERRUPT ||| REC_INTERRUPT, 0⟩
  send_buffer := send_buffer
  receive_buffer := receive_buffer
  ind_send := ind_send
  ind_rec := 0
  send_overrun := false
  receive_overrun := false
  exited := false
  record := ⟨[], [], [], []⟩

/-- The start: `send_sema` has the value 1 and `receive_sema` the value 0. -/
def initial (initialValue : SemId → Int) (send_sema receive_sema : SemId)
    (send_buffer receive_buffer : Nat → Byte) (ind_send : Nat) : Driven State Pc where
  kernel := Kernel.initialized
    (Function.update (Function.update initialValue send_sema 1) receive_sema 0)
  device := initialDevice send_buffer receive_buffer ind_send
  pc _ := none

abbrev Moves := List (Driven State Pc × Move Pc Interrupt)

/-! ## The copy -/

theorem cut_succ (n : Nat) (c : Byte) (cs : List Byte) :
    cut (n + 2) (c :: cs) = c :: cut (n + 1) cs := rfl

/-- The `'\0'` goes over the last character that the loop has copied. -/
theorem overwritten_get {src dst : Nat → Byte} {i : Nat} :
    (∀ j, Function.update (Function.update dst i (src i)) i 0 (i + j) =
      ([0] : List Byte).getD j (dst (i + j))) ∧
    ∀ j < i, Function.update (Function.update dst i (src i)) i 0 j = dst j := by
  refine ⟨fun j => ?_, fun j hj => ?_⟩
  · cases j with
    | zero => simp
    | succ j => simp
  · rw [Function.update_of_ne (by omega), Function.update_of_ne (by omega)]

/-- The loop copies the string, up to what the buffer holds. -/
theorem copyLoop_spec {src : Nat → Byte} {chars : List Byte} (hne : ∀ c ∈ chars, c ≠ 0)
    {n i : Nat} (dst : Nat → Byte) (hsrc : ∀ j ≤ chars.length, src (i + j) = chars.getD j 0)
    (hn : 0 < n) :
    (copyLoop src n i dst).2 = i + (cut n chars).length ∧
      (∀ j, (copyLoop src n i dst).1 (i + j) = (cut n chars).getD j (dst (i + j))) ∧
      ∀ j < i, (copyLoop src n i dst).1 j = dst j := by
  induction n generalizing i chars dst with
  | zero => omega
  | succ n ih =>
      have hfirst := hsrc 0 (Nat.zero_le _)
      rw [Nat.add_zero] at hfirst
      rw [copyLoop]
      cases chars with
      | nil =>
          rw [if_pos (show src i = 0 from hfirst)]
          have hcut : cut (n + 1) [] = [0] := by simp [cut]
          rw [hcut]
          exact ⟨rfl, overwritten_get⟩
      | cons c cs =>
          have hc : src i ≠ 0 := by
            rw [hfirst]
            exact hne c (by simp)
          rw [if_neg hc]
          cases n with
          | zero =>
              -- The buffer is full: the last character gives way to the `'\0'`.
              have hcut : cut (0 + 1) (c :: cs) = [0] := by simp [cut]
              rw [hcut, copyLoop]
              exact ⟨rfl, overwritten_get⟩
          | succ n =>
              have hsrc' : ∀ j ≤ cs.length, src (i + 1 + j) = cs.getD j 0 := by
                intro j hj
                have := hsrc (j + 1) (by simpa using hj)
                rwa [List.getD_cons_succ, ← Nat.add_assoc, Nat.add_right_comm] at this
              obtain ⟨hlen, hget, hold⟩ := ih (fun x hx => hne x (List.mem_cons_of_mem _ hx))
                (Function.update dst i (src i)) hsrc' (Nat.succ_pos n)
              rw [cut_succ]
              refine ⟨?_, fun j => ?_, fun j hj => ?_⟩
              · rw [hlen, List.length_cons]
                omega
              · cases j with
                | zero =>
                    show (copyLoop src (n + 1) (i + 1) (Function.update dst i (src i))).1 i = c
                    rw [hold i (Nat.lt_succ_self i), Function.update_self, hfirst]
                    rfl
                | succ j =>
                    have hidx : i + (j + 1) = i + 1 + j := by omega
                    rw [hidx, hget j, Function.update_of_ne (by omega), List.getD_cons_succ]
              · rw [hold j (by omega), Function.update_of_ne (by omega)]

/-- The copy of a string to the start of a buffer. -/
theorem copyLoop_start {src : Nat → Byte} {chars : List Byte} (hne : ∀ c ∈ chars, c ≠ 0)
    {n : Nat} (dst : Nat → Byte) (hsrc : ∀ j ≤ chars.length, src j = chars.getD j 0)
    (hn : 0 < n) :
    (copyLoop src n 0 dst).2 = (cut n chars).length ∧
      ∀ j, (copyLoop src n 0 dst).1 j = (cut n chars).getD j (dst j) := by
  obtain ⟨hlen, hget, -⟩ := copyLoop_spec (i := 0) hne dst (by simpa using hsrc) hn
  refine ⟨by simpa using hlen, fun j => ?_⟩
  simpa using hget j

end DriverACIA
end Nachos
