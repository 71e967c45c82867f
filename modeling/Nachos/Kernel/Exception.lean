/-
  Nachos.Kernel.Exception

  The system calls of `kernel/exception.cc` that copy what a driver has received out
  of a buffer on the kernel's stack: `SC_READ` on the console and `SC_TTY_RECEIVE`.
  The stores into user memory are written down as the calls of `WriteMem`; an access
  that the memory unit refuses ends the machine, and the calls after it are not made.
-/

import Nachos.Drivers.DrvACIA
import Nachos.Drivers.DrvConsole

namespace Nachos
namespace Exception

open Words

/-- The loop that stores the first `n` bytes of a buffer at `addr`. -/
def copyOut (addr : Int) (buffer : Nat → Byte) (n : Nat) : List (Int × Byte) :=
  (List.range n).map fun i : Nat => (addr + (i : Int), buffer i)

/-- Consecutive bytes at `addr`. -/
def placed (addr : Int) (bytes : List Byte) : List (Int × Byte) :=
  bytes.mapIdx fun i c => (addr + (i : Int), c)

/-! ## Read on the console -/

/-- What a call of `Read` on the console does; without a result, it has not returned. -/
structure ReadCall where
  buffer : DriverConsole.Buffer
  stores : List (Int × Byte)
  result : Option Nat

/-- `SC_READ` with `f = ConsoleInput`; `junk` is what the stack holds at the array
    `buffer`. -/
def SC_READ (addr : Int) (size : Nat) (typed : List Byte) (junk : Nat → Byte) : ReadCall :=
  match DriverConsole.GetString (.uninitialised junk) size typed with
  | (buffer, false) => ⟨buffer, [], none⟩
  | (buffer, true) =>
      let numread := size
      ⟨buffer, copyOut addr buffer.bytes numread, some numread⟩

/-- The buffer is written at indices below `n` only; a call that returns has stored
    the line, as far as `n` characters of it, and returns their number; one that waits
    has stored nothing. -/
structure Reads (addr : Int) (n : Nat) (typed : List Byte) (r : ReadCall) : Prop where
  index : ∀ i ∈ r.buffer.written, i < n
  stores : ∀ numread, r.result = some numread →
    r.stores = placed addr ((DriverConsole.line typed).take n)
  result : ∀ numread, r.result = some numread →
    numread = ((DriverConsole.line typed).take n).length
  waits : r.result = none → r.stores = []

/-- A call that has what it waits for returns `n`, having put a `'\0'` after the line. -/
theorem SC_READ_complete {n : Nat} {typed : List Byte} (h : DriverConsole.Complete n typed)
    (addr : Int) (junk : Nat → Byte) :
    (SC_READ addr n typed junk).result = some n ∧
      ((DriverConsole.line typed).take n).length ∈ (SC_READ addr n typed junk).buffer.written := by
  rw [SC_READ, DriverConsole.GetString_complete h]
  exact ⟨rfl, List.mem_append_right _ (List.mem_singleton_self _)⟩

/-- A call that still waits has written the characters typed so far. -/
theorem SC_READ_waits {n : Nat} {typed : List Byte} (h : ¬ DriverConsole.Complete n typed)
    (addr : Int) (junk : Nat → Byte) :
    (SC_READ addr n typed junk).result = none ∧ (SC_READ addr n typed junk).stores = [] ∧
      (SC_READ addr n typed junk).buffer.written = List.range' 0 typed.length := by
  rw [SC_READ, DriverConsole.GetString_waits h]
  exact ⟨rfl, rfl, DriverConsole.Buffer.sets_written _ 0 typed⟩

/-- `Read` does what it should only as long as it waits: a short line makes it return
    more than the characters it got, and a full one makes it write past the buffer. -/
theorem reads_iff (addr : Int) (n : Nat) (typed : List Byte) (junk : Nat → Byte) :
    Reads addr n typed (SC_READ addr n typed junk) ↔
      typed.length < n ∧ DriverConsole.newline ∉ typed := by
  constructor
  · intro h
    by_cases hc : DriverConsole.Complete n typed
    · exfalso
      obtain ⟨hresult, hwritten⟩ := SC_READ_complete hc addr junk
      have hlen := h.result n hresult
      have hlt := h.index _ hwritten
      omega
    · obtain ⟨hlen, hmem⟩ := not_or.mp hc
      exact ⟨Nat.lt_of_not_le hlen, hmem⟩
  · rintro ⟨hlen, hmem⟩
    have hc : ¬ DriverConsole.Complete n typed := not_or.mpr ⟨Nat.not_le_of_lt hlen, hmem⟩
    obtain ⟨hresult, hstores, hwritten⟩ := SC_READ_waits hc addr junk
    have hnone : ∀ numread, (SC_READ addr n typed junk).result ≠ some numread := by
      intro numread heq
      rw [hresult] at heq
      cases heq
    refine ⟨?_, fun _ heq => absurd heq (hnone _), fun _ heq => absurd heq (hnone _),
      fun _ => hstores⟩
    intro i hi
    rw [hwritten, List.mem_range'_1] at hi
    omega

/-- `"ab\n"` is typed for a call with `n = 5`. -/
theorem reads_fails :
    ¬ ∀ (addr : Int) (n : Nat) (typed : List Byte) (junk : Nat → Byte), 1 ≤ n →
      Reads addr n typed (SC_READ addr n typed junk) := by
  intro h
  have hlen := (h 0 5 [97, 98, DriverConsole.newline] (fun _ => 0) (by decide)).result 5 rfl
  exact absurd hlen (by decide)

/-! ## TtyReceive -/

open DriverACIA

/-- What a call of `TtyReceive` does. -/
structure ReceiveCall where
  stores : List (Int × Byte)
  result : Int

/-- `DriverACIA::TtyReceive` past `P`, in both modes of the device: `chars` are the
    characters that come or that the reception interrupt has gathered. -/
def TtyReceive (chars : Nat → Byte) (buff : Nat → Byte) (lg : Int) : (Nat → Byte) × Int :=
  if lg ≤ 0 then (buff, -1)
  else
    let (buff, i) := copyLoop chars lg.toNat 0 buff
    (buff, i)

/-- `SC_TTY_RECEIVE` with a device; `junk` is what the stack holds at the array `buff`
    of `length + 1` bytes. -/
def SC_TTY_RECEIVE (addr length : Int) (chars : Nat → Byte) (junk : Nat → Byte) : ReceiveCall :=
  let (buff, result) := TtyReceive chars junk length
  let n := (length + 1).toNat
  ⟨copyOut addr buff n ++ [(addr + n, 0)], result⟩

/-- The stores are those of the message, cut to `length` bytes with its `'\0'`, between
    `addr` and `addr + length`, and the result is their number. -/
structure Receives (addr length : Int) (message : Message) (r : ReceiveCall) : Prop where
  address : ∀ s ∈ r.stores, addr ≤ s.1 ∧ s.1 < addr + length
  stores : r.stores = placed addr (DriverACIA.cut length.toNat message.chars)
  result : r.result = (DriverACIA.cut length.toNat message.chars).length

/-- The result is the number of bytes the message takes, and what is stored after
    them comes from the stack as it was. -/
theorem SC_TTY_RECEIVE_eq (addr : Int) {length : Int} (hl : 0 < length) (message : Message)
    (junk : Nat → Byte) :
    SC_TTY_RECEIVE addr length message.bytes junk =
      ⟨copyOut addr (fun j => (DriverACIA.cut length.toNat message.chars).getD j (junk j))
          (length + 1).toNat ++ [(addr + (length + 1).toNat, 0)],
        (DriverACIA.cut length.toNat message.chars).length⟩ := by
  have hchars : ∀ j ≤ message.chars.length, message.bytes j = message.chars.getD j 0 :=
    fun _ _ => rfl
  have hpos : 0 < length.toNat := by omega
  obtain ⟨hlen, hget⟩ := copyLoop_start message.noNul junk hchars hpos
  rw [SC_TTY_RECEIVE, TtyReceive, if_neg (by omega)]
  dsimp only
  rw [hlen, funext hget]

/-- The last store is at `addr + length + 1`, whatever has been received. -/
theorem receives_never (addr length : Int) (message : Message) (junk : Nat → Byte) :
    ¬ Receives addr length message (SC_TTY_RECEIVE addr length message.bytes junk) := by
  intro h
  have hmem : (addr + ((length + 1).toNat : Int), (0 : Byte)) ∈
      (SC_TTY_RECEIVE addr length message.bytes junk).stores :=
    List.mem_append_right _ (List.mem_singleton_self _)
  obtain ⟨-, hlt⟩ := h.address _ hmem
  have hge := Int.self_le_toNat (length + 1)
  omega

/-- The message `"a"`, read with `length = 2`. -/
theorem receives_fails :
    ¬ ∀ (addr length : Int) (message : Message) (junk : Nat → Byte), 0 < length →
      Receives addr length message (SC_TTY_RECEIVE addr length message.bytes junk) := by
  intro h
  have hstores := (h 0 2 ⟨[97], by decide⟩ (fun _ => 7) (by decide)).stores
  exact absurd hstores (by decide)

end Exception
end Nachos
