/-
  Nachos.Drivers.DrvConsole

  `DriverConsole::GetString` of `drivers/drvConsole.cc`: the thread waits in
  `get->P()` for each character and takes it from the console.  The lock `mutexget`
  keeps the other readers out, so the characters of the call are those that are typed
  from its start on, one after the other.
-/

import Nachos.Lib.Words

namespace Nachos
namespace DriverConsole

open Words

/-- The character `'\n'`. -/
def newline : Byte := 10

/-- A buffer of the kernel, with the indices that have been written so far. -/
structure Buffer where
  bytes : Nat → Byte
  written : List Nat

namespace Buffer

/-- What is on the kernel's stack, before anything is written. -/
def uninitialised (junk : Nat → Byte) : Buffer := ⟨junk, []⟩

/-- `buffer[i] = c`. -/
def set (buffer : Buffer) (i : Nat) (c : Byte) : Buffer where
  bytes := Function.update buffer.bytes i c
  written := buffer.written ++ [i]

/-- Several characters, from index `i` on. -/
def sets (buffer : Buffer) (i : Nat) : List Byte → Buffer
  | [] => buffer
  | c :: cs => (buffer.set i c).sets (i + 1) cs

theorem sets_written (buffer : Buffer) (i : Nat) (cs : List Byte) :
    (buffer.sets i cs).written = buffer.written ++ List.range' i cs.length := by
  induction cs generalizing buffer i with
  | nil => simp [sets]
  | cons c cs ih =>
      rw [sets, ih, List.length_cons, List.range'_succ]
      simp [set]

end Buffer

/-- The loop of `GetString` from index `i` on, where `c` is the last character and
    `typed` those that come.  There is no index while the thread waits in `P`. -/
def getLoop (nbcar : Nat) (typed : List Byte) (i : Nat) (c : Byte) (buffer : Buffer) :
    Buffer × Option Nat :=
  if i < nbcar ∧ c ≠ newline then
    match typed with
    | [] => (buffer, none)
    | c :: typed => getLoop nbcar typed (i + 1) c (buffer.set i c)
  else (buffer, some i)

/-- `DriverConsole::GetString`, and whether it has returned. -/
def GetString (buffer : Buffer) (nbcar : Nat) (typed : List Byte) : Buffer × Bool :=
  match getLoop nbcar typed 0 0 buffer with
  | (buffer, some i) => (buffer.set i 0, true)
  | (buffer, none) => (buffer, false)

/-- The characters up to the first newline, which is one of them. -/
def line : List Byte → List Byte
  | [] => []
  | c :: cs => if c = newline then [c] else c :: line cs

/-- There are `nbcar` characters, or a newline comes before. -/
def Complete (nbcar : Nat) (typed : List Byte) : Prop :=
  nbcar ≤ typed.length ∨ newline ∈ typed

instance (nbcar : Nat) (typed : List Byte) : Decidable (Complete nbcar typed) :=
  inferInstanceAs (Decidable (nbcar ≤ typed.length ∨ newline ∈ typed))

theorem complete_zero (typed : List Byte) : Complete 0 typed := Or.inl (Nat.zero_le _)

theorem complete_nil {nbcar : Nat} : Complete nbcar [] ↔ nbcar = 0 := by
  simp [Complete]

theorem complete_cons {nbcar : Nat} {c : Byte} {typed : List Byte} (hc : c ≠ newline) :
    Complete (nbcar + 1) (c :: typed) ↔ Complete nbcar typed := by
  simp [Complete, hc.symm]

theorem line_of_not_mem {typed : List Byte} (h : newline ∉ typed) : line typed = typed := by
  induction typed with
  | nil => rfl
  | cons c typed ih =>
      obtain ⟨hc, htyped⟩ := not_or.mp (mt List.mem_cons.mpr h)
      rw [line, if_neg (Ne.symm hc), ih htyped]

/-- The loop ends when the buffer is full or the newline has come. -/
theorem getLoop_stop {nbcar i : Nat} {c : Byte} (h : nbcar ≤ i ∨ c = newline)
    (typed : List Byte) (buffer : Buffer) :
    getLoop nbcar typed i c buffer = (buffer, some i) := by
  have hstop : ¬ (i < nbcar ∧ c ≠ newline) := by
    rintro ⟨hlt, hc⟩
    rcases h with h | h
    · exact Nat.not_le_of_lt hlt h
    · exact hc h
  cases typed with
  | nil => rw [getLoop, if_neg hstop]
  | cons x typed => rw [getLoop, if_neg hstop]

/-- The loop puts the line into the buffer, as far as it fits. -/
theorem getLoop_eq {nbcar i : Nat} (hi : i ≤ nbcar) {c : Byte} (hc : c ≠ newline)
    (typed : List Byte) (buffer : Buffer) :
    getLoop nbcar typed i c buffer =
      (buffer.sets i ((line typed).take (nbcar - i)),
        if Complete (nbcar - i) typed then some (i + ((line typed).take (nbcar - i)).length)
        else none) := by
  induction typed generalizing i c buffer with
  | nil =>
      by_cases hlt : i < nbcar
      · rw [getLoop, if_pos ⟨hlt, hc⟩, if_neg (fun h => by have := complete_nil.mp h; omega)]
        simp [line, Buffer.sets]
      · -- The buffer is full, so that no further character is waited for.
        rw [getLoop_stop (Or.inl (by omega)), show nbcar - i = 0 by omega,
          if_pos (complete_zero _)]
        rfl
  | cons x typed ih =>
      by_cases hlt : i < nbcar
      · obtain ⟨k, hk⟩ : ∃ k, nbcar - i = k + 1 := ⟨nbcar - i - 1, by omega⟩
        have hk' : nbcar - (i + 1) = k := by omega
        rw [getLoop, if_pos ⟨hlt, hc⟩, hk, line]
        by_cases hx : x = newline
        · -- The newline is stored, and ends the loop.
          have hcomplete : Complete (k + 1) (x :: typed) := Or.inr (by simp [hx])
          rw [if_pos hx, if_pos hcomplete, getLoop_stop (Or.inr hx),
            List.take_succ_cons]
          simp [Buffer.sets]
        · rw [if_neg hx, ih hlt hx, hk', List.take_succ_cons, List.length_cons,
            Nat.succ_add_eq_add_succ]
          simp only [complete_cons hx, Buffer.sets]
      · rw [getLoop_stop (Or.inl (by omega)), show nbcar - i = 0 by omega,
          if_pos (complete_zero _)]
        rfl

/-- When the line is complete, `GetString` stores it with a `'\0'` after it. -/
theorem GetString_complete {nbcar : Nat} {typed : List Byte} (h : Complete nbcar typed)
    (buffer : Buffer) :
    GetString buffer nbcar typed =
      ((buffer.sets 0 ((line typed).take nbcar)).set ((line typed).take nbcar).length 0, true) := by
  rw [GetString, getLoop_eq (Nat.zero_le _) (by decide), Nat.sub_zero, if_pos h, Nat.zero_add]

/-- Until then, it waits with what has been typed in the buffer. -/
theorem GetString_waits {nbcar : Nat} {typed : List Byte} (h : ¬ Complete nbcar typed)
    (buffer : Buffer) : GetString buffer nbcar typed = (buffer.sets 0 typed, false) := by
  obtain ⟨hlen, hmem⟩ := not_or.mp h
  have htake : (line typed).take nbcar = typed := by
    rw [line_of_not_mem hmem]
    exact List.take_of_length_le (by omega)
  rw [GetString, getLoop_eq (Nat.zero_le _) (by decide), Nat.sub_zero, if_neg h, htake]

end DriverConsole
end Nachos
