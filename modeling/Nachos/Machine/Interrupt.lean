/-
  Nachos.Machine.Interrupt

  The interrupts the hardware has yet to cause, and the simulated time
  (`machine/interrupt.cc`, `utility/list.h`, `utility/stats.h`).  An interrupt is
  put on the list `pending` by `Interrupt::Schedule`; `Interrupt::CheckIfDue`
  takes the first one off again and either fires it or puts it back.

  Time is a 64-bit count of cycles, so a sum of times is taken modulo `2 ^ 64`.
  What the model keeps in addition are two histories: the interrupts that were
  scheduled, and those that were fired with the time at which they were.
-/

import Mathlib.Data.List.Sort
import Nachos.Lib.Run

namespace Nachos

/-- How many values a `Time` (an `uint64_t`) has. -/
def timeRange : Nat := 2 ^ 64

/-- `IntType`: the device that generated the interrupt. -/
inductive IntType where
  | timer
  | disk
  | consoleWrite
  | consoleRead
  | aciaReceive
  | aciaSend
deriving DecidableEq, Repr

/-- A `PendingInterrupt` object, with a number of its own in place of its address.
    The list keys it by `when`.  What its handler does is up to the kernel. -/
structure PendingInterrupt where
  id : Nat
  when : Nat
  type : IntType
deriving DecidableEq, Repr

/-- `List::SortedInsert`: behind all elements whose key is not larger. -/
def sortedInsert (e : PendingInterrupt) : List PendingInterrupt → List PendingInterrupt
  | [] => [e]
  | x :: rest => if e.when < x.when then e :: x :: rest else x :: sortedInsert e rest

structure Clock where
  totalTicks : Nat
  pending : List PendingInterrupt
  /-- Every interrupt scheduled so far. -/
  scheduled : List PendingInterrupt
  /-- The interrupts fired so far, first to last, each with the time it was fired at. -/
  fired : List (PendingInterrupt × Nat)
deriving DecidableEq, Repr

namespace Clock

def initial : Clock := ⟨0, [], [], []⟩

/-- `Interrupt::Schedule`, where `fromNow > 0`. -/
def schedule (c : Clock) (fromNow : Nat) (type : IntType) : Clock :=
  let toOccur : PendingInterrupt :=
    ⟨c.scheduled.length, (c.totalTicks + fromNow) % timeRange, type⟩
  { c with
    pending := sortedInsert toOccur c.pending
    scheduled := c.scheduled ++ [toOccur] }

/-- `Statistics::incrTotalTicks`. -/
def incrTotalTicks (c : Clock) (val : Nat) : Clock :=
  { c with totalTicks := (c.totalTicks + val) % timeRange }

/-- `Interrupt::CheckIfDue` up to the call of the handler, which it makes if it
    gives `true`.  The machine may be in `IDLE_MODE`. -/
def checkIfDue (c : Clock) (advanceClock idle : Bool) : Clock × Bool :=
  match c.pending with
  | [] => (c, false)
  | toOccur :: rest =>
      -- Not time yet: put it back, or advance the clock.
      if c.totalTicks < toOccur.when ∧ advanceClock = false then
        ({ c with pending := sortedInsert toOccur rest }, false)
      else
        let now := max c.totalTicks toOccur.when
        -- Nothing more to do but the time slices: put it back.
        if idle = true ∧ toOccur.type = .timer ∧ rest = [] then
          ({ c with totalTicks := now, pending := sortedInsert toOccur rest }, false)
        else
          ({ c with totalTicks := now, pending := rest, fired := c.fired ++ [(toOccur, now)] },
            true)

end Clock

/-! ## The sorted list -/

/-- `SortedInsert` adds the element and loses none. -/
theorem sortedInsert_perm (e : PendingInterrupt) (l : List PendingInterrupt) :
    (sortedInsert e l).Perm (e :: l) := by
  induction l with
  | nil => exact List.Perm.refl _
  | cons x rest ih =>
      unfold sortedInsert
      split
      · exact List.Perm.refl _
      · exact (ih.cons x).trans (List.Perm.swap e x rest)

@[simp] theorem mem_sortedInsert {x e : PendingInterrupt} {l : List PendingInterrupt} :
    x ∈ sortedInsert e l ↔ x = e ∨ x ∈ l :=
  (sortedInsert_perm e l).mem_iff.trans List.mem_cons

/-- The list is in the order of the due times. -/
def Sorted (l : List PendingInterrupt) : Prop := l.Pairwise fun x y => x.when ≤ y.when

theorem Sorted.insert {e : PendingInterrupt} {l : List PendingInterrupt} (h : Sorted l) :
    Sorted (sortedInsert e l) := by
  induction l with
  | nil => exact List.pairwise_singleton _ _
  | cons x rest ih =>
      obtain ⟨hx, hrest⟩ := List.pairwise_cons.mp h
      unfold sortedInsert
      split
      · rename_i hlt
        refine List.pairwise_cons.mpr ⟨fun y hy => ?_, h⟩
        show e.when ≤ y.when
        rcases List.mem_cons.mp hy with rfl | hy
        · omega
        · exact Nat.le_trans (Nat.le_of_lt hlt) (hx y hy)
      · rename_i hle
        refine List.pairwise_cons.mpr ⟨fun y hy => ?_, ih hrest⟩
        show x.when ≤ y.when
        rcases mem_sortedInsert.mp hy with rfl | hy
        · omega
        · exact hx y hy

/-- The first element is put back where it was. -/
theorem Sorted.insert_head {e : PendingInterrupt} {l : List PendingInterrupt}
    (h : Sorted (e :: l)) : (sortedInsert e l).Perm (e :: l) ∧ Sorted (sortedInsert e l) :=
  ⟨sortedInsert_perm e l, Sorted.insert (List.pairwise_cons.mp h).2⟩

end Nachos
