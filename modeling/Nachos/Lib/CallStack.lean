/-
  Nachos.Lib.CallStack

  Call stacks whose frames give back what they were called with.  A frame comes
  with what the rest of its code makes of a state (`ends`, undefined where the
  code may not go on in that state) and with the state it was entered in
  (`entry`).  A stack is balanced in a state when its top frame ends in its own
  entry state, the frame below goes on from there, and so on down to the base
  frame, which need not return.  A system of call stacks that keeps its top frame
  going in step with the state keeps its stack balanced, whatever is called on it.
-/

import Mathlib.Logic.Function.Basic

namespace CallStack

variable {F A : Type*}

/-- `Balanced ends entry a stack`: in state `a` every frame of the stack but the
    base gives back the state it was entered in. -/
inductive Balanced (ends : F → A → Option A) (entry : F → A) : A → List F → Prop where
  | nil {a : A} : Balanced ends entry a []
  | base {a : A} {f : F} (h : (ends f a).isSome) : Balanced ends entry a [f]
  | frame {a : A} {f g : F} {rest : List F} (h : ends f a = some (entry f))
      (hrest : Balanced ends entry (entry f) (g :: rest)) : Balanced ends entry a (f :: g :: rest)

namespace Balanced

variable {ends : F → A → Option A} {entry : F → A} {a b : A} {f g : F} {rest : List F}

/-- The top frame can go on. -/
theorem isSome (h : Balanced ends entry a (f :: rest)) : (ends f a).isSome := by
  cases h with
  | base h => exact h
  | frame h _ => simp [h]

/-- The top frame goes on, to where it ends as before. -/
theorem replace (h : Balanced ends entry a (f :: rest)) (hends : ends g b = ends f a)
    (hentry : entry g = entry f) : Balanced ends entry b (g :: rest) := by
  cases h with
  | base h => exact .base (by rwa [hends])
  | frame h hrest =>
      refine .frame (by rw [hends, h, hentry]) ?_
      rwa [hentry]

/-- A frame is called in the state it is to give back. -/
theorem push (h : Balanced ends entry a (f :: rest)) (hends : ends g a = some a)
    (hentry : entry g = a) : Balanced ends entry a (g :: f :: rest) := by
  refine .frame (by rw [hends, hentry]) ?_
  rwa [hentry]

/-- A frame that has come to its end is in the state it was entered in. -/
theorem entry_eq (h : Balanced ends entry a (f :: g :: rest)) (hends : ends f a = some a) :
    entry f = a := by
  cases h with
  | frame h _ => exact Option.some.inj (h.symm.trans hends)

/-- It returns. -/
theorem pop (h : Balanced ends entry a (f :: rest)) (hends : ends f a = some a) :
    Balanced ends entry a rest := by
  cases h with
  | base _ => exact .nil
  | frame h hrest =>
      have hentry : entry f = a := Option.some.inj (h.symm.trans hends)
      rwa [← hentry]

end Balanced

/-! ## Threads

Every thread has a stack of its own; one of them runs, and the others are parked,
all in the same state. -/

variable {ι : Type*}

/-- The running stack is balanced in the present state, the parked ones in `park`.
    What is parked under the name of the running thread does not count. -/
structure Parked (ends : F → A → Option A) (entry : F → A) (park : A) (cur : ι)
    (context : ι → List F) (a : A) (stack : List F) : Prop where
  running : Balanced ends entry a stack
  parked : ∀ t, t ≠ cur → Balanced ends entry park (context t)

namespace Parked

variable {ends : F → A → Option A} {entry : F → A} {park a b : A} {cur next : ι}
  {context : ι → List F} {stack stack' : List F}

/-- The running thread goes on. -/
theorem run (h : Parked ends entry park cur context a stack)
    (hs : Balanced ends entry b stack') : Parked ends entry park cur context b stack' :=
  ⟨hs, h.parked⟩

/-- The context of some thread is set up or taken down. -/
theorem update [DecidableEq ι] (h : Parked ends entry park cur context a stack) {t : ι}
    (ht : Balanced ends entry park stack') :
    Parked ends entry park cur (Function.update context t stack') a stack := by
  refine ⟨h.running, fun u hu => ?_⟩
  by_cases hut : u = t
  · subst hut
    rwa [Function.update_self]
  · rw [Function.update_of_ne hut]
    exact h.parked u hu

/-- The running thread parks itself, and another one takes over. -/
theorem switch [DecidableEq ι] (h : Parked ends entry park cur context park stack)
    (hne : next ≠ cur) :
    Parked ends entry park next (Function.update context cur stack) park (context next) := by
  refine ⟨h.parked next hne, fun u _ => ?_⟩
  by_cases hu : u = cur
  · subst hu
    rw [Function.update_self]
    exact h.running
  · rw [Function.update_of_ne hu]
    exact h.parked u hu

end Parked

end CallStack
