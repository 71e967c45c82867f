/-
  Nachos.Lib.Prog

  Sequential code over a shared state, as a tree of its accesses to the state.
  A program returns a value, aborts (a failed assertion), reads or replaces the
  whole state, or passes a point where other threads may run.  `run` executes a
  program alone; there the switch points do nothing.  `wp p Q s` is total
  correctness: alone from `s`, `p` returns a value and a state that meet `Q`.
  The rules below, one for each constructor and one for a counting loop, are all
  that proofs about programs use.
-/

import Mathlib.Init

namespace Program

universe u v

variable {σ : Type u}

/-- A program over states `σ` with a result in `α`. -/
inductive Prog (σ : Type u) (α : Type v) where
  | pure (a : α)
  | abort
  | get (k : σ → Prog σ α)
  | put (s : σ) (k : Prog σ α)
  | switch (k : Prog σ α)

namespace Prog

variable {α β : Type v}

def bind : Prog σ α → (α → Prog σ β) → Prog σ β
  | pure a, f => f a
  | abort, _ => abort
  | get k, f => get fun s => (k s).bind f
  | put s k, f => put s (k.bind f)
  | switch k, f => switch (k.bind f)

instance : Monad (Prog σ) where
  pure := Prog.pure
  bind := Prog.bind

/-- Execute a program alone; `none` when it aborts. -/
def run : Prog σ α → σ → Option (α × σ)
  | pure a, s => some (a, s)
  | abort, _ => none
  | get k, s => (k s).run s
  | put s k, _ => k.run s
  | switch k, s => k.run s

/-- Read the state. -/
def read : Prog σ σ := get pure

/-- Replace the state by a function of itself. -/
def modify (f : σ → σ) : Prog σ Unit := get fun s => put (f s) (pure ())

/-- Other threads may run here. -/
def yield : Prog σ Unit := switch (pure ())

/-- `ASSERT`. -/
def assert (c : Prop) [Decidable c] : Prog σ Unit := if c then pure () else abort

/-- A partial operation; the program aborts where it is undefined. -/
def ofOption : Option α → Prog σ α
  | some a => pure a
  | none => abort

/-- `for (i = 0; i < n; i++) a = body i a`. -/
def forRange (n : Nat) (a : α) (body : Nat → α → Prog σ α) : Prog σ α :=
  match n with
  | 0 => pure a
  | n + 1 => (forRange n a body).bind (body n)

/-! ## Total correctness -/

/-- Run alone from `s`, the program returns and meets `Q`. -/
def wp (p : Prog σ α) (Q : α → σ → Prop) (s : σ) : Prop :=
  ∃ a s', p.run s = some (a, s') ∧ Q a s'

theorem run_bind (p : Prog σ α) (f : α → Prog σ β) (s : σ) :
    (p.bind f).run s = (p.run s).bind fun x => (f x.1).run x.2 := by
  induction p generalizing s with
  | pure a => rfl
  | abort => rfl
  | get k ih => exact ih s s
  | put s' k ih => exact ih s'
  | switch k ih => exact ih s

section Rules

variable {Q : α → σ → Prop} {s : σ}

theorem wp_mono {R : α → σ → Prop} {p : Prog σ α} (h : wp p R s) (hi : ∀ a s', R a s' → Q a s') :
    wp p Q s := by
  obtain ⟨a, s', hr, hq⟩ := h
  exact ⟨a, s', hr, hi a s' hq⟩

/-- What a program that returns has computed. -/
theorem wp_run {p : Prog σ α} {a : α} {s' : σ} (h : wp p Q s) (hr : p.run s = some (a, s')) :
    Q a s' := by
  obtain ⟨b, t, hr', hq⟩ := h
  obtain ⟨rfl, rfl⟩ := Prod.mk.inj (Option.some.inj (hr.symm.trans hr'))
  exact hq

/-- Two facts about the one result. -/
theorem wp_and {R : α → σ → Prop} {p : Prog σ α} (h : wp p Q s) (h' : wp p R s) :
    wp p (fun a s' => Q a s' ∧ R a s') s := by
  obtain ⟨a, s', hr, hq⟩ := h
  exact ⟨a, s', hr, hq, wp_run h' hr⟩

@[simp] theorem wp_pure {a : α} : wp (Pure.pure a : Prog σ α) Q s ↔ Q a s := by
  constructor
  · intro h
    exact wp_run h rfl
  · intro h
    exact ⟨a, s, rfl, h⟩

@[simp] theorem wp_bind {p : Prog σ β} {f : β → Prog σ α} :
    wp (p >>= f) Q s ↔ wp p (fun b s' => wp (f b) Q s') s := by
  constructor
  · rintro ⟨a, s', hr, hq⟩
    change (p.bind f).run s = _ at hr
    rw [run_bind, Option.bind_eq_some_iff] at hr
    obtain ⟨⟨b, t⟩, hb, hr⟩ := hr
    exact ⟨b, t, hb, a, s', hr, hq⟩
  · rintro ⟨b, t, hb, a, s', hr, hq⟩
    refine ⟨a, s', ?_, hq⟩
    show (p.bind f).run s = _
    rw [run_bind, hb]
    exact hr

@[simp] theorem wp_read {Q : σ → σ → Prop} : wp read Q s ↔ Q s s := by
  constructor
  · intro h
    exact wp_run h rfl
  · intro h
    exact ⟨s, s, rfl, h⟩

@[simp] theorem wp_modify {f : σ → σ} {Q : Unit → σ → Prop} :
    wp (modify f) Q s ↔ Q () (f s) := by
  constructor
  · intro h
    exact wp_run h rfl
  · intro h
    exact ⟨(), f s, rfl, h⟩

@[simp] theorem wp_yield {Q : Unit → σ → Prop} : wp yield Q s ↔ Q () s := by
  constructor
  · intro h
    exact wp_run h rfl
  · intro h
    exact ⟨(), s, rfl, h⟩

@[simp] theorem wp_abort : wp (abort : Prog σ α) Q s ↔ False := by
  refine iff_false_intro ?_
  rintro ⟨a, s', hr, -⟩
  cases hr

@[simp] theorem wp_assert {c : Prop} [Decidable c] {Q : Unit → σ → Prop} :
    wp (assert c) Q s ↔ c ∧ Q () s := by
  unfold assert
  split
  · rename_i hc
    exact wp_pure.trans (by simp [hc])
  · rename_i hc
    exact wp_abort.trans (by simp [hc])

@[simp] theorem wp_ofOption {o : Option α} : wp (ofOption o) Q s ↔ ∃ a, o = some a ∧ Q a s := by
  cases o with
  | none => exact wp_abort.trans (by simp)
  | some a => exact wp_pure.trans (by simp)

/-- Both branches of a conditional. -/
theorem wp_ite {c : Prop} [Decidable c] {p q : Prog σ α} :
    wp (if c then p else q) Q s ↔ (c → wp p Q s) ∧ (¬ c → wp q Q s) := by
  split
  · rename_i hc
    simp [hc]
  · rename_i hc
    simp [hc]

/-- A counting loop keeps an invariant `I i a s` of the index, the value and the
    state. -/
theorem wp_forRange {n : Nat} {a : α} {body : Nat → α → Prog σ α} (I : Nat → α → σ → Prop)
    (h₀ : I 0 a s)
    (hstep : ∀ i, i < n → ∀ a s, I i a s → wp (body i a) (I (i + 1)) s) :
    wp (forRange n a body) (I n) s := by
  induction n with
  | zero => exact wp_pure.mpr h₀
  | succ n ih =>
      have hn := ih fun i hi => hstep i (Nat.lt_succ_of_lt hi)
      exact wp_bind.mpr (wp_mono hn fun b t hb => hstep n (Nat.lt_succ_self n) b t hb)

end Rules

end Prog

end Program
