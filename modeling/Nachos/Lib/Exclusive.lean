/-
  Nachos.Lib.Exclusive

  Resources that threads hold while they are at certain places of their code: each is
  held by one thread at most.  A thread that goes from one place to another may let
  resources go, and may take those that nobody holds.
-/

import Mathlib.Logic.Function.Basic

namespace Ownership

variable {τ π ρ : Type*}

/-- No resource is held by two threads. -/
def Exclusive (C : τ → ρ → Prop) : Prop := ∀ t t' r, C t r → C t' r → t = t'

/-- What thread `t` holds at its place: `K` says what a thread holds where. -/
def HeldAt (K : τ → π → ρ → Prop) (pc : τ → Option π) (t : τ) (r : ρ) : Prop :=
  ∃ p ∈ pc t, K t p r

variable {K : τ → π → ρ → Prop} {pc : τ → Option π} {t u : τ} {r : ρ} {p : π} {o : Option π}

theorem heldAt_of (hp : pc t = some p) (h : K t p r) : HeldAt K pc t r := ⟨p, hp, h⟩

theorem heldAt_iff (hp : pc t = some p) : HeldAt K pc t r ↔ K t p r := by
  constructor
  · rintro ⟨p', hp', h⟩
    obtain rfl := Option.some.inj (hp.symm.trans hp')
    exact h
  · exact heldAt_of hp

variable [DecidableEq τ]

theorem heldAt_update_of_ne (hu : u ≠ t) :
    HeldAt K (Function.update pc t o) u r ↔ HeldAt K pc u r := by
  unfold HeldAt
  rw [Function.update_of_ne hu]

theorem heldAt_update_self :
    HeldAt K (Function.update pc t o) t r ↔ ∃ p ∈ o, K t p r := by
  unfold HeldAt
  rw [Function.update_self]

/-- A thread goes on to a place where it holds what it held, or what was free. -/
theorem Exclusive.update (h : Exclusive (HeldAt K pc))
    (hnew : ∀ p ∈ o, ∀ r, K t p r → HeldAt K pc t r ∨ ∀ u, ¬ HeldAt K pc u r) :
    Exclusive (HeldAt K (Function.update pc t o)) := by
  -- What `t` holds now, nobody else held.
  have hown : ∀ u r, HeldAt K (Function.update pc t o) t r → HeldAt K pc u r → u = t := by
    intro u r ht hu
    obtain ⟨p, hp, hk⟩ := heldAt_update_self.mp ht
    rcases hnew p hp r hk with hold | hfree
    · exact h u t r hu hold
    · exact absurd hu (hfree u)
  intro u u' r hu hu'
  by_cases hut : u = t
  · by_cases hut' : u' = t
    · rw [hut, hut']
    · rw [hut] at hu ⊢
      exact (hown u' r hu ((heldAt_update_of_ne hut').mp hu')).symm
  · have hold := (heldAt_update_of_ne hut).mp hu
    by_cases hut' : u' = t
    · rw [hut'] at hu' ⊢
      exact hown u r hu' hold
    · exact h u u' r hold ((heldAt_update_of_ne hut').mp hu')

end Ownership
