/-
  Nachos.Lib.Accounts

  A bitmap of resources and the claims that account for it: a bit is set exactly when
  somebody claims the resource, and nobody else does.
-/

import Mathlib.Logic.Function.Basic

namespace Ownership

variable {κ ρ : Type*}

/-- The claims `C` account for the bits that are set. -/
structure Accounts (flags : ρ → Bool) (C : κ → ρ → Prop) : Prop where
  marked : ∀ n, flags n = true ↔ ∃ r, C r n
  one : ∀ r r' n, C r n → C r' n → r = r'

namespace Accounts

variable {flags flags' : ρ → Bool} {C C' : κ → ρ → Prop} {x : κ} {n : ρ}

theorem congr (h : Accounts flags C) (hf : flags' = flags) (hC : ∀ r n, C' r n ↔ C r n) :
    Accounts flags' C' where
  marked n := by
    rw [hf, h.marked]
    exact exists_congr fun r => (hC r n).symm
  one r r' n hr hr' := h.one r r' n ((hC r n).mp hr) ((hC r' n).mp hr')

/-- Nobody claims what is clear. -/
theorem not_claimed (h : Accounts flags C) (hn : flags n = false) (r : κ) : ¬ C r n := by
  intro hr
  rw [(h.marked n).mpr ⟨r, hr⟩] at hn
  cases hn

variable [DecidableEq ρ]

/-- `x` gets a resource that is clear. -/
theorem mark (h : Accounts flags C) (hn : flags n = false)
    (hC : ∀ r m, C' r m ↔ C r m ∨ r = x ∧ m = n) :
    Accounts (Function.update flags n true) C' where
  marked m := by
    by_cases hm : m = n
    · rw [hm, Function.update_self]
      exact iff_of_true rfl ⟨x, (hC x n).mpr (Or.inr ⟨rfl, rfl⟩)⟩
    · rw [Function.update_of_ne hm, h.marked]
      apply exists_congr
      intro r
      rw [hC]
      exact ⟨Or.inl, fun hr => hr.resolve_right fun hx => hm hx.2⟩
  one r r' m hr hr' := by
    rw [hC] at hr hr'
    rcases hr with hr | ⟨hr, hm⟩
    · rcases hr' with hr' | ⟨-, hm⟩
      · exact h.one r r' m hr hr'
      · exact absurd (hm ▸ hr) (h.not_claimed hn r)
    · rcases hr' with hr' | ⟨hr', -⟩
      · exact absurd (hm ▸ hr') (h.not_claimed hn r')
      · rw [hr, hr']

/-- `x` gives back the resource it has. -/
theorem clear (h : Accounts flags C) (hx : C x n) (honly : ∀ m, C x m → m = n)
    (hC : ∀ r m, C' r m ↔ C r m ∧ r ≠ x) : Accounts (Function.update flags n false) C' where
  marked m := by
    by_cases hm : m = n
    · rw [hm, Function.update_self]
      refine iff_of_false (by simp) ?_
      rintro ⟨r, hr⟩
      obtain ⟨hr, hne⟩ := (hC r n).mp hr
      exact hne (h.one r x n hr hx)
    · rw [Function.update_of_ne hm, h.marked]
      apply exists_congr
      intro r
      rw [hC]
      refine ⟨fun hr => ⟨hr, ?_⟩, And.left⟩
      rintro rfl
      exact hm (honly m hr)
  one r r' m hr hr' := h.one r r' m ((hC r m).mp hr).1 ((hC r' m).mp hr').1

end Accounts

end Ownership
