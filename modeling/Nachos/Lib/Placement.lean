/-
  Nachos.Lib.Placement

  Tokens that sit in places, each place an ordered list.  `Located members loc`
  says that every token is where the map `loc` puts it and nowhere else, and
  only once there.  Taking the head off a place and putting a token at the end
  of a place keep it; a protocol that moves tokens is a composition of the two.
-/

import Mathlib.Logic.Function.Basic
import Mathlib.Data.List.Nodup

namespace Placement

variable {π τ : Type*}

/-- Every token `t` is in the place `loc t`, once, and in no other place. -/
def Located (members : π → List τ) (loc : τ → Option π) : Prop :=
  ∀ p, (members p).Nodup ∧ ∀ t, t ∈ members p ↔ loc t = some p

namespace Located

variable {m : π → List τ} {loc : τ → Option π}

theorem loc_of_mem (h : Located m loc) {p : π} {t : τ} (ht : t ∈ m p) : loc t = some p :=
  ((h p).2 t).mp ht

theorem mem_of_loc (h : Located m loc) {p : π} {t : τ} (ht : loc t = some p) : t ∈ m p :=
  ((h p).2 t).mpr ht

theorem nodup (h : Located m loc) (p : π) : (m p).Nodup := (h p).1

/-- A token is in one place only. -/
theorem place_unique (h : Located m loc) {p q : π} {t : τ} (hp : t ∈ m p) (hq : t ∈ m q) :
    p = q :=
  Option.some.inj ((h.loc_of_mem hp).symm.trans (h.loc_of_mem hq))

variable [DecidableEq π] [DecidableEq τ]

/-- A token that is nowhere may be put at the end of a place. -/
theorem push (h : Located m loc) {t : τ} (p : π) (ht : loc t = none) :
    Located (Function.update m p (m p ++ [t])) (Function.update loc t (some p)) := by
  intro q
  have hnot : t ∉ m p := fun hm => by simpa [ht] using h.loc_of_mem hm
  by_cases hq : q = p
  · subst hq
    rw [Function.update_self]
    refine ⟨List.nodup_append.mpr ⟨h.nodup q, List.nodup_singleton t, ?_⟩, ?_⟩
    · intro a ha b hb hab
      simp only [List.mem_singleton] at hb
      exact hnot (hb ▸ hab ▸ ha)
    · intro u
      by_cases hu : u = t
      · subst hu
        simp
      · rw [Function.update_of_ne hu, ← (h q).2 u]
        simp [hu]
  · rw [Function.update_of_ne hq]
    refine ⟨h.nodup q, fun u => ?_⟩
    by_cases hu : u = t
    · subst hu
      rw [Function.update_self]
      constructor
      · intro hm
        simpa [ht] using h.loc_of_mem hm
      · intro he
        exact absurd (Option.some.inj he).symm hq
    · rw [Function.update_of_ne hu]
      exact (h q).2 u

/-- The head of a place may be taken away. -/
theorem pop (h : Located m loc) {p : π} {t : τ} {rest : List τ} (hp : m p = t :: rest) :
    Located (Function.update m p rest) (Function.update loc t none) := by
  have hnd : (t :: rest).Nodup := hp ▸ h.nodup p
  have hloc : loc t = some p := h.loc_of_mem (by rw [hp]; exact List.mem_cons_self)
  intro q
  by_cases hq : q = p
  · subst hq
    rw [Function.update_self]
    refine ⟨hnd.of_cons, fun u => ?_⟩
    by_cases hu : u = t
    · subst hu
      simp [(List.nodup_cons.mp hnd).1]
    · rw [Function.update_of_ne hu, ← (h q).2 u, hp]
      simp [hu]
  · rw [Function.update_of_ne hq]
    refine ⟨h.nodup q, fun u => ?_⟩
    by_cases hu : u = t
    · subst hu
      rw [Function.update_self]
      constructor
      · intro hm
        exact absurd (h.place_unique hm (by rw [hp]; exact List.mem_cons_self)) hq
      · intro he
        exact absurd he (by simp)
    · rw [Function.update_of_ne hu]
      exact (h q).2 u

end Located

end Placement
