/-
  Nachos.Lib.Guarded

  Computations that stop at the first demand that is not met, with the reason for it.  A
  computation returns when each of its steps does; for a loop whose rounds return whatever
  state they are in, this is a condition on the elements of its list.
-/

import Mathlib.Data.List.Basic

namespace Guarded

universe u v

variable {ε : Type u} {α β σ : Type v}

/-- The computation comes to its end. -/
def Returns (x : Except ε α) : Prop := ∃ a, x = .ok a

/-- What has to hold for the computation to go on. -/
def demand (c : Prop) [Decidable c] (e : ε) : Except ε PUnit := if c then .ok ⟨⟩ else .error e

/-- A computation that returns has gone through its first step. -/
theorem bind_ok {x : Except ε α} {f : α → Except ε β} {b : β} :
    (x >>= f) = .ok b ↔ ∃ a, x = .ok a ∧ f a = .ok b := by
  cases x with
  | ok a => simp [bind, Except.bind]
  | error e => simp [bind, Except.bind]

/-- Two computations that agree under maps of their values and errors go on agreeing. -/
theorem bind_related {ε' : Type u} {α' β' : Type v} {e : ε' → ε} {p : α → α'} {q : β → β'}
    {x : Except ε α} {y : Except ε' α'} {f : α → Except ε β} {g : α' → Except ε' β'}
    (hx : x.map p = y.mapError e) (hf : ∀ a, (f a).map q = (g (p a)).mapError e) :
    (x >>= f).map q = (y >>= g).mapError e := by
  cases x with
  | error s =>
      cases y with
      | error s' => exact congrArg _ (Except.error.inj hx)
      | ok a' => exact nomatch hx
  | ok a =>
      cases y with
      | error s' => exact nomatch hx
      | ok a' =>
          obtain rfl := Except.ok.inj hx
          exact hf a

@[simp] theorem returns_ok {a : α} : Returns (.ok a : Except ε α) := ⟨a, rfl⟩

@[simp] theorem returns_pure {a : α} : Returns (pure a : Except ε α) := ⟨a, rfl⟩

@[simp] theorem not_returns_error {e : ε} : ¬ Returns (.error e : Except ε α) := by
  rintro ⟨a, h⟩
  cases h

theorem returns_bind {x : Except ε α} {f : α → Except ε β} :
    Returns (x >>= f) ↔ ∃ a, x = .ok a ∧ Returns (f a) := by
  constructor
  · rintro ⟨b, h⟩
    obtain ⟨a, hx, hf⟩ := bind_ok.mp h
    exact ⟨a, hx, b, hf⟩
  · rintro ⟨a, hx, b, hf⟩
    exact ⟨b, bind_ok.mpr ⟨a, hx, hf⟩⟩

/-- The end of a computation does not stop it. -/
theorem returns_bind_pure {x : Except ε α} {f : α → β} :
    Returns (x >>= fun a => pure (f a)) ↔ Returns x := by
  rw [returns_bind]
  constructor
  · rintro ⟨a, hx, -⟩
    exact ⟨a, hx⟩
  · rintro ⟨a, hx⟩
    exact ⟨a, hx, returns_pure⟩

variable {c : Prop} [Decidable c] {e : ε}

theorem demand_ok {u : PUnit} : demand c e = .ok u ↔ c := by
  unfold demand
  split <;> simp [*]

/-- What comes after a demand is reached when the demand is met. -/
theorem returns_demand {f : PUnit → Except ε α} :
    Returns (demand c e >>= f) ↔ c ∧ Returns (f ⟨⟩) := by
  rw [returns_bind]
  constructor
  · rintro ⟨u, hu, hf⟩
    exact ⟨demand_ok.mp hu, hf⟩
  · rintro ⟨hc, hf⟩
    exact ⟨⟨⟩, demand_ok.mpr hc, hf⟩

/-- A loop whose rounds return for the elements with `C` returns when all elements have it. -/
theorem returns_foldlM {f : σ → α → Except ε σ} {C : α → Prop} {l : List α}
    (hf : ∀ a ∈ l, ∀ s, Returns (f s a) ↔ C a) (s : σ) :
    Returns (l.foldlM f s) ↔ ∀ a ∈ l, C a := by
  induction l generalizing s with
  | nil => simp
  | cons a l ih =>
      have ih' := ih fun b hb => hf b (List.mem_cons_of_mem _ hb)
      rw [List.foldlM_cons, returns_bind, List.forall_mem_cons, ← hf a List.mem_cons_self s]
      constructor
      · rintro ⟨s', hs', hl⟩
        exact ⟨⟨s', hs'⟩, (ih' s').mp hl⟩
      · rintro ⟨⟨s', hs'⟩, hl⟩
        exact ⟨s', hs', (ih' s').mpr hl⟩

/-- Two loops whose rounds return the same return the same. -/
theorem foldlM_option {f : σ → α → Except ε σ} {g : σ → α → Option σ} {l : List α}
    (hfg : ∀ a ∈ l, ∀ s s', f s a = .ok s' → g s a = some s') {s s' : σ}
    (h : l.foldlM f s = .ok s') : l.foldlM g s = some s' := by
  induction l generalizing s with
  | nil =>
      obtain rfl := Except.ok.inj h
      rfl
  | cons a l ih =>
      rw [List.foldlM_cons] at h ⊢
      obtain ⟨s₁, hs₁, h⟩ := bind_ok.mp h
      rw [hfg a List.mem_cons_self _ _ hs₁]
      exact ih (fun b hb => hfg b (List.mem_cons_of_mem _ hb)) h

end Guarded
