/-
  Nachos.Lib.Run

  Runs of a partial step function, with the history of the states and actions
  they went through.  A run from `s₀` is built one action at a time at its end,
  so that an invariant may relate the state reached to the whole history
  (`Run.rec`), to the state alone (`Run.invariant`), or to the history under a
  condition on each of its steps (`Run.invariant_of_steps`).  A system without a
  choice of actions is followed with the `Reaches` of Mathlib.
-/

import Mathlib.Computability.StateTransition
import Mathlib.Data.List.Infix

namespace Transition

variable {σ α : Type*} {step : σ → α → Option σ} {s₀ : σ}

/-- `Run step s₀ tr s`: the actions of `tr`, each paired with the state it was
    taken in, lead from `s₀` to `s`. -/
inductive Run (step : σ → α → Option σ) (s₀ : σ) : List (σ × α) → σ → Prop where
  | nil : Run step s₀ [] s₀
  | snoc {tr : List (σ × α)} {s s' : σ} {a : α} :
      Run step s₀ tr s → step s a = some s' → Run step s₀ (tr ++ [(s, a)]) s'

namespace Run

/-- The state a history leads to is determined by the history. -/
theorem state_unique {tr : List (σ × α)} {s t : σ}
    (h : Run step s₀ tr s) (h' : Run step s₀ tr t) : s = t := by
  cases h with
  | nil =>
      generalize hnil : ([] : List (σ × α)) = l at h'
      cases h' with
      | nil => rfl
      | snoc _ _ => simp at hnil
  | @snoc tr₁ s₁ _ a₁ _ hs =>
      generalize hl : tr₁ ++ [(s₁, a₁)] = l at h'
      cases h' with
      | nil => simp at hl
      | snoc _ hs' =>
          obtain ⟨-, hx⟩ := List.append_inj' hl rfl
          simp only [List.cons.injEq, Prod.mk.injEq, and_true] at hx
          obtain ⟨rfl, rfl⟩ := hx
          exact Option.some.inj (hs.symm.trans hs')

/-- The last step of a nonempty run. -/
theorem of_snoc {tr : List (σ × α)} {x : σ × α} {s : σ}
    (h : Run step s₀ (tr ++ [x]) s) : Run step s₀ tr x.1 ∧ step x.1 x.2 = some s := by
  generalize hl : tr ++ [x] = l at h
  cases h with
  | nil => simp at hl
  | snoc hr hs =>
      obtain ⟨rfl, hx⟩ := List.append_inj' hl rfl
      simp only [List.cons.injEq, and_true] at hx
      subst hx
      exact ⟨hr, hs⟩

/-- Every prefix of a history is the history of a run. -/
theorem exists_prefix {tr tr' : List (σ × α)} {s : σ} (h : Run step s₀ tr s)
    (hp : tr' <+: tr) : ∃ s', Run step s₀ tr' s' := by
  induction h with
  | nil => exact ⟨s₀, (List.prefix_nil.mp hp) ▸ Run.nil⟩
  | snoc hr hs ih =>
      rcases List.prefix_concat_iff.mp hp with rfl | hp
      · exact ⟨_, Run.snoc hr hs⟩
      · exact ih hp

/-- The states of a history are reached by its prefixes. -/
theorem of_mem {tr : List (σ × α)} {x : σ × α} {s : σ} (h : Run step s₀ tr s) (hx : x ∈ tr) :
    ∃ tr', tr' <+: tr ∧ Run step s₀ tr' x.1 := by
  obtain ⟨l, l', rfl⟩ := List.append_of_mem hx
  have hp : l ++ [x] <+: l ++ x :: l' := ⟨l', by simp⟩
  obtain ⟨s', hs'⟩ := h.exists_prefix hp
  exact ⟨l, List.prefix_append _ _, (of_snoc hs').1⟩

/-- An invariant of every step holds in every state reached. -/
theorem invariant {I : σ → Prop} (h₀ : I s₀)
    (hstep : ∀ s a s', I s → step s a = some s' → I s')
    {tr : List (σ × α)} {s : σ} (h : Run step s₀ tr s) : I s := by
  induction h with
  | nil => exact h₀
  | snoc _ hs ih => exact hstep _ _ _ ih hs

/-- An invariant of every step that meets `C` holds in every state reached by
    a run all of whose steps meet `C`. -/
theorem invariant_of_steps {I : List (σ × α) → σ → Prop} {C : σ → α → Prop}
    (h₀ : I [] s₀)
    (hstep : ∀ tr s a s', I tr s → C s a → step s a = some s' → I (tr ++ [(s, a)]) s')
    {tr : List (σ × α)} {s : σ} (h : Run step s₀ tr s)
    (hc : ∀ x ∈ tr, C x.1 x.2) : I tr s := by
  induction h with
  | nil => exact h₀
  | snoc _ hs ih =>
      have hi := ih (fun x hx => hc x (List.mem_append_left _ hx))
      exact hstep _ _ _ _ hi (hc (_, _) (by simp)) hs

/-- `P` holds in every state of the run that `tr` is the history of. -/
def Always (step : σ → α → Option σ) (s₀ : σ) (P : List (σ × α) → σ → Prop)
    (tr : List (σ × α)) : Prop :=
  ∀ tr' s', tr' <+: tr → Run step s₀ tr' s' → P tr' s'

theorem always_nil {P : List (σ × α) → σ → Prop} :
    Always step s₀ P [] ↔ P [] s₀ := by
  constructor
  · intro h
    exact h [] s₀ (List.prefix_refl _) Run.nil
  · intro h tr' s' hp hr
    obtain rfl := List.prefix_nil.mp hp
    rwa [state_unique hr Run.nil]

/-- A run stays good for one more step when the state it reaches is good. -/
theorem always_snoc {P : List (σ × α) → σ → Prop} {tr : List (σ × α)} {s s' : σ} {a : α}
    (hr : Run step s₀ tr s) (hs : step s a = some s') :
    Always step s₀ P (tr ++ [(s, a)]) ↔
      Always step s₀ P tr ∧ P (tr ++ [(s, a)]) s' := by
  constructor
  · intro h
    refine ⟨fun tr' t hp ht => h tr' t (hp.trans (List.prefix_append _ _)) ht, ?_⟩
    exact h _ _ (List.prefix_refl _) (Run.snoc hr hs)
  · rintro ⟨h, hlast⟩ tr' t hp ht
    rcases List.prefix_concat_iff.mp hp with rfl | hp
    · rwa [state_unique ht (Run.snoc hr hs)]
    · exact h tr' t hp ht

/-- A first step may be put before a run. -/
theorem cons {tr : List (σ × α)} {s t : σ} {a : α} (hs : step s₀ a = some s)
    (h : Run step s tr t) : Run step s₀ ((s₀, a) :: tr) t := by
  induction h with
  | nil => exact Run.snoc Run.nil hs
  | snoc _ hs' ih => exact Run.snoc ih hs'

/-- One run after the other. -/
theorem append {tr tr' : List (σ × α)} {s t : σ} (h : Run step s₀ tr s)
    (h' : Run step s tr' t) : Run step s₀ (tr ++ tr') t := by
  induction h' with
  | nil => rwa [List.append_nil]
  | snoc _ hs ih =>
      rw [← List.append_assoc]
      exact Run.snoc ih hs

end Run

/-- Take the actions one after the other, and record the history. -/
def exec (step : σ → α → Option σ) (s : σ) : List α → Option (List (σ × α) × σ)
  | [] => some ([], s)
  | a :: as =>
      (step s a).bind fun s' =>
        (exec step s' as).map fun x => ((s, a) :: x.1, x.2)

/-- What `exec` records is a run. -/
theorem run_of_exec {as : List α} {tr : List (σ × α)} {s t : σ}
    (h : exec step s as = some (tr, t)) : Run step s tr t := by
  induction as generalizing s tr with
  | nil =>
      obtain ⟨rfl, rfl⟩ := Prod.mk.inj (Option.some.inj h)
      exact Run.nil
  | cons a as ih =>
      simp only [exec, Option.bind_eq_some_iff, Option.map_eq_some_iff] at h
      obtain ⟨s', hs, ⟨tr', t'⟩, he, h⟩ := h
      obtain ⟨rfl, rfl⟩ := Prod.mk.inj h
      exact Run.cons hs (ih he)

/-- The actions of what `exec` records are those it was given. -/
theorem actions_of_exec {as : List α} {tr : List (σ × α)} {s t : σ}
    (h : exec step s as = some (tr, t)) : tr.map Prod.snd = as := by
  induction as generalizing s tr with
  | nil =>
      obtain ⟨rfl, rfl⟩ := Prod.mk.inj (Option.some.inj h)
      rfl
  | cons a as ih =>
      simp only [exec, Option.bind_eq_some_iff, Option.map_eq_some_iff] at h
      obtain ⟨s', hs, ⟨tr', t'⟩, he, h⟩ := h
      obtain ⟨rfl, rfl⟩ := Prod.mk.inj h
      rw [List.map_cons, ih he]

/-! ## Loops over a list -/

/-- What each round keeps, the loop keeps. -/
theorem foldlM_invariant {f : σ → α → Option σ} {P : σ → Prop}
    {l : List α} (hstep : ∀ a ∈ l, ∀ s s', P s → f s a = some s' → P s') {s s' : σ} (h : P s)
    (hs : l.foldlM f s = some s') : P s' := by
  induction l generalizing s with
  | nil =>
      obtain rfl := Option.some.inj hs
      exact h
  | cons a l ih =>
      rw [List.foldlM_cons] at hs
      obtain ⟨s₁, hf, hs⟩ := Option.bind_eq_some_iff.mp hs
      have h₁ := hstep _ List.mem_cons_self _ _ h hf
      exact ih (fun b hb => hstep b (List.mem_cons_of_mem _ hb)) h₁ hs

/-- Where one loop goes on, the other does, and they stay related.  The relation may
    depend on what is left of the list. -/
theorem exists_foldlM {τ : Type*} {f : σ → α → Option σ} {g : τ → α → Option τ}
    {R : List α → σ → τ → Prop}
    (hstep : ∀ a l s t t', R (a :: l) s t → g t a = some t' → ∃ s', f s a = some s' ∧ R l s' t')
    {l : List α} {s : σ} {t t' : τ} (h : R l s t) (ht : l.foldlM g t = some t') :
    ∃ s', l.foldlM f s = some s' ∧ R [] s' t' := by
  induction l generalizing s t with
  | nil =>
      obtain rfl := Option.some.inj ht
      exact ⟨s, rfl, h⟩
  | cons a l ih =>
      rw [List.foldlM_cons] at ht
      obtain ⟨t₁, hg, ht⟩ := Option.bind_eq_some_iff.mp ht
      obtain ⟨s₁, hf, h₁⟩ := hstep _ _ _ _ _ h hg
      obtain ⟨s', hs', h'⟩ := ih h₁ ht
      refine ⟨s', ?_, h'⟩
      rw [List.foldlM_cons, hf]
      exact hs'

/-! ## One step after the other -/

section Reaches

open StateTransition

variable {f : σ → Option σ} {a b c : σ}

/-- The first step can be put before, or taken off. -/
theorem reaches_of_step (h : f a = some b) (hne : c ≠ a) : Reaches f a c ↔ Reaches f b c := by
  constructor
  · intro hr
    rcases hr.cases_head with heq | ⟨b', hb', hr'⟩
    · exact absurd heq.symm hne
    · rwa [Option.some.inj (h.symm.trans hb')]
  · exact fun hr => Relation.ReflTransGen.head h hr

/-- Where there is no step, the way ends. -/
theorem reaches_of_none (h : f a = none) : Reaches f a c ↔ c = a := by
  constructor
  · intro hr
    rcases hr.cases_head with heq | ⟨b', hb', -⟩
    · exact heq.symm
    · exact nomatch h.symm.trans hb'
  · rintro rfl
    exact Relation.ReflTransGen.refl

end Reaches

end Transition
