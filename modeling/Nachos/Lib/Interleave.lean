/-
  Nachos.Lib.Interleave

  Programs that other programs run between.  A segment of a program is what it
  does between two of its switch points, or before the first or after the last;
  nothing else runs in it.  `Meets I G Q` is what a program guarantees if the
  others keep the invariant `I`: each segment that ends at a switch point takes
  its first state to its last one as `G` says, and the segment that returns does
  as `Q` says.  `Keeps I G` is the case of one relation for all the segments.
-/

import Nachos.Lib.Prog

namespace Program

universe u v

variable {σ : Type u} {α β : Type v}

/-- Where a segment ends: the program has returned, or the rest of it waits. -/
inductive Stop (σ : Type u) (α : Type v) where
  | done (a : α)
  | paused (p : Prog σ α)

namespace Prog

/-- Run up to the next switch point; `none` when the program aborts before. -/
def segment : Prog σ α → σ → Option (Stop σ α × σ)
  | pure a, s => some (.done a, s)
  | abort, _ => none
  | get k, s => (k s).segment s
  | put s k, _ => k.segment s
  | switch k, s => some (.paused k, s)

/-- What the segments guarantee.  The one that is under way has begun in `s₀` and
    has come to the last argument. -/
def Meets (I : σ → Prop) (G : σ → σ → Prop) (Q : σ → α → σ → Prop) :
    Prog σ α → σ → σ → Prop
  | pure a, s₀, s => Q s₀ a s
  | abort, _, _ => True
  | get k, s₀, s => (k s).Meets I G Q s₀ s
  | put s k, s₀, _ => k.Meets I G Q s₀ s
  | switch k, s₀, s => G s₀ s ∧ ∀ t, I t → k.Meets I G Q t t

section Rules

variable {I : σ → Prop} {G : σ → σ → Prop} {Q : σ → α → σ → Prop} {s₀ s s' : σ}

/-- A segment that returns. -/
theorem Meets.done {p : Prog σ α} {a : α} (h : p.Meets I G Q s₀ s)
    (hs : p.segment s = some (.done a, s')) : Q s₀ a s' := by
  induction p generalizing s with
  | pure b =>
      cases hs
      exact h
  | abort => cases hs
  | get k ih => exact ih s h hs
  | put t k ih => exact ih h hs
  | switch k => cases hs

/-- A segment that ends at a switch point, and what is left to run from any
    state. -/
theorem Meets.paused {p p' : Prog σ α} (h : p.Meets I G Q s₀ s)
    (hs : p.segment s = some (.paused p', s')) :
    G s₀ s' ∧ ∀ t, I t → p'.Meets I G Q t t := by
  induction p generalizing s with
  | pure b => cases hs
  | abort => cases hs
  | get k ih => exact ih s h hs
  | put t k ih => exact ih h hs
  | switch k =>
      cases hs
      exact h

theorem Meets.mono {G' : σ → σ → Prop} {Q' : σ → α → σ → Prop} {p : Prog σ α}
    (h : p.Meets I G Q s₀ s) (hg : ∀ s t, G s t → G' s t) (hq : ∀ s a t, Q s a t → Q' s a t) :
    p.Meets I G' Q' s₀ s := by
  induction p generalizing s₀ s with
  | pure a => exact hq _ _ _ h
  | abort => trivial
  | get k ih => exact ih s h
  | put t k ih => exact ih h
  | switch k ih => exact ⟨hg _ _ h.1, fun t ht => ih (h.2 t ht)⟩

@[simp] theorem meets_pure {a : α} : (Pure.pure a : Prog σ α).Meets I G Q s₀ s ↔ Q s₀ a s := Iff.rfl

@[simp] theorem meets_bind {p : Prog σ β} {f : β → Prog σ α} :
    (p >>= f).Meets I G Q s₀ s ↔ p.Meets I G (fun s₀ b s => (f b).Meets I G Q s₀ s) s₀ s := by
  show (p.bind f).Meets I G Q s₀ s ↔ _
  induction p generalizing s₀ s with
  | pure b => exact Iff.rfl
  | abort => exact Iff.rfl
  | get k ih => exact ih s
  | put t k ih => exact ih
  | switch k ih => exact and_congr_right fun _ => forall₂_congr fun t _ => ih

@[simp] theorem meets_map {p : Prog σ β} {f : β → α} :
    (f <$> p).Meets I G Q s₀ s ↔ p.Meets I G (fun s₀ b s => Q s₀ (f b) s) s₀ s := by
  show (p >>= fun b => Pure.pure (f b)).Meets I G Q s₀ s ↔ _
  simp only [meets_bind, meets_pure]

@[simp] theorem meets_read {Q : σ → σ → σ → Prop} : read.Meets I G Q s₀ s ↔ Q s₀ s s := Iff.rfl

@[simp] theorem meets_modify {f : σ → σ} {Q : σ → Unit → σ → Prop} :
    (modify f).Meets I G Q s₀ s ↔ Q s₀ () (f s) := Iff.rfl

@[simp] theorem meets_assert {c : Prop} [Decidable c] {Q : σ → Unit → σ → Prop} :
    (assert c).Meets I G Q s₀ s ↔ (c → Q s₀ () s) := by
  unfold assert
  split
  · rename_i hc
    exact ⟨fun h _ => h, fun h => h hc⟩
  · rename_i hc
    exact ⟨fun _ h => absurd h hc, fun _ => trivial⟩

@[simp] theorem meets_ofOption {o : Option α} :
    (ofOption o).Meets I G Q s₀ s ↔ ∀ a, o = some a → Q s₀ a s := by
  cases o with
  | none => exact ⟨fun _ _ h => (nomatch h), fun _ => trivial⟩
  | some a => exact ⟨fun h b hb => Option.some.inj hb ▸ h, fun h => h a rfl⟩

end Rules

/-! ## Segments that do not return -/

/-- The program does not return before its first switch point. -/
def Waits (p : Prog σ α) (s : σ) : Prop := ∀ a s', p.segment s ≠ some (.done a, s')

theorem segment_bind (p : Prog σ β) (f : β → Prog σ α) (s : σ) :
    (p >>= f).segment s = (p.segment s).bind fun x =>
      match x with
      | (.done b, s) => (f b).segment s
      | (.paused p, s) => some (.paused (p >>= f), s) := by
  show (p.bind f).segment s = _
  induction p generalizing s with
  | pure b => rfl
  | abort => rfl
  | get k ih => exact ih s s
  | put t k ih => exact ih t
  | switch k => rfl

theorem segment_map {p : Prog σ β} (g : β → α) {s s' : σ} {b : β}
    (h : p.segment s = some (.done b, s')) : (g <$> p).segment s = some (.done (g b), s') := by
  show (p >>= fun b => Pure.pure (g b)).segment s = _
  rw [segment_bind, h]
  rfl

/-- A result that is changed on the way out. -/
theorem segment_map_done {p : Prog σ β} {g : β → α} {s s' : σ} {a : α}
    (h : (g <$> p).segment s = some (.done a, s')) :
    ∃ b, p.segment s = some (.done b, s') ∧ g b = a := by
  change (p >>= fun b => Pure.pure (g b)).segment s = _ at h
  rw [segment_bind] at h
  obtain ⟨⟨x, t⟩, hx, h⟩ := Option.bind_eq_some_iff.mp h
  cases x with
  | done b =>
      cases h
      exact ⟨b, hx, rfl⟩
  | paused q => exact nomatch h

theorem segment_map_paused {p : Prog σ β} {g : β → α} {s s' : σ} {q : Prog σ α}
    (h : (g <$> p).segment s = some (.paused q, s')) :
    ∃ p', p.segment s = some (.paused p', s') ∧ g <$> p' = q := by
  change (p >>= fun b => Pure.pure (g b)).segment s = _ at h
  rw [segment_bind] at h
  obtain ⟨⟨x, t⟩, hx, h⟩ := Option.bind_eq_some_iff.mp h
  cases x with
  | done b => exact nomatch h
  | paused p' =>
      cases h
      exact ⟨p', hx, rfl⟩

theorem Waits.bind {p : Prog σ β} {s : σ} (h : Waits p s) (f : β → Prog σ α) :
    Waits (p >>= f) s := by
  intro a s' hs
  rw [segment_bind] at hs
  obtain ⟨⟨x, t⟩, hx, hs⟩ := Option.bind_eq_some_iff.mp hs
  cases x with
  | done b => exact h b t hx
  | paused q => exact nomatch hs

theorem Waits.bind_right {p : Prog σ β} {f : β → Prog σ α} {s : σ}
    (h : ∀ b s', p.segment s = some (.done b, s') → Waits (f b) s') : Waits (p >>= f) s := by
  intro a s' hs
  rw [segment_bind] at hs
  obtain ⟨⟨x, t⟩, hx, hs⟩ := Option.bind_eq_some_iff.mp hs
  cases x with
  | done b => exact h b t hx a s' hs
  | paused q => exact nomatch hs

theorem Waits.yield {s : σ} : Waits (Prog.yield : Prog σ Unit) s := fun _ _ h => nomatch h

theorem Waits.forRange {n : Nat} (hn : 0 < n) {a : α} {body : Nat → α → Prog σ α} {s : σ}
    (h : ∀ i a s, Waits (body i a) s) : Waits (forRange n a body) s := by
  induction n with
  | zero => exact absurd hn (Nat.lt_irrefl 0)
  | succ n ih =>
      rcases Nat.eq_zero_or_pos n with rfl | hpos
      · exact Waits.bind_right (p := Prog.pure a) fun b t _ => h 0 b t
      · exact (ih hpos).bind _

/-! ## One relation for every segment -/

/-- What may be relied on and what is guaranteed fit together. -/
structure Reliable (I : σ → Prop) (G : σ → σ → Prop) : Prop where
  refl : ∀ s, G s s
  trans : ∀ s t u, G s t → G t u → G s u
  inv : ∀ s t, I s → G s t → I t

/-- Whatever has been done in the segment so far, every segment does as `G` says. -/
structure Keeps (I : σ → Prop) (G : σ → σ → Prop) (p : Prog σ α) : Prop where
  meets : ∀ s₀ s, I s₀ → G s₀ s → p.Meets I G (fun s₀ _ s => I s₀ ∧ G s₀ s) s₀ s

section Keeps

variable {I : σ → Prop} {G : σ → σ → Prop} {Q : σ → α → σ → Prop} {s₀ s : σ}

/-- A program that keeps `G`, before one that goes on from there. -/
theorem Keeps.next {p : Prog σ β} {f : β → Prog σ α} (h : Keeps I G p) (hi : I s₀)
    (hs : G s₀ s) (hf : ∀ b s₀ s, I s₀ → G s₀ s → (f b).Meets I G Q s₀ s) :
    (p >>= f).Meets I G Q s₀ s :=
  meets_bind.mpr ((h.meets s₀ s hi hs).mono (fun _ _ hg => hg) fun s₀ b s hg =>
    hf b s₀ s hg.1 hg.2)

theorem Keeps.pure {a : α} : Keeps I G (Pure.pure a : Prog σ α) :=
  ⟨fun _ _ hi h => ⟨hi, h⟩⟩

theorem Keeps.abort : Keeps I G (Prog.abort : Prog σ α) := ⟨fun _ _ _ _ => trivial⟩

theorem Keeps.bind {p : Prog σ β} {f : β → Prog σ α} (h : Keeps I G p)
    (hf : ∀ b, Keeps I G (f b)) : Keeps I G (p >>= f) :=
  ⟨fun _ _ hi hs => h.next hi hs fun b s₀ s => (hf b).meets s₀ s⟩

theorem Keeps.read : Keeps I G (Prog.read : Prog σ σ) := ⟨fun _ _ hi h => ⟨hi, h⟩⟩

theorem Keeps.modify (hr : Reliable I G) {f : σ → σ} (hf : ∀ s, G s (f s)) :
    Keeps I G (Prog.modify f) := ⟨fun _ s hi h => ⟨hi, hr.trans _ _ _ h (hf s)⟩⟩

theorem Keeps.yield (hr : Reliable I G) : Keeps I G (Prog.yield : Prog σ Unit) :=
  ⟨fun _ _ _ h => ⟨h, fun t ht => ⟨ht, hr.refl t⟩⟩⟩

theorem Keeps.assert {c : Prop} [Decidable c] : Keeps I G (Prog.assert c : Prog σ Unit) :=
  ⟨fun _ _ hi h => meets_assert.mpr fun _ => ⟨hi, h⟩⟩

theorem Keeps.ofOption {o : Option α} : Keeps I G (Prog.ofOption o : Prog σ α) :=
  ⟨fun _ _ hi h => meets_ofOption.mpr fun _ _ => ⟨hi, h⟩⟩

theorem Keeps.ite {c : Prop} [Decidable c] {p q : Prog σ α} (hp : Keeps I G p)
    (hq : Keeps I G q) : Keeps I G (if c then p else q) := by
  split
  · exact hp
  · exact hq

/-- A counting loop: by induction on the number of rounds. -/
theorem Keeps.forRange {n : Nat} {a : α} {body : Nat → α → Prog σ α}
    (h : ∀ i a, Keeps I G (body i a)) : Keeps I G (forRange n a body) := by
  induction n with
  | zero => exact Keeps.pure
  | succ n ih => exact Keeps.bind ih fun a => h n a

end Keeps

end Prog

end Program
