/-
  Nachos.Lib.Walk

  A graph with labelled edges, given by the partial function `c`, and the
  walks in it.  From the root of a tree every node that can be reached is reached
  by one path, so the map from paths to nodes is the tree.  Adding an edge to a
  new node and removing the edge to a leaf are updates of this map at one path.
  The functions need to agree on the nodes that can be reached only.
-/

import Mathlib.Data.List.Induction
import Mathlib.Logic.Function.Basic

namespace Walk

universe u v

variable {α : Type u} {κ : Type v}

/-- The node at the end of a path. -/
def walk (c : α → κ → Option α) (s : α) : List κ → Option α
  | [] => some s
  | k :: p => (c s k).bind fun t => walk c t p

section

variable {c : α → κ → Option α} {r : α}

theorem walk_append (s : α) (p q : List κ) :
    walk c s (p ++ q) = (walk c s p).bind fun t => walk c t q := by
  induction p generalizing s with
  | nil => rfl
  | cons k p ih =>
      show ((c s k).bind fun t => walk c t (p ++ q)) = _
      rw [walk, Option.bind_assoc]
      congr 1
      funext t
      exact ih t

theorem walk_concat (s : α) (p : List κ) (k : κ) :
    walk c s (p ++ [k]) = (walk c s p).bind fun t => c t k := by
  rw [walk_append]
  congr 1
  funext t
  simp [walk]

/-- Some path ends in this node. -/
def Reach (c : α → κ → Option α) (r s : α) : Prop := ∃ p, walk c r p = some s

theorem Reach.root : Reach c r r := ⟨[], rfl⟩

theorem Reach.child {s x : α} {k : κ} (h : Reach c r s) (hx : c s k = some x) :
    Reach c r x := by
  obtain ⟨p, hp⟩ := h
  exact ⟨p ++ [k], by rw [walk_concat, hp, Option.bind_some, hx]⟩

/-- A node that is reached is the root or the child of one that is reached. -/
theorem Reach.cases {x : α} (h : Reach c r x) :
    x = r ∨ ∃ s k, Reach c r s ∧ c s k = some x := by
  obtain ⟨p, hp⟩ := h
  rcases List.eq_nil_or_concat p with rfl | ⟨q, k, rfl⟩
  · exact Or.inl (Option.some.inj hp).symm
  · rw [List.concat_eq_append, walk_concat, Option.bind_eq_some_iff] at hp
    obtain ⟨s, hs, hx⟩ := hp
    exact Or.inr ⟨s, k, ⟨q, hs⟩, hx⟩

/-- What is reached from the root is a tree. -/
structure IsTree (c : α → κ → Option α) (r : α) : Prop where
  root : ∀ s k, Reach c r s → c s k ≠ some r
  parent : ∀ s t k l x, Reach c r s → Reach c r t →
    c s k = some x → c t l = some x → s = t ∧ k = l

/-- A node of a tree has one path. -/
theorem IsTree.path_unique (h : IsTree c r) {p q : List κ} {s : α}
    (hp : walk c r p = some s) (hq : walk c r q = some s) : p = q := by
  -- The last edges of the two paths are the same, so the paths can be shortened.
  induction p using List.reverseRecOn generalizing q s with
  | nil =>
      obtain rfl : r = s := Option.some.inj hp
      rcases List.eq_nil_or_concat q with rfl | ⟨q, l, rfl⟩
      · rfl
      · rw [List.concat_eq_append, walk_concat, Option.bind_eq_some_iff] at hq
        obtain ⟨t, ht, hx⟩ := hq
        exact absurd hx (h.root t l ⟨q, ht⟩)
  | append_singleton p k ih =>
      rw [walk_concat, Option.bind_eq_some_iff] at hp
      obtain ⟨s', hs', hx⟩ := hp
      rcases List.eq_nil_or_concat q with rfl | ⟨q, l, rfl⟩
      · obtain rfl : r = s := Option.some.inj hq
        exact absurd hx (h.root s' k ⟨p, hs'⟩)
      · rw [List.concat_eq_append, walk_concat, Option.bind_eq_some_iff] at hq
        obtain ⟨t, ht, hx'⟩ := hq
        obtain ⟨rfl, rfl⟩ := h.parent s' t k l s ⟨p, hs'⟩ ⟨q, ht⟩ hx hx'
        rw [ih hs' ht, List.concat_eq_append]

end

/-! ## The same graph, an edge more, an edge less -/

section

variable {c c' : α → κ → Option α} {r : α}

theorem walk_congr (h : ∀ s, Reach c r s → c' s = c s) (p : List κ) :
    walk c' r p = walk c r p := by
  induction p using List.reverseRecOn with
  | nil => rfl
  | append_singleton p k ih =>
      rw [walk_concat, walk_concat, ih]
      cases hp : walk c r p with
      | none => rfl
      | some s => rw [Option.bind_some, Option.bind_some, h s ⟨p, hp⟩]

theorem IsTree.congr (ht : IsTree c r) (h : ∀ s, Reach c r s → c' s = c s) :
    IsTree c' r := by
  have hreach : ∀ s, Reach c' r s → Reach c r s := by
    rintro s ⟨p, hp⟩
    exact ⟨p, by rw [← walk_congr h, hp]⟩
  refine ⟨fun s k hs => ?_, fun s t k l x hs ht' hx hx' => ?_⟩
  · rw [h s (hreach s hs)]
    exact ht.root s k (hreach s hs)
  · rw [h s (hreach s hs)] at hx
    rw [h t (hreach t ht')] at hx'
    exact ht.parent s t k l x (hreach s hs) (hreach t ht') hx hx'

variable [DecidableEq κ]

/-- `c'` has one edge more than `c`, labelled `k`, from `a` to the new
    node `x`. -/
structure Link (c c' : α → κ → Option α) (r a : α) (k : κ) (x : α) : Prop where
  absent : c a k = none
  fresh : ¬ Reach c r x
  parent : c' a = Function.update (c a) k (some x)
  leaf : ∀ l, c' x l = none
  others : ∀ s, Reach c r s → s ≠ a → c' s = c s

/-- `c'` has one edge less than `c`, labelled `k`, from `a` to the leaf `x`. -/
structure Unlink (c c' : α → κ → Option α) (r a : α) (k : κ) (x : α) : Prop where
  present : c a k = some x
  leaf : ∀ l, c x l = none
  parent : c' a = Function.update (c a) k none
  others : ∀ s, Reach c r s → s ≠ a → s ≠ x → c' s = c s

variable {a x : α} {k : κ} {p : List κ}

theorem Link.walk (h : Link c c' r a k x) (ht : IsTree c r)
    (hp : walk c r p = some a) :
    walk c' r = Function.update (walk c r) (p ++ [k]) (some x) := by
  funext q
  induction q using List.reverseRecOn with
  | nil => rw [Function.update_of_ne (by simp)]; rfl
  | append_singleton q l ih =>
      rw [walk_concat, ih]
      by_cases hq : q = p ++ [k]
      · -- Past the new node there is nothing.
        subst hq
        have hne : p ++ [k] ++ [l] ≠ p ++ [k] := by simp
        rw [Function.update_self, Option.bind_some, h.leaf, Function.update_of_ne hne, walk_concat,
          walk_concat, hp, Option.bind_some, h.absent, Option.bind_none]
      · rw [Function.update_of_ne hq]
        cases hw : Walk.walk c r q with
        | none =>
            have hne : q ++ [l] ≠ p ++ [k] := by
              intro he
              obtain ⟨rfl, -⟩ := List.append_singleton_inj.mp he
              simp [hp] at hw
            rw [Option.bind_none, Function.update_of_ne hne, walk_concat, hw, Option.bind_none]
        | some s =>
            rw [Option.bind_some]
            by_cases hsa : s = a
            · subst hsa
              obtain rfl := ht.path_unique hw hp
              rw [h.parent]
              by_cases hlk : l = k
              · rw [hlk, Function.update_self, Function.update_self]
              · have hne : q ++ [l] ≠ q ++ [k] := by simpa using hlk
                rw [Function.update_of_ne hlk, Function.update_of_ne hne, walk_concat, hw,
                  Option.bind_some]
            · have hne : q ++ [l] ≠ p ++ [k] := by
                intro he
                obtain ⟨rfl, -⟩ := List.append_singleton_inj.mp he
                exact hsa (Option.some.inj (hw.symm.trans hp))
              rw [h.others s ⟨q, hw⟩ hsa, Function.update_of_ne hne, walk_concat, hw,
                Option.bind_some]

theorem Link.reach (h : Link c c' r a k x) (ht : IsTree c r)
    (ha : Reach c r a) (s : α) :
    Reach c' r s ↔ Reach c r s ∨ s = x := by
  obtain ⟨p, hp⟩ := ha
  have hw := h.walk ht hp
  have hold : Walk.walk c r (p ++ [k]) = none := by
    rw [walk_concat, hp, Option.bind_some, h.absent]
  constructor
  · rintro ⟨q, hq⟩
    rw [hw] at hq
    by_cases he : q = p ++ [k]
    · rw [he, Function.update_self] at hq
      exact Or.inr (Option.some.inj hq).symm
    · rw [Function.update_of_ne he] at hq
      exact Or.inl ⟨q, hq⟩
  · rintro (⟨q, hq⟩ | rfl)
    · have he : q ≠ p ++ [k] := by
        rintro rfl
        simp [hold] at hq
      exact ⟨q, by rw [hw, Function.update_of_ne he, hq]⟩
    · exact ⟨p ++ [k], by rw [hw, Function.update_self]⟩

/-- An edge of `c'` is one of `c` or the new one. -/
theorem Link.edge (h : Link c c' r a k x) {s t : α} {l : κ}
    (hs : Reach c r s ∨ s = x) (ht : c' s l = some t) :
    (Reach c r s ∧ c s l = some t) ∨ (s = a ∧ l = k ∧ t = x) := by
  rcases hs with hs | rfl
  · by_cases hsa : s = a
    · subst hsa
      rw [h.parent] at ht
      by_cases hlk : l = k
      · rw [hlk, Function.update_self] at ht
        exact Or.inr ⟨rfl, hlk, (Option.some.inj ht).symm⟩
      · rw [Function.update_of_ne hlk] at ht
        exact Or.inl ⟨hs, ht⟩
    · rw [h.others s hs hsa] at ht
      exact Or.inl ⟨hs, ht⟩
  · rw [h.leaf] at ht
    cases ht

theorem Link.isTree (h : Link c c' r a k x) (ht : IsTree c r)
    (ha : Reach c r a) : IsTree c' r := by
  have hreach := h.reach ht ha
  refine ⟨fun s l hs hx => ?_, fun s t l m y hs hs' hx hx' => ?_⟩
  · rcases h.edge ((hreach s).mp hs) hx with ⟨hs, hx⟩ | ⟨-, -, rfl⟩
    · exact ht.root s l hs hx
    · exact h.fresh Reach.root
  · rcases h.edge ((hreach s).mp hs) hx with ⟨hs, hx⟩ | ⟨rfl, rfl, rfl⟩
    · rcases h.edge ((hreach t).mp hs') hx' with ⟨hs', hx'⟩ | ⟨rfl, rfl, rfl⟩
      · exact ht.parent s t l m y hs hs' hx hx'
      · exact absurd (hs.child hx) h.fresh
    · rcases h.edge ((hreach t).mp hs') hx' with ⟨hs', hx'⟩ | ⟨rfl, rfl, -⟩
      · exact absurd (hs'.child hx') h.fresh
      · exact ⟨rfl, rfl⟩

theorem Unlink.walk (h : Unlink c c' r a k x) (ht : IsTree c r)
    (hp : walk c r p = some a) :
    walk c' r = Function.update (walk c r) (p ++ [k]) none := by
  have hold : Walk.walk c r (p ++ [k]) = some x := by
    rw [walk_concat, hp, Option.bind_some, h.present]
  funext q
  induction q using List.reverseRecOn with
  | nil => rw [Function.update_of_ne (by simp)]; rfl
  | append_singleton q l ih =>
      rw [walk_concat, ih]
      by_cases hq : q = p ++ [k]
      · subst hq
        have hne : p ++ [k] ++ [l] ≠ p ++ [k] := by simp
        rw [Function.update_self, Option.bind_none, Function.update_of_ne hne, walk_concat, hold,
          Option.bind_some, h.leaf]
      · rw [Function.update_of_ne hq]
        cases hw : Walk.walk c r q with
        | none =>
            have hne : q ++ [l] ≠ p ++ [k] := by
              intro he
              obtain ⟨rfl, -⟩ := List.append_singleton_inj.mp he
              simp [hp] at hw
            rw [Option.bind_none, Function.update_of_ne hne, walk_concat, hw, Option.bind_none]
        | some s =>
            have hsx : s ≠ x := by
              rintro rfl
              exact hq (ht.path_unique hw hold)
            rw [Option.bind_some]
            by_cases hsa : s = a
            · subst hsa
              obtain rfl := ht.path_unique hw hp
              rw [h.parent]
              by_cases hlk : l = k
              · rw [hlk, Function.update_self, Function.update_self]
              · have hne : q ++ [l] ≠ q ++ [k] := by simpa using hlk
                rw [Function.update_of_ne hlk, Function.update_of_ne hne, walk_concat, hw,
                  Option.bind_some]
            · have hne : q ++ [l] ≠ p ++ [k] := by
                intro he
                obtain ⟨rfl, -⟩ := List.append_singleton_inj.mp he
                exact hsa (Option.some.inj (hw.symm.trans hp))
              rw [h.others s ⟨q, hw⟩ hsa hsx, Function.update_of_ne hne, walk_concat, hw,
                Option.bind_some]

theorem Unlink.reach (h : Unlink c c' r a k x) (ht : IsTree c r)
    (ha : Reach c r a) (s : α) :
    Reach c' r s ↔ Reach c r s ∧ s ≠ x := by
  obtain ⟨p, hp⟩ := ha
  have hw := h.walk ht hp
  have hold : Walk.walk c r (p ++ [k]) = some x := by
    rw [walk_concat, hp, Option.bind_some, h.present]
  constructor
  · rintro ⟨q, hq⟩
    rw [hw] at hq
    by_cases he : q = p ++ [k]
    · rw [he, Function.update_self] at hq
      cases hq
    · rw [Function.update_of_ne he] at hq
      refine ⟨⟨q, hq⟩, ?_⟩
      rintro rfl
      exact he (ht.path_unique hq hold)
  · rintro ⟨⟨q, hq⟩, hsx⟩
    have he : q ≠ p ++ [k] := by
      rintro rfl
      exact hsx (Option.some.inj (hq.symm.trans hold))
    exact ⟨q, by rw [hw, Function.update_of_ne he, hq]⟩

theorem Unlink.edge (h : Unlink c c' r a k x) {s t : α} {l : κ}
    (hs : Reach c r s) (hsx : s ≠ x) (ht : c' s l = some t) : c s l = some t := by
  by_cases hsa : s = a
  · subst hsa
    rw [h.parent] at ht
    by_cases hlk : l = k
    · rw [hlk, Function.update_self] at ht
      cases ht
    · rwa [Function.update_of_ne hlk] at ht
  · rwa [h.others s hs hsa hsx] at ht

theorem Unlink.isTree (h : Unlink c c' r a k x) (ht : IsTree c r)
    (ha : Reach c r a) : IsTree c' r := by
  have hreach := h.reach ht ha
  refine ⟨fun s l hs hx => ?_, fun s t l m y hs hs' hx hx' => ?_⟩
  · obtain ⟨hs, hsx⟩ := (hreach s).mp hs
    exact ht.root s l hs (h.edge hs hsx hx)
  · obtain ⟨hs, hsx⟩ := (hreach s).mp hs
    obtain ⟨hs', htx⟩ := (hreach t).mp hs'
    exact ht.parent s t l m y hs hs' (h.edge hs hsx hx) (h.edge hs' htx hx')

end

end Walk
