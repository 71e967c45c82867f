/-
  Nachos.Lib.Preorder

  The nodes below a node of a labelled graph, depth first, each with its path.  The graph is
  given by the list of the edges of each node; the recursion is cut off at a depth.  In a
  tree on finitely many nodes the depth is less than their number, and the list has every
  path once, with what is below a path right after it.
-/

import Mathlib.Data.Fintype.Card
import Nachos.Lib.Walk

namespace Walk

universe u v

variable {α : Type u} {κ : Type v}

/-- The paths of at most `n` edges from `s`, except the empty one, with their ends. -/
def below (c : α → List (κ × α)) : Nat → α → List (List κ × α)
  | 0, _ => []
  | n + 1, s => (c s).flatMap fun e =>
      ([e.1], e.2) :: (below c n e.2).map fun x => (e.1 :: x.1, x.2)

theorem below_succ (c : α → List (κ × α)) (n : Nat) (s : α) :
    below c (n + 1) s = (c s).flatMap fun e =>
      ([e.1], e.2) :: (below c n e.2).map fun x => (e.1 :: x.1, x.2) := rfl

theorem path_ne_nil {c : α → List (κ × α)} {n : Nat} {s : α} {x : List κ × α}
    (h : x ∈ below c n s) : x.1 ≠ [] := by
  cases n with
  | zero => cases h
  | succ n =>
      rw [below_succ, List.mem_flatMap] at h
      obtain ⟨e, -, hx⟩ := h
      rcases List.mem_cons.mp hx with rfl | hx
      · simp
      · obtain ⟨y, -, rfl⟩ := List.mem_map.mp hx
        simp

section

variable {g : α → κ → Option α} {c : α → List (κ × α)} {r : α}

/-- The lists have the edges of the nodes that are reached. -/
def Lists (c : α → List (κ × α)) (g : α → κ → Option α) (r : α) : Prop :=
  ∀ s, Reach g r s → ∀ k t, (k, t) ∈ c s ↔ g s k = some t

theorem mem_below (h : Lists c g r) {n : Nat} {s : α} (hs : Reach g r s) {p : List κ} {t : α} :
    (p, t) ∈ below c n s ↔ p ≠ [] ∧ p.length ≤ n ∧ walk g s p = some t := by
  induction n generalizing s p t with
  | zero =>
      constructor
      · intro hm
        cases hm
      · rintro ⟨hne, hlen, -⟩
        exact absurd (List.length_eq_zero_iff.mp (Nat.le_zero.mp hlen)) hne
  | succ n ih =>
      rw [below_succ, List.mem_flatMap]
      constructor
      · rintro ⟨⟨k, x⟩, he, hm⟩
        have hedge := (h s hs k x).mp he
        rcases List.mem_cons.mp hm with heq | hm
        · obtain ⟨rfl, rfl⟩ := Prod.mk.inj heq
          refine ⟨by simp, by simp, ?_⟩
          simp [walk, hedge]
        · obtain ⟨⟨q, y⟩, hy, heq⟩ := List.mem_map.mp hm
          obtain ⟨rfl, rfl⟩ := Prod.mk.inj heq
          obtain ⟨-, hlen, hw⟩ := (ih (hs.child hedge)).mp hy
          refine ⟨by simp, Nat.succ_le_succ hlen, ?_⟩
          rw [walk, hedge, Option.bind_some]
          exact hw
      · rintro ⟨hne, hlen, hw⟩
        cases p with
        | nil => exact absurd rfl hne
        | cons k q =>
            rw [walk, Option.bind_eq_some_iff] at hw
            obtain ⟨x, hedge, hw⟩ := hw
            refine ⟨(k, x), (h s hs k x).mpr hedge, ?_⟩
            cases q with
            | nil =>
                obtain rfl : x = t := Option.some.inj hw
                exact List.mem_cons_self
            | cons l q =>
                refine List.mem_cons_of_mem _ (List.mem_map.mpr ⟨(l :: q, t), ?_, rfl⟩)
                exact (ih (hs.child hedge)).mpr
                  ⟨by simp, Nat.succ_le_succ_iff.mp hlen, hw⟩

/-- No path is there twice. -/
theorem nodup_below (h : Lists c g r)
    (hnd : ∀ s, Reach g r s → ((c s).map Prod.fst).Nodup) {n : Nat} {s : α} (hs : Reach g r s) :
    ((below c n s).map Prod.fst).Nodup := by
  induction n generalizing s with
  | zero => exact List.nodup_nil
  | succ n ih =>
      -- the first key of a path tells from which edge it comes
      have hkeys : ∀ e ∈ c s, ∀ p ∈ (([e.1], e.2) :: (below c n e.2).map
          fun x => (e.1 :: x.1, x.2)).map Prod.fst, p.head? = some e.1 := by
        intro e he p hp
        simp only [List.map_cons, List.map_map, List.mem_cons, List.mem_map] at hp
        rcases hp with rfl | ⟨x, -, rfl⟩ <;> rfl
      have hone : ∀ e ∈ c s, ((([e.1], e.2) :: (below c n e.2).map
          fun x => (e.1 :: x.1, x.2)).map Prod.fst).Nodup := by
        intro e he
        have hx := ih (hs.child ((h s hs e.1 e.2).mp he))
        rw [List.map_cons, List.map_map, List.nodup_cons]
        constructor
        · rw [List.mem_map]
          rintro ⟨x, hx, heq⟩
          exact path_ne_nil hx (List.cons.inj heq).2
        · have hmap : (below c n e.2).map (Prod.fst ∘ fun x => (e.1 :: x.1, x.2)) =
              ((below c n e.2).map Prod.fst).map (e.1 :: ·) := by
            rw [List.map_map]
            rfl
          rw [hmap]
          exact hx.map fun p q hpq => (List.cons.inj hpq).2
      rw [below_succ, List.map_flatMap]
      refine List.nodup_flatMap.mpr ⟨hone, ?_⟩
      have hdistinct := List.pairwise_map.mp (hnd s hs)
      refine hdistinct.imp_of_mem fun {e e'} he he' hne => ?_
      intro p hp hp'
      exact hne (Option.some.inj ((hkeys e he p hp).symm.trans (hkeys e' he' p hp')))

end

/-! ## The order -/

/-- After each path come those it is a prefix of, and nowhere else. -/
def DepthFirst (L : List (List κ)) : Prop :=
  ∀ A p B, L = A ++ p :: B → ∃ D R, B = D ++ R ∧ (∀ q ∈ D, p <+: q) ∧ ∀ q ∈ A ++ R, ¬ p <+: q

theorem DepthFirst.nil : DepthFirst ([] : List (List κ)) := by
  intro A p B h
  cases A <;> cases h

/-- The paths below an edge, after the edge. -/
theorem DepthFirst.edge {L : List (List κ)} (h : DepthFirst L) (hne : ∀ q ∈ L, q ≠ []) (k : κ) :
    DepthFirst ([k] :: L.map (k :: ·)) := by
  intro A p B hL
  cases A with
  | nil =>
      obtain ⟨rfl, rfl⟩ := List.cons.inj hL
      refine ⟨L.map (k :: ·), [], by simp, fun q hq => ?_, by simp⟩
      obtain ⟨q, -, rfl⟩ := List.mem_map.mp hq
      exact ⟨q, rfl⟩
  | cons a A =>
      rw [List.cons_append] at hL
      obtain ⟨rfl, hrest⟩ := List.cons.inj hL
      obtain ⟨A', C, hsplit, rfl, hC⟩ := List.map_eq_append_iff.mp hrest
      obtain ⟨p', B', rfl, rfl, rfl⟩ := List.map_eq_cons_iff.mp hC
      obtain ⟨D, R, rfl, hD, hR⟩ := h A' p' B' hsplit
      have hp' : p' ≠ [] := hne p' (by simp [hsplit])
      refine ⟨D.map (k :: ·), R.map (k :: ·), by simp, fun q hq => ?_, fun q hq => ?_⟩
      · obtain ⟨q', hq', rfl⟩ := List.mem_map.mp hq
        exact List.cons_prefix_cons.mpr ⟨rfl, hD q' hq'⟩
      · rw [List.cons_append, List.mem_cons] at hq
        rcases hq with rfl | hq
        · intro hpre
          exact hp' (List.prefix_nil.mp (List.cons_prefix_cons.mp hpre).2)
        · rw [← List.map_append] at hq
          obtain ⟨q', hq', rfl⟩ := List.mem_map.mp hq
          intro hpre
          exact hR q' hq' (List.cons_prefix_cons.mp hpre).2

/-- Two parts that have no path of the other below them. -/
theorem DepthFirst.append {L L' : List (List κ)} (h : DepthFirst L) (h' : DepthFirst L')
    (hapart : ∀ p ∈ L, ∀ q ∈ L', ¬ p <+: q ∧ ¬ q <+: p) : DepthFirst (L ++ L') := by
  intro A p B hL
  rcases List.append_eq_append_iff.mp hL with ⟨A', rfl, hL'⟩ | ⟨C, hC, hB⟩
  · -- `p` is in the second part
    obtain ⟨D, R, rfl, hD, hR⟩ := h' A' p B hL'
    have hp : p ∈ L' := by simp [hL']
    refine ⟨D, R, rfl, hD, fun q hq => ?_⟩
    rw [List.append_assoc, List.mem_append] at hq
    rcases hq with hq | hq
    · exact (hapart q hq p hp).2
    · exact hR q hq
  · cases C with
    | nil =>
        -- it is the first of the second part
        rw [List.append_nil] at hC
        subst hC
        have hB : p :: B = L' := hB
        obtain ⟨D, R, rfl, hD, hR⟩ := h' [] p B hB.symm
        have hp : p ∈ L' := hB ▸ List.mem_cons_self
        refine ⟨D, R, rfl, hD, fun q hq => ?_⟩
        rcases List.mem_append.mp hq with hq | hq
        · exact (hapart q hq p hp).2
        · exact hR q hq
    | cons c C =>
        obtain ⟨rfl, rfl⟩ := List.cons.inj hB
        obtain ⟨D, R, rfl, hD, hR⟩ := h A p C hC
        have hp : p ∈ L := by simp [hC]
        refine ⟨D, R ++ L', by simp, hD, fun q hq => ?_⟩
        rw [← List.append_assoc, List.mem_append] at hq
        rcases hq with hq | hq
        · exact hR q hq
        · exact (hapart p hp q hq).1

theorem depthFirst_below {c : α → List (κ × α)} {g : α → κ → Option α} {r : α} (h : Lists c g r)
    (hnd : ∀ s, Reach g r s → ((c s).map Prod.fst).Nodup) {n : Nat} {s : α} (hs : Reach g r s) :
    DepthFirst ((below c n s).map Prod.fst) := by
  induction n generalizing s with
  | zero => exact DepthFirst.nil
  | succ n ih =>
      have hedges : ∀ e ∈ c s, g s e.1 = some e.2 := fun e he => (h s hs e.1 e.2).mp he
      have hkeys := hnd s hs
      rw [below_succ]
      generalize c s = edges at hedges hkeys
      induction edges with
      | nil => exact DepthFirst.nil
      | cons e edges ihe =>
          rw [List.map_cons, List.nodup_cons] at hkeys
          rw [List.flatMap_cons, List.map_append]
          refine DepthFirst.append ?_ (ihe (fun e he => hedges e (List.mem_cons_of_mem _ he))
            hkeys.2) fun p hp q hq => ?_
          · have hbelow := ih (hs.child (hedges e List.mem_cons_self))
            have hne : ∀ q ∈ (below c n e.2).map Prod.fst, q ≠ [] := by
              intro q hq
              obtain ⟨x, hx, rfl⟩ := List.mem_map.mp hq
              exact path_ne_nil hx
            simpa [List.map_map, Function.comp_def] using hbelow.edge hne e.1
          · -- paths that begin with different keys
            have hhead : p.head? = some e.1 := by
              simp only [List.map_cons, List.map_map, List.mem_cons, List.mem_map] at hp
              rcases hp with rfl | ⟨x, -, rfl⟩ <;> rfl
            obtain ⟨e', he', hhead'⟩ : ∃ e' ∈ edges, q.head? = some e'.1 := by
              rw [List.map_flatMap, List.mem_flatMap] at hq
              obtain ⟨e', he', hq⟩ := hq
              refine ⟨e', he', ?_⟩
              simp only [List.map_cons, List.map_map, List.mem_cons, List.mem_map] at hq
              rcases hq with rfl | ⟨x, -, rfl⟩ <;> rfl
            have hne : e.1 ≠ e'.1 := fun heq => hkeys.1 (heq ▸ List.mem_map_of_mem he')
            constructor
            · rintro ⟨l, rfl⟩
              cases p with
              | nil => cases hhead
              | cons k p => exact hne (Option.some.inj (hhead.symm.trans hhead'))
            · rintro ⟨l, rfl⟩
              cases q with
              | nil => cases hhead'
              | cons k q => exact hne (Option.some.inj (hhead.symm.trans hhead'))

/-! ## The depth of a tree -/

/-- A path leads over nodes that are all different. -/
theorem IsTree.length_lt {g : α → κ → Option α} {r : α} (ht : IsTree g r) {S : Finset α}
    (hS : ∀ s, Reach g r s → s ∈ S) {p : List κ} {s : α} (hw : walk g r p = some s) :
    p.length < S.card := by
  have hnode : ∀ i, ∃ t, walk g r (p.take i) = some t := by
    intro i
    rw [← List.take_append_drop i p, walk_append, Option.bind_eq_some_iff] at hw
    obtain ⟨t, ht, -⟩ := hw
    exact ⟨t, ht⟩
  choose node hnode using hnode
  have hcard : (Finset.range (p.length + 1)).card ≤ S.card := by
    refine Finset.card_le_card_of_injOn node (fun i _ => hS _ ⟨_, hnode i⟩) ?_
    intro i hi j hj hij
    have hi : i < p.length + 1 := by simpa using hi
    have hj : j < p.length + 1 := by simpa using hj
    have hpath := ht.path_unique (hnode i) (hij ▸ hnode j)
    have hlen := congrArg List.length hpath
    simp only [List.length_take] at hlen
    omega
  rw [Finset.card_range] at hcard
  omega

end Walk
