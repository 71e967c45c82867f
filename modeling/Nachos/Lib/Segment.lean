/-
  Nachos.Lib.Segment

  Singly linked cells: a memory gives for the address of a cell the address of the
  next one, if there is one, and what the cell holds.  `Segment m p xs q` follows
  the cells from `p` until `q`; a chain is a segment that ends nowhere.  A chain
  meets no cell twice, so that a cell can be put in or taken off by changing its
  neighbour alone.
-/

import Mathlib.Data.List.Basic
import Mathlib.Data.List.Nodup

namespace Linked

variable {α β : Type*}

/-- From `p` on the cells of `m` are those of `xs`, with what they hold; `q` follows them. -/
def Segment (m : α → Option (Option α × β)) : Option α → List (α × β) → Option α → Prop
  | p, [], q => p = q
  | p, x :: xs, q => p = some x.1 ∧ ∃ n, m x.1 = some (n, x.2) ∧ Segment m n xs q

variable {m m' : α → Option (Option α × β)} {p q : Option α} {xs ys : List (α × β)}
  {x : α × β} {a : α} {b : β}

theorem segment_append :
    Segment m p (xs ++ ys) q ↔ ∃ r, Segment m p xs r ∧ Segment m r ys q := by
  induction xs generalizing p with
  | nil =>
      constructor
      · intro h
        exact ⟨p, rfl, h⟩
      · rintro ⟨r, rfl, h⟩
        exact h
  | cons x xs ih =>
      constructor
      · rintro ⟨hp, n, hn, h⟩
        obtain ⟨r, hr, h⟩ := ih.mp h
        exact ⟨r, ⟨hp, n, hn, hr⟩, h⟩
      · rintro ⟨r, ⟨hp, n, hn, hr⟩, h⟩
        exact ⟨hp, n, hn, ih.mpr ⟨r, hr, h⟩⟩

namespace Segment

/-- Only the cells of a segment matter. -/
theorem congr (h : Segment m p xs q) (hm : ∀ x ∈ xs, m' x.1 = m x.1) : Segment m' p xs q := by
  induction xs generalizing p with
  | nil => exact h
  | cons x xs ih =>
      obtain ⟨hp, n, hn, h⟩ := h
      refine ⟨hp, n, ?_, ih h fun y hy => hm y (List.mem_cons_of_mem _ hy)⟩
      rw [hm x List.mem_cons_self, hn]

theorem exists_cell (h : Segment m p xs q) (hx : x ∈ xs) : ∃ n, m x.1 = some (n, x.2) := by
  induction xs generalizing p with
  | nil => cases hx
  | cons y xs ih =>
      obtain ⟨-, n, hn, h⟩ := h
      rcases List.mem_cons.mp hx with rfl | hx
      · exact ⟨n, hn⟩
      · exact ih h hx

theorem not_mem_of_free (h : Segment m p xs q) (ha : m a = none) : ∀ x ∈ xs, x.1 ≠ a := by
  rintro x hx rfl
  obtain ⟨n, hn⟩ := h.exists_cell hx
  rw [ha] at hn
  cases hn

/-- One address, one chain. -/
theorem unique (h : Segment m p xs none) (h' : Segment m p ys none) : xs = ys := by
  induction xs generalizing p ys with
  | nil =>
      cases ys with
      | nil => rfl
      | cons y ys => cases h.symm.trans h'.1
  | cons x xs ih =>
      obtain ⟨rfl, n, hn, h⟩ := h
      cases ys with
      | nil => cases h'
      | cons y ys =>
          obtain ⟨hp, n', hn', h'⟩ := h'
          obtain ⟨a, b⟩ := x
          obtain ⟨a', b'⟩ := y
          obtain rfl : a = a' := Option.some.inj hp
          rw [hn] at hn'
          obtain ⟨rfl, rfl⟩ := Prod.mk.inj (Option.some.inj hn')
          rw [ih h h']

/-- A chain that met a cell again would go on for ever. -/
theorem nodup (h : Segment m p xs none) : (xs.map Prod.fst).Nodup := by
  induction xs generalizing p with
  | nil => exact List.nodup_nil
  | cons x xs ih =>
      obtain ⟨rfl, n, hn, ht⟩ := h
      rw [List.map_cons, List.nodup_cons]
      refine ⟨fun hmem => ?_, ih ht⟩
      obtain ⟨y, hy, hyx⟩ := List.mem_map.mp hmem
      obtain ⟨l, l', rfl⟩ := List.append_of_mem hy
      obtain ⟨r, -, hr⟩ := segment_append.mp ht
      have hstart : r = some x.1 := by rw [hr.1, hyx]
      have hself : x :: (l ++ y :: l') = y :: l' :=
        unique (p := some x.1) ⟨rfl, n, hn, ht⟩ (hstart ▸ hr)
      have hlen := congrArg List.length hself
      simp only [List.length_cons, List.length_append] at hlen
      omega

/-- A new cell is put before the first one. -/
theorem push (h : Segment m p xs none) (hfree : ∀ x ∈ xs, x.1 ≠ a) (hnew : m' a = some (p, b))
    (hm : ∀ c, c ≠ a → m' c = m c) : Segment m' (some a) ((a, b) :: xs) none :=
  ⟨rfl, p, hnew, h.congr fun x hx => hm _ (hfree x hx)⟩

/-- A new cell is put behind `x`. -/
theorem insert_after (h : Segment m p (xs ++ x :: ys) none)
    (hfree : ∀ y ∈ xs ++ x :: ys, y.1 ≠ a) {n : Option α} (hx : m x.1 = some (n, x.2))
    (hx' : m' x.1 = some (some a, x.2)) (hnew : m' a = some (n, b))
    (hm : ∀ c, c ≠ a → c ≠ x.1 → m' c = m c) :
    Segment m' p (xs ++ x :: (a, b) :: ys) none := by
  have hnd := h.nodup
  rw [List.map_append, List.map_cons, List.nodup_append, List.nodup_cons] at hnd
  obtain ⟨-, ⟨hys, -⟩, hxs⟩ := hnd
  obtain ⟨r, hr, rfl, n', hn', ht⟩ := segment_append.mp h
  obtain rfl : n' = n := by
    rw [hn'] at hx
    exact (Prod.mk.inj (Option.some.inj hx)).1
  refine segment_append.mpr ⟨some x.1, ?_, rfl, some a, hx', rfl, n', hnew, ?_⟩
  · refine hr.congr fun y hy => hm _ (hfree y (List.mem_append_left _ hy)) fun hyx => ?_
    exact hxs y.1 (List.mem_map.mpr ⟨y, hy, rfl⟩) x.1 List.mem_cons_self hyx
  · refine ht.congr fun y hy => ?_
    refine hm _ (hfree y (by simp [hy])) fun hyx => hys (List.mem_map.mpr ⟨y, hy, hyx⟩)

/-- The first cell is taken off. -/
theorem pop (h : Segment m p (x :: xs) none) (hm : ∀ c, c ≠ x.1 → m' c = m c) :
    ∃ n, m x.1 = some (n, x.2) ∧ Segment m' n xs none := by
  have hnd := h.nodup
  rw [List.map_cons, List.nodup_cons] at hnd
  obtain ⟨-, n, hn, ht⟩ := h
  refine ⟨n, hn, ht.congr fun y hy => hm _ fun hyx => ?_⟩
  exact hnd.1 (List.mem_map.mpr ⟨y, hy, hyx⟩)

end Segment

end Linked
