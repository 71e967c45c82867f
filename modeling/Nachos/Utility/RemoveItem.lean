/-
  Nachos.Utility.RemoveItem

  `List::RemoveItem` turns the list round with `Remove` and `Append` until `Remove`
  gives the item.  For an item that is not on the list it has no end: what it puts at
  the end of the list comes to the front again.  The elements that it has turned have
  the key zero.
-/

import Mathlib.Algebra.GroupWithZero.Nat
import Mathlib.Algebra.Order.BigOperators.Group.List
import Mathlib.Algebra.Ring.Int.Defs
import Mathlib.Data.List.Perm.Basic
import Mathlib.Data.List.TakeWhile
import Nachos.Kernel.Thread
import Nachos.Lib.Run
import Nachos.Utility.List

namespace Nachos

open Transition Linked

variable {κ ι : Type}

namespace LinkedList

/-! ## The lists -/

/-- A call that changes a list.  `Remove` is `SortedRemove` without the key, and
    `RemoveItem` is made of the others. -/
inductive Call (κ ι : Type) where
  | prepend (element : Addr) (item : Option ι)
  | append (element : Addr) (item : Option ι)
  | sortedInsert (element : Addr) (item : Option ι) (sortKey : κ)
  | sortedRemove

section Calls

variable [Zero κ] [LinearOrder κ]

/-- `new` gives an address that is not in use. -/
def callStep (l : LinkedList κ ι) : Call κ ι → Option (LinkedList κ ι)
  | .prepend element item => if element ∈ l.elements then none else l.prepend element item
  | .append element item => if element ∈ l.elements then none else l.append element item
  | .sortedInsert element item sortKey =>
      if element ∈ l.elements then none else l.sortedInsert element item sortKey
  | .sortedRemove => l.sortedRemove.map Prod.snd

/-- Every call keeps the chain, in whatever order its keys are. -/
theorem Chain.callStep {l l' : LinkedList κ ι} {xs : List (Addr × (κ × Option ι))}
    (h : Chain l xs) {c : Call κ ι} (hs : l.callStep c = some l') : ∃ xs', Chain l' xs' := by
  cases c with
  | prepend element item =>
      obtain ⟨hnew, hs⟩ := Option.ite_none_left_eq_some.mp hs
      obtain ⟨l₁, hl₁, hchain⟩ := h.prepend_spec hnew item
      obtain rfl := Option.some.inj (hl₁.symm.trans hs)
      exact ⟨_, hchain⟩
  | append element item =>
      obtain ⟨hnew, hs⟩ := Option.ite_none_left_eq_some.mp hs
      obtain ⟨l₁, hl₁, hchain⟩ := h.append_spec hnew item
      obtain rfl := Option.some.inj (hl₁.symm.trans hs)
      exact ⟨_, hchain⟩
  | sortedInsert element item sortKey =>
      obtain ⟨hnew, hs⟩ := Option.ite_none_left_eq_some.mp hs
      obtain ⟨ys, zs, l₁, hl₁, -, -, -, hchain⟩ := h.sortedInsert_chain hnew item sortKey
      obtain rfl := Option.some.inj (hl₁.symm.trans hs)
      exact ⟨_, hchain⟩
  | sortedRemove =>
      rw [LinkedList.callStep] at hs
      cases xs with
      | nil =>
          rw [sortedRemove_nil h, Option.map_some] at hs
          obtain rfl := Option.some.inj hs
          exact ⟨[], h⟩
      | cons x xs =>
          obtain ⟨l₁, hl₁, hchain⟩ := sortedRemove_cons h
          rw [hl₁, Option.map_some] at hs
          obtain rfl := Option.some.inj hs
          exact ⟨xs, hchain⟩

/-- The lists that there are: from the empty list every sequence of calls leads to a chain. -/
theorem chain_of_run {tr : List (LinkedList κ ι × Call κ ι)} {l : LinkedList κ ι}
    (h : Run callStep create tr l) : ∃ xs, Chain l xs := by
  induction h with
  | nil => exact ⟨[], chain_create⟩
  | snoc _ hs ih =>
      obtain ⟨xs, hxs⟩ := ih
      exact hxs.callStep hs

end Calls

/-! ## One round -/

/-- The items of the elements. -/
def items (xs : List (Addr × (κ × Option ι))) : List (Option ι) := xs.map fun x => x.2.2

theorem mem_items_split {x : Addr × (κ × Option ι)} {ys zs : List (Addr × (κ × Option ι))} :
    x.2.2 ∈ items (ys ++ x :: zs) := List.mem_map.mpr ⟨x, by simp, rfl⟩

variable [Zero κ] [DecidableEq ι]

section Round

variable {l : LinkedList κ ι} {x : Addr × (κ × Option ι)} {xs : List (Addr × (κ × Option ι))}
  {item : Option ι} {new : LinkedList κ ι → Addr}

theorem round_found (h : Chain l (x :: xs)) (hx : x.2.2 = item) (new : LinkedList κ ι → Addr) :
    ∃ l', l.removeItemRound item new = some (true, l') ∧ Chain l' xs := by
  obtain ⟨l', hl', hchain⟩ := remove_cons h
  refine ⟨l', ?_, hchain⟩
  simp [removeItemRound, hl', hx]

/-- The first element becomes the last one. -/
theorem round_next (h : Chain l (x :: xs)) (hx : x.2.2 ≠ item)
    (hnew : ∀ l, new l ∉ l.elements) :
    ∃ l' element, l.removeItemRound item new = some (false, l') ∧
      Chain l' (xs ++ [(element, (0, x.2.2))]) := by
  obtain ⟨l₁, hl₁, hchain₁⟩ := remove_cons h
  obtain ⟨l', hl', hchain⟩ := hchain₁.append_spec (hnew l₁) x.2.2
  refine ⟨l', new l₁, ?_, hchain⟩
  simp [removeItemRound, hl₁, hx, hl']

theorem round_null (h : Chain l []) : l.removeItemRound none new = some (true, l) := by
  simp [removeItemRound, remove_nil h]

/-- The `NULL` for an empty list is put on it. -/
theorem round_empty (h : Chain l []) (hitem : item ≠ none) (hnew : ∀ l, new l ∉ l.elements) :
    ∃ l' element, l.removeItemRound item new = some (false, l') ∧
      Chain l' [(element, (0, none))] := by
  obtain ⟨l', hl', hchain⟩ := h.append_spec (hnew l) none
  refine ⟨l', new l, ?_, hchain⟩
  simp [removeItemRound, remove_nil h, hitem.symm, hl']

end Round

/-! ## The rounds -/

section Rounds

variable {a : Allocator κ ι} {l l' : LinkedList κ ι} {xs ys zs : List (Addr × (κ × Option ι))}
  {x : Addr × (κ × Option ι)} {item : Option ι}

omit [DecidableEq ι] in
theorem items_of_turned (h : zs.map Prod.snd = ys.map fun y => (0, y.2.2)) :
    items zs = items ys := by
  have hitems := congrArg (List.map Prod.snd) h
  rwa [List.map_map, List.map_map] at hitems

theorem removeItem_next {n : Nat} (h : l.removeItem a item n = some (false, l')) :
    l.removeItem a item (n + 1) = l'.removeItemRound item (a.new n) := by
  simp [removeItem, h]

/-- What has ended has ended. -/
theorem removeItem_ended {n m : Nat} (h : l.removeItem a item n = some (true, l'))
    (hle : n ≤ m) : l.removeItem a item m = some (true, l') := by
  induction m, hle using Nat.le_induction with
  | base => exact h
  | succ m _ ih => simp [removeItem, ih]

theorem removeItem_unique {n m : Nat} {l₁ : LinkedList κ ι}
    (h : l.removeItem a item n = some (true, l')) (h₁ : l.removeItem a item m = some (true, l₁)) :
    l₁ = l' := by
  have hmax := removeItem_ended h (Nat.le_max_left n m)
  have hmax₁ := removeItem_ended h₁ (Nat.le_max_right n m)
  exact (Prod.mk.inj (Option.some.inj (hmax₁.symm.trans hmax))).2

/-- The elements before the item go to the end, where they have the key zero. -/
theorem removeItem_turns (h : Chain l (ys ++ zs)) (hne : ∀ y ∈ ys, y.2.2 ≠ item) :
    ∃ l' ws, l.removeItem a item ys.length = some (false, l') ∧ Chain l' (zs ++ ws) ∧
      ws.map Prod.snd = ys.map fun y => (0, y.2.2) := by
  induction ys using List.reverseRecOn generalizing zs with
  | nil => exact ⟨l, [], rfl, by simpa using h, rfl⟩
  | append_singleton ys y ih =>
      rw [List.append_assoc] at h
      obtain ⟨l₁, ws, hl₁, hchain₁, hws⟩ := ih h fun z hz => hne z (List.mem_append_left _ hz)
      have hfront : Chain l₁ (y :: (zs ++ ws)) := by simpa using hchain₁
      obtain ⟨l', element, hl', hchain⟩ :=
        round_next hfront (hne y (by simp)) (a.fresh ys.length)
      refine ⟨l', ws ++ [(element, (0, y.2.2))], ?_, by simpa using hchain, ?_⟩
      · rw [List.length_append, List.length_singleton, removeItem_next hl₁, hl']
      · rw [List.map_append, List.map_append, hws]
        rfl

/-- The loop ends at the first element with the item. -/
theorem removeItem_present (h : Chain l (ys ++ x :: zs)) (hne : ∀ y ∈ ys, y.2.2 ≠ item)
    (hx : x.2.2 = item) :
    ∃ l' ws, l.removeItem a item (ys.length + 1) = some (true, l') ∧ Chain l' (zs ++ ws) ∧
      ws.map Prod.snd = ys.map fun y => (0, y.2.2) := by
  obtain ⟨l₁, ws, hl₁, hchain₁, hws⟩ := removeItem_turns (a := a) h hne
  obtain ⟨l', hl', hchain⟩ := round_found hchain₁ hx (a.new ys.length)
  exact ⟨l', ws, by rw [removeItem_next hl₁, hl'], hchain, hws⟩

/-- Without the item there is always one more round. -/
theorem removeItem_absent (h : Chain l xs) (habsent : item ∉ items xs)
    (hne : xs ≠ [] ∨ item ≠ none) (n : Nat) :
    ∃ l' ys, l.removeItem a item n = some (false, l') ∧ Chain l' ys ∧ item ∉ items ys ∧
      (ys ≠ [] ∨ item ≠ none) := by
  induction n with
  | zero => exact ⟨l, xs, rfl, h, habsent, hne⟩
  | succ n ih =>
      obtain ⟨l₁, ys, hl₁, hchain₁, habsent₁, hne₁⟩ := ih
      rw [removeItem_next hl₁]
      cases ys with
      | nil =>
          have hitem := hne₁.resolve_left fun hnil => hnil rfl
          obtain ⟨l', element, hl', hchain⟩ := round_empty hchain₁ hitem (a.fresh n)
          exact ⟨l', _, hl', hchain, by simpa [items] using hitem, Or.inl (by simp)⟩
      | cons y ys =>
          have hy : y.2.2 ≠ item := fun he => habsent₁ (by simp [items, he])
          obtain ⟨l', element, hl', hchain⟩ := round_next hchain₁ hy (a.fresh n)
          refine ⟨l', _, hl', hchain, ?_, Or.inl (by simp)⟩
          -- The items are the same ones.
          simp only [items, List.map_cons, List.map_append, List.mem_cons, List.mem_append,
            not_or] at habsent₁ ⊢
          exact ⟨habsent₁.2, by simpa using hy.symm⟩

end Rounds

/-! ## Every list -/

section Lists

variable (a : Allocator κ ι) {l : LinkedList κ ι} {xs : List (Addr × (κ × Option ι))}

/-- The call ends.  When the item is there, one element with it is gone and the items of the
    others are as they were; when it is not, all are. -/
def RemovesItem (l : LinkedList κ ι) (xs : List (Addr × (κ × Option ι))) (item : Option ι) :
    Prop :=
  ∃ n l' ys, l.removeItem a item n = some (true, l') ∧ Chain l' ys ∧
    (item ∈ items xs → (item :: items ys).Perm (items xs)) ∧
    (item ∉ items xs → (items ys).Perm (items xs))

/-- The same of the elements as a whole, with their keys. -/
def RemovesElement (l : LinkedList κ ι) (xs : List (Addr × (κ × Option ι)))
    (item : Option ι) : Prop :=
  ∃ n l' ys, l.removeItem a item n = some (true, l') ∧ Chain l' ys ∧
    (item ∈ items xs → ∃ key, ((key, item) :: ys.map Prod.snd).Perm (xs.map Prod.snd)) ∧
    (item ∉ items xs → (ys.map Prod.snd).Perm (xs.map Prod.snd))

/-- The elements before the first one with the item. -/
def before (xs : List (Addr × (κ × Option ι))) (item : Option ι) :
    List (Addr × (κ × Option ι)) := xs.takeWhile fun y => y.2.2 ≠ item

omit [Zero κ] in
theorem ne_of_before {item : Option ι} : ∀ y ∈ before xs item, y.2.2 ≠ item := by
  intro y hy
  simpa using List.mem_takeWhile_imp hy

omit [Zero κ] in
/-- Whatever the keys, none of them has the item. -/
theorem filter_before {item : Option ι} {f : Addr × (κ × Option ι) → κ × Option ι}
    (hf : ∀ y, (f y).2 = y.2.2) :
    ((before xs item).map f).filter (fun e => e.2 ≠ item) = (before xs item).map f := by
  rw [List.filter_eq_self]
  intro e he
  obtain ⟨y, hy, rfl⟩ := List.mem_map.mp he
  simpa [hf] using ne_of_before y hy

omit [Zero κ] in
theorem before_split {item : Option ι} (h : item ∈ items xs) :
    ∃ x zs, xs = before xs item ++ x :: zs ∧ x.2.2 = item := by
  have hsplit := List.takeWhile_append_dropWhile (p := fun y => decide (y.2.2 ≠ item)) (l := xs)
  obtain ⟨y, hy, hitem⟩ := List.mem_map.mp h
  cases hdrop : xs.dropWhile fun y => decide (y.2.2 ≠ item) with
  | nil => simpa [hitem] using List.dropWhile_eq_nil_iff.mp hdrop y hy
  | cons x zs =>
      have hx := List.head_dropWhile_not (fun y => decide (y.2.2 ≠ item)) (l := xs)
        (by rw [hdrop]; exact List.cons_ne_nil _ _)
      rw [hdrop] at hsplit
      simp only [hdrop, List.head_cons] at hx
      exact ⟨x, zs, hsplit.symm, by simpa using hx⟩

/-- The call on a list with the item. -/
theorem removeItem_before {item : Option ι} (h : Chain l xs) (hitem : item ∈ items xs) :
    ∃ x zs n l' ws, xs = before xs item ++ x :: zs ∧ x.2.2 = item ∧
      l.removeItem a item n = some (true, l') ∧ Chain l' (zs ++ ws) ∧
      ws.map Prod.snd = (before xs item).map fun y => (0, y.2.2) := by
  obtain ⟨x, zs, hxs, hx⟩ := before_split hitem
  obtain ⟨l', ws, hend, hchain, hws⟩ := removeItem_present (a := a) (hxs ▸ h) ne_of_before hx
  exact ⟨x, zs, _, l', ws, hxs, hx, hend, hchain, hws⟩

/-- What the call has left is known. -/
theorem removeItem_result {item : Option ι} (h : Chain l xs) {n : Nat} {l' : LinkedList κ ι}
    {ys : List (Addr × (κ × Option ι))} (hend : l.removeItem a item n = some (true, l'))
    (hys : Chain l' ys) :
    (∃ x zs, xs = before xs item ++ x :: zs ∧ x.2.2 = item ∧
      ys.map Prod.snd = zs.map Prod.snd ++ (before xs item).map fun y => (0, y.2.2)) ∨
    (xs = [] ∧ item = none ∧ ys = []) := by
  by_cases hitem : item ∈ items xs
  · left
    obtain ⟨x, zs, n₁, l₁, ws, hxs, hx, hend₁, hchain₁, hws⟩ := removeItem_before a h hitem
    obtain rfl := removeItem_unique hend hend₁
    obtain rfl := hys.segment.unique hchain₁.segment
    exact ⟨x, zs, hxs, hx, by rw [List.map_append, hws]⟩
  · right
    by_cases hne : xs ≠ [] ∨ item ≠ none
    · obtain ⟨_, _, hgoes, -⟩ := removeItem_absent (a := a) h hitem hne n
      cases hgoes.symm.trans hend
    · obtain ⟨rfl, rfl⟩ : xs = [] ∧ item = none := by simpa using hne
      have hend₁ : l.removeItem a none 1 = some (true, l) := round_null h
      obtain rfl := removeItem_unique hend hend₁
      exact ⟨rfl, rfl, hys.segment.unique h.segment⟩

omit [DecidableEq ι] in
/-- Elements that get the key zero are the same elements when they had it. -/
theorem rekeyed_perm {ys : List (Addr × (κ × Option ι))} :
    (ys.map fun y => ((0, y.2.2) : κ × Option ι)).Perm (ys.map Prod.snd) ↔
      ∀ y ∈ ys, y.2.1 = 0 := by
  constructor
  · intro hperm y hy
    obtain ⟨z, -, hz⟩ := List.mem_map.mp (hperm.mem_iff.mpr (List.mem_map.mpr ⟨y, hy, rfl⟩))
    rw [← hz]
  · intro hkeys
    refine List.Perm.of_eq (List.map_congr_left fun y hy => ?_)
    rw [← hkeys y hy]

theorem removesItem_iff (h : Chain l xs) (item : Option ι) :
    RemovesItem a l xs item ↔ item ∈ items xs ∨ xs = [] ∧ item = none := by
  constructor
  · rintro ⟨n, l', ys, hend, hys, -, -⟩
    obtain ⟨x, zs, hxs, rfl, -⟩ | ⟨hnil, hnull, -⟩ := removeItem_result a h hend hys
    · left
      rw [hxs]
      exact mem_items_split
    · exact Or.inr ⟨hnil, hnull⟩
  · rintro (hitem | ⟨rfl, rfl⟩)
    · obtain ⟨x, zs, n, l', ws, hxs, hx, hend, hchain, hws⟩ := removeItem_before a h hitem
      refine ⟨n, l', zs ++ ws, hend, hchain, fun _ => ?_, fun habsent => absurd hitem habsent⟩
      have hsplit : items xs = items (before xs item) ++ item :: items zs := by
        conv_lhs => rw [hxs]
        simp only [items, List.map_append, List.map_cons, hx]
      have happ : items (zs ++ ws) = items zs ++ items (before xs item) := by
        rw [← items_of_turned hws]
        exact List.map_append
      rw [hsplit, happ]
      exact (List.perm_append_comm.cons item).trans List.perm_middle.symm
    · exact ⟨1, l, [], round_null h, h, nofun, fun _ => List.Perm.refl _⟩

theorem removesElement_iff (h : Chain l xs) (item : Option ι) :
    RemovesElement a l xs item ↔
      (item ∈ items xs ∧ ∀ y ∈ before xs item, y.2.1 = 0) ∨ xs = [] ∧ item = none := by
  constructor
  · rintro ⟨n, l', ys, hend, hys, hmem, -⟩
    obtain ⟨x, zs, hxs, hx, hresult⟩ | ⟨hnil, hnull, -⟩ := removeItem_result a h hend hys
    · have hitem : item ∈ items xs := by
        rw [hxs, ← hx]
        exact mem_items_split
      refine Or.inl ⟨hitem, rekeyed_perm.mp ?_⟩
      obtain ⟨key, hperm⟩ := hmem hitem
      have hsplit := congrArg (List.map Prod.snd) hxs
      rw [List.map_append, List.map_cons] at hsplit
      rw [hresult, hsplit] at hperm
      -- The elements with other items, of which those before the item are all.
      have hothers := hperm.filter fun e => e.2 ≠ item
      rw [List.filter_cons_of_neg (by simp), List.filter_append, List.filter_append,
        filter_before (f := Prod.snd) fun _ => rfl,
        filter_before (f := fun y => (0, y.2.2)) fun _ => rfl,
        List.filter_cons_of_neg (by simpa using hx)] at hothers
      exact (List.perm_append_left_iff _).mp (hothers.trans List.perm_append_comm)
    · exact Or.inr ⟨hnil, hnull⟩
  · rintro (⟨hitem, hkeys⟩ | ⟨rfl, rfl⟩)
    · obtain ⟨x, zs, n, l', ws, hxs, rfl, hend, hchain, hws⟩ := removeItem_before a h hitem
      refine ⟨n, l', zs ++ ws, hend, hchain, fun _ => ⟨x.2.1, ?_⟩,
        fun habsent => absurd hitem habsent⟩
      have hsplit := congrArg (List.map Prod.snd) hxs
      rw [List.map_append, List.map_cons] at hsplit
      rw [hsplit, List.map_append, hws]
      have hrest := List.perm_append_comm.trans
        ((rekeyed_perm.mpr hkeys).append_right (zs.map Prod.snd))
      exact (hrest.cons x.2).trans List.perm_middle.symm
    · exact ⟨1, l, [], round_null h, h, nofun, fun _ => List.Perm.refl _⟩

/-- `RemoveItem` ends, with the item gone, when the item is on the list, and for `NULL` and
    an empty list; otherwise it does not end.  The other elements keep their keys when those
    before the item have the key zero. -/
theorem removeItem_iff (h : Chain l xs) (item : Option ι) :
    (RemovesItem a l xs item ↔ item ∈ items xs ∨ xs = [] ∧ item = none) ∧
    (RemovesElement a l xs item ↔
      (item ∈ items xs ∧ ∀ y ∈ before xs item, y.2.1 = 0) ∨ xs = [] ∧ item = none) :=
  ⟨removesItem_iff a h item, removesElement_iff a h item⟩

end Lists

omit [Zero κ] [DecidableEq ι] in
theorem sum_keys_fresh (l : LinkedList κ ι) : l.elements.keys.sum + 1 ∉ l.elements := by
  intro hmem
  exact Nat.not_succ_le_self _ (List.le_sum_of_mem (AList.mem_keys.mp hmem))

/-- An address behind all that are in use. -/
def Allocator.behind : Allocator κ ι :=
  ⟨fun _ l => l.elements.keys.sum + 1, fun _ => sum_keys_fresh⟩

/-- The second of two items. -/
theorem removeItem_iff_second : ∃ l : LinkedList Int Nat, ∃ xs, items xs = [some 7, some 8] ∧
    RemovesItem Allocator.behind l xs (some 8) := by
  have hempty : Chain (create : LinkedList Int Nat) [] := chain_create
  obtain ⟨l₁, -, h₁⟩ := hempty.append_spec (sum_keys_fresh _) (some 7)
  obtain ⟨l₂, -, h₂⟩ := h₁.append_spec (sum_keys_fresh _) (some 8)
  refine ⟨l₂, _, rfl, (removeItem_iff Allocator.behind h₂ (some 8)).1.mpr (Or.inl ?_)⟩
  exact List.mem_cons_of_mem _ List.mem_cons_self

/-- An item is looked for on an empty list. -/
theorem removeItem_fails : ¬ ∀ (a : Allocator Int Nat) (l : LinkedList Int Nat)
    (xs : List (Addr × (Int × Option Nat))) (item : Option Nat), Chain l xs →
      RemovesItem a l xs item := by
  intro h
  have hempty : Chain (create : LinkedList Int Nat) [] := chain_create
  obtain ⟨n, l', ys, hend, -⟩ := h Allocator.behind create [] (some 7) hempty
  have habsent : some 7 ∉ items ([] : List (Addr × (Int × Option Nat))) := nofun
  obtain ⟨_, _, hgoes, -⟩ :=
    removeItem_absent (a := Allocator.behind) hempty habsent (Or.inr (by simp)) n
  cases hgoes.symm.trans hend

/-! ## `g_alive` -/

theorem removeItem_append {t : ThreadId} {ts rest : List ThreadId} (h : t ∉ ts)
    (seen : List ThreadId) :
    Kernel.removeItem t seen (ts ++ t :: rest) = some (rest ++ (seen ++ ts)) := by
  induction ts generalizing seen with
  | nil => simp [Kernel.removeItem]
  | cons u ts ih =>
      rw [List.mem_cons, not_or] at h
      rw [List.cons_append, Kernel.removeItem, if_neg (Ne.symm h.1), ih h.2]
      simp

theorem removeItem_none {t : ThreadId} {ts : List ThreadId} (h : t ∉ ts) (seen : List ThreadId) :
    Kernel.removeItem t seen ts = none := by
  induction ts generalizing seen with
  | nil => rfl
  | cons u ts ih =>
      rw [List.mem_cons, not_or] at h
      rw [Kernel.removeItem, if_neg (Ne.symm h.1), ih h.2]

/-- What `Thread::Finish` makes of the list of threads: the elements are those of the list. -/
theorem removeItem_alive {l : LinkedList κ ThreadId} {xs : List (Addr × (κ × Option ThreadId))}
    (a : Allocator κ ThreadId) (h : Chain l xs) {ts : List ThreadId} {t : ThreadId}
    (hitems : items xs = ts.map some) :
    match Kernel.removeItem t [] ts with
    | some alive => ∃ n l' ys, l.removeItem a (some t) n = some (true, l') ∧ Chain l' ys ∧
        items ys = alive.map some
    | none => ∀ n, ∃ l', l.removeItem a (some t) n = some (false, l') := by
  by_cases ht : t ∈ ts
  · obtain ⟨ts, rest, rfl, hts⟩ := List.eq_append_cons_of_mem ht
    rw [removeItem_append hts]
    -- The elements before the thread, its own, and those behind it.
    rw [List.map_append, List.map_cons] at hitems
    obtain ⟨ys, zs', rfl, hys, hzs'⟩ := List.map_eq_append_iff.mp hitems
    obtain ⟨x, zs, rfl, hx, hzs⟩ := List.map_eq_cons_iff.mp hzs'
    have hne : ∀ y ∈ ys, y.2.2 ≠ some t := by
      intro y hy he
      have hmem : some t ∈ ts.map some := hys ▸ List.mem_map.mpr ⟨y, hy, he⟩
      obtain ⟨u, hu, he⟩ := List.mem_map.mp hmem
      exact hts (Option.some.inj he ▸ hu)
    obtain ⟨l', ws, hend, hchain, hws⟩ := removeItem_present (a := a) h hne hx
    refine ⟨_, l', zs ++ ws, hend, hchain, ?_⟩
    have hturned : items ws = ts.map some := (items_of_turned hws).trans hys
    rw [List.nil_append, List.map_append, ← hzs, ← hturned]
    exact List.map_append
  · rw [removeItem_none ht]
    intro n
    have habsent : some t ∉ items xs := by
      rw [hitems]
      simpa using ht
    obtain ⟨l', _, hgoes, -⟩ := removeItem_absent (a := a) h habsent (Or.inr (by simp)) n
    exact ⟨l', hgoes⟩

end LinkedList

end Nachos
