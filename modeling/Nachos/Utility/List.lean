/-
  Nachos.Utility.List

  `utility/list.h`: a singly linked list with a pointer to its first element and
  one to its last, kept in increasing order by the "Sorted" functions.  The
  elements lie in a memory of their own; `new` gives an address that is not in use
  and `delete` frees one.  A pointer is `none` when it is `NULL`, and a function
  gives `none` when it follows a pointer to no element, fails an `ASSERT` or does
  not end.  Each function is described by what it does to the chain.
-/

import Mathlib.Data.List.AList
import Mathlib.Order.Defs.LinearOrder
import Nachos.Kernel.ObjId
import Nachos.Lib.Segment

namespace Nachos

open Linked

variable {κ ι : Type}

structure ListElement (κ ι : Type) where
  next : Option Addr
  key : κ
  item : Option ι

/-- `List`, with the memory of its elements. -/
structure LinkedList (κ ι : Type) where
  elements : AList fun _ : Addr => ListElement κ ι
  first : Option Addr
  last : Option Addr

namespace LinkedList

/-- `List::List`. -/
def create : LinkedList κ ι := ⟨∅, none, none⟩

/-- `ptr->next = next`. -/
def setNext (l : LinkedList κ ι) (ptr : Addr) (next : Option Addr) : Option (LinkedList κ ι) := do
  let element ← l.elements.lookup ptr
  return { l with elements := l.elements.insert ptr { element with next := next } }

/-- `new ListElement(item, sortKey)`, with the address that `new` gives. -/
def newElement (l : LinkedList κ ι) (element : Addr) (item : Option ι) (sortKey : κ) :
    LinkedList κ ι :=
  { l with elements := l.elements.insert element ⟨none, sortKey, item⟩ }

section Order

variable [LinearOrder κ]

/-- The loop of `List::SortedInsert` from `ptr` on.  A walk over more elements than there
    are goes round in a circle. -/
def sortedInsertFrom (l : LinkedList κ ι) (element : Addr) (sortKey : κ) :
    Nat → Addr → Option (LinkedList κ ι)
  | 0, _ => none
  | rounds + 1, ptr => do
      let current ← l.elements.lookup ptr
      match current.next with
      | none =>
          let last ← l.last
          let l ← l.setNext last (some element)
          return { l with last := some element }
      | some next =>
          let following ← l.elements.lookup next
          if sortKey < following.key then
            let l ← l.setNext element (some next)
            l.setNext ptr (some element)
          else l.sortedInsertFrom element sortKey rounds next

/-- `List::SortedInsert`. -/
def sortedInsert (l : LinkedList κ ι) (element : Addr) (item : Option ι) (sortKey : κ) :
    Option (LinkedList κ ι) := do
  let l := l.newElement element item sortKey
  match l.first with
  | none => return { l with first := some element, last := some element }
  | some first =>
      let head ← l.elements.lookup first
      if sortKey < head.key then
        let l ← l.setNext element (some first)
        return { l with first := some element }
      else l.sortedInsertFrom element sortKey l.elements.keys.length first

end Order

/-- `List::SortedRemove`: the item, and what is stored through `keyPtr`. -/
def sortedRemove (l : LinkedList κ ι) :
    Option ((Option ι × Option κ) × LinkedList κ ι) :=
  match l.first with
  | none => some ((none, none), l)
  | some first => do
      let element ← l.elements.lookup first
      -- `ASSERT(first != first->next)`
      if element.next = some first then none
      else
        let l := if l.last = some first then { l with first := none, last := none }
          else { l with first := element.next }
        return ((element.item, some element.key),
          { l with elements := l.elements.erase first })

section Zero

variable [Zero κ]

/-- `List::Prepend`. -/
def prepend (l : LinkedList κ ι) (element : Addr) (item : Option ι) :
    Option (LinkedList κ ι) := do
  let l := l.newElement element item 0
  match l.first with
  | none => return { l with first := some element, last := some element }
  | some first =>
      let l ← l.setNext element (some first)
      return { l with first := some element }

/-- `List::Append`. -/
def append (l : LinkedList κ ι) (element : Addr) (item : Option ι) :
    Option (LinkedList κ ι) := do
  let l := l.newElement element item 0
  match l.first with
  | none => return { l with first := some element, last := some element }
  | some _ =>
      let last ← l.last
      let l ← l.setNext last (some element)
      return { l with last := some element }

/-- `List::Remove`, which ignores the key. -/
def remove (l : LinkedList κ ι) : Option (Option ι × LinkedList κ ι) :=
  l.sortedRemove.map fun r => (r.1.1, r.2)

/-- `new` in a loop: in each round an address that is not in use. -/
structure Allocator (κ ι : Type) where
  new : Nat → LinkedList κ ι → Addr
  fresh : ∀ n l, new n l ∉ l.elements

variable [DecidableEq ι]

/-- A round of the loop of `List::RemoveItem`, and whether `Remove` has given the item. -/
def removeItemRound (l : LinkedList κ ι) (item : Option ι) (new : LinkedList κ ι → Addr) :
    Option (Bool × LinkedList κ ι) := do
  let (temp, l) ← l.remove
  if temp = item then return (true, l)
  else
    let l ← l.append (new l) temp
    return (false, l)

/-- `List::RemoveItem` after so many rounds, and whether it has ended by then. -/
def removeItem (a : Allocator κ ι) (l : LinkedList κ ι) (item : Option ι) :
    Nat → Option (Bool × LinkedList κ ι)
  | 0 => some (false, l)
  | n + 1 => do
      let (ended, l) ← removeItem a l item n
      if ended then return (true, l) else l.removeItemRound item (a.new n)

end Zero

/-! ## The chain -/

/-- What a cell of the memory holds: its pointer, and its key with its item. -/
def cells (l : LinkedList κ ι) (a : Addr) : Option (Option Addr × (κ × Option ι)) :=
  (l.elements.lookup a).map fun e => (e.next, (e.key, e.item))

theorem cells_eq_none {l : LinkedList κ ι} {a : Addr} : l.cells a = none ↔ a ∉ l.elements := by
  rw [cells, Option.map_eq_none_iff, AList.lookup_eq_none]

theorem lookup_of_cells {l : LinkedList κ ι} {a : Addr} {n : Option Addr} {e : κ × Option ι}
    (h : l.cells a = some (n, e)) : l.elements.lookup a = some ⟨n, e.1, e.2⟩ := by
  obtain ⟨⟨next, key, item⟩, hl, he⟩ := Option.map_eq_some_iff.mp h
  cases he
  exact hl

theorem cells_insert (m : AList fun _ : Addr => ListElement κ ι) (f l : Option Addr) (a c : Addr)
    (e : ListElement κ ι) : (LinkedList.mk (m.insert a e) f l).cells c =
      if c = a then some (e.next, (e.key, e.item)) else (LinkedList.mk m f l).cells c := by
  by_cases hc : c = a
  · subst hc
    simp [cells]
  · simp [cells, hc, AList.lookup_insert_ne hc]

/-- The chain from `first` has the cells `xs`, and `last` is the last of them. -/
structure Chain (l : LinkedList κ ι) (xs : List (Addr × (κ × Option ι))) : Prop where
  segment : Segment l.cells l.first xs none
  last : l.last = xs.getLast?.map Prod.fst

theorem chain_create : Chain (create : LinkedList κ ι) [] := ⟨rfl, rfl⟩

/-- An assignment to the pointer of an element. -/
theorem setNext_spec {l : LinkedList κ ι} {ptr : Addr} {n : Option Addr} {e : κ × Option ι}
    (h : l.cells ptr = some (n, e)) (next : Option Addr) :
    ∃ l', l.setNext ptr next = some l' ∧ l'.first = l.first ∧ l'.last = l.last ∧
      l'.cells ptr = some (next, e) ∧ ∀ c, c ≠ ptr → l'.cells c = l.cells c := by
  refine ⟨{ l with elements := l.elements.insert ptr ⟨next, e.1, e.2⟩ }, ?_, rfl, rfl, ?_, ?_⟩
  · rw [setNext, lookup_of_cells h]
    rfl
  · rw [cells_insert, if_pos rfl]
  · intro c hc
    rw [cells_insert, if_neg hc]

namespace Chain

variable {l : LinkedList κ ι} {xs ys zs : List (Addr × (κ × Option ι))}
  {x : Addr × (κ × Option ι)} {element : Addr} {item : Option ι} {sortKey : κ}

/-- The elements of a chain are all different, and allocated. -/
theorem length_le (h : Chain l xs) : xs.length ≤ l.elements.keys.length := by
  have hsub : xs.map Prod.fst ⊆ l.elements.keys := by
    intro a ha
    obtain ⟨x, hx, rfl⟩ := List.mem_map.mp ha
    obtain ⟨n, hn⟩ := h.segment.exists_cell hx
    rw [← AList.mem_keys, ← AList.lookup_isSome, lookup_of_cells hn]
    rfl
  simpa using h.segment.nodup.length_le_of_subset hsub

/-- A new element is in memory, and not yet on the chain. -/
theorem newElement (h : Chain l xs) (hnew : element ∉ l.elements) (item : Option ι) (sortKey : κ) :
    Chain (l.newElement element item sortKey) xs ∧ (∀ x ∈ xs, x.1 ≠ element) ∧
      (l.newElement element item sortKey).cells element = some (none, (sortKey, item)) := by
  have hfree := h.segment.not_mem_of_free (cells_eq_none.mpr hnew)
  refine ⟨⟨h.segment.congr fun x hx => ?_, h.last⟩, hfree, ?_⟩
  · rw [LinkedList.newElement, cells_insert, if_neg (hfree x hx)]
  · rw [LinkedList.newElement, cells_insert, if_pos rfl]

/-- A new element in an empty list. -/
theorem insert_empty (hnew : l.cells element = some (none, (sortKey, item))) :
    Chain { l with first := some element, last := some element } [(element, (sortKey, item))] :=
  ⟨⟨rfl, none, hnew, rfl⟩, rfl⟩

/-- A new element before the first one. -/
theorem insert_first (h : Chain l (x :: xs)) (hfree : ∀ y ∈ x :: xs, y.1 ≠ element)
    (hnew : l.cells element = some (none, (sortKey, item))) :
    ∃ l₁, l.setNext element (some x.1) = some l₁ ∧
      Chain { l₁ with first := some element } ((element, (sortKey, item)) :: x :: xs) := by
  obtain ⟨hfirst, -⟩ := h.segment
  obtain ⟨l₁, h₁, -, hlast₁, hnew₁, hother₁⟩ := setNext_spec hnew (some x.1)
  refine ⟨l₁, h₁, h.segment.push hfree (by rw [hfirst]; exact hnew₁) hother₁, ?_⟩
  show l₁.last = _
  rw [hlast₁, h.last]
  simp

/-- A new element behind `x`, which is not the last one. -/
theorem insert_between {z : Addr × (κ × Option ι)} (h : Chain l (xs ++ x :: z :: zs))
    (hfree : ∀ y ∈ xs ++ x :: z :: zs, y.1 ≠ element)
    (hnew : l.cells element = some (none, (sortKey, item))) :
    ∃ l₁ l₂, l.setNext element (some z.1) = some l₁ ∧ l₁.setNext x.1 (some element) = some l₂ ∧
      Chain l₂ (xs ++ x :: (element, (sortKey, item)) :: z :: zs) := by
  obtain ⟨r, hr, -, n, hx, rfl, ht⟩ := segment_append.mp h.segment
  have hne : x.1 ≠ element := hfree x (by simp)
  obtain ⟨l₁, h₁, hfirst₁, hlast₁, hnew₁, hother₁⟩ := setNext_spec hnew (some z.1)
  obtain ⟨l₂, h₂, hfirst₂, hlast₂, hx₂, hother₂⟩ :=
    setNext_spec ((hother₁ _ hne).trans hx) (some element)
  refine ⟨l₁, l₂, h₁, h₂, ?_, ?_⟩
  · rw [hfirst₂, hfirst₁]
    refine h.segment.insert_after hfree hx hx₂ ?_ fun c hc hcx => ?_
    · rw [hother₂ _ hne.symm, hnew₁]
    · rw [hother₂ _ hcx, hother₁ _ hc]
  · rw [hlast₂, hlast₁, h.last]
    simp

/-- A new element behind the last one. -/
theorem insert_last (h : Chain l (xs ++ [x])) (hfree : ∀ y ∈ xs ++ [x], y.1 ≠ element)
    (hnew : l.cells element = some (none, (sortKey, item))) :
    ∃ l₁, l.setNext x.1 (some element) = some l₁ ∧
      Chain { l₁ with last := some element } (xs ++ [x, (element, (sortKey, item))]) := by
  obtain ⟨r, hr, -, n, hx, rfl⟩ := segment_append.mp h.segment
  have hne : x.1 ≠ element := hfree x (by simp)
  obtain ⟨l₁, h₁, hfirst₁, -, hx₁, hother₁⟩ := setNext_spec hx (some element)
  refine ⟨l₁, h₁, ?_, by simp⟩
  show Segment l₁.cells l₁.first _ none
  rw [hfirst₁]
  refine h.segment.insert_after hfree hx hx₁ ?_ fun c _ hcx => hother₁ c hcx
  rw [hother₁ _ hne.symm, hnew]

end Chain

section Order

variable [LinearOrder κ]

namespace Chain

variable {l : LinkedList κ ι} {xs ys zs : List (Addr × (κ × Option ι))}
  {x : Addr × (κ × Option ι)} {element : Addr} {item : Option ι} {sortKey : κ}

/-- What is below the first element of an ordered chain is below all of them. -/
theorem lt_of_head (hsorted : xs.Pairwise fun x y => x.2.1 ≤ y.2.1)
    (hhead : ∀ x ∈ xs.head?, sortKey < x.2.1) : ∀ x ∈ xs, sortKey < x.2.1 := by
  cases xs with
  | nil => simp
  | cons x xs =>
      have hx : sortKey < x.2.1 := hhead x rfl
      refine List.forall_mem_cons.mpr ⟨hx, fun z hz => ?_⟩
      exact lt_of_lt_of_le hx ((List.pairwise_cons.mp hsorted).1 z hz)

/-- The loop puts the new element before the first one behind `ptr` with a greater key. -/
theorem sortedInsertFrom_spec (h : Chain l (xs ++ x :: ys))
    (hfree : ∀ y ∈ xs ++ x :: ys, y.1 ≠ element)
    (hnew : l.cells element = some (none, (sortKey, item))) (hx : x.2.1 ≤ sortKey)
    {rounds : Nat} (hrounds : ys.length < rounds) :
    ∃ ys₁ ys₂ l', l.sortedInsertFrom element sortKey rounds x.1 = some l' ∧ ys = ys₁ ++ ys₂ ∧
      (∀ y ∈ ys₁, y.2.1 ≤ sortKey) ∧ (∀ y ∈ ys₂.head?, sortKey < y.2.1) ∧
      Chain l' (xs ++ x :: ys₁ ++ (element, (sortKey, item)) :: ys₂) := by
  induction ys generalizing xs x rounds with
  | nil =>
      obtain ⟨rounds, rfl⟩ := Nat.exists_eq_succ_of_ne_zero (Nat.ne_of_gt hrounds)
      obtain ⟨r, hr, -, n, hcell, rfl⟩ := segment_append.mp h.segment
      obtain ⟨l₁, h₁, hchain⟩ := h.insert_last hfree hnew
      refine ⟨[], [], { l₁ with last := some element }, ?_, rfl, by simp, by simp, by simpa⟩
      have hlast : l.last = some x.1 := by
        rw [h.last]
        simp
      simp [sortedInsertFrom, lookup_of_cells hcell, hlast, h₁]
  | cons y ys ih =>
      obtain ⟨rounds, rfl⟩ :=
        Nat.exists_eq_succ_of_ne_zero (Nat.ne_of_gt (Nat.zero_lt_of_lt hrounds))
      obtain ⟨r, hr, -, n, hcell, rfl, n', hcell', ht⟩ := segment_append.mp h.segment
      by_cases hlt : sortKey < y.2.1
      · obtain ⟨l₁, l₂, h₁, h₂, hchain⟩ := h.insert_between hfree hnew
        refine ⟨[], y :: ys, l₂, ?_, rfl, by simp, by simpa using hlt, by simpa⟩
        simp [sortedInsertFrom, lookup_of_cells hcell, lookup_of_cells hcell', hlt, h₁, h₂]
      · have happ : xs ++ x :: y :: ys = (xs ++ [x]) ++ y :: ys := by simp
        rw [happ] at h hfree
        obtain ⟨ys₁, ys₂, l', hl', rfl, hle, hgt, hchain⟩ :=
          ih h hfree (not_lt.mp hlt) (Nat.lt_of_succ_lt_succ hrounds)
        refine ⟨y :: ys₁, ys₂, l', ?_, rfl, List.forall_mem_cons.mpr ⟨not_lt.mp hlt, hle⟩, hgt,
          by simpa using hchain⟩
        simp [sortedInsertFrom, lookup_of_cells hcell, lookup_of_cells hcell', hlt, hl']

/-- Whatever the order, the new element stands behind elements with a key up to its own, and
    before one with a greater key if there is another. -/
theorem sortedInsert_chain (h : Chain l xs) (hnew : element ∉ l.elements) (item : Option ι)
    (sortKey : κ) :
    ∃ ys zs l', l.sortedInsert element item sortKey = some l' ∧ xs = ys ++ zs ∧
      (∀ y ∈ ys, y.2.1 ≤ sortKey) ∧ (∀ z ∈ zs.head?, sortKey < z.2.1) ∧
      Chain l' (ys ++ (element, (sortKey, item)) :: zs) := by
  obtain ⟨h₀, hfree, hcell⟩ := h.newElement hnew item sortKey
  -- The list with the new element in memory.
  obtain ⟨l₀, hl₀⟩ : ∃ l₀, l.newElement element item sortKey = l₀ := ⟨_, rfl⟩
  rw [hl₀] at h₀ hcell
  rw [sortedInsert, hl₀]
  cases xs with
  | nil =>
      have hfirst : l₀.first = none := h₀.segment
      refine ⟨[], [], { l₀ with first := some element, last := some element }, ?_, rfl,
        by simp, by simp, insert_empty hcell⟩
      simp only [hfirst]
      rfl
  | cons x xs =>
      obtain ⟨hfirst, n, hx, ht⟩ := h₀.segment
      by_cases hlt : sortKey < x.2.1
      · obtain ⟨l₁, h₁, hchain⟩ := h₀.insert_first hfree hcell
        refine ⟨[], x :: xs, { l₁ with first := some element }, ?_, rfl, by simp,
          by simpa using hlt, hchain⟩
        simp only [hfirst, lookup_of_cells hx, Option.bind_eq_bind, Option.bind_some, hlt,
          if_true, h₁]
        rfl
      · have hfront : Chain l₀ ([] ++ x :: xs) := h₀
        obtain ⟨ys₁, ys₂, l', hl', rfl, hle, hgt, hchain⟩ :=
          hfront.sortedInsertFrom_spec hfree hcell (not_lt.mp hlt) h₀.length_le
        refine ⟨x :: ys₁, ys₂, l', ?_, rfl, List.forall_mem_cons.mpr ⟨not_lt.mp hlt, hle⟩, hgt,
          hchain⟩
        simp only [hfirst, lookup_of_cells hx, Option.bind_eq_bind, Option.bind_some, hlt,
          if_false, hl']

/-- The new element stands behind those with a key up to its own, and before the others. -/
theorem sortedInsert_spec (h : Chain l xs) (hsorted : xs.Pairwise fun x y => x.2.1 ≤ y.2.1)
    (hnew : element ∉ l.elements) (item : Option ι) (sortKey : κ) :
    ∃ ys zs l', l.sortedInsert element item sortKey = some l' ∧ xs = ys ++ zs ∧
      (∀ y ∈ ys, y.2.1 ≤ sortKey) ∧ (∀ z ∈ zs, sortKey < z.2.1) ∧
      Chain l' (ys ++ (element, (sortKey, item)) :: zs) := by
  obtain ⟨ys, zs, l', hl', rfl, hle, hgt, hchain⟩ := h.sortedInsert_chain hnew item sortKey
  exact ⟨ys, zs, l', hl', rfl, hle, lt_of_head (List.pairwise_append.mp hsorted).2.1 hgt, hchain⟩

end Chain

end Order

theorem sortedRemove_nil {l : LinkedList κ ι} (h : Chain l []) :
    l.sortedRemove = some ((none, none), l) := by
  have hfirst : l.first = none := h.segment
  rw [sortedRemove, hfirst]

/-- The first element goes. -/
theorem sortedRemove_cons {l : LinkedList κ ι} {x : Addr × (κ × Option ι)}
    {xs : List (Addr × (κ × Option ι))} (h : Chain l (x :: xs)) :
    ∃ l', l.sortedRemove = some ((x.2.2, some x.2.1), l') ∧ Chain l' xs := by
  obtain ⟨hfirst, n, hx, ht⟩ := h.segment
  have hnd := h.segment.nodup
  rw [List.map_cons, List.nodup_cons] at hnd
  have hself : n ≠ some x.1 := by
    rintro rfl
    cases xs with
    | nil => cases ht
    | cons y ys => exact hnd.1 (by simp [Option.some.inj ht.1])
  -- The memory without the first element.
  have hcells : ∀ (f l₁ : Option Addr) (c : Addr), c ≠ x.1 →
      (LinkedList.mk (l.elements.erase x.1) f l₁).cells c = l.cells c := by
    intro f l₁ c hc
    rw [cells, cells, AList.lookup_erase_ne hc]
  have hlast : l.last = some x.1 ↔ xs = [] := by
    rw [h.last]
    cases xs with
    | nil => simp
    | cons y ys =>
        have hmem := List.getLast_mem (List.cons_ne_nil y ys)
        have hne : ((y :: ys).getLast (List.cons_ne_nil y ys)).1 ≠ x.1 := fun he =>
          hnd.1 (List.mem_map.mpr ⟨_, hmem, he⟩)
        simp [List.getLast?_eq_some_getLast, hne]
  have hrest : ∀ f l₁, f = n → l₁ = xs.getLast?.map Prod.fst →
      Chain ⟨l.elements.erase x.1, f, l₁⟩ xs := by
    rintro f l₁ rfl rfl
    obtain ⟨n', hx', ht'⟩ := h.segment.pop (hcells f _)
    rw [hx] at hx'
    obtain ⟨rfl, -⟩ := Prod.mk.inj (Option.some.inj hx')
    exact ⟨ht', rfl⟩
  have hlookup := lookup_of_cells hx
  by_cases hxs : xs = []
  · refine ⟨⟨l.elements.erase x.1, none, none⟩, ?_, hrest _ _ ?_ (by simp [hxs])⟩
    · simp [sortedRemove, hfirst, hlookup, hself, hlast.mpr hxs]
    · rw [hxs] at ht
      exact ht.symm
  · refine ⟨⟨l.elements.erase x.1, n, l.last⟩, ?_, hrest _ _ rfl ?_⟩
    · simp [sortedRemove, hfirst, hlookup, hself, mt hlast.mp hxs]
    · rw [h.last]
      cases xs with
      | nil => exact absurd rfl hxs
      | cons y ys => rw [List.getLast?_cons_cons]

theorem remove_nil {l : LinkedList κ ι} (h : Chain l []) : l.remove = some (none, l) := by
  rw [remove, sortedRemove_nil h, Option.map_some]

theorem remove_cons {l : LinkedList κ ι} {x : Addr × (κ × Option ι)}
    {xs : List (Addr × (κ × Option ι))} (h : Chain l (x :: xs)) :
    ∃ l', l.remove = some (x.2.2, l') ∧ Chain l' xs := by
  obtain ⟨l', hl', hchain⟩ := sortedRemove_cons h
  exact ⟨l', by rw [remove, hl', Option.map_some], hchain⟩

section Zero

variable [Zero κ]

namespace Chain

variable {l : LinkedList κ ι} {xs : List (Addr × (κ × Option ι))} {element : Addr}

/-- The new element comes first, with the key zero. -/
theorem prepend_spec (h : Chain l xs) (hnew : element ∉ l.elements) (item : Option ι) :
    ∃ l', l.prepend element item = some l' ∧ Chain l' ((element, (0, item)) :: xs) := by
  obtain ⟨h₀, hfree, hcell⟩ := h.newElement hnew item 0
  unfold prepend
  generalize l.newElement element item 0 = l₀ at h₀ hcell
  cases xs with
  | nil =>
      have hfirst : l₀.first = none := h₀.segment
      exact ⟨_, by simp only [hfirst]; rfl, insert_empty hcell⟩
  | cons x xs =>
      obtain ⟨l₁, h₁, hchain⟩ := h₀.insert_first hfree hcell
      exact ⟨_, by simp only [h₀.segment.1, h₁]; rfl, hchain⟩

/-- The new element comes last, with the key zero. -/
theorem append_spec (h : Chain l xs) (hnew : element ∉ l.elements) (item : Option ι) :
    ∃ l', l.append element item = some l' ∧ Chain l' (xs ++ [(element, (0, item))]) := by
  obtain ⟨h₀, hfree, hcell⟩ := h.newElement hnew item 0
  unfold append
  generalize l.newElement element item 0 = l₀ at h₀ hcell
  rcases List.eq_nil_or_concat xs with rfl | ⟨ys, x, rfl⟩
  · have hfirst : l₀.first = none := h₀.segment
    exact ⟨_, by simp only [hfirst]; rfl, insert_empty hcell⟩
  · rw [List.concat_eq_append] at h₀ hfree ⊢
    obtain ⟨first, hfirst⟩ : ∃ first, l₀.first = some first := by
      cases ys with
      | nil => exact ⟨_, h₀.segment.1⟩
      | cons y ys => exact ⟨_, h₀.segment.1⟩
    have hlast : l₀.last = some x.1 := by
      rw [h₀.last]
      simp
    obtain ⟨l₁, h₁, hchain⟩ := h₀.insert_last hfree hcell
    refine ⟨{ l₁ with last := some element }, ?_, by simpa using hchain⟩
    simp only [hfirst, hlast, Option.bind_eq_bind, Option.bind_some, h₁]
    rfl

end Chain

end Zero

end LinkedList

end Nachos
