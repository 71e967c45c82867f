/-
  Nachos.Utility.SortedRuns

  `SortedInsert` and `SortedRemove` in any order, from an empty list.  What the
  list has to hold is said of the calls alone: an entry is outstanding when it was
  inserted and no call has returned it, and the outstanding entries are kept in
  the order in which they were inserted.
-/

import Mathlib.Data.List.Perm.Basic
import Nachos.Lib.Run
import Nachos.Utility.List

namespace Nachos

open Transition Linked

variable {κ ι : Type} [LinearOrder κ] [DecidableEq ι]

/-- A call with what it returned. -/
inductive SortedCall (κ ι : Type) where
  | inserted (element : Addr) (item : Option ι) (sortKey : κ)
  | removed (thing : Option ι) (key : Option κ)

namespace LinkedList

/-- `new` gives an address that is not in use, and a call returns what it returned. -/
def step (l : LinkedList κ ι) : SortedCall κ ι → Option (LinkedList κ ι)
  | .inserted element item sortKey =>
      if element ∈ l.elements then none else l.sortedInsert element item sortKey
  | .removed thing key =>
      l.sortedRemove.bind fun r => if r.1 = (thing, key) then some r.2 else none

/-- One call's effect on the entries that are outstanding. -/
def outstandingAfter (es : List (κ × Option ι)) : SortedCall κ ι → List (κ × Option ι)
  | .inserted _ item sortKey => es ++ [(sortKey, item)]
  | .removed thing (some key) => es.erase (key, thing)
  | .removed _ none => es

/-- The entries inserted and not removed, in the order of insertion. -/
def outstanding (tr : List (LinkedList κ ι × SortedCall κ ι)) : List (κ × Option ι) :=
  (tr.map Prod.snd).foldl outstandingAfter []

theorem outstanding_snoc (tr : List (LinkedList κ ι × SortedCall κ ι))
    (x : LinkedList κ ι × SortedCall κ ι) :
    outstanding (tr ++ [x]) = outstandingAfter (outstanding tr) x.2 := by
  simp [outstanding]

/-- The chain has the entries `es`, in increasing order of their keys, and those with one key
    in the order in which `es` has them. -/
structure Sorted (l : LinkedList κ ι) (es : List (κ × Option ι))
    (xs : List (Addr × (κ × Option ι))) : Prop where
  segment : Segment l.cells l.first xs none
  last : l.last = xs.getLast?.map Prod.fst
  sorted : xs.Pairwise fun x y => x.2.1 ≤ y.2.1
  perm : (xs.map Prod.snd).Perm es
  stable : ∀ k, (xs.map Prod.snd).filter (fun e => e.1 = k) = es.filter fun e => e.1 = k

namespace Sorted

variable {l l' : LinkedList κ ι} {es : List (κ × Option ι)} {xs : List (Addr × (κ × Option ι))}

omit [DecidableEq ι] in
theorem chain (h : Sorted l es xs) : Chain l xs := ⟨h.segment, h.last⟩

omit [DecidableEq ι] in
theorem create : Sorted (create : LinkedList κ ι) [] [] :=
  ⟨rfl, rfl, List.Pairwise.nil, List.Perm.nil, fun _ => rfl⟩

omit [DecidableEq ι] in
theorem insert {ys zs : List (Addr × (κ × Option ι))} {element : Addr} {item : Option ι}
    {sortKey : κ} (h : Sorted l es (ys ++ zs)) (hle : ∀ y ∈ ys, y.2.1 ≤ sortKey)
    (hlt : ∀ z ∈ zs, sortKey < z.2.1) (h' : Chain l' (ys ++ (element, (sortKey, item)) :: zs)) :
    Sorted l' (es ++ [(sortKey, item)]) (ys ++ (element, (sortKey, item)) :: zs) := by
  obtain ⟨hys, hzs, hyz⟩ := List.pairwise_append.mp h.sorted
  refine ⟨h'.segment, h'.last, ?_, ?_, fun k => ?_⟩
  · refine List.pairwise_append.mpr ⟨hys, ?_, fun y hy z hz => ?_⟩
    · exact List.pairwise_cons.mpr ⟨fun z hz => (hlt z hz).le, hzs⟩
    · rcases List.mem_cons.mp hz with rfl | hz
      · exact hle y hy
      · exact hyz y hy z hz
  · rw [List.map_append, List.map_cons]
    refine List.perm_middle.trans (List.Perm.trans ?_ (List.perm_append_singleton _ _).symm)
    rw [← List.map_append]
    exact h.perm.cons _
  · have hstable := h.stable k
    rw [List.map_append, List.filter_append] at hstable
    rw [List.map_append, List.map_cons, List.filter_append, List.filter_append, ← hstable,
      List.filter_cons]
    by_cases hk : sortKey = k
    · -- The entries behind the new one have greater keys.
      have hnone : (zs.map Prod.snd).filter (fun e => e.1 = k) = [] := by
        rw [List.filter_eq_nil_iff]
        intro e he
        obtain ⟨z, hz, rfl⟩ := List.mem_map.mp he
        simpa [← hk] using (hlt z hz).ne'
      simp [hk, hnone]
    · simp [hk]

theorem remove {x : Addr × (κ × Option ι)} (h : Sorted l es (x :: xs)) (h' : Chain l' xs) :
    Sorted l' (es.erase x.2) xs := by
  refine ⟨h'.segment, h'.last, (List.pairwise_cons.mp h.sorted).2, ?_, fun k => ?_⟩
  · have := h.perm.erase x.2
    rwa [List.map_cons, List.erase_cons_head] at this
  · rw [← List.erase_filter, ← h.stable k, List.map_cons, List.filter_cons]
    by_cases hk : x.2.1 = k
    · simp [hk]
    · have hnot : x.2 ∉ (xs.map Prod.snd).filter fun e => e.1 = k := by
        intro hmem
        exact hk (by simpa using (List.mem_filter.mp hmem).2)
      simp [hk, List.erase_of_not_mem hnot]

omit [DecidableEq ι] in
/-- The first entry has the least key, and was the first to be inserted with it. -/
theorem head_least {x : Addr × (κ × Option ι)} (h : Sorted l es (x :: xs)) :
    x.2 ∈ es ∧ (∀ e ∈ es, x.2.1 ≤ e.1) ∧ (es.filter fun e => e.1 = x.2.1).head? = some x.2 := by
  refine ⟨h.perm.mem_iff.mp (by simp), fun e he => ?_, ?_⟩
  · obtain ⟨y, hy, rfl⟩ := List.mem_map.mp (h.perm.mem_iff.mpr he)
    rcases List.mem_cons.mp hy with rfl | hy
    · exact le_refl _
    · exact (List.pairwise_cons.mp h.sorted).1 y hy
  · rw [← h.stable]
    simp

/-- Every call keeps the order, and keeps what is outstanding on the chain. -/
theorem step (h : Sorted l es xs) {c : SortedCall κ ι} (hs : l.step c = some l') :
    ∃ xs', Sorted l' (outstandingAfter es c) xs' := by
  cases c with
  | inserted element item sortKey =>
      rw [LinkedList.step] at hs
      split at hs
      · cases hs
      · rename_i hnew
        obtain ⟨ys, zs, l₁, hl₁, rfl, hle, hlt, hchain⟩ :=
          h.chain.sortedInsert_spec h.sorted hnew item sortKey
        obtain rfl := Option.some.inj (hl₁.symm.trans hs)
        exact ⟨_, h.insert hle hlt hchain⟩
  | removed thing key =>
      rw [LinkedList.step] at hs
      cases xs with
      | nil =>
          -- From an empty list `SortedRemove` returns `NULL`.
          rw [sortedRemove_nil h.chain, Option.bind_some] at hs
          split at hs
          · rename_i hr
            obtain ⟨rfl, rfl⟩ := Prod.mk.inj hr
            obtain rfl := Option.some.inj hs
            exact ⟨[], h⟩
          · cases hs
      | cons x xs =>
          obtain ⟨l₁, hl₁, hchain⟩ := sortedRemove_cons h.chain
          rw [hl₁, Option.bind_some] at hs
          split at hs
          · rename_i hr
            obtain ⟨rfl, rfl⟩ := Prod.mk.inj hr
            obtain rfl := Option.some.inj hs
            exact ⟨xs, h.remove hchain⟩
          · cases hs

end Sorted

/-- After any calls the chain has what is outstanding. -/
theorem sorted_of_run {tr : List (LinkedList κ ι × SortedCall κ ι)} {l : LinkedList κ ι}
    (h : Run step create tr l) : ∃ xs, Sorted l (outstanding tr) xs := by
  induction h with
  | nil => exact ⟨[], Sorted.create⟩
  | snoc _ hs ih =>
      obtain ⟨xs, hxs⟩ := ih
      rw [outstanding_snoc]
      exact hxs.step hs

/-- After any calls of `SortedInsert` and `SortedRemove` on an empty list the chain is finite,
    ends at `last`, and has the outstanding entries in order; the next insertion returns, and
    the next removal returns the oldest of the outstanding entries with the least key. -/
theorem sorted_calls {tr : List (LinkedList κ ι × SortedCall κ ι)} {l : LinkedList κ ι}
    (h : Run step create tr l) :
    (∃ xs, Sorted l (outstanding tr) xs) ∧
      (∀ element item sortKey, element ∉ l.elements →
        ∃ l', l.sortedInsert element item sortKey = some l') ∧
      (outstanding tr = [] → l.sortedRemove = some ((none, none), l)) ∧
      (outstanding tr ≠ [] → ∃ key item l', l.sortedRemove = some ((item, some key), l') ∧
        (key, item) ∈ outstanding tr ∧ (∀ e ∈ outstanding tr, key ≤ e.1) ∧
        ((outstanding tr).filter fun e => e.1 = key).head? = some (key, item)) := by
  obtain ⟨xs, hxs⟩ := sorted_of_run h
  refine ⟨⟨xs, hxs⟩, fun element item sortKey hnew => ?_, fun hnil => ?_, fun hne => ?_⟩
  · obtain ⟨-, -, l', hl', -⟩ := hxs.chain.sortedInsert_spec hxs.sorted hnew item sortKey
    exact ⟨l', hl'⟩
  · have hperm := hxs.perm
    rw [hnil, List.perm_nil, List.map_eq_nil_iff] at hperm
    exact sortedRemove_nil (hperm ▸ hxs.chain)
  · cases xs with
    | nil => exact absurd (List.nil_perm.mp hxs.perm) hne
    | cons x xs =>
        obtain ⟨l', hl', -⟩ := sortedRemove_cons hxs.chain
        exact ⟨x.2.1, x.2.2, l', hl', hxs.head_least⟩

/-- Three insertions, two with one key, and a removal. -/
theorem sorted_calls_three : ∃ l : LinkedList Nat Nat, ∃ tr,
    outstanding tr = [(7, some 1), (7, some 3)] ∧
    ∃ l', l.sortedRemove = some ((some 1, some 7), l') := by
  have hr : ∃ tr l, exec (σ := LinkedList Nat Nat) step create
      [.inserted 10 (some 1) 7, .inserted 11 (some 2) 4, .inserted 12 (some 3) 7,
        .removed (some 2) (some 4)] = some (tr, l) ∧
      outstanding tr = [(7, some 1), (7, some 3)] := ⟨_, _, rfl, rfl⟩
  obtain ⟨tr, l, he, ho⟩ := hr
  refine ⟨l, tr, ho, ?_⟩
  obtain ⟨-, -, -, hrem⟩ := sorted_calls (run_of_exec he)
  obtain ⟨key, item, l', hl', hmem, hle, hhead⟩ := hrem (by simp [ho])
  rw [ho] at hmem hhead
  rcases List.mem_pair.mp hmem with he | he <;> cases he
  · exact ⟨l', hl'⟩
  · simp at hhead

end LinkedList

end Nachos
