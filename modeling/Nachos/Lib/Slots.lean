/-
  Nachos.Lib.Slots

  A table of `n` slots, each empty or with a key and a value, read as a partial
  function of the key.  Where no key is in two slots, filling an empty slot and
  emptying a full one update this function at one key.
-/

import Mathlib.Data.Set.Card
import Mathlib.Logic.Function.Basic

namespace Slots

universe u v

variable {κ : Type u} {ν : Type v} [DecidableEq κ]

/-- The value in the first slot with this key. -/
def lookup (n : Nat) (t : Nat → Option (κ × ν)) (k : κ) : Option ν :=
  (List.range n).findSome? fun i => (t i).bind fun e => if e.1 = k then some e.2 else none

/-- No key is in two slots. -/
def Distinct (n : Nat) (t : Nat → Option (κ × ν)) : Prop :=
  ∀ i < n, ∀ j < n, ∀ k v v', t i = some (k, v) → t j = some (k, v') → i = j

variable {n : Nat} {t t' : Nat → Option (κ × ν)} {k : κ} {v : ν}

theorem lookup_none : lookup n t k = none ↔ ∀ i < n, ∀ v, t i ≠ some (k, v) := by
  rw [lookup, List.findSome?_eq_none_iff]
  constructor
  · intro h i hi v hv
    have := h i (List.mem_range.mpr hi)
    simp [hv] at this
  · intro h i hi
    rw [Option.bind_eq_none_iff]
    rintro ⟨k', v'⟩ he
    have hne : k' ≠ k := fun hk => h i (List.mem_range.mp hi) v' (hk ▸ he)
    simp [hne]

theorem slot_of_lookup (h : lookup n t k = some v) : ∃ i < n, t i = some (k, v) := by
  obtain ⟨i, hi, he⟩ := List.exists_of_findSome?_eq_some h
  rw [Option.bind_eq_some_iff] at he
  obtain ⟨⟨k', v'⟩, ht, he⟩ := he
  by_cases hk : k' = k
  · rw [if_pos hk] at he
    obtain rfl : v' = v := Option.some.inj he
    exact ⟨i, List.mem_range.mp hi, hk ▸ ht⟩
  · rw [if_neg hk] at he
    cases he

theorem lookup_of_slot (hd : Distinct n t) {i : Nat} (hi : i < n) (h : t i = some (k, v)) :
    lookup n t k = some v := by
  cases hl : lookup n t k with
  | none => exact absurd h (lookup_none.mp hl i hi v)
  | some v' =>
      obtain ⟨j, hj, ht⟩ := slot_of_lookup hl
      obtain rfl := hd i hi j hj k v v' h ht
      rw [h] at ht
      rw [(Prod.mk.inj (Option.some.inj ht)).2]

theorem lookup_succ : lookup (n + 1) t k =
    (lookup n t k).or ((t n).bind fun e => if e.1 = k then some e.2 else none) := by
  simp [lookup, List.range_succ, List.findSome?_append]

/-- The function depends on the slots. -/
theorem lookup_congr (h : ∀ i < n, t' i = t i) : lookup n t' k = lookup n t k := by
  induction n with
  | zero => rfl
  | succ n ih =>
      rw [lookup_succ, lookup_succ, ih fun i hi => h i (Nat.lt_succ_of_lt hi),
        h n (Nat.lt_succ_self n)]

omit [DecidableEq κ] in
theorem Distinct.congr (hd : Distinct n t) (h : ∀ i < n, t' i = t i) : Distinct n t' := by
  intro i hi j hj k v v' hk hk'
  rw [h i hi] at hk
  rw [h j hj] at hk'
  exact hd i hi j hj k v v' hk hk'

section Update

variable {i : Nat}

theorem Distinct.fill (hd : Distinct n t) (h : lookup n t k = none) :
    Distinct n (Function.update t i (some (k, v))) := by
  have hk := lookup_none.mp h
  intro a ha b hb l u u' hu hu'
  by_cases hai : a = i
  · by_cases hbi : b = i
    · exact hai.trans hbi.symm
    · rw [hai, Function.update_self] at hu
      rw [Function.update_of_ne hbi] at hu'
      obtain ⟨rfl, rfl⟩ := Prod.mk.inj (Option.some.inj hu)
      exact absurd hu' (hk b hb u')
  · rw [Function.update_of_ne hai] at hu
    by_cases hbi : b = i
    · rw [hbi, Function.update_self] at hu'
      obtain ⟨rfl, rfl⟩ := Prod.mk.inj (Option.some.inj hu')
      exact absurd hu (hk a ha u)
    · rw [Function.update_of_ne hbi] at hu'
      exact hd a ha b hb l u u' hu hu'

/-- Filling an empty slot. -/
theorem lookup_fill (hd : Distinct n t) (h : lookup n t k = none) (hi : i < n) (he : t i = none) :
    lookup n (Function.update t i (some (k, v))) = Function.update (lookup n t) k (some v) := by
  have hd' : Distinct n (Function.update t i (some (k, v))) := hd.fill h
  funext l
  by_cases hlk : l = k
  · subst hlk
    rw [Function.update_self]
    exact lookup_of_slot hd' hi (Function.update_self _ _ _)
  · rw [Function.update_of_ne hlk]
    cases hl : lookup n t l with
    | none =>
        rw [lookup_none] at hl ⊢
        intro j hj u hu
        by_cases hji : j = i
        · rw [hji, Function.update_self] at hu
          exact hlk (Prod.mk.inj (Option.some.inj hu)).1.symm
        · rw [Function.update_of_ne hji] at hu
          exact hl j hj u hu
    | some u =>
        obtain ⟨j, hj, hu⟩ := slot_of_lookup hl
        have hji : j ≠ i := by
          rintro rfl
          rw [he] at hu
          cases hu
        exact lookup_of_slot hd' hj (by rw [Function.update_of_ne hji, hu])

omit [DecidableEq κ] in
theorem Distinct.empty (hd : Distinct n t) : Distinct n (Function.update t i none) := by
  intro a ha b hb l u u' hu hu'
  by_cases hai : a = i
  · rw [hai, Function.update_self] at hu
    cases hu
  · by_cases hbi : b = i
    · rw [hbi, Function.update_self] at hu'
      cases hu'
    · rw [Function.update_of_ne hai] at hu
      rw [Function.update_of_ne hbi] at hu'
      exact hd a ha b hb l u u' hu hu'

/-- Emptying a full slot. -/
theorem lookup_empty (hd : Distinct n t) (hi : i < n) (he : t i = some (k, v)) :
    lookup n (Function.update t i none) = Function.update (lookup n t) k none := by
  have hd' : Distinct n (Function.update t i none) := hd.empty
  funext l
  by_cases hlk : l = k
  · subst hlk
    rw [Function.update_self, lookup_none]
    intro j hj u hu
    by_cases hji : j = i
    · rw [hji, Function.update_self] at hu
      cases hu
    · rw [Function.update_of_ne hji] at hu
      exact hji (hd j hj i hi l u v hu he)
  · rw [Function.update_of_ne hlk]
    cases hl : lookup n t l with
    | none =>
        rw [lookup_none] at hl ⊢
        intro j hj u hu
        by_cases hji : j = i
        · rw [hji, Function.update_self] at hu
          cases hu
        · rw [Function.update_of_ne hji] at hu
          exact hl j hj u hu
    | some u =>
        obtain ⟨j, hj, hu⟩ := slot_of_lookup hl
        have hji : j ≠ i := by
          rintro rfl
          rw [he] at hu
          exact hlk (Prod.mk.inj (Option.some.inj hu)).1.symm
        exact lookup_of_slot hd' hj (by rw [Function.update_of_ne hji, hu])

end Update

/-- There are as many keys as full slots. -/
theorem ncard_keys (hd : Distinct n t) :
    {k | lookup n t k ≠ none}.ncard = {i | i < n ∧ t i ≠ none}.ncard := by
  symm
  refine Set.ncard_congr (fun i hi => ((t i).get (Option.isSome_iff_ne_none.mpr hi.2)).1) ?_ ?_ ?_
  · rintro i ⟨hi, hne⟩
    obtain ⟨⟨k, v⟩, hk⟩ := Option.ne_none_iff_exists'.mp hne
    have hl := lookup_of_slot hd hi hk
    simp [hk, hl]
  · rintro i j ⟨hi, hne⟩ ⟨hj, hne'⟩ he
    obtain ⟨⟨k, v⟩, hk⟩ := Option.ne_none_iff_exists'.mp hne
    obtain ⟨⟨k', v'⟩, hk'⟩ := Option.ne_none_iff_exists'.mp hne'
    simp only [hk, hk', Option.get_some] at he
    subst he
    exact hd i hi j hj k v v' hk hk'
  · intro k hk
    obtain ⟨v, hv⟩ := Option.ne_none_iff_exists'.mp hk
    obtain ⟨i, hi, hs⟩ := slot_of_lookup hv
    exact ⟨i, ⟨hi, by simp [hs]⟩, by simp [hs]⟩

omit [DecidableEq κ] in
theorem full_subset :
    {i | i < n ∧ t i ≠ none} ⊆ ((Finset.range n : Finset Nat) : Set Nat) :=
  fun _ hi => Finset.mem_coe.mpr (Finset.mem_range.mpr hi.1)

/-- There are at most `n` keys. -/
theorem ncard_le (hd : Distinct n t) : {k | lookup n t k ≠ none}.ncard ≤ n := by
  have hle := Set.ncard_le_ncard (full_subset (n := n) (t := t)) (Finset.finite_toSet _)
  rwa [← ncard_keys hd, Set.ncard_coe_finset, Finset.card_range] at hle

/-- There is an empty slot exactly when there are fewer than `n` keys. -/
theorem exists_empty_iff (hd : Distinct n t) :
    (∃ i < n, t i = none) ↔ {k | lookup n t k ≠ none}.ncard < n := by
  have hall : ((Finset.range n : Finset Nat) : Set Nat).ncard = n := by
    rw [Set.ncard_coe_finset, Finset.card_range]
  have hsub : {i | i < n ∧ t i ≠ none} ⊆ ((Finset.range n : Finset Nat) : Set Nat) :=
    full_subset
  rw [ncard_keys hd]
  constructor
  · rintro ⟨i, hi, hn⟩
    -- The empty slot is one of the `n`, and not one of the full ones.
    have hlt := Set.ncard_lt_ncard
      ⟨hsub, fun h => (h (Finset.mem_coe.mpr (Finset.mem_range.mpr hi))).2 hn⟩
      (Finset.finite_toSet _)
    omega
  · intro hlt
    by_contra hno
    have hfull : {i | i < n ∧ t i ≠ none} = ((Finset.range n : Finset Nat) : Set Nat) :=
      Set.Subset.antisymm hsub fun i hi =>
        ⟨Finset.mem_range.mp (Finset.mem_coe.mp hi), fun hn =>
          hno ⟨i, Finset.mem_range.mp (Finset.mem_coe.mp hi), hn⟩⟩
    rw [hfull, hall] at hlt
    exact Nat.lt_irrefl n hlt

end Slots
