/-
  Nachos.Lib.NameTree

  Finite trees of names: a partial map from paths to nodes in which only the nodes
  `dir` have entries.  A tree grows by an entry with a new name, and shrinks by an
  entry that has none of its own.
-/

import Mathlib.Data.Set.Finite.Basic
import Mathlib.Logic.Function.Basic

universe u v

/-- A finite tree of names. -/
@[ext] structure NameTree (κ : Type u) (ν : Type v) (dir : ν) where
  node : List κ → Option ν
  root : node [] = some dir
  parent : ∀ p k, node (p ++ [k]) ≠ none → node p = some dir
  finite : {p | node p ≠ none}.Finite

namespace NameTree

variable {κ : Type u} {ν : Type v} {dir : ν}

/-- The names of the entries under a path. -/
def entries (t : NameTree κ ν dir) (p : List κ) : Set κ := {k | t.node (p ++ [k]) ≠ none}

/-- Only the nodes `dir` have entries. -/
theorem entries_of_ne (t : NameTree κ ν dir) {p : List κ} (h : t.node p ≠ some dir) :
    t.entries p = ∅ := by
  apply Set.eq_empty_of_forall_notMem
  intro k hk
  exact h (t.parent p k hk)

private theorem concat_ne_nil (p : List κ) (k : κ) : p ++ [k] ≠ [] := by simp

private theorem concat_ne (p : List κ) (k : κ) : p ++ [k] ≠ p := fun h => by
  have hlen := congrArg List.length h
  simp at hlen

/-- Another kind of nodes. -/
def map {ν' : Type*} (t : NameTree κ ν dir) (f : ν → ν') : NameTree κ ν' (f dir) where
  node p := (t.node p).map f
  root := by rw [t.root, Option.map_some]
  parent p k h := by
    rw [t.parent p k fun hk => h (by rw [hk, Option.map_none]), Option.map_some]
  finite := t.finite.subset fun p hp hn => hp (by rw [hn, Option.map_none])

variable [DecidableEq κ]

private theorem finite_update {f : List κ → Option ν} (h : {p | f p ≠ none}.Finite) (q : List κ)
    (n : Option ν) : {p | Function.update f q n p ≠ none}.Finite := by
  apply (h.insert q).subset
  intro p hp
  by_cases he : p = q
  · exact Or.inl he
  · have hf : f p ≠ none := Function.update_of_ne he n f ▸ hp
    exact Or.inr hf

/-- The tree with the root alone. -/
def empty (κ : Type u) [DecidableEq κ] {ν : Type v} (dir : ν) : NameTree κ ν dir where
  node := Function.update (fun _ => none) [] (some dir)
  root := Function.update_self _ _ _
  parent p k h := absurd (Function.update_of_ne (concat_ne_nil p k) _ _) h
  finite := by
    apply (Set.finite_singleton ([] : List κ)).subset
    intro p hp
    by_contra hne
    exact hp (Function.update_of_ne hne _ _)

/-- A new entry `k` under `p`. -/
def insert (t : NameTree κ ν dir) (p : List κ) (k : κ) (n : ν) (hp : t.node p = some dir)
    (hk : t.node (p ++ [k]) = none) : NameTree κ ν dir where
  node := Function.update t.node (p ++ [k]) (some n)
  root := by
    rw [Function.update_of_ne (concat_ne_nil p k).symm]
    exact t.root
  parent q l hl := by
    -- The new entry has no entries yet.
    have hq : q ≠ p ++ [k] := by
      rintro rfl
      rw [Function.update_of_ne (concat_ne _ _)] at hl
      have hempty := t.entries_of_ne (p := p ++ [k])
        (by rw [hk]; exact (Option.some_ne_none _).symm)
      exact Set.notMem_empty l (hempty ▸ hl)
    rw [Function.update_of_ne hq]
    by_cases he : q ++ [l] = p ++ [k]
    · obtain ⟨rfl, -⟩ := List.append_inj' he rfl
      exact hp
    · rw [Function.update_of_ne he] at hl
      exact t.parent q l hl
  finite := finite_update t.finite (p ++ [k]) (some n)

/-- Another node in the place of one that is not `dir`. -/
def replace (t : NameTree κ ν dir) (p : List κ) (n : ν) (hp : t.node p ≠ none)
    (hleaf : t.node p ≠ some dir) : NameTree κ ν dir where
  node := Function.update t.node p (some n)
  root := by
    rw [Function.update_of_ne]
    · exact t.root
    · rintro rfl
      exact hleaf t.root
  parent q l hl := by
    -- The node that is replaced has no entries.
    have hq : q ≠ p := by
      rintro rfl
      rw [Function.update_of_ne (concat_ne _ _)] at hl
      exact hleaf (t.parent q l hl)
    rw [Function.update_of_ne hq]
    by_cases he : q ++ [l] = p
    · exact t.parent q l (he ▸ hp)
    · rw [Function.update_of_ne he] at hl
      exact t.parent q l hl
  finite := finite_update t.finite p (some n)

/-- The tree without the entry `k` under `p`, which has no entries. -/
def erase (t : NameTree κ ν dir) (p : List κ) (k : κ) (h : t.entries (p ++ [k]) = ∅) :
    NameTree κ ν dir where
  node := Function.update t.node (p ++ [k]) none
  root := by
    rw [Function.update_of_ne (concat_ne_nil p k).symm]
    exact t.root
  parent q l hl := by
    by_cases he : q ++ [l] = p ++ [k]
    · rw [he, Function.update_self] at hl
      exact absurd rfl hl
    · rw [Function.update_of_ne he] at hl
      have hq : q ≠ p ++ [k] := by
        rintro rfl
        exact Set.notMem_empty l (h ▸ hl)
      rw [Function.update_of_ne hq]
      exact t.parent q l hl
  finite := finite_update t.finite (p ++ [k]) none

end NameTree
