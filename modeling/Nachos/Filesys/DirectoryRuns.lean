/-
  Nachos.Filesys.DirectoryRuns

  A directory as a finite map from keys to sectors, through any calls of `Add`,
  `Remove` and `Find` on a new one.  What the map has is said of the calls alone: a
  key has the sector of the last `Add` that succeeded, until a `Remove` of it does.
-/

import Nachos.Filesys.DirectorySpec
import Nachos.Lib.Run

namespace Nachos

open Words Transition

namespace Directory

/-- A call with what it returned. -/
inductive Call
  | add (name : List Byte) (newSector : Int) (result : MsgError)
  | remove (name : List Byte) (result : MsgError)
  | find (name : List Byte) (result : Int)

/-- A call returns what it returned; a sector is an `int`. -/
def step (dir : Directory) : Call → Option Directory
  | .add name newSector result =>
      if InInt newSector ∧ (dir.add name newSector).1 = result then
        some (dir.add name newSector).2
      else none
  | .remove name result =>
      if (dir.remove name).1 = result then some (dir.remove name).2 else none
  | .find name result => if dir.find name = result then some dir else none

/-- The effect of a call on the sectors that are known. -/
def knownAfter (known : List Byte → Option Int) : Call → List Byte → Option Int
  | .add name newSector .NoError => Function.update known (key name) (some newSector)
  | .remove name .NoError => Function.update known (key name) none
  | _ => known

/-- The sector of the last `Add` of a key that succeeded, if no `Remove` did since. -/
def known (tr : List (Directory × Call)) : List Byte → Option Int :=
  (tr.map Prod.snd).foldl knownAfter fun _ => none

/-- The keys that have a sector. -/
def present (known : List Byte → Option Int) : Set (List Byte) := {k | known k ≠ none}

/-- An entry with another key is where it was. -/
def SameOthers (dir dir' : Directory) (k : List Byte) : Prop :=
  ∀ i < dir.tableSize, ∀ k' x, k' ≠ k → dir.slot i = some (k', x) → dir'.slot i = some (k', x)

section Calls

variable {dir : Directory} {n : Nat} {M : List Byte → Option Int} {s : List Byte} {x : Int}

/-- The entries of the table are those of the map `M`, one for each key. -/
structure IsMap (dir : Directory) (n : Nat) (M : List Byte → Option Int) : Prop where
  tableSize : dir.tableSize = n
  distinct : Slots.Distinct n dir.slot
  lookup : Slots.lookup n dir.slot = M

namespace IsMap

theorem lookup_at (h : IsMap dir n M) (k : List Byte) :
    Slots.lookup dir.tableSize dir.slot k = M k := by
  rw [h.tableSize, h.lookup]

theorem find (h : IsMap dir n M) (s : List Byte) : dir.find s = (M (key s)).getD (-1) := by
  rw [find_eq (h.tableSize.symm ▸ h.distinct), h.lookup_at]

theorem exists_empty (h : IsMap dir n M) :
    (∃ i < dir.tableSize, dir.slot i = none) ↔ (present M).ncard < n := by
  rw [h.tableSize, Slots.exists_empty_iff h.distinct, h.lookup, present]

/-- A key that is there is not added. -/
theorem add_already (h : IsMap dir n M) (hk : M (key s) ≠ none) (x : Int) :
    dir.add s x = (.AlreadyInDirectory, dir) := by
  obtain ⟨v, hv⟩ := Option.ne_none_iff_exists'.mp hk
  obtain ⟨i, -, hi, -⟩ :=
    findIndex_some (h.tableSize.symm ▸ h.distinct) ((h.lookup_at _).trans hv)
  rw [add, hi]
  rfl

theorem add_new (h : IsMap dir n M) (hx : InInt x) (hk : M (key s) = none)
    (hroom : (present M).ncard < n) :
    ∃ dir', dir.add s x = (.NoError, dir') ∧
      IsMap dir' n (Function.update M (key s) (some x)) ∧ SameOthers dir dir' (key s) := by
  obtain ⟨i, hi, dir', hadd, hfree, hsize, hslot⟩ :=
    add_spec hx ((h.lookup_at _).trans hk) (h.exists_empty.mpr hroom)
  have hnone : Slots.lookup n dir.slot (key s) = none := by rw [h.lookup, hk]
  refine ⟨dir', hadd, ⟨hsize.trans h.tableSize, hslot ▸ h.distinct.fill hnone, ?_⟩, ?_⟩
  · rw [hslot, Slots.lookup_fill h.distinct hnone (h.tableSize ▸ hi) hfree, h.lookup]
  · intro j _ k' y _ hj
    have hji : j ≠ i := by
      rintro rfl
      rw [hfree] at hj
      cases hj
    rw [hslot, Function.update_of_ne hji, hj]

theorem add_full (h : IsMap dir n M) (hk : M (key s) = none) (hfull : ¬ (present M).ncard < n)
    (x : Int) : dir.add s x = (.NoSpaceInDirectory, dir) :=
  Directory.add_full ((h.lookup_at _).trans hk) (mt h.exists_empty.mp hfull)

theorem remove_absent (h : IsMap dir n M) (hk : M (key s) = none) :
    dir.remove s = (.InexistDirectoryError, dir) := by
  rw [remove, findIndex_none ((h.lookup_at _).trans hk)]

theorem remove_present (h : IsMap dir n M) (hk : M (key s) ≠ none) :
    ∃ dir', dir.remove s = (.NoError, dir') ∧
      IsMap dir' n (Function.update M (key s) none) ∧ SameOthers dir dir' (key s) := by
  obtain ⟨v, hv⟩ := Option.ne_none_iff_exists'.mp hk
  obtain ⟨i, hi, dir', hremove, hfull, hsize, hslot⟩ :=
    remove_spec (h.tableSize.symm ▸ h.distinct) ((h.lookup_at _).trans hv)
  refine ⟨dir', hremove, ⟨hsize.trans h.tableSize, hslot ▸ h.distinct.empty, ?_⟩, ?_⟩
  · rw [hslot, Slots.lookup_empty h.distinct (h.tableSize ▸ hi) hfull, h.lookup]
  · intro j _ k' y hne hj
    have hji : j ≠ i := by
      rintro rfl
      rw [hfull] at hj
      exact hne (Prod.mk.inj (Option.some.inj hj)).1.symm
    rw [hslot, Function.update_of_ne hji, hj]

/-- A new table is the empty map. -/
theorem create (n : Nat) (table : Nat → Byte) :
    IsMap ((Directory.mk n table).clearFirst n) n fun _ => none := by
  obtain ⟨hsize, hslot⟩ := (Directory.mk n table).clearFirst_spec n
  refine ⟨hsize, fun i hi _ _ k v _ hk => ?_, ?_⟩
  · rw [hslot i hi] at hk
    cases hk
  · funext k
    exact Slots.lookup_none.mpr fun i hi v hv => by rw [hslot i hi] at hv; cases hv

/-- Every call does to the map what it returned. -/
theorem step (h : IsMap dir n M) {c : Call} {dir' : Directory} (hs : dir.step c = some dir') :
    IsMap dir' n (knownAfter M c) := by
  cases c with
  | find name result =>
      rw [Directory.step] at hs
      split at hs
      · obtain rfl := Option.some.inj hs
        exact h
      · cases hs
  | add name newSector result =>
      rw [Directory.step] at hs
      split at hs
      · rename_i hr
        obtain ⟨hx, rfl⟩ := hr
        obtain rfl := Option.some.inj hs
        -- Both errors leave the table as it was.
        by_cases hk : M (key name) = none
        · by_cases hroom : (present M).ncard < n
          · obtain ⟨dir', hadd, hmap, -⟩ := h.add_new hx hk hroom
            rw [hadd]
            exact hmap
          · rw [h.add_full hk hroom]
            exact h
        · rw [h.add_already hk]
          exact h
      · cases hs
  | remove name result =>
      rw [Directory.step] at hs
      split at hs
      · rename_i hr
        subst hr
        obtain rfl := Option.some.inj hs
        by_cases hk : M (key name) = none
        · rw [h.remove_absent hk]
          exact h
        · obtain ⟨dir', hremove, hmap, -⟩ := h.remove_present hk
          rw [hremove]
          exact hmap
      · cases hs

end IsMap

end Calls

/-- After any calls the table is the map of what is known. -/
theorem isMap_of_run {n : Nat} {table : Nat → Byte} {tr : List (Directory × Call)}
    {dir : Directory} (h : Run step ((Directory.mk n table).clearFirst n) tr dir) :
    IsMap dir n (known tr) := by
  induction h with
  | nil => exact IsMap.create n table
  | snoc _ hs ih =>
      rw [known, List.map_append, List.foldl_append]
      exact ih.step hs

/-- Through any calls a new directory is a finite map from keys to sectors: no key is in two
    entries, `Find` returns what is known, and `Add` fails for a key that is there and for a
    table full of other keys.  A call leaves the entries of other keys where they are. -/
theorem map_calls {n : Nat} {table : Nat → Byte} {tr : List (Directory × Call)} {dir : Directory}
    (h : Run step ((Directory.mk n table).clearFirst n) tr dir) :
    Slots.Distinct n dir.slot ∧
      (∀ s, dir.find s = (known tr (key s)).getD (-1)) ∧
      (∀ s x, InInt x →
        ((dir.add s x).1 = .AlreadyInDirectory ↔ known tr (key s) ≠ none) ∧
        ((dir.add s x).1 = .NoSpaceInDirectory ↔
          known tr (key s) = none ∧ (present (known tr)).ncard = n) ∧
        ((dir.add s x).1 = .NoError ↔
          known tr (key s) = none ∧ (present (known tr)).ncard < n) ∧
        SameOthers dir (dir.add s x).2 (key s)) ∧
      (∀ s, ((dir.remove s).1 = .NoError ↔ known tr (key s) ≠ none) ∧
        SameOthers dir (dir.remove s).2 (key s)) := by
  have hmap := isMap_of_run h
  have hsame : ∀ k, SameOthers dir dir k := fun _ _ _ _ _ _ hj => hj
  have hle : (present (known tr)).ncard ≤ n := by
    rw [present, ← hmap.lookup]
    exact Slots.ncard_le hmap.distinct
  refine ⟨hmap.distinct, hmap.find, fun s x hx => ?_, fun s => ?_⟩
  · -- `Add` looks for the key before it looks for room.
    by_cases hk : known tr (key s) = none
    · by_cases hroom : (present (known tr)).ncard < n
      · obtain ⟨dir', hadd, -, hother⟩ := hmap.add_new hx hk hroom
        simp [hadd, hk, hroom, hroom.ne, hother]
      · have heq : (present (known tr)).ncard = n := by omega
        simp [hmap.add_full hk hroom, hk, heq, hsame]
    · simp [hmap.add_already hk, hk, hsame]
  · by_cases hk : known tr (key s) = none
    · simp [hmap.remove_absent hk, hk, hsame]
    · obtain ⟨dir', hremove, -, hother⟩ := hmap.remove_present hk
      simp [hremove, hk, hother]

/-- A table of one entry: a name of 80 characters is found under a longer one, and there is no
    room for another until it is removed. -/
theorem map_calls_one :
    ∃ tr dir, Run step ((Directory.mk 1 fun _ => 0).clearFirst 1) tr dir ∧
      tr.map Prod.snd = [.add [97] 5 .NoError, .add [98] 6 .NoSpaceInDirectory,
        .remove [97] .NoError, .add (List.replicate 80 98) 7 .NoError] ∧
      dir.find (List.replicate 81 98) = 7 ∧ dir.find [97] = -1 := by
  have hr : ∃ tr dir, exec step ((Directory.mk 1 fun _ => 0).clearFirst 1)
      [.add [97] 5 .NoError, .add [98] 6 .NoSpaceInDirectory, .remove [97] .NoError,
        .add (List.replicate 80 98) 7 .NoError] = some (tr, dir) := by
    refine ⟨_, _, rfl⟩
  obtain ⟨tr, dir, he⟩ := hr
  have hrun := run_of_exec he
  have hcalls := actions_of_exec he
  have hfind := (map_calls hrun).2.1
  refine ⟨tr, dir, hrun, hcalls, ?_, ?_⟩
  · rw [hfind, known, hcalls]
    decide
  · rw [hfind, known, hcalls]
    decide

end Directory

end Nachos
