/-
  Nachos.Filesys.Refinement

  The four calls refine a finite tree of names.  The tree is stated apart from the
  disk: an entry can be added when its directory has fewer than `NumDirEntries`
  and the free map enough clear bits, a regular file can be removed, and so can a
  directory without entries.
-/

import Mathlib.Data.Set.Card
import Nachos.Filesys.Calls
import Nachos.Lib.NameTree

namespace Nachos

open Words Program Config
open Directory (slotsAt)
open Transition (Run)

/-- A finite tree of names, a component given by its key. -/
abbrev FileTree := NameTree (List Byte) Node .dir

variable [Config]

namespace FileTree

/-- An entry `k` can be added under `p`. -/
structure HasRoom (t : FileTree) (p : List (List Byte)) (k : List Byte) : Prop where
  parent : t.node p = some .dir
  absent : t.node (p ++ [k]) = none
  slot : (t.entries p).ncard < NumDirEntries

/-- The entry `k` under `p` is a regular file. -/
def IsFile (t : FileTree) (p : List (List Byte)) (k : List Byte) : Prop :=
  ∃ n, t.node (p ++ [k]) = some (.file n)

/-- The entry `k` under `p` is an empty directory. -/
structure IsEmptyDir (t : FileTree) (p : List (List Byte)) (k : List Byte) : Prop where
  dir : t.node (p ++ [k]) = some .dir
  empty : t.entries (p ++ [k]) = ∅

omit [Config] in
/-- A regular file has no entries. -/
theorem IsFile.entries {t : FileTree} {p : List (List Byte)} {k : List Byte} (h : t.IsFile p k) :
    t.entries (p ++ [k]) = ∅ := by
  obtain ⟨n, hn⟩ := h
  apply t.entries_of_ne
  rw [hn]
  intro hdir
  cases hdir

/-- A call is allowed in the tree when the free map has `free` clear bits. -/
def Allowed (t : FileTree) (free : Nat) : Call → Prop
  | .create name size =>
      t.HasRoom (dirKeys name) (lastKey name) ∧ FileHeader.need size < free
  | .mkdir name =>
      t.HasRoom (dirKeys name) (lastKey name) ∧ FileHeader.need Directory.DirectoryFileSize < free
  | .remove name => t.IsFile (dirKeys name) (lastKey name)
  | .rmdir name => t.IsEmptyDir (dirKeys name) (lastKey name)

/-- The tree after a call that is allowed. -/
def after (t : FileTree) {free : Nat} : (c : Call) → t.Allowed free c → FileTree
  | .create name size, h =>
      NameTree.insert t (dirKeys name) (lastKey name) (.file size) h.1.parent h.1.absent
  | .mkdir name, h =>
      NameTree.insert t (dirKeys name) (lastKey name) .dir h.1.parent h.1.absent
  | .remove name, h => NameTree.erase t (dirKeys name) (lastKey name) h.entries
  | .rmdir name, h => NameTree.erase t (dirKeys name) (lastKey name) h.empty

theorem after_node (t : FileTree) {free : Nat} {c : Call} (h : t.Allowed free c) :
    (t.after c h).node =
      Function.update t.node (dirKeys c.path ++ [lastKey c.path]) c.node := by
  cases c with
  | create name size => rfl
  | mkdir name => rfl
  | remove name => rfl
  | rmdir name => rfl

end FileTree

/-! ## The tree on a sound disk -/

namespace Volume

variable {w : World} {E : Nat → Prop}

/-- A path that is in the tree ends in a sector of the disk, each path in its own. -/
theorem finite_tree (hV : Volume w E) : {p | treeOf w.disk p ≠ none}.Finite := by
  have hend : ∀ p, treeOf w.disk p ≠ none →
      ∃ s, Walk.walk (child w.disk) DirectorySector p = some s ∧ s < NUM_SECTORS := by
    intro p hp
    obtain ⟨n, hn⟩ := Option.ne_none_iff_exists'.mp hp
    obtain ⟨s, hs, -⟩ := walk_of_treeOf hn
    exact ⟨s, hs, (hV.inode ⟨p, hs⟩).lt (Owned.self_mem _ _)⟩
  apply Set.Finite.of_injOn
    (f := fun p => (Walk.walk (child w.disk) DirectorySector p).getD 0) (t := Set.Iio NUM_SECTORS)
  · intro p hp
    obtain ⟨s, hs, hlt⟩ := hend p hp
    show (Walk.walk (child w.disk) DirectorySector p).getD 0 < NUM_SECTORS
    rw [hs]
    exact hlt
  · intro p hp q hq he
    obtain ⟨s, hs, -⟩ := hend p hp
    obtain ⟨t, ht, -⟩ := hend q hq
    have hst : s = t := by simpa [hs, ht] using he
    exact hV.names.tree.path_unique hs (hst ▸ ht)
  · exact (Finset.range NUM_SECTORS).finite_toSet.subset fun s hs => by simpa using hs

/-- The tree of a sound disk. -/
def fileTree (hV : Volume w E) : FileTree where
  node := treeOf w.disk
  root := treeOf_of_walk (p := []) rfl ▸ congrArg some (nodeAt_eq_dir.mpr hV.names.root)
  parent _ _ h := treeOf_parent h
  finite := hV.finite_tree

/-- An unused slot of a directory is one entry fewer than it can have. -/
theorem slot_iff (hV : Volume w E) {p : List (List Byte)} (hdir : treeOf w.disk p = some .dir) :
    (∃ a, Walk.walk (child w.disk) DirectorySector p = some a ∧
      ∃ i < NumDirEntries, slotsAt w.disk a i = none) ↔
    (hV.fileTree.entries p).ncard < NumDirEntries := by
  obtain ⟨a, ha, hnode⟩ := walk_of_treeOf hdir
  have hdir' := nodeAt_eq_dir.mp hnode
  have hkeys : hV.fileTree.entries p =
      {k | Slots.lookup NumDirEntries (slotsAt w.disk a) k ≠ none} := by
    ext k
    show treeOf w.disk (p ++ [k]) ≠ none ↔ _
    rw [treeOf_concat k ha, child, if_pos hdir']
    simp
  rw [hkeys, ← Slots.exists_empty_iff (hV.names.dirs a ⟨p, ha⟩ hdir').distinct]
  constructor
  · rintro ⟨b, hb, hslot⟩
    obtain rfl : a = b := Option.some.inj (ha.symm.trans hb)
    exact hslot
  · intro hslot
    exact ⟨a, ha, hslot⟩

theorem canAdd_iff (hV : Volume w E) (name : List Byte) (size : Int) :
    CanAdd w.disk name size ↔ hV.fileTree.HasRoom (dirKeys name) (lastKey name) ∧
      FileHeader.need size < freeSectors w.disk := by
  constructor
  · intro h
    exact ⟨⟨h.parent, h.absent, (hV.slot_iff h.parent).mp h.slot⟩, h.space⟩
  · rintro ⟨h, hspace⟩
    exact ⟨h.parent, h.absent, (hV.slot_iff h.parent).mpr h.slot, hspace⟩

/-- What the code finds on the disk is what the tree allows. -/
theorem succeeds_iff (hV : Volume w E) (c : Call) :
    c.Succeeds w.disk ↔ hV.fileTree.Allowed (freeSectors w.disk) c := by
  cases c with
  | create name size => exact hV.canAdd_iff name size
  | mkdir name => exact hV.canAdd_iff name Directory.DirectoryFileSize
  | remove name => exact Iff.rfl
  | rmdir name =>
      show treeOf w.disk _ = some .dir ∧ (∀ k, _) ↔ _
      constructor
      · rintro ⟨hdir, hempty⟩
        exact ⟨hdir, Set.eq_empty_of_forall_notMem fun k hk => hk (hempty k)⟩
      · rintro ⟨hdir, hempty⟩
        refine ⟨hdir, fun k => ?_⟩
        by_contra hk
        exact Set.notMem_empty k (hempty ▸ hk)

end Volume

/-! ## The simulation -/

/-- The disk holds the tree, and every call does to the disk what it does to the tree. -/
structure Simulates (w : World) (t : FileTree) : Prop where
  tree : treeOf w.disk = t.node
  call : ∀ c : Call, c.Legal → ∃ e w', c.prog.run w = some (e, w') ∧
    (e = .NoError ↔ t.Allowed (freeSectors w.disk) c) ∧
    (∀ h : t.Allowed (freeSectors w.disk) c, treeOf w'.disk = (t.after c h).node) ∧
    (e ≠ .NoError → w'.disk = w.disk)

theorem Steady.simulates {w : World} (h : Steady w) : Simulates w h.volume.fileTree := by
  refine ⟨rfl, fun c hc => ?_⟩
  have hiff := h.volume.succeeds_iff c
  refine wp_call (Q := fun e w' =>
      (e = .NoError ↔ h.volume.fileTree.Allowed (freeSectors w.disk) c) ∧
      (∀ ha : h.volume.fileTree.Allowed (freeSectors w.disk) c,
        treeOf w'.disk = (h.volume.fileTree.after c ha).node) ∧
      (e ≠ .NoError → w'.disk = w.disk)) h.volume h.unlocked hc
    (fun e w' he hs hw => ?_) fun w' hs hd => ?_
  · have hna : ¬ h.volume.fileTree.Allowed (freeSectors w.disk) c := fun ha => hs (hiff.mpr ha)
    obtain ⟨k, rfl⟩ := hw
    exact ⟨iff_of_false he hna, fun ha => absurd ha hna, fun _ => rfl⟩
  · refine ⟨iff_of_true rfl (hiff.mp hs), fun ha => ?_, fun he => absurd rfl he⟩
    rw [FileTree.after_node]
    exact hd.tree

end Nachos
