/-
  Nachos.Filesys.Tree

  The tree of names that a disk holds, as a partial map from paths to nodes, and
  the two ways it changes: an entry is written to a directory for a new file, and
  the entry of a file or of an empty directory is erased.
-/

import Nachos.Filesys.Volume

namespace Nachos

open Words Program Config
open Directory (slotsAt)

/-- A node of the tree of names. -/
inductive Node
  | dir
  | file (length : Int)
  deriving DecidableEq

variable [Config]

/-- The node with the header at `s`. -/
def nodeAt (d : Disk) (s : Nat) : Node :=
  if intAt d s 0 = 1 then .dir else .file (intAt d s 1)

/-- The tree on the disk, a component of a path given by its key. -/
def treeOf (d : Disk) (p : List (List Byte)) : Option Node :=
  (Walk.walk (child d) DirectorySector p).map (nodeAt d)

omit [Config] in
theorem nodeAt_eq_dir {d : Disk} {s : Nat} : nodeAt d s = .dir ↔ intAt d s 0 = 1 := by
  unfold nodeAt
  split
  · simp [*]
  · simp [*]

theorem SameHeader.nodeAt {d d' : Disk} {s : Nat} (h : SameHeader d d' s) :
    nodeAt d' s = nodeAt d s := by
  rw [Nachos.nodeAt, Nachos.nodeAt, h.intAt, h.intAt]

theorem treeOf_of_walk {d : Disk} {p : List (List Byte)} {s : Nat}
    (h : Walk.walk (child d) DirectorySector p = some s) : treeOf d p = some (nodeAt d s) := by
  rw [treeOf, h, Option.map_some]

theorem treeOf_concat {d : Disk} {p : List (List Byte)} {s : Nat} (k : List Byte)
    (h : Walk.walk (child d) DirectorySector p = some s) :
    treeOf d (p ++ [k]) = (child d s k).map (nodeAt d) := by
  rw [treeOf, Walk.walk_concat, h, Option.bind_some]

/-- A path in the tree ends in a node that is reached. -/
theorem walk_of_treeOf {d : Disk} {p : List (List Byte)} {n : Node} (h : treeOf d p = some n) :
    ∃ s, Walk.walk (child d) DirectorySector p = some s ∧ nodeAt d s = n := by
  rw [treeOf, Option.map_eq_some_iff] at h
  exact h

/-- Only a directory has entries. -/
theorem treeOf_parent {d : Disk} {p : List (List Byte)} {k : List Byte}
    (h : treeOf d (p ++ [k]) ≠ none) : treeOf d p = some .dir := by
  cases hw : Walk.walk (child d) DirectorySector p with
  | none => exact absurd (by rw [treeOf, Walk.walk_concat, hw]; rfl) h
  | some s =>
      rw [treeOf_concat k hw] at h
      rw [treeOf_of_walk hw]
      by_cases hdir : intAt d s 0 = 1
      · rw [nodeAt_eq_dir.mpr hdir]
      · exact absurd (by rw [child, if_neg hdir]; rfl) h

/-! ## Writing an entry -/

section

variable {d d' : Disk} {a x i : Nat} {k : List Byte} {dir dir' : Directory}

/-- The disk `d'` is `d` with the table of the directory at `a` replaced: `dir` by
    `dir'`; the files in `L` have kept their headers, and their bytes but for the
    free map. -/
structure Rewrites (d d' : Disk) (L : Nat → Prop) (a : Nat) (dir dir' : Directory) : Prop where
  header : ∀ t, L t → SameHeader d d' t
  data : ∀ t, L t → t ≠ a → t ≠ FreeMapSector → SameData d d' t
  before : dir.Holds d a
  after : dir'.Holds d' a
  size : dir'.tableSize = dir.tableSize

theorem Rewrites.child_eq (h : Rewrites d d' (Reach d) a dir dir') (hn : Names d)
    (hi : ∀ s, Reach d s → Inode d s) {s : Nat} (hs : Reach d s) (hsa : s ≠ a) :
    child d' s = child d s := by
  have hs0 : s ≠ FreeMapSector := fun he => hn.notMap (he ▸ hs)
  exact child_congr (hi s hs) (h.header s hs) (h.data s hs hsa hs0) (hn.dirs s hs)

/-- An entry for the new file at `x` is written to the directory at `a`. -/
theorem Rewrites.link (h : Rewrites d d' (Reach d) a dir dir') (hn : Names d)
    (hi : ∀ s, Reach d s → Inode d s) (ha : Reach d a) (hdir : intAt d a 0 = 1)
    (hidx : i < dir.tableSize) (hfree : dir.slot i = none)
    (hnone : Slots.lookup dir.tableSize dir.slot k = none)
    (hslot : dir'.slot = Function.update dir.slot i (some (k, (x : Int))))
    (hfresh : ¬ Reach d x) (hmap : x ≠ FreeMapSector) (hleaf : ∀ l, child d' x l = none)
    (hxok : intAt d' x 0 = 1 → DirOk d' x) :
    Names d' ∧ Walk.Link (child d) (child d') DirectorySector a k x := by
  have hd : Slots.Distinct dir.tableSize dir.slot := by
    rw [h.before.tableSize]
    exact (hn.dirs a ha hdir).distinct.congr h.before.slot
  have hdir' : intAt d' a 0 = 1 := by rw [(h.header a ha).intAt]; exact hdir
  -- The new directory has one child more, and the others have what they had.
  have hlink : Walk.Link (child d) (child d') DirectorySector a k x := by
    refine ⟨?_, hfresh, ?_, hleaf, fun s hs hsa => h.child_eq hn hi hs hsa⟩
    · rw [child_of_holds hdir h.before, hnone, Option.map_none]
    · funext l
      rw [child_of_holds hdir' h.after, h.size, hslot, Slots.lookup_fill hd hnone hidx hfree]
      by_cases hlk : l = k
      · rw [hlk, Function.update_self, Function.update_self, Option.map_some, Int.toNat_natCast]
      · rw [Function.update_of_ne hlk, Function.update_of_ne hlk, child_of_holds hdir h.before]
  refine ⟨⟨?_, hlink.isTree hn.tree ha, fun s hs hsd => ?_, fun hs => ?_⟩, hlink⟩
  · rw [(h.header _ Walk.Reach.root).intAt]
    exact hn.root
  · rcases (hlink.reach hn.tree ha s).mp hs with hs | rfl
    · have hsd' : intAt d s 0 = 1 := by rw [← (h.header s hs).intAt]; exact hsd
      by_cases hsa : s = a
      · -- The directory that has been written.
        subst hsa
        have hok := hn.dirs s hs hdir
        refine dirOk_of_holds h.after ?_ ?_ fun j hj l y hy => ?_
        · rw [(h.header s hs).intAt]
          exact hok.length
        · rw [h.size, hslot]
          exact hd.fill hnone
        · rw [hslot] at hy
          by_cases hji : j = i
          · rw [hji, Function.update_self] at hy
            rw [← (Prod.mk.inj (Option.some.inj hy)).2]
            exact Int.natCast_nonneg x
          · rw [Function.update_of_ne hji] at hy
            rw [h.size, h.before.tableSize] at hj
            rw [h.before.slot j hj] at hy
            exact hok.sectors j hj l y hy
      · have hs0 : s ≠ FreeMapSector := fun he => hn.notMap (he ▸ hs)
        exact (hn.dirs s hs hsd').keep (hi s hs) (h.header s hs) (h.data s hs hsa hs0)
    · exact hxok hsd
  · rcases (hlink.reach hn.tree ha _).mp hs with hs | he
    · exact hn.notMap hs
    · exact hmap he.symm

/-- The entry of the leaf `x` is erased from the directory at `a`. -/
theorem Rewrites.unlink (h : Rewrites d d' (fun t => Reach d t ∧ t ≠ x) a dir dir') (hn : Names d)
    (hi : ∀ s, Reach d s → Inode d s) (ha : Reach d a) (hdir : intAt d a 0 = 1)
    (hidx : i < dir.tableSize) (hfull : dir.slot i = some (k, (x : Int)))
    (hslot : dir'.slot = Function.update dir.slot i none) (hleaf : ∀ l, child d x l = none) :
    Names d' ∧ Walk.Unlink (child d) (child d') DirectorySector a k x := by
  have hd : Slots.Distinct dir.tableSize dir.slot := by
    rw [h.before.tableSize]
    exact (hn.dirs a ha hdir).distinct.congr h.before.slot
  have hpresent : child d a k = some x := by
    rw [child_of_holds hdir h.before, Slots.lookup_of_slot hd hidx hfull, Option.map_some,
      Int.toNat_natCast]
  -- The leaf is not the directory that has its entry.
  have hax : a ≠ x := by
    rintro rfl
    rw [hleaf k] at hpresent
    cases hpresent
  have hdir' : intAt d' a 0 = 1 := by rw [(h.header a ⟨ha, hax⟩).intAt]; exact hdir
  have hothers : ∀ s, Reach d s → s ≠ a → s ≠ x → child d' s = child d s := by
    intro s hs hsa hsx
    have hs0 : s ≠ FreeMapSector := fun he => hn.notMap (he ▸ hs)
    exact child_congr (hi s hs) (h.header s ⟨hs, hsx⟩) (h.data s ⟨hs, hsx⟩ hsa hs0) (hn.dirs s hs)
  have hunlink : Walk.Unlink (child d) (child d') DirectorySector a k x := by
    refine ⟨hpresent, hleaf, ?_, hothers⟩
    funext l
    rw [child_of_holds hdir' h.after, h.size, hslot, Slots.lookup_empty hd hidx hfull]
    by_cases hlk : l = k
    · rw [hlk, Function.update_self, Function.update_self, Option.map_none]
    · rw [Function.update_of_ne hlk, Function.update_of_ne hlk, child_of_holds hdir h.before]
  refine ⟨⟨?_, hunlink.isTree hn.tree ha, fun s hs hsd => ?_, fun hs => ?_⟩, hunlink⟩
  · have hroot : DirectorySector ≠ x := by
      intro he
      exact hn.tree.root a k ha (he ▸ hpresent)
    rw [(h.header _ ⟨Walk.Reach.root, hroot⟩).intAt]
    exact hn.root
  · obtain ⟨hs, hsx⟩ := (hunlink.reach hn.tree ha s).mp hs
    have hh := h.header s ⟨hs, hsx⟩
    have hsd' : intAt d s 0 = 1 := by rw [← hh.intAt]; exact hsd
    by_cases hsa : s = a
    · subst hsa
      -- The directory that has been written.
      have hok := hn.dirs s hs hdir
      refine dirOk_of_holds h.after ?_ ?_ fun j hj l y hy => ?_
      · rw [hh.intAt]
        exact hok.length
      · rw [h.size, hslot]
        exact hd.empty
      · rw [hslot] at hy
        by_cases hji : j = i
        · rw [hji, Function.update_self] at hy
          cases hy
        · rw [Function.update_of_ne hji] at hy
          rw [h.size, h.before.tableSize] at hj
          rw [h.before.slot j hj] at hy
          exact hok.sectors j hj l y hy
    · have hs0 : s ≠ FreeMapSector := fun he => hn.notMap (he ▸ hs)
      exact (hn.dirs s hs hsd').keep (hi s hs) hh (h.data s ⟨hs, hsx⟩ hsa hs0)
  · exact hn.notMap ((hunlink.reach hn.tree ha _).mp hs).1

end

/-! ## The tree afterwards -/

/-- All paths but one lead where they led. -/
def SameWalks (d d' : Disk) (path : List (List Byte)) : Prop :=
  ∀ q, q ≠ path → Walk.walk (child d') DirectorySector q = Walk.walk (child d) DirectorySector q

theorem treeOf_link {d d' : Disk} {a x : Nat} {k : List Byte} {p : List (List Byte)}
    (hl : Walk.Link (child d) (child d') DirectorySector a k x) (hn : Names d)
    (hp : Walk.walk (child d) DirectorySector p = some a)
    (hh : ∀ t, Reach d t → SameHeader d d' t) :
    treeOf d' = Function.update (treeOf d) (p ++ [k]) (some (nodeAt d' x)) := by
  funext q
  rw [treeOf, hl.walk hn.tree hp]
  by_cases hq : q = p ++ [k]
  · rw [hq, Function.update_self, Function.update_self, Option.map_some]
  · rw [Function.update_of_ne hq, Function.update_of_ne hq, treeOf]
    cases hw : Walk.walk (child d) DirectorySector q with
    | none => rw [Option.map_none, Option.map_none]
    | some s => rw [Option.map_some, Option.map_some, (hh s ⟨q, hw⟩).nodeAt]

theorem treeOf_unlink {d d' : Disk} {a x : Nat} {k : List Byte} {p : List (List Byte)}
    (hl : Walk.Unlink (child d) (child d') DirectorySector a k x) (hn : Names d)
    (hp : Walk.walk (child d) DirectorySector p = some a)
    (hh : ∀ t, Reach d t → t ≠ x → SameHeader d d' t) :
    treeOf d' = Function.update (treeOf d) (p ++ [k]) none := by
  have hold : Walk.walk (child d) DirectorySector (p ++ [k]) = some x := by
    rw [Walk.walk_concat, hp, Option.bind_some, hl.present]
  funext q
  rw [treeOf, hl.walk hn.tree hp]
  by_cases hq : q = p ++ [k]
  · rw [hq, Function.update_self, Function.update_self, Option.map_none]
  · rw [Function.update_of_ne hq, Function.update_of_ne hq, treeOf]
    cases hw : Walk.walk (child d) DirectorySector q with
    | none => rw [Option.map_none, Option.map_none]
    | some s =>
        have hsx : s ≠ x := by
          rintro rfl
          exact hq (hn.tree.path_unique hw hold)
        rw [Option.map_some, Option.map_some, (hh s ⟨q, hw⟩ hsx).nodeAt]

end Nachos
