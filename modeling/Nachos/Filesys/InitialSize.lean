/-
  Nachos.Filesys.InitialSize

  The size given to `Create`.  It comes from a register of the user program and reaches
  `Allocate` unchecked: there a size that no file can have fails an assertion, and a
  negative one is stored as the length of the file.
-/

import Nachos.Filesys.Calls

namespace Nachos

open Words Program Config

variable [Config]

/-- The header that an added file has. -/
theorem Added.header {w w' : World} {E : Nat → Prop} {name : List Byte} {size : Int}
    (h : Added w w' E name (.file size)) :
    ∃ x : Nat, Walk.walk (child w'.disk) DirectorySector (dirKeys name ++ [lastKey name]) = some x ∧
      intAt w'.disk x 1 = size ∧ intAt w'.disk x 1 ≤ intAt w'.disk x 2 * SectorSize := by
  have htree : treeOf w'.disk (dirKeys name ++ [lastKey name]) = some (.file size) := by
    rw [h.tree, Function.update_self]
  obtain ⟨x, hx, hnode⟩ := walk_of_treeOf htree
  have hle := (h.volume.inode ⟨_, hx⟩).length_le
  refine ⟨x, hx, ?_, hle⟩
  unfold nodeAt at hnode
  split at hnode
  · cases hnode
  · exact Node.file.inj hnode

/-- A file without bytes needs no sectors beside its header; the same goes for a negative
    size. -/
theorem FileHeader.need_of_nonpos {size : Int} (h : size ≤ 0) : FileHeader.need size = 0 := by
  have hns : FileHeader.sectorsFor size ≤ 0 :=
    divRoundUp_nonpos SectorSize_pos_int h
  have hnh := FileHeader.headersFor_nonpos hns
  unfold FileHeader.need
  omega

namespace FileSystem

/-- What a call of `Create` is meant to leave: nobody holds the lock, and a file that has been
    created has the length that was asked for, and the sectors for it. -/
structure CreateReturns (name : List Byte) (size : Int) (e : MsgError) (w : World) : Prop where
  unlocked : w.createLock = false
  header : e = .NoError → ∃ x : Nat,
    Walk.walk (child w.disk) DirectorySector (dirKeys name ++ [lastKey name]) = some x ∧
      intAt w.disk x 1 = size ∧ 0 ≤ intAt w.disk x 1 ∧
      intAt w.disk x 1 ≤ intAt w.disk x 2 * SectorSize

/-- The size is one that a file can have. -/
def FileSize (size : Int) : Prop := 0 ≤ size ∧ size ≤ MAX_FILE_LENGTH

variable {w : World} {E : Nat → Prop} {name : List Byte} {size : Int}

/-- The path has been copied to an array. -/
theorem create_fits {Q : MsgError → World → Prop} (h : Prog.wp (create name size) Q w) :
    name.length < MaxFileNameSize := by
  unfold create acquire copyName at h
  simp only [Prog.wp_bind, Prog.wp_read, Prog.wp_assert, Prog.wp_modify] at h
  exact h.2.1

/-- The assertion of `Allocate`. -/
theorem storeFile_size {Q : MsgError → World → Prop} {entry : NewEntry}
    (h : Prog.wp (storeFile entry size) Q w) : size ≤ MAX_FILE_LENGTH := by
  unfold storeFile FileHeader.create FileHeader.allocate at h
  simp only [Prog.wp_bind, wp_newArray, Prog.wp_pure, Prog.wp_assert] at h
  obtain ⟨hsize, -⟩ := h
  exact hsize

/-- A call that passes the checks reaches that assertion. -/
theorem create_size {Q : MsgError → World → Prop} (hV : Volume w E) (hlock : w.createLock = false)
    (hc : CanEnter w.disk name) (h : Prog.wp (create name size) Q w) : size ≤ MAX_FILE_LENGTH := by
  have hname := create_fits h
  rw [wp_create_iff] at h
  have hchecks := wp_newEntry (Q := fun r _ => ∀ e, r = .error e → ¬ CanEnter w.disk name) hV hlock
    hname (fun e k _ hnot e' _ => hnot) fun entry a x i dir m k _ e' he => nomatch he
  obtain ⟨r, w', -, hrest, hr⟩ := Prog.wp_and h hchecks
  cases r with
  | error e => exact absurd hc (hr e rfl)
  | ok entry => exact storeFile_size hrest

/-- A call that fails a check has written nothing, whatever the size. -/
theorem wp_create_refused {Q : MsgError → World → Prop} (hV : Volume w E)
    (hlock : w.createLock = false) (hname : name.length < MaxFileNameSize)
    (hc : ¬ CanEnter w.disk name) (hfail : ∀ e w', e ≠ .NoError → OnlyAllocs w w' → Q e w') :
    Prog.wp (create name size) Q w := by
  rw [wp_create_iff]
  refine wp_newEntry hV hlock hname (fun e k he _ => ?_) fun entry a x i dir m k he => ?_
  · unfold refuse release
    simp only [Prog.wp_bind, Prog.wp_modify, Prog.wp_pure]
    exact hfail e _ he ⟨k, unlock hlock k⟩
  · exact absurd he.canEnter hc

end FileSystem

/-! ## A formatted disk -/

/-- On a formatted disk only the root is reached. -/
theorem Formatted.reach {w : World} (h : Formatted w) {s : Nat} (hs : Reach w.disk s) :
    s = DirectorySector := by
  obtain ⟨p, hp⟩ := hs
  have htree := treeOf_of_walk hp
  rw [h.steady.2, emptyTree, Function.update_apply] at htree
  split at htree
  · rename_i hnil
    subst hnil
    exact (Option.some.inj hp).symm
  · cases htree

/-- The sectors of a file are a header sector, a chain and a table. -/
theorem Inode.footprint_length {d : Disk} {s : Nat} (h : Inode d s) :
    (footprint d s).length ≤ 32 + MAX_DATA_SECTORS := by
  have hc := h.contCount_le
  have hd := h.dataCount_le
  have hlen : (footprint d s).length = contCount d s + dataCount d s + 1 := by
    simp [footprint, conts, datas]
  unfold contCount dataCount at hlen
  omega

/-- Two files cannot fill a disk of this size. -/
theorem Formatted.lt_freeSectors {w : World} (h : Formatted w) {n : Nat}
    (hsize : 2 * (32 + MAX_DATA_SECTORS) + n < NUM_SECTORS) : n < freeSectors w.disk := by
  have hV := h.steady.1.volume
  have hmap := (hV.owned.inode _ hV.owned.map).footprint_length
  have hroot := (hV.inode Walk.Reach.root).footprint_length
  -- The sectors that are marked are those of the map and of the root.
  have hsub : (List.range NUM_SECTORS).filter (mapBit w.disk) ⊆
      footprint w.disk FreeMapSector ++ footprint w.disk DirectorySector := by
    intro u hu
    obtain ⟨hlt, hset⟩ := List.mem_filter.mp hu
    obtain ⟨s, hs, hmem⟩ := (hV.marks u (List.mem_range.mp hlt)).mp hset
    rw [List.mem_append]
    rcases hs with rfl | hs | hs
    · exact Or.inl hmem
    · exact Or.inr (h.reach hs ▸ hmem)
    · exact hs.elim
  have hle := ((List.nodup_range.filter _).subperm hsub).length_le
  rw [List.length_append, ← List.countP_eq_length_filter] at hle
  have hsum := List.length_eq_countP_add_countP (mapBit w.disk) (l := List.range NUM_SECTORS)
  have hfree : freeSectors w.disk =
      (List.range NUM_SECTORS).countP fun i => decide ¬ mapBit w.disk i = true := by
    unfold freeSectors
    exact List.countP_congr fun i _ => by simp
  rw [List.length_range, ← hfree] at hsum
  omega

/-- A name in the root of a formatted disk can be entered. -/
theorem Formatted.canEnter {w : World} (h : Formatted w) {name : List Byte}
    (hname : dirKeys name = []) (hsize : 2 * (32 + MAX_DATA_SECTORS) < NUM_SECTORS)
    (hslots : 0 < NumDirEntries) : CanEnter w.disk name := by
  have hV := h.steady.1.volume
  have hroot : Walk.walk (child w.disk) DirectorySector [] = some DirectorySector := rfl
  have hok := hV.names.dirs _ Walk.Reach.root hV.names.root
  refine ⟨?_, ?_, ⟨DirectorySector, by rw [hname, hroot], 0, hslots, ?_⟩, h.lt_freeSectors hsize⟩
  · rw [hname, treeOf_of_walk hroot, nodeAt_eq_dir.mpr hV.names.root]
  · rw [hname, h.steady.2, emptyTree, Function.update_of_ne (by simp)]
  · cases hslot : Directory.slotsAt w.disk DirectorySector 0 with
    | none => rfl
    | some entry =>
        -- An entry in use leads to a node below the root.
        have hlook := Slots.lookup_of_slot hok.distinct hslots hslot
        have hchild : child w.disk DirectorySector entry.1 = some entry.2.toNat := by
          rw [child, if_pos hV.names.root, hlook, Option.map_some]
        have htree := treeOf_concat entry.1 hroot
        rw [h.steady.2, hchild, emptyTree, Function.update_of_ne (by simp)] at htree
        cases htree

namespace FileSystem

end FileSystem

end Nachos
