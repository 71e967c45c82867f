/-
  Nachos.Filesys.Space

  The sectors of the disk, counted.  Each is clear, or one of the file that holds the free
  map, or one of exactly one node of the tree; and a node has the sectors that its length
  needs.  So the tree alone says how many sectors are clear, and none is ever lost.
-/

import Mathlib.Algebra.BigOperators.Group.Finset.Basic
import Nachos.Filesys.Refinement

namespace Nachos

open Words Program Config
open Transition (Run)

variable [Config]

/-! ## Counting -/

omit [Config] in
/-- The numbers below `n` where `f` is false, and those where it is true. -/
theorem countP_add_card (n : Nat) (f : Nat → Bool) :
    (List.range n).countP (fun i => !f i) + ((Finset.range n).filter fun i => f i = true).card =
      n := by
  have hcard : ((Finset.range n).filter fun i => f i = true).card = (List.range n).countP f := by
    rw [List.countP_eq_length_filter, ← List.toFinset_card_of_nodup (List.nodup_range.filter _)]
    congr 1
    ext i
    simp
  have hsum := List.length_eq_countP_add_countP f (l := List.range n)
  have hnot : (List.range n).countP (fun i => !f i) =
      (List.range n).countP fun i => decide ¬ f i = true :=
    List.countP_congr fun i _ => by simp
  rw [List.length_range] at hsum
  omega

/-- The header that a path leads to. -/
def sectorAt (d : Disk) (p : List (List Byte)) : Nat :=
  (Walk.walk (child d) DirectorySector p).getD 0

theorem walk_sectorAt {d : Disk} {p : List (List Byte)} (h : treeOf d p ≠ none) :
    Walk.walk (child d) DirectorySector p = some (sectorAt d p) := by
  obtain ⟨n, hn⟩ := Option.ne_none_iff_exists'.mp h
  obtain ⟨s, hs, -⟩ := walk_of_treeOf hn
  rw [sectorAt, hs, Option.getD_some]

theorem Inode.card_footprint {d : Disk} {s : Nat} (h : Inode d s) :
    (footprint d s).toFinset.card = (footprint d s).length := List.toFinset_card_of_nodup h.nodup

/-- Every sector is clear, or in the free-map file, or in one file of the tree. -/
theorem Volume.sectors_counted {w : World} (hV : Volume w noneRemoved) :
    freeSectors w.disk + (footprint w.disk FreeMapSector).length +
      ∑ p ∈ hV.finite_tree.toFinset, (footprint w.disk (sectorAt w.disk p)).length =
        NUM_SECTORS := by
  have hwalk : ∀ p ∈ hV.finite_tree.toFinset,
      Walk.walk (child w.disk) DirectorySector p = some (sectorAt w.disk p) := fun p hp =>
    walk_sectorAt (hV.finite_tree.mem_toFinset.mp hp)
  have hreach : ∀ p ∈ hV.finite_tree.toFinset, Reach w.disk (sectorAt w.disk p) := fun p hp =>
    ⟨p, hwalk p hp⟩
  -- Two paths lead to two headers, and these have no sector in common.
  have hdisj : (hV.finite_tree.toFinset : Set (List (List Byte))).PairwiseDisjoint fun p =>
      (footprint w.disk (sectorAt w.disk p)).toFinset := by
    intro p hp q hq hpq
    refine Finset.disjoint_left.mpr fun u hu hu' => hpq ?_
    have hs := hV.owned.apart _ _ u (Volume.live (hreach p hp)) (Volume.live (hreach q hq))
      (List.mem_toFinset.mp hu) (List.mem_toFinset.mp hu')
    exact hV.names.tree.path_unique (hwalk p hp) (hs ▸ hwalk q hq)
  have hmap : Disjoint (footprint w.disk FreeMapSector).toFinset
      (hV.finite_tree.toFinset.biUnion fun p =>
        (footprint w.disk (sectorAt w.disk p)).toFinset) := by
    refine Finset.disjoint_left.mpr fun u hu hu' => ?_
    obtain ⟨p, hp, hu'⟩ := Finset.mem_biUnion.mp hu'
    have hs := hV.owned.apart _ _ u hV.owned.map (Volume.live (hreach p hp))
      (List.mem_toFinset.mp hu) (List.mem_toFinset.mp hu')
    exact hV.names.notMap (hs ▸ hreach p hp)
  have hmarked : (Finset.range NUM_SECTORS).filter (fun i => mapBit w.disk i = true) =
      (footprint w.disk FreeMapSector).toFinset ∪ hV.finite_tree.toFinset.biUnion fun p =>
        (footprint w.disk (sectorAt w.disk p)).toFinset := by
    ext u
    rw [Finset.mem_filter, Finset.mem_range, Finset.mem_union, Finset.mem_biUnion,
      List.mem_toFinset]
    constructor
    · rintro ⟨hlt, hu⟩
      obtain ⟨s, rfl | ⟨p, hp⟩ | hs, hu⟩ := (hV.marks u hlt).mp hu
      · exact Or.inl hu
      · refine Or.inr ⟨p, ?_, ?_⟩
        · rw [Set.Finite.mem_toFinset]
          show treeOf w.disk p ≠ none
          rw [treeOf_of_walk hp]
          exact Option.some_ne_none _
        · rw [sectorAt, hp, Option.getD_some]
          exact List.mem_toFinset.mpr hu
      · exact hs.elim
    · have hin : ∀ s, Live w.disk noneRemoved s → u ∈ footprint w.disk s →
          u < NUM_SECTORS ∧ mapBit w.disk u = true := fun s hs hu =>
        have hlt := (hV.owned.inode s hs).lt hu
        ⟨hlt, (hV.marks u hlt).mpr ⟨s, hs, hu⟩⟩
      rintro (hu | ⟨p, hp, hu⟩)
      · exact hin _ hV.owned.map hu
      · exact hin _ (Volume.live (hreach p hp)) (List.mem_toFinset.mp hu)
  have hcount := countP_add_card NUM_SECTORS (mapBit w.disk)
  change freeSectors w.disk + _ = _ at hcount
  rw [hmarked, Finset.card_union_of_disjoint hmap, Finset.card_biUnion hdisj,
    (hV.owned.inode _ hV.owned.map).card_footprint] at hcount
  rw [Finset.sum_congr rfl fun p hp => (hV.inode (hreach p hp)).card_footprint] at hcount
  omega

/-! ## What a length needs -/

/-- The sectors of a file of `length` bytes, its headers among them. -/
def cells (length : Int) : Nat := 1 + FileHeader.need length

/-- A header with the numbers of its length. -/
theorem SizedAt.length_footprint {d : Disk} {s : Nat} {size : Int} (h : SizedAt d s size) :
    (footprint d s).length = cells size := by
  have hlen : (footprint d s).length = contCount d s + dataCount d s + 1 := by
    simp [footprint, conts, datas]
  rw [hlen, contCount, dataCount, h.numHeaderSectors, h.numSectors, cells, FileHeader.need]
  omega

/-- Every header has the numbers of its length, which is not negative. -/
structure Tight (d : Disk) : Prop where
  map : SizedAt d FreeMapSector FreeMapFileSize
  node : ∀ s, Reach d s → SizedAt d s (intAt d s 1) ∧ 0 ≤ intAt d s 1

/-- The length of a node. -/
def Node.length : Node → Int
  | .dir => Directory.DirectoryFileSize
  | .file n => n

theorem Volume.nodeAt_length {w : World} {E : Nat → Prop} (hV : Volume w E) {s : Nat}
    (hs : Reach w.disk s) : (nodeAt w.disk s).length = intAt w.disk s 1 := by
  unfold nodeAt
  split
  · rename_i hdir
    exact (hV.names.dirs s hs hdir).length.symm
  · rfl

/-- The tree says how many sectors are clear. -/
theorem Volume.space {w : World} (hV : Volume w noneRemoved) (ht : Tight w.disk) :
    freeSectors w.disk + cells FreeMapFileSize +
      ∑ p ∈ hV.finite_tree.toFinset, ((treeOf w.disk p).map fun n => cells n.length).getD 0 =
        NUM_SECTORS := by
  have hcount := hV.sectors_counted
  rw [ht.map.length_footprint] at hcount
  rw [← hcount]
  congr 1
  refine Finset.sum_congr rfl fun p hp => ?_
  have hwalk := walk_sectorAt (hV.finite_tree.mem_toFinset.mp hp)
  have hs : Reach w.disk (sectorAt w.disk p) := ⟨p, hwalk⟩
  rw [treeOf_of_walk hwalk, Option.map_some, Option.getD_some, hV.nodeAt_length hs,
    (ht.node _ hs).1.length_footprint]

end Nachos
