/-
  Nachos.Filesys.Deferred

  The removal of a file in two steps.  `OpenFileTable::Remove` of an open file takes its
  entry out of the directory and leaves its sectors marked; the destructor of the table
  entry clears them after the last `Close`.  In between the file is one of the removed
  files of the volume.
-/

import Nachos.Filesys.RemoveSpec
import Nachos.Filesys.OfTable

namespace Nachos

open Words Program Config

variable [Config]

namespace Volume

variable {w w' : World} {E : Nat → Prop} {x : Nat} {path : List (List Byte)}

/-- A volume is the disk and the two handles that are always open. -/
theorem of_eq (hV : Volume w E) (hd : w'.disk = w.disk) (hm : w'.freeMapFile = w.freeMapFile)
    (hr : w'.directoryFile = w.directoryFile) : Volume w' E := by
  obtain ⟨ho, hn, hb, he, hl, hl'⟩ := hV
  rw [← hd] at ho hn hb he hl hl'
  rw [← hm] at hl
  rw [← hr] at hl'
  exact ⟨ho, hn, hb, he, hl, hl'⟩

theorem congr {E' : Nat → Prop} (hV : Volume w E) (he : ∀ s, E' s ↔ E s) : Volume w E' := by
  rwa [show E' = E from funext fun s => propext (he s)]

/-- The entry of an open file is gone; its sectors are still in use. -/
theorem unlinked (hV : Volume w E) (hu : Unlinked w w' E x path)
    (hbits : ∀ j < NUM_SECTORS, mapBit w'.disk j = mapBit w.disk j) :
    Volume w' fun s => E s ∨ s = x := by
  have hx := hu.reached
  have hl : ∀ s, Live w'.disk (fun s => E s ∨ s = x) s ↔ Live w.disk E s := by
    intro s
    rw [Live, hu.reach, Live]
    constructor
    · rintro (h | h | h | rfl)
      · exact Or.inl h
      · exact Or.inr (Or.inl h.1)
      · exact Or.inr (Or.inr h)
      · exact Or.inr (Or.inl hx)
    · rintro (h | h | h)
      · exact Or.inl h
      · by_cases hsx : s = x
        · exact Or.inr (Or.inr (Or.inr hsx))
        · exact Or.inr (Or.inl ⟨h, hsx⟩)
      · exact Or.inr (Or.inr (Or.inl h))
  obtain ⟨hmap, hroot⟩ := hV.handles hu.onlyDisk hu.header
  refine ⟨(hV.owned.keep hu.header).congr hl, hu.names, ?_, ?_, hmap, hroot⟩
  · have hm := (hV.marks.keep hV.owned hu.header).congr hl
    intro j hj
    rw [hbits j hj]
    exact hm j hj
  · rintro s (hs | rfl)
    · exact ⟨(hV.removed s hs).1, fun hs' => (hV.removed s hs).2 ((hu.reach s).mp hs').1⟩
    · exact ⟨fun he => hV.names.notMap (he ▸ hx), fun hs' => ((hu.reach s).mp hs').2 rfl⟩

/-- Where all but the bytes of the free map are kept, the tree is. -/
theorem kept (hV : Volume w E)
    (hk : Keeps w.disk w'.disk (Live w.disk E) (· = FreeMapSector)) :
    Names w'.disk ∧ (∀ s, Reach w'.disk s ↔ Reach w.disk s) ∧
      ∀ p, Walk.walk (child w'.disk) DirectorySector p =
        Walk.walk (child w.disk) DirectorySector p := by
  have hdata : ∀ s, Reach w.disk s → SameHeader w.disk w'.disk s ∧ SameData w.disk w'.disk s := by
    intro s hs
    have h := hk s (live hs)
    exact ⟨h.1, h.2 fun he => hV.names.notMap (he ▸ hs)⟩
  have hchild : ∀ s, Reach w.disk s → child w'.disk s = child w.disk s := fun s hs =>
    child_congr (hV.inode hs) (hdata s hs).1 (hdata s hs).2 (hV.names.dirs s hs)
  have hwalk : ∀ p, Walk.walk (child w'.disk) DirectorySector p =
      Walk.walk (child w.disk) DirectorySector p := Walk.walk_congr hchild
  have hreach : ∀ s, Reach w'.disk s ↔ Reach w.disk s := by
    intro s
    constructor
    · rintro ⟨p, hp⟩
      exact ⟨p, (hwalk p).symm.trans hp⟩
    · rintro ⟨p, hp⟩
      exact ⟨p, (hwalk p).trans hp⟩
  have hisdir : ∀ s, Reach w.disk s → intAt w'.disk s 0 = intAt w.disk s 0 := fun s hs =>
    (hdata s hs).1.intAt 0
  refine ⟨⟨?_, hV.names.tree.congr hchild, fun s hs hdir => ?_, fun hs => ?_⟩, hreach, hwalk⟩
  · rw [hisdir _ Walk.Reach.root]
    exact hV.names.root
  · have hs' := (hreach s).mp hs
    rw [hisdir s hs'] at hdir
    exact (hV.names.dirs s hs' hdir).keep (hV.inode hs') (hdata s hs').1 (hdata s hs').2
  · exact hV.names.notMap ((hreach _).mp hs)

/-- The sectors of a removed file are given back. -/
theorem freed (hV : Volume w E) (hx : E x) (hw : OnlyDisk w w')
    (hk : Keeps w.disk w'.disk (Live w.disk E) (· = FreeMapSector))
    (hbits : ∀ j < NUM_SECTORS,
      mapBit w'.disk j = (mapBit w.disk j && decide (j ∉ footprint w.disk x))) :
    Volume w' (fun s => E s ∧ s ≠ x) ∧
      ∀ p, Walk.walk (child w'.disk) DirectorySector p =
        Walk.walk (child w.disk) DirectorySector p := by
  obtain ⟨hnames, hreach, hwalk⟩ := hV.kept hk
  have hl : ∀ s, Live w'.disk (fun s => E s ∧ s ≠ x) s ↔ Live w.disk E s ∧ s ≠ x := by
    intro s
    rw [Live, hreach, Live]
    constructor
    · rintro (h | h | h)
      · exact ⟨Or.inl h, fun he => (hV.removed x hx).1 (he.symm.trans h)⟩
      · refine ⟨Or.inr (Or.inl h), ?_⟩
        rintro rfl
        exact (hV.removed s hx).2 h
      · exact ⟨Or.inr (Or.inr h.1), h.2⟩
    · rintro ⟨h | h | h, hsx⟩
      · exact Or.inl h
      · exact Or.inr (Or.inl h)
      · exact Or.inr (Or.inr ⟨h, hsx⟩)
  have hh : ∀ t, Live w.disk E t → SameHeader w.disk w'.disk t := fun t ht => (hk t ht).1
  obtain ⟨hmap, hroot⟩ := hV.handles hw hh
  refine ⟨⟨?_, hnames, ?_, fun s hs => ⟨(hV.removed s hs.1).1, fun hs' => ?_⟩, hmap, hroot⟩, hwalk⟩
  · have h0 : Live w'.disk (fun s => E s ∧ s ≠ x) FreeMapSector := Or.inl rfl
    exact (hV.owned.keep hh).subset (fun s hs => ((hl s).mp hs).1) h0
  · have hm := (hV.marks.erase hV.owned (Or.inr (Or.inr hx)) hbits).congr hl
    intro j hj
    rw [hm j hj]
    refine exists_congr fun s => and_congr_right fun hs => ?_
    rw [(hh s ((hl s).mp hs).1).footprint (hV.owned.inode s ((hl s).mp hs).1)]
  · exact (hV.removed s hs.1).2 ((hreach s).mp hs')

end Volume

/-! ## The destructor of an entry -/

/-- What a call leaves of the files that it does not free. -/
structure Frees (w w' : World) (E : Nat → Prop) (x : Nat) : Prop where
  onlyDisk : OnlyDisk w w'
  volume : Volume w' fun s => E s ∧ s ≠ x
  walk : ∀ p, Walk.walk (child w'.disk) DirectorySector p =
    Walk.walk (child w.disk) DirectorySector p
  keeps : Keeps w.disk w'.disk (Live w.disk E) (· = FreeMapSector)

/-- The destructor of a marked entry clears the sectors of its file. -/
theorem OpenFileTableEntry.wp_delete {e : OpenFileTableEntry} {w : World} {E : Nat → Prop} {x : Nat}
    {Q : Unit → World → Prop} (hV : Volume w E) (hmark : e.ToBeDeleted = true)
    (hs : e.sector = (x : Int)) (hx : E x) (hl : Loaded w.disk x e.file.hdr)
    (hQ : ∀ w', Frees w w' E x → Q () w') : Prog.wp e.delete Q w := by
  unfold OpenFileTableEntry.delete
  rw [if_pos hmark, Prog.wp_bind]
  refine BitMap.wp_fetchFreeMap hV.mapFile fun m w₁ hm hw₁ => ?_
  obtain ⟨k₁, rfl⟩ := hw₁
  obtain ⟨m₁, m₂, hdealloc, hclear, hnum, hcleared⟩ := hV.clears (Or.inr (Or.inr hx)) hm hl
  simp only [Prog.wp_bind, Prog.wp_ofOption, hs]
  refine ⟨m₁, hdealloc, m₂, hclear, ?_⟩
  refine BitMap.wp_writeBack (w := { w with allocs := k₁ }) hV.mapFile hnum fun d k₂ ho hbits => ?_
  have hk := hV.owned.keeps hV.owned.map ho
  have hw : OnlyDisk w { w with disk := d, allocs := k₂ } := ⟨d, k₂, rfl⟩
  obtain ⟨hV', hwalk⟩ := hV.freed hx hw hk fun j hj =>
    (hbits j hj).trans (hcleared j hj)
  exact hQ _ ⟨hw, hV', hwalk, hk⟩

end Nachos
