/-
  Nachos.Filesys.Volume

  The whole disk: the directories as a graph of header sectors, the files that
  are live (the free-map file, what is reached from the root, and files that have
  been removed while they were open), their sectors, each in one of them, and the
  free map.
-/

import Nachos.Filesys.DirectorySpec
import Nachos.Lib.Walk

namespace Nachos

open Words Program Config
open Directory (slotsAt)

variable [Config]

/-! ## The graph of directories -/

/-- The sector of the entry with key `k` in the directory at `s`. -/
def child (d : Disk) (s : Nat) (k : List Byte) : Option Nat :=
  if intAt d s 0 = 1 then (Slots.lookup NumDirEntries (slotsAt d s) k).map Int.toNat else none

/-- What is reached from the root. -/
abbrev Reach (d : Disk) (s : Nat) : Prop := Walk.Reach (child d) DirectorySector s

/-- The directory at `s` is sound. -/
structure DirOk (d : Disk) (s : Nat) : Prop where
  length : intAt d s 1 = Directory.DirectoryFileSize
  distinct : Slots.Distinct NumDirEntries (slotsAt d s)
  sectors : ∀ i < NumDirEntries, ∀ k x, slotsAt d s i = some (k, x) → 0 ≤ x

/-- The directories form a tree of sound directories. -/
structure Names (d : Disk) : Prop where
  root : intAt d DirectorySector 0 = 1
  tree : Walk.IsTree (child d) DirectorySector
  dirs : ∀ s, Reach d s → intAt d s 0 = 1 → DirOk d s
  notMap : ¬ Reach d FreeMapSector

/-- The headers whose sectors are in use; `E` are the files removed while open. -/
def Live (d : Disk) (E : Nat → Prop) (s : Nat) : Prop := s = FreeMapSector ∨ Reach d s ∨ E s

/-- The files of `L` are sound and share no sector. -/
structure Owned (d : Disk) (L : Nat → Prop) : Prop where
  inode : ∀ s, L s → Inode d s
  apart : ∀ s t u, L s → L t → u ∈ footprint d s → u ∈ footprint d t → s = t
  map : L FreeMapSector
  mapLength : intAt d FreeMapSector 1 = FreeMapFileSize

/-- The bits are those of the sectors of `L`. -/
def Marks (bits : Nat → Bool) (d : Disk) (L : Nat → Prop) : Prop :=
  ∀ i < NUM_SECTORS, bits i = true ↔ ∃ s, L s ∧ i ∈ footprint d s

/-- The bytes of the file at `s` have not changed. -/
def SameData (d d' : Disk) (s : Nat) : Prop := ∀ u ∈ datas d s, d' u = d u

/-! ## What a write keeps -/

namespace Owned

variable {d d' : Disk} {L L' : Nat → Prop} {s t : Nat}

theorem self_mem (d : Disk) (s : Nat) : s ∈ footprint d s := mem_footprint.mpr (Or.inl rfl)

theorem header_mem {u : Nat} (hu : u = s ∨ u ∈ conts d s) : u ∈ footprint d s :=
  mem_footprint.mpr (hu.imp_right Or.inl)

theorem data_mem {u : Nat} (hu : u ∈ datas d s) : u ∈ footprint d s :=
  mem_footprint.mpr (Or.inr (Or.inr hu))

/-- A write to the data sectors of one file keeps all headers. -/
theorem sameHeader (h : Owned d L) (hs : L s) (ho : OnlyData d d' s) (ht : L t) :
    SameHeader d d' t := by
  intro u hu
  refine ho u fun hd => ?_
  obtain rfl := h.apart t s u ht hs (header_mem hu) (data_mem hd)
  exact (h.inode t ht).header_not_data hu hd

/-- It keeps the bytes of the other files. -/
theorem sameData (h : Owned d L) (hs : L s) (ho : OnlyData d d' s) (ht : L t) (hts : t ≠ s) :
    SameData d d' t := fun u hu =>
  ho u fun hd => hts (h.apart t s u ht hs (data_mem hu) (data_mem hd))

/-- Where the headers are kept, so are the sectors. -/
theorem keep (h : Owned d L) (hs : ∀ s, L s → SameHeader d d' s) : Owned d' L := by
  refine ⟨fun s hl => (hs s hl).inode (h.inode s hl), fun s t u hl hl' hu hu' => ?_, h.map, ?_⟩
  · rw [(hs s hl).footprint (h.inode s hl)] at hu
    rw [(hs t hl').footprint (h.inode t hl')] at hu'
    exact h.apart s t u hl hl' hu hu'
  · rw [(hs _ h.map).intAt]
    exact h.mapLength

theorem subset (h : Owned d L) (hsub : ∀ s, L' s → L s) (hm : L' FreeMapSector) : Owned d L' :=
  ⟨fun s hs => h.inode s (hsub s hs), fun s t u hs ht => h.apart s t u (hsub s hs) (hsub t ht),
    hm, h.mapLength⟩

/-- A new file on sectors that no other file has. -/
theorem insert {x : Nat} (h : Owned d L) (hi : Inode d x)
    (hfresh : ∀ u ∈ footprint d x, ∀ s, L s → u ∉ footprint d s) :
    Owned d fun s => L s ∨ s = x := by
  refine ⟨?_, ?_, Or.inl h.map, h.mapLength⟩
  · rintro s (hs | rfl)
    · exact h.inode s hs
    · exact hi
  · rintro s t u (hs | rfl) (ht | rfl) hu hu'
    · exact h.apart s t u hs ht hu hu'
    · exact absurd hu (hfresh u hu' s hs)
    · exact absurd hu' (hfresh u hu t ht)
    · rfl

end Owned

/-- The headers of `L` are kept, and the bytes of those not in `A`. -/
def Keeps (d d' : Disk) (L A : Nat → Prop) : Prop :=
  ∀ t, L t → SameHeader d d' t ∧ (¬ A t → SameData d d' t)

namespace Keeps

variable {d d' d'' : Disk} {L L' A B : Nat → Prop}

theorem refl (d : Disk) (L A : Nat → Prop) : Keeps d d L A := fun t _ =>
  ⟨SameHeader.refl d t, fun _ _ _ => rfl⟩

theorem trans (h : Keeps d d' L A) (h' : Keeps d' d'' L B) (hi : ∀ t, L t → Inode d t) :
    Keeps d d'' L fun t => A t ∨ B t := by
  intro t ht
  obtain ⟨hh, hd⟩ := h t ht
  obtain ⟨hh', hd'⟩ := h' t ht
  refine ⟨hh.trans hh', fun hab u hu => ?_⟩
  obtain ⟨ha, hb⟩ := not_or.mp hab
  rw [hd' hb u (by rw [hh.datas (hi t ht)]; exact hu), hd ha u hu]

theorem mono (h : Keeps d d' L A) (hl : ∀ t, L' t → L t) (ha : ∀ t, A t → B t) :
    Keeps d d' L' B := fun t ht =>
  ⟨(h t (hl t ht)).1, fun hb => (h t (hl t ht)).2 fun hat => hb (ha t hat)⟩

end Keeps

/-- A write to the data sectors of one file. -/
theorem Owned.keeps {d d' : Disk} {L : Nat → Prop} {s : Nat} (h : Owned d L) (hs : L s)
    (ho : OnlyData d d' s) : Keeps d d' L (· = s) := fun _ ht =>
  ⟨h.sameHeader hs ho ht, fun hts => h.sameData hs ho ht hts⟩

/-- A write to sectors that no file has. -/
theorem Keeps.of_fresh {d d' : Disk} {L : Nat → Prop} {F : List Nat}
    (hf : ∀ u ∈ F, ∀ s, L s → u ∉ footprint d s) (hd : ∀ u, u ∉ F → d' u = d u) :
    Keeps d d' L fun _ => False := by
  intro t ht
  have hout : ∀ u ∈ footprint d t, d' u = d u := fun u hu => hd u fun huf => hf u huf t ht hu
  exact ⟨fun u hu => hout u (Owned.header_mem hu), fun _ u hu => hout u (Owned.data_mem hu)⟩

theorem Owned.congr {d : Disk} {L L' : Nat → Prop} (h : Owned d L) (hl : ∀ s, L' s ↔ L s) :
    Owned d L' := h.subset (fun s hs => (hl s).mp hs) ((hl _).mpr h.map)

theorem Marks.congr {bits : Nat → Bool} {d : Disk} {L L' : Nat → Prop} (h : Marks bits d L)
    (hl : ∀ s, L' s ↔ L s) : Marks bits d L' := by
  intro i hi
  rw [h i hi]
  exact exists_congr fun s => by rw [hl]

/-- The bits of a new file are added. -/
theorem Marks.insert {bits bits' : Nat → Bool} {d : Disk} {L : Nat → Prop} {x : Nat}
    (h : Marks bits d L)
    (hb : ∀ i < NUM_SECTORS, bits' i = (bits i || decide (i ∈ footprint d x))) :
    Marks bits' d fun s => L s ∨ s = x := by
  intro i hi
  rw [hb i hi, Bool.or_eq_true, h i hi, decide_eq_true_eq]
  constructor
  · rintro (⟨s, hs, hu⟩ | hu)
    · exact ⟨s, Or.inl hs, hu⟩
    · exact ⟨x, Or.inr rfl, hu⟩
  · rintro ⟨s, hs | rfl, hu⟩
    · exact Or.inl ⟨s, hs, hu⟩
    · exact Or.inr hu

/-- The bits of a file are erased. -/
theorem Marks.erase {bits bits' : Nat → Bool} {d : Disk} {L : Nat → Prop} {x : Nat}
    (h : Marks bits d L) (ho : Owned d L) (hx : L x)
    (hb : ∀ i < NUM_SECTORS, bits' i = (bits i && decide (i ∉ footprint d x))) :
    Marks bits' d fun s => L s ∧ s ≠ x := by
  intro i hi
  rw [hb i hi, Bool.and_eq_true, h i hi, decide_eq_true_eq]
  constructor
  · rintro ⟨⟨s, hs, hu⟩, hx'⟩
    refine ⟨s, ⟨hs, ?_⟩, hu⟩
    rintro rfl
    exact hx' hu
  · rintro ⟨s, ⟨hs, hsx⟩, hu⟩
    exact ⟨⟨s, hs, hu⟩, fun hx' => hsx (ho.apart s x i hs hx hu hx')⟩

theorem Marks.keep {bits : Nat → Bool} {d d' : Disk} {L : Nat → Prop} (h : Marks bits d L)
    (ho : Owned d L) (hs : ∀ s, L s → SameHeader d d' s) : Marks bits d' L := by
  intro i hi
  rw [h i hi]
  refine exists_congr fun s => and_congr_right fun hl => ?_
  rw [(hs s hl).footprint (ho.inode s hl)]

/-- The entries of a directory whose header and bytes are kept. -/
theorem slotsAt_congr {d d' : Disk} {s : Nat} (hi : Inode d s) (hh : SameHeader d d' s)
    (hd : SameData d d' s) (hlen : intAt d s 1 = Directory.DirectoryFileSize) :
    ∀ i < NumDirEntries, slotsAt d' s i = slotsAt d s i := by
  intro i hi'
  refine Directory.slot_congr fun o _ ho => ?_
  refine hh.byteAt hi hd ?_
  have hmul : 92 * (i + 1) ≤ 92 * NumDirEntries := Nat.mul_le_mul_left _ hi'
  have hlt : o < Directory.DirectoryFileSize := by
    show o < 92 * NumDirEntries
    omega
  rw [hlen]
  exact_mod_cast hlt

theorem child_congr {d d' : Disk} {s : Nat} (hi : Inode d s) (hh : SameHeader d d' s)
    (hd : SameData d d' s) (hok : intAt d s 0 = 1 → DirOk d s) : child d' s = child d s := by
  funext k
  unfold child
  rw [hh.intAt]
  by_cases hdir : intAt d s 0 = 1
  · rw [if_pos hdir, if_pos hdir,
      Slots.lookup_congr (slotsAt_congr hi hh hd (hok hdir).length)]
  · rw [if_neg hdir, if_neg hdir]

theorem DirOk.keep {d d' : Disk} {s : Nat} (h : DirOk d s) (hi : Inode d s)
    (hh : SameHeader d d' s) (hd : SameData d d' s) : DirOk d' s := by
  have hs := slotsAt_congr hi hh hd h.length
  refine ⟨?_, h.distinct.congr hs, fun i hi' k x hx => ?_⟩
  · rw [hh.intAt]
    exact h.length
  · rw [hs i hi'] at hx
    exact h.sectors i hi' k x hx

/-- A directory whose slots are given. -/
theorem child_of_holds {d : Disk} {s : Nat} {dir : Directory} (hdir : intAt d s 0 = 1)
    (h : dir.Holds d s) (k : List Byte) :
    child d s k = (Slots.lookup dir.tableSize dir.slot k).map Int.toNat := by
  rw [child, if_pos hdir, h.tableSize,
    Slots.lookup_congr (t := dir.slot) fun i hi => (h.slot i hi).symm]

theorem dirOk_of_holds {d : Disk} {s : Nat} {dir : Directory} (h : dir.Holds d s)
    (hlen : intAt d s 1 = Directory.DirectoryFileSize)
    (hd : Slots.Distinct dir.tableSize dir.slot)
    (hx : ∀ i < dir.tableSize, ∀ k x, dir.slot i = some (k, x) → 0 ≤ x) : DirOk d s := by
  rw [h.tableSize] at hd hx
  refine ⟨hlen, hd.congr fun i hi => (h.slot i hi).symm, fun i hi k x he => ?_⟩
  rw [← h.slot i hi] at he
  exact hx i hi k x he

/-- What a directory in memory looks up. -/
theorem Directory.Holds.find {d : Disk} {s : Nat} {dir : Directory} (h : dir.Holds d s)
    (hok : DirOk d s) (hdir : intAt d s 0 = 1) (n : List Byte) :
    (child d s (key n) = none ∧ dir.find n = -1 ∧
      Slots.lookup dir.tableSize dir.slot (key n) = none) ∨
    ∃ x : Nat, child d s (key n) = some x ∧ dir.find n = x ∧
      Slots.lookup dir.tableSize dir.slot (key n) = some (x : Int) := by
  have hd : Slots.Distinct dir.tableSize dir.slot := by
    rw [h.tableSize]
    exact hok.distinct.congr h.slot
  rw [dir.find_eq hd, child_of_holds hdir h]
  cases hl : Slots.lookup dir.tableSize dir.slot (key n) with
  | none => exact Or.inl ⟨rfl, rfl, rfl⟩
  | some x =>
      obtain ⟨i, hi, hs⟩ := Slots.slot_of_lookup hl
      rw [h.tableSize] at hi
      rw [h.slot i hi] at hs
      have hx := hok.sectors i hi _ _ hs
      exact Or.inr ⟨x.toNat, rfl, (Int.toNat_of_nonneg hx).symm, by rw [Int.toNat_of_nonneg hx]⟩

/-! ## The file system -/

/-- The disk and the two handles that are always open are consistent. -/
structure Volume (w : World) (E : Nat → Prop) : Prop where
  owned : Owned w.disk (Live w.disk E)
  names : Names w.disk
  marks : Marks (mapBit w.disk) w.disk (Live w.disk E)
  removed : ∀ s, E s → s ≠ FreeMapSector ∧ ¬ Reach w.disk s
  freeMapFile : Loaded w.disk FreeMapSector w.freeMapFile.hdr
  directoryFile : Loaded w.disk DirectorySector w.directoryFile.hdr

namespace Volume

variable {w w' : World} {E : Nat → Prop}

theorem mapFile (h : Volume w E) : MapFile w.disk w.freeMapFile :=
  ⟨h.owned.inode _ h.owned.map, h.owned.mapLength, h.freeMapFile⟩

theorem live {s : Nat} (hs : Reach w.disk s) : Live w.disk E s := Or.inr (Or.inl hs)

theorem inode (h : Volume w E) {s : Nat} (hs : Reach w.disk s) : Inode w.disk s :=
  h.owned.inode s (live hs)

/-- Allocating memory changes nothing. -/
theorem allocs (h : Volume w E) (hw : OnlyAllocs w w') : Volume w' E := by
  obtain ⟨n, rfl⟩ := hw
  exact ⟨h.owned, h.names, h.marks, h.removed, h.freeMapFile, h.directoryFile⟩

theorem allocated (h : Volume w E) (k : Nat) : Volume { w with allocs := k } E :=
  h.allocs ⟨k, rfl⟩

end Volume

end Nachos
