/-
  Nachos.Filesys.CreateSpec

  `Create` and `Mkdir`: they succeed exactly when the directory is there, has no
  entry of the name and an unused one, and the disk has the sectors; then the tree
  has one node more.  When they fail they have written nothing.
-/

import Nachos.Filesys.Path

namespace Nachos

open Words Program Config
open Directory (slotsAt)

variable [Config]

/-- The number of clear bits of the free map. -/
def freeSectors (d : Disk) : Nat := (List.range NUM_SECTORS).countP fun i => !mapBit d i

theorem Reads.numClear {d : Disk} {m : BitMap} (h : Reads d m) : m.numClear = freeSectors d := by
  rw [m.numClear_eq, h.numBits]
  apply List.countP_congr
  intro i hi
  rw [h.has i (List.mem_range.mp hi)]

/-- The bits of the free map, where its file has not changed. -/
theorem mapBit_congr {d d' : Disk} (hi : Inode d FreeMapSector)
    (hlen : intAt d FreeMapSector 1 = FreeMapFileSize) (hh : SameHeader d d' FreeMapSector)
    (hd : SameData d d' FreeMapSector) {i : Nat} (h : i < NUM_SECTORS) :
    mapBit d' i = mapBit d i := by
  have hlt : i / 8 < FreeMapFileSize := by
    show i / 8 < 2048 / 8
    change i < 2048 at h
    omega
  rw [mapBit, mapBit, hh.byteAt hi hd (by rw [hlen]; exact_mod_cast hlt)]

/-- Only the disk has changed, and memory has been allocated. -/
def OnlyDisk (w w' : World) : Prop := ∃ d k, w' = { w with disk := d, allocs := k }

/-! ## The state a new file finds -/

/-- The sectors of a new file with the header at `x`, and the bits once it has
    them. -/
structure NewFile (d : Disk) (x : Nat) (cs ds : List Nat) (bits : Nat → Bool) : Prop where
  nodup : (x :: (cs ++ ds)).Nodup
  lt : ∀ u ∈ x :: (cs ++ ds), u < NUM_SECTORS
  clear : ∀ u ∈ x :: (cs ++ ds), mapBit d u = false
  bits : ∀ i < NUM_SECTORS, bits i = (mapBit d i || decide (i ∈ x :: (cs ++ ds)))

theorem Reads.newFile {d : Disk} {m m₁ m₂ : BitMap} {x : Nat} {cs ds : List Nat} (h : Reads d m)
    (h₁ : BitMap.Takes m [x] m₁) (h₂ : BitMap.Takes m₁ (cs ++ ds) m₂) :
    NewFile d x cs ds m₂.has ∧ m₂.numBits = NUM_SECTORS := by
  have ht := h₁.trans h₂
  rw [List.singleton_append] at ht
  have hlt : ∀ u ∈ x :: (cs ++ ds), u < NUM_SECTORS := fun u hu => h.numBits ▸ (ht.clear u hu).1
  refine ⟨⟨ht.nodup, hlt, fun u hu => ?_, fun i hi => ?_⟩, ht.numBits.trans h.numBits⟩
  · rw [← h.has u (hlt u hu)]
    exact (ht.clear u hu).2
  · rw [ht.has, h.has i hi]

namespace Volume

variable {w : World} {E : Nat → Prop} {x : Nat} {cs ds : List Nat} {bits : Nat → Bool}

/-- Clear sectors are in no file. -/
theorem fresh (hV : Volume w E) (hx : NewFile w.disk x cs ds bits) :
    ∀ u ∈ x :: (cs ++ ds), ∀ s, Live w.disk E s → u ∉ footprint w.disk s := by
  intro u hu s hs hmem
  have hset := (hV.marks u (hx.lt u hu)).mpr ⟨s, hs, hmem⟩
  rw [hx.clear u hu] at hset
  cases hset

theorem not_live (hV : Volume w E) (hx : NewFile w.disk x cs ds bits) : ¬ Live w.disk E x :=
  fun hl => hV.fresh hx x (by simp) x hl (Owned.self_mem _ _)

/-- Once the header of the new file is stored, its sectors are its own. -/
theorem stored (hV : Volume w E) (hx : NewFile w.disk x cs ds bits) {d : Disk} (hi : Inode d x)
    (hc : conts d x = cs) (hd : datas d x = ds) (hframe : ∀ t, t ∉ x :: cs → d t = w.disk t) :
    Keeps w.disk d (Live w.disk E) (fun _ => False) ∧
      Owned d fun s => Live w.disk E s ∨ s = x := by
  have hk : Keeps w.disk d (Live w.disk E) fun _ => False := by
    refine Keeps.of_fresh (F := x :: cs) (fun u hu => hV.fresh hx u ?_) hframe
    rcases List.mem_cons.mp hu with rfl | hu
    · exact List.mem_cons_self
    · exact List.mem_cons_of_mem _ (List.mem_append_left _ hu)
  refine ⟨hk, (hV.owned.keep fun s hs => (hk s hs).1).insert hi fun u hu s hs => ?_⟩
  rw [(hk s hs).1.footprint (hV.owned.inode s hs)]
  rw [footprint, hc, hd] at hu
  exact hV.fresh hx u hu s hs

/-- The new file has its entry, and the free map its bits. -/
theorem added (hV : Volume w E) (hx : NewFile w.disk x cs ds bits) {w' : World} {a i : Nat}
    {p : List (List Byte)} {k : List Byte} {dir dir' : Directory} (hw : OnlyDisk w w')
    (hk : Keeps w.disk w'.disk (Live w.disk E) fun t => t = a ∨ t = FreeMapSector)
    (ho : Owned w'.disk fun s => Live w.disk E s ∨ s = x)
    (hf : footprint w'.disk x = x :: (cs ++ ds))
    (hbits : ∀ i < NUM_SECTORS, mapBit w'.disk i = bits i)
    (hp : Walk.walk (child w.disk) DirectorySector p = some a) (hdir : intAt w.disk a 0 = 1)
    (hbefore : dir.Holds w.disk a) (hafter : dir'.Holds w'.disk a)
    (hidx : i < dir.tableSize) (hfree : dir.slot i = none)
    (hnone : Slots.lookup dir.tableSize dir.slot k = none)
    (hslot : dir'.slot = Function.update dir.slot i (some (k, (x : Int))))
    (hleaf : ∀ l, child w'.disk x l = none) (hxok : intAt w'.disk x 0 = 1 → DirOk w'.disk x) :
    Volume w' E ∧
      treeOf w'.disk =
        Function.update (treeOf w.disk) (p ++ [k]) (some (nodeAt w'.disk x)) ∧
      SameWalks w.disk w'.disk (p ++ [k]) := by
  have hnl := hV.not_live hx
  have hreach : ∀ s, Reach w.disk s → Live w.disk E s := fun s hs => live hs
  have hr : Rewrites w.disk w'.disk (Reach w.disk) a dir dir' :=
    ⟨fun t ht => (hk t (hreach t ht)).1,
      fun t ht hta ht0 => (hk t (hreach t ht)).2 (not_or.mpr ⟨hta, ht0⟩), hbefore, hafter,
      by rw [hafter.tableSize, hbefore.tableSize]⟩
  have hx0 : x ≠ FreeMapSector := fun he => hnl (Or.inl he)
  obtain ⟨hnames, hlink⟩ := hr.link hV.names (fun s hs => hV.inode hs) ⟨p, hp⟩ hdir hidx hfree
    hnone hslot (fun hs => hnl (live hs)) hx0 hleaf hxok
  -- What is alive afterwards: the file and what was alive before.
  have hl : ∀ s, Live w'.disk E s ↔ Live w.disk E s ∨ s = x := by
    intro s
    have hreach' : Reach w'.disk s ↔ Reach w.disk s ∨ s = x := hlink.reach hV.names.tree ⟨p, hp⟩ s
    rw [Live, hreach', Live]
    constructor
    · rintro (h | (h | h) | h)
      · exact Or.inl (Or.inl h)
      · exact Or.inl (Or.inr (Or.inl h))
      · exact Or.inr h
      · exact Or.inl (Or.inr (Or.inr h))
    · rintro ((h | h | h) | h)
      · exact Or.inl h
      · exact Or.inr (Or.inl (Or.inl h))
      · exact Or.inr (Or.inr h)
      · exact Or.inr (Or.inl (Or.inr h))
  refine ⟨⟨ho.congr hl, hnames, ?_, fun s hs => ⟨(hV.removed s hs).1, fun hs' => ?_⟩, ?_, ?_⟩,
    treeOf_link hlink hV.names hp hr.header, fun q hq => ?_⟩
  · have hm : Marks bits w'.disk (fun s => Live w.disk E s ∨ s = x) := by
      refine (hV.marks.keep hV.owned fun s hs => (hk s hs).1).insert fun i hi => ?_
      rw [hx.bits i hi, hf]
    intro i hi
    rw [hbits i hi]
    exact hm.congr hl i hi
  · rcases (hlink.reach hV.names.tree ⟨p, hp⟩ s).mp hs' with hs' | rfl
    · exact (hV.removed s hs).2 hs'
    · exact hnl (Or.inr (Or.inr hs))
  · obtain ⟨d, n, rfl⟩ := hw
    exact (hk _ hV.owned.map).1.loaded hV.freeMapFile
  · obtain ⟨d, n, rfl⟩ := hw
    exact (hk _ (live Walk.Reach.root)).1.loaded hV.directoryFile
  · rw [hlink.walk hV.names.tree hp, Function.update_of_ne hq]

end Volume

/-- The state in which `Create` makes its checks. -/
theorem Volume.locked {w : World} {E : Nat → Prop} (hV : Volume w E) :
    Volume { w with createLock := true } E :=
  ⟨hV.owned, hV.names, hV.marks, hV.removed, hV.freeMapFile, hV.directoryFile⟩

/-- The files that `Create` and `Mkdir` write to, beside the new one: the directory
    and the free map. -/
def Written (d : Disk) (t : Nat) : Prop := (Reach d t ∧ intAt d t 0 = 1) ∨ t = FreeMapSector

/-- A file of `size` bytes can be added under this path. -/
structure CanAdd (d : Disk) (name : List Byte) (size : Int) : Prop where
  parent : treeOf d (dirKeys name) = some .dir
  absent : treeOf d (dirKeys name ++ [lastKey name]) = none
  slot : ∃ a, Walk.walk (child d) DirectorySector (dirKeys name) = some a ∧
    ∃ i < NumDirEntries, slotsAt d a i = none
  space : FileHeader.need size < freeSectors d

/-- An entry can be added under this path, and the disk is not full. -/
structure CanEnter (d : Disk) (name : List Byte) : Prop where
  parent : treeOf d (dirKeys name) = some .dir
  absent : treeOf d (dirKeys name ++ [lastKey name]) = none
  slot : ∃ a, Walk.walk (child d) DirectorySector (dirKeys name) = some a ∧
    ∃ i < NumDirEntries, slotsAt d a i = none
  space : 0 < freeSectors d

theorem CanAdd.canEnter {d : Disk} {name : List Byte} {size : Int} (h : CanAdd d name size) :
    CanEnter d name :=
  ⟨h.parent, h.absent, h.slot, Nat.zero_lt_of_lt h.space⟩

theorem CanEnter.canAdd {d : Disk} {name : List Byte} {size : Int} (h : CanEnter d name)
    (hneed : FileHeader.need size < freeSectors d) : CanAdd d name size :=
  ⟨h.parent, h.absent, h.slot, hneed⟩

/-- What the code has checked when it makes the entry. -/
theorem canEnter_of {d : Disk} {name : List Byte} {a i : Nat} {dir : Directory}
    (hwalk : Walk.walk (child d) DirectorySector (dirKeys name) = some a)
    (hdir : intAt d a 0 = 1) (hchild : child d a (lastKey name) = none) (hd : dir.Holds d a)
    (hi : i < dir.tableSize) (hfree : dir.slot i = none) (hspace : 0 < freeSectors d) :
    CanEnter d name := by
  have hi' : i < NumDirEntries := hd.tableSize ▸ hi
  refine ⟨?_, ?_, ⟨a, hwalk, i, hi', ?_⟩, hspace⟩
  · rw [treeOf_of_walk hwalk, nodeAt_eq_dir.mpr hdir]
  · rw [treeOf_concat _ hwalk, hchild, Option.map_none]
  · rw [← hd.slot i hi', hfree]

/-- The clear sectors before the first one was taken. -/
theorem freeSectors_of_takes {d : Disk} {x : Nat} {m m₁ : BitMap} (hm : Reads d m)
    (htake : BitMap.Takes m [x] m₁) : freeSectors d = m₁.numClear + 1 := by
  rw [← hm.numClear]
  exact htake.numClear

/-- The call has added this node under the path. -/
structure Added (w w' : World) (E : Nat → Prop) (name : List Byte) (node : Node) : Prop where
  onlyDisk : OnlyDisk w w'
  volume : Volume w' E
  tree : treeOf w'.disk =
    Function.update (treeOf w.disk) (dirKeys name ++ [lastKey name]) (some node)
  keeps : Keeps w.disk w'.disk (Live w.disk E) (Written w.disk)

/-- The numbers in the header at `x` are those that `Allocate` computes for `size` bytes. -/
structure SizedAt (d : Disk) (x : Nat) (size : Int) : Prop where
  numBytes : intAt d x 1 = size
  numSectors : intAt d x 2 = FileHeader.sectorsFor size
  numHeaderSectors : intAt d x 3 = FileHeader.headersFor (FileHeader.sectorsFor size)

theorem Loaded.sizedAt {d : Disk} {x : Nat} {hdr : FileHeader} {size : Int} (hl : Loaded d x hdr)
    (h : hdr.Sized size) : SizedAt d x size :=
  ⟨hl.numBytes ▸ h.numBytes, hl.numSectors ▸ h.numSectors, hl.numHeaderSectors ▸ h.numHeaderSectors⟩

theorem SameHeader.sizedAt {d d' : Disk} {x : Nat} {size : Int} (h : SameHeader d d' x)
    (hs : SizedAt d x size) : SizedAt d' x size :=
  ⟨(h.intAt 1).trans hs.numBytes, (h.intAt 2).trans hs.numSectors,
    (h.intAt 3).trans hs.numHeaderSectors⟩

/-- The path leads to a header of a file of `size` bytes. -/
def NamesSized (d : Disk) (name : List Byte) (size : Int) : Prop :=
  ∃ x, Walk.walk (child d) DirectorySector (dirKeys name ++ [lastKey name]) = some x ∧
    SizedAt d x size

/-- An entry of a directory leads to its sector. -/
theorem Volume.walk_entry {w : World} {E : Nat → Prop} (hV : Volume w E) {p : List (List Byte)}
    {a x i : Nat} {k : List Byte} {dir : Directory}
    (hp : Walk.walk (child w.disk) DirectorySector p = some a) (hdir : intAt w.disk a 0 = 1)
    (hd : dir.Holds w.disk a) (hi : i < dir.tableSize) (hslot : dir.slot i = some (k, (x : Int))) :
    Walk.walk (child w.disk) DirectorySector (p ++ [k]) = some x := by
  have hdis : Slots.Distinct dir.tableSize dir.slot := by
    rw [hd.tableSize]
    exact (hV.names.dirs a ⟨p, hp⟩ hdir).distinct.congr hd.slot
  rw [Walk.walk_concat, hp, Option.bind_some, child_of_holds hdir hd,
    Slots.lookup_of_slot hdis hi hslot, Option.map_some, Int.toNat_natCast]

namespace FileSystem

variable {w : World} {E : Nat → Prop}

theorem wp_fetchDir {a : Nat} {Q : OpenFile × Directory → World → Prop} (hV : Volume w E)
    (ha : Reach w.disk a) (hdir : intAt w.disk a 0 = 1)
    (hQ : ∀ file dir w', OnlyAllocs w w' → Loaded w.disk a file.hdr → dir.Holds w.disk a →
      Q (file, dir) w') :
    Prog.wp (fetchDir a) Q w := by
  unfold fetchDir
  simp only [Prog.wp_bind, Prog.wp_pure]
  refine OpenFile.wp_create (hV.inode ha) fun file w₁ _ _ hl hw₁ => ?_
  obtain ⟨k₁, rfl⟩ := hw₁
  refine Directory.wp_create fun dir w₂ hsize _ hw₂ => ?_
  obtain ⟨k₂, rfl⟩ := hw₂
  refine Directory.wp_fetchFrom hsize (hV.inode ha) hl (hV.names.dirs a ha hdir).length
    fun dir' w₃ hd hw₃ => ?_
  obtain ⟨k₃, rfl⟩ := hw₃
  exact hQ file dir' _ ⟨k₃, rfl⟩ hl hd

/-- A directory is opened, and its table read into one that is there. -/
theorem wp_openDir {a : Nat} {dir : Directory} {Q : OpenFile → Directory → World → Prop}
    (hV : Volume w E) (hsize : dir.tableSize = NumDirEntries) (ha : Reach w.disk a)
    (hdir : intAt w.disk a 0 = 1)
    (hQ : ∀ file dir' k, Loaded w.disk a file.hdr → dir'.Holds w.disk a →
      Q file dir' { w with allocs := k }) :
    Prog.wp (OpenFile.create a) (fun file w₁ => Prog.wp (dir.fetchFrom file) (Q file) w₁) w := by
  refine OpenFile.wp_create (hV.inode ha) fun file w₁ _ _ hl hw₁ => ?_
  obtain ⟨k₁, rfl⟩ := hw₁
  refine Directory.wp_fetchFrom hsize (hV.inode ha) hl (hV.names.dirs a ha hdir).length
    fun dir' w₂ hd hw₂ => ?_
  obtain ⟨k₂, rfl⟩ := hw₂
  exact hQ file dir' k₂ hl hd

/-- The last two writes: the table of the directory at `a`, and the free map. -/
theorem wp_storeEntry {w₁ : World} {x a : Nat} {file : OpenFile} {dir : Directory} {m : BitMap}
    {Q : Unit → World → Prop} (hV : Volume w E) (hw : OnlyDisk w w₁)
    (hk : Keeps w.disk w₁.disk (Live w.disk E) fun _ => False)
    (ho : Owned w₁.disk fun s => Live w.disk E s ∨ s = x) (hx : ¬ Live w.disk E x)
    (ha : Reach w.disk a) (hdir : intAt w.disk a 0 = 1) (hl : Loaded w.disk a file.hdr)
    (hsize : dir.tableSize = NumDirEntries) (hm : m.numBits = NUM_SECTORS)
    (hQ : ∀ w', OnlyDisk w w' →
      Keeps w.disk w'.disk (Live w.disk E) (fun t => t = a ∨ t = FreeMapSector) →
      Keeps w₁.disk w'.disk (· = x) (fun _ => False) →
      Owned w'.disk (fun s => Live w.disk E s ∨ s = x) → dir.Holds w'.disk a →
      (∀ i < NUM_SECTORS, mapBit w'.disk i = m.has i) → Q () w') :
    Prog.wp (dir.writeBack file) (fun _ w' => Prog.wp m.writeBack Q w') w₁ := by
  obtain ⟨d₁, k₁, rfl⟩ := hw
  have haL : Live w.disk E a := Volume.live ha
  have ha0 : a ≠ FreeMapSector := fun he => hV.names.notMap (he ▸ ha)
  have hxa : x ≠ a := fun he => hx (he ▸ haL)
  have hx0 : x ≠ FreeMapSector := fun he => hx (Or.inl he)
  have hha := (hk a haL).1
  refine Directory.wp_writeBack hsize (ho.inode a (Or.inl haL)) (hha.loaded hl)
    (by rw [hha.intAt]; exact (hV.names.dirs a ha hdir).length) fun d₂ k₂ ho₂ hd₂ => ?_
  have hk₂ := ho.keeps (Or.inl haL) ho₂
  have own₂ := ho.keep fun s hs => (hk₂ s hs).1
  have hmap : MapFile d₂ w.freeMapFile :=
    ⟨own₂.inode _ own₂.map, own₂.mapLength,
      ((hk _ hV.owned.map).1.trans (hk₂ _ ho.map).1).loaded hV.freeMapFile⟩
  refine BitMap.wp_writeBack hmap hm fun d₃ k₃ ho₃ hbits => ?_
  have hk₃ := own₂.keeps own₂.map ho₃
  have hk₂₃ := hk₂.trans hk₃ ho.inode
  refine hQ _ ⟨d₃, k₃, rfl⟩ ?_ ?_ (own₂.keep fun s hs => (hk₃ s hs).1) ?_ hbits
  · refine (hk.trans (hk₂₃.mono (fun t ht => Or.inl ht) fun t ht => ht) hV.owned.inode).mono
      (fun t ht => ht) ?_
    rintro t (h | h)
    · exact h.elim
    · exact h
  · intro t ht
    subst ht
    refine ⟨(hk₂₃ t (Or.inr rfl)).1, fun _ => (hk₂₃ t (Or.inr rfl)).2 ?_⟩
    rintro (h | h)
    · exact hxa h
    · exact hx0 h
  · -- The map is in other sectors than the directory.
    refine ⟨hd₂.tableSize, fun i hi => ?_⟩
    rw [hd₂.slot i hi]
    have h₃ := hk₃ a (Or.inl haL)
    refine (slotsAt_congr (own₂.inode a (Or.inl haL)) h₃.1 (h₃.2 ha0) ?_ i hi).symm
    rw [(hk₂ a (Or.inl haL)).1.intAt, hha.intAt]
    exact (hV.names.dirs a ha hdir).length

/-- What `Create` has when all the checks have been passed: the handle of the directory, its
    table with the entry of the new file, the sector of the header, and the free map. -/
abbrev NewEntry := OpenFile × Directory × Int × BitMap

/-- The first half of `Create`, up to the header of the new file. -/
def newEntry (name : List Byte) : Prog World (Except MsgError NewEntry) := do
  acquire
  let dirname ← copyName name
  let (dirsector, dirname) ← findDir dirname
  if dirsector = -1 then return .error .InexistFileError
  else
  let (dirfile, directory) ← fetchDir dirsector
  if directory.find dirname ≠ -1 then return .error .AlreadyInDirectory
  else
  let freeMap ← BitMap.fetchFreeMap
  let (sector, freeMap) := freeMap.find
  if sector = -1 then return .error .OutOfDisk
  else
  let (addResult, directory) := directory.add dirname sector
  if addResult ≠ .NoError then return .error addResult
  else
  return .ok (dirfile, directory, sector, freeMap)

/-- The second half: the file gets its sectors, and all is written. -/
def storeFile (entry : NewEntry) (initialSize : Int) : Prog World MsgError := do
  let (dirfile, directory, sector, freeMap) := entry
  let hdr ← FileHeader.create
  let hdr := hdr.setFile
  let (ok, hdr, freeMap) ← hdr.allocate freeMap initialSize
  if ok = false then do
    release
    return .OutOfDisk
  else
  hdr.writeBack sector
  let _ ← directory.writeBack dirfile
  freeMap.writeBack
  release
  return .NoError

/-- A call that fails a check gives the lock back. -/
def refuse (e : MsgError) : Prog World MsgError := do
  release
  return e

/-- `Create` is its two halves. -/
theorem wp_create_iff {name : List Byte} {size : Int} {Q : MsgError → World → Prop} :
    Prog.wp (create name size) Q w ↔
      Prog.wp (newEntry name) (fun r w' => match r with
        | .error e => Prog.wp (refuse e) Q w'
        | .ok entry => Prog.wp (storeFile entry size) Q w') w := by
  unfold create newEntry refuse storeFile
  simp only [Prog.wp_bind, Prog.wp_ite, Prog.wp_pure]

/-- The entry of a new file in slot `i` of the directory at `a`: the file has its header at
    `x`, and no other sector yet. -/
structure Entered (d : Disk) (name : List Byte) (entry : NewEntry) (a x i : Nat) (dir : Directory)
    (m : BitMap) : Prop where
  walk : Walk.walk (child d) DirectorySector (dirKeys name) = some a
  isDir : intAt d a 0 = 1
  handle : Loaded d a entry.1.hdr
  before : dir.Holds d a
  index : i < dir.tableSize
  free : dir.slot i = none
  absent : Slots.lookup dir.tableSize dir.slot (lastKey name) = none
  size : entry.2.1.tableSize = dir.tableSize
  slot : entry.2.1.slot = Function.update dir.slot i (some (lastKey name, (x : Int)))
  sector : entry.2.2.1 = x
  map : Reads d m
  take : BitMap.Takes m [x] entry.2.2.2

namespace Entered

variable {d : Disk} {name : List Byte} {entry : NewEntry} {a x i : Nat} {dir : Directory}
  {m : BitMap}

/-- The clear sectors before the header was taken. -/
theorem freeSectors (h : Entered d name entry a x i dir m) :
    Nachos.freeSectors d = entry.2.2.2.numClear + 1 := freeSectors_of_takes h.map h.take

theorem canEnter (h : Entered d name entry a x i dir m) : CanEnter d name := by
  have hchild : child d a (lastKey name) = none := by
    rw [child_of_holds h.isDir h.before, h.absent, Option.map_none]
  refine canEnter_of h.walk h.isDir hchild h.before h.index h.free ?_
  rw [h.freeSectors]
  omega

end Entered

/-- The checks of `Create`. -/
theorem wp_newEntry {name : List Byte} {Q : Except MsgError NewEntry → World → Prop}
    (hV : Volume w E) (hlock : w.createLock = false) (hname : name.length < MaxFileNameSize)
    (hfail : ∀ e k, e ≠ .NoError → ¬ CanEnter w.disk name →
      Q (.error e) { w with createLock := true, allocs := k })
    (hok : ∀ entry a x i dir m k, Entered w.disk name entry a x i dir m →
      Q (.ok entry) { w with createLock := true, allocs := k }) :
    Prog.wp (newEntry name) Q w := by
  unfold newEntry acquire copyName
  simp only [Prog.wp_bind, Prog.wp_read, Prog.wp_assert, Prog.wp_modify, Prog.wp_pure]
  refine ⟨hlock, hname, ?_⟩
  have hV₀ := hV.locked
  refine wp_findDir hV₀ (fun a w₁ hw₁ hwalk hdir => ?_) fun n w₁ hw₁ htree => ?_
  · obtain ⟨k₁, rfl⟩ := hw₁
    have ha : Reach w.disk a := ⟨_, hwalk⟩
    dsimp only
    rw [if_neg (by omega), Prog.wp_bind]
    refine wp_fetchDir (hV₀.allocated k₁) ha hdir fun file dir w₂ hw₂ hl hd => ?_
    obtain ⟨k₂, rfl⟩ := hw₂
    dsimp only
    rcases hd.find (hV.names.dirs a ha hdir) hdir (components name).2 with
      ⟨hchild, hfind, hnone⟩ | ⟨x, hchild, hfind, -⟩
    · -- There is no entry of this name.
      rw [if_neg (by simp [hfind]), Prog.wp_bind]
      refine BitMap.wp_fetchFreeMap (hV₀.allocated k₂).mapFile fun m w₃ hm hw₃ => ?_
      obtain ⟨k₃, rfl⟩ := hw₃
      by_cases hclear : m.numClear = 0
      · -- The disk is full.
        rw [m.find_full hclear]
        dsimp only
        rw [if_pos rfl, Prog.wp_pure]
        refine hfail _ _ (by decide) fun hc => ?_
        have hspace := hc.space
        rw [← hm.numClear] at hspace
        omega
      · obtain ⟨x, m₁, hfind₁, htake₁⟩ := BitMap.find_takes (m := m) (by omega)
        rw [hfind₁]
        dsimp only
        rw [if_neg (by omega)]
        by_cases hroom : ∃ i < dir.tableSize, dir.slot i = none
        · obtain ⟨i, hi, dir', hadd, hfree, hsz, hslot⟩ := Directory.add_spec (x := (x : Int))
            (onDisk_natCast (hm.numBits ▸ (htake₁.clear x (by simp)).1)).inInt hnone hroom
          rw [hadd]
          dsimp only
          rw [if_neg (by decide), Prog.wp_pure]
          exact hok _ a x i dir m k₃
            ⟨hwalk, hdir, hl, hd, hi, hfree, hnone, hsz, hslot, rfl, hm, htake₁⟩
        -- The directory is full.
        · rw [Directory.add_full hnone hroom]
          dsimp only
          rw [if_pos (by decide), Prog.wp_pure]
          refine hfail _ _ (by decide) fun hc => ?_
          obtain ⟨b, hb, i, hi, hs⟩ := hc.slot
          obtain rfl : a = b := Option.some.inj (hwalk.symm.trans hb)
          exact hroom ⟨i, hd.tableSize ▸ hi, by rw [hd.slot i hi, hs]⟩
    -- There is a file or a directory of this name.
    · rw [if_pos (by rw [hfind]; omega), Prog.wp_pure]
      refine hfail _ _ (by decide) fun hc => ?_
      have habs := hc.absent
      rw [treeOf_concat (lastKey name) hwalk, lastKey, hchild] at habs
      cases habs
  · obtain ⟨k₁, rfl⟩ := hw₁
    dsimp only
    rw [if_pos rfl, Prog.wp_pure]
    -- There is no directory for it.
    exact hfail _ _ (by decide) fun hc => htree hc.parent

omit [Config] in
/-- The lock is free again. -/
theorem unlock (hlock : w.createLock = false) (k : Nat) :
    ({ w with createLock := false, allocs := k } : World) = { w with allocs := k } := by
  rw [← hlock]

/-- The second half of `Create` adds the file, when the size is one that a file can have. -/
theorem wp_storeFile {name : List Byte} {size : Int} {entry : NewEntry} {a x i k : Nat}
    {dir : Directory} {m : BitMap} {Q : MsgError → World → Prop} (hV : Volume w E)
    (hlock : w.createLock = false) (he : Entered w.disk name entry a x i dir m)
    (hlo : -2147483648 ≤ size) (hhi : size ≤ MAX_FILE_LENGTH)
    (hfail : ∀ e w', e ≠ .NoError → ¬ CanAdd w.disk name size → OnlyAllocs w w' → Q e w')
    (hok : ∀ w', CanAdd w.disk name size → Added w w' E name (.file size) →
      SameWalks w.disk w'.disk (dirKeys name ++ [lastKey name]) → NamesSized w'.disk name size →
      Q .NoError w') :
    Prog.wp (storeFile entry size) Q { w with createLock := true, allocs := k } := by
  have hV₀ := hV.locked
  have ha : Reach w.disk a := ⟨_, he.walk⟩
  have hfree := he.freeSectors
  obtain ⟨file, dir', sector, m₁⟩ := entry
  obtain rfl : sector = (x : Int) := he.sector
  unfold storeFile release
  simp only [Prog.wp_bind, FileHeader.create, wp_newArray, Prog.wp_pure]
  refine FileHeader.wp_allocate hhi (fun hlt hdr' => ?_)
    (fun hdr' m₂ cs ds w₄ hneed hw₄ hlists hsized hisdir htake₂ => ?_)
  -- `Allocate` finds too few free sectors.
  · rw [if_pos rfl]
    simp only [Prog.wp_bind, Prog.wp_modify, Prog.wp_pure]
    refine hfail _ _ (by decide) (fun hc => ?_) ⟨k + 1, unlock hlock _⟩
    have hspace := hc.space
    dsimp only at hfree
    omega
  · obtain ⟨k₄, rfl⟩ := hw₄
    obtain ⟨hnew, hbits⟩ := he.map.newFile he.take htake₂
    have hdir0 : hdr'.isdir = 0 := hisdir
    rw [if_neg (by simp)]
    simp only [Prog.wp_bind, Prog.wp_modify, Prog.wp_pure]
    refine FileHeader.wp_writeBack_lists hlists
      (hsized.fits hlo hhi (by rw [hdir0]; decide)) hnew.nodup hnew.lt
      fun d₁ hl₁ hi₁ hc₁ hd₁ hframe => ?_
    -- The header is stored before the entry that leads to it.
    obtain ⟨hk₁, ho₁⟩ := hV₀.stored hnew hi₁ hc₁ hd₁ hframe
    refine wp_storeEntry hV₀ ⟨d₁, k₄, rfl⟩ hk₁ ho₁ (hV₀.not_live hnew) ha he.isDir he.handle
      (he.size.trans he.before.tableSize) hbits fun w₅ hw₅ hk₅ hkx ho₅ hd₅ hbits₅ => ?_
    -- What is at the new sector when all has been written.
    have hhx : SameHeader d₁ w₅.disk x := (hkx x rfl).1
    have hfoot : footprint w₅.disk x = x :: (cs ++ ds) := by
      rw [hhx.footprint hi₁, footprint, hc₁, hd₁]
    have hisfile : intAt w₅.disk x 0 = 0 := by rw [hhx.intAt, ← hl₁.isdir, hdir0]
    have hsizedx : SizedAt w₅.disk x size := hhx.sizedAt (hl₁.sizedAt hsized)
    have hnodex : nodeAt w₅.disk x = .file size := by
      rw [nodeAt, hisfile, if_neg (by decide), hsizedx.numBytes]
    obtain ⟨hV₅, htree, hwalks⟩ :=
      hV₀.added hnew hw₅ hk₅ ho₅ hfoot hbits₅ he.walk he.isDir he.before hd₅
      he.index he.free he.absent he.slot (fun l => by rw [child, hisfile, if_neg (by decide)])
      (fun h => absurd (hisfile.symm.trans h) (by decide))
    have hcan : CanAdd w.disk name size := by
      refine he.canEnter.canAdd ?_
      dsimp only at hfree
      omega
    have hwalkx : Walk.walk (child w₅.disk) DirectorySector (dirKeys name ++ [lastKey name]) =
        some x := by
      refine hV₅.walk_entry ((hwalks _ (by simp)).trans he.walk) ?_ hd₅ (i := i)
        (he.size ▸ he.index) ?_
      · rw [(hk₅ a (Volume.live ha)).1.intAt]
        exact he.isDir
      · have hslot := congrFun he.slot i
        rwa [Function.update_self] at hslot
    obtain ⟨d₅, k₅, rfl⟩ := hw₅
    refine hok _ hcan ⟨⟨d₅, k₅, by rw [← hlock]⟩, ?_, ?_, ?_⟩ hwalks ⟨x, hwalkx, hsizedx⟩
    · exact ⟨hV₅.owned, hV₅.names, hV₅.marks, hV₅.removed, hV₅.freeMapFile, hV₅.directoryFile⟩
    · rw [← hnodex]
      exact htree
    · refine hk₅.mono (fun t ht => ht) ?_
      rintro t (rfl | rfl)
      · exact Or.inl ⟨ha, he.isDir⟩
      · exact Or.inr rfl

/-- `Create` adds the file, with the header that `Allocate` computes, or has written nothing. -/
theorem wp_create_sized {name : List Byte} {size : Int} {Q : MsgError → World → Prop}
    (hV : Volume w E) (hlock : w.createLock = false) (hname : name.length < MaxFileNameSize)
    (hlo : -2147483648 ≤ size) (hhi : size ≤ MAX_FILE_LENGTH)
    (hfail : ∀ e w', e ≠ .NoError → ¬ CanAdd w.disk name size → OnlyAllocs w w' → Q e w')
    (hok : ∀ w', CanAdd w.disk name size → Added w w' E name (.file size) →
      SameWalks w.disk w'.disk (dirKeys name ++ [lastKey name]) → NamesSized w'.disk name size →
      Q .NoError w') :
    Prog.wp (create name size) Q w := by
  rw [wp_create_iff]
  refine wp_newEntry hV hlock hname (fun e k he hnot => ?_) fun entry a x i dir m k he => ?_
  · unfold refuse release
    simp only [Prog.wp_bind, Prog.wp_modify, Prog.wp_pure]
    exact hfail e _ he (fun hc => hnot hc.canEnter) ⟨k, unlock hlock k⟩
  · exact wp_storeFile hV hlock he hlo hhi hfail hok

theorem wp_create {name : List Byte} {size : Int} {Q : MsgError → World → Prop} (hV : Volume w E)
    (hlock : w.createLock = false) (hname : name.length < MaxFileNameSize)
    (hlo : -2147483648 ≤ size) (hhi : size ≤ MAX_FILE_LENGTH)
    (hfail : ∀ e w', e ≠ .NoError → ¬ CanAdd w.disk name size → OnlyAllocs w w' → Q e w')
    (hok : ∀ w', CanAdd w.disk name size → Added w w' E name (.file size) →
      SameWalks w.disk w'.disk (dirKeys name ++ [lastKey name]) → Q .NoError w') :
    Prog.wp (create name size) Q w :=
  wp_create_sized hV hlock hname hlo hhi hfail fun w' hc ha hw _ => hok w' hc ha hw

/-- An empty directory. -/
theorem empty_dir {d : Disk} {s : Nat} {dir : Directory} (hdir : intAt d s 0 = 1)
    (hd : dir.Holds d s) (hempty : ∀ i < NumDirEntries, dir.slot i = none)
    (hlen : intAt d s 1 = Directory.DirectoryFileSize) :
    (∀ l, child d s l = none) ∧ DirOk d s := by
  rw [← hd.tableSize] at hempty
  refine ⟨fun l => ?_, dirOk_of_holds hd hlen (fun i hi j hj k v v' hv => ?_)
    fun i hi k x hx => ?_⟩
  · rw [child_of_holds hdir hd, Option.map_eq_none_iff, Slots.lookup_none]
    intro i hi v hv
    rw [hempty i hi] at hv
    cases hv
  · rw [hempty i hi] at hv
    cases hv
  · rw [hempty i hi] at hx
    cases hx

/-- A directory fits in a file. -/
theorem directoryFileSize_le (hV : Volume w E) :
    (Directory.DirectoryFileSize : Int) ≤ MAX_FILE_LENGTH := by
  have hroot : Reach w.disk DirectorySector := Walk.Reach.root
  have hi := hV.inode hroot
  have hlen := (hV.names.dirs _ hroot hV.names.root).length
  have hle := hi.length_le
  have hmul : intAt w.disk DirectorySector 2 * SectorSize ≤ (MAX_DATA_SECTORS : Int) * SectorSize :=
    Int.mul_le_mul_of_nonneg_right hi.dataCount_le (Int.natCast_nonneg _)
  have hmax : ((MAX_FILE_LENGTH : Nat) : Int) = (MAX_DATA_SECTORS : Int) * SectorSize := by
    rw [MAX_FILE_LENGTH, Int.natCast_mul]
  omega

/-- `Mkdir` adds an empty directory, with the header that `Allocate` computes, or has written
    nothing. -/
theorem wp_mkdir_sized {name : List Byte} {Q : MsgError → World → Prop} (hV : Volume w E)
    (hname : name.length < MaxFileNameSize)
    (hfail : ∀ e w', e ≠ .NoError → ¬ CanAdd w.disk name Directory.DirectoryFileSize →
      OnlyAllocs w w' → Q e w')
    (hok : ∀ w', CanAdd w.disk name Directory.DirectoryFileSize → Added w w' E name .dir →
      SameWalks w.disk w'.disk (dirKeys name ++ [lastKey name]) →
      NamesSized w'.disk name Directory.DirectoryFileSize → Q .NoError w') :
    Prog.wp (mkdir name) Q w := by
  have hsize := directoryFileSize_le hV
  unfold mkdir copyName
  simp only [Prog.wp_bind, Prog.wp_assert, Prog.wp_pure]
  refine ⟨hname, wp_findDir hV (fun a w₁ hw₁ hwalk hdir => ?_) fun n w₁ hw₁ htree => ?_⟩
  · obtain ⟨k₁, rfl⟩ := hw₁
    have ha : Reach w.disk a := ⟨_, hwalk⟩
    have hV₁ : Volume { w with allocs := k₁ } E := hV.allocs ⟨k₁, rfl⟩
    dsimp only
    rw [if_neg (by omega), Prog.wp_bind]
    refine wp_fetchDir hV₁ ha hdir fun file dir w₂ hw₂ hl hd => ?_
    obtain ⟨k₂, rfl⟩ := hw₂
    dsimp only
    rcases hd.find (hV.names.dirs a ha hdir) hdir (components name).2 with
      ⟨hchild, hfind, hnone⟩ | ⟨x, hchild, hfind, -⟩
    · rw [if_neg (by rw [hfind]; decide), Prog.wp_bind]
      have hV₂ : Volume { w with allocs := k₂ } E := hV.allocs ⟨k₂, rfl⟩
      refine BitMap.wp_fetchFreeMap hV₂.mapFile fun m w₃ hm hw₃ => ?_
      obtain ⟨k₃, rfl⟩ := hw₃
      by_cases hclear : m.numClear = 0
      · -- The disk is full.
        rw [m.find_full hclear]
        dsimp only
        rw [if_pos (by decide), Prog.wp_pure]
        refine hfail _ _ (by decide) (fun hc => ?_) ⟨k₃, rfl⟩
        have hspace := hc.space
        rw [← hm.numClear] at hspace
        omega
      · obtain ⟨x, m₁, hfind₁, htake₁⟩ := BitMap.find_takes (m := m) (by omega)
        rw [hfind₁]
        dsimp only
        rw [if_neg (by omega)]
        simp only [Prog.wp_bind, FileHeader.create, wp_newArray, Prog.wp_pure]
        have hclear₁ := htake₁.numClear
        have hlen₁ : [x].length = 1 := rfl
        refine FileHeader.wp_allocate hsize (fun hlt hdr' => ?_)
          (fun hdr' m₂ cs ds w₄ hneed hw₄ hlists hsized _ htake₂ => ?_)
        · rw [if_pos rfl, Prog.wp_pure]
          refine hfail _ _ (by decide) (fun hc => ?_) ⟨k₃ + 1, rfl⟩
          have hspace := hc.space
          rw [← hm.numClear] at hspace
          omega
        · obtain ⟨k₄, rfl⟩ := hw₄
          rw [if_neg (by simp)]
          by_cases hroom : ∃ i < dir.tableSize, dir.slot i = none
          · obtain ⟨i, hi, dir', hadd, hfree, hsz, hslot⟩ := Directory.add_spec (x := (x : Int))
              (onDisk_natCast (hm.numBits ▸ (htake₁.clear x (by simp)).1)).inInt hnone hroom
            rw [hadd]
            dsimp only
            rw [if_neg (by decide)]
            obtain ⟨hnew, hbits⟩ := hm.newFile htake₁ htake₂
            obtain ⟨hdr, hhdr⟩ : ∃ hdr, hdr = hdr'.setDir := ⟨_, rfl⟩
            have hisdir : hdr.isdir = 1 := by rw [hhdr]; rfl
            have hlists' : hdr.Lists cs ds := by
              rw [hhdr]
              exact ⟨hlists.1, hlists.2, hlists.3, hlists.4⟩
            have hsized' : hdr.Sized Directory.DirectoryFileSize := by
              rw [hhdr]
              exact ⟨hsized.1, hsized.2, hsized.3⟩
            rw [← hhdr]
            simp only [Prog.wp_bind, Prog.wp_pure]
            refine FileHeader.wp_writeBack_lists hlists'
              (hsized'.fits (by omega) hsize (by rw [hisdir]; decide)) hnew.nodup hnew.lt
              fun d₁ hl₁ hi₁ hc₁ hd₁ hframe => ?_
            obtain ⟨hk₁, ho₁⟩ := hV.stored hnew hi₁ hc₁ hd₁ hframe
            have hnl := hV.not_live hnew
            have hlen₁ : intAt d₁ x 1 = Directory.DirectoryFileSize := by
              rw [← hl₁.numBytes, hsized'.numBytes]
            -- The new directory, empty, is written to its file.
            refine OpenFile.wp_create hi₁ fun newfile w₅ _ _ hlx hw₅ => ?_
            obtain ⟨k₅, rfl⟩ := hw₅
            refine Directory.wp_create fun newdir w₆ hsize₆ hempty hw₆ => ?_
            obtain ⟨k₆, rfl⟩ := hw₆
            refine Directory.wp_writeBack hsize₆ hi₁ hlx hlen₁ fun d₂ k₇ hod₂ hnewdir => ?_
            have hk₂ := ho₁.keeps (Or.inr rfl) hod₂
            have ho₂ := ho₁.keep fun s hs => (hk₂ s hs).1
            have hk₁₂ : Keeps w.disk d₂ (Live w.disk E) fun _ => False := by
              intro t ht
              have htx : t ≠ x := fun he => hnl (he ▸ ht)
              have h₁ := hk₁ t ht
              have h₂ := hk₂ t (Or.inl ht)
              refine ⟨h₁.1.trans h₂.1, fun _ u hu => ?_⟩
              rw [h₂.2 htx u (by rw [h₁.1.datas (hV.owned.inode t ht)]; exact hu),
                h₁.2 (fun h => h) u hu]
            refine wp_storeEntry hV ⟨d₂, k₇, rfl⟩ hk₁₂ ho₂ hnl ha hdir hl
              (hsz.trans hd.tableSize) hbits fun w₈ hw₈ hk₈ hkx ho₈ hd₈ hbits₈ => ?_
            obtain ⟨hhx₂, hdx₂⟩ := hkx x rfl
            have hhx₁ := (hk₂ x (Or.inr rfl)).1
            have hhx : SameHeader d₁ w₈.disk x := hhx₁.trans hhx₂
            have hfoot : footprint w₈.disk x = x :: (cs ++ ds) := by
              rw [hhx.footprint hi₁, footprint, hc₁, hd₁]
            have hisdir₈ : intAt w₈.disk x 0 = 1 := by rw [hhx.intAt, ← hl₁.isdir, hisdir]
            have hlen₈ : intAt w₈.disk x 1 = Directory.DirectoryFileSize := by
              rw [hhx.intAt, hlen₁]
            have hnewdir₈ : newdir.Holds w₈.disk x := by
              refine ⟨hsize₆, fun j hj => ?_⟩
              rw [hnewdir.slot j hj]
              exact (slotsAt_congr (hhx₁.inode hi₁) hhx₂ (hdx₂ fun h => h)
                (by rw [hhx₁.intAt, hlen₁]) j hj).symm
            obtain ⟨hleaf, hxok⟩ := empty_dir hisdir₈ hnewdir₈ hempty hlen₈
            obtain ⟨hV₈, htree, hwalks⟩ := hV.added hnew hw₈ hk₈ ho₈ hfoot hbits₈ hwalk hdir hd
              hd₈ hi hfree hnone hslot hleaf fun _ => hxok
            have hwalkx : Walk.walk (child w₈.disk) DirectorySector
                (dirKeys name ++ [lastKey name]) = some x := by
              refine hV₈.walk_entry ((hwalks _ (by simp)).trans hwalk) ?_ hd₈ (i := i)
                (hsz ▸ hi) ?_
              · rw [(hk₈ a (Volume.live ha)).1.intAt]
                exact hdir
              · have hslotx := congrFun hslot i
                rwa [Function.update_self] at hslotx
            have hclear : freeSectors w.disk = _ := freeSectors_of_takes hm htake₁
            have hcan : CanEnter w.disk name :=
              canEnter_of hwalk hdir hchild hd hi hfree (by omega)
            refine hok _ (hcan.canAdd (by omega)) ⟨hw₈, hV₈, ?_, ?_⟩ hwalks
              ⟨x, hwalkx, hhx.sizedAt (hl₁.sizedAt hsized')⟩
            · rw [← nodeAt_eq_dir.mpr hisdir₈]
              exact htree
            · refine hk₈.mono (fun t ht => ht) ?_
              rintro t (rfl | rfl)
              · exact Or.inl ⟨ha, hdir⟩
              · exact Or.inr rfl
          · rw [Directory.add_full hnone hroom]
            dsimp only
            rw [if_pos (by decide), Prog.wp_pure]
            refine hfail _ _ (by decide) (fun hc => ?_) ⟨k₄, rfl⟩
            obtain ⟨b, hb, i, hi, hs⟩ := hc.slot
            obtain rfl : a = b := Option.some.inj (hwalk.symm.trans hb)
            exact hroom ⟨i, hd.tableSize ▸ hi, by rw [hd.slot i hi, hs]⟩
    · rw [if_pos (by rw [hfind]; omega), Prog.wp_pure]
      refine hfail _ _ (by decide) (fun hc => ?_) ⟨k₂, rfl⟩
      have habs := hc.absent
      rw [treeOf_concat (lastKey name) hwalk, lastKey, hchild] at habs
      cases habs
  · obtain ⟨k₁, rfl⟩ := hw₁
    dsimp only
    rw [if_pos (by decide), Prog.wp_pure]
    exact hfail _ _ (by decide) (fun hc => htree hc.parent) ⟨k₁, rfl⟩

theorem wp_mkdir {name : List Byte} {Q : MsgError → World → Prop} (hV : Volume w E)
    (hname : name.length < MaxFileNameSize)
    (hfail : ∀ e w', e ≠ .NoError → ¬ CanAdd w.disk name Directory.DirectoryFileSize →
      OnlyAllocs w w' → Q e w')
    (hok : ∀ w', CanAdd w.disk name Directory.DirectoryFileSize → Added w w' E name .dir →
      Q .NoError w') :
    Prog.wp (mkdir name) Q w :=
  wp_mkdir_sized hV hname hfail fun w' hc ha _ _ => hok w' hc ha

end FileSystem

end Nachos
