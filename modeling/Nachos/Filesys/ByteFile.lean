/-
  Nachos.Filesys.ByteFile

  A handle as an array of bytes: through any sequence of `ReadAt` and `WriteAt` calls it
  answers as the array does, and no other file changes.  The header in memory is all that
  the calls need; the one on disk may be older, because a growth inside the last sector is
  not written back.
-/

import Nachos.Lib.ArrayFile
import Nachos.Lib.Run
import Nachos.Filesys.Growth

namespace Nachos

open Words Program Config Transition
open ArrayFile (elems overwrite)

variable [Config]

/-! ## Sound handles -/

/-- The numbers in a header that has grown from a new one: the chain may be too short. -/
structure FileHeader.Grown (hdr : FileHeader) (cs ds : List Nat) : Prop where
  isdir : InInt hdr.isdir
  lists : hdr.Lists cs ds
  numSectors : hdr.numSectors = ds.length
  numHeaderSectors : hdr.numHeaderSectors = cs.length
  numSectors_le : ds.length ≤ MAX_DATA_SECTORS
  chain_le : cs.length ≤ chainLength ds.length
  numBytes_nonneg : 0 ≤ hdr.numBytes
  numBytes_le : hdr.numBytes ≤ (ds.length * SectorSize : Nat)

namespace OpenFile

/-- The header of the handle lists distinct sectors that are marked in the free map and
    that are no sectors of the map itself. -/
structure Handle (w : World) (file : OpenFile) (s : Nat) (cs ds : List Nat) : Prop where
  fSector : file.fSector = s
  header : file.hdr.Grown cs ds
  nodup : (s :: (cs ++ ds)).Nodup
  marked : ∀ u ∈ s :: (cs ++ ds), u < NUM_SECTORS ∧ mapBit w.disk u = true
  mapFile : MapFile w.disk w.freeMapFile
  map_marked : ∀ u ∈ footprint w.disk FreeMapSector, mapBit w.disk u = true
  apart : ∀ u ∈ s :: (cs ++ ds), u ∉ footprint w.disk FreeMapSector

/-- A marked sector that is neither one of the handle nor one that holds the map. -/
structure Other (w : World) (s : Nat) (cs ds : List Nat) (u : Nat) : Prop where
  lt : u < NUM_SECTORS
  marked : mapBit w.disk u = true
  not_own : u ∉ s :: (cs ++ ds)
  not_map : u ∉ datas w.disk FreeMapSector

/-- The bytes of the file, as the handle has them. -/
def content (w : World) (file : OpenFile) : List Byte :=
  elems (fileByte w.disk file.hdr) file.hdr.numBytes.toNat

namespace Handle

variable {w : World} {file : OpenFile} {s : Nat} {cs ds : List Nat}

/-- The bytes that the sectors of the file have room for. -/
theorem maxFileLength (h : Handle w file s cs ds) :
    file.hdr.maxFileLength = (ds.length * SectorSize : Nat) := by
  rw [FileHeader.maxFileLength, h.header.numSectors, Int.natCast_mul]

/-- Another position. -/
theorem seek (h : Handle w file s cs ds) (q : Int) :
    Handle w { file with seekPosition := q } s cs ds :=
  ⟨h.fSector, h.header, h.nodup, h.marked, h.mapFile, h.map_marked, h.apart⟩

theorem mapped (h : Handle w file s cs ds) : file.hdr.Mapped := by
  have hds : ∀ k < file.hdr.numSectors.toNat,
      ∃ hk : k < ds.length, file.hdr.dataSectors k = (ds[k] : Int) := fun k hk =>
    ⟨h.header.lists.numSectors ▸ hk, h.header.lists.dataSectors k _⟩
  have hdn : ds.Nodup := (List.nodup_append.mp (List.nodup_cons.mp h.nodup).2).2.1
  refine ⟨fun k hk => ?_, fun i hi j hj he => ?_, ?_, ?_⟩
  · obtain ⟨hk, he⟩ := hds k hk
    exact he ▸ onDisk_natCast (h.marked _ (by simp)).1
  · obtain ⟨hi, hei⟩ := hds i hi
    obtain ⟨hj, hej⟩ := hds j hj
    rw [hei, hej] at he
    exact hdn.getElem_inj_iff.mp (by exact_mod_cast he)
  · rw [h.header.numSectors]
    exact_mod_cast h.header.numSectors_le
  · rw [h.header.numSectors, ← Int.natCast_mul]
    exact h.header.numBytes_le

omit [Config] in
theorem data_mem {u : Nat} (hu : u ∈ ds) : u ∈ s :: (cs ++ ds) :=
  List.mem_cons_of_mem _ (List.mem_append_right _ hu)

/-- A byte of the file is in one of its sectors. -/
theorem fileByte_eq (h : Handle w file s cs ds) {o : Nat} (ho : (o : Int) < file.hdr.numBytes) :
    ∃ u ∈ ds, ∀ d : Disk, fileByte d file.hdr o = d u (o % SectorSize) := by
  have hk := h.mapped.index_lt ho
  rw [h.header.lists.numSectors] at hk
  refine ⟨_, List.getElem_mem hk, fun d => ?_⟩
  rw [fileByte, h.header.lists.dataSectors _ hk, Int.toNat_natCast]

theorem length_content (h : Handle w file s cs ds) :
    ((content w file).length : Int) = file.hdr.numBytes := by
  have := h.header.numBytes_nonneg
  rw [content, ArrayFile.length_elems]
  omega

/-- Memory has been allocated. -/
theorem allocs (h : Handle w file s cs ds) {w' : World} (hw : OnlyAllocs w w') :
    Handle w' file s cs ds := by
  obtain ⟨n, rfl⟩ := hw
  exact ⟨h.fSector, h.header, h.nodup, h.marked, h.mapFile, h.map_marked, h.apart⟩

/-- Another length for the sectors that the file has. -/
theorem resize (h : Handle w file s cs ds) {n : Int} (hn : 0 ≤ n)
    (hle : n ≤ (ds.length * SectorSize : Nat)) :
    Handle w { file with hdr := { file.hdr with numBytes := n } } s cs ds :=
  ⟨h.fSector, { h.header with
    lists := ⟨h.header.lists.numHeaderSectors, h.header.lists.headerSectors,
      h.header.lists.numSectors, h.header.lists.dataSectors⟩
    numBytes_nonneg := hn
    numBytes_le := hle }, h.nodup, h.marked, h.mapFile, h.map_marked, h.apart⟩

section Sectors

variable {d : Disk} {k : Nat}

/-- What is written to the sectors of the handle is not in the map. -/
theorem sameMap (h : Handle w file s cs ds) (hd : ∀ t, t ∉ s :: (cs ++ ds) → d t = w.disk t) :
    SameHeader w.disk d FreeMapSector ∧ SameData w.disk d FreeMapSector :=
  ⟨fun u hu => hd u fun hown => h.apart u hown (Owned.header_mem hu),
    fun u hu => hd u fun hown => h.apart u hown (Owned.data_mem hu)⟩

theorem mapBit_eq (h : Handle w file s cs ds) (hd : ∀ t, t ∉ s :: (cs ++ ds) → d t = w.disk t)
    {i : Nat} (hi : i < NUM_SECTORS) : mapBit d i = mapBit w.disk i := by
  obtain ⟨hsame, hdata⟩ := h.sameMap hd
  exact mapBit_congr h.mapFile.inode h.mapFile.length hsame hdata hi

/-- The sectors of the handle may be written. -/
theorem written (h : Handle w file s cs ds) (hd : ∀ t, t ∉ s :: (cs ++ ds) → d t = w.disk t) :
    Handle { w with disk := d, allocs := k } file s cs ds := by
  obtain ⟨hsame, -⟩ := h.sameMap hd
  have hfoot := hsame.footprint h.mapFile.inode
  refine ⟨h.fSector, h.header, h.nodup, fun u hu => ?_,
    ⟨hsame.inode h.mapFile.inode, (hsame.intAt 1).trans h.mapFile.length,
      hsame.loaded h.mapFile.loaded⟩, fun u hu => ?_, fun u hu => ?_⟩
  · obtain ⟨hlt, hm⟩ := h.marked u hu
    exact ⟨hlt, (h.mapBit_eq hd hlt).trans hm⟩
  · rw [hfoot] at hu
    exact (h.mapBit_eq hd (h.mapFile.inode.lt hu)).trans (h.map_marked u hu)
  · rw [hfoot]
    exact h.apart u hu

/-- The other sectors are the same ones, and hold the same. -/
theorem written_other (h : Handle w file s cs ds)
    (hd : ∀ t, t ∉ s :: (cs ++ ds) → d t = w.disk t) {u : Nat} (hu : Other w s cs ds u) :
    Other { w with disk := d, allocs := k } s cs ds u ∧ d u = w.disk u := by
  obtain ⟨hsame, -⟩ := h.sameMap hd
  refine ⟨⟨hu.lt, (h.mapBit_eq hd hu.lt).trans hu.marked, hu.not_own, ?_⟩, hd u hu.not_own⟩
  show u ∉ datas d FreeMapSector
  rw [hsame.datas h.mapFile.inode]
  exact hu.not_map

end Sectors

/-! ## Reading and overwriting -/

theorem wp_readAt (h : Handle w file s cs ds) (n p : Nat) :
    Prog.wp (readAt file n p) (fun bytes w' => OnlyAllocs w w' ∧
      bytes = ((content w file).drop p).take n) w := by
  refine OpenFile.wp_readAt h.mapped fun w' hw => ⟨hw, ?_⟩
  rw [content, ArrayFile.elems_slice]
  rfl

/-- The last part of a write: the file has its new length, and had the bytes `a` before. -/
theorem wp_writeData (h : Handle w file s cs ds) {data a : List Byte} {p n : Nat}
    (hpos : 0 < data.length) (hp : p ≤ n) (ha : elems (fileByte w.disk file.hdr) n = a)
    (hlen : file.hdr.numBytes = (max n (p + data.length) : Nat)) {Q : Unit → World → Prop}
    (hQ : ∀ d k, content { w with disk := d, allocs := k } file = overwrite a data p →
      (∀ t, t ∉ ds → d t = w.disk t) → Q () { w with disk := d, allocs := k }) :
    Prog.wp (writeData file (fun i => data.getD i 0) data.length p) Q w := by
  refine OpenFile.wp_writeData h.mapped hpos (by omega) fun d k hw => hQ d k ?_ fun t ht => ?_
  · rw [content, hlen, Int.toNat_natCast, ← ha]
    refine ArrayFile.elems_overwrite hp (fun j hj => ?_) fun o ho hout => ?_
    · show fileByte d file.hdr (p + j) = data[j]
      rw [hw.new j hj]
      simp [hj]
    · exact hw.old o (by omega) hout
  · refine hw.frame t fun i hi _ _ he => ht ?_
    rw [h.header.lists.numSectors] at hi
    rw [h.header.lists.dataSectors i hi] at he
    obtain rfl : ds[i] = t := by exact_mod_cast he
    exact List.getElem_mem hi

end Handle

/-! ## Growing -/

/-- The sectors `L` have been taken from the free map of the disk. -/
structure Taken (d : Disk) (L : List Nat) (bits : Nat → Bool) : Prop where
  nodup : L.Nodup
  clear : ∀ u ∈ L, u < NUM_SECTORS ∧ mapBit d u = false
  bits : ∀ i < NUM_SECTORS, bits i = (mapBit d i || decide (i ∈ L))

theorem Taken.of_reads {d : Disk} {m m' : BitMap} {L : List Nat} (h : Reads d m)
    (ht : BitMap.Takes m L m') : Taken d L m'.has := by
  refine ⟨ht.nodup, fun u hu => ?_, fun i hi => ?_⟩
  · obtain ⟨hlt, hc⟩ := ht.clear u hu
    rw [h.numBits] at hlt
    exact ⟨hlt, (h.has u hlt).symm.trans hc⟩
  · rw [ht.has, h.has i hi]

namespace Handle

variable {w : World} {file : OpenFile} {s : Nat} {cs ds cs' ds' : List Nat} {bits : Nat → Bool}

omit [Config] in
/-- A sector of the handle after the growth: an old one or a new one. -/
theorem mem_grown {u : Nat} : u ∈ s :: ((cs ++ cs') ++ (ds ++ ds')) ↔
    u ∈ s :: (cs ++ ds) ∨ u ∈ cs' ++ ds' := by
  simp only [List.mem_cons, List.mem_append]
  tauto

/-- The new sectors are clear, and the old ones and those of the map are marked. -/
theorem grown_apart (h : Handle w file s cs ds) (ht : Taken w.disk (cs' ++ ds') bits) :
    ∀ u ∈ s :: ((cs ++ cs') ++ (ds ++ ds')), u ∉ footprint w.disk FreeMapSector := by
  intro u hu
  rcases mem_grown.mp hu with hu | hu
  · exact h.apart u hu
  · intro hmap
    have hc := (ht.clear u hu).2
    rw [h.map_marked u hmap] at hc
    cases hc

theorem grown_nodup (h : Handle w file s cs ds) (ht : Taken w.disk (cs' ++ ds') bits) :
    (s :: ((cs ++ cs') ++ (ds ++ ds'))).Nodup := by
  have hdisj : (s :: (cs ++ ds)).Disjoint (cs' ++ ds') := by
    intro u hu hu'
    have hc := (ht.clear u hu').2
    rw [(h.marked u hu).2] at hc
    cases hc
  have hall : ((s :: (cs ++ ds)) ++ (cs' ++ ds')).Nodup :=
    List.nodup_append'.mpr ⟨h.nodup, ht.nodup, hdisj⟩
  refine List.Perm.nodup ?_ hall
  rw [List.cons_append]
  refine List.Perm.cons s ?_
  rw [List.append_assoc, List.append_assoc]
  refine List.Perm.append_left cs ?_
  rw [← List.append_assoc, ← List.append_assoc]
  exact List.Perm.append_right ds' List.perm_append_comm

/-- The new header is not stored in the map. -/
theorem grown_map (h : Handle w file s cs ds) (ht : Taken w.disk (cs' ++ ds') bits) {d : Disk}
    (hd : ∀ t, t ∉ s :: (cs ++ cs') → d t = w.disk t) :
    SameHeader w.disk d FreeMapSector ∧ SameData w.disk d FreeMapSector := by
  have hsame : ∀ u ∈ footprint w.disk FreeMapSector, d u = w.disk u := by
    intro u hu
    refine hd u fun hown => h.grown_apart ht u ?_ hu
    rcases List.mem_cons.mp hown with rfl | hown
    · exact List.mem_cons_self
    · exact List.mem_cons_of_mem _ (List.mem_append_left _ hown)
  exact ⟨fun u hu => hsame u (Owned.header_mem hu), fun u hu => hsame u (Owned.data_mem hu)⟩

section Grown

variable {hdr' : FileHeader} {d₁ d₂ : Disk} {k : Nat}

/-- The handle with its new header, once header and map are stored. -/
theorem grown (h : Handle w file s cs ds) (ht : Taken w.disk (cs' ++ ds') bits)
    (hhdr : hdr'.Grown (cs ++ cs') (ds ++ ds'))
    (hd₁ : ∀ t, t ∉ s :: (cs ++ cs') → d₁ t = w.disk t) (hd₂ : OnlyData d₁ d₂ FreeMapSector)
    (hbits : ∀ i < NUM_SECTORS, mapBit d₂ i = bits i) :
    Handle { w with disk := d₂, allocs := k } { file with hdr := hdr' } s (cs ++ cs')
      (ds ++ ds') := by
  obtain ⟨hsame₁, -⟩ := h.grown_map ht hd₁
  have hsame := hsame₁.trans (hd₂.sameHeader (hsame₁.inode h.mapFile.inode))
  have hfoot := hsame.footprint h.mapFile.inode
  have hold : ∀ u, u < NUM_SECTORS → mapBit w.disk u = true → mapBit d₂ u = true := by
    intro u hlt hu
    rw [hbits u hlt, ht.bits u hlt, hu, Bool.true_or]
  refine ⟨h.fSector, hhdr, h.grown_nodup ht, fun u hu => ?_,
    ⟨hsame.inode h.mapFile.inode, (hsame.intAt 1).trans h.mapFile.length,
      hsame.loaded h.mapFile.loaded⟩, fun u hu => ?_, fun u hu => ?_⟩
  · rcases mem_grown.mp hu with hu | hu
    · obtain ⟨hlt, hm⟩ := h.marked u hu
      exact ⟨hlt, hold u hlt hm⟩
    · obtain ⟨hlt, -⟩ := ht.clear u hu
      refine ⟨hlt, ?_⟩
      show mapBit d₂ u = true
      rw [hbits u hlt, ht.bits u hlt, decide_eq_true hu, Bool.or_true]
  · rw [hfoot] at hu
    exact hold u (h.mapFile.inode.lt hu) (h.map_marked u hu)
  · rw [hfoot]
    exact h.grown_apart ht u hu

/-- The other sectors, and the data sectors that the file had, hold the same. -/
theorem grown_other (h : Handle w file s cs ds) (ht : Taken w.disk (cs' ++ ds') bits)
    (hd₁ : ∀ t, t ∉ s :: (cs ++ cs') → d₁ t = w.disk t) (hd₂ : OnlyData d₁ d₂ FreeMapSector)
    (hbits : ∀ i < NUM_SECTORS, mapBit d₂ i = bits i) :
    (∀ u, Other w s cs ds u →
      Other { w with disk := d₂, allocs := k } s (cs ++ cs') (ds ++ ds') u ∧ d₂ u = w.disk u) ∧
      ∀ u ∈ ds, d₂ u = w.disk u := by
  obtain ⟨hsame₁, -⟩ := h.grown_map ht hd₁
  have hsame := hsame₁.trans (hd₂.sameHeader (hsame₁.inode h.mapFile.inode))
  have hsame₂ : ∀ u, u ∉ datas w.disk FreeMapSector → u ∉ s :: (cs ++ cs') →
      d₂ u = w.disk u := by
    intro u hmap hown
    rw [hd₂ u (by rwa [hsame₁.datas h.mapFile.inode]), hd₁ u hown]
  refine ⟨fun u hu => ?_, fun u hu => ?_⟩
  · -- It is marked, so it is not one of the new sectors.
    have hnew : u ∉ s :: ((cs ++ cs') ++ (ds ++ ds')) := by
      intro hmem
      rcases mem_grown.mp hmem with hown | hnew
      · exact hu.not_own hown
      · have hc := (ht.clear u hnew).2
        rw [hu.marked] at hc
        cases hc
    refine ⟨⟨hu.lt, ?_, hnew, ?_⟩, hsame₂ u hu.not_map fun hown => hnew ?_⟩
    · show mapBit d₂ u = true
      rw [hbits u hu.lt, ht.bits u hu.lt, hu.marked, Bool.true_or]
    · show u ∉ datas d₂ FreeMapSector
      rw [hsame.datas h.mapFile.inode]
      exact hu.not_map
    · rcases List.mem_cons.mp hown with rfl | hown
      · exact List.mem_cons_self
      · exact List.mem_cons_of_mem _ (List.mem_append_left _ hown)
  · have hmem : u ∈ s :: (cs ++ ds) := List.mem_cons_of_mem _ (List.mem_append_right _ hu)
    refine hsame₂ u (fun hmap => h.apart u hmem (Owned.data_mem hmap)) fun hown => ?_
    have hn := h.grown_nodup ht
    rw [← List.cons_append] at hn
    exact (List.nodup_append.mp hn).2.2 u hown u (List.mem_append_left _ hu) rfl

/-- The table has the old sectors in front. -/
theorem grown_byte (h : Handle w file s cs ds) (hlists : hdr'.Lists (cs ++ cs') (ds ++ ds'))
    {o : Nat} (ho : (o : Int) < file.hdr.numBytes) (d : Disk) :
    fileByte d hdr' o = fileByte d file.hdr o := by
  have hk := h.mapped.index_lt ho
  rw [h.header.lists.numSectors] at hk
  have hk' : o / SectorSize < (ds ++ ds').length := by
    rw [List.length_append]
    omega
  rw [fileByte, fileByte, h.header.lists.dataSectors _ hk, hlists.dataSectors _ hk',
    List.getElem_append_left hk]

end Grown

end Handle

/-! ## A write -/

theorem sectorCount_le {length : Nat} (h : length ≤ MAX_FILE_LENGTH) :
    sectorCount length ≤ MAX_DATA_SECTORS := by
  have hle := FileHeader.sectorsFor_le (show (length : Int) ≤ MAX_FILE_LENGTH by exact_mod_cast h)
  rw [sectorsFor_natCast] at hle
  exact_mod_cast hle

theorem le_sectorCount_mul (length : Nat) : length ≤ sectorCount length * SectorSize := by
  have hcover := FileHeader.sectorsFor_cover (length : Int)
  rw [sectorsFor_natCast, ← Int.natCast_mul] at hcover
  exact_mod_cast hcover

theorem chainLength_mono {a b : Nat} (h : a ≤ b) : chainLength a ≤ chainLength b :=
  Nat.div_le_div_right (by omega)

theorem chainLength_le {n : Nat} (h : n ≤ MAX_DATA_SECTORS) : chainLength n ≤ 31 := by
  have hle := FileHeader.headersFor_le (show (n : Int) ≤ MAX_DATA_SECTORS by exact_mod_cast h)
  rw [headersFor_natCast] at hle
  exact_mod_cast hle

/-- A header of the length that a growth gives it. -/
theorem Handle.header_grown {w : World} {file : OpenFile} {s length : Nat}
    {cs ds cs' ds' : List Nat} {hdr' : FileHeader} (h : Handle w file s cs ds)
    (hmax : length ≤ MAX_FILE_LENGTH)
    (hds : ds.length ≤ sectorCount length) (hcs' : cs'.length = chainLength ds.length - cs.length)
    (hds' : ds'.length = sectorCount length - ds.length)
    (hlists : hdr'.Lists (cs ++ cs') (ds ++ ds'))
    (hn : hdr'.numSectors = (sectorCount length : Int))
    (hc : hdr'.numHeaderSectors = (chainLength ds.length : Int))
    (hb : hdr'.numBytes = (length : Int)) (hd : hdr'.isdir = file.hdr.isdir) :
    hdr'.Grown (cs ++ cs') (ds ++ ds') := by
  have hlen : (ds ++ ds').length = sectorCount length := by
    rw [List.length_append]
    omega
  have hclen : (cs ++ cs').length = chainLength ds.length := by
    have := h.header.chain_le
    rw [List.length_append]
    omega
  refine ⟨hd ▸ h.header.isdir, hlists, by rw [hn, hlen], by rw [hc, hclen],
    hlen ▸ sectorCount_le hmax, ?_, by omega, ?_⟩
  · rw [hclen, hlen]
    exact chainLength_mono hds
  · rw [hb, hlen]
    exact_mod_cast le_sectorCount_mul length

/-- The clear sectors that a growth to `length` bytes asks for. -/
def growth (hdr : FileHeader) (length : Int) : Int :=
  (FileHeader.sectorsFor length - hdr.numSectors) +
    (FileHeader.headersFor hdr.numSectors - hdr.numHeaderSectors)

/-- The numbers of a header that has grown to `length` bytes in new sectors. -/
structure Regrown (hdr hdr' : FileHeader) (length : Nat) : Prop where
  numBytes : hdr'.numBytes = (length : Int)
  numSectors : hdr'.numSectors = FileHeader.sectorsFor length
  numHeaderSectors : hdr'.numHeaderSectors = FileHeader.headersFor hdr.numSectors

/-- The new header and the new map of a growth for which there are the sectors. -/
theorem Handle.wp_reAllocate {w : World} {file : OpenFile} {s length : Nat} {cs ds : List Nat}
    {Q : Bool × FileHeader × BitMap → World → Prop} (h : Handle w file s cs ds)
    (hgrow : file.hdr.maxFileLength < (length : Int)) (hmax : length ≤ MAX_FILE_LENGTH)
    (hroom : growth file.hdr length ≤ freeSectors w.disk)
    (hQ : ∀ hdr' m' cs' ds' n, hdr'.Grown (cs ++ cs') (ds ++ ds') →
      Regrown file.hdr hdr' length → hdr'.isdir = file.hdr.isdir →
      Taken w.disk (cs' ++ ds') m'.has → m'.numBits = NUM_SECTORS →
      Q (true, hdr', m') { w with allocs := n }) :
    Prog.wp BitMap.fetchFreeMap
      (fun m w₁ => Prog.wp (file.hdr.reAllocate m length) Q w₁) w := by
  rw [h.maxFileLength] at hgrow
  have hds : ds.length ≤ sectorCount length := by
    have hlt : ds.length * SectorSize < sectorCount length * SectorSize := by
      have := le_sectorCount_mul length
      omega
    exact Nat.le_of_lt (Nat.lt_of_mul_lt_mul_right hlt)
  unfold growth at hroom
  rw [sectorsFor_natCast, h.header.numSectors, headersFor_natCast,
    h.header.numHeaderSectors] at hroom
  refine BitMap.wp_fetchFreeMap h.mapFile fun m w₁ hm hw₁ => ?_
  obtain ⟨n₁, rfl⟩ := hw₁
  refine FileHeader.wp_reAllocate h.header.lists h.header.numSectors h.header.numHeaderSectors
    h.header.chain_le hds hmax (fun hfew => ?_)
    fun hdr' m' cs' ds' _ hcs' hds' hlists hn hc hb hd htake => ?_
  · rw [hm.numClear] at hfew
    have := h.header.chain_le
    omega
  · have hre : Regrown file.hdr hdr' length := ⟨hb, by rw [hn, sectorsFor_natCast], by
      rw [hc, h.header.numSectors, headersFor_natCast]⟩
    exact hQ hdr' m' cs' ds' n₁ (h.header_grown hmax hds hcs' hds' hlists hn hc hb hd) hre hd
      (Taken.of_reads hm htake) (htake.numBits.trans hm.numBits)

/-- A growth to `length` bytes has stored the new header and the new map. -/
structure Stretched (w : World) (file : OpenFile) (s length : Nat) (cs ds cs' ds' : List Nat)
    (hdr' : FileHeader) (w₂ : World) : Prop where
  handle : Handle w₂ { file with hdr := hdr' } s (cs ++ cs') (ds ++ ds')
  regrown : Regrown file.hdr hdr' length
  loaded : Loaded w₂.disk s hdr'
  taken : Taken w.disk (cs' ++ ds') (mapBit w₂.disk)
  other : ∀ u, Other w s cs ds u →
    Other w₂ s (cs ++ cs') (ds ++ ds') u ∧ w₂.disk u = w.disk u
  data : ∀ u ∈ ds, w₂.disk u = w.disk u

/-- The numbers of a header are `int`s. -/
theorem inInt_of_grown {hdr : FileHeader} {cs ds : List Nat} (h : hdr.Grown cs ds) :
    InInt hdr.numSectors ∧ InInt hdr.numHeaderSectors ∧ InInt hdr.numBytes := by
  have hn := h.numSectors
  have hmax := h.numSectors_le
  have hlt := FileHeader.MAX_DATA_SECTORS_lt
  have hc := h.numHeaderSectors
  have hchain := h.chain_le.trans (chainLength_le hmax)
  have hb := h.numBytes_nonneg
  have hle := h.numBytes_le
  have hfit : ds.length * SectorSize ≤ MAX_FILE_LENGTH := Nat.mul_le_mul_right _ hmax
  have hlt' := MAX_FILE_LENGTH_lt
  exact ⟨⟨by omega, by omega⟩, ⟨by omega, by omega⟩, ⟨by omega, by omega⟩⟩

/-- The part of a growing write before its data: sectors are taken, and the header and the map
    are stored. -/
theorem Handle.wp_stretch {w : World} {file : OpenFile} {s length : Nat} {cs ds : List Nat}
    (h : Handle w file s cs ds) (hgrow : file.hdr.maxFileLength < (length : Int))
    (hmax : length ≤ MAX_FILE_LENGTH) (hroom : growth file.hdr length ≤ freeSectors w.disk)
    (rest fail : FileHeader → Prog World (Int × OpenFile)) {Q : Int × OpenFile → World → Prop}
    (hQ : ∀ hdr' cs' ds' w₂, OnlyDisk w w₂ → hdr'.isdir = file.hdr.isdir →
      Stretched w file s length cs ds cs' ds' hdr' w₂ → Prog.wp (rest hdr') Q w₂) :
    Prog.wp (do
      let freeMap ← BitMap.fetchFreeMap
      let (ok, hdr, freeMap) ← file.hdr.reAllocate freeMap length
      if ok then
        hdr.writeBack file.fSector
        freeMap.writeBack
        rest hdr
      else fail hdr) Q w := by
  rw [Prog.wp_bind]
  simp only [Prog.wp_bind (p := FileHeader.reAllocate _ _ _)]
  refine h.wp_reAllocate hgrow hmax hroom fun hdr' m' cs' ds' n₁ hhdr hre hisdir ht hbits' => ?_
  obtain ⟨hns, hnh, hnb⟩ := inInt_of_grown hhdr
  dsimp only
  rw [if_pos rfl, Prog.wp_bind, h.fSector]
  refine FileHeader.wp_writeBack_chain hhdr.lists hhdr.isdir hnb hns hnh (h.grown_nodup ht)
    (fun u hu => ?_) fun d₁ hl₁ hd₁ => ?_
  · rcases mem_grown.mp hu with hu | hu
    · exact (h.marked u hu).1
    · exact (ht.clear u hu).1
  · obtain ⟨hsame₁, -⟩ := h.grown_map ht hd₁
    rw [Prog.wp_bind]
    refine BitMap.wp_writeBack ⟨hsame₁.inode h.mapFile.inode,
      (hsame₁.intAt 1).trans h.mapFile.length, hsame₁.loaded h.mapFile.loaded⟩ hbits'
      fun d₂ k₂ hd₂ hbits => ?_
    have h₂ := h.grown (k := k₂) ht hhdr hd₁ hd₂ hbits
    obtain ⟨hother, hdata⟩ := h.grown_other (k := k₂) ht hd₁ hd₂ hbits
    -- The map is not written to the sectors of the header.
    have hsame₂ : SameHeader d₁ d₂ s := fun u hu => hd₂ u fun hmap => by
      rw [hsame₁.datas h.mapFile.inode] at hmap
      refine h.grown_apart ht u ?_ (Owned.data_mem hmap)
      rcases hu with rfl | hu
      · exact List.mem_cons_self
      · rw [hl₁.conts_eq hhdr.lists] at hu
        exact List.mem_cons_of_mem _ (List.mem_append_left _ hu)
    exact hQ hdr' cs' ds' _ ⟨d₂, k₂, rfl⟩ hisdir ⟨h₂, hre, hsame₂.loaded hl₁,
      ⟨ht.nodup, ht.clear, fun i hi => (hbits i hi).trans (ht.bits i hi)⟩, hother, hdata⟩

/-- What a write returns and leaves. -/
structure Put (w : World) (file : OpenFile) (s : Nat) (cs ds : List Nat) (data : List Byte)
    (p : Nat) (r : Int × OpenFile) (w' : World) : Prop where
  count : r.1 = data.length
  seekPosition : r.2.seekPosition = file.seekPosition
  content : content w' r.2 = overwrite (content w file) data p
  /-- Within the sectors that the file has, nothing but its data is written. -/
  within : ((p + data.length : Nat) : Int) ≤ file.hdr.maxFileLength →
    r.2.hdr = { file.hdr with numBytes := (max file.hdr.numBytes.toNat (p + data.length) : Nat) } ∧
      ∀ t, t ∉ ds → w'.disk t = w.disk t
  /-- A growth in new sectors stores the header. -/
  stored : file.hdr.maxFileLength < ((p + data.length : Nat) : Int) →
    Loaded w'.disk s r.2.hdr ∧ Regrown file.hdr r.2.hdr (p + data.length)
  handle : ∃ cs' ds', Handle w' r.2 s (cs ++ cs') (ds ++ ds') ∧ ∀ u, Other w s cs ds u →
    Other w' s (cs ++ cs') (ds ++ ds') u ∧ w'.disk u = w.disk u

/-- What a write does to the whole state: the sectors that it takes are new ones of the file. -/
structure Takes (w : World) (file : OpenFile) (s : Nat) (cs ds : List Nat) (file' : OpenFile)
    (w' : World) : Prop where
  onlyDisk : OnlyDisk w w'
  isdir : file'.hdr.isdir = file.hdr.isdir
  taken : ∃ cs' ds', Handle w' file' s (cs ++ cs') (ds ++ ds') ∧
    Taken w.disk (cs' ++ ds') (mapBit w'.disk)

namespace Handle

variable {w : World} {file : OpenFile} {s : Nat} {cs ds : List Nat} {data : List Byte} {p : Nat}

/-- Only the sectors of the handle have been written. -/
theorem takes_none {file' : OpenFile} {d : Disk} {k : Nat} (h : Handle w file' s cs ds)
    (hisdir : file'.hdr.isdir = file.hdr.isdir) (hd : ∀ t, t ∉ s :: (cs ++ ds) → d t = w.disk t) :
    Takes w file s cs ds file' { w with disk := d, allocs := k } := by
  refine ⟨⟨d, k, rfl⟩, hisdir, [], [], ?_, List.nodup_nil, fun u hu => absurd hu List.not_mem_nil,
    fun i hi => ?_⟩
  · rw [List.append_nil, List.append_nil]
    exact h.written hd
  · show mapBit d i = _
    rw [h.mapBit_eq hd hi, List.append_nil, decide_eq_false List.not_mem_nil, Bool.or_false]

/-- The last part of a write that takes no sectors. -/
theorem put_of_resize (h : Handle w file s cs ds) (hpos : 0 < data.length)
    (hp : (p : Int) ≤ file.hdr.numBytes) (hfit : ((p + data.length : Nat) : Int) ≤
      (ds.length * SectorSize : Nat)) {file' : OpenFile}
    (hfile : file' = { file with hdr :=
      { file.hdr with numBytes := (max file.hdr.numBytes.toNat (p + data.length) : Nat) } }) :
    Prog.wp (writeData file' (fun i => data.getD i 0) data.length p)
      (fun _ w' => Put w file s cs ds data p ((data.length : Int), file') w' ∧
        Takes w file s cs ds file' w') w := by
  have hle := h.header.numBytes_le
  have hcap := h.maxFileLength
  have hsized := h.resize (n := (max file.hdr.numBytes.toNat (p + data.length) : Nat))
    (Int.natCast_nonneg _) (by omega)
  rw [← hfile] at hsized
  have hbytes : file'.hdr.numBytes = (max file.hdr.numBytes.toNat (p + data.length) : Nat) := by
    rw [hfile]
  refine hsized.wp_writeData (a := content w file) hpos (by omega) ?_ hbytes
    fun d k hcontent hd => ⟨⟨rfl, by rw [hfile], hcontent, fun _ => ⟨by rw [hfile], hd⟩,
      fun hlt => by omega, [], [], ?_⟩, hsized.takes_none (by rw [hfile])
        fun t ht => hd t fun h => ht (data_mem h)⟩
  · rw [hfile]
    rfl
  · have hd' : ∀ t, t ∉ s :: (cs ++ ds) → d t = w.disk t := fun t ht =>
      hd t fun h => ht (data_mem h)
    rw [List.append_nil, List.append_nil]
    exact ⟨hsized.written hd', fun u hu => h.written_other hd' hu⟩

/-- `WriteAt` from a position in the file or at its end, and the sectors that it takes. -/
theorem wp_writeAt_takes (h : Handle w file s cs ds) (hpos : 0 < data.length)
    (hp : (p : Int) ≤ file.hdr.numBytes) (hmax : p + data.length ≤ MAX_FILE_LENGTH)
    (hroom : file.hdr.maxFileLength < ((p + data.length : Nat) : Int) →
      growth file.hdr ((p + data.length : Nat) : Int) ≤ freeSectors w.disk) :
    Prog.wp (writeAt file (fun i => data.getD i 0) data.length p)
      (fun r w' => Put w file s cs ds data p r w' ∧ Takes w file s cs ds r.2 w') w := by
  have hle := h.header.numBytes_le
  have hcap := h.maxFileLength
  have hlength : file.hdr.fileLength = file.hdr.numBytes := rfl
  have hnone : ¬ ((data.length : Int) ≤ 0 ∨ (p : Int) > file.hdr.fileLength) := by omega
  unfold writeAt writeAtWith
  dsimp only
  rw [if_neg hnone, ← Int.natCast_add]
  by_cases hgrow : ((p + data.length : Nat) : Int) > file.hdr.maxFileLength
  · -- More sectors are taken, and the header and the map are stored first.
    rw [if_pos hgrow]
    refine h.wp_stretch hgrow hmax (hroom hgrow)
      (fun hdr => do
        writeData { file with hdr := hdr } (fun i => data.getD i 0) data.length p
        return ((data.length : Int), { file with hdr := hdr }))
      (fun hdr => do
        writeData { file with hdr := hdr } (fun i => data.getD i 0) (file.hdr.fileLength - p) p
        return (file.hdr.fileLength - p, { file with hdr := hdr }))
      fun hdr' cs' ds' w₂ hw₂ hisdir hst => ?_
    obtain ⟨d₂, k₂, rfl⟩ := hw₂
    have h₂ := hst.handle
    have hb : hdr'.numBytes = ((p + data.length : Nat) : Int) := hst.regrown.numBytes
    simp only [Prog.wp_bind, Prog.wp_pure]
    refine h₂.wp_writeData (a := content w file) (n := file.hdr.numBytes.toNat) hpos (by omega)
      ?_ ?_ fun d₃ k₃ hcontent hd₃ => ⟨⟨rfl, rfl, hcontent, fun hin => by omega,
        fun _ => ⟨?_, hst.regrown⟩, cs', ds',
        h₂.written fun t ht => hd₃ t fun h => ht (data_mem h), fun u hu => ?_⟩,
        ⟨d₃, k₃, rfl⟩, hisdir, cs', ds', h₂.written fun t ht => hd₃ t fun h => ht (data_mem h),
        hst.taken.nodup, hst.taken.clear, fun i hi => ?_⟩
    · -- The bytes that the file had are still there.
      apply List.map_congr_left
      intro o ho
      have ho' : (o : Int) < file.hdr.numBytes := by
        have := List.mem_range.mp ho
        omega
      obtain ⟨u, hu, hbyte⟩ := h.fileByte_eq ho'
      show fileByte d₂ hdr' o = fileByte w.disk file.hdr o
      have hdata : d₂ u = w.disk u := hst.data u hu
      rw [h.grown_byte h₂.header.lists ho', hbyte, hbyte, hdata]
    · show hdr'.numBytes = _
      rw [hb, Nat.max_eq_right (by omega)]
    · -- The data are not written to the sectors of the header.
      have hsame₃ : SameHeader d₂ d₃ s := fun u hu => hd₃ u fun hdata => by
        have hn := h₂.nodup
        rw [← List.cons_append] at hn
        refine (List.nodup_append.mp hn).2.2 u ?_ u hdata rfl
        rw [hst.loaded.conts_eq h₂.header.lists] at hu
        rcases hu with rfl | hu
        · exact List.mem_cons_self
        · exact List.mem_cons_of_mem _ hu
      exact hsame₃.loaded hst.loaded
    · obtain ⟨hother₂, hsame₂⟩ := hst.other u hu
      obtain ⟨hother₃, hsame₃⟩ := h₂.written_other (k := k₃)
        (fun t ht => hd₃ t fun h => ht (data_mem h)) hother₂
      exact ⟨hother₃, hsame₃.trans hsame₂⟩
    · -- Nor to those of the map.
      exact (h₂.mapBit_eq (fun t ht => hd₃ t fun h => ht (data_mem h)) hi).trans
        (hst.taken.bits i hi)
  · rw [if_neg hgrow]
    by_cases hlong : ((p + data.length : Nat) : Int) > file.hdr.fileLength
    · -- The file grows in its last sector.
      have hchange : file.hdr.changeFileLength ((p + data.length : Nat) : Int) =
          some { file.hdr with numBytes := ((p + data.length : Nat) : Int) } :=
        if_pos (by exact_mod_cast hmax)
      rw [if_pos hlong, hchange]
      simp only [Prog.wp_bind, Prog.wp_ofOption, Prog.wp_pure]
      refine ⟨_, rfl, h.put_of_resize hpos hp (by omega) ?_⟩
      rw [Nat.max_eq_right (by omega)]
    · rw [if_neg hlong]
      simp only [Prog.wp_bind, Prog.wp_pure]
      refine h.put_of_resize hpos hp (by omega) ?_
      rw [Nat.max_eq_left (by omega), Int.toNat_of_nonneg h.header.numBytes_nonneg]

/-- `WriteAt` from a position in the file or at its end. -/
theorem wp_writeAt (h : Handle w file s cs ds) (hpos : 0 < data.length)
    (hp : (p : Int) ≤ file.hdr.numBytes) (hmax : p + data.length ≤ MAX_FILE_LENGTH)
    (hroom : file.hdr.maxFileLength < ((p + data.length : Nat) : Int) →
      growth file.hdr ((p + data.length : Nat) : Int) ≤ freeSectors w.disk) :
    Prog.wp (writeAt file (fun i => data.getD i 0) data.length p)
      (Put w file s cs ds data p) w :=
  Prog.wp_mono (h.wp_writeAt_takes hpos hp hmax hroom) fun _ _ hq => hq.1

/-- Nothing is written from beyond the end, and no bytes are none. -/
theorem wp_writeAt_none (file : OpenFile) (source : Nat → Byte) {n : Nat} {p : Int} (w : World)
    (hnone : n = 0 ∨ p > file.hdr.numBytes) :
    Prog.wp (writeAt file source n p) (fun r w' => r = (0, file) ∧ w' = w) w := by
  have hlength : file.hdr.fileLength = file.hdr.numBytes := rfl
  have hcond : (n : Int) ≤ 0 ∨ p > file.hdr.fileLength := by omega
  unfold writeAt writeAtWith
  dsimp only
  rw [if_pos hcond, Prog.wp_pure]
  exact ⟨rfl, rfl⟩

end Handle

/-! ## Sequences of calls -/

/-- A handle in use, and what its calls have returned. -/
structure Session where
  w : World
  file : OpenFile
  replies : List (ArrayFile.Reply Byte)

/-- Where the code computes `position + numBytes`, it is an `int`. -/
def Defined (file : OpenFile) : ArrayFile.Call Byte → Prop
  | .readAt n p => (p : Int) < file.hdr.numBytes → InInt ((p : Int) + n)
  | .writeAt data p => (p : Int) ≤ file.hdr.numBytes → InInt ((p : Int) + data.length)

instance (file : OpenFile) (c : ArrayFile.Call Byte) : Decidable (Defined file c) :=
  match c with
  | .readAt _ _ => inferInstanceAs (Decidable (_ → _))
  | .writeAt _ _ => inferInstanceAs (Decidable (_ → _))

/-- A call through the handle. -/
def callStep (σ : Session) (c : ArrayFile.Call Byte) : Option Session :=
  if Defined σ.file c then
    match c with
    | .readAt n p => ((σ.file.readAt n p).run σ.w).map fun (bytes, w) =>
        ⟨w, σ.file, σ.replies ++ [.data bytes]⟩
    | .writeAt data p =>
        ((σ.file.writeAt (fun i => data.getD i 0) data.length p).run σ.w).map
          fun ((count, file), w) => ⟨w, file, σ.replies ++ [.count count]⟩
  else none

/-- The file stays within `MAX_FILE_LENGTH`, and there are the clear sectors for it. -/
def Legal (σ : Session) : ArrayFile.Call Byte → Prop
  | .readAt n p => Defined σ.file (.readAt n p)
  | .writeAt data p => (p : Int) ≤ σ.file.hdr.numBytes →
      p + data.length ≤ MAX_FILE_LENGTH ∧
        (σ.file.hdr.maxFileLength < ((p + data.length : Nat) : Int) →
          growth σ.file.hdr ((p + data.length : Nat) : Int) ≤ freeSectors σ.w.disk)

/-- The handle answers as the array of its bytes does, and the other sectors are the same. -/
structure Agrees (w : World) (file : OpenFile) (s : Nat) (cs ds : List Nat)
    (calls : List (ArrayFile.Call Byte)) (σ : Session) : Prop where
  replies : σ.replies = ArrayFile.replies (content w file) calls
  content : content σ.w σ.file = calls.foldl ArrayFile.after (content w file)
  handle : ∃ cs' ds', Handle σ.w σ.file s cs' ds' ∧ ∀ u, Other w s cs ds u →
    Other σ.w s cs' ds' u ∧ σ.w.disk u = w.disk u

section Sessions

variable {w : World} {file : OpenFile} {s : Nat} {cs ds : List Nat}
  {calls : List (ArrayFile.Call Byte)} {σ : Session}

/-- One call more. -/
theorem Agrees.snoc (h : Agrees w file s cs ds calls σ) {c : ArrayFile.Call Byte} {σ' : Session}
    {r : ArrayFile.Reply Byte} {cs₁ ds₁ cs₂ ds₂ : List Nat}
    (hother : ∀ u, Other w s cs ds u → Other σ.w s cs₁ ds₁ u ∧ σ.w.disk u = w.disk u)
    (hreplies : σ'.replies = σ.replies ++ [r])
    (hr : r = ArrayFile.reply (OpenFile.content σ.w σ.file) c)
    (ha : OpenFile.content σ'.w σ'.file = ArrayFile.after (OpenFile.content σ.w σ.file) c)
    (h₂ : Handle σ'.w σ'.file s cs₂ ds₂)
    (hother₂ : ∀ u, Other σ.w s cs₁ ds₁ u → Other σ'.w s cs₂ ds₂ u ∧ σ'.w.disk u = σ.w.disk u) :
    Agrees w file s cs ds (calls ++ [c]) σ' := by
  refine ⟨?_, ?_, cs₂, ds₂, h₂, fun u hu => ?_⟩
  · rw [hreplies, ArrayFile.replies_concat, ← h.replies, ← h.content, hr]
  · rw [List.foldl_concat, ← h.content, ha]
  · obtain ⟨hu₁, he₁⟩ := hother u hu
    obtain ⟨hu₂, he₂⟩ := hother₂ u hu₁
    exact ⟨hu₂, he₂.trans he₁⟩

/-- A legal call returns, and the handle agrees with the array afterwards. -/
theorem Agrees.step (h : Agrees w file s cs ds calls σ) {c : ArrayFile.Call Byte} (hl : Legal σ c) :
    ∃ σ', callStep σ c = some σ' ∧ Agrees w file s cs ds (calls ++ [c]) σ' := by
  obtain ⟨cs₁, ds₁, h₁, hother⟩ := h.handle
  have hlength := h₁.length_content
  cases c with
  | readAt n p =>
      obtain ⟨bytes, w', hrun, ⟨k, rfl⟩, hbytes⟩ := h₁.wp_readAt n p
      have hdefined : Defined σ.file (.readAt n p) := hl
      refine ⟨⟨{ σ.w with allocs := k }, σ.file, σ.replies ++ [.data bytes]⟩, ?_, ?_⟩
      · unfold callStep
        rw [if_pos hdefined]
        dsimp only
        rw [hrun]
        rfl
      · exact h.snoc hother rfl (by rw [hbytes]; rfl) rfl (h₁.allocs ⟨k, rfl⟩)
          fun u hu => ⟨⟨hu.lt, hu.marked, hu.not_own, hu.not_map⟩, rfl⟩
  | writeAt data p =>
      have hdefined : Defined σ.file (.writeAt data p) := by
        intro hp
        have hmax := (hl hp).1
        have := MAX_FILE_LENGTH_lt
        constructor <;> omega
      -- What the call of the code comes to when `WriteAt` returns.
      have hstep : ∀ r w', (σ.file.writeAt (fun i => data.getD i 0) data.length p).run σ.w =
          some (r, w') → callStep σ (.writeAt data p) =
            some ⟨w', r.2, σ.replies ++ [.count r.1]⟩ := by
        intro r w' hrun
        unfold callStep
        rw [if_pos hdefined]
        dsimp only
        rw [hrun]
        rfl
      by_cases hnone : data.length = 0 ∨ (p : Int) > σ.file.hdr.numBytes
      -- From beyond the end nothing is written, and no bytes are none.
      · obtain ⟨r, w', hrun, rfl, rfl⟩ := Handle.wp_writeAt_none σ.file (fun i => data.getD i 0) σ.w
          hnone
        refine ⟨_, hstep _ _ hrun, h.snoc hother rfl ?_ ?_ h₁ fun u hu => ⟨hu, rfl⟩⟩
        · unfold ArrayFile.reply
          dsimp only
          congr 1
          split <;> omega
        · unfold ArrayFile.after
          dsimp only
          split
          · -- No bytes have been overwritten.
            obtain rfl := List.eq_nil_of_length_eq_zero (show data.length = 0 by omega)
            rw [overwrite, List.append_nil, List.length_nil, Nat.add_zero, List.take_append_drop]
          · rfl
      · have hp : (p : Int) ≤ σ.file.hdr.numBytes := by omega
        obtain ⟨hmax, hroom⟩ := hl hp
        obtain ⟨r, w', hrun, hput⟩ := h₁.wp_writeAt (by omega) hp hmax hroom
        obtain ⟨cs₂, ds₂, h₂, hother₂⟩ := hput.handle
        have hin : p ≤ (OpenFile.content σ.w σ.file).length := by omega
        refine ⟨_, hstep _ _ hrun, h.snoc hother rfl ?_ ?_ h₂ hother₂⟩
        · unfold ArrayFile.reply
          dsimp only
          rw [if_pos hin, hput.count]
        · unfold ArrayFile.after
          dsimp only
          rw [if_pos hin]
          exact hput.content

end Sessions

omit [Config] in
theorem fullWorld_footprint :
    ∀ u, u ∈ @footprint Config.defaults fullWorld.disk 0 → u = 0 ∨ u = 2 ∨ u = 3 := by
  let _ := Config.defaults
  intro u hu
  have hcount : dataCount fullWorld.disk 0 = 2 := by decide +kernel
  have hchain : contCount fullWorld.disk 0 = 0 := by decide +kernel
  rcases mem_footprint.mp hu with rfl | hu | hu
  · exact Or.inl rfl
  · obtain ⟨j, hj, -⟩ := mem_conts.mp hu
    omega
  · obtain ⟨i, hi, rfl⟩ := mem_datas.mp hu
    rw [hcount] at hi
    rw [fullWorld_dataAt i hi]
    omega

omit [Config] in
theorem oneSector_handle : @Handle Config.defaults fullWorld oneSector 4 [] [5] := by
  let _ := Config.defaults
  have hfoot := fullWorld_footprint
  have hlists : oneSector.hdr.Lists [] [5] := by
    refine ⟨rfl, nofun, rfl, fun i hi => ?_⟩
    obtain rfl : i = 0 := by simpa using hi
    rfl
  have hown : ∀ u ∈ 4 :: ([] ++ [5]), u = 4 ∨ u = 5 := by simp
  refine ⟨rfl, ⟨by decide, hlists, rfl, rfl, by decide, by decide, by decide, by decide⟩, by decide,
    fun u hu => ?_, fullWorld_mapFile, fun u hu => ?_, fun u hu hmap => ?_⟩
  · have hlt : u < 2048 := by
      have := hown u hu
      omega
    exact ⟨hlt, fullWorld_mapBit u hlt⟩
  · have hu' := hfoot u hu
    exact fullWorld_mapBit u (by omega)
  · have hu' := hown u hu
    have hmap' := hfoot u hmap
    omega

end OpenFile

end Nachos
