/-
  Nachos.Filesys.Inode

  A file as it lies on the disk: the header at sector `s`, the sectors its chain
  lists, and its bytes.  `Inode d s` says that these sectors are sound.  The
  header sectors alone determine the lists, so a write elsewhere keeps them, and
  a write to the data sectors changes nothing but the bytes.
-/

import Mathlib.Data.List.Nodup
import Nachos.Filesys.OpenFileSpec

namespace Nachos

open Words Program Config

variable [Config]

/-! ## The sectors of a file -/

def contCount (d : Disk) (s : Nat) : Nat := (intAt d s 3).toNat

def dataCount (d : Disk) (s : Nat) : Nat := (intAt d s 2).toNat

/-- The continuation sectors. -/
def conts (d : Disk) (s : Nat) : List Nat :=
  (List.range (contCount d s)).map fun j => (contAt d s j).toNat

/-- The data sectors. -/
def datas (d : Disk) (s : Nat) : List Nat :=
  (List.range (dataCount d s)).map fun i => (dataAt d s i).toNat

/-- All the sectors of the file with the header at `s`. -/
def footprint (d : Disk) (s : Nat) : List Nat := s :: (conts d s ++ datas d s)

/-- Byte `o` of the file with the header at `s`. -/
def byteAt (d : Disk) (s o : Nat) : Byte := d (dataAt d s (o / SectorSize)).toNat (o % SectorSize)

/-- The header at `s` is sound. -/
structure Inode (d : Disk) (s : Nat) : Prop where
  contCount_le : intAt d s 3 ≤ 31
  dataCount_le : intAt d s 2 ≤ MAX_DATA_SECTORS
  room : dataCount d s ≤ chainRoom d s
  length_le : intAt d s 1 ≤ intAt d s 2 * SectorSize
  conts_onDisk : ∀ j < contCount d s, OnDisk (contAt d s j)
  datas_onDisk : ∀ i < dataCount d s, OnDisk (dataAt d s i)
  onDisk : s < NUM_SECTORS
  nodup : (footprint d s).Nodup

theorem mem_conts {d : Disk} {s u : Nat} :
    u ∈ conts d s ↔ ∃ j < contCount d s, (contAt d s j).toNat = u := by
  simp [conts]

theorem mem_datas {d : Disk} {s u : Nat} :
    u ∈ datas d s ↔ ∃ i < dataCount d s, (dataAt d s i).toNat = u := by
  simp [datas]

theorem mem_footprint {d : Disk} {s u : Nat} :
    u ∈ footprint d s ↔ u = s ∨ u ∈ conts d s ∨ u ∈ datas d s := by
  simp [footprint]

namespace Inode

variable {d : Disk} {s : Nat}

theorem lt (h : Inode d s) {u : Nat} (hu : u ∈ footprint d s) : u < NUM_SECTORS := by
  rcases mem_footprint.mp hu with rfl | hu | hu
  · exact h.onDisk
  · obtain ⟨j, hj, rfl⟩ := mem_conts.mp hu
    exact (h.conts_onDisk j hj).toNat_lt
  · obtain ⟨i, hi, rfl⟩ := mem_datas.mp hu
    exact (h.datas_onDisk i hi).toNat_lt

/-- A header sector is no data sector. -/
theorem header_not_data (h : Inode d s) {u : Nat} (hu : u = s ∨ u ∈ conts d s) :
    u ∉ datas d s := by
  have hn := h.nodup
  intro hd
  rw [footprint, List.nodup_cons, List.nodup_append] at hn
  rcases hu with rfl | hu
  · exact hn.1 (List.mem_append_right _ hd)
  · exact hn.2.2.2 u hu u hd rfl

theorem cont_cast (h : Inode d s) {j : Nat} (hj : j < contCount d s) :
    (((contAt d s j).toNat : Nat) : Int) = contAt d s j := (h.conts_onDisk j hj).cast

theorem data_cast (h : Inode d s) {i : Nat} (hi : i < dataCount d s) :
    (((dataAt d s i).toNat : Nat) : Int) = dataAt d s i := (h.datas_onDisk i hi).cast

theorem conts_nodup (h : Inode d s) : (conts d s).Nodup :=
  (List.nodup_append.mp (List.nodup_cons.mp h.nodup).2).1

theorem datas_nodup (h : Inode d s) : (datas d s).Nodup :=
  (List.nodup_append.mp (List.nodup_cons.mp h.nodup).2).2.1

theorem data_inj (h : Inode d s) {i j : Nat} (hi : i < dataCount d s) (hj : j < dataCount d s)
    (he : dataAt d s i = dataAt d s j) : i = j := by
  have hn := h.datas_nodup
  exact List.inj_on_of_nodup_map hn (List.mem_range.mpr hi) (List.mem_range.mpr hj)
    (by rw [he])

theorem cont_inj (h : Inode d s) {i j : Nat} (hi : i < contCount d s) (hj : j < contCount d s)
    (he : contAt d s i = contAt d s j) : i = j := by
  have hn := h.conts_nodup
  exact List.inj_on_of_nodup_map hn (List.mem_range.mpr hi) (List.mem_range.mpr hj)
    (by rw [he])

/-- A byte below the length lies in a data sector of the list. -/
theorem index_lt (h : Inode d s) {o : Nat} (ho : (o : Int) < intAt d s 1) :
    o / SectorSize < dataCount d s := by
  have hle := h.length_le
  have hns : 0 < intAt d s 2 := by
    by_cases hn : 0 < intAt d s 2
    · exact hn
    · have hm := Int.mul_nonpos_of_nonpos_of_nonneg (Int.not_lt.mp hn)
        (Int.natCast_nonneg SectorSize)
      omega
  rw [Nat.div_lt_iff_lt_mul SectorSize_pos]
  have hcast : ((dataCount d s * SectorSize : Nat) : Int) = intAt d s 2 * SectorSize := by
    rw [Int.natCast_mul, dataCount, Int.toNat_of_nonneg (Int.le_of_lt hns)]
  omega

end Inode

/-! ## Handles -/

namespace Loaded

variable {d : Disk} {s : Nat} {hdr : FileHeader}

/-- A handle whose header agrees with a sound one can be read and written. -/
theorem mapped (hl : Loaded d s hdr) (h : Inode d s) : hdr.Mapped := by
  have hdata : ∀ k < hdr.numSectors.toNat,
      k < dataCount d s ∧ hdr.dataSectors k = dataAt d s k := by
    intro k hk
    rw [hl.numSectors] at hk
    exact ⟨hk, hl.dataSectors k hk (Nat.lt_of_lt_of_le hk h.room)⟩
  refine ⟨fun k hk => ?_, fun i hi j hj he => ?_, ?_, ?_⟩
  · obtain ⟨hk, hd⟩ := hdata k hk
    exact hd ▸ h.datas_onDisk k hk
  · obtain ⟨hi, hdi⟩ := hdata i hi
    obtain ⟨hj, hdj⟩ := hdata j hj
    rw [hdi, hdj] at he
    exact h.data_inj hi hj he
  · rw [hl.numSectors]
    exact h.dataCount_le
  · rw [hl.numBytes, hl.numSectors]
    exact h.length_le

/-- The bytes of the handle are those of the file. -/
theorem fileByte (hl : Loaded d s hdr) (h : Inode d s) {d' : Disk} {o : Nat}
    (ho : (o : Int) < intAt d s 1) :
    fileByte d' hdr o = d' (dataAt d s (o / SectorSize)).toNat (o % SectorSize) := by
  have hi := h.index_lt ho
  rw [Nachos.fileByte, hl.dataSectors _ hi (Nat.lt_of_lt_of_le hi h.room)]

theorem isDir (hl : Loaded d s hdr) : hdr.isDir = (intAt d s 0 == 1) := by
  rw [FileHeader.isDir, hl.isdir]

end Loaded

/-- Opening a sound file loads its header. -/
theorem OpenFile.wp_create {s : Nat} {w : World} {Q : OpenFile → World → Prop}
    (h : Inode w.disk s)
    (hQ : ∀ file w', file.fSector = (s : Int) → file.seekPosition = 0 → Loaded w.disk s file.hdr →
      OnlyAllocs w w' → Q file w') :
    Prog.wp (OpenFile.create s) Q w := by
  unfold OpenFile.create FileHeader.create
  simp only [Prog.wp_bind, wp_newArray, Prog.wp_pure]
  refine FileHeader.wp_fetchFrom h.onDisk ?_ h.conts_onDisk fun hdr hl _ => ?_
  · exact Int.le_trans h.contCount_le (by decide)
  · exact hQ _ _ rfl rfl hl ⟨_, rfl⟩

/-! ## Writes that keep a header -/

/-- No header sector of the file at `s` has changed. -/
def SameHeader (d d' : Disk) (s : Nat) : Prop := ∀ u, u = s ∨ u ∈ conts d s → d' u = d u

namespace SameHeader

variable {d d' d'' : Disk} {s : Nat}

theorem refl (d : Disk) (s : Nat) : SameHeader d d s := fun _ _ => rfl

theorem intAt (h : SameHeader d d' s) (i : Nat) : intAt d' s i = intAt d s i := by
  rw [Nachos.intAt, Nachos.intAt, h s (Or.inl rfl)]

theorem contCount (h : SameHeader d d' s) : contCount d' s = contCount d s := by
  rw [Nachos.contCount, Nachos.contCount, h.intAt]

theorem dataCount (h : SameHeader d d' s) : dataCount d' s = dataCount d s := by
  rw [Nachos.dataCount, Nachos.dataCount, h.intAt]

theorem chainRoom (h : SameHeader d d' s) : chainRoom d' s = chainRoom d s := by
  rw [Nachos.chainRoom, Nachos.chainRoom, h.intAt]

theorem contSector (h : SameHeader d d' s) {j : Nat} (hj : j < Nachos.contCount d s) :
    d' (contAt d s j).toNat = d (contAt d s j).toNat :=
  h _ (Or.inr (mem_conts.mpr ⟨j, hj, rfl⟩))

theorem contAt (h : SameHeader d d' s) {j : Nat} (hj : j < Nachos.contCount d s) :
    contAt d' s j = contAt d s j :=
  contAt_congr (h s (Or.inl rfl)) fun _ hi => h.contSector (Nat.lt_trans hi hj)

theorem dataAt (h : SameHeader d d' s) {i : Nat} (hi : i < Nachos.chainRoom d s) :
    dataAt d' s i = dataAt d s i :=
  dataAt_congr (h s (Or.inl rfl)) (fun _ hj => h.contSector hj) hi

theorem conts (h : SameHeader d d' s) : conts d' s = conts d s := by
  rw [Nachos.conts, Nachos.conts, h.contCount]
  apply List.map_congr_left
  intro j hj
  rw [h.contAt (List.mem_range.mp hj)]

theorem datas (h : SameHeader d d' s) (hi : Inode d s) : datas d' s = datas d s := by
  rw [Nachos.datas, Nachos.datas, h.dataCount]
  apply List.map_congr_left
  intro i hi'
  rw [h.dataAt (Nat.lt_of_lt_of_le (List.mem_range.mp hi') hi.room)]

theorem footprint (h : SameHeader d d' s) (hi : Inode d s) :
    footprint d' s = footprint d s := by
  rw [Nachos.footprint, Nachos.footprint, h.conts, h.datas hi]

theorem inode (h : SameHeader d d' s) (hi : Inode d s) : Inode d' s := by
  refine ⟨?_, ?_, ?_, ?_, fun j hj => ?_, fun i hi' => ?_, hi.onDisk, ?_⟩
  · rw [h.intAt]
    exact hi.contCount_le
  · rw [h.intAt]
    exact hi.dataCount_le
  · rw [h.dataCount, h.chainRoom]
    exact hi.room
  · rw [h.intAt, h.intAt]
    exact hi.length_le
  · rw [h.contCount] at hj
    rw [h.contAt hj]
    exact hi.conts_onDisk j hj
  · rw [h.dataCount] at hi'
    rw [h.dataAt (Nat.lt_of_lt_of_le hi' hi.room)]
    exact hi.datas_onDisk i hi'
  · rw [h.footprint hi]
    exact hi.nodup

theorem loaded (h : SameHeader d d' s) {hdr : FileHeader} (hl : Loaded d s hdr) :
    Loaded d' s hdr := by
  refine ⟨?_, ?_, ?_, ?_, fun j hj => ?_, fun i hi hroom => ?_⟩
  · rw [h.intAt]
    exact hl.isdir
  · rw [h.intAt]
    exact hl.numBytes
  · rw [h.intAt]
    exact hl.numSectors
  · rw [h.intAt]
    exact hl.numHeaderSectors
  · rw [h.intAt] at hj
    rw [h.contAt hj]
    exact hl.headerSectors j hj
  · rw [h.intAt] at hi
    rw [h.chainRoom] at hroom
    rw [h.dataAt hroom]
    exact hl.dataSectors i hi hroom

theorem trans (h : SameHeader d d' s) (h' : SameHeader d' d'' s) : SameHeader d d'' s := by
  intro u hu
  rw [h' u (by rw [h.conts]; exact hu), h u hu]

/-- The bytes of the file, where its data sectors have not changed either. -/
theorem byteAt (h : SameHeader d d' s) (hi : Inode d s) (hd : ∀ u ∈ Nachos.datas d s, d' u = d u)
    {o : Nat} (ho : (o : Int) < Nachos.intAt d s 1) : byteAt d' s o = byteAt d s o := by
  have hidx := hi.index_lt ho
  rw [Nachos.byteAt, Nachos.byteAt, h.dataAt (Nat.lt_of_lt_of_le hidx hi.room),
    hd _ (mem_datas.mpr ⟨_, hidx, rfl⟩)]

end SameHeader

/-- Only data sectors of the file at `s` have changed. -/
def OnlyData (d d' : Disk) (s : Nat) : Prop := ∀ u, u ∉ datas d s → d' u = d u

theorem OnlyData.sameHeader {d d' : Disk} {s : Nat} (h : OnlyData d d' s) (hi : Inode d s) :
    SameHeader d d' s := fun u hu => h u (hi.header_not_data hu)

/-- The bytes `p` to `p + n` of the file at `s` have been overwritten. -/
structure Overwrites (d d' : Disk) (s : Nat) (source : Nat → Byte) (n p : Nat) : Prop where
  onlyData : OnlyData d d' s
  new : ∀ j < n, byteAt d' s (p + j) = source j
  old : ∀ o : Nat, (o : Int) < intAt d s 1 → o < p ∨ p + n ≤ o → byteAt d' s o = byteAt d s o

/-- A write through a handle that agrees with the disk. -/
theorem OpenFile.Wrote.overwrites {hdr : FileHeader} {d d' : Disk} {s : Nat}
    {source : Nat → Byte} {n p : Nat} (h : Wrote hdr d d' source n p) (hl : Loaded d s hdr)
    (hi : Inode d s) (hlen : ((p + n : Nat) : Int) ≤ intAt d s 1) :
    Overwrites d d' s source n p := by
  have honly : OnlyData d d' s := by
    intro u hu
    refine h.frame u fun k hk _ _ he => hu ?_
    rw [hl.numSectors] at hk
    rw [hl.dataSectors k hk (Nat.lt_of_lt_of_le hk hi.room)] at he
    exact mem_datas.mpr ⟨k, hk, by rw [he, Int.toNat_natCast]⟩
  have hsame := honly.sameHeader hi
  have hbyte : ∀ o : Nat, (o : Int) < intAt d s 1 → byteAt d' s o = fileByte d' hdr o := by
    intro o ho
    rw [hl.fileByte hi ho, byteAt, hsame.dataAt (Nat.lt_of_lt_of_le (hi.index_lt ho) hi.room)]
  refine ⟨honly, fun j hj => ?_, fun o ho hout => ?_⟩
  · rw [hbyte _ (by omega), h.new j hj]
  · rw [hbyte o ho, h.old o (by rw [hl.numBytes]; exact ho) hout, hl.fileByte hi ho, byteAt]

end Nachos
