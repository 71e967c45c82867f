/-
  Nachos.Filesys.Durable

  What a new handle finds of the writes through an old one.  `WriteAt` stores the header
  only when it takes new sectors, so that a growth inside the last sector is in memory
  alone; and a header with a chain that is too short does not list all its data sectors.
-/

import Nachos.Filesys.ByteFile

namespace Nachos

open Words Program Config Transition

variable [Config]

namespace OpenFile

/-! ## Stored headers -/

/-- A file that can be opened and written: its header is sound and has the chain for its data
    sectors, and its sectors are marked and are not those of the map. -/
structure SoundFile (w : World) (s : Nat) : Prop where
  inode : Inode w.disk s
  chain : intAt w.disk s 3 = chainLength (dataCount w.disk s)
  length_nonneg : 0 ≤ intAt w.disk s 1
  marked : ∀ u ∈ footprint w.disk s, mapBit w.disk u = true
  mapFile : MapFile w.disk w.freeMapFile
  map_marked : ∀ u ∈ footprint w.disk FreeMapSector, mapBit w.disk u = true
  apart : ∀ u ∈ footprint w.disk s, u ∉ footprint w.disk FreeMapSector

/-- The header on the disk is the one of the handle. -/
structure Stored (w : World) (file : OpenFile) (s : Nat) (cs ds : List Nat) : Prop where
  handle : Handle w file s cs ds
  inode : Inode w.disk s
  loaded : Loaded w.disk s file.hdr
  seekPosition : 0 ≤ file.seekPosition

/-- A new handle on the header at `s` has the length of this one, and every read through it
    returns what it returns through this one; whatever the memory holds. -/
def Durable (w : World) (file : OpenFile) (s : Nat) : Prop :=
  ∀ heap : Nat → Nat → Byte, Prog.wp (create s) (fun new w' => new.length = file.length ∧
    ∀ n p : Nat, ∃ bytes w₁ w₂, (new.readAt n p).run w' = some (bytes, w₁) ∧
      (file.readAt n p).run w = some (bytes, w₂)) { w with heap := heap }

section Headers

variable {w : World} {file : OpenFile} {s : Nat} {cs ds : List Nat}

/-- A file has no negative number of sectors. -/
theorem SoundFile.numSectors_nonneg (h : SoundFile w s) : 0 ≤ intAt w.disk s 2 := by
  have hlen := h.length_nonneg
  have hle := h.inode.length_le
  by_contra hneg
  have hmul := Int.mul_neg_of_neg_of_pos (Int.not_le.mp hneg) SectorSize_pos_int
  omega

/-- A handle with the header of a sound file. -/
theorem SoundFile.stored (h : SoundFile w s) (hs : file.fSector = s)
    (hseek : 0 ≤ file.seekPosition) (hl : Loaded w.disk s file.hdr) :
    Stored w file s (conts w.disk s) (datas w.disk s) := by
  have hns := h.numSectors_nonneg
  have hds : (datas w.disk s).length = dataCount w.disk s := by simp [datas]
  have hcs : (conts w.disk s).length = contCount w.disk s := by simp [conts]
  have hd : (dataCount w.disk s : Int) = intAt w.disk s 2 := Int.toNat_of_nonneg hns
  have hc : contCount w.disk s = chainLength (dataCount w.disk s) := by
    rw [contCount, h.chain, Int.toNat_natCast]
  have hle := h.inode.length_le
  have hmax := h.inode.dataCount_le
  refine ⟨⟨hs, ⟨?_, hl.lists h.inode, ?_, ?_, ?_, ?_, ?_, ?_⟩, h.inode.nodup, fun u hu => ?_,
    h.mapFile, h.map_marked, h.apart⟩, h.inode, hl, hseek⟩
  · rw [hl.isdir]
    exact ⟨int_lower _ _, int_upper _ _⟩
  · rw [hl.numSectors, hds, hd]
  · rw [hl.numHeaderSectors, h.chain, hcs, hc]
  · omega
  · rw [hcs, hds, hc]
  · rw [hl.numBytes]
    exact h.length_nonneg
  · rw [hl.numBytes, hds, Int.natCast_mul, hd]
    exact hle
  · exact ⟨h.inode.lt hu, h.marked u hu⟩

/-- Memory has been allocated. -/
theorem SoundFile.allocs (h : SoundFile w s) (k : Nat) : SoundFile { w with allocs := k } s :=
  ⟨h.inode, h.chain, h.length_nonneg, h.marked, h.mapFile, h.map_marked, h.apart⟩

/-- `OpenFile::OpenFile` loads the header. -/
theorem SoundFile.wp_create (h : SoundFile w s) :
    Prog.wp (create s) (fun file w' => Stored w' file s (conts w.disk s) (datas w.disk s)) w := by
  refine OpenFile.wp_create h.inode fun file w' hs hseek hl hw => ?_
  obtain ⟨k, rfl⟩ := hw
  exact (h.allocs k).stored hs (Int.le_of_eq hseek.symm) hl

/-- A stored header is found again. -/
theorem Stored.durable (h : Stored w file s cs ds) : Durable w file s := by
  intro heap
  refine OpenFile.wp_create (w := { w with heap := heap }) h.inode fun new w' _ _ hl hw =>
    ⟨hl.numBytes.trans h.loaded.numBytes.symm, fun n p => ?_⟩
  obtain ⟨k, rfl⟩ := hw
  obtain ⟨bytes, w₁, hrun, hbytes⟩ := OpenFile.wp_readAt (n := n) (p := p)
    (w := { w with heap := heap, allocs := k }) (Q := fun bytes _ => bytes =
      (List.range (min n (new.hdr.numBytes.toNat - p))).map fun j =>
        fileByte w.disk new.hdr (p + j)) (hl.mapped h.inode) fun _ _ => rfl
  obtain ⟨bytes', w₂, hrun', hbytes'⟩ := OpenFile.wp_readAt (n := n) (p := p) (w := w)
    (Q := fun bytes _ => bytes = (List.range (min n (file.hdr.numBytes.toNat - p))).map fun j =>
      fileByte w.disk file.hdr (p + j)) (h.loaded.mapped h.inode) fun _ _ => rfl
  have hsame : bytes = bytes' := by
    have hnew : new.hdr.numBytes = intAt w.disk s 1 := hl.numBytes
    rw [hbytes, hbytes', hnew, h.loaded.numBytes]
    apply List.map_congr_left
    intro j hj
    have hj' := List.mem_range.mp hj
    have hin : ((p + j : Nat) : Int) < intAt w.disk s 1 := by omega
    rw [h.loaded.fileByte h.inode hin, hl.fileByte h.inode hin]
  subst hsame
  exact ⟨bytes, w₁, w₂, hrun, hrun'⟩

/-- A length that is not stored is lost. -/
theorem not_durable_of_length (hi : Inode w.disk s) (hne : intAt w.disk s 1 ≠ file.hdr.numBytes) :
    ¬ Durable w file s := by
  intro hd
  obtain ⟨new, w', -, ⟨hlen, -⟩, hl⟩ := Prog.wp_and (hd w.heap)
    (OpenFile.wp_create (w := { w with heap := w.heap }) (Q := fun new _ =>
      Loaded w.disk s new.hdr) hi fun _ _ _ _ hl _ => hl)
  exact hne (hl.numBytes.symm.trans hlen)

/-- A data sector that the chain does not list is lost. -/
theorem not_durable_of_room (h : Handle w file s cs ds) (hl : Loaded w.disk s file.hdr)
    (hroom : chainRoom w.disk s < ds.length)
    (hlen : ((chainRoom w.disk s * SectorSize : Nat) : Int) < file.hdr.numBytes) :
    ¬ Durable w file s := by
  obtain ⟨i, hi⟩ : ∃ i, i = chainRoom w.disk s := ⟨_, rfl⟩
  rw [← hi] at hroom hlen
  have hnh : intAt w.disk s 3 = cs.length := by
    rw [← hl.numHeaderSectors, h.header.numHeaderSectors]
  have hmax := h.header.numSectors_le
  have hchain := chainLength_le hmax
  have hle := h.header.chain_le
  intro hd
  -- The memory that the new table is in holds no sector number.
  have hcreate : Prog.wp (create s) (fun new _ => new.hdr.dataSectors i = -1)
      { w with heap := fun _ _ => 0xff } := by
    unfold create FileHeader.create
    simp only [Prog.wp_bind, wp_newArray, Prog.wp_pure]
    refine FileHeader.wp_fetchFrom (h.marked s (by simp)).1 ?_ (fun j hj => ?_)
      fun hdr _ hjunk => ?_
    · show intAt w.disk s 3 ≤ ((32 : Nat) : Int)
      omega
    · have hj' : j < cs.length := by
        change j < (intAt w.disk s 3).toNat at hj
        omega
      show OnDisk (contAt w.disk s j)
      rw [← hl.headerSectors j hj, h.header.lists.headerSectors j hj']
      exact onDisk_natCast (h.marked _ (by simp)).1
    · show hdr.dataSectors i = -1
      rw [hjunk i (Nat.le_of_eq hi.symm)]
      show int (fun _ => 0xff) 0 = -1
      decide +kernel
  obtain ⟨new, w', -, ⟨hlength, hread⟩, hjunk⟩ := Prog.wp_and (hd fun _ _ => 0xff) hcreate
  obtain ⟨bytes, w₁, -, hrun, -⟩ := hread 1 (i * SectorSize)
  have hwp : Prog.wp (new.readAt 1 ((i * SectorSize : Nat) : Int)) (fun _ _ => True) w' :=
    ⟨bytes, w₁, hrun, trivial⟩
  have hin : ((i * SectorSize : Nat) : Int) < new.hdr.fileLength := by
    have hl' : new.hdr.fileLength = file.hdr.numBytes := hlength
    omega
  have hpos := SectorSize_pos
  have hdiv : i * SectorSize / SectorSize = i := Nat.mul_div_cancel _ hpos
  unfold readAt at hwp
  rw [if_neg (by omega)] at hwp
  simp only [Prog.wp_bind, Prog.wp_assert, wp_newArray] at hwp
  obtain ⟨-, hwp⟩ := hwp
  rw [if_neg (by omega), Int.add_sub_cancel, divRoundDown_natCast, hdiv, Int.add_sub_cancel] at hwp
  -- The first sector that is read is the one of the table.
  obtain ⟨buf, w₂, hsectors, -⟩ := hwp
  have hsector : Prog.wp (do
      let sector ← Prog.ofOption (new.hdr.byteToSector (((i : Nat) + (0 : Nat)) * SectorSize))
      let data ← readSector sector
      return copyInto (w'.heap w'.allocs) (0 * SectorSize) SectorSize data)
      (fun _ _ => True) { w' with allocs := w'.allocs + 1 } := ⟨buf, w₂, hsectors, trivial⟩
  simp only [Prog.wp_bind, Prog.wp_ofOption, wp_readSector] at hsector
  obtain ⟨sector, hbyte, ⟨hnonneg, -⟩, -⟩ := hsector
  have hmul : ((i : Int) * SectorSize).tdiv SectorSize = i :=
    Int.mul_tdiv_cancel _ (by exact_mod_cast Nat.ne_of_gt hpos)
  unfold FileHeader.byteToSector at hbyte
  rw [Int.natCast_zero, Int.add_zero, hmul, if_pos ⟨Int.natCast_nonneg i, by omega⟩,
    Int.toNat_natCast, hjunk] at hbyte
  rw [← Option.some.inj hbyte] at hnonneg
  exact absurd hnonneg (by decide)

end Headers

/-! ## Writes through the handle -/

inductive WriteCall where
  | write (data : List Byte)
  | writeAt (data : List Byte) (p : Nat)

namespace WriteCall

def data : WriteCall → List Byte
  | write data => data
  | writeAt data _ => data

/-- Where the call writes. -/
def position (file : OpenFile) : WriteCall → Int
  | write _ => file.seekPosition
  | writeAt _ p => p

end WriteCall

def writeStep (σ : World × OpenFile) : WriteCall → Option (World × OpenFile)
  | .write data =>
      ((σ.2.write (fun i => data.getD i 0) data.length).run σ.1).map fun ((_, file), w) => (w, file)
  | .writeAt data p =>
      ((σ.2.writeAt (fun i => data.getD i 0) data.length p).run σ.1).map
        fun ((_, file), w) => (w, file)

/-- The file stays within `MAX_FILE_LENGTH`, and there are the clear sectors for it. -/
def Succeeds (σ : World × OpenFile) (c : WriteCall) : Prop :=
  c.position σ.2 ≤ σ.2.hdr.numBytes →
    c.position σ.2 + c.data.length ≤ MAX_FILE_LENGTH ∧
      (σ.2.hdr.maxFileLength < c.position σ.2 + c.data.length →
        growth σ.2.hdr (c.position σ.2 + c.data.length) ≤ freeSectors σ.1.disk)

/-- The length of the file after the call. -/
def newLength (file : OpenFile) (c : WriteCall) : Int := c.position file + c.data.length

/-- The call writes inside the length of the file; or it takes new sectors, for which there is
    room in the continuation sectors that the header has. -/
def Persists (file : OpenFile) (c : WriteCall) : Prop :=
  c.data.length = 0 ∨ file.hdr.numBytes < c.position file ∨
    newLength file c ≤ file.hdr.numBytes ∨
    (file.hdr.maxFileLength < newLength file c ∧ FileHeader.sectorsFor (newLength file c) ≤
      datasInFirstSector + file.hdr.numHeaderSectors * datasInSector)

section Writes

/-- A stored header whose chain lists all its data sectors is sound. -/
theorem Handle.inode {w : World} {file : OpenFile} {s : Nat} {cs ds : List Nat}
    (h : Handle w file s cs ds) (hl : Loaded w.disk s file.hdr)
    (hroom : ds.length ≤ datasInFirstSector + cs.length * datasInSector) :
    Inode w.disk s ∧ conts w.disk s = cs ∧ datas w.disk s = ds := by
  obtain ⟨hns, hnh, hnb⟩ := inInt_of_grown h.header
  have hn := h.header.numSectors
  have hc := h.header.numHeaderSectors
  have hmax := h.header.numSectors_le
  have hchain := h.header.chain_le.trans (chainLength_le hmax)
  have hfits : file.hdr.Fits := by
    refine ⟨h.header.isdir, hnb, hns.1, by omega, hnh.1, by omega, ?_, ?_⟩
    · rw [hn, hc, Int.toNat_natCast, Int.toNat_natCast]
      exact hroom
    · rw [hn, ← Int.natCast_mul]
      exact h.header.numBytes_le
  exact Inode.of_loaded hl h.header.lists hfits h.nodup fun u hu => (h.marked u hu).1

variable {w w' : World} {file : OpenFile} {s : Nat} {cs ds : List Nat}

theorem Stored.seek (h : Stored w file s cs ds) {q : Int} (hq : 0 ≤ q) :
    Stored w { file with seekPosition := q } s cs ds :=
  ⟨h.handle.seek q, h.inode, h.loaded, hq⟩

/-- A call from position `p` on has done nothing, or has written its bytes. -/
def Outcome (w : World) (file : OpenFile) (s : Nat) (cs ds : List Nat) (data : List Byte) (p : Nat)
    (r : Int × OpenFile) (w' : World) : Prop :=
  if data.length = 0 ∨ file.hdr.numBytes < p then r = (0, file) ∧ w' = w
  else Put w file s cs ds data p r w'

theorem Outcome.nonneg {data : List Byte} {p : Nat} {r : Int × OpenFile}
    (h : Outcome w file s cs ds data p r w') :
    0 ≤ r.1 ∧ r.2.seekPosition = file.seekPosition := by
  unfold Outcome at h
  split at h
  · obtain ⟨rfl, -⟩ := h
    exact ⟨Int.le_refl 0, rfl⟩
  · rw [h.count]
    exact ⟨Int.natCast_nonneg _, h.seekPosition⟩

theorem Stored.wp_writeAt (h : Stored w file s cs ds) {data : List Byte} {p : Nat}
    (hc : (p : Int) ≤ file.hdr.numBytes → (p : Int) + data.length ≤ MAX_FILE_LENGTH ∧
      (file.hdr.maxFileLength < p + data.length →
        growth file.hdr (p + data.length) ≤ freeSectors w.disk)) :
    Prog.wp (file.writeAt (fun i => data.getD i 0) data.length p)
      (Outcome w file s cs ds data p) w := by
  unfold Outcome
  by_cases hnone : data.length = 0 ∨ file.hdr.numBytes < p
  · simp only [if_pos hnone]
    exact Handle.wp_writeAt_none file _ w hnone
  · simp only [if_neg hnone]
    obtain ⟨hn, hp⟩ := not_or.mp hnone
    obtain ⟨hmax, hroom⟩ := hc (Int.not_lt.mp hp)
    rw [← Int.natCast_add] at hmax hroom
    exact h.handle.wp_writeAt (by omega) (Int.not_lt.mp hp) (by exact_mod_cast hmax) hroom

/-- A call that succeeds returns. -/
theorem Stored.exists_writeAt (h : Stored w file s cs ds) {data : List Byte} {p : Nat}
    (hc : Succeeds (w, file) (.writeAt data p)) :
    ∃ σ', OpenFile.writeStep (w, file) (.writeAt data p) = some σ' := by
  have hwp : Prog.wp (file.writeAt (fun i => data.getD i 0) data.length p)
      (Outcome w file s cs ds data p) w := h.wp_writeAt hc
  obtain ⟨r, w', hr, -⟩ := hwp
  refine ⟨(w', r.2), ?_⟩
  unfold OpenFile.writeStep
  dsimp only
  rw [hr]
  rfl

/-- Both calls write at their position, and leave the handle at some position. -/
theorem Stored.writeStep (h : Stored w file s cs ds) {c : WriteCall} {σ' : World × OpenFile}
    (hc : Succeeds (w, file) c) (hs : writeStep (w, file) c = some σ') :
    ∃ (p : Nat) (r : Int × OpenFile) (q : Int), c.position file = p ∧ 0 ≤ q ∧
      σ'.2 = { r.2 with seekPosition := q } ∧ Outcome w file s cs ds c.data p r σ'.1 := by
  obtain ⟨p, hp⟩ := Int.eq_ofNat_of_zero_le h.seekPosition
  unfold OpenFile.writeStep at hs
  cases c with
  | write data =>
      dsimp only at hs
      obtain ⟨⟨⟨count, file'⟩, w'⟩, hr, rfl⟩ := Option.map_eq_some_iff.mp hs
      have hwrite : Prog.wp (file.write (fun i => data.getD i 0) data.length) (fun r' w'' =>
          ∃ r, Outcome w file s cs ds data p r w'' ∧
            r'.2 = { r.2 with seekPosition := r.2.seekPosition + r.1 }) w := by
        unfold Succeeds WriteCall.position at hc
        dsimp only at hc
        unfold OpenFile.write
        rw [hp] at hc ⊢
        simp only [Prog.wp_bind, Prog.wp_pure]
        exact Prog.wp_mono (h.wp_writeAt hc) fun r w'' ho => ⟨r, ho, rfl⟩
      obtain ⟨r, ho, hfile⟩ := Prog.wp_run hwrite hr
      have hnonneg := ho.nonneg
      exact ⟨p, r, _, hp, by omega, hfile, ho⟩
  | writeAt data p' =>
      dsimp only at hs
      obtain ⟨⟨⟨count, file'⟩, w'⟩, hr, rfl⟩ := Option.map_eq_some_iff.mp hs
      have ho := Prog.wp_run (h.wp_writeAt (p := p') hc) hr
      have hseek : file'.seekPosition = file.seekPosition := ho.nonneg.2
      exact ⟨p', (count, file'), file'.seekPosition, rfl, hseek ▸ h.seekPosition, rfl, ho⟩

/-- A write to the data sectors keeps the header on the disk. -/
theorem Stored.sameHeader (h : Stored w file s cs ds) {d : Disk}
    (hd : ∀ t, t ∉ ds → d t = w.disk t) : SameHeader w.disk d s := fun u hu => hd u fun hdata => by
  refine h.inode.header_not_data hu ?_
  rwa [h.loaded.datas_eq h.handle.header.lists]
  have hroom := h.inode.room
  rwa [dataCount, ← h.loaded.numSectors, h.handle.header.lists.numSectors] at hroom

/-- A write that persists leaves the header of the handle on the disk. -/
theorem Stored.put (h : Stored w file s cs ds) {data : List Byte} {p : Nat} {r : Int × OpenFile}
    (hput : Put w file s cs ds data p r w')
    (hpersists : ((p + data.length : Nat) : Int) ≤ file.hdr.numBytes ∨
      (file.hdr.maxFileLength < ((p + data.length : Nat) : Int) ∧
        FileHeader.sectorsFor ((p + data.length : Nat) : Int) ≤
          datasInFirstSector + file.hdr.numHeaderSectors * datasInSector)) :
    ∃ cs' ds', Stored w' r.2 s cs' ds' := by
  obtain ⟨cs', ds', h', -⟩ := hput.handle
  have hle := h.handle.header.numBytes_le
  have hcap := h.handle.maxFileLength
  have hseek : 0 ≤ r.2.seekPosition := hput.seekPosition ▸ h.seekPosition
  rcases hpersists with hin | ⟨hgrow, hroom⟩
  · -- The header is the same, in memory and on the disk.
    obtain ⟨hhdr, hframe⟩ := hput.within (by omega)
    have hsame := h.sameHeader hframe
    have hsize : r.2.hdr = file.hdr := by
      rw [hhdr, Nat.max_eq_left (by omega), Int.toNat_of_nonneg h.handle.header.numBytes_nonneg]
    exact ⟨cs ++ cs', ds ++ ds', h', hsame.inode h.inode, hsize ▸ hsame.loaded h.loaded, hseek⟩
  · -- The new header is stored, and its chain lists all its sectors.
    obtain ⟨hl, hre⟩ := hput.stored hgrow
    have hmul : cs.length * datasInSector ≤ (cs ++ cs').length * datasInSector := by
      rw [List.length_append]
      exact Nat.mul_le_mul_right _ (Nat.le_add_right _ _)
    rw [h.handle.header.numHeaderSectors, ← Int.natCast_mul, ← hre.numSectors,
      h'.header.numSectors] at hroom
    obtain ⟨hi, -, -⟩ := h'.inode hl (by omega)
    exact ⟨cs ++ cs', ds ++ ds', h', hi, hl, hseek⟩

/-- Any other write that grows the file is not found by a new handle. -/
theorem Stored.not_durable (h : Stored w file s cs ds) {data : List Byte} {p : Nat}
    {r : Int × OpenFile} (hput : Put w file s cs ds data p r w')
    (hlong : file.hdr.numBytes < ((p + data.length : Nat) : Int))
    (hnot : file.hdr.maxFileLength < ((p + data.length : Nat) : Int) →
      datasInFirstSector + file.hdr.numHeaderSectors * datasInSector <
        FileHeader.sectorsFor ((p + data.length : Nat) : Int)) :
    ¬ Durable w' r.2 s := by
  obtain ⟨cs', ds', h', -⟩ := hput.handle
  by_cases hgrow : file.hdr.maxFileLength < ((p + data.length : Nat) : Int)
  · obtain ⟨hl, hre⟩ := hput.stored hgrow
    have hroom := hnot hgrow
    -- The chain has the length that the sectors from before the write need.
    have hchain : chainLength ds.length ≤ cs.length := by
      have hold := h.inode.room
      rw [dataCount, ← h.loaded.numSectors, h.handle.header.lists.numSectors, chainRoom,
        ← h.loaded.numHeaderSectors, h.handle.header.lists.numHeaderSectors] at hold
      have hle : ds.length - datasInFirstSector ≤ cs.length * datasInSector := by omega
      have hD := datasInSector_pos
      unfold chainLength
      rw [← Nat.lt_succ_iff, Nat.div_lt_iff_lt_mul hD, Nat.succ_mul]
      omega
    have hcount : intAt w'.disk s 3 = (chainLength ds.length : Int) := by
      rw [← hl.numHeaderSectors, hre.numHeaderSectors, h.handle.header.numSectors,
        headersFor_natCast]
    have hnew : chainRoom w'.disk s ≤ datasInFirstSector + cs.length * datasInSector := by
      have := Nat.mul_le_mul_right datasInSector hchain
      rw [chainRoom, hcount, Int.toNat_natCast]
      omega
    rw [h.handle.header.numHeaderSectors, ← Int.natCast_mul] at hroom
    have hlen : (chainRoom w'.disk s : Int) <
        FileHeader.sectorsFor ((p + data.length : Nat) : Int) := by omega
    refine not_durable_of_room h' hl ?_ ?_
    · rw [← hre.numSectors, h'.header.numSectors] at hlen
      exact_mod_cast hlen
    · rw [hre.numBytes]
      by_contra hle
      rw [Int.natCast_mul] at hle
      have hcover : FileHeader.sectorsFor ((p + data.length : Nat) : Int) ≤ chainRoom w'.disk s :=
        divRoundUp_le SectorSize_pos_int (Int.natCast_nonneg _) (Int.not_lt.mp hle)
      omega
  · -- The header on the disk has the old length.
    obtain ⟨hhdr, hframe⟩ := hput.within (Int.not_lt.mp hgrow)
    have hsame := h.sameHeader hframe
    refine not_durable_of_length (hsame.inode h.inode) ?_
    rw [hsame.intAt, ← h.loaded.numBytes, hhdr]
    show file.hdr.numBytes ≠ (max file.hdr.numBytes.toNat (p + data.length) : Nat)
    omega

end Writes

/-! ## Runs -/

section Runs

variable {w : World} {file : OpenFile} {s : Nat} {cs ds : List Nat} {σ σ' : World × OpenFile}
  {c : WriteCall}

/-- One call: what it leaves is found by a new handle exactly if the call persists. -/
theorem Stored.step (h : Stored σ.1 σ.2 s cs ds) (hc : Succeeds σ c)
    (hs : OpenFile.writeStep σ c = some σ') :
    (Persists σ.2 c → ∃ cs' ds', Stored σ'.1 σ'.2 s cs' ds') ∧
      (¬ Persists σ.2 c → ¬ Durable σ'.1 σ'.2 s) := by
  obtain ⟨p, r, q, hp, hq, hfile, ho⟩ := h.writeStep hc hs
  have hlength : newLength σ.2 c = ((p + c.data.length : Nat) : Int) := by
    rw [newLength, hp, Int.natCast_add]
  unfold Outcome at ho
  unfold Persists
  rw [hlength, hp, hfile]
  split at ho
  · rename_i hnone
    obtain ⟨rfl, hw⟩ := ho
    rw [hw]
    refine ⟨fun _ => ⟨cs, ds, h.seek hq⟩, fun hnot => ?_⟩
    rcases hnone with hnone | hnone
    · exact absurd (Or.inl hnone) hnot
    · exact absurd (Or.inr (Or.inl hnone)) hnot
  · rename_i hsome
    obtain ⟨hn, hin⟩ := not_or.mp hsome
    refine ⟨fun hpersists => ?_, fun hnot => ?_⟩
    · obtain ⟨cs', ds', h'⟩ := h.put ho ((hpersists.resolve_left hn).resolve_left hin)
      exact ⟨cs', ds', h'.seek hq⟩
    · simp only [not_or, not_and] at hnot
      exact h.not_durable ho (Int.not_le.mp hnot.2.2.1) fun hgrow =>
        Int.not_le.mp (hnot.2.2.2 hgrow)

/-- The header stays on the disk in a run whose calls persist. -/
theorem Stored.run (h : Stored w file s cs ds) {tr : List ((World × OpenFile) × WriteCall)}
    (hr : Run OpenFile.writeStep (w, file) tr σ) (hs : ∀ x ∈ tr, Succeeds x.1 x.2)
    (hp : ∀ x ∈ tr, Persists x.1.2 x.2) : ∃ cs' ds', Stored σ.1 σ.2 s cs' ds' := by
  refine Run.invariant_of_steps (I := fun _ σ => ∃ cs' ds', Stored σ.1 σ.2 s cs' ds')
    (C := fun σ c => Succeeds σ c ∧ Persists σ.2 c) ⟨cs, ds, h⟩
    (fun tr σ c σ' hi hc hs => ?_) hr fun x hx => ⟨hs x hx, hp x hx⟩
  obtain ⟨cs₁, ds₁, h₁⟩ := hi
  exact (h₁.step hc.1 hs).1 hc.2

/-- After every call of a run a new handle finds the file as the handle has it, exactly if every
    call persists. -/
theorem durable_iff {w₀ : World} (h : SoundFile w₀ s)
    (hopen : (create s).run w₀ = some (file, w)) {tr : List ((World × OpenFile) × WriteCall)}
    (hr : Run OpenFile.writeStep (w, file) tr σ) (hs : ∀ x ∈ tr, Succeeds x.1 x.2) :
    Run.Always OpenFile.writeStep (w, file) (fun _ σ => Durable σ.1 σ.2 s) tr ↔
      ∀ x ∈ tr, Persists x.1.2 x.2 := by
  have h₀ := Prog.wp_run h.wp_create hopen
  induction hr with
  | nil =>
      rw [Run.always_nil]
      exact ⟨fun _ x hx => absurd hx List.not_mem_nil, fun _ => h₀.durable⟩
  | @snoc tr σ σ' c hr hstep ih =>
      have hs' : ∀ x ∈ tr, Succeeds x.1 x.2 := fun x hx => hs x (List.mem_append_left _ hx)
      have hc : Succeeds σ c := hs (σ, c) (List.mem_append_right _ List.mem_cons_self)
      have hbefore : Run.Always OpenFile.writeStep (w, file) (fun _ σ => Durable σ.1 σ.2 s) tr ↔
          ∀ x ∈ tr, Persists x.1.2 x.2 := ih hs'
      rw [Run.always_snoc hr hstep, hbefore]
      constructor
      · rintro ⟨hp, hlast⟩ x hx
        obtain ⟨cs₁, ds₁, h₁⟩ := h₀.run hr hs' hp
        rcases List.mem_append.mp hx with hx | hx
        · exact hp x hx
        · obtain rfl := List.mem_singleton.mp hx
          by_contra hnot
          exact (h₁.step hc hstep).2 hnot hlast
      · intro hp
        have hp' : ∀ x ∈ tr, Persists x.1.2 x.2 := fun x hx => hp x (List.mem_append_left _ hx)
        obtain ⟨cs₁, ds₁, h₁⟩ := h₀.run hr hs' hp'
        obtain ⟨cs₂, ds₂, h₂⟩ := (h₁.step hc hstep).1
          (hp (σ, c) (List.mem_append_right _ List.mem_cons_self))
        exact ⟨hp', h₂.durable⟩

end Runs

/-! ## A file of ten bytes -/

/-- The header at sector 4 lists sector 5; every sector is marked. -/
def tenBytes : World :=
  let fields := fun i => match i with | 1 => 10 | 2 => 1 | 4 => 5 | _ => (0 : Int)
  { fullWorld with disk := Function.update fullWorld.disk 4 (ofInts fields) }

omit [Config] in
theorem tenBytes_sound : @SoundFile Config.defaults tenBytes 4 := by
  let _ := Config.defaults
  have hfoot := fullWorld_footprint
  have hmap := fullWorld_mapFile
  have hother : ∀ u, u ∈ footprint fullWorld.disk FreeMapSector →
      tenBytes.disk u = fullWorld.disk u := by
    intro u hu
    have hu' := hfoot u hu
    exact Function.update_of_ne (by omega) _ _
  have hsame : SameHeader fullWorld.disk tenBytes.disk FreeMapSector := fun u hu =>
    hother u (Owned.header_mem hu)
  have hmark : ∀ u < 2048, mapBit tenBytes.disk u = true := fun u hu =>
    (mapBit_congr hmap.inode hmap.length hsame (fun u hu => hother u (Owned.data_mem hu)) hu).trans
      (fullWorld_mapBit u hu)
  have hcount : dataCount tenBytes.disk 4 = 1 := by decide +kernel
  have hchain : contCount tenBytes.disk 4 = 0 := by decide +kernel
  have hdata : dataAt tenBytes.disk 4 0 = 5 := by decide +kernel
  have hown : footprint tenBytes.disk 4 = [4, 5] := by decide +kernel
  have hinode : Inode tenBytes.disk 4 := by
    refine ⟨by decide +kernel, by decide +kernel, by decide +kernel, by decide +kernel,
      fun j hj => absurd hj (by rw [hchain]; omega), fun i hi => ?_, by decide,
      by rw [hown]; decide⟩
    obtain rfl : i = 0 := by omega
    rw [hdata]
    exact ⟨by decide, by decide⟩
  refine ⟨hinode, by decide +kernel, by decide +kernel, fun u hu => hmark u (hinode.lt hu),
    ⟨hsame.inode hmap.inode, (hsame.intAt 1).trans hmap.length, hsame.loaded hmap.loaded⟩,
    fun u hu => ?_, fun u hu hu' => ?_⟩
  · rw [hsame.footprint hmap.inode] at hu
    exact hmark u (hmap.inode.lt hu)
  · rw [hown, List.mem_cons, List.mem_singleton] at hu
    rw [hsame.footprint hmap.inode] at hu'
    have := hfoot u hu'
    omega

omit [Config] in
/-- A new handle on the file, and a write of some bytes that needs no sectors. -/
theorem tenBytes_write (data : List Byte) (p : Nat) (hfit : p + data.length ≤ 128) :
    ∃ file w σ, (@create Config.defaults 4).run tenBytes = some (file, w) ∧
      @Stored Config.defaults w file 4 (@conts Config.defaults tenBytes.disk 4)
        (@datas Config.defaults tenBytes.disk 4) ∧
      file.hdr.numBytes = 10 ∧
      @Succeeds Config.defaults (w, file) (.writeAt data p) ∧
      @writeStep Config.defaults (w, file) (.writeAt data p) = some σ ∧
      file.hdr.numSectors = 1 := by
  let _ := Config.defaults
  obtain ⟨file, w, hopen, h, hdisk⟩ := Prog.wp_and tenBytes_sound.wp_create
    (OpenFile.wp_create (w := tenBytes) (Q := fun _ w' => w'.disk = tenBytes.disk)
      tenBytes_sound.inode fun _ _ _ _ _ hw => by
        obtain ⟨k, rfl⟩ := hw
        rfl)
  have hbytes : file.hdr.numBytes = 10 := by
    rw [h.loaded.numBytes, hdisk]
    decide +kernel
  have hsectors : file.hdr.numSectors = 1 := by
    rw [h.loaded.numSectors, hdisk]
    decide +kernel
  have hc : Succeeds (w, file) (.writeAt data p) := by
    intro _
    have hmax : (128 : Int) ≤ MAX_FILE_LENGTH := by decide
    refine ⟨?_, fun hgrow => ?_⟩
    · show (p : Int) + data.length ≤ _
      omega
    · change file.hdr.numSectors * ((128 : Nat) : Int) < (p : Int) + data.length at hgrow
      omega
  obtain ⟨σ, hs⟩ := h.exists_writeAt hc
  exact ⟨file, w, σ, hopen, h, hbytes, hc, hs, hsectors⟩

omit [Config] in
/-- Two bytes are written over bytes of the file. -/
theorem durable_iff_overwrite :
    ∃ file w tr σ, (@create Config.defaults 4).run tenBytes = some (file, w) ∧
      Run (@writeStep Config.defaults) (w, file) tr σ ∧
      tr.map Prod.snd = [.writeAt [1, 2] 3] ∧
      Run.Always (@writeStep Config.defaults) (w, file)
        (fun _ σ => @Durable Config.defaults σ.1 σ.2 4) tr := by
  let _ := Config.defaults
  obtain ⟨file, w, σ, hopen, -, hbytes, hc, hs, -⟩ := tenBytes_write [1, 2] 3 (by decide)
  have hrun := Run.snoc Run.nil hs
  refine ⟨file, w, _, σ, hopen, hrun, rfl,
    (durable_iff tenBytes_sound hopen hrun fun x hx => ?_).mpr fun x hx => ?_⟩
  · obtain rfl := List.mem_singleton.mp hx
    exact hc
  · obtain rfl := List.mem_singleton.mp hx
    refine Or.inr (Or.inr (Or.inl ?_))
    rw [hbytes]
    show (5 : Int) ≤ 10
    decide

omit [Config] in
/-- One byte is written at the end of the file. -/
theorem durable_fails :
    ¬ ∀ [Config] (w₀ w : World) (file : OpenFile) (s : Nat)
      (tr : List ((World × OpenFile) × WriteCall)) (σ : World × OpenFile), SoundFile w₀ s →
      (create s).run w₀ = some (file, w) → Run writeStep (w, file) tr σ →
        (∀ x ∈ tr, Succeeds x.1 x.2) → Durable σ.1 σ.2 s := by
  let _ := Config.defaults
  intro hall
  obtain ⟨file, w, σ, hopen, h, hbytes, hc, hs, hsectors⟩ := tenBytes_write [7] 10 (by decide)
  have hdurable := hall tenBytes w file 4 _ σ tenBytes_sound hopen (Run.snoc Run.nil hs)
    fun x hx => by
      obtain rfl := List.mem_singleton.mp hx
      exact hc
  refine (Stored.step (σ := (w, file)) h hc hs).2 ?_ hdurable
  have hlength : newLength file (.writeAt [7] 10) = 11 := rfl
  have hmax : file.hdr.maxFileLength = 128 := by
    rw [FileHeader.maxFileLength, hsectors]
    rfl
  unfold Persists
  rw [hlength, hbytes, hmax]
  simp [WriteCall.data, WriteCall.position]

end OpenFile

end Nachos
