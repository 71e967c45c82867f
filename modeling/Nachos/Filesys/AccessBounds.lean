/-
  Nachos.Filesys.AccessBounds

  The accesses that `ReadAt` and `WriteAt` make to the table of data sectors and to their
  sector buffers, and when they are inside: a position may be any `int`, and a growth that
  fails leaves a length that the sectors do not have.
-/

import Nachos.Filesys.ByteFile

namespace Nachos

open Words Program Config Transition

variable [Config]

namespace OpenFile

/-! ## The accesses -/

/-- `dataSectors[i]` in a header of `numSectors` sectors, or the bytes `lo` to `lo + n` of a
    sector buffer of `size` bytes. -/
inductive Access where
  | sector (i numSectors : Int)
  | buffer (lo n size : Int)
  deriving DecidableEq

def Access.InBounds : Access → Prop
  | sector i numSectors => 0 ≤ i ∧ i < numSectors
  | buffer lo n size => 0 < n → 0 ≤ lo ∧ lo + n ≤ size

/-- The loop over the sectors: `ByteToSector(i * SectorSize)`, and a sector of the buffer. -/
def loopAccesses (hdr : FileHeader) (firstSector lastSector size : Int) : List Access :=
  (List.range (lastSector + 1 - firstSector).toNat).flatMap fun (k : Nat) =>
    let i := firstSector + k
    [.sector ((i * SectorSize).tdiv SectorSize) hdr.numSectors,
      .buffer ((i - firstSector) * SectorSize) SectorSize size]

/-- The bytes that `ReadAt` copies. -/
def readCount (hdr : FileHeader) (numBytes position : Int) : Int :=
  if numBytes ≤ 0 ∨ position ≥ hdr.fileLength then 0
  else if position + numBytes > hdr.fileLength then hdr.fileLength - position else numBytes

/-- `ReadAt`. -/
def readAtAccesses (hdr : FileHeader) (numBytes position : Int) : List Access :=
  if numBytes ≤ 0 ∨ position ≥ hdr.fileLength then []
  else
    let numBytes := readCount hdr numBytes position
    let firstSector := divRoundDown position SectorSize
    let lastSector := divRoundDown (position + numBytes - 1) SectorSize
    let numSectors := 1 + lastSector - firstSector
    loopAccesses hdr firstSector lastSector (numSectors * SectorSize) ++
      [.buffer (position - firstSector * SectorSize) numBytes (numSectors * SectorSize)]

/-- `ReadAt` of a sector into a buffer of `size` bytes. -/
def readIntoAccesses (hdr : FileHeader) (base size position : Int) : List Access :=
  readAtAccesses hdr SectorSize position ++ [.buffer base (readCount hdr SectorSize position) size]

/-- The last part of `WriteAt`, once the file is long enough. -/
def writeDataAccesses (hdr : FileHeader) (numBytes position : Int) : List Access :=
  let firstSector := divRoundDown position SectorSize
  let lastSector := divRoundDown (position + numBytes - 1) SectorSize
  let numSectors := 1 + lastSector - firstSector
  let size := numSectors * SectorSize
  let firstAligned := position = firstSector * SectorSize
  let lastAligned := position + numBytes = (lastSector + 1) * SectorSize
  (if ¬ firstAligned then readIntoAccesses hdr 0 size (firstSector * SectorSize) else []) ++
    (if ¬ lastAligned ∧ (firstSector ≠ lastSector ∨ firstAligned) then
      readIntoAccesses hdr ((lastSector - firstSector) * SectorSize) size (lastSector * SectorSize)
    else []) ++
    [.buffer (position - firstSector * SectorSize) numBytes size] ++
    loopAccesses hdr firstSector lastSector size

/-- `WriteAt`.  The free map is read, and written back once the file has grown; where an
    `ASSERT` fails nothing more is done. -/
def writeAtAccesses (file : OpenFile) (numBytes position : Int) (w : World) : List Access :=
  let fileLength := file.hdr.fileLength
  let freeMap := w.freeMapFile.hdr
  if numBytes ≤ 0 ∨ position > fileLength then []
  else if position + numBytes > file.hdr.maxFileLength then
    readAtAccesses freeMap FreeMapFileSize 0 ++
      match (do
          let m ← BitMap.fetchFreeMap
          file.hdr.reAllocate m (position + numBytes)).run w with
      | none => []
      | some ((ok, hdr, _), _) =>
          if ok then
            writeDataAccesses freeMap FreeMapFileSize 0 ++ writeDataAccesses hdr numBytes position
          else writeDataAccesses hdr (fileLength - position) position
  else if position + numBytes > fileLength then
    match file.hdr.changeFileLength (position + numBytes) with
    | none => []
    | some hdr => writeDataAccesses hdr numBytes position
  else writeDataAccesses file.hdr numBytes position

/-! ## Inside -/

section Inside

variable {hdr : FileHeader} {n p : Int}

/-- Rounding down a position of a file. -/
theorem divRoundDown_spec {x : Int} (hx : 0 ≤ x) :
    0 ≤ divRoundDown x SectorSize ∧ divRoundDown x SectorSize * SectorSize ≤ x ∧
      x < divRoundDown x SectorSize * SectorSize + SectorSize := by
  have hdiv := Int.mul_tdiv_add_tmod x SectorSize
  have hlt := Int.tmod_lt_of_pos x SectorSize_pos_int
  have hnonneg := Int.tmod_nonneg (SectorSize : Int) hx
  have hquot := Int.tdiv_nonneg hx (Int.le_of_lt SectorSize_pos_int)
  rw [Int.mul_comm] at hdiv
  unfold divRoundDown
  omega

theorem divRoundDown_mono {x y : Int} (h : x ≤ y) :
    divRoundDown x SectorSize ≤ divRoundDown y SectorSize := by
  exact Int.tdiv_le_tdiv SectorSize_pos_int h

/-- A position below the capacity lies in a sector that the file has. -/
theorem divRoundDown_lt {x m : Int} (hx : 0 ≤ x) (h : x < m * SectorSize) :
    divRoundDown x SectorSize < m := by
  obtain ⟨-, hle, -⟩ := divRoundDown_spec hx
  exact Int.lt_of_mul_lt_mul_right (Int.lt_of_le_of_lt hle h) (Int.le_of_lt SectorSize_pos_int)

theorem loop_inBounds {first last : Int} (hfirst : 0 ≤ first) (hlast : last < hdr.numSectors) :
    ∀ a ∈ loopAccesses hdr first last ((1 + last - first) * SectorSize), a.InBounds := by
  intro a ha
  unfold loopAccesses at ha
  simp only [List.mem_flatMap, List.mem_range, List.mem_cons, List.not_mem_nil, or_false] at ha
  obtain ⟨k, hk, rfl | rfl⟩ := ha
  · show 0 ≤ ((first + k) * SectorSize).tdiv SectorSize ∧ _
    rw [Int.mul_tdiv_cancel _ (Int.ne_of_gt SectorSize_pos_int)]
    omega
  · intro _
    have hmul : (first + (k : Int) - first + 1) * SectorSize ≤ (1 + last - first) * SectorSize :=
      Int.mul_le_mul_of_nonneg_right (by omega) (Int.le_of_lt SectorSize_pos_int)
    rw [Int.add_mul, Int.one_mul] at hmul
    exact ⟨Int.mul_nonneg (by omega) (Int.le_of_lt SectorSize_pos_int), hmul⟩

/-- The bytes of the call in its buffer. -/
theorem copy_inBounds (hp : 0 ≤ p) (hn : 0 < n) :
    (Access.buffer (p - divRoundDown p SectorSize * SectorSize) n
      ((1 + divRoundDown (p + n - 1) SectorSize - divRoundDown p SectorSize) *
        SectorSize)).InBounds := by
  intro _
  obtain ⟨-, hle, -⟩ := divRoundDown_spec hp
  obtain ⟨-, -, hlt⟩ := divRoundDown_spec (show 0 ≤ p + n - 1 by omega)
  rw [Int.sub_mul, Int.add_mul, Int.one_mul]
  omega

/-- A read from a position of the file, or from its end on, stays inside. -/
theorem readAt_inBounds (hcap : hdr.numBytes ≤ hdr.numSectors * SectorSize) (hp : 0 ≤ p) :
    ∀ a ∈ readAtAccesses hdr n p, a.InBounds := by
  intro a ha
  have hlength : hdr.fileLength = hdr.numBytes := rfl
  unfold readAtAccesses at ha
  split at ha
  · exact absurd ha List.not_mem_nil
  · rename_i hsome
    have hcount : 0 < readCount hdr n p ∧ p + readCount hdr n p ≤ hdr.numBytes := by
      unfold readCount
      rw [if_neg hsome]
      split <;> omega
    obtain ⟨hfirst, -, -⟩ := divRoundDown_spec hp
    rcases List.mem_append.mp ha with ha | ha
    · exact loop_inBounds hfirst (divRoundDown_lt (by omega) (by omega)) a ha
    · obtain rfl := List.mem_singleton.mp ha
      exact copy_inBounds hp hcount.1

theorem readCount_le (hdr : FileHeader) (p : Int) : readCount hdr SectorSize p ≤ SectorSize := by
  unfold readCount
  split
  · omega
  · split <;> omega

/-- A sector is read into its place in a buffer. -/
theorem readInto_inBounds (hcap : hdr.numBytes ≤ hdr.numSectors * SectorSize) (hp : 0 ≤ p)
    {base size : Int} (hbase : 0 ≤ base) (hsize : base + SectorSize ≤ size) :
    ∀ a ∈ readIntoAccesses hdr base size p, a.InBounds := by
  intro a ha
  rcases List.mem_append.mp ha with ha | ha
  · exact readAt_inBounds hcap hp a ha
  · obtain rfl := List.mem_singleton.mp ha
    have := readCount_le hdr p
    exact fun _ => ⟨hbase, by omega⟩

/-- A write inside the length stays inside. -/
theorem writeData_inBounds (hcap : hdr.numBytes ≤ hdr.numSectors * SectorSize) (hp : 0 ≤ p)
    (hn : 0 < n) (hlen : p + n ≤ hdr.numBytes) :
    ∀ a ∈ writeDataAccesses hdr n p, a.InBounds := by
  obtain ⟨hfirst, -, -⟩ := divRoundDown_spec hp
  have hle := divRoundDown_mono (show p ≤ p + n - 1 by omega)
  have hmul : (divRoundDown (p + n - 1) SectorSize - divRoundDown p SectorSize + 1) * SectorSize =
      (1 + divRoundDown (p + n - 1) SectorSize - divRoundDown p SectorSize) * SectorSize := by
    congr 1
    omega
  have hbase : 0 ≤ (divRoundDown (p + n - 1) SectorSize - divRoundDown p SectorSize) *
      (SectorSize : Int) := Int.mul_nonneg (by omega) (Int.le_of_lt SectorSize_pos_int)
  rw [Int.add_mul, Int.one_mul] at hmul
  intro a ha
  unfold writeDataAccesses at ha
  dsimp only at ha
  rcases List.mem_append.mp ha with ha | ha
  · rcases List.mem_append.mp ha with ha | ha
    · rcases List.mem_append.mp ha with ha | ha
      · split at ha
        · exact readInto_inBounds hcap (Int.mul_nonneg hfirst (Int.le_of_lt SectorSize_pos_int))
            (Int.le_refl 0) (by omega) a ha
        · exact absurd ha List.not_mem_nil
      · split at ha
        · exact readInto_inBounds hcap
            (Int.mul_nonneg (by omega) (Int.le_of_lt SectorSize_pos_int)) hbase (by omega) a ha
        · exact absurd ha List.not_mem_nil
    · obtain rfl := List.mem_singleton.mp ha
      exact copy_inBounds hp hn
  · exact loop_inBounds hfirst (divRoundDown_lt (by omega) (by omega)) a ha

end Inside

/-! ## Outside -/

section Outside

variable {hdr : FileHeader} {n p : Int}

/-- The first sector of the loop. -/
theorem first_mem_loop {first last size : Int} (h : first ≤ last) :
    .sector first hdr.numSectors ∈ loopAccesses hdr first last size := by
  unfold loopAccesses
  refine List.mem_flatMap.mpr ⟨0, List.mem_range.mpr (by omega), ?_⟩
  dsimp only
  rw [Int.natCast_zero, Int.add_zero, Int.mul_tdiv_cancel _ (Int.ne_of_gt SectorSize_pos_int)]
  exact List.mem_cons_self

/-- From a negative position bytes are copied from before the table or before the buffer. -/
theorem exists_outside_of_neg (hdr : FileHeader) (size : Int) (hp : p < 0) (hn : 0 < n) :
    ∃ a ∈ loopAccesses hdr (divRoundDown p SectorSize) (divRoundDown (p + n - 1) SectorSize) size ++
      [.buffer (p - divRoundDown p SectorSize * SectorSize) n size], ¬ a.InBounds := by
  by_cases hfirst : divRoundDown p SectorSize < 0
  · refine ⟨_, List.mem_append_left _ (first_mem_loop (divRoundDown_mono (by omega))), ?_⟩
    rintro ⟨hge, -⟩
    omega
  · -- The division rounds towards zero.
    have hzero : divRoundDown p SectorSize = 0 := by
      have hneg : 0 ≤ (-p).tdiv SectorSize := Int.tdiv_nonneg (by omega) (Int.natCast_nonneg _)
      rw [Int.neg_tdiv] at hneg
      unfold divRoundDown at hfirst ⊢
      omega
    refine ⟨_, List.mem_append_right _ List.mem_cons_self, fun hin => ?_⟩
    have hge := (hin hn).1
    rw [hzero] at hge
    omega

/-- Exactly the reads of some bytes from a negative position leave the arrays. -/
theorem readAt_inBounds_iff (hcap : hdr.numBytes ≤ hdr.numSectors * SectorSize)
    (hbytes : 0 ≤ hdr.numBytes) :
    (∀ a ∈ readAtAccesses hdr n p, a.InBounds) ↔ n ≤ 0 ∨ 0 ≤ p := by
  constructor
  · intro hall
    by_contra hcond
    obtain ⟨hn, hp⟩ := not_or.mp hcond
    have hlength : hdr.fileLength = hdr.numBytes := rfl
    have hsome : ¬ (n ≤ 0 ∨ p ≥ hdr.fileLength) := by omega
    have hcount : 0 < readCount hdr n p := by
      unfold readCount
      rw [if_neg hsome]
      split <;> omega
    obtain ⟨a, ha, hout⟩ := exists_outside_of_neg hdr
      ((1 + divRoundDown (p + readCount hdr n p - 1) SectorSize -
        divRoundDown p SectorSize) * SectorSize) (Int.not_le.mp hp) hcount
    refine hout (hall a ?_)
    unfold readAtAccesses
    rw [if_neg hsome]
    exact ha
  · rintro (hn | hp)
    · intro a ha
      unfold readAtAccesses at ha
      rw [if_pos (Or.inl hn)] at ha
      exact absurd ha List.not_mem_nil
    · exact readAt_inBounds hcap hp

/-- A write of some bytes at a negative position leaves the arrays. -/
theorem writeData_outside (hp : p < 0) (hn : 0 < n) :
    ∃ a ∈ writeDataAccesses hdr n p, ¬ a.InBounds := by
  obtain ⟨a, ha, hout⟩ := exists_outside_of_neg hdr
    ((1 + divRoundDown (p + n - 1) SectorSize - divRoundDown p SectorSize) * SectorSize) hp hn
  refine ⟨a, ?_, hout⟩
  unfold writeDataAccesses
  dsimp only
  rcases List.mem_append.mp ha with ha | ha
  · exact List.mem_append_right _ ha
  · exact List.mem_append_left _ (List.mem_append_right _ ha)

/-- After a growth that has failed the handle has a length for which it has no sectors: a
    read behind the last one leaves the table. -/
theorem Full.outside {file : OpenFile} {source : Nat → Byte} {n p : Nat} {w w' : World}
    {r : Int × OpenFile} (h : Full file n p w)
    (hr : (writeAt file source n p).run w = some (r, w')) :
    ∃ a ∈ readAtAccesses r.2.hdr 1 file.hdr.maxFileLength, ¬ a.InBounds := by
  have hgrow := h.grow
  rw [h.header hr]
  have hsome : ¬ ((1 : Int) ≤ 0 ∨ file.hdr.maxFileLength ≥
      ({ file.hdr with numBytes := (p : Int) + n } : FileHeader).fileLength) := by
    show ¬ ((1 : Int) ≤ 0 ∨ file.hdr.maxFileLength ≥ (p : Int) + n)
    omega
  have hcount : readCount { file.hdr with numBytes := (p : Int) + n } 1
      file.hdr.maxFileLength = 1 := by
    unfold readCount
    rw [if_neg hsome, if_neg]
    show ¬ file.hdr.maxFileLength + 1 > (p : Int) + n
    omega
  have hfirst : divRoundDown file.hdr.maxFileLength SectorSize = file.hdr.numSectors :=
    Int.mul_tdiv_cancel _ (Int.ne_of_gt SectorSize_pos_int)
  unfold readAtAccesses
  rw [if_neg hsome, hcount]
  dsimp only
  rw [Int.add_sub_cancel, hfirst]
  refine ⟨_, List.mem_append_left _ (first_mem_loop (Int.le_refl _)), ?_⟩
  rintro ⟨-, hlt⟩
  exact absurd hlt (Int.lt_irrefl _)

end Outside

/-! ## System calls -/

/-- The calls of a process on an open file; `write` with the bytes of the kernel buffer. -/
inductive SysCall where
  | seek (offset : Int)
  | read (size : Nat)
  | write (data : List Byte)

def sysStep (σ : World × OpenFile) : SysCall → Option (World × OpenFile)
  | .seek offset => some (σ.1, σ.2.seek offset)
  | .read size => ((σ.2.read size).run σ.1).map fun ((_, file), w) => (w, file)
  | .write data =>
      ((σ.2.write (fun i => data.getD i 0) data.length).run σ.1).map fun ((_, file), w) => (w, file)

def accesses (σ : World × OpenFile) : SysCall → List Access
  | .seek _ => []
  | .read size => readAtAccesses σ.2.hdr size σ.2.seekPosition
  | .write data => writeAtAccesses σ.2 data.length σ.2.seekPosition σ.1

/-- All accesses of the call are inside, and what it reads is a part of the file. -/
def Safe (σ : World × OpenFile) (c : SysCall) : Prop :=
  (∀ a ∈ accesses σ c, a.InBounds) ∧
    ∀ size, c = .read size → ∀ bytes file w, (σ.2.read size).run σ.1 = some ((bytes, file), w) →
      bytes <:+: content σ.1 σ.2

/-- `numBytes` from `position` on: the position is not negative, and the sum of the two is
    an `int`, as it is for every buffer that the kernel has. -/
def Forward (numBytes : Nat) (position : Int) : Prop :=
  0 ≤ position ∧ InInt (position + numBytes)

/-- A transfer is at a position that is not negative, and a growth finds the sectors. -/
def Sane (σ : World × OpenFile) : SysCall → Prop
  | .seek _ => True
  | .read size => size = 0 ∨ σ.2.hdr.numBytes ≤ σ.2.seekPosition ∨ Forward size σ.2.seekPosition
  | .write data => data.length = 0 ∨ σ.2.hdr.numBytes < σ.2.seekPosition ∨
      (Forward data.length σ.2.seekPosition ∧
        (σ.2.hdr.maxFileLength < σ.2.seekPosition + data.length →
          σ.2.seekPosition + data.length ≤ MAX_FILE_LENGTH →
            growth σ.2.hdr (σ.2.seekPosition + data.length) ≤ freeSectors σ.1.disk))

/-- A read that meets it is of nothing, at or behind the end, or from a position of the file. -/
theorem Sane.read {σ : World × OpenFile} {size : Nat} (h : Sane σ (.read size)) :
    size = 0 ∨ σ.2.hdr.numBytes ≤ σ.2.seekPosition ∨ 0 ≤ σ.2.seekPosition := by
  rcases h with h | h | h
  · exact Or.inl h
  · exact Or.inr (Or.inl h)
  · exact Or.inr (Or.inr h.1)

/-- A growth beyond `MAX_FILE_LENGTH` fails its `ASSERT`. -/
theorem le_of_wp_reAllocate {hdr : FileHeader} {m : BitMap} {n : Int} {w : World}
    {Q : Bool × FileHeader × BitMap → World → Prop} (h : Prog.wp (hdr.reAllocate m n) Q w) :
    n ≤ MAX_FILE_LENGTH := by
  unfold FileHeader.reAllocate at h
  dsimp only at h
  simp only [Prog.wp_bind, Prog.wp_assert] at h
  exact h.1

namespace Handle

variable {w w' : World} {file : OpenFile} {s : Nat} {cs ds : List Nat} {n : Nat} {p : Int}

theorem capacity (h : Handle w file s cs ds) :
    file.hdr.numBytes ≤ file.hdr.numSectors * SectorSize ∧
      file.hdr.maxFileLength ≤ MAX_FILE_LENGTH := by
  have hle : ds.length * SectorSize ≤ MAX_FILE_LENGTH :=
    Nat.mul_le_mul_right _ h.header.numSectors_le
  have hbytes := h.header.numBytes_le
  rw [← h.maxFileLength] at hbytes
  rw [h.maxFileLength]
  exact ⟨hbytes, by exact_mod_cast hle⟩

/-- What the file that holds the map has room for. -/
theorem map_capacity (h : Handle w file s cs ds) :
    w.freeMapFile.hdr.numBytes ≤ w.freeMapFile.hdr.numSectors * SectorSize ∧
      w.freeMapFile.hdr.numBytes = FreeMapFileSize :=
  ⟨(h.mapFile.loaded.mapped h.mapFile.inode).numBytes,
    h.mapFile.loaded.numBytes.trans h.mapFile.length⟩

/-- The accesses of a write, where a growth finds the sectors. -/
theorem write_inBounds (h : Handle w file s cs ds) (hp : 0 ≤ p)
    (hroom : file.hdr.maxFileLength < p + n → p + n ≤ MAX_FILE_LENGTH →
      growth file.hdr (p + n) ≤ freeSectors w.disk) :
    ∀ a ∈ writeAtAccesses file n p w, a.InBounds := by
  obtain ⟨hcap, -⟩ := h.capacity
  obtain ⟨hmapcap, hmaplen⟩ := h.map_capacity
  obtain ⟨p, rfl⟩ := Int.eq_ofNat_of_zero_le hp
  have hlength : file.hdr.fileLength = file.hdr.numBytes := rfl
  intro a ha
  unfold writeAtAccesses at ha
  dsimp only at ha
  split at ha
  · exact absurd ha List.not_mem_nil
  · split at ha
    · -- The file grows in new sectors.
      rename_i hnone hgrow
      rcases List.mem_append.mp ha with ha | ha
      · exact readAt_inBounds hmapcap (Int.le_refl 0) a ha
      · split at ha
        · exact absurd ha List.not_mem_nil
        · rename_i ok hdr' m' w' hrun
          rw [← Int.natCast_add] at hgrow hroom hrun
          have hwp : Prog.wp (do
              let m ← BitMap.fetchFreeMap
              file.hdr.reAllocate m ((p + n : Nat) : Int))
              (fun r _ => r = (ok, hdr', m')) w := ⟨_, w', hrun, rfl⟩
          have hmax : p + n ≤ MAX_FILE_LENGTH := by
            rw [Prog.wp_bind] at hwp
            obtain ⟨m, w₁, -, hre⟩ := hwp
            exact_mod_cast le_of_wp_reAllocate hre
          have hok : Prog.wp (do
              let m ← BitMap.fetchFreeMap
              file.hdr.reAllocate m ((p + n : Nat) : Int))
              (fun r _ => r.1 = true ∧ r.2.1.numBytes = ((p + n : Nat) : Int) ∧
                r.2.1.numBytes ≤ r.2.1.numSectors * SectorSize) w := by
            rw [Prog.wp_bind]
            refine h.wp_reAllocate hgrow hmax (hroom hgrow (by exact_mod_cast hmax))
              fun hdr' m' cs' ds' n₁ hhdr hre _ _ _ => ⟨rfl, hre.numBytes, ?_⟩
            rw [hhdr.numSectors, ← Int.natCast_mul]
            exact hhdr.numBytes_le
          obtain ⟨hok, hb, hcap'⟩ := Prog.wp_run hok hrun
          dsimp only at hok hb hcap'
          rw [if_pos hok] at ha
          rcases List.mem_append.mp ha with ha | ha
          · exact writeData_inBounds hmapcap (Int.le_refl 0) (by decide) (by omega) a ha
          · exact writeData_inBounds hcap' hp (by omega) (by omega) a ha
    · rename_i hnone hgrow
      split at ha
      · rw [FileHeader.maxFileLength] at hgrow
        split at ha
        · exact absurd ha List.not_mem_nil
        · rename_i hdr' hchange
          unfold FileHeader.changeFileLength at hchange
          split at hchange
          · obtain rfl := Option.some.inj hchange
            exact writeData_inBounds (Int.not_lt.mp hgrow) hp (by omega) (Int.le_refl _) a ha
          · cases hchange
      · exact writeData_inBounds hcap hp (by omega) (by omega) a ha

/-- `Read` at a position that is not negative, or from which there is nothing to read. -/
theorem wp_read (h : Handle w file s cs ds)
    (hsane : n = 0 ∨ file.hdr.numBytes ≤ file.seekPosition ∨ 0 ≤ file.seekPosition) :
    Prog.wp (file.read n) (fun r w' => OnlyAllocs w w' ∧ r.1 <:+: content w file ∧
      ∃ q, r.2 = { file with seekPosition := q }) w := by
  have hnonneg := h.header.numBytes_nonneg
  unfold OpenFile.read
  rw [Prog.wp_bind]
  by_cases hp : 0 ≤ file.seekPosition
  · obtain ⟨p, hp⟩ := Int.eq_ofNat_of_zero_le hp
    rw [hp]
    refine Prog.wp_mono (h.wp_readAt n p) fun bytes w' hread => ?_
    obtain ⟨hw, rfl⟩ := hread
    rw [Prog.wp_pure]
    exact ⟨hw, (List.take_prefix _ _).isInfix.trans (List.drop_suffix _ _).isInfix, _, rfl⟩
  · -- Nothing is read, because no bytes are asked for.
    have hnone : (n : Int) ≤ 0 ∨ file.seekPosition ≥ file.hdr.fileLength := by
      have hlength : file.hdr.fileLength = file.hdr.numBytes := rfl
      omega
    unfold OpenFile.readAt
    dsimp only
    rw [if_pos hnone, Prog.wp_pure, Prog.wp_pure]
    exact ⟨OnlyAllocs.refl w, List.nil_infix, _, rfl⟩

/-- A write that returns has kept the file within `MAX_FILE_LENGTH`. -/
theorem le_of_wp_writeAt (h : Handle w file s cs ds) {source : Nat → Byte}
    {Q : Int × OpenFile → World → Prop} (hn : 0 < n) (hp : p ≤ file.hdr.numBytes)
    (hwp : Prog.wp (file.writeAt source n p) Q w) : p + n ≤ MAX_FILE_LENGTH := by
  have hcap := h.capacity.2
  have hnone : ¬ ((n : Int) ≤ 0 ∨ p > file.hdr.fileLength) := by
    have hlength : file.hdr.fileLength = file.hdr.numBytes := rfl
    omega
  by_cases hgrow : p + n > file.hdr.maxFileLength
  · unfold OpenFile.writeAt writeAtWith at hwp
    dsimp only at hwp
    rw [if_neg hnone, if_pos hgrow, Prog.wp_bind] at hwp
    obtain ⟨m, w₁, -, hre⟩ := hwp
    rw [Prog.wp_bind] at hre
    exact le_of_wp_reAllocate hre
  · omega

/-- `Write` keeps the handle sound. -/
theorem write_keeps (h : Handle w file s cs ds) {data : List Byte} {r : Int × OpenFile}
    (hsane : data.length = 0 ∨ file.hdr.numBytes < file.seekPosition ∨
      (0 ≤ file.seekPosition ∧ (file.hdr.maxFileLength < file.seekPosition + data.length →
        file.seekPosition + data.length ≤ MAX_FILE_LENGTH →
          growth file.hdr (file.seekPosition + data.length) ≤ freeSectors w.disk)))
    (hr : (file.write (fun i => data.getD i 0) data.length).run w = some (r, w')) :
    ∃ cs' ds', Handle w' r.2 s cs' ds' := by
  have hwp : Prog.wp (file.write (fun i => data.getD i 0) data.length)
      (fun r' w'' => r' = r ∧ w'' = w') w := ⟨r, w', hr, rfl, rfl⟩
  unfold OpenFile.write at hwp
  rw [Prog.wp_bind] at hwp
  by_cases hnone : data.length = 0 ∨ file.seekPosition > file.hdr.numBytes
  · obtain ⟨r₁, w₁, -, ⟨rfl, rfl⟩, hpure⟩ :=
      Prog.wp_and (wp_writeAt_none file (fun i => data.getD i 0) w hnone) hwp
    rw [Prog.wp_pure] at hpure
    obtain ⟨rfl, rfl⟩ := hpure
    exact ⟨cs, ds, h.seek _⟩
  · obtain ⟨hp, hroom⟩ := (hsane.resolve_left (by omega)).resolve_left (by omega)
    have hmax := h.le_of_wp_writeAt (by omega) (by omega) hwp
    obtain ⟨p, hp⟩ := Int.eq_ofNat_of_zero_le hp
    rw [hp] at hwp hroom hmax hnone
    rw [← Int.natCast_add] at hroom hmax
    obtain ⟨r₁, w₁, -, hput, hpure⟩ := Prog.wp_and (h.wp_writeAt (p := p) (by omega) (by omega)
      (by exact_mod_cast hmax) fun hgrow => hroom hgrow hmax) hwp
    obtain ⟨cs', ds', h', -⟩ := hput.handle
    rw [Prog.wp_pure] at hpure
    obtain ⟨rfl, rfl⟩ := hpure
    exact ⟨cs ++ cs', ds ++ ds', h'.seek _⟩

end Handle

/-! ## Runs -/

section Runs

variable {σ σ' : World × OpenFile} {s : Nat} {cs ds : List Nat} {c : SysCall}

/-- A call that meets the condition is safe. -/
theorem Handle.safe (h : Handle σ.1 σ.2 s cs ds) (hc : Sane σ c) : Safe σ c := by
  obtain ⟨hcap, -⟩ := h.capacity
  have hlength : σ.2.hdr.fileLength = σ.2.hdr.numBytes := rfl
  cases c with
  | seek offset => exact ⟨fun a ha => absurd ha List.not_mem_nil, nofun⟩
  | read size =>
      have hsane := hc.read
      refine ⟨fun a ha => ?_, fun size' he bytes file w hr => ?_⟩
      · by_cases hnone : (size : Int) ≤ 0 ∨ σ.2.seekPosition ≥ σ.2.hdr.fileLength
        · have hnil : accesses σ (.read size) = [] := if_pos hnone
          rw [hnil] at ha
          exact absurd ha List.not_mem_nil
        · exact readAt_inBounds hcap (by omega) a ha
      · obtain rfl := SysCall.read.inj he
        have hread := Prog.wp_run (h.wp_read hsane) hr
        exact hread.2.1
  | write data =>
      refine ⟨fun a ha => ?_, nofun⟩
      by_cases hnone : (data.length : Int) ≤ 0 ∨ σ.2.seekPosition > σ.2.hdr.fileLength
      · have hnil : accesses σ (.write data) = [] := if_pos hnone
        rw [hnil] at ha
        exact absurd ha List.not_mem_nil
      · obtain ⟨hforward, hroom⟩ := (hc.resolve_left (by omega)).resolve_left (by omega)
        exact h.write_inBounds hforward.1 hroom a ha

/-- What a call that meets the condition keeps. -/
theorem Handle.sysStep (h : Handle σ.1 σ.2 s cs ds) (hc : Sane σ c)
    (hs : sysStep σ c = some σ') : ∃ cs' ds', Handle σ'.1 σ'.2 s cs' ds' := by
  cases c with
  | seek offset =>
      obtain rfl := Option.some.inj hs
      exact ⟨cs, ds, h.seek offset⟩
  | read size =>
      unfold OpenFile.sysStep at hs
      dsimp only at hs
      obtain ⟨⟨⟨bytes, file⟩, w⟩, hr, rfl⟩ := Option.map_eq_some_iff.mp hs
      have hread := Prog.wp_run (h.wp_read hc.read) hr
      obtain ⟨hw, -, q, hfile⟩ := hread
      dsimp only at hw hfile
      rw [hfile]
      exact ⟨cs, ds, (h.allocs hw).seek q⟩
  | write data =>
      unfold OpenFile.sysStep at hs
      dsimp only at hs
      obtain ⟨⟨⟨count, file⟩, w⟩, hr, rfl⟩ := Option.map_eq_some_iff.mp hs
      refine h.write_keeps ?_ hr
      rcases hc with hc | hc | hc
      · exact Or.inl hc
      · exact Or.inr (Or.inl hc)
      · exact Or.inr (Or.inr ⟨hc.1.1, hc.2⟩)

/-- In a run whose calls all meet the condition every call is safe, and so is every further
    call that meets it. -/
theorem sysCalls_safe {w : World} {file : OpenFile} (h : Handle w file s cs ds)
    {tr : List ((World × OpenFile) × SysCall)} (hr : Run OpenFile.sysStep (w, file) tr σ)
    (hsane : ∀ x ∈ tr, Sane x.1 x.2) :
    (∀ x ∈ tr, Safe x.1 x.2) ∧ ∀ c, Sane σ c → Safe σ c := by
  have hall : (∃ cs' ds', Handle σ.1 σ.2 s cs' ds') ∧ ∀ x ∈ tr, Safe x.1 x.2 := by
    refine Run.invariant_of_steps (C := Sane)
      (I := fun tr σ => (∃ cs' ds', Handle σ.1 σ.2 s cs' ds') ∧ ∀ x ∈ tr, Safe x.1 x.2)
      ⟨⟨cs, ds, h⟩, fun x hx => absurd hx List.not_mem_nil⟩ (fun tr σ c σ' hi hc hs => ?_) hr hsane
    obtain ⟨⟨cs₁, ds₁, h₁⟩, hsafe⟩ := hi
    refine ⟨h₁.sysStep hc hs, fun x hx => ?_⟩
    rcases List.mem_append.mp hx with hx | hx
    · exact hsafe x hx
    · obtain rfl := List.mem_singleton.mp hx
      exact h₁.safe hc
  obtain ⟨⟨cs', ds', h'⟩, hsafe⟩ := hall
  exact ⟨hsafe, fun c hc => h'.safe hc⟩

omit [Config] in
/-- From position 100 of a file of 128 bytes, 50 are asked for. -/
theorem sysCalls_safe_read :
    @Safe Config.defaults (fullWorld, oneSector.seek 100) (.read 50) := by
  let _ := Config.defaults
  have hrun : Run OpenFile.sysStep (fullWorld, oneSector)
      ([] ++ [((fullWorld, oneSector), .seek 100)]) (fullWorld, oneSector.seek 100) :=
    Run.snoc Run.nil rfl
  refine (sysCalls_safe oneSector_handle hrun (fun x hx => ?_)).2 (.read 50)
    (Or.inr (Or.inr ⟨by decide, by decide⟩))
  obtain rfl := List.mem_singleton.mp hx
  exact trivial

omit [Config] in
/-- One byte is read from position -1. -/
theorem sysCalls_safe_fails :
    ¬ ∀ [Config] (w : World) (file : OpenFile) (s : Nat) (cs ds : List Nat)
      (tr : List ((World × OpenFile) × SysCall)) (σ : World × OpenFile),
      Handle w file s cs ds → Run OpenFile.sysStep (w, file) tr σ → ∀ c, Safe σ c := by
  let _ := Config.defaults
  intro h
  have hsafe := h fullWorld oneSector 4 [] [5] ([] ++ [((fullWorld, oneSector), .seek (-1))])
    (fullWorld, oneSector.seek (-1)) oneSector_handle (Run.snoc Run.nil rfl) (.read 1)
  have hmem : Access.buffer (-1) 1 128 ∈ accesses (fullWorld, oneSector.seek (-1)) (.read 1) := by
    decide +kernel
  exact absurd ((hsafe.1 _ hmem) (by decide)).1 (by decide)

end Runs

end OpenFile

end Nachos
