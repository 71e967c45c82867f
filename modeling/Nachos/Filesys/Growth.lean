/-
  Nachos.Filesys.Growth

  How many sectors a file takes, how `Allocate` and `Deallocate` go together, and how a
  header grows.  `reAllocate` counts the continuation sectors that it needs with the
  number of data sectors from before the growth, so that the chain can stay too short.
-/

import Nachos.Filesys.CreateSpec

namespace Nachos

open Words Program Config

variable [Config]

/-! ## Counting sectors -/

/-- The data sectors of a file of `length` bytes. -/
def sectorCount (length : Nat) : Nat := (length + SectorSize - 1) / SectorSize

/-- The continuation sectors of a header with `n` data sectors. -/
def chainLength (n : Nat) : Nat := (n - datasInFirstSector + datasInSector - 1) / datasInSector

omit [Config] in
/-- Rounding up a number that is not negative. -/
theorem divRoundUp_natCast (n s : Nat) (hs : 0 < s) :
    divRoundUp (n : Int) (s : Int) = ((n + s - 1) / s : Nat) := by
  have hdm := Nat.div_add_mod n s
  have hlt := Nat.mod_lt n hs
  show ((n / s : Nat) : Int) + (if ((n % s : Nat) : Int) > 0 then 1 else 0) = _
  by_cases hpos : 0 < n % s
  · rw [if_pos (by omega)]
    have hq : (n + s - 1) / s = n / s + 1 := by
      rw [Nat.div_eq_iff hs, Nat.add_mul, Nat.one_mul, Nat.mul_comm]
      omega
    omega
  · rw [if_neg (by omega)]
    have hq : (n + s - 1) / s = n / s := by
      rw [Nat.div_eq_iff hs, Nat.mul_comm]
      omega
    omega

theorem sectorsFor_natCast (length : Nat) :
    FileHeader.sectorsFor (length : Int) = sectorCount length :=
  divRoundUp_natCast length SectorSize SectorSize_pos

theorem headersFor_natCast (n : Nat) : FileHeader.headersFor (n : Int) = chainLength n := by
  obtain ⟨-, hF, -, -, -⟩ := sizes
  unfold FileHeader.headersFor chainLength
  by_cases hle : datasInFirstSector ≤ n
  · rw [← Int.natCast_sub hle, divRoundUp_natCast _ _ datasInSector_pos]
  · -- The division rounds towards zero.
    have hzero : n - datasInFirstSector = 0 := by omega
    have hneg : (n : Int) - datasInFirstSector = -((datasInFirstSector - n : Nat) : Int) := by
      omega
    have hdiv : ((datasInFirstSector - n : Nat) : Int).tdiv datasInSector = 0 :=
      Int.tdiv_eq_zero_of_lt (by omega) (by omega)
    have hmod : ¬ (-((datasInFirstSector - n : Nat) : Int)).tmod datasInSector > 0 := by
      have := Int.tmod_nonneg (datasInSector : Int)
        (Int.natCast_nonneg (datasInFirstSector - n))
      rw [Int.neg_tmod]
      omega
    rw [hneg, hzero, divRoundUp, Int.neg_tdiv, hdiv, if_neg hmod, Nat.zero_add,
      Nat.div_eq_of_lt (by have := datasInSector_pos; omega)]
    rfl

/-- The sectors that `Allocate` needs. -/
theorem need_natCast (length : Nat) :
    FileHeader.need length = sectorCount length + chainLength (sectorCount length) := by
  unfold FileHeader.need
  rw [sectorsFor_natCast, headersFor_natCast, Int.toNat_natCast, Int.toNat_natCast]

omit [Config] in
/-- A map is its size and its bits. -/
theorem BitMap.ext_has {m m' : BitMap} (hn : m.numBits = m'.numBits)
    (h : ∀ j, m.has j = m'.has j) : m = m' := by
  obtain ⟨n, b⟩ := m
  obtain ⟨n', b'⟩ := m'
  obtain rfl : n = n' := hn
  congr 1
  funext i
  apply BitVec.eq_of_getLsbD_eq
  intro k hk
  have hbit := h (32 * i + k)
  unfold BitMap.has at hbit
  rwa [show (32 * i + k) / 32 = i by omega, show (32 * i + k) % 32 = k by omega] at hbit

namespace FileHeader

/-! ## `Allocate` and `Deallocate` -/

/-- A new file gets its sectors when there are enough of them, and gives them back. -/
theorem allocate_iff (hdr : FileHeader) (m : BitMap) {length : Nat}
    (hlen : length ≤ MAX_FILE_LENGTH)
    (w : World) :
    Prog.wp (allocate hdr m length) (fun r _ =>
      (r.1 = true ↔ sectorCount length + chainLength (sectorCount length) ≤ m.numClear) ∧
      (r.1 = true → ∃ cs ds, r.2.1.Lists cs ds ∧ cs.length = chainLength (sectorCount length) ∧
        ds.length = sectorCount length ∧ BitMap.Takes m (cs ++ ds) r.2.2 ∧
        r.2.1.deallocate r.2.2 = some m) ∧
      (r.1 = false → r.2.2 = m)) w := by
  rw [← need_natCast]
  refine wp_allocate (by exact_mod_cast hlen) (fun hlt hdr' => ?_)
    fun hdr' m' cs ds w' hneed hw' hlists hsized hisdir htake => ?_
  · exact ⟨⟨nofun, fun h => absurd h (by omega)⟩, nofun, fun _ => rfl⟩
  · refine ⟨⟨fun _ => hneed, fun _ => rfl⟩, fun _ => ⟨cs, ds, hlists, ?_, ?_, htake, ?_⟩, nofun⟩
    · rw [← hlists.numHeaderSectors, hsized.numHeaderSectors, sectorsFor_natCast,
        headersFor_natCast, Int.toNat_natCast]
    · rw [← hlists.numSectors, hsized.numSectors, sectorsFor_natCast, Int.toNat_natCast]
    · -- The bits of the two lists are set, and cleared again.
      obtain ⟨m'', hm'', hn'', hhas⟩ := deallocate_spec (m := m') hlists htake.nodup
        (fun u hu => htake.numBits ▸ (htake.clear u hu).1)
        (fun u hu => by
          rw [htake.has]
          simp only [hu, decide_true, Bool.or_true])
      rw [hm'', BitMap.ext_has (hn''.trans htake.numBits)]
      intro j
      rw [hhas, htake.has]
      by_cases hj : j ∈ cs ++ ds
      · simp [hj, (htake.clear j hj).2]
      · simp [hj]

/-- A map of 64 sectors, the first 29 of them in use. -/
def smallMap : BitMap := ⟨64, fun i => if i = 0 then 0x1fffffff else 0⟩

omit [Config] in
/-- 35 sectors are clear, and a file of 30 sectors takes 31. -/
theorem allocate_small :
    ∃ r w, (@allocate Config.defaults ⟨0, 0, 0, fun _ => 0, 0, fun _ => 0⟩ smallMap 3840).run
        World.blank = some (r, w) ∧
      r.1 = true ∧ r.2.2.numClear = 4 ∧ r.2.1.deallocate r.2.2 = some smallMap := by
  let _ := Config.defaults
  obtain ⟨r, w, hr, hiff, htrue, -⟩ := allocate_iff ⟨0, 0, 0, fun _ => 0, 0, fun _ => 0⟩ smallMap
    (show 3840 ≤ MAX_FILE_LENGTH by decide) World.blank
  have hok := hiff.mpr (by decide +kernel)
  obtain ⟨cs, ds, -, hcs, hds, htake, hback⟩ := htrue hok
  have hcount : (35 : Nat) = r.2.2.numClear + (cs ++ ds).length := by
    rw [← htake.numClear]
    decide +kernel
  have hn : sectorCount 3840 = 30 := by decide +kernel
  have hc : chainLength 30 = 1 := by decide +kernel
  rw [List.length_append, hcs, hds, hn, hc] at hcount
  exact ⟨r, w, hr, hok, by omega, hback⟩

/-! ## `reAllocate` -/

/-- What the growth of a header to `length` bytes is meant to do: the clear sectors are added
    at the end of the lists, and the chain has the length for its data sectors; or nothing is
    changed. -/
def Grows (hdr : FileHeader) (m : BitMap) (cs ds : List Nat) (length : Nat)
    (r : Bool × FileHeader × BitMap) : Prop :=
  if r.1 then
    ∃ cs' ds', r.2.1.Lists (cs ++ cs') (ds ++ ds') ∧ BitMap.Takes m (cs' ++ ds') r.2.2 ∧
      r.2.1.numSectors = sectorCount length ∧
      r.2.1.numHeaderSectors = chainLength (sectorCount length)
  else r.2.1 = hdr ∧ r.2.2 = m

omit [Config] in
/-- A table of sectors that has been filled from `base` on. -/
theorem getElem_append_alloc {table table' : Nat → Int} {L L' : List Nat}
    (h : ∀ i (hi : i < L.length), table i = (L[i] : Int))
    (hold : ∀ k, k < L.length ∨ L.length + L'.length ≤ k → table' k = table k)
    (hnew : ∀ i (hi : i < L'.length), table' (L.length + i) = (L'[i] : Int)) (i : Nat)
    (hi : i < (L ++ L').length) : table' i = ((L ++ L')[i] : Int) := by
  by_cases hlt : i < L.length
  · rw [List.getElem_append_left hlt, hold i (Or.inl hlt), h i hlt]
  · rw [List.length_append] at hi
    obtain ⟨j, rfl⟩ : ∃ j, i = L.length + j := ⟨i - L.length, by omega⟩
    rw [hnew j (by omega), List.getElem_append_right (by omega)]
    simp

/-- `reAllocate` adds the data sectors that the new length needs, and the continuation
    sectors that the old number of data sectors needs; it has stored the new length before
    it finds out that there are too few. -/
theorem wp_reAllocate {hdr : FileHeader} {m : BitMap} {cs ds : List Nat} {length : Nat} {w : World}
    {Q : Bool × FileHeader × BitMap → World → Prop} (h : hdr.Lists cs ds)
    (hn : hdr.numSectors = ds.length) (hc : hdr.numHeaderSectors = cs.length)
    (hle : cs.length ≤ chainLength ds.length) (hgrow : ds.length ≤ sectorCount length)
    (hmax : length ≤ MAX_FILE_LENGTH)
    (hfail : m.numClear < sectorCount length - ds.length + (chainLength ds.length - cs.length) →
      Q (false, { hdr with numBytes := length }, m) w)
    (hok : ∀ (hdr' : FileHeader) (m' : BitMap) (cs' ds' : List Nat),
      sectorCount length - ds.length + (chainLength ds.length - cs.length) ≤ m.numClear →
      cs'.length = chainLength ds.length - cs.length →
      ds'.length = sectorCount length - ds.length → hdr'.Lists (cs ++ cs') (ds ++ ds') →
      hdr'.numSectors = (sectorCount length : Int) →
      hdr'.numHeaderSectors = (chainLength ds.length : Int) →
      hdr'.numBytes = (length : Int) → hdr'.isdir = hdr.isdir → BitMap.Takes m (cs' ++ ds') m' →
      Q (true, hdr', m') w) :
    Prog.wp (reAllocate hdr m length) Q w := by
  obtain ⟨j, hj⟩ : ∃ j, j = chainLength ds.length - cs.length := ⟨_, rfl⟩
  obtain ⟨k, hk⟩ : ∃ k, k = sectorCount length - ds.length := ⟨_, rfl⟩
  rw [← hj, ← hk] at hfail hok
  have hnewD : divRoundUp (length : Int) SectorSize - hdr.numSectors = (k : Int) := by
    have := sectorsFor_natCast length
    unfold sectorsFor at this
    rw [this, hn]
    omega
  have hnewH : divRoundUp (hdr.numSectors - datasInFirstSector) datasInSector -
      hdr.numHeaderSectors = (j : Int) := by
    have := headersFor_natCast ds.length
    unfold headersFor at this
    rw [hn, this, hc]
    omega
  unfold reAllocate
  simp only [Prog.wp_bind, Prog.wp_assert, hnewD, hnewH, Int.toNat_natCast]
  refine ⟨by exact_mod_cast hmax, ?_⟩
  rw [Prog.wp_ite]
  refine ⟨fun hlt => ?_, fun hge => ?_⟩
  · rw [Prog.wp_pure]
    exact hfail (by omega)
  · rw [Prog.wp_pure, hc, hn, Int.toNat_natCast, Int.toNat_natCast]
    obtain ⟨cs', hcl, hct, hcv, hcold⟩ :=
      allocSectors_spec cs.length j hdr.headerSectors m (by omega)
    have hclear := hct.numClear
    obtain ⟨ds', hdl, hdt, hdv, hdold⟩ := allocSectors_spec ds.length k hdr.dataSectors
      (allocSectors cs.length j hdr.headerSectors m).2 (by omega)
    have hcount : ((cs.length : Int) + j).toNat = (cs ++ cs').length := by
      rw [List.length_append]
      omega
    have hcount' : ((ds.length : Int) + k).toNat = (ds ++ ds').length := by
      rw [List.length_append]
      omega
    refine hok _ _ cs' ds' (by omega) hcl hdl
      ⟨hcount, getElem_append_alloc h.headerSectors (hcl ▸ hcold) hcv, hcount',
        getElem_append_alloc h.dataSectors (hdl ▸ hdold) hdv⟩ ?_ ?_ rfl rfl (hct.trans hdt)
    · show (ds.length : Int) + k = _
      omega
    · show (cs.length : Int) + j = _
      omega

/-- The chain has the length for the data sectors. -/
structure ChainOk (hdr : FileHeader) (cs ds : List Nat) : Prop where
  lists : hdr.Lists cs ds
  numSectors : hdr.numSectors = ds.length
  numHeaderSectors : hdr.numHeaderSectors = chainLength ds.length

/-- A header grows as it is meant to when there are enough sectors and it needs no more
    continuation sectors than before, or when there are too few and it had the new length
    already. -/
theorem reAllocate_grows_iff {hdr : FileHeader} {cs ds : List Nat} (h : hdr.ChainOk cs ds)
    (m : BitMap) {length : Nat} (hgrow : ds.length * SectorSize < length)
    (hmax : length ≤ MAX_FILE_LENGTH) (w : World) :
    Prog.wp (reAllocate hdr m length) (fun r _ => Grows hdr m cs ds length r) w ↔
      if sectorCount length - ds.length ≤ m.numClear then
        chainLength (sectorCount length) = chainLength ds.length
      else hdr.numBytes = length := by
  have hc : hdr.numHeaderSectors = cs.length := by
    have := h.lists.numHeaderSectors
    rw [h.numHeaderSectors, Int.toNat_natCast] at this
    rw [h.numHeaderSectors, this]
  have hlen : cs.length = chainLength ds.length := by
    exact_mod_cast hc.symm.trans h.numHeaderSectors
  have hle : ds.length ≤ sectorCount length := by
    unfold sectorCount
    rw [Nat.le_div_iff_mul_le SectorSize_pos]
    have := SectorSize_pos
    omega
  have hzero : chainLength ds.length - cs.length = 0 := by omega
  -- What the call does decides both directions.
  have hdoes : Prog.wp (reAllocate hdr m length) (fun r _ => Grows hdr m cs ds length r ↔
      if sectorCount length - ds.length ≤ m.numClear then
        chainLength (sectorCount length) = chainLength ds.length
      else hdr.numBytes = length) w := by
    refine wp_reAllocate h.lists h.numSectors hc (Nat.le_of_eq hlen) hle hmax (fun hlt => ?_)
      fun hdr' m' cs' ds' hge hcs' hds' hlists' hn' hc' hb' hd' htake => ?_
    · rw [hzero] at hlt
      rw [if_neg (by omega)]
      unfold Grows
      rw [if_neg (by simp)]
      constructor
      · rintro ⟨he, -⟩
        rw [← he]
      · intro he
        exact ⟨by rw [← he], rfl⟩
    · rw [hzero] at hge
      rw [if_pos (by omega)]
      unfold Grows
      rw [if_pos rfl]
      constructor
      · rintro ⟨-, -, -, -, -, hnum⟩
        exact_mod_cast hnum.symm.trans hc'
      · intro he
        exact ⟨cs', ds', hlists', htake, hn', by rw [he]; exact hc'⟩
  constructor
  · intro hg
    obtain ⟨r, w', hr, hiff⟩ := hdoes
    have hgrows := Prog.wp_run hg hr
    exact hiff.mp hgrows
  · intro hcond
    exact Prog.wp_mono hdoes fun r w' hiff => hiff.mpr hcond

/-- The header of a file in `n` sectors from sector 2 on. -/
def inRow (n : Nat) : FileHeader := ⟨0, n * 128, n, fun i => i + 2, 0, fun _ => 0⟩

omit [Config] in
theorem inRow_chainOk {n : Nat} (h : @chainLength Config.defaults n = 0) :
    @ChainOk Config.defaults (inRow n) [] ((List.range n).map (· + 2)) := by
  let _ := Config.defaults
  refine ⟨⟨rfl, nofun, ?_, fun i hi => ?_⟩, ?_, ?_⟩
  · simp [inRow]
  · simp [inRow]
  · simp [inRow]
  · rw [List.length_map, List.length_range, h]
    rfl

omit [Config] in
/-- A file of one sector grows to two. -/
theorem reAllocate_grows_two :
    @Prog.wp World _ (@reAllocate Config.defaults (inRow 1) smallMap 200)
      (fun r _ => @Grows Config.defaults (inRow 1) smallMap [] [2] 200 r) World.blank := by
  let _ := Config.defaults
  refine (reAllocate_grows_iff (inRow_chainOk (n := 1) rfl) smallMap
    (show 1 * SectorSize < 200 by decide) (by decide) World.blank).mpr ?_
  decide +kernel

omit [Config] in
/-- A file in all the sectors that its first header sector lists grows by one, and gets no
    continuation sector. -/
theorem reAllocate_grows_fails :
    ¬ ∀ [Config] (hdr : FileHeader) (cs ds : List Nat) (m : BitMap) (length : Nat) (w : World),
      hdr.ChainOk cs ds → ds.length * SectorSize < length → length ≤ MAX_FILE_LENGTH →
        Prog.wp (reAllocate hdr m length) (fun r _ => Grows hdr m cs ds length r) w := by
  let _ := Config.defaults
  intro h
  obtain ⟨r, w, hr, hgrows⟩ := h (inRow 27) [] _ smallMap 3584 World.blank
    (inRow_chainOk (n := 27) rfl) (by decide) (by decide)
  have hrun : ((reAllocate (inRow 27) smallMap ((3584 : Nat) : Int)).run World.blank).map
      (fun x => (x.1.1, x.1.2.1.numHeaderSectors)) = some (true, 0) := by decide +kernel
  rw [hr, Option.map_some, Option.some.injEq, Prod.mk.injEq] at hrun
  obtain ⟨hok, hnum⟩ := hrun
  unfold Grows at hgrows
  rw [if_pos hok] at hgrows
  obtain ⟨-, -, -, -, -, hnum'⟩ := hgrows
  exact absurd (hnum.symm.trans hnum') (by decide)

end FileHeader

/-! ## A disk without room -/

namespace OpenFile

/-- What a write at `p` is meant to do when the file cannot grow: the bytes up to the end of
    the file are overwritten, and nothing else is changed. -/
structure ShortWrite (file : OpenFile) (source : Nat → Byte) (p : Nat) (w : World)
    (r : Int × OpenFile) (w' : World) : Prop where
  count : r.1 = file.hdr.fileLength - p
  new : ∀ j : Nat, ((p + j : Nat) : Int) < file.hdr.numBytes →
    fileByte w'.disk file.hdr (p + j) = source j
  old : ∀ o < p, fileByte w'.disk file.hdr o = fileByte w.disk file.hdr o
  frame : ∀ t : Nat, (∀ k < file.hdr.numSectors.toNat, file.hdr.dataSectors k ≠ t) →
    w'.disk t = w.disk t
  header : r.2.hdr = file.hdr
  freeMap : ∀ i < NUM_SECTORS, mapBit w'.disk i = mapBit w.disk i

/-- A write that needs more sectors than there are: the handle is at a position in the file
    and the write extends it. -/
structure Full (file : OpenFile) (n p : Nat) (w : World) : Prop where
  mapFile : MapFile w.disk w.freeMapFile
  position : (p : Int) ≤ file.hdr.fileLength
  longer : file.hdr.fileLength < p + n
  grow : file.hdr.maxFileLength < p + n
  few : (freeSectors w.disk : Int) < FileHeader.sectorsFor (p + n) - file.hdr.numSectors +
    (FileHeader.headersFor file.hdr.numSectors - file.hdr.numHeaderSectors)

section Full

variable {file : OpenFile} {source : Nat → Byte} {n p : Nat} {w w' : World} {r : Int × OpenFile}

/-- The new length stays in the header, which is the same otherwise. -/
theorem Full.header (h : Full file n p w)
    (hr : (writeAt file source n p).run w = some (r, w')) :
    r.2.hdr = { file.hdr with numBytes := (p : Int) + n } := by
  have hwp : Prog.wp (writeAt file source n p) (fun r' _ => r' = r) w := ⟨r, w', hr, rfl⟩
  have hpos := h.position
  have hlonger := h.longer
  unfold writeAt writeAtWith at hwp
  dsimp only at hwp
  rw [if_neg (by omega), if_pos h.grow, Prog.wp_bind] at hwp
  obtain ⟨m, w₁, -, hrest, hm⟩ := Prog.wp_and hwp (BitMap.wp_fetchFreeMap h.mapFile
    (Q := fun m _ => Reads w.disk m) fun m w' hm _ => hm)
  unfold FileHeader.reAllocate at hrest
  dsimp only at hrest
  simp only [Prog.wp_bind, Prog.wp_assert] at hrest
  obtain ⟨-, hrest⟩ := hrest
  have hfew : (m.numClear : Int) < divRoundUp ((p : Int) + n) SectorSize - file.hdr.numSectors +
      (divRoundUp (file.hdr.numSectors - datasInFirstSector) datasInSector -
        file.hdr.numHeaderSectors) := by
    rw [hm.numClear]
    exact h.few
  rw [if_pos hfew, Prog.wp_pure] at hrest
  dsimp only at hrest
  simp only [Bool.false_eq_true, if_false, Prog.wp_bind, Prog.wp_pure] at hrest
  obtain ⟨-, w₂, -, rfl⟩ := hrest
  rfl

theorem Full.numBytes (h : Full file n p w)
    (hr : (writeAt file source n p).run w = some (r, w')) : r.2.hdr.numBytes = p + n := by
  rw [h.header hr]

/-- A write that finds too few clear sectors never does what it is meant to do. -/
theorem not_shortWrite (h : Full file n p w) :
    ¬ Prog.wp (writeAt file source n p) (ShortWrite file source p w) w := by
  rintro ⟨r, w', hr, hshort⟩
  have hnew := h.numBytes hr
  rw [hshort.header] at hnew
  have hold : file.hdr.fileLength = file.hdr.numBytes := rfl
  have hlonger := h.longer
  omega

end Full

/-- The map of free sectors has two sectors, and no bit of it is clear. -/
def fullWorld : World :=
  let fields := fun i => match i with | 1 => 256 | 2 => 2 | 4 => 2 | 5 => 3 | _ => (0 : Int)
  { World.blank with
    disk := fun s => if s = 0 then ofInts fields else fun _ => 0xff
    freeMapFile := ⟨[], ⟨0, 256, 2, fun i => i + 2, 0, fun _ => 0⟩, 0, 0⟩ }

/-- A file of one sector. -/
def oneSector : OpenFile := ⟨[], ⟨0, 128, 1, fun _ => 5, 0, fun _ => 0⟩, 0, 4⟩

omit [Config] in
theorem fullWorld_dataAt :
    ∀ i < 2, @dataAt Config.defaults fullWorld.disk 0 i = (i : Int) + 2 := by
  decide +kernel

omit [Config] in
theorem fullWorld_mapFile : @MapFile Config.defaults fullWorld.disk fullWorld.freeMapFile := by
  let _ := Config.defaults
  have hdata := fullWorld_dataAt
  have hcount : dataCount fullWorld.disk 0 = 2 := by decide +kernel
  have hchain : contCount fullWorld.disk 0 = 0 := by decide +kernel
  refine ⟨⟨by decide +kernel, by decide +kernel, by decide +kernel, by decide +kernel, ?_, ?_,
    by decide, by decide +kernel⟩, by decide +kernel, ⟨by decide +kernel, by decide +kernel,
    by decide +kernel, by decide +kernel, ?_, ?_⟩⟩
  · intro j hj
    exact absurd hj (by rw [hchain]; omega)
  · intro i hi
    rw [hcount] at hi
    rw [hdata i hi]
    exact ⟨by omega, by show (i : Int) + 2 < 2048; omega⟩
  · intro j hj
    exact absurd hj (by
      show ¬ j < contCount fullWorld.disk 0
      rw [hchain]
      omega)
  · intro i hi hroom
    exact (hdata i (hcount ▸ hi)).symm

omit [Config] in
theorem fullWorld_mapBit : ∀ i < 2048, @mapBit Config.defaults fullWorld.disk i = true := by
  let _ := Config.defaults
  intro i hi
  have hdata := fullWorld_dataAt (i / 8 / 128) (by omega)
  have hne : (((i / 8 / 128 : Nat) : Int) + 2).toNat ≠ 0 := by omega
  have hbyte : byteAt fullWorld.disk FreeMapSector (i / 8) = 0xff := by
    show fullWorld.disk (dataAt fullWorld.disk 0 (i / 8 / 128)).toNat _ = _
    rw [hdata]
    unfold fullWorld
    dsimp only
    rw [if_neg hne]
  have hone : ∀ k < 8, (0xff : Byte).getLsbD k = true := by decide
  rw [mapBit, hbyte, hone _ (Nat.mod_lt _ (by decide))]

omit [Config] in
theorem oneSector_full : @Full Config.defaults oneSector 50 100 fullWorld := by
  let _ := Config.defaults
  refine ⟨fullWorld_mapFile, by decide, by decide, by decide, ?_⟩
  have hzero : freeSectors fullWorld.disk = 0 := by
    unfold freeSectors
    rw [List.countP_eq_zero]
    intro i hi
    rw [fullWorld_mapBit i (List.mem_range.mp hi)]
    decide
  rw [hzero]
  decide +kernel

omit [Config] in
/-- 50 bytes at position 100 of a file of 128 bytes. -/
theorem not_shortWrite_one :
    ¬ @Prog.wp World _ (@writeAt Config.defaults oneSector (fun _ => 7) 50 100)
      (@ShortWrite Config.defaults oneSector (fun _ => 7) 100 fullWorld) fullWorld := by
  let _ := Config.defaults
  exact not_shortWrite oneSector_full

omit [Config] in
/-- The handle is said to have 150 bytes afterwards. -/
theorem shortWrite_fails :
    ¬ ∀ [Config] (file : OpenFile) (source : Nat → Byte) (n p : Nat) (w : World),
      Full file n p w →
        Prog.wp (writeAt file source n p) (ShortWrite file source p w) w := by
  let _ := Config.defaults
  intro h
  obtain ⟨r, w', hr, hshort⟩ := h oneSector (fun _ => 7) 50 100 fullWorld oneSector_full
  have hnew := oneSector_full.numBytes hr
  rw [hshort.header] at hnew
  exact absurd hnew (by decide)

end OpenFile

end Nachos
