/-
  Nachos.Filesys.HeaderImage

  A header that is written back and fetched again, and the places of the arrays that
  `WriteBack` and `FetchFrom` use for it.  The array `SectorImg` of `WriteBack` has one word
  less than a sector.
-/

import Nachos.Filesys.Growth

namespace Nachos

open Words Program Config

/-! ## The round trip -/

section

variable [Config]

namespace FileHeader

/-- The two headers agree in everything that is stored. -/
structure SameStored (hdr hdr' : FileHeader) : Prop where
  isdir : hdr'.isdir = hdr.isdir
  numBytes : hdr'.numBytes = hdr.numBytes
  numSectors : hdr'.numSectors = hdr.numSectors
  numHeaderSectors : hdr'.numHeaderSectors = hdr.numHeaderSectors
  dataSectors : ∀ i < hdr.numSectors.toNat, hdr'.dataSectors i = hdr.dataSectors i
  headerSectors : ∀ j < hdr.numHeaderSectors.toNat, hdr'.headerSectors j = hdr.headerSectors j

/-- What `WriteBack` stores, `FetchFrom` fetches, into any header; no other sector is written. -/
theorem fetchFrom_writeBack {hdr : FileHeader} {s : Nat} (hs : s < NUM_SECTORS)
    (h : hdr.Storable) (hne : ∀ j < hdr.numHeaderSectors.toNat, hdr.headerSectors j ≠ s)
    (hroom : hdr.numSectors ≤ datasInFirstSector + hdr.numHeaderSectors * datasInSector)
    (hmax : hdr.numHeaderSectors < MAX_HEADER_SECTORS) (into : FileHeader) (w : World) :
    Prog.wp (do
        hdr.writeBack s
        into.fetchFrom s)
      (fun hdr' w' => hdr.SameStored hdr' ∧
        ∀ t : Nat, t ≠ s → (∀ j < hdr.numHeaderSectors.toNat, hdr.headerSectors j ≠ t) →
          w'.disk t = w.disk t) w := by
  rw [Prog.wp_bind]
  refine wp_writeBack hs h hne fun d hl hframe => ?_
  have hconts : ∀ j < (intAt d s 3).toNat, OnDisk (contAt d s j) := by
    intro j hj
    rw [← hl.headerSectors j hj]
    exact h.headerSectors j (by rw [hl.numHeaderSectors]; exact hj)
  -- The chain lists all the data sectors.
  have hlist : ∀ i < hdr.numSectors.toNat, i < chainRoom d s := by
    intro i hi
    have hmul : hdr.numHeaderSectors * datasInSector ≤
        ((hdr.numHeaderSectors.toNat * datasInSector : Nat) : Int) := by
      rw [Int.natCast_mul]
      exact Int.mul_le_mul_of_nonneg_right (Int.self_le_toNat _) (Int.natCast_nonneg _)
    rw [chainRoom, ← hl.numHeaderSectors]
    omega
  refine wp_fetchFrom hs ?_ hconts fun hdr' hl' _ => ⟨?_, hframe⟩
  · show intAt d s 3 ≤ (MAX_HEADER_SECTORS : Int)
    rw [← hl.numHeaderSectors]
    omega
  · exact {
      isdir := hl'.isdir.trans hl.isdir.symm
      numBytes := hl'.numBytes.trans hl.numBytes.symm
      numSectors := hl'.numSectors.trans hl.numSectors.symm
      numHeaderSectors := hl'.numHeaderSectors.trans hl.numHeaderSectors.symm
      dataSectors := by
        intro i hi
        have hi' : i < (intAt d s 2).toNat := by
          rw [← hl.numSectors]
          exact hi
        rw [hl'.dataSectors i hi' (hlist i hi), hl.dataSectors i hi' (hlist i hi)]
      headerSectors := by
        intro j hj
        have hj' : j < (intAt d s 3).toNat := by
          rw [← hl.numHeaderSectors]
          exact hj
        rw [hl'.headerSectors j hj', hl.headerSectors j hj'] }

/-- A file of 30 sectors, the last three of them listed in the continuation sector 50. -/
def chained : FileHeader := ⟨0, 3840, 30, fun i => i + 2, 1, fun _ => 50⟩

omit [Config] in
theorem fetchFrom_writeBack_chained :
    @Prog.wp World _ (do
        @writeBack Config.defaults chained (1 : Nat)
        @fetchFrom Config.defaults (inRow 0) (1 : Nat))
      (fun hdr' w' => chained.SameStored hdr' ∧
        ∀ t : Nat, t ≠ 1 → (∀ j < 1, (50 : Int) ≠ t) → w'.disk t = World.blank.disk t)
      World.blank := by
  let _ := Config.defaults
  have hst : chained.Storable := by
    refine ⟨by decide, by decide, by decide, by decide, fun j _ => ?_, fun i hi j hj _ => ?_,
      fun i hi => ?_⟩
    · exact onDisk_natCast (n := 50) (by decide)
    · have hi' : i < 1 := hi
      have hj' : j < 1 := hj
      omega
    · have hi' : i < 30 := hi
      show -2147483648 ≤ (i : Int) + 2 ∧ (i : Int) + 2 < 2147483648
      omega
  exact fetchFrom_writeBack (s := 1) (by decide) hst
    (fun _ _ => show (50 : Int) ≠ (1 : Nat) by decide)
    (by decide) (by decide) (inRow 0) World.blank

end FileHeader

end

/-! ## The places of the arrays -/

namespace HeaderImage

/-- The arrays: the local one of each function, and the two tables of the header. -/
inductive Table where
  | fetchImg
  | writeImg
  | dataSectors
  | headerSectors
  deriving DecidableEq

/-- An element of an array. -/
abbrev Access := Table × Nat

/-- `n` elements of an array from `lo` on. -/
def cells (t : Table) (lo n : Nat) : List Access := (List.range n).map fun i => (t, lo + i)

theorem mem_cells {t : Table} {lo n : Nat} {a : Access} :
    a ∈ cells t lo n ↔ ∃ i < n, a = (t, lo + i) := by
  unfold cells
  rw [List.mem_map]
  constructor
  · rintro ⟨i, hi, rfl⟩
    exact ⟨i, List.mem_range.mp hi, rfl⟩
  · rintro ⟨i, hi, rfl⟩
    exact ⟨i, List.mem_range.mpr hi, rfl⟩

variable (SectorSize : Nat)

/-! The constants of `filehdr.h`, for any size of a sector. -/

def DatasInFirstSector : Nat := (SectorSize - 5 * 4) / 4

def DatasInSector : Nat := (SectorSize - 1 * 4) / 4

def NextHeaderSector : Nat := SectorSize / 4 - 1

def MAX_DATA_SECTORS : Nat :=
  (MAX_HEADER_SECTORS - 1) * DatasInSector SectorSize + DatasInFirstSector SectorSize

/-- The declared size. -/
def size : Table → Nat
  | .fetchImg => SectorSize / 4
  | .writeImg => DatasInSector SectorSize
  | .dataSectors => MAX_DATA_SECTORS SectorSize
  | .headerSectors => MAX_HEADER_SECTORS

def InBounds (a : Access) : Prop := a.2 < size SectorSize a.1

/-- `memset` of an array to zeros, and the transfer of an array from or to the disk. -/
def whole (t : Table) : List Access := cells t 0 (SectorSize / 4)

/-- `SectorImg[j]` and `dataSectors[base + j]`, for `lo ≤ j < DatasInSector`. -/
def copied (t : Table) (lo base : Nat) : List Access :=
  (List.range (DatasInSector SectorSize - lo)).flatMap fun j =>
    [(t, lo + j), (.dataSectors, base + j)]

/-- The first sector: the four fields, the data sectors and the number of the next sector. -/
def first (t : Table) : List Access :=
  whole SectorSize t ++ cells t 0 4 ++ copied SectorSize t 4 0 ++
    [(t, NextHeaderSector SectorSize), (.headerSectors, 0)] ++ whole SectorSize t

/-- The continuation sector `i` of `numHeaderSectors`, for `FetchFrom`. -/
def fetchNext (numHeaderSectors i : Nat) : List Access :=
  whole SectorSize .fetchImg ++ [(.headerSectors, i)] ++ whole SectorSize .fetchImg ++
    copied SectorSize .fetchImg 0 (DatasInFirstSector SectorSize + i * DatasInSector SectorSize) ++
    if i + 1 < numHeaderSectors then
      [(.headerSectors, i + 1), (.fetchImg, NextHeaderSector SectorSize)]
    else []

/-- The same for `WriteBack`, which sets the last word in any case. -/
def writeNext (numHeaderSectors i : Nat) : List Access :=
  whole SectorSize .writeImg ++
    copied SectorSize .writeImg 0 (DatasInFirstSector SectorSize + i * DatasInSector SectorSize) ++
    [(.writeImg, NextHeaderSector SectorSize)] ++
    (if i + 1 < numHeaderSectors then [(.headerSectors, i + 1)] else []) ++
    [(.headerSectors, i)] ++ whole SectorSize .writeImg

/-- `FetchFrom`. -/
def fetchFrom (numHeaderSectors : Nat) : List Access :=
  first SectorSize .fetchImg ++
    (List.range numHeaderSectors).flatMap (fetchNext SectorSize numHeaderSectors)

/-- `WriteBack`. -/
def writeBack (numHeaderSectors : Nat) : List Access :=
  first SectorSize .writeImg ++
    (List.range numHeaderSectors).flatMap (writeNext SectorSize numHeaderSectors)

/-- The `numHeaderSectors` that `Allocate` computes. -/
def allocated (fileSize : Nat) : Nat :=
  let numSectors := (fileSize + SectorSize - 1) / SectorSize
  (numSectors - DatasInFirstSector SectorSize + DatasInSector SectorSize - 1) /
    DatasInSector SectorSize

variable {SectorSize} {n i lo base : Nat} {t : Table} {a : Access}

/-- The constants in terms of the words of a sector, of which there are a multiple of 8. -/
theorem constants {k : Nat} (hk : 5 ≤ k) (hss : SectorSize = 2 ^ k) :
    SectorSize / 4 = DatasInSector SectorSize + 1 ∧
      DatasInFirstSector SectorSize + 4 = DatasInSector SectorSize ∧
      NextHeaderSector SectorSize = DatasInSector SectorSize ∧ 7 ≤ DatasInSector SectorSize := by
  obtain ⟨m, hm⟩ : ∃ m, SectorSize = 32 * m := ⟨2 ^ (k - 5), by
    rw [hss, show (32 : Nat) = 2 ^ 5 from rfl, ← Nat.pow_add, Nat.add_sub_cancel' hk]⟩
  have hpos : 0 < SectorSize := hss ▸ Nat.two_pow_pos k
  unfold DatasInSector DatasInFirstSector NextHeaderSector
  omega

/-- A file of at most `MAX_FILE_LENGTH` bytes has at most 31 continuation sectors. -/
theorem allocated_le {fileSize : Nat} (hpos : 0 < SectorSize) (hD : 0 < DatasInSector SectorSize)
    (h : fileSize ≤ MAX_DATA_SECTORS SectorSize * SectorSize) :
    allocated SectorSize fileSize ≤ 31 := by
  have hsectors : (fileSize + SectorSize - 1) / SectorSize ≤ MAX_DATA_SECTORS SectorSize := by
    rw [← Nat.lt_succ_iff, Nat.div_lt_iff_lt_mul hpos, Nat.succ_mul]
    omega
  unfold allocated
  dsimp only
  rw [← Nat.lt_succ_iff, Nat.div_lt_iff_lt_mul hD]
  unfold MAX_DATA_SECTORS MAX_HEADER_SECTORS at hsectors
  rw [Nat.succ_mul]
  omega

theorem mem_copied : a ∈ copied SectorSize t lo base ↔
    ∃ j < DatasInSector SectorSize - lo, a = (t, lo + j) ∨ a = (.dataSectors, base + j) := by
  unfold copied
  simp only [List.mem_flatMap, List.mem_range, List.mem_cons, List.not_mem_nil, or_false]

/-- The exact place that is outside: the last word of the sector, in the array of `WriteBack`. -/
def lastWord (SectorSize : Nat) : Access := (.writeImg, SectorSize / 4 - 1)

section

variable (hwords : SectorSize / 4 = DatasInSector SectorSize + 1)
  (hfirst : DatasInFirstSector SectorSize + 4 = DatasInSector SectorSize)
  (hnext : NextHeaderSector SectorSize = DatasInSector SectorSize)
  (hD : 7 ≤ DatasInSector SectorSize)

include hwords

/-- A place in the local array of a function. -/
theorem img_ok (ht : t = .fetchImg ∨ t = .writeImg) (hi : i < DatasInSector SectorSize + 1) :
    InBounds SectorSize (t, i) ∨ (t, i) = lastWord SectorSize := by
  unfold InBounds lastWord
  rcases ht with rfl | rfl
  · left
    show i < SectorSize / 4
    omega
  · by_cases hlast : i = SectorSize / 4 - 1
    · exact Or.inr (by rw [hlast])
    · left
      show i < DatasInSector SectorSize
      omega

theorem whole_ok (ht : t = .fetchImg ∨ t = .writeImg) (ha : a ∈ whole SectorSize t) :
    InBounds SectorSize a ∨ a = lastWord SectorSize := by
  obtain ⟨i, hi, rfl⟩ := mem_cells.mp ha
  exact img_ok hwords ht (by omega)

theorem copied_ok (ht : t = .fetchImg ∨ t = .writeImg) (ha : a ∈ copied SectorSize t lo base)
    (hbase : base + (DatasInSector SectorSize - lo) ≤ MAX_DATA_SECTORS SectorSize) :
    InBounds SectorSize a ∨ a = lastWord SectorSize := by
  obtain ⟨j, hj, rfl | rfl⟩ := mem_copied.mp ha
  · exact img_ok hwords ht (by omega)
  · left
    show base + j < MAX_DATA_SECTORS SectorSize
    omega

include hfirst hnext hD

theorem first_ok (ht : t = .fetchImg ∨ t = .writeImg) (ha : a ∈ first SectorSize t) :
    InBounds SectorSize a ∨ a = lastWord SectorSize := by
  unfold first at ha
  simp only [List.mem_append, List.mem_cons, List.not_mem_nil, or_false] at ha
  rcases ha with (((ha | ha) | ha) | rfl | rfl) | ha
  · exact whole_ok hwords ht ha
  · obtain ⟨i, hi, rfl⟩ := mem_cells.mp ha
    exact img_ok hwords ht (by omega)
  · refine copied_ok hwords ht ha ?_
    unfold MAX_DATA_SECTORS MAX_HEADER_SECTORS
    omega
  · exact img_ok hwords ht (by omega)
  · left
    show 0 < MAX_HEADER_SECTORS
    decide
  · exact whole_ok hwords ht ha

omit hwords hnext hD in
/-- The data sectors of continuation sector `i` are in the table. -/
theorem base_le (hi : i < 31) :
    DatasInFirstSector SectorSize + i * DatasInSector SectorSize + (DatasInSector SectorSize - 0) ≤
      MAX_DATA_SECTORS SectorSize := by
  have hmul : (i + 1) * DatasInSector SectorSize ≤ 31 * DatasInSector SectorSize :=
    Nat.mul_le_mul_right _ hi
  rw [Nat.succ_mul] at hmul
  unfold MAX_DATA_SECTORS MAX_HEADER_SECTORS
  omega

omit hD in
theorem fetchNext_ok (hi : i < n) (hn : n ≤ 31) (ha : a ∈ fetchNext SectorSize n i) :
    InBounds SectorSize a ∨ a = lastWord SectorSize := by
  have ht : Table.fetchImg = .fetchImg ∨ Table.fetchImg = .writeImg := Or.inl rfl
  unfold fetchNext at ha
  simp only [List.mem_append, List.mem_cons, List.not_mem_nil, or_false] at ha
  rcases ha with (((ha | rfl) | ha) | ha) | ha
  · exact whole_ok hwords ht ha
  · left
    show i < 32
    omega
  · exact whole_ok hwords ht ha
  · exact copied_ok hwords ht ha (base_le hfirst (by omega))
  · split at ha
    · simp only [List.mem_cons, List.not_mem_nil, or_false] at ha
      rcases ha with rfl | rfl
      · left
        show i + 1 < 32
        omega
      · exact img_ok hwords ht (by omega)
    · exact absurd ha List.not_mem_nil

omit hD in
theorem writeNext_ok (hi : i < n) (hn : n ≤ 31) (ha : a ∈ writeNext SectorSize n i) :
    InBounds SectorSize a ∨ a = lastWord SectorSize := by
  have ht : Table.writeImg = .fetchImg ∨ Table.writeImg = .writeImg := Or.inr rfl
  unfold writeNext at ha
  simp only [List.mem_append, List.mem_cons, List.not_mem_nil, or_false] at ha
  rcases ha with ((((ha | ha) | rfl) | ha) | rfl) | ha
  · exact whole_ok hwords ht ha
  · exact copied_ok hwords ht ha (base_le hfirst (by omega))
  · exact img_ok hwords ht (by omega)
  · split at ha
    · obtain rfl := List.mem_singleton.mp ha
      left
      show i + 1 < 32
      omega
    · exact absurd ha List.not_mem_nil
  · left
    show i < 32
    omega
  · exact whole_ok hwords ht ha

end

/-- For no header are all places inside the arrays; the last word of the array of `WriteBack`
    is the one that is not. -/
theorem writeBack_outside (k : Nat) (hk : 5 ≤ k) (hss : SectorSize = 2 ^ k) (fileSize : Nat)
    (h : fileSize ≤ MAX_DATA_SECTORS SectorSize * SectorSize) :
    let accesses := writeBack SectorSize (allocated SectorSize fileSize) ++
      fetchFrom SectorSize (allocated SectorSize fileSize)
    ¬ (∀ a ∈ accesses, InBounds SectorSize a) ∧
      ∀ a ∈ accesses, a ≠ lastWord SectorSize → InBounds SectorSize a := by
  obtain ⟨hwords, hfirst, hnext, hD⟩ := constants hk hss
  have hpos : 0 < SectorSize := hss ▸ Nat.two_pow_pos k
  have hn := allocated_le hpos (by omega) h
  generalize allocated SectorSize fileSize = n at hn ⊢
  constructor
  · intro hall
    have hmem : lastWord SectorSize ∈ writeBack SectorSize n := by
      refine List.mem_append_left _ (List.mem_append_right _ ?_)
      exact mem_cells.mpr ⟨SectorSize / 4 - 1, by omega, by rw [Nat.zero_add]; rfl⟩
    have hin := hall _ (List.mem_append_left _ hmem)
    have hlt : SectorSize / 4 - 1 < DatasInSector SectorSize := hin
    omega
  · intro a ha hne
    have hok : InBounds SectorSize a ∨ a = lastWord SectorSize := by
      unfold writeBack fetchFrom at ha
      simp only [List.mem_append, List.mem_flatMap, List.mem_range] at ha
      rcases ha with (ha | ⟨i, hi, ha⟩) | ha | ⟨i, hi, ha⟩
      · exact first_ok hwords hfirst hnext hD (Or.inr rfl) ha
      · exact writeNext_ok hwords hfirst hnext hi hn ha
      · exact first_ok hwords hfirst hnext hD (Or.inl rfl) ha
      · exact fetchNext_ok hwords hfirst hnext hi hn ha
    exact hok.resolve_right hne

/-- An empty file, with sectors of 128 bytes. -/
theorem writeBack_outside_empty :
    ¬ (∀ a ∈ writeBack 128 (allocated 128 0) ++ fetchFrom 128 (allocated 128 0),
      InBounds 128 a) ∧
      ∀ a ∈ writeBack 128 (allocated 128 0) ++ fetchFrom 128 (allocated 128 0),
        a ≠ lastWord 128 → InBounds 128 a :=
  writeBack_outside 7 (by decide) rfl 0 (Nat.zero_le _)

theorem writeBack_outside_fails :
    ¬ ∀ SectorSize k fileSize : Nat, 5 ≤ k → SectorSize = 2 ^ k →
      fileSize ≤ MAX_DATA_SECTORS SectorSize * SectorSize →
        ∀ a ∈ writeBack SectorSize (allocated SectorSize fileSize) ++
          fetchFrom SectorSize (allocated SectorSize fileSize), InBounds SectorSize a := by
  intro h
  have hin := h 128 7 0 (by decide) rfl (Nat.zero_le _) (.writeImg, 31) (by decide +kernel)
  exact absurd hin (by unfold InBounds size; decide)

end HeaderImage

end Nachos
