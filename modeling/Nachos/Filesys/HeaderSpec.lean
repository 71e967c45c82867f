/-
  Nachos.Filesys.HeaderSpec

  What the operations on headers do: fetching and writing back against the
  readers of `FileHdr`, allocating and freeing against the set of bits of the
  free map.
-/

import Nachos.Filesys.FileHdr

namespace Nachos

open Words Program Config

/-- A sector number that the disk accepts. -/
def OnDisk (s : Int) : Prop := 0 ≤ s ∧ s < NUM_SECTORS

theorem OnDisk.toNat_lt {s : Int} (h : OnDisk s) : s.toNat < NUM_SECTORS := by
  obtain ⟨h₀, h₁⟩ := h
  have hn : (NUM_SECTORS : Int) = 2048 := rfl
  show s.toNat < 2048
  omega

theorem OnDisk.cast {s : Int} (h : OnDisk s) : (s.toNat : Int) = s := Int.toNat_of_nonneg h.1

theorem onDisk_natCast {n : Nat} (h : n < NUM_SECTORS) : OnDisk (n : Int) :=
  ⟨Int.natCast_nonneg n, by exact_mod_cast h⟩

/-- The range of an `int`. -/
def InInt (x : Int) : Prop := -2147483648 ≤ x ∧ x < 2147483648

instance (x : Int) : Decidable (InInt x) := inferInstanceAs (Decidable (_ ∧ _))

theorem OnDisk.inInt {s : Int} (h : OnDisk s) : InInt s := by
  obtain ⟨h₀, h₁⟩ := h
  have hn : (NUM_SECTORS : Int) = 2048 := rfl
  constructor <;> omega

theorem int_ofInts_of {x : Nat → Int} {i : Nat} (h : InInt (x i)) : int (ofInts x) i = x i :=
  int_ofInts h.1 h.2

variable [Config]

/-! ## Reading is local -/

/-- The continuation list depends on the header sector and on the sectors of the
    list before it. -/
theorem contAt_congr {d d' : Disk} {s : Nat} (hs : d' s = d s) {j : Nat}
    (h : ∀ i < j, d' (contAt d s i).toNat = d (contAt d s i).toNat) :
    contAt d' s j = contAt d s j := by
  induction j with
  | zero => simp only [contAt, intAt, hs]
  | succ j ih =>
      have hj := ih fun i hi => h i (Nat.lt_succ_of_lt hi)
      simp only [contAt, intAt, hj, h j (Nat.lt_succ_self j)]

theorem dataAt_first {d : Disk} {s i : Nat} (h : i < datasInFirstSector) :
    dataAt d s i = intAt d s (4 + i) := by
  simp only [dataAt, h, if_true]

theorem dataAt_cont {d : Disk} {s j k : Nat} (hk : k < datasInSector) :
    dataAt d s (datasInFirstSector + j * datasInSector + k) =
      intAt d (contAt d s j).toNat k := by
  have hnot : ¬ datasInFirstSector + j * datasInSector + k < datasInFirstSector := by omega
  have hsub : datasInFirstSector + j * datasInSector + k - datasInFirstSector =
      datasInSector * j + k := by
    rw [Nat.mul_comm]
    omega
  rw [dataAt, if_neg hnot, hsub, Nat.mul_add_div datasInSector_pos, Nat.div_eq_of_lt hk,
    Nat.add_zero, Nat.mul_add_mod, Nat.mod_eq_of_lt hk]

/-- Past the first sector, a data sector is listed in one continuation sector. -/
theorem data_index {i n : Nat} (h : ¬ i < datasInFirstSector)
    (hi : i < datasInFirstSector + n * datasInSector) :
    ∃ j k, j < n ∧ k < datasInSector ∧ i = datasInFirstSector + j * datasInSector + k := by
  have hD := datasInSector_pos
  refine ⟨(i - datasInFirstSector) / datasInSector, (i - datasInFirstSector) % datasInSector,
    ?_, Nat.mod_lt _ hD, ?_⟩
  · rw [Nat.div_lt_iff_lt_mul hD]
    omega
  · have := Nat.div_add_mod (i - datasInFirstSector) datasInSector
    rw [Nat.mul_comm] at this
    omega

theorem dataAt_congr {d d' : Disk} {s : Nat} (hs : d' s = d s) {n i : Nat}
    (h : ∀ j < n, d' (contAt d s j).toNat = d (contAt d s j).toNat)
    (hi : i < datasInFirstSector + n * datasInSector) : dataAt d' s i = dataAt d s i := by
  by_cases hf : i < datasInFirstSector
  · rw [dataAt_first hf, dataAt_first hf, intAt, intAt, hs]
  · obtain ⟨j, k, hj, hk, rfl⟩ := data_index hf hi
    have hc := contAt_congr hs fun i' hi' => h i' (Nat.lt_trans hi' hj)
    rw [dataAt_cont hk, dataAt_cont hk, hc, intAt, intAt, h j hj]

/-! ## `FetchFrom` and `WriteBack` -/

namespace FileHeader

/-- `FetchFrom` loads the header at `s`; the table past the room of the chain
    keeps what the memory held. -/
theorem wp_fetchFrom {hdr : FileHeader} {s : Nat} {w : World} {Q : FileHeader → World → Prop}
    (hs : s < NUM_SECTORS) (hnh : intAt w.disk s 3 ≤ MAX_HEADER_SECTORS)
    (hc : ∀ j < (intAt w.disk s 3).toNat, OnDisk (contAt w.disk s j))
    (hQ : ∀ h, Loaded w.disk s h →
      (∀ i, chainRoom w.disk s ≤ i → h.dataSectors i = int (w.heap w.allocs) i) →
      Q h { w with allocs := w.allocs + 1 }) :
    Prog.wp (fetchFrom hdr s) Q w := by
  obtain ⟨-, hF, -, -, -⟩ := sizes
  unfold fetchFrom
  simp only [Prog.wp_bind, wp_readSector, wp_newArray, Prog.wp_assert, Int.toNat_natCast]
  refine ⟨onDisk_natCast hs, hnh, ?_⟩
  -- After `i` turns the table holds what the first `i` continuation sectors list.
  refine Prog.wp_mono (Prog.wp_forRange (fun i h w' =>
    w' = { w with allocs := w.allocs + 1 } ∧ h.isdir = intAt w.disk s 0 ∧
      h.numBytes = intAt w.disk s 1 ∧ h.numSectors = intAt w.disk s 2 ∧
      h.numHeaderSectors = intAt w.disk s 3 ∧
      (∀ j ≤ i, j = 0 ∨ j < (intAt w.disk s 3).toNat → h.headerSectors j = contAt w.disk s j) ∧
      (∀ k < datasInFirstSector + i * datasInSector, h.dataSectors k = dataAt w.disk s k) ∧
      (∀ k, datasInFirstSector + i * datasInSector ≤ k →
        h.dataSectors k = int (w.heap w.allocs) k)) ?_ ?_) ?_
  · refine ⟨rfl, rfl, rfl, rfl, rfl, ?_, ?_, ?_⟩
    · intro j hj _
      obtain rfl : j = 0 := by omega
      simp [contAt, intAt]
    · intro k hk
      have hlt : k < datasInSector - 4 := by omega
      rw [dataAt_first (by omega)]
      dsimp only
      have hcopy := copyInto_of_mem (d := int (w.heap w.allocs)) (b := 0)
        (f := fun i => int (w.disk s) (4 + i)) hlt
      rw [Nat.zero_add] at hcopy
      rw [hcopy, intAt]
    · intro k hk
      dsimp only
      have hnot : ¬ (0 ≤ k ∧ k < 0 + (datasInSector - 4)) := by omega
      simp only [copyInto, hnot, if_false]
  · rintro i hi h w' ⟨rfl, h0, h1, h2, h3, hcont, hdata, hjunk⟩
    have hhs : h.headerSectors i = contAt w.disk s i := hcont i (Nat.le_refl i) (Or.inr hi)
    have hok := hc i hi
    simp only [Prog.wp_bind, wp_readSector, Prog.wp_pure, hhs]
    refine ⟨hok, trivial, h0, h1, h2, h3, ?_, ?_, ?_⟩
    · intro j hj hjn
      by_cases hlast : j = i + 1
      · subst hlast
        have hlt : (i : Int) + 1 < intAt w.disk s 3 := by omega
        rw [if_pos (show (i : Int) + 1 < int (w.disk s) 3 from hlt), Function.update_self]
        rfl
      · have hle : j ≤ i := by omega
        have hold := hcont j hle hjn
        split
        · rw [Function.update_of_ne hlast]
          exact hold
        · exact hold
    · intro k hk
      rw [Nat.add_mul, Nat.one_mul] at hk
      by_cases hlt : k < datasInFirstSector + i * datasInSector
      · rw [copyInto_of_lt hlt]
        exact hdata k hlt
      · obtain ⟨m, rfl⟩ : ∃ m, k = datasInFirstSector + i * datasInSector + m :=
          ⟨k - (datasInFirstSector + i * datasInSector), by omega⟩
        have hm : m < datasInSector := by omega
        rw [copyInto_of_mem hm, dataAt_cont hm, intAt]
    · intro k hk
      rw [Nat.add_mul, Nat.one_mul] at hk
      have hnot : ¬ (datasInFirstSector + i * datasInSector ≤ k ∧
          k < datasInFirstSector + i * datasInSector + datasInSector) := by omega
      simp only [copyInto, hnot, if_false]
      exact hjunk k (by omega)
  · rintro h w' ⟨rfl, h0, h1, h2, h3, hcont, hdata, hjunk⟩
    exact hQ h ⟨h0, h1, h2, h3, fun j hj => hcont j (Nat.le_of_lt hj) (Or.inr hj),
      fun i _ hi => hdata i hi⟩ hjunk

/-- The values of a header that `WriteBack` stores and that matter. -/
structure Storable (hdr : FileHeader) : Prop where
  isdir : InInt hdr.isdir
  numBytes : InInt hdr.numBytes
  numSectors : InInt hdr.numSectors
  numHeaderSectors : InInt hdr.numHeaderSectors
  headerSectors : ∀ j < hdr.numHeaderSectors.toNat, OnDisk (hdr.headerSectors j)
  distinct : ∀ i < hdr.numHeaderSectors.toNat, ∀ j < hdr.numHeaderSectors.toNat,
    hdr.headerSectors i = hdr.headerSectors j → i = j
  dataSectors : ∀ i < hdr.numSectors.toNat, InInt (hdr.dataSectors i)

/-- `WriteBack` stores the header at `s` and touches no sector but those of the
    header. -/
theorem wp_writeBack {hdr : FileHeader} {s : Nat} {w : World} {Q : Unit → World → Prop}
    (hs : s < NUM_SECTORS) (h : hdr.Storable)
    (hne : ∀ j < hdr.numHeaderSectors.toNat, hdr.headerSectors j ≠ s)
    (hQ : ∀ d, Loaded d s hdr →
      (∀ t : Nat, t ≠ s → (∀ j < hdr.numHeaderSectors.toNat, hdr.headerSectors j ≠ t) →
        d t = w.disk t) →
      Q () { w with disk := d }) :
    Prog.wp (writeBack hdr s) Q w := by
  obtain ⟨-, hF, hnext, hD, -⟩ := sizes
  unfold writeBack
  simp only [Prog.wp_bind, wp_writeSector, Int.toNat_natCast]
  refine ⟨onDisk_natCast hs, ?_⟩
  -- After `i` turns the first sector and the first `i` continuation sectors are stored.
  refine Prog.wp_mono (Prog.wp_forRange (fun i (_ : Unit) w' => ∃ d : Disk, w' = { w with disk := d } ∧
    d s = ofInts hdr.firstImage ∧
    (∀ j < i, d (hdr.headerSectors j).toNat = ofInts (hdr.image j)) ∧
    (∀ t : Nat, t ≠ s → (∀ j < i, hdr.headerSectors j ≠ t) → d t = w.disk t)) ?_ ?_) ?_
  · refine ⟨_, rfl, by simp, fun j hj => absurd hj (Nat.not_lt_zero j), fun t ht _ => ?_⟩
    simp [ht]
  · rintro i hi - w' ⟨d, rfl, hfirst, hconts, hframe⟩
    have hok := h.headerSectors i hi
    simp only [wp_writeSector]
    refine ⟨hok, _, rfl, ?_, ?_, ?_⟩
    · have hsi : s ≠ (hdr.headerSectors i).toNat := by
        intro he
        exact hne i hi (by rw [← hok.cast, ← he])
      simpa [hsi] using hfirst
    · intro j hj
      by_cases hji : j = i
      · simp [hji]
      · have hlt : j < i := by omega
        have hjn : j < hdr.numHeaderSectors.toNat := Nat.lt_trans hlt hi
        have hd : (hdr.headerSectors j).toNat ≠ (hdr.headerSectors i).toNat := by
          intro he
          apply hji
          apply h.distinct j hjn i hi
          rw [← (h.headerSectors j hjn).cast, ← hok.cast, he]
        simpa [hd] using hconts j hlt
    · intro t ht hall
      have hti : t ≠ (hdr.headerSectors i).toNat := by
        intro he
        exact hall i (Nat.lt_succ_self i) (by rw [← hok.cast, ← he])
      have := hframe t ht fun j hj => hall j (Nat.lt_succ_of_lt hj)
      simpa [hti] using this
  · rintro - w' ⟨d, rfl, hfirst, hconts, hframe⟩
    refine hQ d ?_ hframe
    have h0 : intAt d s 0 = hdr.isdir := by
      rw [intAt, hfirst, int_ofInts_of (by simpa [firstImage] using h.isdir)]
      rfl
    have h1 : intAt d s 1 = hdr.numBytes := by
      rw [intAt, hfirst, int_ofInts_of (by simpa [firstImage] using h.numBytes)]
      rfl
    have h2 : intAt d s 2 = hdr.numSectors := by
      rw [intAt, hfirst, int_ofInts_of (by simpa [firstImage] using h.numSectors)]
      rfl
    have h3 : intAt d s 3 = hdr.numHeaderSectors := by
      rw [intAt, hfirst, int_ofInts_of (by simpa [firstImage] using h.numHeaderSectors)]
      rfl
    have hcont : ∀ j < hdr.numHeaderSectors.toNat, contAt d s j = hdr.headerSectors j := by
      intro j hj
      induction j with
      | zero =>
          have hlast : hdr.firstImage nextHeaderSector = hdr.headerSectors 0 := by
            have h4 : nextHeaderSector ≠ 0 ∧ nextHeaderSector ≠ 1 ∧ nextHeaderSector ≠ 2 ∧
                nextHeaderSector ≠ 3 ∧ ¬ nextHeaderSector < datasInSector := by omega
            simp [firstImage, h4.1, h4.2.1, h4.2.2.1, h4.2.2.2.1, h4.2.2.2.2]
          have hin : InInt (hdr.firstImage nextHeaderSector) := by
            rw [hlast]
            exact (h.headerSectors 0 hj).inInt
          rw [contAt, intAt, hfirst, int_ofInts_of hin, hlast]
      | succ j ih =>
          have hjn := Nat.lt_of_succ_lt hj
          have hlast : hdr.image j nextHeaderSector = hdr.headerSectors (j + 1) := by
            have h4 : ¬ nextHeaderSector < datasInSector := by omega
            have h5 : (j : Int) + 1 < hdr.numHeaderSectors := by omega
            simp [image, h4, h5]
          have hin : InInt (hdr.image j nextHeaderSector) := by
            rw [hlast]
            exact (h.headerSectors (j + 1) hj).inInt
          rw [contAt, ih hjn, intAt, hconts j hjn, int_ofInts_of hin, hlast]
    refine ⟨h0.symm, h1.symm, h2.symm, h3.symm, fun j hj => ?_, fun i hi hroom => ?_⟩
    · rw [h3] at hj
      exact (hcont j hj).symm
    · rw [h2] at hi
      rw [chainRoom, h3] at hroom
      have hin := h.dataSectors i hi
      by_cases hf : i < datasInFirstSector
      · have hw : hdr.firstImage (4 + i) = hdr.dataSectors i := by
          have h4 : 4 + i ≠ 1 ∧ 4 + i ≠ 2 ∧ 4 + i ≠ 3 ∧ 4 + i < datasInSector := by omega
          simp [firstImage, h4.1, h4.2.1, h4.2.2.1, h4.2.2.2]
        rw [dataAt_first hf, intAt, hfirst, int_ofInts_of (by rw [hw]; exact hin), hw]
      · obtain ⟨j, k, hj, hk, rfl⟩ := data_index hf hroom
        have hw : hdr.image j k =
            hdr.dataSectors (datasInFirstSector + j * datasInSector + k) := by
          have he : k + datasInFirstSector + j * datasInSector =
              datasInFirstSector + j * datasInSector + k := by omega
          simp only [image, hk, if_true, he]
        rw [dataAt_cont hk, hcont j hj, intAt, hconts j hj,
          int_ofInts_of (by rw [hw]; exact hin), hw]

/-! ## Allocating and freeing -/

omit [Config] in
/-- The allocation loop fills `n` elements of the table with clear sectors. -/
theorem allocSectors_spec (base n : Nat) (sectors : Nat → Int) (m : BitMap) (h : n ≤ m.numClear) :
    ∃ L : List Nat, L.length = n ∧ BitMap.Takes m L (allocSectors base n sectors m).2 ∧
      (∀ i (hi : i < L.length), (allocSectors base n sectors m).1 (base + i) = (L[i] : Int)) ∧
      ∀ k, k < base ∨ base + n ≤ k → (allocSectors base n sectors m).1 k = sectors k := by
  induction n with
  | zero => exact ⟨[], rfl, BitMap.Takes.refl m, fun i hi => absurd hi (Nat.not_lt_zero i),
      fun _ _ => rfl⟩
  | succ n ih =>
      obtain ⟨L, hlen, htake, hval, hrest⟩ := ih (Nat.le_of_succ_le h)
      have hclear := htake.numClear
      obtain ⟨i, m', hf, hone⟩ := BitMap.find_takes (m := (allocSectors base n sectors m).2)
        (by omega)
      have he : allocSectors base (n + 1) sectors m =
          (Function.update (allocSectors base n sectors m).1 (base + n) (i : Int), m') := by
        simp only [allocSectors, hf]
      rw [he]
      refine ⟨L ++ [i], by simp [hlen], htake.trans hone, fun k hk => ?_, fun k hk => ?_⟩
      · by_cases hkn : k = n
        · subst hkn
          simp [← hlen]
        · have hkl : k < L.length := by
            rw [List.length_append, List.length_singleton] at hk
            omega
          have hne : base + k ≠ base + n := by omega
          rw [List.getElem_append_left hkl, ← hval k hkl]
          exact Function.update_of_ne hne _ _
      · have hne : k ≠ base + n := by omega
        rw [← hrest k (by omega)]
        exact Function.update_of_ne hne _ _

omit [Config] in
/-- The freeing loop clears `n` distinct marked sectors. -/
theorem clearSectors_spec (sectors : Nat → Int) (n : Nat) (m : BitMap)
    (hok : ∀ i < n, 0 ≤ sectors i ∧ (sectors i).toNat < m.numBits)
    (hmarked : ∀ i < n, m.has (sectors i).toNat = true)
    (hinj : ∀ i < n, ∀ j < n, sectors i = sectors j → i = j) :
    ∃ m', clearSectors sectors n m = some m' ∧ m'.numBits = m.numBits ∧
      ∀ x, m'.has x = (m.has x && decide (∀ i < n, sectors i ≠ x)) := by
  induction n with
  | zero => exact ⟨m, rfl, rfl, by simp⟩
  | succ n ih =>
      obtain ⟨m₁, h₁, hn₁, hh₁⟩ := ih (fun i hi => hok i (Nat.lt_succ_of_lt hi))
        (fun i hi => hmarked i (Nat.lt_succ_of_lt hi))
        (fun i hi j hj => hinj i (Nat.lt_succ_of_lt hi) j (Nat.lt_succ_of_lt hj))
      obtain ⟨hpos, hlt⟩ := hok n (Nat.lt_succ_self n)
      have hcast : ((sectors n).toNat : Int) = sectors n := Int.toNat_of_nonneg hpos
      have hstill : m₁.has (sectors n).toNat = true := by
        rw [hh₁, hmarked n (Nat.lt_succ_self n), Bool.true_and, decide_eq_true_eq]
        intro i hi he
        rw [hcast] at he
        have := hinj i (Nat.lt_succ_of_lt hi) n (Nat.lt_succ_self n) he
        omega
      obtain ⟨m₂, h₂, hn₂, hh₂⟩ := m₁.clear_eq (i := (sectors n).toNat) (by omega)
      rw [hcast] at h₂
      have htest : m₁.test (sectors n) = some true := by
        rw [← hcast, m₁.test_eq (by omega), hstill]
      refine ⟨m₂, ?_, hn₂.trans hn₁, fun x => ?_⟩
      · rw [clearSectors, h₁, Option.bind_some, if_pos htest, h₂]
      · rw [hh₂, hh₁, Bool.and_assoc]
        congr 1
        have hx : (x != (sectors n).toNat) = decide (sectors n ≠ (x : Int)) := by
          by_cases he : x = (sectors n).toNat
          · simp [he, hcast]
          · have : sectors n ≠ (x : Int) := by omega
            simp [he, this]
        rw [hx, ← Bool.decide_and, decide_eq_decide]
        constructor
        · rintro ⟨hall, hlast⟩ i hi
          by_cases hin : i = n
          · exact hin ▸ hlast
          · exact hall i (by omega)
        · intro hall
          exact ⟨fun i hi => hall i (Nat.lt_succ_of_lt hi), hall n (Nat.lt_succ_self n)⟩

/-- The number of data sectors of a file of this size. -/
def sectorsFor (size : Int) : Int := divRoundUp size SectorSize

/-- The number of continuation sectors of a file with this many data sectors. -/
def headersFor (numSectors : Int) : Int :=
  divRoundUp (numSectors - datasInFirstSector) datasInSector

theorem sectorsFor_cover (size : Int) : size ≤ sectorsFor size * SectorSize :=
  le_divRoundUp_mul size SectorSize_pos_int

/-- The continuation sectors have room for the data sectors. -/
theorem headersFor_cover (ns : Int) :
    ns.toNat ≤ datasInFirstSector + (headersFor ns).toNat * datasInSector := by
  have hD : (0 : Int) < datasInSector := by exact_mod_cast datasInSector_pos
  have h := le_divRoundUp_mul (ns - datasInFirstSector) hD
  change ns - datasInFirstSector ≤ headersFor ns * datasInSector at h
  by_cases hneg : headersFor ns ≤ 0
  · have hle : headersFor ns * datasInSector ≤ 0 :=
      Int.mul_nonpos_of_nonpos_of_nonneg hneg (Int.le_of_lt hD)
    omega
  · have hcast : ((headersFor ns).toNat : Int) = headersFor ns := Int.toNat_of_nonneg (by omega)
    have hmul : (((headersFor ns).toNat * datasInSector : Nat) : Int) =
        headersFor ns * datasInSector := by
      rw [Int.natCast_mul, hcast]
    omega

theorem sectorsFor_le {size : Int} (h : size ≤ MAX_FILE_LENGTH) :
    sectorsFor size ≤ MAX_DATA_SECTORS := by
  refine divRoundUp_le SectorSize_pos_int (Int.natCast_nonneg _) ?_
  rw [← Int.natCast_mul]
  exact h

theorem headersFor_le {ns : Int} (h : ns ≤ MAX_DATA_SECTORS) : headersFor ns ≤ 31 := by
  refine divRoundUp_le (by exact_mod_cast datasInSector_pos) (by decide) ?_
  have := MAX_DATA_SECTORS_eq
  omega

theorem headersFor_nonpos {ns : Int} (h : ns ≤ 0) : headersFor ns ≤ 0 :=
  divRoundUp_nonpos (by exact_mod_cast datasInSector_pos) (by omega)

/-- The numbers of sectors are `int`s. -/
theorem headersFor_ge (ns : Int) :
    ns - datasInFirstSector ≤ 0 → ns - datasInFirstSector ≤ headersFor ns := by
  intro h
  have hD : (0 : Int) < datasInSector := by exact_mod_cast datasInSector_pos
  have hle := le_divRoundUp_mul (ns - datasInFirstSector) hD
  have hneg : headersFor ns ≤ 0 := divRoundUp_nonpos hD h
  change ns - datasInFirstSector ≤ headersFor ns * datasInSector at hle
  have hmul : headersFor ns * datasInSector ≤ headersFor ns * 1 :=
    Int.mul_le_mul_of_nonpos_left hneg (by omega)
  omega

end FileHeader

end Nachos
