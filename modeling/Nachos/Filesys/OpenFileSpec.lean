/-
  Nachos.Filesys.OpenFileSpec

  Reading and writing through a handle, as a file of bytes: byte `o` of the file
  is byte `o % SectorSize` of data sector `o / SectorSize`.  A write inside the
  length of the handle changes the bytes it is about and keeps the others below
  that length; what it leaves past the length is arbitrary.
-/

import Nachos.Filesys.OpenFile
import Nachos.Filesys.HeaderSpec

namespace Nachos

open Words Program Config

variable [Config]

/-- Byte `o` of the file with the header `hdr`. -/
def fileByte (d : Disk) (hdr : FileHeader) (o : Nat) : Byte :=
  d (hdr.dataSectors (o / SectorSize)).toNat (o % SectorSize)

/-- The table of a header is good for every byte of the file. -/
structure FileHeader.Mapped (hdr : FileHeader) : Prop where
  onDisk : ∀ k < hdr.numSectors.toNat, OnDisk (hdr.dataSectors k)
  distinct : ∀ i < hdr.numSectors.toNat, ∀ j < hdr.numSectors.toNat,
    hdr.dataSectors i = hdr.dataSectors j → i = j
  numSectors : hdr.numSectors ≤ MAX_DATA_SECTORS
  numBytes : hdr.numBytes ≤ hdr.numSectors * SectorSize

/-! ## Offsets and sectors -/

omit [Config] in
@[simp] theorem divRoundDown_natCast (a b : Nat) :
    divRoundDown (a : Int) (b : Int) = ((a / b : Nat) : Int) := rfl

theorem sector_offset (k j : Nat) (hj : j < SectorSize) :
    (k * SectorSize + j) / SectorSize = k ∧ (k * SectorSize + j) % SectorSize = j := by
  rw [Nat.mul_comm k]
  refine ⟨?_, ?_⟩
  · rw [Nat.mul_add_div SectorSize_pos, Nat.div_eq_of_lt hj, Nat.add_zero]
  · rw [Nat.mul_add_mod, Nat.mod_eq_of_lt hj]

theorem offset_split (o : Nat) : o / SectorSize * SectorSize + o % SectorSize = o := by
  rw [Nat.mul_comm]
  exact Nat.div_add_mod o SectorSize

theorem offset_mod_lt (o : Nat) : o % SectorSize < SectorSize := Nat.mod_lt o SectorSize_pos

namespace FileHeader.Mapped

variable {hdr : FileHeader}

/-- A byte of the file lies in a sector of the table. -/
theorem index_lt (h : hdr.Mapped) {o : Nat} (ho : (o : Int) < hdr.numBytes) :
    o / SectorSize < hdr.numSectors.toNat := by
  have hle := h.numBytes
  have hpos : (0 : Int) < hdr.numSectors * SectorSize := by omega
  have hns : 0 < hdr.numSectors := by
    by_cases hn : 0 < hdr.numSectors
    · exact hn
    · have hm := Int.mul_nonpos_of_nonpos_of_nonneg (Int.not_lt.mp hn)
        (Int.natCast_nonneg SectorSize)
      omega
  rw [Nat.div_lt_iff_lt_mul SectorSize_pos]
  have hcast : ((hdr.numSectors.toNat * SectorSize : Nat) : Int) =
      hdr.numSectors * SectorSize := by
    rw [Int.natCast_mul, Int.toNat_of_nonneg (Int.le_of_lt hns)]
  omega

/-- A sector of the table that holds a byte of the file has its place in it. -/
theorem byteToSector (h : hdr.Mapped) {k : Nat} (hk : k < hdr.numSectors.toNat) :
    hdr.byteToSector ((k : Int) * SectorSize) = some (hdr.dataSectors k) := by
  have hle := h.numSectors
  have hdiv : ((k : Int) * (SectorSize : Int)).tdiv (SectorSize : Int) = (k : Int) := by
    rw [← Int.natCast_mul]
    show ((k * SectorSize / SectorSize : Nat) : Int) = k
    rw [Nat.mul_div_cancel _ SectorSize_pos]
  have hin : 0 ≤ (k : Int) ∧ (k : Int) < MAX_DATA_SECTORS := by omega
  simp only [FileHeader.byteToSector, hdiv, hin, if_true, Int.toNat_natCast, and_self]

end FileHeader.Mapped

theorem fileByte_sector (d : Disk) (hdr : FileHeader) (k : Nat) {j : Nat} (hj : j < SectorSize) :
    fileByte d hdr (k * SectorSize + j) = d (hdr.dataSectors k).toNat j := by
  obtain ⟨h₁, h₂⟩ := sector_offset k j hj
  rw [fileByte, h₁, h₂]

namespace OpenFile

/-! ## Reading -/

theorem wp_readSectors {file : OpenFile} (hm : file.hdr.Mapped) {first n : Nat}
    {buf : Nat → Byte} {w : World} {Q : (Nat → Byte) → World → Prop}
    (hn : first + n ≤ file.hdr.numSectors.toNat)
    (hQ : ∀ buf', (∀ j < n * SectorSize,
      buf' j = fileByte w.disk file.hdr (first * SectorSize + j)) → Q buf' w) :
    Prog.wp (readSectors file first n buf) Q w := by
  unfold readSectors
  -- After `i` turns the first `i` sectors are in the buffer.
  refine Prog.wp_mono (Prog.wp_forRange (fun i buf' w' => w' = w ∧ ∀ j < i * SectorSize,
    buf' j = fileByte w.disk file.hdr (first * SectorSize + j)) ?_ ?_) ?_
  · exact ⟨rfl, fun j hj => by simp at hj⟩
  · rintro i hi buf' w' ⟨rfl, hbuf⟩
    have hk : first + i < file.hdr.numSectors.toNat := by omega
    have hsec := hm.byteToSector hk
    rw [Int.natCast_add] at hsec
    simp only [Prog.wp_bind, Prog.wp_ofOption, wp_readSector, Prog.wp_pure, hsec]
    refine ⟨_, rfl, hm.onDisk _ hk, trivial, fun j hj => ?_⟩
    by_cases hlt : j < i * SectorSize
    · rw [copyInto_of_lt hlt]
      exact hbuf j hlt
    · obtain ⟨m, rfl⟩ : ∃ m, j = i * SectorSize + m := ⟨j - i * SectorSize, by omega⟩
      have hms : m < SectorSize := by
        rw [Nat.add_mul, Nat.one_mul] at hj
        omega
      rw [copyInto_of_mem hms, ← Nat.add_assoc, ← Nat.add_mul, fileByte_sector _ _ _ hms]
  · rintro buf' w' ⟨rfl, hbuf⟩
    exact hQ buf' hbuf

/-- `ReadAt` returns the bytes of the file from the position on, as many as were
    asked for or as the length of the handle leaves. -/
theorem wp_readAt {file : OpenFile} (hm : file.hdr.Mapped) {n p : Nat} {w : World}
    {Q : List Byte → World → Prop}
    (hQ : ∀ w', OnlyAllocs w w' →
      Q ((List.range (min n (file.hdr.numBytes.toNat - p))).map fun j =>
        fileByte w.disk file.hdr (p + j)) w') :
    Prog.wp (readAt file n p) Q w := by
  unfold readAt
  have hlength : file.hdr.fileLength = file.hdr.numBytes := rfl
  rw [hlength]
  by_cases hnone : (n : Int) ≤ 0 ∨ (p : Int) ≥ file.hdr.numBytes
  · have hmin : min n (file.hdr.numBytes.toNat - p) = 0 := by omega
    have hq := hQ w (OnlyAllocs.refl w)
    rw [hmin] at hq
    rw [if_pos hnone, Prog.wp_pure]
    exact hq
  · -- `len` bytes are read, from sector `p / SectorSize` to the sector of the last one.
    obtain ⟨len, hlen⟩ : ∃ len, len = min n (file.hdr.numBytes.toNat - p) := ⟨_, rfl⟩
    have hpos : 0 < len := by omega
    have hcut : (if (p : Int) + n > file.hdr.numBytes then file.hdr.numBytes - p else (n : Int)) =
        (len : Int) := by
      split <;> omega
    have hlast : (p : Int) + len - 1 = ((p + len - 1 : Nat) : Int) := by omega
    have hle : p / SectorSize ≤ (p + len - 1) / SectorSize := Nat.div_le_div_right (by omega)
    have hidx : (p + len - 1) / SectorSize < file.hdr.numSectors.toNat :=
      hm.index_lt (by omega)
    rw [if_neg hnone]
    simp only [Prog.wp_bind, Prog.wp_assert, wp_newArray, hcut, hlast, divRoundDown_natCast]
    have hcount : (1 + (((p + len - 1) / SectorSize : Nat) : Int) -
        ((p / SectorSize : Nat) : Int)).toNat =
          (p + len - 1) / SectorSize + 1 - p / SectorSize := by omega
    have hoff : ((p : Int) - ((p / SectorSize : Nat) : Int) * SectorSize).toNat =
        p % SectorSize := by
      have := offset_split p
      rw [← Int.natCast_mul]
      omega
    rw [hcount, hoff, Int.toNat_natCast, Int.toNat_natCast]
    refine ⟨by omega, wp_readSectors hm (by omega) fun buf' hbuf => ?_⟩
    rw [Prog.wp_pure]
    have hres : (List.range len).map (fun j => buf' (p % SectorSize + j)) =
        (List.range len).map fun j => fileByte w.disk file.hdr (p + j) := by
      apply List.map_congr_left
      intro j hj
      have hj' := List.mem_range.mp hj
      have hsplit := offset_split p
      have hend := offset_split (p + len - 1)
      have hmod := offset_mod_lt (p + len - 1)
      have hmul : (p + len - 1) / SectorSize * SectorSize + SectorSize =
          p / SectorSize * SectorSize +
            ((p + len - 1) / SectorSize + 1 - p / SectorSize) * SectorSize := by
        rw [← Nat.add_mul, ← Nat.succ_mul]
        congr 1
        omega
      rw [hbuf (p % SectorSize + j) (by omega), ← Nat.add_assoc, hsplit]
    rw [hres, hlen]
    exact hQ _ ⟨_, rfl⟩

/-! ## Writing -/

theorem wp_writeSectors {file : OpenFile} (hm : file.hdr.Mapped) {first n : Nat}
    {buf : Nat → Byte} {w : World} {Q : Unit → World → Prop}
    (hn : first + n ≤ file.hdr.numSectors.toNat)
    (hQ : ∀ d, (∀ j < n * SectorSize, fileByte d file.hdr (first * SectorSize + j) = buf j) →
      (∀ t : Nat, (∀ i < n, file.hdr.dataSectors (first + i) ≠ t) → d t = w.disk t) →
      Q () { w with disk := d }) :
    Prog.wp (writeSectors file first n buf) Q w := by
  unfold writeSectors
  refine Prog.wp_mono (Prog.wp_forRange (fun i (_ : Unit) w' => ∃ d : Disk,
    w' = { w with disk := d } ∧
    (∀ j < i * SectorSize, fileByte d file.hdr (first * SectorSize + j) = buf j) ∧
    ∀ t : Nat, (∀ i' < i, file.hdr.dataSectors (first + i') ≠ t) → d t = w.disk t) ?_ ?_) ?_
  · exact ⟨w.disk, rfl, fun j hj => by simp at hj, fun t _ => rfl⟩
  · rintro i hi - w' ⟨d, rfl, hbuf, hframe⟩
    have hk : first + i < file.hdr.numSectors.toNat := by omega
    have hsec := hm.byteToSector hk
    have hok := hm.onDisk _ hk
    rw [Int.natCast_add] at hsec
    simp only [Prog.wp_bind, Prog.wp_ofOption, wp_writeSector, hsec]
    refine ⟨_, rfl, hok, _, rfl, fun j hj => ?_, fun t ht => ?_⟩
    · obtain ⟨q, m, hms, rfl⟩ : ∃ q m, m < SectorSize ∧ j = q * SectorSize + m :=
        ⟨j / SectorSize, j % SectorSize, offset_mod_lt j, (offset_split j).symm⟩
      have hq : q < i + 1 := by
        by_cases hqi : q < i + 1
        · exact hqi
        · have := Nat.mul_le_mul_right SectorSize (Nat.not_lt.mp hqi)
          omega
      have hindex : first * SectorSize + (q * SectorSize + m) = (first + q) * SectorSize + m := by
        rw [Nat.add_mul]
        omega
      rw [hindex, fileByte_sector _ _ _ hms]
      by_cases hqi : q = i
      · subst hqi
        simp
      · have hne : (file.hdr.dataSectors (first + q)).toNat ≠
            (file.hdr.dataSectors (first + i)).toNat := by
          intro he
          have hokq := hm.onDisk (first + q) (by omega)
          have := hm.distinct (first + q) (by omega) (first + i) hk (by
            rw [← hokq.cast, ← hok.cast, he])
          omega
        have hlt : q * SectorSize + m < i * SectorSize := by
          have := Nat.mul_le_mul_right SectorSize (show q + 1 ≤ i by omega)
          rw [Nat.succ_mul] at this
          omega
        have hold := hbuf _ hlt
        rw [hindex, fileByte_sector _ _ _ hms] at hold
        simpa [hne] using hold
    · have hne : t ≠ (file.hdr.dataSectors (first + i)).toNat := by
        intro he
        exact ht i (Nat.lt_succ_self i) (by rw [← hok.cast, ← he])
      have := hframe t fun i' hi' => ht i' (Nat.lt_succ_of_lt hi')
      simpa [hne] using this
  · rintro - w' ⟨d, rfl, hbuf, hframe⟩
    exact hQ d hbuf hframe

/-- The disk `d'` is `d` with the `n` bytes from `p` on of the file overwritten. -/
structure Wrote (hdr : FileHeader) (d d' : Disk) (source : Nat → Byte) (n p : Nat) : Prop where
  new : ∀ j < n, fileByte d' hdr (p + j) = source j
  old : ∀ o : Nat, (o : Int) < hdr.numBytes → o < p ∨ p + n ≤ o →
    fileByte d' hdr o = fileByte d hdr o
  frame : ∀ t : Nat, (∀ k < hdr.numSectors.toNat, p / SectorSize ≤ k → k * SectorSize < p + n →
    hdr.dataSectors k ≠ t) → d' t = d t

omit [Config] in
theorem putBytes_of_mem {d f : Nat → Byte} {b n k : Nat} (h : k < n) :
    putBytes d b ((List.range n).map f) (b + k) = f k := by
  rw [putBytes, List.length_map, List.length_range, copyInto_of_mem h]
  simp [List.getD_eq_getElem?_getD, h]

omit [Config] in
theorem copyInto_of_not {α : Type} {dst src : Nat → α} {base n k : Nat}
    (h : k < base ∨ base + n ≤ k) : copyInto dst base n src k = dst k := by
  have hm : ¬ (base ≤ k ∧ k < base + n) := by omega
  simp only [copyInto, hm, if_false]

omit [Config] in
theorem putBytes_of_not {dst f : Nat → Byte} {base n k : Nat} (h : k < base ∨ base + n ≤ k) :
    putBytes dst base ((List.range n).map f) k = dst k := by
  rw [putBytes, List.length_map, List.length_range]
  exact copyInto_of_not h

/-- A conditional read into a buffer. -/
theorem wp_readInto {file : OpenFile} (hm : file.hdr.Mapped) {c : Prop} [Decidable c]
    {buf : Nat → Byte} {b p : Nat} {w : World} {Q : (Nat → Byte) → World → Prop}
    (hQ : ∀ buf' w', OnlyAllocs w w' →
      (∀ j, j < b ∨ b + SectorSize ≤ j → buf' j = buf j) →
      (c → ∀ j < SectorSize, ((p + j : Nat) : Int) < file.hdr.numBytes →
        buf' (b + j) = fileByte w.disk file.hdr (p + j)) →
      (¬ c → buf' = buf) → Q buf' w') :
    Prog.wp (if c then file.readInto buf b p else pure buf) Q w := by
  rw [Prog.wp_ite]
  refine ⟨fun hc => ?_, fun hc => ?_⟩
  · rw [readInto, Prog.wp_bind]
    refine wp_readAt hm fun w' hw => ?_
    rw [Prog.wp_pure]
    refine hQ _ w' hw (fun j hj => putBytes_of_not (by omega)) (fun _ j hj hlen => ?_)
      fun h => absurd hc h
    exact putBytes_of_mem (by omega)
  · rw [Prog.wp_pure]
    exact hQ buf w (OnlyAllocs.refl w) (fun _ _ => rfl) (fun h => absurd h hc) fun _ => rfl

/-- `WriteAt` inside the length of the handle overwrites the bytes it is about. -/
theorem wp_writeData {file : OpenFile} (hm : file.hdr.Mapped) {source : Nat → Byte} {n p : Nat}
    {w : World} {Q : Unit → World → Prop} (hn : 0 < n)
    (hlen : ((p + n : Nat) : Int) ≤ file.hdr.numBytes)
    (hQ : ∀ d k, Wrote file.hdr w.disk d source n p → Q () { w with disk := d, allocs := k }) :
    Prog.wp (writeData file source n p) Q w := by
  unfold writeData
  obtain ⟨first, hfirst⟩ : ∃ first, first = p / SectorSize := ⟨_, rfl⟩
  obtain ⟨last, hlast⟩ : ∃ last, last = (p + n - 1) / SectorSize := ⟨_, rfl⟩
  have hle : first ≤ last := by
    rw [hfirst, hlast]
    exact Nat.div_le_div_right (by omega)
  have hidx : last < file.hdr.numSectors.toNat := hlast ▸ hm.index_lt (by omega)
  have hp : first * SectorSize + p % SectorSize = p := hfirst ▸ offset_split p
  have hp' := offset_mod_lt p
  have he : last * SectorSize + (p + n - 1) % SectorSize = p + n - 1 := hlast ▸ offset_split _
  have he' := offset_mod_lt (p + n - 1)
  obtain ⟨c, hc⟩ : ∃ c, last = first + c := ⟨last - first, by omega⟩
  have hmul : last * SectorSize = first * SectorSize + c * SectorSize := by
    rw [hc, Nat.add_mul]
  have hlastInt : ((p : Int) + n - 1) = ((p + n - 1 : Nat) : Int) := by omega
  have hcount : (1 + (last : Int) - first).toNat = c + 1 := by omega
  have hfirstMul : (first : Int) * SectorSize = ((first * SectorSize : Nat) : Int) := by
    rw [Int.natCast_mul]
  have hlastMul : (last : Int) * SectorSize = ((last * SectorSize : Nat) : Int) := by
    rw [Int.natCast_mul]
  have hbase : ((last : Int) - first) * SectorSize = ((c * SectorSize : Nat) : Int) := by
    rw [Int.natCast_mul, hc]
    congr 1
    omega
  have hoff : ((p : Int) - ((first * SectorSize : Nat) : Int)).toNat = p % SectorSize := by omega
  have hend : ((last : Int) + 1) * SectorSize = ((last * SectorSize + SectorSize : Nat) : Int) := by
    rw [Int.add_mul, Int.one_mul, Int.natCast_add, Int.natCast_mul]
  simp only [Prog.wp_bind, Prog.wp_assert, wp_newArray, hlastInt, divRoundDown_natCast, ← hfirst,
    ← hlast, hcount, hfirstMul, hlastMul, hbase, hoff, hend, Int.toNat_natCast]
  refine ⟨by omega, wp_readInto (b := 0) hm fun buf₁ w₁ hw₁ hrest₁ hread₁ _ => ?_⟩
  refine wp_readInto hm fun buf₂ w₂ hw₂ hrest₂ hread₂ hskip₂ => ?_
  -- What is written back outside the source is what the file held.
  have hkeep : ∀ j < (c + 1) * SectorSize,
      ((first * SectorSize + j : Nat) : Int) < file.hdr.numBytes →
      first * SectorSize + j < p ∨ p + n ≤ first * SectorSize + j →
      buf₂ j = fileByte w.disk file.hdr (first * SectorSize + j) := by
    intro j hj hin hout
    rw [Nat.add_mul, Nat.one_mul] at hj
    rcases hout with hlow | hhigh
    · -- Before the source: in the first sector, which was read in.
      have hne : ¬ (p : Int) = ((first * SectorSize : Nat) : Int) := by omega
      have hread := hread₁ hne j (by omega) hin
      rw [Nat.zero_add] at hread
      by_cases hc0 : c = 0
      · have hskip := hskip₂ (by
          rintro ⟨-, h | h⟩
          · exact h (by omega)
          · exact hne h)
        rw [hskip, hread]
      · have hcs : SectorSize ≤ c * SectorSize := Nat.le_mul_of_pos_left _ (by omega)
        rw [hrest₂ j (Or.inl (by omega)), hread]
    · -- After the source: in the last sector.
      have hne : ¬ (p : Int) + n = ((last * SectorSize + SectorSize : Nat) : Int) := by omega
      obtain ⟨m, rfl⟩ : ∃ m, j = c * SectorSize + m := ⟨j - c * SectorSize, by omega⟩
      by_cases hread : (first : Int) ≠ last ∨ (p : Int) = ((first * SectorSize : Nat) : Int)
      · have hpos : first * SectorSize + (c * SectorSize + m) = last * SectorSize + m := by omega
        rw [hpos] at hin ⊢
        rw [hread₂ ⟨hne, hread⟩ m (by omega) hin]
        obtain ⟨k, rfl⟩ := hw₁
        rfl
      · obtain ⟨hfl, hpf⟩ := not_or.mp hread
        have hc0 : c = 0 := by omega
        subst hc0
        rw [hskip₂ fun h => hread h.2]
        rw [Nat.zero_mul, Nat.zero_add] at hin hj ⊢
        have hread := hread₁ hpf m (by omega) hin
        rw [Nat.zero_add] at hread
        exact hread
  obtain ⟨k₁, rfl⟩ := hw₁
  obtain ⟨k₂, rfl⟩ := hw₂
  refine wp_writeSectors hm (by omega) fun d hbuf hframe => ?_
  refine hQ d k₂ ⟨fun j hj => ?_, fun o ho hout => ?_, fun t ht => ?_⟩
  · have hin : p % SectorSize + j < (c + 1) * SectorSize := by
      rw [Nat.add_mul, Nat.one_mul]
      omega
    have := hbuf _ hin
    rw [copyInto_of_mem hj, ← Nat.add_assoc, hp] at this
    exact this
  · by_cases hin : first * SectorSize ≤ o ∧ o < last * SectorSize + SectorSize
    · obtain ⟨j, rfl⟩ : ∃ j, o = first * SectorSize + j := ⟨o - first * SectorSize, by omega⟩
      have hj : j < (c + 1) * SectorSize := by
        rw [Nat.add_mul, Nat.one_mul]
        omega
      have := hbuf j hj
      rw [copyInto_of_not (by omega), hkeep j hj ho hout] at this
      exact this
    · -- In a sector that is not written.
      have hk := hm.index_lt ho
      have hsplit := offset_split o
      have hmod := offset_mod_lt o
      have hok := hm.onDisk _ hk
      have hsame : d (file.hdr.dataSectors (o / SectorSize)).toNat =
          w.disk (file.hdr.dataSectors (o / SectorSize)).toNat := by
        refine hframe _ fun i hi he => ?_
        rw [hok.cast] at he
        have := hm.distinct (first + i) (by omega) _ hk he
        have hlo : first * SectorSize ≤ (first + i) * SectorSize :=
          Nat.mul_le_mul_right _ (by omega)
        have hhi : (first + i) * SectorSize ≤ last * SectorSize :=
          Nat.mul_le_mul_right _ (by omega)
        rw [this] at hlo hhi
        omega
      rw [fileByte, fileByte, hsame]
  · refine hframe t fun i hi => ht (first + i) (by omega) (by omega) ?_
    have hhi : (first + i) * SectorSize ≤ last * SectorSize := Nat.mul_le_mul_right _ (by omega)
    omega

/-- A write inside the length, over any functions for the free map. -/
theorem wp_writeAtWith_inside {fetchMap : Prog World BitMap}
    {writeMap : BitMap → Prog World Unit} {file : OpenFile} (hm : file.hdr.Mapped)
    {source : Nat → Byte} {n p : Nat} {w : World} {Q : Int × OpenFile → World → Prop} (hn : 0 < n)
    (hlen : ((p + n : Nat) : Int) ≤ file.hdr.numBytes)
    (hQ : ∀ d k, Wrote file.hdr w.disk d source n p →
      Q ((n : Int), file) { w with disk := d, allocs := k }) :
    Prog.wp (writeAtWith fetchMap writeMap file source n p) Q w := by
  have hmax := hm.numBytes
  have hb : file.hdr.fileLength = file.hdr.numBytes := rfl
  have hs : file.hdr.maxFileLength = file.hdr.numSectors * SectorSize := rfl
  have hpos : ¬ ((n : Int) ≤ 0 ∨ (p : Int) > file.hdr.fileLength) := by omega
  have hmax : ¬ (p : Int) + n > file.hdr.maxFileLength := by omega
  have hin : ¬ (p : Int) + n > file.hdr.fileLength := by omega
  unfold writeAtWith
  rw [if_neg hpos, if_neg hmax, if_neg hin]
  simp only [Prog.wp_bind, Prog.wp_pure]
  exact wp_writeData hm hn hlen hQ

end OpenFile

end Nachos
