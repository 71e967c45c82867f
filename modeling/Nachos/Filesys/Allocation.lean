/-
  Nachos.Filesys.Allocation

  Headers in memory as two lists of sectors, continuation sectors and data
  sectors: `Allocate` takes both from the free map, `WriteBack` stores them,
  `Deallocate` gives them back.  Then the free map in its file.
-/

import Nachos.Filesys.Inode

namespace Nachos

open Words Program Config

variable [Config]

/-- The header lists the continuation sectors `cs` and the data sectors `ds`. -/
structure FileHeader.Lists (hdr : FileHeader) (cs ds : List Nat) : Prop where
  numHeaderSectors : hdr.numHeaderSectors.toNat = cs.length
  headerSectors : ∀ j (h : j < cs.length), hdr.headerSectors j = (cs[j] : Int)
  numSectors : hdr.numSectors.toNat = ds.length
  dataSectors : ∀ i (h : i < ds.length), hdr.dataSectors i = (ds[i] : Int)

/-- A header loaded from a sound one has its lists. -/
theorem Loaded.lists {d : Disk} {s : Nat} {hdr : FileHeader} (hl : Loaded d s hdr)
    (h : Inode d s) : hdr.Lists (conts d s) (datas d s) := by
  refine ⟨?_, fun j hj => ?_, ?_, fun i hi => ?_⟩
  · rw [hl.numHeaderSectors]
    simp [conts, contCount]
  · have hj' : j < contCount d s := by simpa [conts] using hj
    rw [hl.headerSectors j hj']
    simp [conts, h.cont_cast hj']
  · rw [hl.numSectors]
    simp [datas, dataCount]
  · have hi' : i < dataCount d s := by simpa [datas] using hi
    rw [hl.dataSectors i hi' (Nat.lt_of_lt_of_le hi' h.room)]
    simp [datas, h.data_cast hi']

/-- The lists of a header on disk are those of the header in memory. -/
theorem Loaded.conts_eq {d : Disk} {s : Nat} {hdr : FileHeader} {cs ds : List Nat}
    (hl : Loaded d s hdr) (h : hdr.Lists cs ds) : conts d s = cs := by
  have hlen : contCount d s = cs.length := by
    rw [contCount, ← hl.numHeaderSectors, h.numHeaderSectors]
  apply List.ext_getElem
  · simp [conts, hlen]
  · intro j hj hj'
    have hc := hl.headerSectors j (by rw [← contCount, hlen]; exact hj')
    rw [h.headerSectors j hj'] at hc
    simp [conts, ← hc]

theorem Loaded.datas_eq {d : Disk} {s : Nat} {hdr : FileHeader} {cs ds : List Nat}
    (hl : Loaded d s hdr) (h : hdr.Lists cs ds) (hroom : ds.length ≤ chainRoom d s) :
    datas d s = ds := by
  have hlen : dataCount d s = ds.length := by
    rw [dataCount, ← hl.numSectors, h.numSectors]
  apply List.ext_getElem
  · simp [datas, hlen]
  · intro i hi hi'
    have hc := hl.dataSectors i (by rw [← dataCount, hlen]; exact hi') (by omega)
    rw [h.dataSectors i hi'] at hc
    simp [datas, ← hc]

namespace FileHeader

/-- The numbers in a header are those of a file of `numBytes` bytes. -/
structure Fits (hdr : FileHeader) : Prop where
  isdir : InInt hdr.isdir
  numBytes : InInt hdr.numBytes
  numSectors_ge : -2147483648 ≤ hdr.numSectors
  numSectors_le : hdr.numSectors ≤ MAX_DATA_SECTORS
  numHeaderSectors_ge : -2147483648 ≤ hdr.numHeaderSectors
  numHeaderSectors_le : hdr.numHeaderSectors ≤ 31
  room : hdr.numSectors.toNat ≤ datasInFirstSector + hdr.numHeaderSectors.toNat * datasInSector
  length_le : hdr.numBytes ≤ hdr.numSectors * SectorSize

theorem MAX_DATA_SECTORS_lt : MAX_DATA_SECTORS < 2147483648 := by
  have hle := MAX_FILE_LENGTH_lt
  have hmul : MAX_DATA_SECTORS ≤ MAX_FILE_LENGTH := Nat.le_mul_of_pos_right _ SectorSize_pos
  omega

end FileHeader

/-- A header on disk is sound when the one in memory has distinct sectors. -/
theorem Inode.of_loaded {d : Disk} {s : Nat} {hdr : FileHeader} {cs ds : List Nat}
    (hl : Loaded d s hdr) (h : hdr.Lists cs ds) (hf : hdr.Fits) (hn : (s :: (cs ++ ds)).Nodup)
    (hlt : ∀ u ∈ s :: (cs ++ ds), u < NUM_SECTORS) :
    Inode d s ∧ conts d s = cs ∧ datas d s = ds := by
  have hroom : ds.length ≤ chainRoom d s := by
    rw [chainRoom, ← hl.numHeaderSectors, ← h.numSectors]
    exact hf.room
  have hcs := hl.conts_eq h
  have hds := hl.datas_eq h hroom
  have hclen : contCount d s = cs.length := by
    rw [contCount, ← hl.numHeaderSectors, h.numHeaderSectors]
  have hdlen : dataCount d s = ds.length := by
    rw [dataCount, ← hl.numSectors, h.numSectors]
  refine ⟨⟨?_, ?_, ?_, ?_, fun j hj => ?_, fun i hi => ?_, hlt s (by simp), ?_⟩, hcs, hds⟩
  · rw [← hl.numHeaderSectors]
    exact hf.numHeaderSectors_le
  · rw [← hl.numSectors]
    exact hf.numSectors_le
  · rw [hdlen]
    exact hroom
  · rw [← hl.numBytes, ← hl.numSectors]
    exact hf.length_le
  · have hj' : j < cs.length := hclen ▸ hj
    rw [← hl.headerSectors j hj, h.headerSectors j hj']
    exact onDisk_natCast (hlt _ (by simp))
  · have hi' : i < ds.length := hdlen ▸ hi
    rw [← hl.dataSectors i hi (by omega), h.dataSectors i hi']
    exact onDisk_natCast (hlt _ (by simp))
  · rw [footprint, hcs, hds]
    exact hn

namespace FileHeader

/-- Writing back changes the first sector and the continuation sectors. -/
theorem wp_writeBack_chain {hdr : FileHeader} {cs ds : List Nat} {s : Nat} {w : World}
    {Q : Unit → World → Prop} (h : hdr.Lists cs ds) (hisdir : InInt hdr.isdir)
    (hbytes : InInt hdr.numBytes) (hns : InInt hdr.numSectors) (hnh : InInt hdr.numHeaderSectors)
    (hn : (s :: (cs ++ ds)).Nodup) (hlt : ∀ u ∈ s :: (cs ++ ds), u < NUM_SECTORS)
    (hQ : ∀ d, Loaded d s hdr → (∀ t, t ∉ s :: cs → d t = w.disk t) → Q () { w with disk := d }) :
    Prog.wp (writeBack hdr s) Q w := by
  have hcs : ∀ j, j < hdr.numHeaderSectors.toNat →
      ∃ hj : j < cs.length, hdr.headerSectors j = (cs[j] : Int) := fun j hj =>
    ⟨h.numHeaderSectors ▸ hj, h.headerSectors j _⟩
  have hcn : cs.Nodup := (List.nodup_append.mp (List.nodup_cons.mp hn).2).1
  have hst : hdr.Storable := by
    refine ⟨hisdir, hbytes, hns, hnh, fun j hj => ?_, fun i hi j hj he => ?_, fun i hi => ?_⟩
    · obtain ⟨hj, he⟩ := hcs j hj
      exact he ▸ onDisk_natCast (hlt _ (by simp))
    · obtain ⟨hi, hei⟩ := hcs i hi
      obtain ⟨hj, hej⟩ := hcs j hj
      rw [hei, hej] at he
      exact (hcn.getElem_inj_iff).mp (by exact_mod_cast he)
    · have hi' : i < ds.length := h.numSectors ▸ hi
      rw [h.dataSectors i hi']
      exact (onDisk_natCast (hlt _ (by simp))).inInt
  refine wp_writeBack (hlt s (by simp)) hst (fun j hj he => ?_) fun d hl hframe => ?_
  · obtain ⟨hj, hej⟩ := hcs j hj
    have hsj : cs[j] = s := by exact_mod_cast hej.symm.trans he
    exact (List.nodup_cons.mp hn).1 (List.mem_append_left _ (hsj ▸ List.getElem_mem hj))
  · refine hQ d hl fun t ht => ?_
    rw [List.mem_cons, not_or] at ht
    refine hframe t ht.1 fun j hj he => ht.2 ?_
    obtain ⟨hj, hej⟩ := hcs j hj
    have htj : cs[j] = t := by exact_mod_cast hej.symm.trans he
    exact htj ▸ List.getElem_mem hj

/-- Writing back a header whose sectors are distinct makes it a sound one on disk;
    only its first sector and its continuation sectors change. -/
theorem wp_writeBack_lists {hdr : FileHeader} {cs ds : List Nat} {s : Nat} {w : World}
    {Q : Unit → World → Prop} (h : hdr.Lists cs ds) (hf : hdr.Fits)
    (hn : (s :: (cs ++ ds)).Nodup) (hlt : ∀ u ∈ s :: (cs ++ ds), u < NUM_SECTORS)
    (hQ : ∀ d, Loaded d s hdr → Inode d s → conts d s = cs → datas d s = ds →
      (∀ t, t ∉ s :: cs → d t = w.disk t) → Q () { w with disk := d }) :
    Prog.wp (writeBack hdr s) Q w := by
  have hmax := MAX_DATA_SECTORS_lt
  have hns : InInt hdr.numSectors :=
    ⟨hf.numSectors_ge, by have := hf.numSectors_le; omega⟩
  have hnh : InInt hdr.numHeaderSectors :=
    ⟨hf.numHeaderSectors_ge, by have := hf.numHeaderSectors_le; omega⟩
  refine wp_writeBack_chain h hf.isdir hf.numBytes hns hnh hn hlt fun d hl hframe => ?_
  obtain ⟨hi, hc, hd⟩ := Inode.of_loaded hl h hf hn hlt
  exact hQ d hl hi hc hd hframe

/-! ## `Allocate` and `Deallocate` -/

theorem headersFor_nonneg {ns : Int} (h : 0 ≤ ns) : 0 ≤ headersFor ns := by
  have hD : (0 : Int) < datasInSector := by exact_mod_cast datasInSector_pos
  have hle := le_divRoundUp_mul (ns - datasInFirstSector) hD
  obtain ⟨-, hF, -, -, -⟩ := sizes
  by_cases hneg : headersFor ns < 0
  · have hmul : headersFor ns * datasInSector ≤ -1 * datasInSector :=
      Int.mul_le_mul_of_nonneg_right (by omega) (Int.le_of_lt hD)
    change ns - datasInFirstSector ≤ headersFor ns * datasInSector at hle
    omega
  · omega

theorem sectorsFor_nonneg {size : Int} (h : 0 ≤ size) : 0 ≤ sectorsFor size :=
  divRoundUp_nonneg SectorSize_pos_int h

theorem sectorsFor_ge {size : Int} (h : size ≤ 0) : size ≤ sectorsFor size * 32 := by
  obtain ⟨hss, -, -, hD, -⟩ := sizes
  have hcover := sectorsFor_cover size
  have hneg : sectorsFor size ≤ 0 := divRoundUp_nonpos SectorSize_pos_int h
  have hmul : sectorsFor size * SectorSize ≤ sectorsFor size * 32 :=
    Int.mul_le_mul_of_nonpos_left hneg (by omega)
  omega

/-- The numbers that `Allocate` computes for a file of `size` bytes. -/
structure Sized (hdr : FileHeader) (size : Int) : Prop where
  numBytes : hdr.numBytes = size
  numSectors : hdr.numSectors = sectorsFor size
  numHeaderSectors : hdr.numHeaderSectors = headersFor (sectorsFor size)

theorem Sized.fits {hdr : FileHeader} {size : Int} (h : hdr.Sized size) (hlo : -2147483648 ≤ size)
    (hhi : size ≤ MAX_FILE_LENGTH) (hd : InInt hdr.isdir) : hdr.Fits := by
  have hmax := MAX_FILE_LENGTH_lt
  obtain ⟨-, hF, -, -, hD⟩ := sizes
  have hle := sectorsFor_le hhi
  have hge : -67108864 ≤ sectorsFor size := by
    by_cases hneg : size ≤ 0
    · have := sectorsFor_ge hneg
      omega
    · have := sectorsFor_nonneg (show 0 ≤ size by omega)
      omega
  refine ⟨hd, ?_, ?_, h.numSectors ▸ hle, ?_, h.numHeaderSectors ▸ headersFor_le hle, ?_, ?_⟩
  · rw [h.numBytes]
    exact ⟨hlo, by omega⟩
  · rw [h.numSectors]
    omega
  · rw [h.numHeaderSectors]
    by_cases hneg : sectorsFor size ≤ datasInFirstSector
    · have := headersFor_ge (sectorsFor size) (by omega)
      omega
    · have := headersFor_nonneg (show 0 ≤ sectorsFor size by omega)
      omega
  · rw [h.numSectors, h.numHeaderSectors]
    exact headersFor_cover _
  · rw [h.numBytes, h.numSectors]
    exact sectorsFor_cover size

/-- The sectors a file of `size` bytes takes, beside its first header sector. -/
def need (size : Int) : Nat := (sectorsFor size).toNat + (headersFor (sectorsFor size)).toNat

theorem need_eq (size : Int) (n : Nat) :
    (n : Int) < sectorsFor size + headersFor (sectorsFor size) ↔ n < need size := by
  unfold need
  by_cases hneg : sectorsFor size ≤ 0
  · have := headersFor_nonpos hneg
    omega
  · have := headersFor_nonneg (show 0 ≤ sectorsFor size by omega)
    omega

/-- `Allocate` takes the sectors of the file from the free map, unless there are
    too few. -/
theorem wp_allocate {hdr : FileHeader} {m : BitMap} {size : Int} {w : World}
    {Q : Bool × FileHeader × BitMap → World → Prop} (hsize : size ≤ MAX_FILE_LENGTH)
    (hfail : m.numClear < need size → ∀ hdr', Q (false, hdr', m) w)
    (hok : ∀ hdr' m' cs ds w', need size ≤ m.numClear → OnlyAllocs w w' →
      hdr'.Lists cs ds → hdr'.Sized size → hdr'.isdir = hdr.isdir →
      BitMap.Takes m (cs ++ ds) m' → Q (true, hdr', m') w') :
    Prog.wp (allocate hdr m size) Q w := by
  unfold allocate
  simp only [Prog.wp_bind, Prog.wp_assert]
  refine ⟨hsize, ?_⟩
  change Prog.wp (if (m.numClear : Int) < sectorsFor size + headersFor (sectorsFor size)
    then _ else _) Q w
  rw [Prog.wp_ite, need_eq]
  refine ⟨fun hlt => ?_, fun hge => ?_⟩
  · rw [Prog.wp_pure]
    exact hfail hlt _
  · have hneed := Nat.not_lt.mp hge
    unfold need at hneed
    obtain ⟨cs, hcl, hct, hcv, -⟩ := allocSectors_spec 0 (headersFor (sectorsFor size)).toNat
      hdr.headerSectors m (by omega)
    obtain ⟨m₁, hm₁⟩ : ∃ m₁, (allocSectors 0 (headersFor (sectorsFor size)).toNat
      hdr.headerSectors m).2 = m₁ := ⟨_, rfl⟩
    obtain ⟨hs, hhs⟩ : ∃ hs, (allocSectors 0 (headersFor (sectorsFor size)).toNat
      hdr.headerSectors m).1 = hs := ⟨_, rfl⟩
    rw [hm₁] at hct
    rw [hhs] at hcv
    have hclear := hct.numClear
    obtain ⟨ds, hdl, hdt, hdv, -⟩ := allocSectors_spec 0 (sectorsFor size).toNat
      (int (w.heap w.allocs)) m₁ (by omega)
    simp only [Prog.wp_bind, wp_newArray, Prog.wp_pure]
    refine hok _ _ cs ds _ (Nat.not_lt.mp hge) ⟨_, rfl⟩ ⟨hcl.symm, fun j hj => ?_, hdl.symm,
      fun i hi => ?_⟩ ⟨rfl, rfl, rfl⟩ rfl ?_
    · have := hcv j hj
      rw [Nat.zero_add, ← hhs] at this
      exact this
    · have := hdv i hi
      rw [Nat.zero_add, ← hm₁] at this
      exact this
    · have := hct.trans hdt
      rw [← hm₁] at this
      exact this

omit [Config] in
/-- The freeing loop over the sectors of a list. -/
theorem clearSectors_list {sectors : Nat → Int} {L : List Nat} {m : BitMap}
    (h : ∀ i (hi : i < L.length), sectors i = (L[i] : Int)) (hn : L.Nodup)
    (hlt : ∀ u ∈ L, u < m.numBits) (hmark : ∀ u ∈ L, m.has u = true) :
    ∃ m', clearSectors sectors L.length m = some m' ∧ m'.numBits = m.numBits ∧
      ∀ x, m'.has x = (m.has x && decide (x ∉ L)) := by
  obtain ⟨m', hm, hb, hh⟩ := clearSectors_spec sectors L.length m
    (fun i hi => by
      rw [h i hi, Int.toNat_natCast]
      exact ⟨Int.natCast_nonneg _, hlt _ (List.getElem_mem hi)⟩)
    (fun i hi => by
      rw [h i hi, Int.toNat_natCast]
      exact hmark _ (List.getElem_mem hi))
    (fun i hi j hj he => by
      rw [h i hi, h j hj] at he
      exact hn.getElem_inj_iff.mp (Int.natCast_inj.mp he))
  refine ⟨m', hm, hb, fun x => ?_⟩
  rw [hh]
  congr 1
  rw [decide_eq_decide]
  constructor
  · intro hall hx
    obtain ⟨i, hi, rfl⟩ := List.mem_iff_getElem.mp hx
    exact hall i hi (h i hi)
  · intro hx i hi he
    rw [h i hi] at he
    exact hx (Int.natCast_inj.mp he ▸ List.getElem_mem hi)

omit [Config] in
/-- `Deallocate` clears the sectors of the lists, each marked. -/
theorem deallocate_spec {hdr : FileHeader} {cs ds : List Nat} {m : BitMap} (h : hdr.Lists cs ds)
    (hn : (cs ++ ds).Nodup) (hlt : ∀ u ∈ cs ++ ds, u < m.numBits)
    (hmark : ∀ u ∈ cs ++ ds, m.has u = true) :
    ∃ m', deallocate hdr m = some m' ∧ m'.numBits = m.numBits ∧
      ∀ x, m'.has x = (m.has x && decide (x ∉ cs ++ ds)) := by
  obtain ⟨hcn, hdn, hdisj⟩ := List.nodup_append.mp hn
  obtain ⟨m₁, h₁, hb₁, hh₁⟩ := clearSectors_list (m := m) h.dataSectors hdn
    (fun u hu => hlt u (List.mem_append_right _ hu))
    (fun u hu => hmark u (List.mem_append_right _ hu))
  -- The continuation sectors are still marked: none of them is a data sector.
  obtain ⟨m₂, h₂, hb₂, hh₂⟩ := clearSectors_list (m := m₁) h.headerSectors hcn
    (fun u hu => hb₁ ▸ hlt u (List.mem_append_left _ hu))
    (fun u hu => by
      have hfresh : u ∉ ds := fun hd => hdisj u hu u hd rfl
      rw [hh₁, hmark u (List.mem_append_left _ hu)]
      simp [hfresh])
  refine ⟨m₂, ?_, hb₂.trans hb₁, fun x => ?_⟩
  · rw [deallocate, h.numSectors, h₁, Option.bind_some, h.numHeaderSectors, h₂]
  · rw [hh₂, hh₁, Bool.and_assoc, ← Bool.decide_and]
    congr 1
    simp [and_comm]

end FileHeader

end Nachos
