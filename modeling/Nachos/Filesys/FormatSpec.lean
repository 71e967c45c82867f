/-
  Nachos.Filesys.FormatSpec

  Formatting a disk, whatever it holds: when the constructor returns, the two
  well-known files are there, the tree is the root alone, and the free map has
  the sectors of the two files.
-/

import Nachos.Filesys.RemoveSpec

namespace Nachos

open Words Program Config
open Directory (slotsAt)

variable [Config]

/-- No file has been removed while open. -/
abbrev noneRemoved : Nat → Prop := fun _ => False

/-- The tree of a new disk. -/
def emptyTree : List (List Byte) → Option Node := Function.update (fun _ => none) [] (some .dir)

namespace FileSystem

theorem size_le_of_allocate {hdr : FileHeader} {m : BitMap} {size : Int} {w : World}
    {Q : Bool × FileHeader × BitMap → World → Prop} (h : Prog.wp (hdr.allocate m size) Q w) :
    size ≤ MAX_FILE_LENGTH := by
  unfold FileHeader.allocate at h
  rw [Prog.wp_bind, Prog.wp_assert] at h
  exact h.1

/-- What `Allocate` has done when it returns `true`. -/
structure Allocated (hdr : FileHeader) (m : BitMap) (size : Int) (cs ds : List Nat)
    (hdr' : FileHeader) (m' : BitMap) : Prop where
  lists : hdr'.Lists cs ds
  sized : hdr'.Sized size
  isdir : hdr'.isdir = hdr.isdir
  takes : BitMap.Takes m (cs ++ ds) m'

/-- An `Allocate` that is known to return. -/
theorem wp_allocated {hdr : FileHeader} {m : BitMap} {size : Int} {w : World}
    {R Q : Bool × FileHeader × BitMap → World → Prop} (h : Prog.wp (hdr.allocate m size) R w)
    (hfail : ∀ hdr' w', R (false, hdr', m) w' → Q (false, hdr', m) w')
    (hok : ∀ hdr' m' cs ds w', OnlyAllocs w w' → Allocated hdr m size cs ds hdr' m' →
      R (true, hdr', m') w' → Q (true, hdr', m') w') :
    Prog.wp (hdr.allocate m size) Q w := by
  have hspec : Prog.wp (hdr.allocate m size) (fun r w' => R r w' → Q r w') w :=
    FileHeader.wp_allocate (size_le_of_allocate h) (fun _ hdr' => hfail hdr' w)
      fun hdr' m' cs ds w' _ hw hl hs hd ht => hok hdr' m' cs ds w' hw ⟨hl, hs, hd, ht⟩
  refine Prog.wp_mono (Prog.wp_and h hspec) ?_
  rintro r w' ⟨hr, hq⟩
  exact hq hr

/-- The map has the two well-known sectors. -/
def WellKnown (m : BitMap) : Prop :=
  m.numBits = NUM_SECTORS ∧
    ∀ j < NUM_SECTORS, m.has j = (j == FreeMapSector || j == DirectorySector)

omit [Config] in
theorem WellKnown.takes {m m' : BitMap} {L : List Nat} (h : WellKnown m)
    (ht : BitMap.Takes m L m') {s : Nat} (hs : s = FreeMapSector ∨ s = DirectorySector) :
    (s :: L).Nodup ∧ ∀ u ∈ s :: L, u < NUM_SECTORS := by
  have hlt : ∀ u ∈ L, u < NUM_SECTORS := fun u hu => h.1 ▸ (ht.clear u hu).1
  have hs' : s < NUM_SECTORS := by
    rcases hs with rfl | rfl <;> decide
  refine ⟨List.nodup_cons.mpr ⟨fun hmem => ?_, ht.nodup⟩, ?_⟩
  · have hset := (ht.clear s hmem).2
    rw [h.2 s hs'] at hset
    rcases hs with rfl | rfl <;> simp at hset
  · intro u hu
    rcases List.mem_cons.mp hu with rfl | hu
    · exact hs'
    · exact hlt u hu

omit [Config] in
theorem WellKnown.not_mem {m m' : BitMap} {L : List Nat} (h : WellKnown m)
    (ht : BitMap.Takes m L m') {s : Nat} (hs : s = FreeMapSector ∨ s = DirectorySector) : s ∉ L :=
  (List.nodup_cons.mp (h.takes ht hs).1).1

/-- The two well-known files and nothing else. -/
theorem volume_of_root {w : World} {dir : Directory} (h0 : Inode w.disk FreeMapSector)
    (h1 : Inode w.disk DirectorySector)
    (hdisj : ∀ u ∈ footprint w.disk FreeMapSector, u ∉ footprint w.disk DirectorySector)
    (hlen0 : intAt w.disk FreeMapSector 1 = FreeMapFileSize)
    (hlen1 : intAt w.disk DirectorySector 1 = Directory.DirectoryFileSize)
    (hdir : intAt w.disk DirectorySector 0 = 1) (hd : dir.Holds w.disk DirectorySector)
    (hempty : ∀ i < NumDirEntries, dir.slot i = none)
    (hbits : ∀ i < NUM_SECTORS, mapBit w.disk i = true ↔
      i ∈ footprint w.disk FreeMapSector ∨ i ∈ footprint w.disk DirectorySector)
    (hl0 : Loaded w.disk FreeMapSector w.freeMapFile.hdr)
    (hl1 : Loaded w.disk DirectorySector w.directoryFile.hdr) :
    Volume w noneRemoved ∧ treeOf w.disk = emptyTree := by
  obtain ⟨hleaf, hok⟩ := empty_dir hdir hd hempty hlen1
  -- Only the root is reached.
  have hwalk : ∀ p s, Walk.walk (child w.disk) DirectorySector p = some s →
      p = [] ∧ s = DirectorySector := by
    intro p s hp
    cases p with
    | nil => exact ⟨rfl, (Option.some.inj hp).symm⟩
    | cons k p =>
        rw [Walk.walk, hleaf k] at hp
        cases hp
  have hreach : ∀ s, Reach w.disk s → s = DirectorySector := by
    rintro s ⟨p, hp⟩
    exact (hwalk p s hp).2
  have hlive : ∀ s, Live w.disk noneRemoved s ↔ s = FreeMapSector ∨ s = DirectorySector := by
    intro s
    constructor
    · rintro (h | h | h)
      · exact Or.inl h
      · exact Or.inr (hreach s h)
      · exact h.elim
    · rintro (h | rfl)
      · exact Or.inl h
      · exact Or.inr (Or.inl Walk.Reach.root)
  refine ⟨⟨⟨fun s hs => ?_, fun s t u hs ht hu hu' => ?_, Or.inl rfl, hlen0⟩,
    ⟨hdir, ⟨fun s k hs hx => ?_, fun s t k l x hs ht hx _ => ?_⟩, fun s hs _ => ?_, fun hs => ?_⟩,
    fun i hi => ?_, fun s hs => hs.elim, hl0, hl1⟩, ?_⟩
  · rcases (hlive s).mp hs with rfl | rfl
    · exact h0
    · exact h1
  · rcases (hlive s).mp hs with rfl | rfl
    · rcases (hlive t).mp ht with rfl | rfl
      · rfl
      · exact absurd hu' (hdisj u hu)
    · rcases (hlive t).mp ht with rfl | rfl
      · exact absurd hu (hdisj u hu')
      · rfl
  · rw [hreach s hs, hleaf k] at hx
    cases hx
  · rw [hreach s hs, hleaf k] at hx
    cases hx
  · rw [hreach s hs]
    exact hok
  · exact absurd (hreach _ hs) (by decide)
  · rw [hbits i hi]
    constructor
    · rintro (h | h)
      · exact ⟨_, (hlive _).mpr (Or.inl rfl), h⟩
      · exact ⟨_, (hlive _).mpr (Or.inr rfl), h⟩
    · rintro ⟨s, hs, hu⟩
      rcases (hlive s).mp hs with rfl | rfl
      · exact Or.inl hu
      · exact Or.inr hu
  · funext p
    cases p with
    | nil =>
        rw [treeOf, Walk.walk, Option.map_some, nodeAt_eq_dir.mpr hdir, emptyTree,
          Function.update_self]
    | cons k p =>
        rw [treeOf, Walk.walk, hleaf k, Option.bind_none, Option.map_none, emptyTree,
          Function.update_of_ne (by simp)]

/-- Storing the two headers and the two files. -/
theorem wp_storeRoot {mapHdr dirHdr : FileHeader} {m m' : BitMap} {cs₀ ds₀ cs₁ ds₁ : List Nat}
    {directory : Directory} {w : World} (hm : WellKnown m)
    (ht : BitMap.Takes m ((cs₀ ++ ds₀) ++ (cs₁ ++ ds₁)) m')
    (hlists₀ : mapHdr.Lists cs₀ ds₀) (hsized₀ : mapHdr.Sized FreeMapFileSize)
    (hisdir₀ : InInt mapHdr.isdir) (hsize₀ : (FreeMapFileSize : Int) ≤ MAX_FILE_LENGTH)
    (hlists₁ : dirHdr.Lists cs₁ ds₁) (hsized₁ : dirHdr.Sized Directory.DirectoryFileSize)
    (hisdir₁ : dirHdr.isdir = 1) (hsize₁ : (Directory.DirectoryFileSize : Int) ≤ MAX_FILE_LENGTH)
    (hsize₂ : directory.tableSize = NumDirEntries)
    (hempty : ∀ i < NumDirEntries, directory.slot i = none) :
    Prog.wp (storeRoot mapHdr dirHdr m' directory) (fun _ w' => (Volume w' noneRemoved ∧
      treeOf w'.disk = emptyTree ∧ w'.createLock = w.createLock) ∧
      SizedAt w'.disk FreeMapSector FreeMapFileSize ∧
      SizedAt w'.disk DirectorySector Directory.DirectoryFileSize) w := by
  unfold storeRoot
  simp only [Prog.wp_bind]
  obtain ⟨hn₁, hlt₁⟩ := hm.takes ht (Or.inr rfl)
  obtain ⟨hn₀', hn₁', hdisj⟩ := List.nodup_append.mp ht.nodup
  have h0 := hm.not_mem ht (Or.inl rfl)
  have h1 := hm.not_mem ht (Or.inr rfl)
  have hn₀ : (FreeMapSector :: (cs₀ ++ ds₀)).Nodup :=
    List.nodup_cons.mpr ⟨fun hu => h0 (List.mem_append_left _ hu), hn₀'⟩
  have hlt₀ : ∀ u ∈ FreeMapSector :: (cs₀ ++ ds₀), u < NUM_SECTORS := by
    intro u hu
    rcases List.mem_cons.mp hu with rfl | hu
    · decide
    · exact hlt₁ u (List.mem_cons_of_mem _ (List.mem_append_left _ hu))
  have hnd : (DirectorySector :: (cs₁ ++ ds₁)).Nodup :=
    List.nodup_cons.mpr ⟨fun hu => h1 (List.mem_append_right _ hu), hn₁'⟩
  have hltd : ∀ u ∈ DirectorySector :: (cs₁ ++ ds₁), u < NUM_SECTORS := by
    intro u hu
    rcases List.mem_cons.mp hu with rfl | hu
    · decide
    · exact hlt₁ u (List.mem_cons_of_mem _ (List.mem_append_right _ hu))
  -- The two files have no sector in common.
  have hapart : ∀ u ∈ FreeMapSector :: (cs₀ ++ ds₀), u ∉ DirectorySector :: (cs₁ ++ ds₁) := by
    intro u hu hu'
    rcases List.mem_cons.mp hu with rfl | hu
    · rcases List.mem_cons.mp hu' with he | hu'
      · exact absurd he (by decide)
      · exact h0 (List.mem_append_right _ hu')
    · rcases List.mem_cons.mp hu' with rfl | hu'
      · exact h1 (List.mem_append_left _ hu)
      · exact hdisj u hu u hu' rfl
  refine FileHeader.wp_writeBack_lists hlists₀ (hsized₀.fits (by decide) hsize₀ hisdir₀) hn₀
    hlt₀ fun d₁ hl₁ hi₁ hc₁ hd₁ hframe₁ => ?_
  refine FileHeader.wp_writeBack_lists hlists₁
    (hsized₁.fits (by omega) hsize₁ (by rw [hisdir₁]; decide)) hnd hltd
    fun d₂ hl₂ hi₂ hc₂ hd₂ hframe₂ => ?_
  have hh₀ : SameHeader d₁ d₂ FreeMapSector := by
    intro u hu
    refine hframe₂ u fun hmem => hapart u ?_ ?_
    · rw [hc₁] at hu
      exact List.mem_cons.mpr (hu.imp_right fun h => List.mem_append_left _ h)
    · exact List.mem_cons.mpr ((List.mem_cons.mp hmem).imp_right fun h => List.mem_append_left _ h)
  have hfoot₀ : footprint d₂ FreeMapSector = FreeMapSector :: (cs₀ ++ ds₀) := by
    rw [hh₀.footprint hi₁, footprint, hc₁, hd₁]
  have hfoot₁ : footprint d₂ DirectorySector = DirectorySector :: (cs₁ ++ ds₁) := by
    rw [footprint, hc₂, hd₂]
  have hlen₀ : intAt d₂ FreeMapSector 1 = FreeMapFileSize := by
    rw [hh₀.intAt, ← hl₁.numBytes, hsized₀.numBytes]
  have hlen₁ : intAt d₂ DirectorySector 1 = Directory.DirectoryFileSize := by
    rw [← hl₂.numBytes, hsized₁.numBytes]
  have hown : Owned d₂ fun s => s = FreeMapSector ∨ s = DirectorySector := by
    refine ⟨?_, ?_, Or.inl rfl, hlen₀⟩
    · rintro s (rfl | rfl)
      · exact hh₀.inode hi₁
      · exact hi₂
    · rintro s t u (rfl | rfl) (rfl | rfl) hu hu'
      · rfl
      · rw [hfoot₀] at hu
        rw [hfoot₁] at hu'
        exact absurd hu' (hapart u hu)
      · rw [hfoot₁] at hu
        rw [hfoot₀] at hu'
        exact absurd hu (hapart u hu')
      · rfl
  refine OpenFile.wp_create (hown.inode _ (Or.inl rfl)) fun freeMapFile w₃ _ _ hlf hw₃ => ?_
  obtain ⟨k₃, rfl⟩ := hw₃
  refine OpenFile.wp_create (s := DirectorySector) hi₂ fun directoryFile w₄ _ _ hld hw₄ => ?_
  obtain ⟨k₄, rfl⟩ := hw₄
  rw [Prog.wp_modify]
  refine BitMap.wp_writeBack ⟨hown.inode _ (Or.inl rfl), hlen₀, hlf⟩
    (by rw [ht.numBits, hm.1]) fun d₃ k₅ hod₃ hbits₃ => ?_
  have hk₃ := hown.keeps (Or.inl rfl) hod₃
  have own₃ := hown.keep fun s hs => (hk₃ s hs).1
  have hh₁ := (hk₃ DirectorySector (Or.inr rfl)).1
  refine Directory.wp_writeBack hsize₂ (own₃.inode _ (Or.inr rfl)) (hh₁.loaded hld)
    (by rw [hh₁.intAt, hlen₁]) fun d₄ k₆ hod₄ hd₄ => ?_
  rw [Prog.wp_modify]
  have hk₄ := own₃.keeps (Or.inr rfl) hod₄
  have own₄ := own₃.keep fun s hs => (hk₄ s hs).1
  have hhd₀ := (hk₃ _ (Or.inl rfl)).1.trans (hk₄ _ (Or.inl rfl)).1
  have hhd₁ := hh₁.trans (hk₄ _ (Or.inr rfl)).1
  have hfoot₀' : footprint d₄ FreeMapSector = FreeMapSector :: (cs₀ ++ ds₀) := by
    rw [hhd₀.footprint (hown.inode _ (Or.inl rfl)), hfoot₀]
  have hfoot₁' : footprint d₄ DirectorySector = DirectorySector :: (cs₁ ++ ds₁) := by
    rw [hhd₁.footprint hi₂, hfoot₁]
  have hv := volume_of_root
    (w := { w with
      disk := d₄, allocs := k₆, freeMapFile := freeMapFile, directoryFile := directoryFile })
    (own₄.inode _ (Or.inl rfl)) (own₄.inode _ (Or.inr rfl))
    (fun u hu hu' => by
      rw [hfoot₀'] at hu
      rw [hfoot₁'] at hu'
      exact hapart u hu hu')
    (by rw [hhd₀.intAt, hlen₀]) (by rw [hhd₁.intAt, hlen₁])
    (by rw [hhd₁.intAt, ← hl₂.isdir, hisdir₁]) hd₄ hempty
    (fun i hi => by
      have h₄ := hk₄ FreeMapSector (Or.inl rfl)
      rw [mapBit_congr (own₃.inode _ (Or.inl rfl)) own₃.mapLength h₄.1 (h₄.2 (by decide)) hi,
        hbits₃ i hi, ht.has, hm.2 i hi, hfoot₀', hfoot₁', Bool.or_eq_true, Bool.or_eq_true,
        beq_iff_eq, beq_iff_eq, decide_eq_true_eq, List.mem_append, List.mem_cons, List.mem_cons]
      exact or_or_or_comm)
    (hhd₀.loaded hlf) (hhd₁.loaded hld)
  exact ⟨⟨hv.1, hv.2, rfl⟩, (hh₀.trans hhd₀).sizedAt (hl₁.sizedAt hsized₀),
    hhd₁.sizedAt (hl₂.sizedAt hsized₁)⟩

omit [Config] in
/-- The map after the two `Mark`s. -/
theorem wellKnown_of_marks (words : Nat → BitVec 32) :
    ∃ m₁ m₂, (BitMap.create NUM_SECTORS words).mark FreeMapSector = some m₁ ∧
      m₁.mark DirectorySector = some m₂ ∧ WellKnown m₂ ∧ m₂.numClear + 2 = NUM_SECTORS := by
  obtain ⟨hb₀, hh₀⟩ := BitMap.create_spec NUM_SECTORS words
  have h0 : FreeMapSector < (BitMap.create NUM_SECTORS words).numBits := by
    rw [hb₀]
    decide
  obtain ⟨m₁, hm₁, hb₁, hh₁⟩ := BitMap.mark_eq _ h0
  have h1 : DirectorySector < m₁.numBits := by
    rw [hb₁, hb₀]
    decide
  obtain ⟨m₂, hm₂, hb₂, hh₂⟩ := BitMap.mark_eq _ h1
  refine ⟨m₁, m₂, hm₁, hm₂, ⟨by rw [hb₂, hb₁, hb₀], fun j hj => ?_⟩, ?_⟩
  · rw [hh₂, hh₁, hh₀ j hj, Bool.false_or]
  · have hc₀ := BitMap.numClear_mark h0 (hh₀ _ (by decide)) hb₁ hh₁
    have hc₁ := BitMap.numClear_mark h1 (by rw [hh₁, hh₀ _ (by decide)]; rfl) hb₂ hh₂
    have hall : (BitMap.create NUM_SECTORS words).numClear = NUM_SECTORS := by
      rw [BitMap.numClear_eq, hb₀, List.countP_eq_length.mpr, List.length_range]
      intro j hj
      rw [hh₀ j (List.mem_range.mp hj)]
      rfl
    omega

theorem Allocated.inInt {m m' : BitMap} {size : Int} {cs ds : List Nat} {hdr hdr' : FileHeader}
    (h : Allocated hdr m size cs ds hdr' m') {b : Nat → Byte} (hb : hdr.isdir = int b 0) :
    InInt hdr'.isdir := by
  rw [h.isdir, hb]
  exact ⟨int_lower _ _, int_upper _ _⟩

/-- A format that returns leaves a volume with the root alone, and the two headers that
    `Allocate` computes. -/
theorem wp_format_sized {w : World} (h : Prog.wp format (fun _ _ => True) w) :
    Prog.wp format (fun _ w' => (Volume w' noneRemoved ∧ treeOf w'.disk = emptyTree ∧
      w'.createLock = w.createLock) ∧ SizedAt w'.disk FreeMapSector FreeMapFileSize ∧
      SizedAt w'.disk DirectorySector Directory.DirectoryFileSize) w := by
  unfold format at h ⊢
  simp only [BitMap.new, Directory.create, FileHeader.create, Prog.wp_bind, wp_newArray,
    Prog.wp_pure, Prog.wp_ofOption] at h ⊢
  obtain ⟨hsize₂, hempty⟩ :=
    (Directory.mk NumDirEntries (w.heap (w.allocs + 1))).clearFirst_spec NumDirEntries
  obtain ⟨m₁, m₂, hm₁, hm₂, hm, -⟩ := wellKnown_of_marks (word (w.heap w.allocs))
  obtain ⟨a₁, ha₁, a₂, ha₂, h⟩ := h
  obtain rfl : m₁ = a₁ := Option.some.inj (hm₁.symm.trans ha₁)
  obtain rfl : m₂ = a₂ := Option.some.inj (hm₂.symm.trans ha₂)
  refine ⟨m₁, hm₁, m₂, hm₂, ?_⟩
  have hsize₀ := size_le_of_allocate h
  refine wp_allocated h (fun _ _ hf => ?_) fun mapHdr m₃ cs₀ ds₀ w₁ hw₁ hmap h₁ => ?_
  · rw [Prog.wp_assert] at hf
    exact absurd hf.1 (by simp)
  obtain ⟨k₁, rfl⟩ := hw₁
  dsimp only at h₁ ⊢
  rw [Prog.wp_assert] at h₁ ⊢
  have hsize₁ := size_le_of_allocate h₁.2
  refine ⟨rfl, wp_allocated h₁.2 (fun _ _ hf => ?_) fun dirHdr m₄ cs₁ ds₁ w₂ hw₂ hdirh _ => ?_⟩
  · rw [Prog.wp_assert] at hf
    exact absurd hf.1 (by simp)
  obtain ⟨k₂, rfl⟩ := hw₂
  rw [Prog.wp_assert]
  exact ⟨rfl, wp_storeRoot hm (hmap.takes.trans hdirh.takes) hmap.lists hmap.sized
    (hmap.inInt rfl) hsize₀ ⟨hdirh.lists.1, hdirh.lists.2, hdirh.lists.3, hdirh.lists.4⟩
    ⟨hdirh.sized.1, hdirh.sized.2, hdirh.sized.3⟩ rfl hsize₁ hsize₂ hempty⟩

/-- A format that returns leaves a volume with the root alone. -/
theorem wp_format {w : World} (h : Prog.wp format (fun _ _ => True) w) :
    Prog.wp format (fun _ w' => Volume w' noneRemoved ∧ treeOf w'.disk = emptyTree ∧
      w'.createLock = w.createLock) w :=
  Prog.wp_mono (wp_format_sized h) fun _ _ hq => hq.1

/-- Formatting returns when the two files fit on the disk. -/
theorem format_returns (w : World) (hsize₀ : (FreeMapFileSize : Int) ≤ MAX_FILE_LENGTH)
    (hsize₁ : (Directory.DirectoryFileSize : Int) ≤ MAX_FILE_LENGTH)
    (hneed : FileHeader.need FreeMapFileSize + FileHeader.need Directory.DirectoryFileSize + 2 ≤
      NUM_SECTORS) :
    Prog.wp format (fun _ _ => True) w := by
  unfold format
  simp only [BitMap.new, Directory.create, FileHeader.create, Prog.wp_bind, wp_newArray,
    Prog.wp_pure, Prog.wp_ofOption]
  obtain ⟨hsize₂, hempty⟩ :=
    (Directory.mk NumDirEntries (w.heap (w.allocs + 1))).clearFirst_spec NumDirEntries
  obtain ⟨m₁, m₂, hm₁, hm₂, hm, hclear⟩ := wellKnown_of_marks (word (w.heap w.allocs))
  refine ⟨m₁, hm₁, m₂, hm₂, FileHeader.wp_allocate hsize₀ (fun hlt _ => ?_)
    fun mapHdr m₃ cs₀ ds₀ w₁ hn₁ hw₁ hl₁ hs₁ hd₁ ht₁ => ?_⟩
  · omega
  have hc₁ := ht₁.numClear
  have hlen₁ : (cs₀ ++ ds₀).length = FileHeader.need FreeMapFileSize := by
    rw [List.length_append, ← hl₁.numHeaderSectors, ← hl₁.numSectors, hs₁.numSectors,
      hs₁.numHeaderSectors, FileHeader.need, Nat.add_comm]
  rw [Prog.wp_assert]
  refine ⟨rfl, FileHeader.wp_allocate hsize₁ (fun hlt _ => ?_)
    fun dirHdr m₄ cs₁ ds₁ w₂ hn₂ hw₂ hl₂ hs₂ hd₂ ht₂ => ?_⟩
  · dsimp only at hlt
    omega
  rw [Prog.wp_assert]
  refine ⟨rfl, Prog.wp_mono (wp_storeRoot hm (ht₁.trans ht₂) hl₁ hs₁ ?_ hsize₀
    ⟨hl₂.1, hl₂.2, hl₂.3, hl₂.4⟩ ⟨hs₂.1, hs₂.2, hs₂.3⟩ rfl hsize₁ hsize₂ hempty)
    fun _ _ _ => trivial⟩
  rw [hd₁]
  exact ⟨int_lower _ _, int_upper _ _⟩

end FileSystem

end Nachos
