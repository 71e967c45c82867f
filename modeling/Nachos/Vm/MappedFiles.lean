/-
  Nachos.Vm.MappedFiles

  Where a page goes when it is evicted, with mapped files: `EvictPage` asks the address
  space of the thread that needs a frame for the file at the page, and not the one that
  the page belongs to.  The law of the eviction, and the condition on the mappings of
  both under which it holds.
-/

import Nachos.Vm.Alone

namespace Nachos
namespace Vm

open Transition Words StateTransition

variable [VmConfig]

/-! ## The place of a page on the disk -/

/-- The mapping that the page lies in. -/
def AddrSpace.mapping (s : AddrSpace) (v : Nat) : Option MappedFile :=
  s.mapped_files.find? fun mf =>
    decide (mf.first_address ≤ v * PageSize ∧
      v * PageSize < mf.first_address + mf.size * PageSize)

/-- The offset of the page in the file. -/
def MappedFile.offset (mf : MappedFile) (v : Nat) : Nat := v * PageSize - mf.first_address

namespace Memory

variable (m : Memory)

/-- Byte `i` of the page, in its place on the disk: in the mapped file, or in the sector
    of the page. -/
def Stored (b : SpaceId) (v i : Nat) (y : Byte) : Prop :=
  match (m.spaces b).mapping v with
  | some mf =>
      mf.offset v + i < (m.files mf.file).length ∧
        (m.files mf.file).bytes (mf.offset v + i) = y
  | none =>
      (m.entry b v).swap = true ∧
        ∃ n < NUM_SECTORS, (m.entry b v).addrDisk = n ∧ m.swap_disk n i = y

/-- The same objects with other bytes. -/
def withBytes (ram : Nat → Byte) (sectors : Nat → Page) (files : FileId → Nat → Byte) : Memory :=
  { m with
    mainMemory := ram
    swap_disk := sectors
    files := fun f => { m.files f with bytes := files f } }

end Memory

/-! ## The law -/

/-- A page fault that comes later puts the bytes that are in their place on the disk into
    the frame it finds. -/
def Restores (m₁ : Memory) (b : SpaceId) (v : Nat) (data : Page) : Prop :=
  ∀ (m₂ : Memory) (buffer : Page), m₂.entry b v = m₁.entry b v →
    (m₂.spaces b).mapped_files = (m₁.spaces b).mapped_files →
    ∃ m' q, Reaches (alone b) (m₂, some (.faultIo ⟨v, buffer⟩)) (m', some (.map q)) ∧
      ∀ m₃, Reaches (alone b) (m', some (.map q)) (m₃, none) →
        (m₃.entry b v).valid = true ∧ ∀ i < PageSize, m₂.Stored b v i (data i) →
          m₃.frame (m₃.entry b v).physicalPage i = data i

/-- The eviction of a page, from `m` to `m₁`. -/
structure Evicted (m : Memory) (x : Victim) (m₁ : Memory) : Prop where
  /-- The bytes are in their place: those of a mapped file if the page is modified. -/
  written : ((m.spaces x.space).mapping x.vpn ≠ none → (m.entry x.space x.vpn).M = true) →
    ∀ i < PageSize, m₁.Stored x.space x.vpn i (m.frame x.frame i)
  /-- A file that is not mapped by the owner of the page is not modified. -/
  others : ∀ f, (∀ mf ∈ (m.spaces x.space).mapped_files, mf.file ≠ f) → m₁.files f = m.files f
  restores : Restores m₁ x.space x.vpn (m.frame x.frame)

/-- `EvictPage` comes to its end, and the page is where it should be. -/
def EvictsWell (me : SpaceId) (m : Memory) (q : Fault) (x : Victim) : Prop :=
  ∃ m₁, Reaches (alone me) (m, some (.evictIo q x)) (m₁, some (.mapped q x.frame)) ∧
    Evicted m x m₁

/-- `EvictPage` has taken the page, and need not wait for it. -/
structure Taken (m : Memory) (x : Victim) : Prop where
  notDead : m.status x.space ≠ .dead
  valid : (m.entry x.space x.vpn).valid = false
  io : (m.entry x.space x.vpn).io = false

/-- A page that has not been modified since it was read from its sector. -/
def Clean (m : Memory) (x : Victim) : Prop :=
  (m.spaces x.space).mapping x.vpn = none → (m.entry x.space x.vpn).swap = true →
    (m.entry x.space x.vpn).M = false →
      ∀ i < PageSize, m.swap_disk (m.entry x.space x.vpn).addrDisk.toNat i = m.frame x.frame i

/-- The file that the thread of `me` finds for a page of another address space is the
    one that is mapped there, as far as it matters; and the owner of the page finds it
    too. -/
def OwnMapping (me : SpaceId) (m : Memory) (x : Victim) : Prop :=
  let e := m.entry x.space x.vpn
  let found := (m.spaces me).findMappedFile (x.vpn * PageSize)
  let mine := (m.spaces x.space).mapping x.vpn
  (m.spaces x.space).findMappedFile (x.vpn * PageSize) = mine.map MappedFile.file ∧
    match mine with
    | some mf =>
        let f := m.files mf.file
        if e.M then
          found = some mf.file ∧ e.addrDisk = mf.offset x.vpn ∧ mf.offset x.vpn ≤ f.length ∧
            mf.offset x.vpn + PageSize ≤ max f.length f.maxLength
        else if found = none ∧ e.swap = false then
          -- A sector whose number is the offset, by chance.
          m.GetFreePage = some (mf.offset x.vpn)
        else e.addrDisk = mf.offset x.vpn
    | none =>
        if e.swap then
          0 ≤ e.addrDisk ∧ e.addrDisk < NUM_SECTORS ∧ (e.M = true → found = none)
        else found = none ∧ m.GetFreePage ≠ none

/-! ## The end of an eviction -/

section Evict

variable {m m₁ : Memory} {me : SpaceId} {q : Fault} {x : Victim}

theorem reaches_mapped {p : Nat} :
    Reaches (alone me) (m, some (.mapped q p)) (m₁, some (.mapped q p)) ↔ m₁ = m := by
  refine ⟨fun h => ?_, fun h => h ▸ Relation.ReflTransGen.refl⟩
  rcases h.cases_head with heq | ⟨y, hy, hr⟩
  · exact (Prod.mk.inj heq).1.symm
  · -- The fault is over after the next step.
    obtain ⟨m', o⟩ := y
    have hn : Next me m (.mapped q p) m' o := next_cases hy
    cases hn with
    | finish => exact nomatch (reaches_of_none rfl).mp hr

/-- The bytes of the victim, in a file and in a sector. -/
def Memory.toFile (m : Memory) (x : Victim) (f : FileId) (ad : Int) : Memory :=
  { m with
    files := Function.update m.files f ((m.files f).writeAt (m.frame x.frame) ad.toNat) }

def Memory.toSector (m : Memory) (x : Victim) (s : Nat) : Memory :=
  { m with swap_disk := Function.update m.swap_disk s (m.frame x.frame) }

theorem reaches_wroteFile (hd : m.status x.space ≠ .dead) :
    Reaches (alone me) (m, some (.wroteFile q x)) (m₁, some (.mapped q x.frame)) ↔
      m₁ = m.takeOver me q x := by
  have hn : next me m (.wroteFile q x) = some (m.takeOver me q x, some (.mapped q x.frame)) :=
    if_neg hd
  rw [reaches_of_step (alone_of_next hn) (by simp), reaches_mapped]

theorem reaches_writeFile {f : FileId} {ad : Int} (hd : m.status x.space ≠ .dead) :
    Reaches (alone me) (m, some (.writeFile q x f ad)) (m₁, some (.mapped q x.frame)) ↔
      0 ≤ ad ∧ m₁ = (m.toFile x f ad).takeOver me q x := by
  by_cases had : ad < 0
  · have hn : next me m (.writeFile q x f ad) = none := if_pos had
    rw [reaches_of_none hn]
    simp
    omega
  · have hn : next me m (.writeFile q x f ad) =
        some (m.toFile x f ad, some (.wroteFile q x)) := if_neg had
    have hd' : (m.toFile x f ad).status x.space ≠ .dead := hd
    have hle : 0 ≤ ad := by omega
    rw [reaches_of_step (alone_of_next hn) (by simp), reaches_wroteFile hd']
    simp only [hle, true_and]

theorem reaches_writeSwap {s : Nat} {ad : Int} {fresh : Bool} (hd : m.status x.space ≠ .dead) :
    Reaches (alone me) (m, some (.writeSwap q x s ad fresh)) (m₁, some (.mapped q x.frame)) ↔
      s < NUM_SECTORS ∧
        m₁ = ((m.toSector x s).modifyEntry x.space x.vpn (.swapped ad fresh)).takeOver me q x := by
  by_cases hs : s ≥ NUM_SECTORS
  · have hn : next me m (.writeSwap q x s ad fresh) = none := if_pos hs
    rw [reaches_of_none hn]
    simp
    omega
  · have hn : next me m (.writeSwap q x s ad fresh) =
        some (m.toSector x s, some (.wroteSwap q x s ad fresh)) := if_neg hs
    have hn' : next me (m.toSector x s) (.wroteSwap q x s ad fresh) =
        some (((m.toSector x s).modifyEntry x.space x.vpn (.swapped ad fresh)).takeOver me q x,
          some (.mapped q x.frame)) := if_neg hd
    have hlt : s < NUM_SECTORS := by omega
    rw [reaches_of_step (alone_of_next hn) (by simp),
      reaches_of_step (alone_of_next hn') (by simp), reaches_mapped]
    simp only [hlt, true_and]

/-- What an eviction leaves: the entry of the page, the sectors and the files. -/
structure Outcome (m : Memory) (x : Victim) (m₁ : Memory) (e : PageTableEntry)
    (sectors : Nat → Page) (files : FileId → File) : Prop where
  entry : m₁.entry x.space x.vpn = e
  sectors : m₁.swap_disk = sectors
  files : m₁.files = files
  mapped : ∀ b, (m₁.spaces b).mapped_files = (m.spaces b).mapped_files

/-- Where the page has gone. -/
inductive Ends (me : SpaceId) (m : Memory) (x : Victim) (m₁ : Memory) : Prop where
  | kept (hM : (m.entry x.space x.vpn).M = false)
      (hfound : (m.spaces me).findMappedFile (x.vpn * PageSize) ≠ none ∨
        (m.entry x.space x.vpn).swap = true)
      (ho : Outcome m x m₁ (m.entry x.space x.vpn) m.swap_disk m.files)
  | file {f : FileId} (hM : (m.entry x.space x.vpn).M = true)
      (hfound : (m.spaces me).findMappedFile (x.vpn * PageSize) = some f)
      (had : 0 ≤ (m.entry x.space x.vpn).addrDisk)
      (ho : Outcome m x m₁ (m.entry x.space x.vpn) m.swap_disk (Function.update m.files f
        ((m.files f).writeAt (m.frame x.frame) (m.entry x.space x.vpn).addrDisk.toNat)))
  | sector (hM : (m.entry x.space x.vpn).M = true)
      (hfound : (m.spaces me).findMappedFile (x.vpn * PageSize) = none)
      (hsw : (m.entry x.space x.vpn).swap = true) (had : 0 ≤ (m.entry x.space x.vpn).addrDisk)
      (hlt : (m.entry x.space x.vpn).addrDisk < NUM_SECTORS)
      (ho : Outcome m x m₁ (m.entry x.space x.vpn) (Function.update m.swap_disk
        (m.entry x.space x.vpn).addrDisk.toNat (m.frame x.frame)) m.files)
  | lost (hM : (m.entry x.space x.vpn).M = true)
      (hfound : (m.spaces me).findMappedFile (x.vpn * PageSize) = none)
      (hsw : (m.entry x.space x.vpn).swap = true) (had : (m.entry x.space x.vpn).addrDisk < 0)
      (ho : Outcome m x m₁ (m.entry x.space x.vpn) m₁.swap_disk m.files)
  | fresh {s : Nat} (hfound : (m.spaces me).findMappedFile (x.vpn * PageSize) = none)
      (hsw : (m.entry x.space x.vpn).swap = false) (hs : m.GetFreePage = some s)
      (hlt : s < NUM_SECTORS)
      (ho : Outcome m x m₁ ((m.entry x.space x.vpn).swapped s true)
        (Function.update m.swap_disk s (m.frame x.frame)) m.files)
  | full (hfound : (m.spaces me).findMappedFile (x.vpn * PageSize) = none)
      (hsw : (m.entry x.space x.vpn).swap = false) (hs : m.GetFreePage = none)
      (ho : Outcome m x m₁ ((m.entry x.space x.vpn).swapped (-1) true) m.swap_disk m.files)

omit [VmConfig] in
/-- The end of `EvictPage`, whatever has been done to the memory. -/
theorem Outcome.takeOver {m' : Memory} {e : PageTableEntry} (h : m'.entry x.space x.vpn = e)
    (hm : ∀ b, (m'.spaces b).mapped_files = (m.spaces b).mapped_files) :
    Outcome m x (m'.takeOver me q x) e.clearBitIo m'.swap_disk m'.files where
  entry := (Memory.entry_modifyEntry_self _).trans (congrArg _ h)
  sectors := rfl
  files := rfl
  mapped b := (Memory.modifyEntry_space _ b).2.1.trans (hm b)

omit [VmConfig] in
theorem setBitIo_clearBitIo {e : PageTableEntry} (h : e.io = false) :
    e.setBitIo.clearBitIo = e := by
  cases e
  cases h
  rfl

omit [VmConfig] in
theorem getFreePage_lt {s : Nat} (h : m.GetFreePage = some s) : s < NUM_SECTORS := by
  have hmem := List.mem_of_find?_eq_some h
  rwa [List.mem_range] at hmem

/-- After `setBitIo`, the thread does what `evict` says. -/
theorem reaches_evictIo (h : Taken m x) :
    Reaches (alone me) (m, some (.evictIo q x)) (m₁, some (.mapped q x.frame)) ↔
      Reaches (alone me) ((evict me (m.modifyEntry x.space x.vpn .setBitIo) q x).1,
        some (evict me (m.modifyEntry x.space x.vpn .setBitIo) q x).2)
        (m₁, some (.mapped q x.frame)) := by
  have hn : next me m (.evictIo q x) =
      some ((evict me (m.modifyEntry x.space x.vpn .setBitIo) q x).1,
        some (evict me (m.modifyEntry x.space x.vpn .setBitIo) q x).2) := by
    simp only [next, h.io]
    rw [if_neg h.notDead]
    rfl
  exact reaches_of_step (alone_of_next hn) (by simp)

/-- The ends of an eviction, for what is found and the bits of the entry. -/
theorem reaches_kept (h : Taken m x) (hM : (m.entry x.space x.vpn).M = false)
    (hfound : (m.spaces me).findMappedFile (x.vpn * PageSize) ≠ none ∨
      (m.entry x.space x.vpn).swap = true) :
    Reaches (alone me) (m, some (.evictIo q x)) (m₁, some (.mapped q x.frame)) ↔
      m₁ = (m.modifyEntry x.space x.vpn .setBitIo).takeOver me q x := by
  have he : evict me (m.modifyEntry x.space x.vpn .setBitIo) q x =
      ((m.modifyEntry x.space x.vpn .setBitIo).takeOver me q x, .mapped q x.frame) := by
    have hM' : (m.entry x.space x.vpn).setBitIo.M = false := hM
    unfold evict
    dsimp only
    rw [Memory.entry_modifyEntry_self, findMappedFile_congr (mapped_files_modifyEntry me)]
    cases hf : (m.spaces me).findMappedFile (x.vpn * PageSize) with
    | some f => simp [hM']
    | none =>
      have hsw := hfound.resolve_left fun hne => hne hf
      have hsw' : (m.entry x.space x.vpn).setBitIo.swap = true := hsw
      simp [hsw', hM']
  rw [reaches_evictIo h, he, reaches_mapped]

theorem reaches_file (h : Taken m x) (hM : (m.entry x.space x.vpn).M = true) {f : FileId}
    (hfound : (m.spaces me).findMappedFile (x.vpn * PageSize) = some f) :
    Reaches (alone me) (m, some (.evictIo q x)) (m₁, some (.mapped q x.frame)) ↔
      0 ≤ (m.entry x.space x.vpn).addrDisk ∧
        m₁ = ((m.modifyEntry x.space x.vpn .setBitIo).toFile x f
          (m.entry x.space x.vpn).addrDisk).takeOver me q x := by
  have he : evict me (m.modifyEntry x.space x.vpn .setBitIo) q x =
      (m.modifyEntry x.space x.vpn .setBitIo,
        .writeFile q x f (m.entry x.space x.vpn).addrDisk) := by
    have hM' : (m.entry x.space x.vpn).setBitIo.M = true := hM
    unfold evict
    dsimp only
    rw [Memory.entry_modifyEntry_self, findMappedFile_congr (mapped_files_modifyEntry me), hfound]
    simp only [hM', if_true]
    rfl
  rw [reaches_evictIo h, he]
  exact reaches_writeFile h.notDead

/-- No file is found: the page goes to the swap area. -/
theorem evict_swapOut (hfound : (m.spaces me).findMappedFile (x.vpn * PageSize) = none) :
    ((m.entry x.space x.vpn).swap = true → (m.entry x.space x.vpn).M = true →
      evict me (m.modifyEntry x.space x.vpn .setBitIo) q x =
        swapOut me (m.modifyEntry x.space x.vpn .setBitIo) q x
          (m.entry x.space x.vpn).addrDisk false) ∧
    ((m.entry x.space x.vpn).swap = false →
      evict me (m.modifyEntry x.space x.vpn .setBitIo) q x =
        swapOut me (m.modifyEntry x.space x.vpn .setBitIo) q x (-1) true) := by
  unfold evict
  dsimp only
  rw [Memory.entry_modifyEntry_self, findMappedFile_congr (mapped_files_modifyEntry me), hfound]
  constructor
  · intro hsw hM
    have hsw' : (m.entry x.space x.vpn).setBitIo.swap = true := hsw
    have hM' : (m.entry x.space x.vpn).setBitIo.M = true := hM
    simp only [hsw', hM', if_true]
    rfl
  · intro hsw
    have hsw' : (m.entry x.space x.vpn).setBitIo.swap = false := hsw
    simp [hsw']

omit [VmConfig] in
/-- The entry after the page has been written to its sector, or to a new one. -/
theorem entry_swapped {m' : Memory} {ad : Int} {fresh : Bool}
    (hio : (m.entry x.space x.vpn).io = false)
    (h : m'.entry x.space x.vpn = ((m.entry x.space x.vpn).setBitIo.setAddrDisk (-1))) :
    ((m'.modifyEntry x.space x.vpn (.swapped ad fresh)).entry x.space x.vpn).clearBitIo =
      (m.entry x.space x.vpn).swapped ad fresh := by
  rw [Memory.entry_modifyEntry_self, h]
  generalize m.entry x.space x.vpn = e at hio ⊢
  cases e
  cases hio
  cases fresh
  · rfl
  · rfl

theorem reaches_sector (h : Taken m x) (hM : (m.entry x.space x.vpn).M = true)
    (hfound : (m.spaces me).findMappedFile (x.vpn * PageSize) = none)
    (hsw : (m.entry x.space x.vpn).swap = true) (had : 0 ≤ (m.entry x.space x.vpn).addrDisk) :
    Reaches (alone me) (m, some (.evictIo q x)) (m₁, some (.mapped q x.frame)) ↔
      (m.entry x.space x.vpn).addrDisk.toNat < NUM_SECTORS ∧
        m₁ = ((((m.modifyEntry x.space x.vpn .setBitIo).modifyEntry x.space x.vpn
          (.setAddrDisk (-1))).toSector x (m.entry x.space x.vpn).addrDisk.toNat).modifyEntry
            x.space x.vpn (.swapped (m.entry x.space x.vpn).addrDisk false)).takeOver me q x := by
  rw [reaches_evictIo h, (evict_swapOut hfound).1 hsw hM, swapOut_sector had]
  exact reaches_writeSwap h.notDead

theorem reaches_fresh (h : Taken m x) {s : Nat}
    (hfound : (m.spaces me).findMappedFile (x.vpn * PageSize) = none)
    (hsw : (m.entry x.space x.vpn).swap = false) (hs : m.GetFreePage = some s) :
    Reaches (alone me) (m, some (.evictIo q x)) (m₁, some (.mapped q x.frame)) ↔
      s < NUM_SECTORS ∧ m₁ = (({ (m.modifyEntry x.space x.vpn .setBitIo).modifyEntry x.space x.vpn
          (.setAddrDisk (-1)) with
          page_flags := Function.update m.page_flags s true }.toSector x s).modifyEntry
            x.space x.vpn (.swapped s true)).takeOver me q x := by
  rw [reaches_evictIo h, (evict_swapOut hfound).2 hsw,
    swapOut_free (m := m.modifyEntry x.space x.vpn .setBitIo) hs]
  exact reaches_writeSwap h.notDead

theorem reaches_full (h : Taken m x)
    (hfound : (m.spaces me).findMappedFile (x.vpn * PageSize) = none)
    (hsw : (m.entry x.space x.vpn).swap = false) (hs : m.GetFreePage = none) :
    Reaches (alone me) (m, some (.evictIo q x)) (m₁, some (.mapped q x.frame)) ↔
      m₁ = (((m.modifyEntry x.space x.vpn .setBitIo).modifyEntry x.space x.vpn
        (.setAddrDisk (-1))).modifyEntry x.space x.vpn (.swapped (-1) true)).takeOver me q x := by
  rw [reaches_evictIo h, (evict_swapOut hfound).2 hsw,
    swapOut_full (m := m.modifyEntry x.space x.vpn .setBitIo) hs]
  exact reaches_mapped

omit [VmConfig] in
/-- The page should have a sector and has none: it gets one that nobody knows of, or it is
    lost. -/
theorem swapOut_again {s : Nat} {ad : Int} (had : ad < 0) (hs : m.GetFreePage = some s) :
    swapOut me m q x ad false =
      ({ m.modifyEntry x.space x.vpn (.setAddrDisk (-1)) with
        page_flags := Function.update m.page_flags s true }, .writeSwap q x s ad false) := by
  have hput : (m.modifyEntry x.space x.vpn (.setAddrDisk (-1))).PutPageSwap ad =
      ({ m.modifyEntry x.space x.vpn (.setAddrDisk (-1)) with
        page_flags := Function.update m.page_flags s true }, some s) := by
    unfold Memory.PutPageSwap
    have hs' : (m.modifyEntry x.space x.vpn (.setAddrDisk (-1))).GetFreePage = some s := hs
    rw [if_neg (by omega), hs']
    rfl
  unfold swapOut
  dsimp only
  rw [hput]
  rfl

omit [VmConfig] in
theorem swapOut_lost {ad : Int} (had : ad < 0) (hs : m.GetFreePage = none) :
    swapOut me m q x ad false =
      (((m.modifyEntry x.space x.vpn (.setAddrDisk (-1))).modifyEntry x.space x.vpn
        (.swapped ad false)).takeOver me q x, .mapped q x.frame) := by
  have hput : (m.modifyEntry x.space x.vpn (.setAddrDisk (-1))).PutPageSwap ad =
      (m.modifyEntry x.space x.vpn (.setAddrDisk (-1)), none) := by
    unfold Memory.PutPageSwap
    have hs' : (m.modifyEntry x.space x.vpn (.setAddrDisk (-1))).GetFreePage = none := hs
    rw [if_neg (by omega), hs']
  unfold swapOut
  dsimp only
  rw [hput]

theorem reaches_again (h : Taken m x) {s : Nat} (hM : (m.entry x.space x.vpn).M = true)
    (hfound : (m.spaces me).findMappedFile (x.vpn * PageSize) = none)
    (hsw : (m.entry x.space x.vpn).swap = true) (had : (m.entry x.space x.vpn).addrDisk < 0)
    (hs : m.GetFreePage = some s) :
    Reaches (alone me) (m, some (.evictIo q x)) (m₁, some (.mapped q x.frame)) ↔
      s < NUM_SECTORS ∧ m₁ = (({ (m.modifyEntry x.space x.vpn .setBitIo).modifyEntry x.space x.vpn
          (.setAddrDisk (-1)) with
          page_flags := Function.update m.page_flags s true }.toSector x s).modifyEntry
            x.space x.vpn (.swapped (m.entry x.space x.vpn).addrDisk false)).takeOver me q x := by
  rw [reaches_evictIo h, (evict_swapOut hfound).1 hsw hM,
    swapOut_again (m := m.modifyEntry x.space x.vpn .setBitIo) had hs]
  exact reaches_writeSwap h.notDead

theorem reaches_lost (h : Taken m x) (hM : (m.entry x.space x.vpn).M = true)
    (hfound : (m.spaces me).findMappedFile (x.vpn * PageSize) = none)
    (hsw : (m.entry x.space x.vpn).swap = true) (had : (m.entry x.space x.vpn).addrDisk < 0)
    (hs : m.GetFreePage = none) :
    Reaches (alone me) (m, some (.evictIo q x)) (m₁, some (.mapped q x.frame)) ↔
      m₁ = (((m.modifyEntry x.space x.vpn .setBitIo).modifyEntry x.space x.vpn
        (.setAddrDisk (-1))).modifyEntry x.space x.vpn
          (.swapped (m.entry x.space x.vpn).addrDisk false)).takeOver me q x := by
  rw [reaches_evictIo h, (evict_swapOut hfound).1 hsw hM,
    swapOut_lost (m := m.modifyEntry x.space x.vpn .setBitIo) had hs]
  exact reaches_mapped

omit [VmConfig] in
theorem outcome_kept (h : Taken m x) : Outcome m x
    ((m.modifyEntry x.space x.vpn .setBitIo).takeOver me q x) (m.entry x.space x.vpn)
      m.swap_disk m.files := by
  have ho : Outcome m x ((m.modifyEntry x.space x.vpn .setBitIo).takeOver me q x)
      (m.entry x.space x.vpn).setBitIo.clearBitIo m.swap_disk m.files :=
    Outcome.takeOver (Memory.entry_modifyEntry_self _) mapped_files_modifyEntry
  rwa [setBitIo_clearBitIo h.io] at ho

theorem outcome_file (h : Taken m x) (f : FileId) (ad : Int) : Outcome m x
    (((m.modifyEntry x.space x.vpn .setBitIo).toFile x f ad).takeOver me q x)
      (m.entry x.space x.vpn) m.swap_disk
      (Function.update m.files f ((m.files f).writeAt (m.frame x.frame) ad.toNat)) := by
  have hentry : ((m.modifyEntry x.space x.vpn .setBitIo).toFile x f ad).entry x.space x.vpn =
      (m.entry x.space x.vpn).setBitIo := Memory.entry_modifyEntry_self (m := m) _
  have ho : Outcome m x
      (((m.modifyEntry x.space x.vpn .setBitIo).toFile x f ad).takeOver me q x)
      (m.entry x.space x.vpn).setBitIo.clearBitIo m.swap_disk
      (Function.update m.files f ((m.files f).writeAt (m.frame x.frame) ad.toNat)) :=
    Outcome.takeOver hentry fun b => mapped_files_modifyEntry (m := m) b
  rwa [setBitIo_clearBitIo h.io] at ho

omit [VmConfig] in
/-- The address is hidden, the page may have been written, and the address is back. -/
theorem outcome_swapped (h : Taken m x) {m' : Memory} {ad : Int} {fresh : Bool}
    (hs : m'.spaces = ((m.modifyEntry x.space x.vpn .setBitIo).modifyEntry x.space x.vpn
      (.setAddrDisk (-1))).spaces) :
    Outcome m x ((m'.modifyEntry x.space x.vpn (.swapped ad fresh)).takeOver me q x)
      ((m.entry x.space x.vpn).swapped ad fresh) m'.swap_disk m'.files := by
  have hentry : m'.entry x.space x.vpn = (m.entry x.space x.vpn).setBitIo.setAddrDisk (-1) := by
    unfold Memory.entry
    rw [hs]
    show ((m.modifyEntry x.space x.vpn .setBitIo).modifyEntry x.space x.vpn
      (.setAddrDisk (-1))).entry x.space x.vpn = _
    rw [Memory.entry_modifyEntry_self, Memory.entry_modifyEntry_self]
    rfl
  rw [← entry_swapped h.io hentry]
  refine Outcome.takeOver rfl fun b => ?_
  rw [mapped_files_modifyEntry, hs, mapped_files_modifyEntry, mapped_files_modifyEntry]

/-- Each way has an end of its own. -/
theorem ends_of_reaches (h : Taken m x)
    (hr : Reaches (alone me) (m, some (.evictIo q x)) (m₁, some (.mapped q x.frame))) :
    Ends me m x m₁ := by
  by_cases hfound : (m.spaces me).findMappedFile (x.vpn * PageSize) = none
  · cases hsw : (m.entry x.space x.vpn).swap with
    | false =>
      cases hs : m.GetFreePage with
      | some s =>
        obtain ⟨hlt, rfl⟩ := (reaches_fresh h hfound hsw hs).mp hr
        exact .fresh hfound hsw hs hlt (outcome_swapped h rfl)
      | none =>
        obtain rfl := (reaches_full h hfound hsw hs).mp hr
        exact .full hfound hsw hs (outcome_swapped h rfl)
    | true =>
      cases hM : (m.entry x.space x.vpn).M with
      | false =>
        obtain rfl := (reaches_kept h hM (Or.inr hsw)).mp hr
        exact .kept hM (Or.inr hsw) (outcome_kept h)
      | true =>
        by_cases had : 0 ≤ (m.entry x.space x.vpn).addrDisk
        · obtain ⟨hlt, rfl⟩ := (reaches_sector h hM hfound hsw had).mp hr
          exact .sector hM hfound hsw had (by omega) (outcome_swapped h rfl)
        · -- The page has no sector, and gets one that nobody knows of.
          have hneg : (m.entry x.space x.vpn).addrDisk < 0 := by omega
          cases hs : m.GetFreePage with
          | some s =>
            obtain ⟨-, rfl⟩ := (reaches_again h hM hfound hsw hneg hs).mp hr
            exact .lost hM hfound hsw hneg (outcome_swapped h rfl)
          | none =>
            obtain rfl := (reaches_lost h hM hfound hsw hneg hs).mp hr
            exact .lost hM hfound hsw hneg (outcome_swapped h rfl)
  · obtain ⟨f, hf⟩ := Option.ne_none_iff_exists'.mp hfound
    cases hM : (m.entry x.space x.vpn).M with
    | false =>
      obtain rfl := (reaches_kept h hM (Or.inl hfound)).mp hr
      exact .kept hM (Or.inl hfound) (outcome_kept h)
    | true =>
      obtain ⟨had, rfl⟩ := (reaches_file h hM hf).mp hr
      exact .file hM hf had (outcome_file h f _)

/-- The page is written to its sector. -/
theorem exists_sector (h : Taken m x) (hM : (m.entry x.space x.vpn).M = true)
    (hfound : (m.spaces me).findMappedFile (x.vpn * PageSize) = none)
    (hsw : (m.entry x.space x.vpn).swap = true) (had : 0 ≤ (m.entry x.space x.vpn).addrDisk)
    (hlt : (m.entry x.space x.vpn).addrDisk < NUM_SECTORS) :
    ∃ m₁, Reaches (alone me) (m, some (.evictIo q x)) (m₁, some (.mapped q x.frame)) ∧
      Outcome m x m₁ (m.entry x.space x.vpn) (Function.update m.swap_disk
        (m.entry x.space x.vpn).addrDisk.toNat (m.frame x.frame)) m.files :=
  ⟨_, (reaches_sector h hM hfound hsw had).mpr ⟨by omega, rfl⟩, outcome_swapped h rfl⟩

/-- The page is written to a new sector. -/
theorem exists_fresh (h : Taken m x) {s : Nat}
    (hfound : (m.spaces me).findMappedFile (x.vpn * PageSize) = none)
    (hsw : (m.entry x.space x.vpn).swap = false) (hs : m.GetFreePage = some s) :
    ∃ m₁, Reaches (alone me) (m, some (.evictIo q x)) (m₁, some (.mapped q x.frame)) ∧
      Outcome m x m₁ ((m.entry x.space x.vpn).swapped s true)
        (Function.update m.swap_disk s (m.frame x.frame)) m.files :=
  ⟨_, (reaches_fresh h hfound hsw hs).mpr ⟨getFreePage_lt hs, rfl⟩, outcome_swapped h rfl⟩

end Evict

/-! ## When the law holds -/

section Law

variable {m m₁ m₂ : Memory} {me b : SpaceId} {v : Nat} {q : Fault} {x : Victim} {data : Page}

theorem mapping_congr {s s' : AddrSpace} (h : s'.mapped_files = s.mapped_files) (v : Nat) :
    s'.mapping v = s.mapping v := by
  unfold AddrSpace.mapping
  rw [h]

/-- Where the page is mapped, some file is found. -/
theorem findMappedFile_of_mapping {s : AddrSpace} {mf : MappedFile}
    (h : s.mapping v = some mf) : ∃ f, s.findMappedFile (v * PageSize) = some f := by
  have hin := List.find?_some h
  have hmem := List.mem_of_find?_eq_some h
  simp only [decide_eq_true_eq] at hin
  have hsome : (s.mapped_files.find? fun mf => decide (v * PageSize ≥ mf.first_address ∧
      v * PageSize < mf.first_address + (mf.size + 1) * PageSize)).isSome := by
    rw [List.find?_isSome]
    refine ⟨mf, hmem, decide_eq_true ⟨hin.1, ?_⟩⟩
    rw [Nat.add_mul, Nat.one_mul]
    omega
  obtain ⟨mf', hmf'⟩ := Option.isSome_iff_exists.mp hsome
  exact ⟨mf'.file, congrArg (Option.map MappedFile.file) hmf'⟩

theorem stored_mapped {mf : MappedFile} (h : (m.spaces b).mapping v = some mf) {i : Nat}
    {y : Byte} : m.Stored b v i y ↔ mf.offset v + i < (m.files mf.file).length ∧
      (m.files mf.file).bytes (mf.offset v + i) = y := by
  unfold Memory.Stored
  rw [h]

theorem stored_unmapped (h : (m.spaces b).mapping v = none) {i : Nat} {y : Byte} :
    m.Stored b v i y ↔ (m.entry b v).swap = true ∧
      ∃ n < NUM_SECTORS, (m.entry b v).addrDisk = n ∧ m.swap_disk n i = y := by
  unfold Memory.Stored
  rw [h]

/-- The owner finds the file, and the address is the offset. -/
theorem restores_file (hio : (m₁.entry b v).io = false) (hvalid : (m₁.entry b v).valid = false)
    {mf : MappedFile} (hmap : (m₁.spaces b).mapping v = some mf)
    (hf : (m₁.spaces b).findMappedFile (v * PageSize) = some mf.file)
    (had : (m₁.entry b v).addrDisk = mf.offset v) : Restores m₁ b v data := by
  intro m₂ buffer hentry hfiles
  rw [← hentry] at hio hvalid had
  rw [← findMappedFile_congr hfiles] at hf
  have hpath : Reaches (alone b) (_, some (.faultIo ⟨v, buffer⟩)) (_, some (.map _)) :=
    (fault_file hio hvalid hf).mpr ⟨by omega, Relation.ReflTransGen.refl⟩
  refine ⟨_, _, hpath, fun m₃ hdone => ?_⟩
  obtain ⟨hv, hframe⟩ := frame_of_buffered rfl hdone
  refine ⟨hv, fun i hi hstored => ?_⟩
  rw [stored_mapped ((mapping_congr hfiles v).trans hmap)] at hstored
  rw [hframe i hi, had, Int.toNat_natCast]
  exact (if_pos ⟨hi, hstored.1⟩).trans hstored.2

/-- The page has a sector, and the owner finds no file. -/
theorem restores_sector (hio : (m₁.entry b v).io = false) (hvalid : (m₁.entry b v).valid = false)
    (hmap : (m₁.spaces b).mapping v = none)
    (hf : (m₁.spaces b).findMappedFile (v * PageSize) = none)
    (hsw : (m₁.entry b v).swap = true) (had : 0 ≤ (m₁.entry b v).addrDisk)
    (hlt : (m₁.entry b v).addrDisk < NUM_SECTORS) : Restores m₁ b v data := by
  intro m₂ buffer hentry hfiles
  rw [← hentry] at hio hvalid hsw had hlt
  rw [← findMappedFile_congr hfiles] at hf
  refine ⟨_, _, fault_sector hio hvalid hf hsw had hlt, fun m₃ hdone => ?_⟩
  obtain ⟨hv, hframe⟩ := frame_of_buffered rfl hdone
  refine ⟨hv, fun i hi hstored => ?_⟩
  obtain ⟨-, n, -, hn, hbyte⟩ := (stored_unmapped ((mapping_congr hfiles v).trans hmap)).mp hstored
  rw [hframe i hi]
  show m₂.swap_disk (m₂.entry b v).addrDisk.toNat i = data i
  rw [hn, Int.toNat_natCast]
  exact hbyte

/-- When the owner finds a file, whatever is in the files, the page comes from there. -/
theorem Restores.file (h : Restores m₁ b v data) (hio : (m₁.entry b v).io = false)
    (hvalid : (m₁.entry b v).valid = false) {f : FileId}
    (hf : (m₁.spaces b).findMappedFile (v * PageSize) = some f) :
    0 ≤ (m₁.entry b v).addrDisk ∧ ∀ (files : FileId → File) (buffer : Page), ∀ i < PageSize,
      { m₁ with files := files }.Stored b v i (data i) →
        (files f).readAt buffer (m₁.entry b v).addrDisk.toNat i = data i := by
  -- The fault gets the frame 0.
  have key : ∀ (files : FileId → File) (buffer : Page), 0 ≤ (m₁.entry b v).addrDisk ∧
      ∀ i < PageSize, { m₁ with files := files }.Stored b v i (data i) →
        (files f).readAt buffer (m₁.entry b v).addrDisk.toNat i = data i := by
    intro files buffer
    let m₂ : Memory :=
      { m₁ with files := files, free_page_list := [0], tpr := fun _ => ⟨true, false, 0, none⟩ }
    obtain ⟨m', q, hpath, hdone⟩ := h m₂ buffer rfl rfl
    obtain ⟨had, hpath'⟩ := (fault_file (m := m₂) hio hvalid hf).mp hpath
    refine ⟨had, fun i hi hstored => ?_⟩
    let q' : Fault := ⟨v, (files f).readAt buffer (m₁.entry b v).addrDisk.toNat⟩
    obtain ⟨m₃, hend⟩ := fault_done (b := b) (q := q')
      (show (m₂.modifyEntry b v .setBitIo).free_page_list = [0] from rfl) rfl
    have hend' : Reaches (alone b) (m', some (.map q)) (m₃, none) := by
      rcases reaches_total hpath' hend with hr | hr
      · exact hr
      · exact nomatch (reaches_of_none rfl).mp hr
    have hframe := (frame_of_buffered rfl hend).2 i hi
    exact hframe.symm.trans ((hdone m₃ hend').2 i hi hstored)
  exact ⟨(key m₁.files (fun _ => 0)).1, fun files buffer => (key files buffer).2⟩

theorem Outcome.restores_file {e : PageTableEntry} {sectors : Nat → Page} {files : FileId → File}
    (ho : Outcome m x m₁ e sectors files) (hio : e.io = false) (hvalid : e.valid = false)
    {mf : MappedFile} (hmap : (m.spaces x.space).mapping x.vpn = some mf)
    (hf : (m.spaces x.space).findMappedFile (x.vpn * PageSize) = some mf.file)
    (had : e.addrDisk = mf.offset x.vpn) : Restores m₁ x.space x.vpn data := by
  rw [← ho.entry] at hio hvalid had
  exact Vm.restores_file hio hvalid ((mapping_congr (ho.mapped _) _).trans hmap)
    ((findMappedFile_congr (ho.mapped _) _).trans hf) had

theorem Outcome.restores_sector {e : PageTableEntry} {sectors : Nat → Page}
    {files : FileId → File} (ho : Outcome m x m₁ e sectors files) (hio : e.io = false)
    (hvalid : e.valid = false) (hmap : (m.spaces x.space).mapping x.vpn = none)
    (hf : (m.spaces x.space).findMappedFile (x.vpn * PageSize) = none) (hsw : e.swap = true)
    (had : 0 ≤ e.addrDisk) (hlt : e.addrDisk < NUM_SECTORS) :
    Restores m₁ x.space x.vpn data := by
  rw [← ho.entry] at hio hvalid hsw had hlt
  exact Vm.restores_sector hio hvalid ((mapping_congr (ho.mapped _) _).trans hmap)
    ((findMappedFile_congr (ho.mapped _) _).trans hf) hsw had hlt

/-- A modified page of a mapped file is written to the file. -/
theorem evictsWell_modified (h : Taken m x) {mf : MappedFile}
    (hmap : (m.spaces x.space).mapping x.vpn = some mf)
    (hfind : (m.spaces x.space).findMappedFile (x.vpn * PageSize) = some mf.file)
    (hM : (m.entry x.space x.vpn).M = true)
    (hfound : (m.spaces me).findMappedFile (x.vpn * PageSize) = some mf.file)
    (had : (m.entry x.space x.vpn).addrDisk = mf.offset x.vpn)
    (hle : mf.offset x.vpn ≤ (m.files mf.file).length)
    (hroom : mf.offset x.vpn + PageSize ≤
      max (m.files mf.file).length (m.files mf.file).maxLength) : EvictsWell me m q x := by
  have hout : Outcome m x (((m.modifyEntry x.space x.vpn .setBitIo).toFile x mf.file
      (m.entry x.space x.vpn).addrDisk).takeOver me q x) _ _ _ :=
    outcome_file h mf.file (m.entry x.space x.vpn).addrDisk
  refine ⟨_, (reaches_file (q := q) h hM hfound).mpr ⟨by omega, rfl⟩, ⟨fun _ i hi => ?_,
    fun f hf => ?_, hout.restores_file h.io h.valid hmap hfind had⟩⟩
  · rw [stored_mapped ((mapping_congr (hout.mapped _) _).trans hmap), hout.files, had,
      Function.update_self, Int.toNat_natCast]
    exact File.writeAt_page hle hroom hi
  · -- The file is one of the owner.
    have hmem : mf ∈ (m.spaces x.space).mapped_files := List.mem_of_find?_eq_some hmap
    rw [hout.files]
    exact Function.update_of_ne (fun he => hf mf hmem he.symm) _ _

/-- A page of a mapped file that is not modified is not written, or it goes to a sector
    whose number is the offset. -/
theorem evictsWell_unmodified (h : Taken m x) {mf : MappedFile}
    (hmap : (m.spaces x.space).mapping x.vpn = some mf)
    (hfind : (m.spaces x.space).findMappedFile (x.vpn * PageSize) = some mf.file)
    (hM : (m.entry x.space x.vpn).M = false)
    (had : if (m.spaces me).findMappedFile (x.vpn * PageSize) = none ∧
        (m.entry x.space x.vpn).swap = false
      then m.GetFreePage = some (mf.offset x.vpn)
      else (m.entry x.space x.vpn).addrDisk = mf.offset x.vpn) : EvictsWell me m q x := by
  -- The law says nothing of the bytes.
  have hnone : ∀ {P : Prop}, ((m.spaces x.space).mapping x.vpn ≠ none →
      (m.entry x.space x.vpn).M = true) → P := by
    intro P hw
    have hM' := hw (by simp [hmap])
    exact nomatch hM.symm.trans hM'
  split at had
  · rename_i hcase
    obtain ⟨m₁, hpath, ho⟩ := exists_fresh (q := q) h hcase.1 hcase.2 had
    exact ⟨m₁, hpath, ⟨hnone, fun f _ => congrFun ho.files f,
      ho.restores_file h.io h.valid hmap hfind rfl⟩⟩
  · rename_i hcase
    have hkeep : (m.spaces me).findMappedFile (x.vpn * PageSize) ≠ none ∨
        (m.entry x.space x.vpn).swap = true := by
      by_cases hf : (m.spaces me).findMappedFile (x.vpn * PageSize) = none
      · exact Or.inr (by simpa [hf] using hcase)
      · exact Or.inl hf
    have ho : Outcome m x ((m.modifyEntry x.space x.vpn .setBitIo).takeOver me q x) _ _ _ :=
      outcome_kept h
    exact ⟨_, (reaches_kept h hM hkeep).mpr rfl, ⟨hnone, fun f _ => congrFun ho.files f,
      ho.restores_file h.io h.valid hmap hfind had⟩⟩

/-- A page that is not mapped is in its sector, or is written to a sector. -/
theorem evictsWell_unmapped (h : Taken m x) (hc : Clean m x)
    (hmap : (m.spaces x.space).mapping x.vpn = none)
    (hfind : (m.spaces x.space).findMappedFile (x.vpn * PageSize) = none)
    (hmine : if (m.entry x.space x.vpn).swap then
        0 ≤ (m.entry x.space x.vpn).addrDisk ∧ (m.entry x.space x.vpn).addrDisk < NUM_SECTORS ∧
          ((m.entry x.space x.vpn).M = true →
            (m.spaces me).findMappedFile (x.vpn * PageSize) = none)
      else (m.spaces me).findMappedFile (x.vpn * PageSize) = none ∧ m.GetFreePage ≠ none) :
    EvictsWell me m q x := by
  split at hmine
  · rename_i hsw
    obtain ⟨had, hlt, hfound⟩ := hmine
    have hn : (m.entry x.space x.vpn).addrDisk = (m.entry x.space x.vpn).addrDisk.toNat := by
      omega
    cases hM : (m.entry x.space x.vpn).M with
    | false =>
      have ho : Outcome m x ((m.modifyEntry x.space x.vpn .setBitIo).takeOver me q x) _ _ _ :=
        outcome_kept h
      refine ⟨_, (reaches_kept h hM (Or.inr hsw)).mpr rfl, ⟨fun _ i hi => ?_,
        fun f _ => congrFun ho.files f, ho.restores_sector h.io h.valid hmap hfind hsw had hlt⟩⟩
      rw [stored_unmapped ((mapping_congr (ho.mapped _) _).trans hmap), ho.entry, ho.sectors]
      exact ⟨hsw, _, by omega, hn, hc hmap hsw hM i hi⟩
    | true =>
      obtain ⟨m₁, hpath, ho⟩ := exists_sector (q := q) h hM (hfound hM) hsw had hlt
      refine ⟨m₁, hpath, ⟨fun _ i hi => ?_,
        fun f _ => congrFun ho.files f, ho.restores_sector h.io h.valid hmap hfind hsw had hlt⟩⟩
      rw [stored_unmapped ((mapping_congr (ho.mapped _) _).trans hmap), ho.entry, ho.sectors]
      exact ⟨hsw, _, by omega, hn, congrFun (Function.update_self _ _ _) i⟩
  · rename_i hsw
    obtain ⟨hfound, hroom⟩ := hmine
    have hsw' : (m.entry x.space x.vpn).swap = false := by simpa using hsw
    obtain ⟨s, hs⟩ := Option.ne_none_iff_exists'.mp hroom
    have hlt := getFreePage_lt hs
    obtain ⟨m₁, hpath, ho⟩ := exists_fresh (q := q) h hfound hsw' hs
    refine ⟨m₁, hpath, ⟨fun _ i hi => ?_, fun f _ => congrFun ho.files f,
      ho.restores_sector h.io h.valid hmap hfind rfl ?_ ?_⟩⟩
    · rw [stored_unmapped ((mapping_congr (ho.mapped _) _).trans hmap), ho.entry, ho.sectors]
      exact ⟨rfl, s, hlt, rfl, congrFun (Function.update_self _ _ _) i⟩
    · exact Int.natCast_nonneg s
    · show (s : Int) < NUM_SECTORS
      omega

theorem evictsWell_of_ownMapping (h : Taken m x) (hc : Clean m x) (ho : OwnMapping me m x) :
    EvictsWell me m q x := by
  obtain ⟨hfind, hmine⟩ := ho
  cases hmap : (m.spaces x.space).mapping x.vpn with
  | some mf =>
    rw [hmap] at hfind
    simp only [hmap] at hmine
    cases hM : (m.entry x.space x.vpn).M with
    | true =>
      rw [hM, if_pos rfl] at hmine
      obtain ⟨hfound, had, hle, hroom⟩ := hmine
      exact evictsWell_modified h hmap hfind hM hfound had hle hroom
    | false =>
      simp only [hM] at hmine
      exact evictsWell_unmodified h hmap hfind hM hmine
  | none =>
    rw [hmap] at hfind
    simp only [hmap] at hmine
    exact evictsWell_unmapped h hc hmap hfind hmine

/-- Frames of ones, and files of zeros; the sectors are those of pages that are not
    modified. -/
def onesAndZeros (m : Memory) (x : Victim) : Memory :=
  m.withBytes (fun _ => 1) (fun _ _ => if (m.entry x.space x.vpn).M then 0 else 1) fun _ _ => 0

omit [VmConfig] in
/-- A fault can come at once, and the mappings are the same. -/
theorem Outcome.ready {e : PageTableEntry} {sectors : Nat → Page} {files : FileId → File}
    (ho : Outcome m x m₁ e sectors files) (hio : e.io = false) (hvalid : e.valid = false) :
    (m₁.entry x.space x.vpn).io = false ∧ (m₁.entry x.space x.vpn).valid = false ∧
      (m₁.spaces x.space).mapped_files = (m.spaces x.space).mapped_files := by
  rw [ho.entry]
  exact ⟨hio, hvalid, ho.mapped _⟩

theorem Ends.ready (he : Ends me m x m₁) (h : Taken m x) :
    (m₁.entry x.space x.vpn).io = false ∧ (m₁.entry x.space x.vpn).valid = false ∧
      (m₁.spaces x.space).mapped_files = (m.spaces x.space).mapped_files := by
  cases he with
  | kept _ _ ho => exact ho.ready h.io h.valid
  | file _ _ _ ho => exact ho.ready h.io h.valid
  | sector _ _ _ _ _ ho => exact ho.ready h.io h.valid
  | lost _ _ _ _ ho => exact ho.ready h.io h.valid
  | fresh _ _ _ _ ho => exact ho.ready h.io h.valid
  | full _ _ _ ho => exact ho.ready h.io h.valid

/-- A mapped page comes from its offset in its file. -/
theorem restores_offset (h : Taken m x) (he : Ends me m x m₁)
    (hr : Restores m₁ x.space x.vpn fun _ => 1) {mf : MappedFile}
    (hmap : (m.spaces x.space).mapping x.vpn = some mf) :
    (m.spaces x.space).findMappedFile (x.vpn * PageSize) = some mf.file ∧
      (m₁.entry x.space x.vpn).addrDisk = mf.offset x.vpn := by
  obtain ⟨hio, hvalid, hfiles⟩ := he.ready h
  have hmap₁ := (mapping_congr hfiles x.vpn).trans hmap
  obtain ⟨f, hf⟩ := findMappedFile_of_mapping hmap
  obtain ⟨had, hread⟩ := hr.file hio hvalid ((findMappedFile_congr hfiles _).trans hf)
  -- Only the byte at the offset in the file is not zero.
  let files : FileId → File := fun g =>
    if g = mf.file then
      ⟨fun j => if j = mf.offset x.vpn then 1 else 0, mf.offset x.vpn + 1, 0⟩
    else ⟨fun _ => 0, 0, 0⟩
  have hbyte := hread files (fun _ => 0) 0 pageSize_pos
    ((stored_mapped (m := { m₁ with files := files }) hmap₁).mpr (by simp [files]))
  unfold File.readAt at hbyte
  by_cases hfile : f = mf.file
  · refine ⟨hfile ▸ hf, ?_⟩
    by_contra hne
    have hne' : (m₁.entry x.space x.vpn).addrDisk.toNat ≠ mf.offset x.vpn := by omega
    simp [files, hfile, hne'] at hbyte
  · simp [files, hfile] at hbyte

theorem ownMapping_mapped (h : Taken m x) (hw : EvictsWell me (onesAndZeros m x) q x)
    {mf : MappedFile} (hmap : (m.spaces x.space).mapping x.vpn = some mf) :
    OwnMapping me m x := by
  obtain ⟨m₁, hpath, hwritten, -, hr⟩ := hw
  have h' : Taken (onesAndZeros m x) x := ⟨h.notDead, h.valid, h.io⟩
  have he := ends_of_reaches h' hpath
  obtain ⟨hfind, had⟩ := restores_offset h' he hr hmap
  have hmap₁ := (mapping_congr (he.ready h').2.2 x.vpn).trans hmap
  -- A page that was modified is in the file, which had zeros.
  have hbytes : (m.entry x.space x.vpn).M = true → ∀ i < PageSize,
      mf.offset x.vpn + i < (m₁.files mf.file).length ∧
        (m₁.files mf.file).bytes (mf.offset x.vpn + i) = 1 := fun hM i hi =>
    (stored_mapped hmap₁).mp (hwritten (fun _ => hM) i hi)
  have hbyte : (m.entry x.space x.vpn).M = true →
      (m₁.files mf.file).bytes (mf.offset x.vpn) = 1 := fun hM => (hbytes hM 0 pageSize_pos).2
  have hzero : m₁.files mf.file = (onesAndZeros m x).files mf.file →
      (m.entry x.space x.vpn).M = false := by
    intro hsame
    by_contra hM
    have h1 := hbyte (by simpa using hM)
    rw [hsame] at h1
    exact absurd h1 (by show (0 : Byte) ≠ 1; decide)
  unfold OwnMapping
  simp only [hmap]
  refine ⟨hfind, ?_⟩
  cases he with
  | kept hM hfound ho =>
    rw [ho.entry] at had
    have hM' : (m.entry x.space x.vpn).M = false := hM
    rw [hM', if_neg (by decide), if_neg]
    · exact had
    · rintro ⟨hnone, hsw⟩
      exact hfound.elim (fun hne => hne hnone) fun hs => nomatch hsw.symm.trans hs
  | @file f hM hfound hpos ho =>
    rw [ho.entry] at had
    have hM' : (m.entry x.space x.vpn).M = true := hM
    by_cases hf : mf.file = f
    · rw [hM', if_pos rfl, hf]
      refine ⟨hfound, had, ?_⟩
      have hlt := pageSize_pos
      have h0 := (hbytes hM' 0 hlt).2
      have hlast := (hbytes hM' (PageSize - 1) (by omega)).1
      rw [ho.files, hf, Function.update_self, had, Int.toNat_natCast] at h0 hlast
      have hle : mf.offset x.vpn ≤ (m.files f).length := by
        by_contra hnot
        rw [File.bytes_writeAt, if_neg fun h => hnot h.1] at h0
        exact absurd h0 (by show (0 : Byte) ≠ 1; decide)
      refine ⟨hle, ?_⟩
      -- Without room the last byte of the page is past the end.
      by_contra hroom
      rw [File.length_writeAt, if_neg fun h => hroom h.2] at hlast
      change mf.offset x.vpn + (PageSize - 1) < (m.files f).length at hlast
      omega
    · have h1 := hbyte hM'
      rw [ho.files] at h1
      apply absurd h1
      rw [Function.update_of_ne hf]
      show (0 : Byte) ≠ 1
      decide
  | sector hM hfound hsw hpos hlt ho => exact nomatch hM.symm.trans (hzero (congrFun ho.files _))
  | lost hM hfound hsw hneg ho => exact nomatch hM.symm.trans (hzero (congrFun ho.files _))
  | fresh hfound hsw hs hlt ho =>
    rw [hzero (congrFun ho.files _), if_neg (by decide), if_pos ⟨hfound, hsw⟩]
    rw [ho.entry] at had
    have hs' : m.GetFreePage = some _ := hs
    rw [hs']
    exact congrArg some (Int.natCast_inj.mp had)
  | full hfound hsw hs ho =>
    rw [ho.entry] at had
    have had' : (-1 : Int) = mf.offset x.vpn := had
    omega

/-- A page that is not mapped comes from a sector. -/
theorem ownMapping_unmapped (h : Taken m x) (hw : EvictsWell me (onesAndZeros m x) q x)
    (hmap : (m.spaces x.space).mapping x.vpn = none) : OwnMapping me m x := by
  obtain ⟨m₁, hpath, hwritten, -, hr⟩ := hw
  have h' : Taken (onesAndZeros m x) x := ⟨h.notDead, h.valid, h.io⟩
  have he := ends_of_reaches h' hpath
  obtain ⟨hio, hvalid, hfiles⟩ := he.ready h'
  have hmap₁ := (mapping_congr hfiles x.vpn).trans hmap
  have hstored := hwritten (fun hne => (hne hmap).elim) 0 pageSize_pos
  obtain ⟨hsw₁, n, hn, had, hbyte⟩ := (stored_unmapped hmap₁).mp hstored
  have hfind : (m.spaces x.space).findMappedFile (x.vpn * PageSize) = none := by
    by_contra hne
    obtain ⟨f, hf⟩ := Option.ne_none_iff_exists'.mp hne
    obtain ⟨-, hread⟩ := hr.file hio hvalid ((findMappedFile_congr hfiles _).trans hf)
    have h0 := hread (fun _ => ⟨fun _ => 0, 0, 0⟩) (fun _ => 0) 0 pageSize_pos
      ((stored_unmapped (m := { m₁ with files := fun _ => ⟨fun _ => 0, 0, 0⟩ }) hmap₁).mpr
        ⟨hsw₁, n, hn, had, hbyte⟩)
    unfold File.readAt at h0
    simp [onesAndZeros, Memory.frame, Memory.withBytes] at h0
  unfold OwnMapping
  simp only [hmap]
  refine ⟨hfind, ?_⟩
  cases he with
  | kept hM hfound ho =>
    rw [ho.entry] at hsw₁ had
    have hsw : (m.entry x.space x.vpn).swap = true := hsw₁
    have had' : (m.entry x.space x.vpn).addrDisk = n := had
    have hM' : (m.entry x.space x.vpn).M = false := hM
    rw [hsw, if_pos rfl, had']
    refine ⟨by omega, by omega, fun hM'' => nomatch hM'.symm.trans hM''⟩
  | file hM hfound hpos ho =>
    -- The sectors of a modified page had zeros.
    rw [ho.sectors] at hbyte
    have hM' : (m.entry x.space x.vpn).M = true := hM
    simp [onesAndZeros, Memory.withBytes, Memory.frame, hM'] at hbyte
  | sector hM hfound hsw hpos hlt ho =>
    have hsw' : (m.entry x.space x.vpn).swap = true := hsw
    rw [hsw', if_pos rfl]
    exact ⟨hpos, hlt, fun _ => hfound⟩
  | lost hM hfound hsw hneg ho =>
    rw [ho.entry] at had
    omega
  | fresh hfound hsw hs hlt ho =>
    have hsw' : (m.entry x.space x.vpn).swap = false := hsw
    have hs' : m.GetFreePage = some _ := hs
    rw [hsw', if_neg (by decide), hs']
    exact ⟨hfound, by simp⟩
  | full hfound hsw hs ho =>
    rw [ho.entry] at had
    have had' : (-1 : Int) = n := had
    omega

/-- A page is evicted well, whatever the bytes are, when the mapping that is found for it
    is that of its owner, and only then. -/
theorem evictsWell_iff (h : Taken m x) :
    (∀ ram sectors files, Clean (m.withBytes ram sectors files) x →
      EvictsWell me (m.withBytes ram sectors files) q x) ↔ OwnMapping me m x := by
  constructor
  · intro hw
    have hclean : Clean (onesAndZeros m x) x := by
      intro _ _ hM i _
      have hM' : (m.entry x.space x.vpn).M = false := hM
      show (if (m.entry x.space x.vpn).M then (0 : Byte) else 1) = 1
      rw [hM', if_neg (by decide)]
    cases hmap : (m.spaces x.space).mapping x.vpn with
    | some mf => exact ownMapping_mapped h (hw _ _ _ hclean) hmap
    | none => exact ownMapping_unmapped h (hw _ _ _ hclean) hmap
  · intro ho ram sectors files hclean
    have h' : Taken (m.withBytes ram sectors files) x := ⟨h.notDead, h.valid, h.io⟩
    exact evictsWell_of_ownMapping h' hclean ho

/-- The bytes of a modified page are lost when another file is found for it, or none. -/
theorem not_evictsWell (h : Taken m x) (hM : (m.entry x.space x.vpn).M = true) {mf : MappedFile}
    (hmap : (m.spaces x.space).mapping x.vpn = some mf)
    (hfound : (m.spaces me).findMappedFile (x.vpn * PageSize) ≠ some mf.file) {i : Nat}
    (hi : i < PageSize) (hne : (m.files mf.file).bytes (mf.offset x.vpn + i) ≠ m.frame x.frame i) :
    ¬ EvictsWell me m q x := by
  rintro ⟨m₁, hpath, hwritten, -, -⟩
  have he := ends_of_reaches h hpath
  have hmap₁ := (mapping_congr (he.ready h).2.2 x.vpn).trans hmap
  have hbyte := ((stored_mapped hmap₁).mp (hwritten (fun _ => hM) i hi)).2
  have hfile : m₁.files mf.file = m.files mf.file := by
    cases he with
    | kept _ _ ho => exact congrFun ho.files _
    | @file f _ hf _ ho =>
      rw [ho.files]
      apply Function.update_of_ne
      rintro rfl
      exact hfound hf
    | sector _ _ _ _ _ ho => exact congrFun ho.files _
    | lost _ _ _ _ ho => exact congrFun ho.files _
    | fresh _ _ _ _ ho => exact congrFun ho.files _
    | full _ _ _ ho => exact congrFun ho.files _
  rw [hfile] at hbyte
  exact hne hbyte

end Law

/-! ## A page of a mapped file that is evicted by another process -/

/-- 1 modifies the page of its mapped file, and 0, which has no mapped file, takes its
    frame. -/
def takenByAnother : List Move :=
  List.flatten [loads 0 5, [.store 0 4 5, .switch 2], loads 0 3, [.switch 0], loads 0 5]

/-- The page that the running thread is about to evict. -/
def taking (s : System) : Option Victim :=
  match s.pc s.current with
  | some (.evictIo _ x) => some x
  | _ => none

omit [VmConfig] in
theorem taking_iff {s : System} {x : Victim} :
    taking s = some x ↔ ∃ q, s.pc s.current = some (.evictIo q x) := by
  unfold taking
  split
  · rename_i q y hp
    rw [hp]
    simp
  · rename_i hne
    simp only [reduceCtorEq, false_iff, not_exists]
    exact fun q hp => hne q x hp

omit [VmConfig] in
/-- The page goes to the swap area, and not to the file. -/
theorem evictsWell_fails :
    ¬ ∀ [VmConfig] (T : Threads) (s₀ s : System) (tr : Moves) (q : Fault) (x : Victim),
      Booted s₀ → Run (step T) s₀ tr s → s.pc s.current = some (.evictIo q x) →
      Taken s.memory x → Clean s.memory x → EvictsWell (T.process s.current) s.memory q x := by
  intro h
  let _ := VmConfig.two
  obtain ⟨⟨tr, s⟩, he, hx⟩ := Option.map_eq_some_iff.mp
    (show (exec (step fourThreads) ⟨mappedSpaces, 1, fun _ => none⟩ takenByAnother).map
        (fun x => ((taking x.2).map fun y => (y.frame, y.space, y.vpn), x.2.current)) =
      some (some (0, 1, 0), 0) by decide +kernel)
  have hbits : (exec (step fourThreads) ⟨mappedSpaces, 1, fun _ => none⟩ takenByAnother).map
      (fun x => (x.2.memory.status 1, (x.2.memory.entry 1 0).M, (x.2.memory.entry 1 0).valid,
        (x.2.memory.entry 1 0).io)) = some (.live, true, false, false) := by decide +kernel
  have hbytes : (exec (step fourThreads) ⟨mappedSpaces, 1, fun _ => none⟩ takenByAnother).map
      (fun x => (((x.2.memory.spaces 1).mapping 0).map fun mf => (mf.file, mf.offset 0),
        (x.2.memory.spaces 0).findMappedFile 0, (x.2.memory.files 0).bytes 0,
        x.2.memory.frame 0 0)) = some (some (0, 0), none, 0, 5) := by decide +kernel
  rw [he, Option.map_some, Option.some.injEq] at hbits hbytes
  simp only [Prod.mk.injEq] at hx hbits hbytes
  obtain ⟨hlive, hM, hvalid, hio⟩ := hbits
  obtain ⟨hmap, hfound, hfile, hframe⟩ := hbytes
  obtain ⟨⟨frame, b, v⟩, htaking, hvictim⟩ := Option.map_eq_some_iff.mp hx.1
  simp only [Prod.mk.injEq] at hvictim
  obtain ⟨rfl, rfl, rfl⟩ := hvictim
  obtain ⟨q, hp⟩ := taking_iff.mp htaking
  obtain ⟨mf, hmf, hoffset⟩ := Option.map_eq_some_iff.mp hmap
  simp only [Prod.mk.injEq] at hoffset
  have htaken : Taken s.memory ⟨0, 1, 0⟩ := ⟨by rw [hlive]; simp, hvalid, hio⟩
  have hclean : Clean s.memory ⟨0, 1, 0⟩ := fun hnone => nomatch hmf.symm.trans hnone
  have hw := h fourThreads _ s tr q _ booted_mappedSpaces (run_of_exec he) hp htaken hclean
  rw [hx.2] at hw
  refine not_evictsWell htaken hM hmf ?_ pageSize_pos ?_ hw
  · show (s.memory.spaces 0).findMappedFile (0 * PageSize) ≠ _
    rw [Nat.zero_mul, hfound]
    simp
  · show (s.memory.files mf.file).bytes (mf.offset 0 + 0) ≠ s.memory.frame 0 0
    rw [hoffset.1, hoffset.2, hfile, hframe]
    decide

/-- 0 and 1 have mapped the same file at the same place; the page of 1 is modified. -/
def sharedMapping : Memory :=
  let _ := VmConfig.two
  let modified := { newEntry 0 true with M := true, U := true }
  { newMemory (fun _ => ⟨fun _ => modified, 1, [⟨0, 1, 0⟩], 0⟩) fun _ => ⟨fun _ => 0, 256, 256⟩ with
    mainMemory := fun i => BitVec.ofNat 8 i }

omit [VmConfig] in
/-- The thread of 0 finds the file of the page. -/
theorem evictsWell_shared :
    @EvictsWell VmConfig.two 0 sharedMapping ⟨0, fun _ => 0⟩ ⟨0, 1, 0⟩ := by
  let _ := VmConfig.two
  have htaken : Taken sharedMapping ⟨0, 1, 0⟩ := ⟨by decide, rfl, rfl⟩
  have hown : OwnMapping 0 sharedMapping ⟨0, 1, 0⟩ := by
    refine ⟨rfl, ?_⟩
    show if true = true then _ else _
    rw [if_pos rfl]
    exact ⟨rfl, rfl, by decide⟩
  exact (evictsWell_iff htaken).mpr hown sharedMapping.mainMemory sharedMapping.swap_disk
    (fun f => (sharedMapping.files f).bytes) fun hnone => nomatch hnone

end Vm
end Nachos
