/-
  Nachos.Vm.Mapping

  A process that maps a file, and is the only one.  `AddrSpace::Mmap` gives it the pages,
  `PageFault` reads them from the file, and `EvictPage` and `~AddrSpace` write those that
  are modified back, a whole page each time.  So the last page of the file makes the file
  longer when it is written back; nothing else goes wrong.
-/

import Nachos.Vm.MappedFiles
import Nachos.Vm.Loader

namespace Nachos
namespace Vm

open Transition Ownership Words

/-! ## `AddrSpace::Mmap` -/

/-- The entry of a page of a mapped file. -/
def PageTableEntry.mapped (byte_offset : Nat) (e : PageTableEntry) : PageTableEntry :=
  ((e.setAddrDisk byte_offset).clearBitIo.clearBitValid.clearBitSwap.setBitReadAllowed
    ).setBitWriteAllowed.clearBitU.clearBitM

abbrev MAX_MAPPED_FILES : Nat := 10

/-- `AddrSpace::Alloc`; `none` stands for -1. -/
def AddrSpace.Alloc (s : AddrSpace) (maxNumPages numPages : Nat) : Option (AddrSpace × Nat) :=
  if s.freePageId + numPages ≥ maxNumPages then none
  else some ({ s with freePageId := s.freePageId + numPages }, s.freePageId)

/-- The loop of `Mmap`. -/
def Memory.mapPages [VmConfig] (m : Memory) (b : SpaceId) (page_allocated nb_pages : Nat) :
    Memory :=
  (List.range nb_pages).foldl (fun m i =>
    m.modifyEntry b (page_allocated + i) (.mapped (i * PageSize))) m

/-- `AddrSpace::Mmap`, with the address it returns.  There is no result when the system
    halts, when `Alloc` fails (the setters find that the page -1 is not in the table), or
    when the table of mapped files is full. -/
def Memory.Mmap [VmConfig] (m : Memory) (b : SpaceId) (maxNumPages : Nat) (f : FileId)
    (size : Nat) : Option (Memory × Nat) :=
  let nb_pages := size / PageSize + if size % PageSize > 0 then 1 else 0
  ((m.spaces b).Alloc maxNumPages nb_pages).bind fun r =>
    let addr_allocated := r.2 * PageSize
    if addr_allocated = 0 ∨ r.1.mapped_files.length ≥ MAX_MAPPED_FILES then none
    else
      let element : MappedFile := ⟨addr_allocated, nb_pages, f⟩
      let m := { m with
        spaces := Function.update m.spaces b
          { r.1 with mapped_files := r.1.mapped_files ++ [element] } }
      some (m.mapPages b r.2 nb_pages, addr_allocated)

/-- The system call: the size is positive. -/
def System.mmap [VmConfig] (T : Threads) (maxNumPages : Nat) (s : System) (f : FileId)
    (size : Nat) : Option System :=
  if s.inUserCode T ∧ 0 < size then
    (s.memory.Mmap (T.process s.current) maxNumPages f size).map fun r => { s with memory := r.1 }
  else none

variable [VmConfig]

/-- The pages of the mapping have their new entries; nothing else changes. -/
theorem mapPages_eq {m : Memory} {b : SpaceId} {P n : Nat} :
    (∀ b' v, (m.mapPages b P n).entry b' v =
      if b' = b ∧ P ≤ v ∧ v < P + n then (m.entry b v).mapped ((v - P) * PageSize)
      else m.entry b' v) ∧
    (m.mapPages b P n).shape = m.shape ∧
    m.mapPages b P n = { m with spaces := (m.mapPages b P n).spaces } := by
  induction n with
  | zero =>
    refine ⟨fun b' v => ?_, rfl, rfl⟩
    rw [if_neg (by omega)]
    rfl
  | succ n ih =>
    obtain ⟨hentry, hshape, hrest⟩ := ih
    have hsucc : m.mapPages b P (n + 1) =
        (m.mapPages b P n).modifyEntry b (P + n) (.mapped (n * PageSize)) := by
      unfold Memory.mapPages
      rw [List.range_succ, List.foldl_append]
      rfl
    rw [hsucc]
    refine ⟨fun b' v => ?_, modifyEntry_shape.trans hshape, ?_⟩
    · rw [Memory.entry_modifyEntry]
      by_cases hv : b' = b ∧ v = P + n
      · obtain ⟨rfl, rfl⟩ := hv
        rw [if_pos ⟨rfl, rfl⟩, if_pos ⟨rfl, by omega, by omega⟩, hentry, if_neg (by omega),
          Nat.add_sub_cancel_left]
      · rw [if_neg hv, hentry]
        by_cases hin : b' = b ∧ P ≤ v ∧ v < P + n
        · rw [if_pos hin, if_pos ⟨hin.1, hin.2.1, by omega⟩]
        · rw [if_neg hin, if_neg]
          rintro ⟨h1, h2, h3⟩
          exact hin ⟨h1, h2, by have : v ≠ P + n := fun h => hv ⟨h1, h⟩; omega⟩
    · conv_lhs => rw [hrest]
      rfl

/-! ## What is claimed -/

/-- The page is one of the mapping. -/
def MappedFile.Has (mf : MappedFile) (v : Nat) : Prop :=
  mf.first_address ≤ v * PageSize ∧ v * PageSize < mf.first_address + mf.size * PageSize

/-- The page, as far as the first `L` bytes of the file go, has the bytes that were stored
    last. -/
def Agrees (c : Contents) (me : SpaceId) (mf : MappedFile) (L v : Nat) (p : Page) : Prop :=
  ∀ i < PageSize, mf.offset v + i < L → c.page me v i = some (p i)

/-- The bytes of the file at the place of the page. -/
def Memory.filePage (m : Memory) (mf : MappedFile) (v : Nat) : Page :=
  fun i => (m.files mf.file).bytes (mf.offset v + i)

/-- The bytes of the mapping after a run from `m`: the last byte stored at each address, or
    that of the file. -/
def mappedContents (T : Threads) (m : Memory) (mf : MappedFile) (tr : Moves) : Contents :=
  tr.foldl (Contents.after T) fun _ a => some ((m.files mf.file).bytes (a - mf.first_address))

/-- The file has its length, and the bytes that were stored are where the process finds
    them: in the frame of a page that has one, else in the file unless the page is on its
    way there.  When the process has ended they are in the file. -/
structure Mirrors (c : Contents) (me : SpaceId) (mf : MappedFile) (L : Nat) (s : System) :
    Prop where
  length : (s.memory.files mf.file).length = L
  loaded : ∀ v, mf.Has v → (s.memory.entry me v).valid = true →
    Agrees c me mf L v (s.memory.frame (s.memory.entry me v).physicalPage)
  stored : ∀ v, mf.Has v → (s.memory.entry me v).valid = false →
    (∀ t, ¬ IsVictim (s.pc t) me v) → Agrees c me mf L v (s.memory.filePage mf v)
  ended : s.memory.status me = .dead → ∀ v, mf.Has v →
    Agrees c me mf L v (s.memory.filePage mf v)

/-- The page of the file that is to be written, and its place in the file. -/
def Pc.writes : Pc → Option (FileId × Int)
  | .writeFile _ _ f ad => some (f, ad)
  | .destroyWrite _ _ f ad _ => some (f, ad)
  | _ => none

/-- The step writes a page back that the file ends in, or that begins at its end, and there
    is room on the disk for all of the page. -/
def Extends (mf : MappedFile) (s : System) (move : Move) : Prop :=
  move = .advance ∧ ∃ p ad, s.pc s.current = some p ∧ p.writes = some (mf.file, ad) ∧ 0 ≤ ad ∧
    let f := s.memory.files mf.file
    ad.toNat ≤ f.length ∧ f.length < ad.toNat + PageSize ∧
      ad.toNat + PageSize ≤ max f.length f.maxLength

/-! ## The invariant -/

/-- The address space has one mapping, which is the last of its areas. -/
structure Mapping (me : SpaceId) (mf : MappedFile) (m : Memory) : Prop where
  files : (m.spaces me).mapped_files = [mf]
  last : mf.first_address + mf.size * PageSize = (m.spaces me).freePageId * PageSize
  aligned : PageSize ∣ mf.first_address

/-- The victim, up to the request that writes it to the file. -/
def Pc.emptying : Pc → Option Victim
  | .evictIo _ x => some x
  | .evictYield _ x => some x
  | .writeFile _ x _ _ => some x
  | _ => none

/-- The page that is written to the swap area. -/
def Pc.swapping : Pc → Option Victim
  | .writeSwap _ x _ _ _ => some x
  | .wroteSwap _ x _ _ _ => some x
  | _ => none

/-- The page that is read from the swap area. -/
def Pc.fetching : Pc → Option Fault
  | .addrIo q => some q
  | .addrYield q => some q
  | .readSwap q _ => some q
  | _ => none

/-- What a thread relies on at its place. -/
structure AtPlace (c : Contents) (me : SpaceId) (mf : MappedFile) (L : Nat) (m : Memory)
    (p : Pc) : Prop where
  owner : ∀ x, p.victim = some x → x.space = me ∧ x.vpn < (m.spaces me).freePageId
  emptying : ∀ x, p.emptying = some x → mf.Has x.vpn →
    Agrees c me mf L x.vpn (m.frame x.frame)
  swapping : ∀ x, p.swapping = some x → ¬ mf.Has x.vpn
  fetching : ∀ q, p.fetching = some q → ¬ mf.Has q.vpn
  buffer : ∀ q, p.buffered = some q → mf.Has q.vpn → Agrees c me mf L q.vpn q.buffer
  readFile : ∀ q f ad, p = .readFile q f ad → mf.Has q.vpn →
    f = mf.file ∧ ad = mf.offset q.vpn
  writeFile : ∀ q x f ad, p = .writeFile q x f ad →
    mf.Has x.vpn ∧ f = mf.file ∧ ad = mf.offset x.vpn
  destroys : ∀ b i, p.destroys = some (b, i) → b = me
  destroyWrite : ∀ b i f ad fr, p = .destroyWrite b i f ad fr →
    mf.Has i ∧ f = mf.file ∧ ad = mf.offset i ∧ (m.entry me i).valid = true ∧
      fr = (m.entry me i).physicalPage
  destroyWrote : ∀ b i, p = .destroyWrote b i →
    (m.entry me i).valid = true ∧ Agrees c me mf L i (m.filePage mf i)

structure MapInv (c : Contents) (me : SpaceId) (mf : MappedFile) (L : Nat) (s : System) :
    Prop where
  mapping : Mapping me mf s.memory
  entry : ∀ v, mf.Has v →
    (s.memory.entry me v).addrDisk = mf.offset v ∧ (s.memory.entry me v).swap = false
  only : ∀ b v, (s.memory.entry b v).valid = true → b = me
  length : (s.memory.files mf.file).length = L
  frame : ∀ v, mf.Has v → (s.memory.entry me v).valid = true →
    Agrees c me mf L v (s.memory.frame (s.memory.entry me v).physicalPage)
  clean : ∀ v, mf.Has v → (s.memory.entry me v).M = false →
    Agrees c me mf L v (s.memory.filePage mf v)
  written : ∀ v, mf.Has v → (s.memory.entry me v).valid = false →
    (∀ t p x, s.pc t = some p → p.emptying = some x → x.vpn ≠ v) →
      Agrees c me mf L v (s.memory.filePage mf v)
  place : ∀ t p, s.pc t = some p → AtPlace c me mf L s.memory p
  searching : ∀ t p, s.pc t = some p → p.searching → s.memory.free_page_list = []
  dead : s.memory.status me = .dead → ∀ v, mf.Has v → (s.memory.entry me v).valid = false

omit [VmConfig] in
theorem Pc.victim_of_emptying {p : Pc} {x : Victim} (h : p.emptying = some x) :
    p.victim = some x := by
  cases p with
  | evictIo | evictYield | writeFile => exact h
  | _ => exact nomatch h

theorem MapInv.mirrors {c : Contents} {me : SpaceId} {mf : MappedFile} {L : Nat} {s : System}
    (h : MapInv c me mf L s) (hd : s.memory.status me = .dead → ∀ t p, s.pc t = some p →
      p.emptying = none) : Mirrors c me mf L s where
  length := h.length
  loaded := h.frame
  stored v hv hvalid hnot := by
    refine h.written v hv hvalid fun t p x hp hx hne => hnot t ⟨x, ?_, ?_, hne⟩
    · rw [hp]
      exact Pc.victim_of_emptying hx
    · exact ((h.place t p hp).owner x (Pc.victim_of_emptying hx)).1
  ended hdead v hv := by
    refine h.written v hv (h.dead hdead v hv) fun t p x hp hx => ?_
    rw [hd hdead t p hp] at hx
    exact nomatch hx

section Mapping

variable {me : SpaceId} {mf : MappedFile} {m m' : Memory} {v : Nat}

/-- The pages before the mapping, and those in it. -/
theorem Mapping.has_iff (h : Mapping me mf m) (hv : v < (m.spaces me).freePageId) :
    mf.Has v ↔ (m.spaces me).findMappedFile (v * PageSize) = some mf.file := by
  have hend : v * PageSize < mf.first_address + mf.size * PageSize := by
    rw [h.last]
    exact Nat.mul_lt_mul_of_pos_right hv pageSize_pos
  unfold AddrSpace.findMappedFile MappedFile.Has
  rw [h.files, List.find?_cons]
  have hnext : mf.size * PageSize ≤ (mf.size + 1) * PageSize :=
    Nat.mul_le_mul_right _ (Nat.le_succ _)
  by_cases hle : mf.first_address ≤ v * PageSize
  · rw [decide_eq_true (show v * PageSize ≥ mf.first_address ∧
      v * PageSize < mf.first_address + (mf.size + 1) * PageSize from ⟨hle, by omega⟩)]
    simp [hle, hend]
  · rw [decide_eq_false fun hc => hle hc.1]
    simp [hle]

theorem Mapping.not_has (h : Mapping me mf m) (hv : v < (m.spaces me).freePageId)
    (hnot : ¬ mf.Has v) : (m.spaces me).findMappedFile (v * PageSize) = none := by
  have hne := mt (h.has_iff hv).mpr hnot
  unfold AddrSpace.findMappedFile at hne ⊢
  rw [h.files, List.find?_cons] at hne ⊢
  split at hne
  · exact absurd rfl hne
  · rfl

theorem Mapping.of_shape (h : Mapping me mf m) (hs : m'.shape = m.shape) : Mapping me mf m' where
  files := (mapped_files_of_shape hs me).trans h.files
  last := by
    rw [freePageId_of_shape hs]
    exact h.last
  aligned := h.aligned

/-- The pages of the mapping have places of their own in the file. -/
theorem offset_apart {v' i i' : Nat} (h : mf.Has v) (h' : mf.Has v') (hi : i < PageSize)
    (hi' : i' < PageSize) (heq : mf.offset v + i = mf.offset v' + i') : v = v' := by
  unfold MappedFile.offset at heq
  have hle := h.1
  have hle' := h'.1
  have hsum : v * PageSize + i = v' * PageSize + i' := by omega
  calc v = (v * PageSize + i) / PageSize := (page_of_address hi).1.symm
    _ = (v' * PageSize + i') / PageSize := by rw [hsum]
    _ = v' := (page_of_address hi').1

end Mapping

/-! ## Steps that are not about the mapping -/

section Keep

variable {c : Contents} {me : SpaceId} {mf : MappedFile} {L : Nat} {m m' m'' : Memory}
  {s : System} {p : Pc} {o : Option Pc}

/-- The pages of the mapping, the frames and the file are the same. -/
structure SameMapped (me : SpaceId) (mf : MappedFile) (m m' : Memory) : Prop where
  shape : m'.shape = m.shape
  main : m'.mainMemory = m.mainMemory
  file : m'.files mf.file = m.files mf.file
  valid : ∀ b v, (m'.entry b v).valid = (m.entry b v).valid
  entry : ∀ v, mf.Has v → (m'.entry me v).addrDisk = (m.entry me v).addrDisk ∧
    (m'.entry me v).swap = (m.entry me v).swap ∧ (m'.entry me v).M = (m.entry me v).M ∧
    (m'.entry me v).physicalPage = (m.entry me v).physicalPage

theorem SameMapped.refl (m : Memory) : SameMapped me mf m m :=
  ⟨rfl, rfl, rfl, fun _ _ => rfl, fun _ _ => ⟨rfl, rfl, rfl, rfl⟩⟩

theorem SameMapped.trans (h : SameMapped me mf m m') (h' : SameMapped me mf m' m'') :
    SameMapped me mf m m'' where
  shape := h'.shape.trans h.shape
  main := h'.main.trans h.main
  file := h'.file.trans h.file
  valid b v := (h'.valid b v).trans (h.valid b v)
  entry v hv := by
    obtain ⟨h1, h2, h3, h4⟩ := h.entry v hv
    obtain ⟨h1', h2', h3', h4'⟩ := h'.entry v hv
    exact ⟨h1'.trans h1, h2'.trans h2, h3'.trans h3, h4'.trans h4⟩

/-- The frames, the swap area and the status are not about the mapping. -/
theorem SameMapped.others (h : SameMapped me mf m m') {tpr : Nat → Frame} {list : List Nat}
    {i_clock : Int} {flags : Nat → Bool} {swap_disk : Nat → Page} {status : SpaceId → Status} :
    SameMapped me mf m ⟨tpr, list, i_clock, m'.mainMemory, flags, swap_disk, m'.spaces, status,
      m'.files⟩ :=
  ⟨h.shape, h.main, h.file, h.valid, h.entry⟩

/-- A bit that the mapping is not about. -/
theorem SameMapped.modifyEntry {b : SpaceId} {v : Nat} {f : PageTableEntry → PageTableEntry}
    (hf : ∀ e, (f e).valid = e.valid ∧ (f e).addrDisk = e.addrDisk ∧ (f e).swap = e.swap ∧
      (f e).M = e.M ∧ (f e).physicalPage = e.physicalPage) :
    SameMapped me mf m (m.modifyEntry b v f) where
  shape := modifyEntry_shape
  main := rfl
  file := rfl
  valid _ _ := Memory.field_modifyEntry PageTableEntry.valid fun e => (hf e).1
  entry _ _ := ⟨Memory.field_modifyEntry PageTableEntry.addrDisk fun e => (hf e).2.1,
    Memory.field_modifyEntry PageTableEntry.swap fun e => (hf e).2.2.1,
    Memory.field_modifyEntry PageTableEntry.M fun e => (hf e).2.2.2.1,
    Memory.field_modifyEntry PageTableEntry.physicalPage fun e => (hf e).2.2.2.2⟩

/-- The entry of another page. -/
theorem SameMapped.modifyOther {v : Nat} (hv : ¬ mf.Has v) {f : PageTableEntry → PageTableEntry}
    (hf : ∀ e, (f e).valid = e.valid) : SameMapped me mf m (m.modifyEntry me v f) where
  shape := modifyEntry_shape
  main := rfl
  file := rfl
  valid _ _ := Memory.field_modifyEntry PageTableEntry.valid hf
  entry v' hv' := by
    have hne : ¬ (me = me ∧ v' = v) := by
      rintro ⟨-, rfl⟩
      exact hv hv'
    rw [Memory.entry_modifyEntry, if_neg hne]
    exact ⟨rfl, rfl, rfl, rfl⟩

theorem SameMapped.size (h : SameMapped me mf m m') :
    (m'.spaces me).freePageId = (m.spaces me).freePageId :=
  freePageId_of_shape h.shape me

theorem SameMapped.frame (h : SameMapped me mf m m') (f : Nat) : m'.frame f = m.frame f := by
  unfold Memory.frame
  rw [h.main]

theorem SameMapped.filePage (h : SameMapped me mf m m') (v : Nat) :
    m'.filePage mf v = m.filePage mf v := by
  unfold Memory.filePage
  rw [h.file]

theorem AtPlace.same (h : AtPlace c me mf L m p) (hs : SameMapped me mf m m') :
    AtPlace c me mf L m' p where
  owner x hx := by
    rw [hs.size]
    exact h.owner x hx
  emptying x hx hv := by
    rw [hs.frame]
    exact h.emptying x hx hv
  swapping := h.swapping
  fetching := h.fetching
  buffer := h.buffer
  readFile := h.readFile
  writeFile := h.writeFile
  destroys := h.destroys
  destroyWrite b i f ad fr hp := by
    obtain ⟨hv, hf, had, hvalid, hfr⟩ := h.destroyWrite b i f ad fr hp
    exact ⟨hv, hf, had, (hs.valid _ _).trans hvalid, hfr.trans (hs.entry i hv).2.2.2.symm⟩
  destroyWrote b i hp := by
    obtain ⟨hvalid, hin⟩ := h.destroyWrote b i hp
    rw [hs.valid, hs.filePage]
    exact ⟨hvalid, hin⟩

/-- What a thread that destroys nothing relies on, is in the frame of its victim. -/
theorem AtPlace.other (h : AtPlace c me mf L m p) (hd : p.destroys = none)
    (hsize : (m'.spaces me).freePageId = (m.spaces me).freePageId)
    (hframe : ∀ x, p.emptying = some x → ∀ i < PageSize, m'.frame x.frame i = m.frame x.frame i) :
    AtPlace c me mf L m' p where
  owner x hx := by
    rw [hsize]
    exact h.owner x hx
  emptying x hx hv i hi hlt := by
    rw [hframe x hx i hi]
    exact h.emptying x hx hv i hi hlt
  swapping := h.swapping
  fetching := h.fetching
  buffer := h.buffer
  readFile := h.readFile
  writeFile := h.writeFile
  destroys := h.destroys
  destroyWrite b i f ad fr hp := by
    subst hp
    exact nomatch hd
  destroyWrote b i hp := by
    subst hp
    exact nomatch hd

/-- At a place of the page fault, before a frame is taken from another page. -/
theorem AtPlace.ofFault (hv : p.victim = none) (hd : p.destroys = none)
    (hf : ∀ q, p.fetching = some q → ¬ mf.Has q.vpn)
    (hb : ∀ q, p.buffered = some q → mf.Has q.vpn → Agrees c me mf L q.vpn q.buffer)
    (hr : ∀ q f ad, p = .readFile q f ad → mf.Has q.vpn → f = mf.file ∧ ad = mf.offset q.vpn) :
    AtPlace c me mf L m p where
  owner x hx := nomatch hv.symm.trans hx
  emptying x hx := nomatch hv.symm.trans (Pc.victim_of_emptying hx)
  swapping x hx := by
    cases p with
    | writeSwap | wroteSwap => exact nomatch hv
    | _ => exact nomatch hx
  fetching := hf
  buffer := hb
  readFile := hr
  writeFile q x f ad hp := by
    subst hp
    exact nomatch hv
  destroys b i hp := nomatch hd.symm.trans hp
  destroyWrite b i f ad fr hp := by
    subst hp
    exact nomatch hd
  destroyWrote b i hp := by
    subst hp
    exact nomatch hd

/-- At a place of the eviction. -/
theorem AtPlace.ofVictim {x : Victim} (hx : p.victim = some x)
    (howner : x.space = me ∧ x.vpn < (m.spaces me).freePageId)
    (he : p.emptying = some x → mf.Has x.vpn → Agrees c me mf L x.vpn (m.frame x.frame))
    (hs : p.swapping = some x → ¬ mf.Has x.vpn)
    (hb : ∀ q, p.buffered = some q → mf.Has q.vpn → Agrees c me mf L q.vpn q.buffer)
    (hw : ∀ q f ad, p = .writeFile q x f ad →
      mf.Has x.vpn ∧ f = mf.file ∧ ad = mf.offset x.vpn) :
    AtPlace c me mf L m p where
  owner y hy := by
    obtain rfl := Option.some.inj (hx.symm.trans hy)
    exact howner
  emptying y hy := by
    obtain rfl := Option.some.inj (hx.symm.trans (Pc.victim_of_emptying hy))
    exact he hy
  swapping y hy := by
    have hy' : p.victim = some y := by
      cases p with
      | writeSwap | wroteSwap => exact hy
      | _ => exact nomatch hy
    obtain rfl := Option.some.inj (hx.symm.trans hy')
    exact hs hy
  fetching q hq := by
    cases p with
    | addrIo | addrYield | readSwap => exact nomatch hx
    | _ => exact nomatch hq
  buffer := hb
  readFile q f ad hp := by
    subst hp
    exact nomatch hx
  writeFile q y f ad hp := by
    subst hp
    obtain rfl := Option.some.inj hx
    exact hw q f ad rfl
  destroys b i hd := by
    cases p with
    | destroyPage | destroyWrite | destroyWrote => exact nomatch hx
    | _ => exact nomatch hd
  destroyWrite b i f ad fr hp := by
    subst hp
    exact nomatch hx
  destroyWrote b i hp := by
    subst hp
    exact nomatch hx

/-- A step that is not about the mapping.  When the running thread lets go of its victim, the
    page is in the file. -/
theorem MapInv.keep (h : MapInv c me mf L s) (hs : SameMapped me mf s.memory m')
    (hplace : ∀ p ∈ o, AtPlace c me mf L s.memory p)
    (hgone : ∀ p x, s.pc s.current = some p → p.emptying = some x → o.bind Pc.emptying = some x ∨
      (mf.Has x.vpn → Agrees c me mf L x.vpn (s.memory.filePage mf x.vpn)))
    (hlist : (∃ t p, s.pc t = some p ∧ p.searching) → m'.free_page_list = [])
    (hsearch : ∀ p ∈ o, p.searching → m'.free_page_list = [])
    (hdead : m'.status me = .dead → ∀ v, mf.Has v → (s.memory.entry me v).valid = false) :
    MapInv c me mf L ⟨m', s.current, Function.update s.pc s.current o⟩ where
  mapping := h.mapping.of_shape hs.shape
  entry v hv := by
    obtain ⟨h1, h2, -, -⟩ := hs.entry v hv
    exact ⟨h1.trans (h.entry v hv).1, h2.trans (h.entry v hv).2⟩
  only b v hv := h.only b v ((hs.valid b v).symm.trans hv)
  length := (congrArg File.length hs.file).trans h.length
  frame v hv hvalid := by
    show Agrees c me mf L v (m'.frame (m'.entry me v).physicalPage)
    rw [hs.frame, (hs.entry v hv).2.2.2]
    exact h.frame v hv ((hs.valid me v).symm.trans hvalid)
  clean v hv hM := by
    show Agrees c me mf L v (m'.filePage mf v)
    rw [hs.filePage]
    exact h.clean v hv ((hs.entry v hv).2.2.1.symm.trans hM)
  written v hv hvalid hnot := by
    show Agrees c me mf L v (m'.filePage mf v)
    rw [hs.filePage]
    -- The page was on its way to the file, or nobody was emptying it.
    by_cases hcur : ∃ p x, s.pc s.current = some p ∧ p.emptying = some x ∧ x.vpn = v
    · obtain ⟨p, x, hp, hx, rfl⟩ := hcur
      rcases hgone p x hp hx with hstill | hin
      · obtain ⟨p', rfl, hp'⟩ := Option.bind_eq_some_iff.mp hstill
        exact absurd rfl (hnot s.current p' x (Function.update_self ..) hp')
      · exact hin hv
    · refine h.written v hv ((hs.valid me v).symm.trans hvalid) fun t p x hp hx hxv => ?_
      by_cases ht : t = s.current
      · exact hcur ⟨p, x, ht ▸ hp, hx, hxv⟩
      · exact hnot t p x ((Function.update_of_ne ht _ _).trans hp) hx hxv
  place t p hp := by
    dsimp only at hp
    rw [Function.update_apply] at hp
    split at hp
    · exact (hplace p hp).same hs
    · exact (h.place t p hp).same hs
  searching t p hp hsearching := by
    dsimp only at hp
    rw [Function.update_apply] at hp
    split at hp
    · exact hsearch p hp hsearching
    · exact hlist ⟨t, p, hp, hsearching⟩
  dead hd v hv := (hs.valid me v).trans (hdead hd v hv)

end Keep

/-! ## The other threads -/

section Others

variable {T : Threads} {c : Contents} {me : SpaceId} {mf : MappedFile} {L : Nat} {m' : Memory}
  {s : System} {p p' : Pc} {o : Option Pc} {t u : ThreadId}

/-- A thread in the handler: the process has not ended. -/
theorem live_of_handler (hi : Inv T s) (hone : ∀ t ∈ T.all, T.process t = me)
    (hp : s.pc t = some p) (hd : p.destroys = none) : s.memory.status me = .live := by
  have hlive := (hi.ok t p hp).live hd
  rwa [hone t (hi.places t p hp).1] at hlive

/-- While the process is destroyed, no other thread is in a routine. -/
theorem MapInv.idle (h : MapInv c me mf L s) (hi : Inv T s)
    (hone : ∀ t ∈ T.all, T.process t = me) (hp : s.pc t = some p) {y : SpaceId × Nat}
    (hd : p.destroys = some y) (hu : u ≠ t) : s.pc u = none := by
  obtain ⟨b, i⟩ := y
  obtain rfl := (h.place t p hp).destroys b i hd
  cases hpu : s.pc u with
  | none => rfl
  | some p' =>
    cases hd' : p'.destroys with
    | none =>
      have hlive := live_of_handler hi hone hpu hd'
      rw [((hi.ok t p hp).destroys b i hd).1] at hlive
      cases hlive
    | some y' =>
      obtain ⟨b', i'⟩ := y'
      obtain rfl := (h.place u p' hpu).destroys b' i' hd'
      exact absurd (hi.destroys u t b' (heldAt_of hpu ⟨i', hd'⟩) (heldAt_of hp ⟨i, hd⟩)) hu

theorem MapInv.noDestructor (h : MapInv c me mf L s) (hi : Inv T s)
    (hone : ∀ t ∈ T.all, T.process t = me) (hp : s.pc t = some p) (hd : p.destroys = none)
    (hpu : s.pc u = some p') : p'.destroys = none := by
  cases hd' : p'.destroys with
  | none => rfl
  | some y =>
    by_cases hut : t = u
    · subst hut
      obtain rfl := Option.some.inj (hp.symm.trans hpu)
      exact nomatch hd.symm.trans hd'
    · exact nomatch hp.symm.trans (h.idle hi hone hpu hd' hut)

omit [VmConfig] in
theorem Pc.frame_of_emptying {x : Victim} (h : p.emptying = some x) : p.frame = some x.frame := by
  cases p with
  | evictIo | evictYield | writeFile => exact congrArg (Option.map Victim.frame) h
  | _ => exact nomatch h

omit [VmConfig] in
theorem Pc.destroys_of_emptying {x : Victim} (h : p.emptying = some x) : p.destroys = none := by
  cases p with
  | evictIo | evictYield | writeFile => rfl
  | _ => exact nomatch h

/-- The page whose `io` bit a thread has set is not on its way to the file, but for the
    thread itself. -/
theorem emptying_of_io (hi : Inv T s) (hp : s.pc t = some p) {v : Nat}
    (hio : HoldsIo T t p (me, v)) (hpu : s.pc u = some p') {x : Victim}
    (hx : p'.emptying = some x) (hspace : x.space = me) (hv : x.vpn = v) :
    u = t ∧ p'.evicting = some (me, v) := by
  subst hspace hv
  have hset := (hi.ok t p hp).io _ hio
  cases p' with
  | evictIo q y =>
    obtain rfl := Option.some.inj hx
    have hclear := ((hi.ok u _ hpu).victim q y rfl).2
    exact nomatch hset.symm.trans hclear
  | evictYield q y => exact absurd rfl ((hi.ok u _ hpu).noYield q y)
  | writeFile q y f ad =>
    obtain rfl := Option.some.inj hx
    exact ⟨hi.io u t _ (heldAt_of hpu (Or.inr rfl)) (heldAt_of hp hio), rfl⟩
  | _ => exact nomatch hx

/-- A page that is being loaded is in the file. -/
theorem MapInv.loading (h : MapInv c me mf L s) (hi : Inv T s)
    (hone : ∀ t ∈ T.all, T.process t = me) (hp : s.pc t = some p) {v : Nat}
    (hl : p.loading = some v) (hd : p.destroys = none) (hv : mf.Has v) :
    (s.memory.entry me v).valid = false ∧ Agrees c me mf L v (s.memory.filePage mf v) := by
  have hme := hone t (hi.places t p hp).1
  have hio : HoldsIo T t p (me, v) := Or.inl ⟨hme.symm, hl⟩
  have hvalid : (s.memory.entry me v).valid = false :=
    hi.notValid hp (r := (me, v)) (by simp [live_of_handler hi hone hp hd]) hio
  refine ⟨hvalid, h.written v hv hvalid fun u p' x hpu hx hxv => ?_⟩
  have hspace := ((h.place u p' hpu).owner x (Pc.victim_of_emptying hx)).1
  obtain ⟨rfl, hev⟩ := emptying_of_io hi hp hio hpu hx hspace hxv
  obtain rfl := Option.some.inj (hp.symm.trans hpu)
  exact (hi.ok u p hp).apart v _ hl hev (by rw [hme])

end Others

/-! ## The steps of `PageFault` and `EvictPage` -/

section Steps

variable {T : Threads} {c : Contents} {me : SpaceId} {mf : MappedFile} {L : Nat} {m m' : Memory}
  {s : System} {p : Pc} {o : Option Pc} {q : Fault} {x : Victim}

/-- A step of the handler that is not about the mapping. -/
theorem MapInv.go (h : MapInv c me mf L s) (hi : Inv T s)
    (hone : ∀ t ∈ T.all, T.process t = me) (hp : s.pc s.current = some p)
    (hd : p.destroys = none) (hr : Next me s.memory p m' o) (hs : SameMapped me mf s.memory m')
    (hplace : ∀ p ∈ o, AtPlace c me mf L s.memory p)
    (hgone : ∀ x, p.emptying = some x → o.bind Pc.emptying = some x ∨
      (mf.Has x.vpn → Agrees c me mf L x.vpn (s.memory.filePage mf x.vpn))) :
    MapInv c me mf L ⟨m', s.current, Function.update s.pc s.current o⟩ := by
  obtain ⟨hlist, hnew⟩ := next_full hr hd (h.searching _ p hp)
  refine h.keep hs hplace (fun p' x hp' hx => ?_) ?_ (fun p' hp' => (hnew p' hp').2) fun hdead => ?_
  · obtain rfl := Option.some.inj (hp.symm.trans hp')
    exact hgone x hx
  · rintro ⟨t, p', hp', hsearching⟩
    exact hlist (h.searching t p' hp' hsearching)
  · rw [next_status hr hd, live_of_handler hi hone hp hd] at hdead
    cases hdead

/-- What a step of the handler leaves the threads. -/
structure Left (c : Contents) (me : SpaceId) (mf : MappedFile) (L : Nat) (s : System) :
    Prop where
  mapping : Mapping me mf s.memory
  place : ∀ t p, s.pc t = some p → AtPlace c me mf L s.memory p
  searching : ∀ t p, s.pc t = some p → p.searching → s.memory.free_page_list = []
  dead : s.memory.status me = .dead → ∀ v, mf.Has v → (s.memory.entry me v).valid = false

/-- A step of the handler that keeps the frames of the other victims. -/
theorem MapInv.left (h : MapInv c me mf L s) (hi : Inv T s)
    (hone : ∀ t ∈ T.all, T.process t = me) (hp : s.pc s.current = some p)
    (hd : p.destroys = none) (hr : Next me s.memory p m' o)
    (hplace : ∀ p ∈ o, AtPlace c me mf L m' p)
    (hframe : ∀ t p' x, t ≠ s.current → s.pc t = some p' → p'.emptying = some x →
      ∀ i < PageSize, m'.frame x.frame i = s.memory.frame x.frame i) :
    Left c me mf L ⟨m', s.current, Function.update s.pc s.current o⟩ where
  mapping := h.mapping.of_shape (next_shape hr)
  place t p' hpt := by
    dsimp only at hpt
    rw [Function.update_apply] at hpt
    split at hpt
    · exact hplace p' hpt
    · rename_i ht
      exact (h.place t p' hpt).other (h.noDestructor hi hone hp hd hpt)
        (next_size hr me) fun x hx => hframe t p' x ht hpt hx
  searching t p' hpt hsearching := by
    obtain ⟨hlist, hnew⟩ := next_full hr hd (h.searching _ p hp)
    dsimp only at hpt
    rw [Function.update_apply] at hpt
    split at hpt
    · exact (hnew p' hpt).2 hsearching
    · exact hlist (h.searching t p' hpt hsearching)
  dead hdead := by
    dsimp only at hdead
    rw [next_status hr hd, live_of_handler hi hone hp hd] at hdead
    cases hdead

omit [VmConfig] in
/-- Nobody is emptying the page after the step who was not before. -/
theorem emptying_before {v : Nat} (hp : s.pc s.current = some p)
    (hv : ∀ x, p.emptying = some x → x.vpn ≠ v)
    (hnot : ∀ t p x, Function.update s.pc s.current o t = some p → p.emptying = some x →
      x.vpn ≠ v) : ∀ t p x, s.pc t = some p → p.emptying = some x → x.vpn ≠ v := by
  intro t p' x hpt hx
  by_cases ht : t = s.current
  · subst ht
    obtain rfl := Option.some.inj (hp.symm.trans hpt)
    exact hv x hx
  · exact hnot t p' x ((Function.update_of_ne ht _ _).trans hpt) hx

/-- To a place where only the buffer is of interest. -/
theorem MapInv.goOn (h : MapInv c me mf L s) (hi : Inv T s)
    (hone : ∀ t ∈ T.all, T.process t = me) (hp : s.pc s.current = some p)
    (hd : p.destroys = none) {p' : Pc} (hr : Next me s.memory p m' (some p'))
    (hs : SameMapped me mf s.memory m') (hplace : AtPlace c me mf L s.memory p')
    (hgone : p.emptying = none) :
    MapInv c me mf L ⟨m', s.current, Function.update s.pc s.current (some p')⟩ := by
  refine h.go hi hone hp hd hr hs (fun p'' hp'' => ?_) fun x hx => nomatch hgone.symm.trans hx
  obtain rfl := Option.some.inj hp''
  exact hplace

/-- `setBitIo` of `PageFault`, and where the page comes from. -/
theorem AtPlace.load (hm : Mapping me mf m)
    (hentry : mf.Has q.vpn → (m.entry me q.vpn).addrDisk = mf.offset q.vpn)
    (hlt : q.vpn < (m.spaces me).freePageId) :
    AtPlace c me mf L m (Vm.load me (m.modifyEntry me q.vpn .setBitIo) q) := by
  by_cases hv : mf.Has q.vpn
  · rw [load_mapped ((hm.has_iff hlt).mp hv)]
    refine AtPlace.ofFault rfl rfl nofun nofun fun q' f ad hp _ => ?_
    obtain ⟨rfl, rfl, rfl⟩ := Pc.readFile.inj hp
    exact ⟨rfl, hentry hv⟩
  · -- The page is not of the mapping, whatever place it comes from.
    rcases load_cases me (m.modifyEntry me q.vpn .setBitIo) q with ⟨f, ad, hc⟩ | hc | hc
    · rw [hc]
      refine AtPlace.ofFault rfl rfl nofun nofun fun q' f' ad' hp hv' => ?_
      obtain ⟨rfl, -, -⟩ := Pc.readFile.inj hp
      exact absurd hv' hv
    · rw [hc]
      refine AtPlace.ofFault rfl rfl (fun q' hq => ?_) nofun nofun
      obtain rfl := Option.some.inj hq
      exact hv
    · rw [hc]
      refine AtPlace.ofFault rfl rfl nofun (fun q' hq hv' => ?_) nofun
      obtain rfl := Option.some.inj hq
      exact absurd hv' hv

/-- `OpenFile::ReadAt` finds the bytes of the page. -/
theorem agrees_readAt {v : Nat} (hlen : (m.files mf.file).length = L)
    (h : Agrees c me mf L v (m.filePage mf v)) (buffer : Page) :
    Agrees c me mf L v ((m.files mf.file).readAt buffer (mf.offset v)) := by
  intro i hi hlt
  rw [h i hi hlt]
  unfold File.readAt Memory.filePage
  rw [if_pos ⟨hi, by rw [hlen]; exact hlt⟩]

/-- The end of `PageFault`. -/
theorem MapInv.finish {f : Nat} (h : MapInv c me mf L s) (hi : Inv T s)
    (hone : ∀ t ∈ T.all, T.process t = me) (hp : s.pc s.current = some (.mapped q f))
    (hr : Next me s.memory (.mapped q f) m' none)
    (hm' : m' = ((s.memory.fill f q.buffer).modifyEntry me q.vpn (.loaded f)).modifyFrame f
      fun fr => { fr with locked := false }) :
    MapInv c me mf L ⟨m', s.current, Function.update s.pc s.current none⟩ := by
  have hshape := next_shape hr
  have hlive := live_of_handler hi hone hp rfl
  have hentry : ∀ b v, m'.entry b v =
      if b = me ∧ v = q.vpn then (s.memory.entry me q.vpn).loaded f else s.memory.entry b v := by
    subst hm'
    exact fun b v => Memory.entry_modifyEntry (m := s.memory.fill f q.buffer) (.loaded f)
  have hfill : ∀ p i, i < PageSize →
      m'.frame p i = if p = f then q.buffer i else s.memory.frame p i := by
    subst hm'
    exact fun p i hi => frame_fill hi
  have hfile : m'.files = s.memory.files := by subst hm'; rfl
  have hfilePage : ∀ v, m'.filePage mf v = s.memory.filePage mf v := fun v => by
    unfold Memory.filePage
    rw [hfile]
  have hlocked := ((hi.ok _ _ hp).frame f rfl).2.2
  -- The page that has been loaded is in the file.
  have hq := fun hv => h.loading hi hone hp (v := q.vpn) rfl rfl hv
  have hleft := h.left hi hone hp rfl hr nofun fun t p x ht hpt hx i hi' => by
    rw [hfill _ i hi', if_neg]
    rintro rfl
    exact ht (hi.frame t s.current _ (heldAt_of hpt (Pc.frame_of_emptying hx)) (heldAt_of hp rfl))
  exact {
    mapping := hleft.mapping
    entry := by
      intro v hv
      rw [hentry]
      split
      · rename_i he
        obtain rfl := he.2
        exact h.entry _ hv
      · exact h.entry v hv
    only := by
      intro b v hvalid
      rw [hentry] at hvalid
      split at hvalid
      · rename_i he
        exact he.1
      · exact h.only b v hvalid
    length := by
      rw [hfile]
      exact h.length
    frame := by
      intro v hv hvalid i hi' hlt
      dsimp only at hvalid ⊢
      rw [hentry] at hvalid ⊢
      rw [hfill _ i hi']
      split at hvalid
      · rename_i he
        obtain rfl := he.2
        rw [if_pos he, if_pos (show ((s.memory.entry me q.vpn).loaded f).physicalPage = f from rfl)]
        exact (h.place _ _ hp).buffer q rfl hv i hi' hlt
      · rename_i he
        rw [if_neg he, if_neg]
        · exact h.frame v hv hvalid i hi' hlt
        · -- A frame that is locked is not the frame of a valid page.
          intro hpage
          obtain ⟨-, -, -, htpr⟩ := hi.frames.valid me v (by simp [hlive]) hvalid
          rw [hpage] at htpr
          rw [htpr] at hlocked
          cases hlocked
    clean := by
      intro v hv hM
      show Agrees c me mf L v (m'.filePage mf v)
      rw [hfilePage]
      by_cases he : v = q.vpn
      · subst he
        exact (hq hv).2
      · dsimp only at hM
        rw [hentry, if_neg fun h => he h.2] at hM
        exact h.clean v hv hM
    written := by
      intro v hv hvalid hnot
      show Agrees c me mf L v (m'.filePage mf v)
      rw [hfilePage]
      dsimp only at hvalid
      rw [hentry] at hvalid
      split at hvalid
      · cases hvalid
      · exact h.written v hv hvalid (emptying_before hp (fun _ h' => by cases h') hnot)
    place := hleft.place
    searching := hleft.searching
    dead := hleft.dead }

/-- The clock takes a frame from its page. -/
theorem MapInv.found {loc i : Nat} {b : SpaceId} (h : MapInv c me mf L s) (hi : Inv T s)
    (hone : ∀ t ∈ T.all, T.process t = me) (hclock : ClockOk s) (hcareful : Careful s .advance)
    (hp : s.pc s.current = some (.search q loc i)) (hb : (s.memory.tpr loc).owner = some b)
    (hbusy : s.memory.busy loc b = false)
    (hr : Next me s.memory (.search q loc i) m'
      (some (.evictIo q ⟨loc, b, (s.memory.tpr loc).virtualPage⟩)))
    (hm' : m' = { s.memory.modifyEntry b (s.memory.tpr loc).virtualPage .clearBitValid with
      i_clock := loc }.modifyFrame loc fun fr => { fr with locked := true }) :
    MapInv c me mf L ⟨m', s.current, Function.update s.pc s.current
      (some (.evictIo q ⟨loc, b, (s.memory.tpr loc).virtualPage⟩))⟩ := by
  have hfree := (hcareful rfl).2 _ _ _ _ hp hb hbusy
  simp only [Memory.busy, Bool.or_eq_false_iff] at hbusy
  obtain ⟨b', hb', hdead, hvalid, hpage⟩ :=
    hi.frames.used loc (hclock _ _ _ _ hp) hfree hbusy.2
  obtain rfl := Option.some.inj (hb.symm.trans hb')
  obtain rfl := h.only _ _ hvalid
  generalize (s.memory.tpr loc).virtualPage = w at *
  have hbound := (hi.frames.valid _ _ hdead hvalid).1
  have hentry : ∀ b' v', m'.entry b' v' =
      if b' = b ∧ v' = w then (s.memory.entry b w).clearBitValid else s.memory.entry b' v' := by
    subst hm'
    exact fun b' v' => Memory.entry_modifyEntry (m := s.memory) .clearBitValid
  -- The fields but the `valid` bit.
  have hfield : ∀ {α : Type} (g : PageTableEntry → α), (∀ e, g e.clearBitValid = g e) →
      ∀ b' v', g (m'.entry b' v') = g (s.memory.entry b' v') := by
    subst hm'
    exact fun g hg b' v' => Memory.field_modifyEntry (m := s.memory) g hg
  have hframe : ∀ f, m'.frame f = s.memory.frame f := by
    subst hm'
    exact fun _ => rfl
  have hfilePage : ∀ v, m'.filePage mf v = s.memory.filePage mf v := by
    subst hm'
    exact fun _ => rfl
  have hsize := next_size hr b
  have hleft := h.left hi hone hp rfl hr (fun p' hp' => by
    obtain rfl := Option.some.inj hp'
    refine AtPlace.ofVictim rfl ⟨rfl, hbound.trans_eq hsize.symm⟩ (fun _ hv => ?_)
      (fun h' => by cases h') (h.place _ _ hp).buffer fun _ _ _ h' => by cases h'
    rw [hframe]
    have hin := h.frame w hv hvalid
    rwa [hpage] at hin) fun t p' x _ _ _ i _ => by rw [hframe]
  exact {
    mapping := hleft.mapping
    entry := by
      intro v hv
      rw [hfield PageTableEntry.addrDisk fun _ => rfl, hfield PageTableEntry.swap fun _ => rfl]
      exact h.entry v hv
    only := by
      intro b' v hv
      rw [hentry] at hv
      split at hv
      · cases hv
      · exact h.only b' v hv
    length := by
      subst hm'
      exact h.length
    frame := by
      intro v hv hvalid'
      dsimp only at hvalid' ⊢
      rw [hfield PageTableEntry.physicalPage fun _ => rfl, hframe]
      rw [hentry] at hvalid'
      split at hvalid'
      · cases hvalid'
      · exact h.frame v hv hvalid'
    clean := by
      intro v hv hM
      dsimp only at hM ⊢
      rw [hfield PageTableEntry.M fun _ => rfl] at hM
      rw [hfilePage]
      exact h.clean v hv hM
    written := by
      intro v hv hvalid' hnot
      dsimp only at hvalid' ⊢
      rw [hfilePage]
      by_cases he : v = w
      · subst he
        exact absurd rfl (hnot s.current _ _ (Function.update_self ..) rfl)
      · rw [hentry, if_neg fun h => he h.2] at hvalid'
        exact h.written v hv hvalid' (emptying_before hp (fun _ h' => by cases h') hnot)
    place := hleft.place
    searching := hleft.searching
    dead := hleft.dead }

theorem sameMapped_takeOver (q : Fault) (x : Victim) :
    SameMapped me mf m (m.takeOver me q x) :=
  (SameMapped.modifyEntry (f := .clearBitIo) fun _ => ⟨rfl, rfl, rfl, rfl, rfl⟩).others

/-- A page that is not of the mapping goes to the swap area. -/
theorem sameMapped_swapOut (hx : x.space = me) (hv : ¬ mf.Has x.vpn) (n : Int) (fresh : Bool) :
    SameMapped me mf m (swapOut me m q x n fresh).1 := by
  subst hx
  have hhide : SameMapped x.space mf m (m.modifyEntry x.space x.vpn (.setAddrDisk (-1))) :=
    SameMapped.modifyOther hv fun _ => rfl
  have hput : SameMapped x.space mf m
      ((m.modifyEntry x.space x.vpn (.setAddrDisk (-1))).PutPageSwap n).1 := by
    unfold Memory.PutPageSwap
    split
    · exact hhide
    · split
      · exact hhide.others
      · exact hhide
  unfold swapOut
  dsimp only
  split
  · rename_i heq
    rw [heq] at hput
    exact hput
  · rename_i heq
    rw [heq] at hput
    refine (hput.trans (SameMapped.modifyOther hv fun e => ?_)).trans (sameMapped_takeOver q x)
    cases fresh
    · rfl
    · rfl

omit [VmConfig] in
theorem swapOut_place (me : SpaceId) (m : Memory) (q : Fault) (x : Victim) (n : Int)
    (fresh : Bool) :
    (swapOut me m q x n fresh).2 = .mapped q x.frame ∨
      ∃ sector ad, (swapOut me m q x n fresh).2 = .writeSwap q x sector ad fresh := by
  unfold swapOut
  dsimp only
  split
  · exact Or.inr ⟨_, _, rfl⟩
  · exact Or.inl rfl

/-- `EvictPage` from `setBitIo` on. -/
theorem MapInv.evict (h : MapInv c me mf L s) (hi : Inv T s)
    (hone : ∀ t ∈ T.all, T.process t = me) (hp : s.pc s.current = some (.evictIo q x))
    (hr : Next me s.memory (.evictIo q x)
      (Vm.evict me (s.memory.modifyEntry x.space x.vpn .setBitIo) q x).1
      (some (Vm.evict me (s.memory.modifyEntry x.space x.vpn .setBitIo) q x).2)) :
    MapInv c me mf L ⟨(Vm.evict me (s.memory.modifyEntry x.space x.vpn .setBitIo) q x).1,
      s.current, Function.update s.pc s.current
        (some (Vm.evict me (s.memory.modifyEntry x.space x.vpn .setBitIo) q x).2)⟩ := by
  have hplace := h.place _ _ hp
  obtain ⟨hspace, hbound⟩ := hplace.owner x rfl
  have hset : SameMapped me mf s.memory (s.memory.modifyEntry x.space x.vpn .setBitIo) :=
    SameMapped.modifyEntry fun _ => ⟨rfl, rfl, rfl, rfl, rfl⟩
  have hmapping := h.mapping.of_shape hset.shape
  have hbound' := hbound.trans_eq hset.size.symm
  have hmapped : AtPlace c me mf L s.memory (.mapped q x.frame) :=
    AtPlace.ofFault rfl rfl nofun hplace.buffer nofun
  -- A page of the mapping goes to the file if it is modified, and another page never does.
  by_cases hv : mf.Has x.vpn
  · have hfound := (hmapping.has_iff hbound').mp hv
    have hentry := hset.entry x.vpn hv
    cases hM : (s.memory.entry me x.vpn).M with
    | true =>
      have he : Vm.evict me (s.memory.modifyEntry x.space x.vpn .setBitIo) q x =
          (s.memory.modifyEntry x.space x.vpn .setBitIo,
            .writeFile q x mf.file (s.memory.entry me x.vpn).addrDisk) := by
        unfold Vm.evict
        dsimp only
        rw [hfound]
        dsimp only
        rw [hspace] at hentry ⊢
        rw [if_pos (hentry.2.2.1.trans hM), hentry.1]
      rw [he] at hr ⊢
      refine h.go hi hone hp rfl hr hset (fun p' hp' => ?_) fun y hy => Or.inl hy
      obtain rfl := Option.some.inj hp'
      refine AtPlace.ofVictim rfl ⟨hspace, hbound⟩ (fun _ => hplace.emptying x rfl) nofun
        hplace.buffer fun q' f ad hw => ?_
      obtain ⟨rfl, -, rfl, rfl⟩ := Pc.writeFile.inj hw
      exact ⟨hv, rfl, (h.entry _ hv).1⟩
    | false =>
      have he : Vm.evict me (s.memory.modifyEntry x.space x.vpn .setBitIo) q x =
          ((s.memory.modifyEntry x.space x.vpn .setBitIo).takeOver me q x, .mapped q x.frame) := by
        have hM' : ((s.memory.modifyEntry x.space x.vpn .setBitIo).entry x.space x.vpn).M =
            false := by
          rw [hspace] at hentry ⊢
          exact hentry.2.2.1.trans hM
        unfold Vm.evict
        dsimp only
        rw [hfound]
        dsimp only
        rw [if_neg (Bool.eq_false_iff.mp hM')]
      rw [he] at hr ⊢
      refine h.go hi hone hp rfl hr (hset.trans (sameMapped_takeOver q x)) (fun p' hp' => ?_)
        fun y hy => ?_
      · obtain rfl := Option.some.inj hp'
        exact hmapped
      · -- The page has not been modified since it was read.
        obtain rfl := Option.some.inj hy
        exact Or.inr fun _ => h.clean _ hv hM
  · have hfound := hmapping.not_has hbound' hv
    -- Neither way of swapping touches the mapping.
    have hsame : SameMapped me mf s.memory
        (Vm.evict me (s.memory.modifyEntry x.space x.vpn .setBitIo) q x).1 ∧
        AtPlace c me mf L s.memory
          (Vm.evict me (s.memory.modifyEntry x.space x.vpn .setBitIo) q x).2 := by
      have hout : ∀ n fresh, SameMapped me mf s.memory
            (swapOut me (s.memory.modifyEntry x.space x.vpn .setBitIo) q x n fresh).1 ∧
          AtPlace c me mf L s.memory
            (swapOut me (s.memory.modifyEntry x.space x.vpn .setBitIo) q x n fresh).2 := by
        intro n fresh
        refine ⟨hset.trans (sameMapped_swapOut hspace hv n fresh), ?_⟩
        rcases swapOut_place me (s.memory.modifyEntry x.space x.vpn .setBitIo) q x n fresh with
          he | ⟨sector, ad, he⟩
        · rw [he]
          exact hmapped
        · rw [he]
          exact AtPlace.ofVictim rfl ⟨hspace, hbound⟩ nofun (fun _ => hv) hplace.buffer nofun
      unfold Vm.evict
      dsimp only
      rw [hfound]
      dsimp only
      split
      · split
        · exact hout _ _
        · exact ⟨hset.trans (sameMapped_takeOver q x), hmapped⟩
      · exact hout _ _
    refine h.go hi hone hp rfl hr hsame.1 (fun p' hp' => ?_) fun y hy => ?_
    · obtain rfl := Option.some.inj hp'
      exact hsame.2
    · obtain rfl := Option.some.inj hy
      exact Or.inr fun hv' => absurd hv' hv

/-! ## The pages that are written back -/

/-- The file after a page of the mapping has been written to its place: it has its length,
    and the bytes of the page. -/
theorem filePage_write {f : File} {v : Nat} (data : Page) (hv : mf.Has v)
    (hlen : f.length = L)
    (hext : ¬ (mf.offset v ≤ L ∧ L < mf.offset v + PageSize ∧
      mf.offset v + PageSize ≤ max L f.maxLength)) :
    (f.writeAt data (mf.offset v)).length = L ∧
      (∀ i < PageSize, mf.offset v + i < L →
        (f.writeAt data (mf.offset v)).bytes (mf.offset v + i) = data i) ∧
      ∀ v', mf.Has v' → v' ≠ v → ∀ i < PageSize,
        (f.writeAt data (mf.offset v)).bytes (mf.offset v' + i) = f.bytes (mf.offset v' + i) := by
  subst hlen
  have hnum : f.numBytes (mf.offset v) = PageSize ∨
      f.numBytes (mf.offset v) = f.length - mf.offset v ∧ f.length < mf.offset v + PageSize := by
    unfold File.numBytes
    split
    · exact Or.inl rfl
    · exact Or.inr ⟨rfl, by omega⟩
  refine ⟨?_, fun i hi hlt => ?_, fun v' hv' hne i hi => ?_⟩
  · rw [File.length_writeAt]
    split
    · omega
    · rfl
  · rw [File.bytes_writeAt, if_pos, Nat.add_sub_cancel_left]
    exact ⟨by omega, by omega, by omega⟩
  · rw [File.bytes_writeAt, if_neg]
    rintro ⟨-, hle, hlt⟩
    -- It would be a byte of the page that is written.
    have hj : mf.offset v' + i - mf.offset v < PageSize := by omega
    exact hne (offset_apart hv' hv hi hj (by omega))

/-- A page of the mapping is written back from a frame that has its bytes. -/
theorem MapInv.write {v fr : Nat} {ad : Int} (h : MapInv c me mf L s)
    (hp : s.pc s.current = some p) (hv : mf.Has v) (had : ad = mf.offset v)
    (hw : p.writes = some (mf.file, ad)) (hext : ¬ Extends mf s .advance)
    (hdata : Agrees c me mf L v (s.memory.frame fr))
    (hm' : m' = { s.memory with
      files := Function.update s.memory.files mf.file
        ((s.memory.files mf.file).writeAt (s.memory.frame fr) ad.toNat) }) {p' : Pc}
    (hgone : ∀ x, p.emptying = some x → x.vpn = v)
    (hleft : Agrees c me mf L v (m'.filePage mf v) →
      Left c me mf L ⟨m', s.current, Function.update s.pc s.current (some p')⟩) :
    MapInv c me mf L ⟨m', s.current, Function.update s.pc s.current (some p')⟩ := by
  subst had
  have hfits : ¬ (mf.offset v ≤ L ∧ L < mf.offset v + PageSize ∧
      mf.offset v + PageSize ≤ max L (s.memory.files mf.file).maxLength) := by
    rintro ⟨h1, h2, h3⟩
    refine hext ⟨rfl, p, _, hp, hw, Int.natCast_nonneg _, ?_⟩
    dsimp only
    rw [h.length, Int.toNat_natCast]
    exact ⟨h1, h2, h3⟩
  obtain ⟨hlen, hin, hother⟩ := filePage_write (s.memory.frame fr) hv h.length hfits
  have hfile : m'.files mf.file =
      (s.memory.files mf.file).writeAt (s.memory.frame fr) (mf.offset v) := by
    subst hm'
    exact (Function.update_self ..).trans (by rw [Int.toNat_natCast])
  have hentry : ∀ b w, m'.entry b w = s.memory.entry b w := by
    subst hm'
    exact fun _ _ => rfl
  have hframe : ∀ f, m'.frame f = s.memory.frame f := by
    subst hm'
    exact fun _ => rfl
  -- The page is in the file now, and the others that were still are.
  have hnew : Agrees c me mf L v (m'.filePage mf v) := by
    intro i hi hlt
    unfold Memory.filePage
    rw [hfile, hin i hi hlt]
    exact hdata i hi hlt
  have hold : ∀ w, mf.Has w → w ≠ v → Agrees c me mf L w (s.memory.filePage mf w) →
      Agrees c me mf L w (m'.filePage mf w) := by
    intro w hw' hne hagrees i hi hlt
    unfold Memory.filePage
    rw [hfile, hother w hw' hne i hi]
    exact hagrees i hi hlt
  have hleft := hleft hnew
  exact {
    mapping := hleft.mapping
    entry := by
      intro w hw'
      rw [hentry]
      exact h.entry w hw'
    only := by
      intro b w hvalid
      rw [hentry] at hvalid
      exact h.only b w hvalid
    length := by
      dsimp only
      rw [hfile]
      exact hlen
    frame := by
      intro w hw' hvalid
      dsimp only at hvalid ⊢
      rw [hentry] at hvalid ⊢
      rw [hframe]
      exact h.frame w hw' hvalid
    clean := by
      intro w hw' hM
      dsimp only at hM ⊢
      rw [hentry] at hM
      by_cases hwv : w = v
      · exact hwv ▸ hnew
      · exact hold w hw' hwv (h.clean w hw' hM)
    written := by
      intro w hw' hvalid hnot
      dsimp only at hvalid ⊢
      rw [hentry] at hvalid
      by_cases hwv : w = v
      · exact hwv ▸ hnew
      · refine hold w hw' hwv (h.written w hw' hvalid
          (emptying_before hp (fun x hx hxw => ?_) hnot))
        exact hwv (hxw.symm.trans (hgone x hx))
    place := hleft.place
    searching := hleft.searching
    dead := hleft.dead }

theorem MapInv.writeFile {f : FileId} {ad : Int} (h : MapInv c me mf L s) (hi : Inv T s)
    (hone : ∀ t ∈ T.all, T.process t = me) (hp : s.pc s.current = some (.writeFile q x f ad))
    (hext : ¬ Extends mf s .advance)
    (hr : Next me s.memory (.writeFile q x f ad) { s.memory with
      files := Function.update s.memory.files f
        ((s.memory.files f).writeAt (s.memory.frame x.frame) ad.toNat) } (some (.wroteFile q x))) :
    MapInv c me mf L ⟨{ s.memory with
      files := Function.update s.memory.files f
        ((s.memory.files f).writeAt (s.memory.frame x.frame) ad.toNat) },
      s.current, Function.update s.pc s.current (some (.wroteFile q x))⟩ := by
  have hplace := h.place _ _ hp
  obtain ⟨hv, rfl, had⟩ := hplace.writeFile q x f ad rfl
  refine h.write hp hv had rfl hext (hplace.emptying x rfl hv) rfl
    (fun y hy => congrArg Victim.vpn (Option.some.inj hy).symm) fun _ => ?_
  refine h.left hi hone hp rfl hr (fun p' hp' => ?_) fun _ _ _ _ _ _ _ _ => rfl
  obtain rfl := Option.some.inj hp'
  exact AtPlace.ofVictim rfl (hplace.owner x rfl) nofun nofun hplace.buffer nofun

/-! ## The steps of `~AddrSpace` -/

omit [VmConfig] in
theorem Pc.searching_of_destroys {y : SpaceId × Nat} (h : p.destroys = some y) :
    p.searching = false := by
  cases p with
  | destroyPage | destroyWrite | destroyWrote => rfl
  | _ => exact nomatch h

omit [VmConfig] in
theorem Pc.emptying_of_destroys {y : SpaceId × Nat} (h : p.destroys = some y) :
    p.emptying = none := by
  cases p with
  | destroyPage | destroyWrite | destroyWrote => rfl
  | _ => exact nomatch h

/-- A place of the destructor, where nothing is to be written. -/
theorem AtPlace.destroyPage (i : Nat) : AtPlace c me mf L m (.destroyPage me i) where
  owner := nofun
  emptying := nofun
  swapping := nofun
  fetching := nofun
  buffer := nofun
  readFile := nofun
  writeFile := nofun
  destroys _ _ hd := (Prod.mk.inj (Option.some.inj hd)).1.symm
  destroyWrite := nofun
  destroyWrote := nofun

/-- No other thread is in a routine, so that none relies on anything. -/
theorem MapInv.alone (h : MapInv c me mf L s) (hi : Inv T s)
    (hone : ∀ t ∈ T.all, T.process t = me) (hp : s.pc s.current = some p) {y : SpaceId × Nat}
    (hd : p.destroys = some y) {t : ThreadId} {p' : Pc}
    (hpt : Function.update s.pc s.current o t = some p') : t = s.current ∧ o = some p' := by
  by_cases ht : t = s.current
  · subst ht
    rw [Function.update_self] at hpt
    exact ⟨rfl, hpt⟩
  · rw [Function.update_of_ne ht, h.idle hi hone hp hd ht] at hpt
    cases hpt

/-- A step of the destructor that is not about the mapping. -/
theorem MapInv.destroying (h : MapInv c me mf L s) (hi : Inv T s)
    (hone : ∀ t ∈ T.all, T.process t = me) (hp : s.pc s.current = some p) {y : SpaceId × Nat}
    (hd : p.destroys = some y) (hs : SameMapped me mf s.memory m')
    (hplace : ∀ p ∈ o, AtPlace c me mf L s.memory p ∧ p.searching = false)
    (hdead : m'.status me = .dead → ∀ v, mf.Has v → (s.memory.entry me v).valid = false) :
    MapInv c me mf L ⟨m', s.current, Function.update s.pc s.current o⟩ := by
  refine h.keep hs (fun p hp => (hplace p hp).1) (fun p' x hp' hx => ?_) ?_
    (fun p hp hsearching => ?_) hdead
  · obtain rfl := Option.some.inj (hp.symm.trans hp')
    exact nomatch (Pc.emptying_of_destroys hd).symm.trans hx
  · rintro ⟨t, p', hp', hsearching⟩
    by_cases ht : t = s.current
    · subst ht
      obtain rfl := Option.some.inj (hp.symm.trans hp')
      exact nomatch (Pc.searching_of_destroys hd).symm.trans hsearching
    · exact nomatch (h.idle hi hone hp hd ht).symm.trans hp'
  · exact nomatch (hplace p hp).2.symm.trans hsearching

omit [VmConfig] in
theorem releasePageSwap_eq {b : SpaceId} {i : Nat} :
    ∃ flags, m.ReleasePageSwap b i = { m with page_flags := flags } := by
  unfold Memory.ReleasePageSwap
  dsimp only
  split
  · exact ⟨_, rfl⟩
  · exact ⟨m.page_flags, rfl⟩

theorem sameMapped_passPage (m : Memory) (b : SpaceId) (i : Nat) :
    SameMapped me mf m (next.passPage m b i) := by
  unfold next.passPage
  obtain ⟨flags, he⟩ := releasePageSwap_eq (m := m) (b := b) (i := i)
  rw [he]
  exact (SameMapped.refl m).others

omit [VmConfig] in
theorem remove_data {f : Nat} (h : m.RemovePhysicalToVirtualMapping f = some m') :
    m'.mainMemory = m.mainMemory ∧ m'.files = m.files := by
  unfold Memory.RemovePhysicalToVirtualMapping at h
  split at h
  · cases h
  · dsimp only at h
    split at h
    · cases h
    · split at h
      · cases h
      · obtain rfl := Option.some.inj h
        exact ⟨rfl, rfl⟩

/-- The frame of a page is released: the page is in the file, if it is one of the mapping. -/
theorem MapInv.release {i : Nat} {m₁ : Memory} (h : MapInv c me mf L s) (hi : Inv T s)
    (hone : ∀ t ∈ T.all, T.process t = me) (hp : s.pc s.current = some p)
    (hd : p.destroys = some (me, i)) (hvalid : (s.memory.entry me i).valid = true)
    (hm₁ : s.memory.RemovePhysicalToVirtualMapping (s.memory.entry me i).physicalPage = some m₁)
    (hin : mf.Has i → Agrees c me mf L i (s.memory.filePage mf i)) :
    MapInv c me mf L ⟨next.passPage m₁ me i, s.current,
      Function.update s.pc s.current (some (.destroyPage me (i + 1)))⟩ := by
  have hnd : s.memory.status me ≠ .dead := by
    rw [((hi.ok _ _ hp).destroys _ _ hd).1]
    exact nofun
  obtain ⟨-, -, -, htpr⟩ := hi.frames.valid me i hnd hvalid
  obtain ⟨b, hr⟩ := released_of_remove hm₁
  obtain rfl : me = b := by
    have howner := hr.owner
    rw [htpr] at howner
    exact Option.some.inj howner
  obtain ⟨hmain, hfiles⟩ := remove_data hm₁
  have hpass : SameMapped me mf m₁ (next.passPage m₁ me i) := sameMapped_passPage m₁ me i
  have hclear : ∀ b v, m₁.entry b v =
      if b = me ∧ v = i then (s.memory.entry me i).clearBitValid else s.memory.entry b v := by
    have hentry := hr.entry
    rw [htpr] at hentry
    exact hentry
  -- Only the `valid` bit of the page has changed.
  have hkeep : ∀ {α : Type} (g : PageTableEntry → α), (∀ e, g e.clearBitValid = g e) →
      ∀ v, g (m₁.entry me v) = g (s.memory.entry me v) := by
    intro α g hg v
    rw [hclear]
    split
    · rename_i he
      rw [hg, he.2]
    · rfl
  have hbefore : ∀ b v, ((next.passPage m₁ me i).entry b v).valid = true →
      (s.memory.entry b v).valid = true := by
    intro b v hv
    rw [hpass.valid, hclear] at hv
    split at hv
    · cases hv
    · exact hv
  have hframe : ∀ f, (next.passPage m₁ me i).frame f = s.memory.frame f := by
    intro f
    rw [hpass.frame]
    unfold Memory.frame
    rw [hmain]
  have hfile : (next.passPage m₁ me i).files mf.file = s.memory.files mf.file := by
    rw [hpass.file, hfiles]
  have hfilePage : ∀ v, (next.passPage m₁ me i).filePage mf v = s.memory.filePage mf v := by
    intro v
    unfold Memory.filePage
    rw [hfile]
  exact {
    mapping := (h.mapping.of_shape (remove_shape hm₁)).of_shape hpass.shape
    entry := by
      intro v hv
      dsimp only
      rw [(hpass.entry v hv).1, (hpass.entry v hv).2.1, hkeep PageTableEntry.addrDisk fun _ => rfl,
        hkeep PageTableEntry.swap fun _ => rfl]
      exact h.entry v hv
    only b v hv := h.only b v (hbefore b v hv)
    length := by
      dsimp only
      rw [hfile]
      exact h.length
    frame := by
      intro v hv hvalid'
      dsimp only
      rw [hframe, (hpass.entry v hv).2.2.2, hkeep PageTableEntry.physicalPage fun _ => rfl]
      exact h.frame v hv (hbefore me v hvalid')
    clean := by
      intro v hv hM
      dsimp only at hM ⊢
      rw [(hpass.entry v hv).2.2.1, hkeep PageTableEntry.M fun _ => rfl] at hM
      rw [hfilePage]
      exact h.clean v hv hM
    written := by
      intro v hv hvalid' hnot
      dsimp only at hvalid' ⊢
      rw [hfilePage]
      by_cases he : v = i
      · exact he ▸ hin (he ▸ hv)
      · rw [hpass.valid, hclear, if_neg fun h => he h.2] at hvalid'
        refine h.written v hv hvalid' (emptying_before hp (fun x hx => ?_) hnot)
        exact nomatch (Pc.emptying_of_destroys hd).symm.trans hx
    place := by
      intro t p' hpt
      obtain ⟨-, hpt⟩ := h.alone hi hone hp hd hpt
      obtain rfl := Option.some.inj hpt
      exact AtPlace.destroyPage (i + 1)
    searching := by
      intro t p' hpt hsearching
      obtain ⟨-, hpt⟩ := h.alone hi hone hp hd hpt
      obtain rfl := Option.some.inj hpt
      cases hsearching
    dead := by
      intro hdead
      have hst : (next.passPage m₁ me i).status me = .dying (i + 1) := Function.update_self ..
      exact nomatch hst.symm.trans hdead }

/-- `~AddrSpace` writes a page to the file. -/
theorem MapInv.destroyWrite {b : SpaceId} {i fr : Nat} {f : FileId} {ad : Int}
    (h : MapInv c me mf L s) (hi : Inv T s) (hone : ∀ t ∈ T.all, T.process t = me)
    (hp : s.pc s.current = some (.destroyWrite b i f ad fr)) (hext : ¬ Extends mf s .advance) :
    MapInv c me mf L ⟨{ s.memory with
      files := Function.update s.memory.files f
        ((s.memory.files f).writeAt (s.memory.frame fr) ad.toNat) },
      s.current, Function.update s.pc s.current (some (.destroyWrote b i))⟩ := by
  have hplace := h.place _ _ hp
  obtain rfl := hplace.destroys b i rfl
  obtain ⟨hv, rfl, had, hvalid, rfl⟩ := hplace.destroyWrite _ i f ad fr rfl
  refine h.write hp hv had rfl hext (h.frame i hv hvalid) rfl nofun fun hin => ?_
  exact {
    mapping := h.mapping.of_shape rfl
    place := by
      intro t p' hpt
      obtain ⟨-, hpt⟩ := h.alone hi hone hp rfl hpt
      obtain rfl := Option.some.inj hpt
      exact {
        owner := nofun
        emptying := nofun
        swapping := nofun
        fetching := nofun
        buffer := nofun
        readFile := nofun
        writeFile := nofun
        destroys := fun _ _ hd => (Prod.mk.inj (Option.some.inj hd)).1.symm
        destroyWrite := nofun
        destroyWrote := by
          intro b' j hd
          obtain ⟨-, rfl⟩ := Pc.destroyWrote.inj hd
          exact ⟨hvalid, hin⟩ }
    searching := by
      intro t p' hpt hsearching
      obtain ⟨-, hpt⟩ := h.alone hi hone hp rfl hpt
      obtain rfl := Option.some.inj hpt
      cases hsearching
    dead := by
      intro hdead
      have hst := ((hi.ok _ _ hp).destroys _ _ rfl).1
      exact nomatch hst.symm.trans hdead }

/-! ## A step of the system -/

/-- A step of the routines, one case for each branch. -/
theorem MapInv.next (h : MapInv c me mf L s) (hi : Inv T s)
    (hone : ∀ t ∈ T.all, T.process t = me) (hclock : ClockOk s) (hcareful : Careful s .advance)
    (hext : ¬ Extends mf s .advance) (hp : s.pc s.current = some p)
    (hr : Next me s.memory p m' o) :
    MapInv c me mf L ⟨m', s.current, Function.update s.pc s.current o⟩ := by
  have hsame : SameMapped me mf s.memory s.memory := SameMapped.refl s.memory
  have hplace := h.place _ _ hp
  have hok := hi.ok _ _ hp
  have hprocess := hone _ (hi.places _ _ hp).1
  cases hr with
  -- `PageFault`
  | wait | retry =>
      exact h.goOn hi hone hp rfl (by constructor <;> assumption) hsame
        (AtPlace.ofFault rfl rfl nofun nofun nofun) rfl
  | present hvalid => exact h.go hi hone hp rfl (.present hvalid) hsame nofun nofun
  | load hio hvalid =>
      have hbound := hok.asked _ (Or.inl rfl)
      rw [hprocess] at hbound
      exact h.goOn hi hone hp rfl (.load hio hvalid)
        (SameMapped.modifyEntry fun _ => ⟨rfl, rfl, rfl, rfl, rfl⟩)
        (AtPlace.load h.mapping (fun hv => (h.entry _ hv).1) hbound) rfl
  | hidden had =>
      exact h.goOn hi hone hp rfl (.hidden had) hsame
        (AtPlace.ofFault rfl rfl hplace.fetching nofun nofun) rfl
  | sector had =>
      exact h.goOn hi hone hp rfl (.sector had) hsame
        (AtPlace.ofFault rfl rfl hplace.fetching nofun nofun) rfl
  | look =>
      exact h.goOn hi hone hp rfl .look hsame
        (AtPlace.ofFault rfl rfl hplace.fetching nofun nofun) rfl
  | @readFile q f ad had =>
      refine h.goOn hi hone hp rfl (.readFile had) hsame
        (AtPlace.ofFault rfl rfl nofun (fun q' hq hv => ?_) nofun) rfl
      obtain rfl := Option.some.inj hq
      obtain ⟨rfl, rfl⟩ := hplace.readFile q f ad rfl hv
      exact agrees_readAt h.length (h.loading hi hone hp rfl rfl hv).2 q.buffer
  | @readSwap q sector hs hlt =>
      refine h.goOn hi hone hp rfl (.readSwap hs hlt) hsame
        (AtPlace.ofFault rfl rfl nofun (fun q' hq hv => ?_) nofun) rfl
      obtain rfl := Option.some.inj hq
      exact absurd hv (hplace.fetching q rfl)
  | read =>
      exact h.goOn hi hone hp rfl .read hsame
        (AtPlace.ofFault rfl rfl nofun hplace.buffer nofun) rfl
  | take hl hfree =>
      exact h.goOn hi hone hp rfl (.take hl hfree) hsame.others
        (AtPlace.ofFault rfl rfl nofun hplace.buffer nofun) rfl
  | noFree hl =>
      exact h.goOn hi hone hp rfl (.noFree hl) hsame
        (AtPlace.ofFault rfl rfl nofun hplace.buffer nofun) rfl
  | finish hlocked hfree => exact h.finish hi hone hp (.finish hlocked hfree) rfl
  -- `EvictPage`
  | pass hb hbusy =>
      exact h.goOn hi hone hp rfl (.pass hb hbusy)
        (SameMapped.modifyEntry fun _ => ⟨rfl, rfl, rfl, rfl, rfl⟩)
        (AtPlace.ofFault rfl rfl nofun hplace.buffer nofun) rfl
  | @around q loc i b hb hbusy =>
      have hclear : SameMapped me mf s.memory
          (s.memory.modifyEntry b (s.memory.tpr loc).virtualPage .clearBitU) :=
        SameMapped.modifyEntry fun _ => ⟨rfl, rfl, rfl, rfl, rfl⟩
      exact h.goOn hi hone hp rfl (.around hb hbusy) hclear.others
        (AtPlace.ofFault rfl rfl nofun hplace.buffer nofun) rfl
  | stop hb hd hbusy =>
      exact h.found hi hone hclock hcareful hp hb hbusy (.stop hb hd hbusy) rfl
  | goOn =>
      exact h.goOn hi hone hp rfl .goOn hsame
        (AtPlace.ofFault rfl rfl nofun hplace.buffer nofun) rfl
  | evictWait hio =>
      refine h.go hi hone hp rfl (.evictWait hio) hsame (fun p' hp' => ?_) fun x hx => Or.inl hx
      obtain rfl := Option.some.inj hp'
      exact AtPlace.ofVictim rfl (hplace.owner _ rfl) (fun _ => hplace.emptying _ rfl) nofun
        hplace.buffer nofun
  | evict hd hio => exact h.evict hi hone hp (.evict hd hio)
  | evictAgain =>
      refine h.go hi hone hp rfl .evictAgain hsame (fun p' hp' => ?_) fun x hx => Or.inl hx
      obtain rfl := Option.some.inj hp'
      exact AtPlace.ofVictim rfl (hplace.owner _ rfl) (fun _ => hplace.emptying _ rfl) nofun
        hplace.buffer nofun
  | writeFile had => exact h.writeFile hi hone hp hext (.writeFile had)
  | wroteFile hd =>
      exact h.goOn hi hone hp rfl (.wroteFile hd) (sameMapped_takeOver _ _)
        (AtPlace.ofFault rfl rfl nofun hplace.buffer nofun) rfl
  | writeSwap hlt =>
      exact h.goOn hi hone hp rfl (.writeSwap hlt) hsame.others
        (AtPlace.ofVictim rfl (hplace.owner _ rfl) nofun (fun _ => hplace.swapping _ rfl)
          hplace.buffer nofun) rfl
  | @wroteSwap q x sector addrDisk fresh hd =>
      have hout : SameMapped me mf s.memory
          (s.memory.modifyEntry x.space x.vpn (.swapped addrDisk fresh)) := by
        rw [(hplace.owner x rfl).1]
        refine SameMapped.modifyOther (hplace.swapping x rfl) fun e => ?_
        cases fresh
        · rfl
        · rfl
      exact h.goOn hi hone hp rfl (.wroteSwap hd) (hout.trans (sameMapped_takeOver q x))
        (AtPlace.ofFault rfl rfl nofun hplace.buffer nofun) rfl
  -- `~AddrSpace`
  | @destroyFile b i f hlt hvalid hf hM =>
      obtain rfl := hplace.destroys b i rfl
      have hv : mf.Has i := by
        by_contra hnot
        rw [h.mapping.not_has hlt hnot] at hf
        cases hf
      rw [(h.mapping.has_iff hlt).mp hv] at hf
      refine h.destroying hi hone hp rfl hsame (fun p' hp' => ?_) fun hdead => ?_
      · obtain rfl := Option.some.inj hp'
        exact ⟨{
          owner := nofun
          emptying := nofun
          swapping := nofun
          fetching := nofun
          buffer := nofun
          readFile := nofun
          writeFile := nofun
          destroys := fun _ _ hd => (Prod.mk.inj (Option.some.inj hd)).1.symm
          destroyWrite := by
            intro b' j f' ad fr hd
            obtain ⟨-, rfl, rfl, rfl, rfl⟩ := Pc.destroyWrite.inj hd
            exact ⟨hv, (Option.some.inj hf).symm, (h.entry i hv).1, hvalid, rfl⟩
          destroyWrote := nofun }, rfl⟩
      · exact nomatch (hok.destroys _ _ rfl).1.symm.trans hdead
  | @release b i m₁ hlt hvalid hnot hm₁ =>
      obtain rfl := hplace.destroys b i rfl
      refine h.release hi hone hp rfl hvalid hm₁ fun hv => ?_
      -- The page is mapped, so that it has not been modified.
      have hM := hnot.resolve_left fun hnone =>
        nomatch hnone.symm.trans ((h.mapping.has_iff hlt).mp hv)
      exact h.clean i hv hM
  | @skip b i hlt hvalid =>
      obtain rfl := hplace.destroys b i rfl
      refine h.destroying hi hone hp rfl (sameMapped_passPage _ _ _) (fun p' hp' => ?_)
        fun hdead => ?_
      · obtain rfl := Option.some.inj hp'
        exact ⟨AtPlace.destroyPage (i + 1), rfl⟩
      · have hst : (next.passPage s.memory b i).status b = .dying (i + 1) := Function.update_self ..
        exact nomatch hst.symm.trans hdead
  | @delete b i hlt =>
      obtain rfl := hplace.destroys b i rfl
      refine h.destroying hi hone hp rfl hsame.others nofun fun _ v hv => ?_
      -- All pages have been dealt with.
      have hbound := hv.2
      rw [h.mapping.last] at hbound
      have hlt' := Nat.lt_of_mul_lt_mul_right hbound
      exact (hok.destroys _ _ rfl).2 v (by omega)
  | destroyWrite had => exact h.destroyWrite hi hone hp hext
  | @destroyWrote b i m₁ hm₁ =>
      obtain rfl := hplace.destroys b i rfl
      obtain ⟨hvalid, hin⟩ := hplace.destroyWrote _ i rfl
      exact h.release hi hone hp rfl hvalid hm₁ fun _ => hin

/-- A page on its way to the file is not valid. -/
theorem notValid_of_emptying {t : ThreadId} (hi : Inv T s) (hp : s.pc t = some p)
    (hx : p.emptying = some x) (hnd : s.memory.status x.space ≠ .dead) :
    (s.memory.entry x.space x.vpn).valid = false := by
  cases p with
  | evictIo q y =>
      obtain rfl := Option.some.inj hx
      exact ((hi.ok t _ hp).victim q y rfl).1
  | evictYield q y => exact absurd rfl ((hi.ok t _ hp).noYield q y)
  | writeFile q y f ad =>
      obtain rfl := Option.some.inj hx
      exact hi.notValid hp hnd (Or.inr rfl)
  | _ => exact nomatch hx

omit [VmConfig] in
theorem Pc.loading_of_buffered (h : p.buffered = some q) : p.loading = some q.vpn := by
  cases p with
  | readDone | map | mapped | search | searchYield | evictIo | evictYield | writeFile | wroteFile |
      writeSwap | wroteSwap =>
      obtain rfl := Option.some.inj h
      rfl
  | _ => exact nomatch h

theorem Agrees.put {v virtAddr size : Nat} {value : BitVec 32} {data : Page}
    (h : Agrees c me mf L v data) (hin : virtAddr % PageSize + size ≤ PageSize)
    (hne : v ≠ virtAddr / PageSize) :
    Agrees (c.put me virtAddr size value) me mf L v data := by
  intro i hi hlt
  rw [page_put hin me v i hi, if_neg fun hc => hne hc.1.2]
  exact h i hi hlt

/-- The process stores a word: the page is valid, so that no thread has to do with it. -/
theorem MapInv.store {virtAddr size : Nat} {value : BitVec 32} (h : MapInv c me mf L s)
    (hi : Inv T s) (hone : ∀ t ∈ T.all, T.process t = me) (hlive : s.memory.status me = .live)
    (hm' : s.memory.WriteMem me virtAddr size value = some m') :
    MapInv (c.put me virtAddr size value) me mf L { s with memory := m' } := by
  obtain ⟨m₁, a, ht, hsize, hm'⟩ := writeMem_cases hm'
  obtain ⟨rfl, rfl, hvalid, hmod⟩ := translate_cases ht
  have hin := access_in_page hsize hmod
  have hdiv := Nat.div_add_mod' virtAddr PageSize
  have hnd : s.memory.status me ≠ .dead := by simp [hlive]
  obtain ⟨-, -, -, htpr⟩ := hi.frames.valid me _ hnd hvalid
  have hentry : ∀ b v, m'.entry b v = if b = me ∧ v = virtAddr / PageSize then
      (s.memory.entry me (virtAddr / PageSize)).accessed true else s.memory.entry b v := by
    subst hm'
    exact fun b v => Memory.entry_modifyEntry (m := s.memory) (.accessed true)
  have hfield : ∀ {α : Type} (g : PageTableEntry → α), (∀ e, g (e.accessed true) = g e) →
      ∀ b v, g (m'.entry b v) = g (s.memory.entry b v) := by
    subst hm'
    exact fun g hg b v => Memory.field_modifyEntry (m := s.memory) g hg
  have hframe : ∀ f i, m'.frame f i =
      if (s.memory.entry me (virtAddr / PageSize)).physicalPage * PageSize + virtAddr % PageSize ≤
          f * PageSize + i ∧ f * PageSize + i <
            (s.memory.entry me (virtAddr / PageSize)).physicalPage * PageSize +
              virtAddr % PageSize + size then
        valueByte value (f * PageSize + i -
          ((s.memory.entry me (virtAddr / PageSize)).physicalPage * PageSize + virtAddr % PageSize))
      else s.memory.frame f i := by
    subst hm'
    exact fun f i => rfl
  have hrest : m'.shape = s.memory.shape ∧ m'.files = s.memory.files ∧
      m'.free_page_list = s.memory.free_page_list ∧ m'.status = s.memory.status := by
    subst hm'
    exact ⟨modifyEntry_shape (m := s.memory) (f := .accessed true), rfl, rfl, rfl⟩
  obtain ⟨hshape, hfiles, hlist, hstatus⟩ := hrest
  generalize hw : virtAddr / PageSize = w at *
  generalize hpage : (s.memory.entry me w).physicalPage = fr at *
  have hfilePage : ∀ v, m'.filePage mf v = s.memory.filePage mf v := by
    intro v
    unfold Memory.filePage
    rw [hfiles]
  -- The bytes of the other frames stay.
  have hother : ∀ f, f ≠ fr → ∀ i < PageSize, m'.frame f i = s.memory.frame f i := by
    intro f hf i hi'
    rw [hframe, if_neg]
    rintro ⟨h1, h2⟩
    exact hf ((address_in_page hi').mp ⟨by omega, by omega⟩)
  have hneq : ∀ v, (s.memory.entry me v).valid = false → v ≠ w := by
    rintro v hv rfl
    exact nomatch hv.symm.trans hvalid
  exact {
    mapping := h.mapping.of_shape hshape
    entry := by
      intro v hv
      rw [hfield PageTableEntry.addrDisk fun _ => rfl, hfield PageTableEntry.swap fun _ => rfl]
      exact h.entry v hv
    only := by
      intro b v hv
      rw [hfield PageTableEntry.valid fun _ => rfl] at hv
      exact h.only b v hv
    length := by
      rw [hfiles]
      exact h.length
    frame := by
      intro v hv hvalid' i hi' hlt
      dsimp only at hvalid' ⊢
      rw [hfield PageTableEntry.valid fun _ => rfl] at hvalid'
      rw [hfield PageTableEntry.physicalPage fun _ => rfl, page_put hin me v i hi', hw]
      by_cases he : v = w
      · subst he
        rw [hframe, hpage]
        by_cases hr : virtAddr % PageSize ≤ i ∧ i < virtAddr % PageSize + size
        · rw [if_pos ⟨⟨rfl, rfl⟩, hr⟩, if_pos (by omega)]
          congr 2
          omega
        · rw [if_neg fun hc => hr hc.2, if_neg (by omega), ← hpage]
          exact h.frame _ hv hvalid' i hi' hlt
      · rw [if_neg fun hc => he hc.1.2, hother _ _ i hi']
        · exact h.frame v hv hvalid' i hi' hlt
        · -- Two pages are not in one frame.
          intro hsame
          exact he (hi.frames.safe.one me v me w hnd hnd hvalid' hvalid (hsame.trans hpage.symm)).2
    clean := by
      intro v hv hM
      dsimp only at hM ⊢
      rw [hfilePage]
      have hne : v ≠ w := by
        rintro rfl
        rw [hentry, if_pos ⟨rfl, rfl⟩] at hM
        cases hM
      rw [hentry, if_neg fun hc => hne hc.2] at hM
      exact (h.clean v hv hM).put hin (hw.symm ▸ hne)
    written := by
      intro v hv hvalid' hnot
      dsimp only at hvalid' ⊢
      rw [hfilePage]
      rw [hfield PageTableEntry.valid fun _ => rfl] at hvalid'
      exact (h.written v hv hvalid' hnot).put hin (hw.symm ▸ hneq v hvalid')
    place := by
      intro t p hp
      have hplace := h.place t p hp
      have hdes : p.destroys = none := by
        cases hd : p.destroys with
        | none => rfl
        | some y =>
          obtain ⟨b, i⟩ := y
          obtain rfl := hplace.destroys b i hd
          exact nomatch hlive.symm.trans ((hi.ok t p hp).destroys _ i hd).1
      have hplace' : AtPlace c me mf L m' p := by
        refine hplace.other hdes (freePageId_of_shape hshape me) fun x hx i hi' => ?_
        -- The frame of the victim is locked.
        refine hother _ ?_ i hi'
        rintro rfl
        have hlocked := ((hi.ok t p hp).frame _ (Pc.frame_of_emptying hx)).2.2
        rw [htpr] at hlocked
        cases hlocked
      exact {
        owner := hplace'.owner
        emptying := by
          intro x hx hv
          obtain ⟨hspace, -⟩ := hplace.owner x (Pc.victim_of_emptying hx)
          have hempty := notValid_of_emptying hi hp hx (by rwa [hspace])
          rw [hspace] at hempty
          exact (hplace'.emptying x hx hv).put hin (hw.symm ▸ hneq _ hempty)
        swapping := hplace'.swapping
        fetching := hplace'.fetching
        buffer := by
          intro q hq hv
          have hempty := hi.notValid hp (r := (me, q.vpn)) hnd
            (Or.inl ⟨(hone t (hi.places t p hp).1).symm, Pc.loading_of_buffered hq⟩)
          exact (hplace'.buffer q hq hv).put hin (hw.symm ▸ hneq _ hempty)
        readFile := hplace'.readFile
        writeFile := hplace'.writeFile
        destroys := hplace'.destroys
        destroyWrite := hplace'.destroyWrite
        destroyWrote := by
          rintro b i rfl
          cases hdes }
    searching := by
      intro t p hp hsearching
      rw [hlist]
      exact h.searching t p hp hsearching
    dead := by
      intro hdead
      rw [hstatus, hlive] at hdead
      cases hdead }

end Steps

/-! ## The runs -/

section Runs

variable {T : Threads} {c : Contents} {me : SpaceId} {mf : MappedFile} {L : Nat} {m' : Memory}
  {s s' : System} {move : Move}

/-- The destructor and the clock find the frames as they left them. -/
theorem MapInv.careful (h : MapInv c me mf L s) (hi : Inv T s) (hclock : ClockOk s)
    (move : Move) : Careful s move := by
  intro _
  constructor
  · intro b i hp
    have hplace := h.place _ _ hp
    obtain rfl := hplace.destroys b i rfl
    obtain ⟨hvalid, -⟩ := hplace.destroyWrote _ i rfl
    have hst := ((hi.ok _ _ hp).destroys _ _ rfl).1
    obtain ⟨-, -, -, htpr⟩ := hi.frames.valid _ i (by simp [hst]) hvalid
    rw [htpr]
  · intro q loc i b hp _ _
    rw [Bool.eq_false_iff]
    intro hfree
    have hm := (hi.frames.free loc).mpr ⟨hclock _ _ _ _ hp, hfree⟩
    rw [h.searching _ _ hp rfl] at hm
    cases hm

/-- A step that the running thread does not take in a routine. -/
theorem MapInv.user (h : MapInv c me mf L s) (hnone : s.pc s.current = none) {o : Option Pc}
    (hs : SameMapped me mf s.memory m') (hlist : m'.free_page_list = s.memory.free_page_list)
    (hdead : m'.status me ≠ .dead)
    (ho : ∀ p ∈ o, AtPlace c me mf L s.memory p ∧ p.searching = false) :
    MapInv c me mf L ⟨m', s.current, Function.update s.pc s.current o⟩ := by
  refine h.keep hs (fun p hp => (ho p hp).1) (fun p x hp => nomatch hnone.symm.trans hp) ?_
    (fun p hp hsearching => nomatch (ho p hp).2.symm.trans hsearching) fun hd => absurd hd hdead
  rintro ⟨t, p, hp, hsearching⟩
  exact hlist.trans (h.searching t p hp hsearching)

theorem MapInv.step (h : MapInv c me mf L s) (hi : Inv T s)
    (hone : ∀ t ∈ T.all, T.process t = me) (hclock : ClockOk s)
    (hdestroy : ∀ b, move = .destroy b → b = me) (hext : ¬ Extends mf s move)
    (hs : Step T s move s') : MapInv (c.after T (s, move)) me mf L s' := by
  cases hs with
  | switch hsw =>
      exact ⟨h.mapping, h.entry, h.only, h.length, h.frame, h.clean, h.written, h.place,
        h.searching, h.dead⟩
  | @load virtAddr size m' value hu hm' =>
      obtain ⟨hmem, hnone, hlive⟩ := System.inUserCode_iff.mp hu
      obtain ⟨a, ht, -, -⟩ := readMem_cases hm'
      obtain ⟨rfl, -, -, -⟩ := translate_cases ht
      rw [hone _ hmem] at hlive
      have hread : SameMapped me mf s.memory (s.memory.modifyEntry (T.process s.current)
          (virtAddr / PageSize) (.accessed false)) :=
        SameMapped.modifyEntry fun _ => ⟨rfl, rfl, rfl, rfl, rfl⟩
      have huser := h.user hnone (o := none) hread rfl (by simp [hlive]) nofun
      rwa [← hnone, Function.update_eq_self] at huser
  | store hu hm' =>
      obtain ⟨hmem, -, hlive⟩ := System.inUserCode_iff.mp hu
      have hme := hone _ hmem
      unfold Contents.after
      dsimp only
      rw [hme] at hm' hlive ⊢
      exact h.store hi hone hlive hm'
  | fault hu hvalid hallowed =>
      obtain ⟨hmem, hnone, hlive⟩ := System.inUserCode_iff.mp hu
      rw [hone _ hmem] at hlive
      refine h.user hnone (SameMapped.refl _) rfl (by simp [hlive]) fun p hp => ?_
      obtain rfl := Option.some.inj hp
      exact ⟨AtPlace.ofFault rfl rfl nofun nofun nofun, rfl⟩
  | @destroy b hmem hnone hlive hended =>
      obtain rfl := hdestroy b rfl
      refine h.user hnone (SameMapped.refl s.memory).others rfl ?_ fun p hp => ?_
      · dsimp only
        rw [Function.update_self]
        exact nofun
      · obtain rfl := Option.some.inj hp
        exact ⟨AtPlace.destroyPage 0, rfl⟩
  | advance hp hr =>
      rw [hone _ (hi.places _ _ hp).1] at hr
      exact h.next hi hone hclock (h.careful hi hclock _) hext hp hr

/-! ## The process maps the file -/

/-- What `Mmap` does: the `n` pages from `P` on are those of the file. -/
structure Mmapped (b : SpaceId) (P n : Nat) (f : FileId) (m m' : Memory) : Prop where
  first : (m.spaces b).freePageId = P
  entry : ∀ b' v, m'.entry b' v =
    if b' = b ∧ P ≤ v ∧ v < P + n then (m.entry b v).mapped ((v - P) * PageSize)
    else m.entry b' v
  size : ∀ b', (m'.spaces b').freePageId = if b' = b then P + n else (m.spaces b').freePageId
  files : ∀ b', (m'.spaces b').mapped_files =
    if b' = b then (m.spaces b).mapped_files ++ [⟨P * PageSize, n, f⟩]
    else (m.spaces b').mapped_files
  exec_file : ∀ b', (m'.spaces b').exec_file = (m.spaces b').exec_file
  rest : m' = { m with spaces := m'.spaces }

theorem mmap_cases {m : Memory} {b : SpaceId} {maxNumPages size addr : Nat} {f : FileId}
    (h : m.Mmap b maxNumPages f size = some (m', addr)) :
    ∃ P n, Mmapped b P n f m m' ∧ addr = P * PageSize ∧ size ≤ n * PageSize := by
  unfold Memory.Mmap at h
  dsimp only at h
  have hcover : size ≤ (size / PageSize + if size % PageSize > 0 then 1 else 0) * PageSize := by
    have hdiv := Nat.div_add_mod' size PageSize
    split
    · have hmod := Nat.mod_lt size pageSize_pos
      rw [Nat.add_mul, Nat.one_mul]
      omega
    · rw [Nat.add_zero]
      omega
  generalize (size / PageSize + if size % PageSize > 0 then 1 else 0) = n at h hcover
  obtain ⟨⟨space, P⟩, halloc, h⟩ := Option.bind_eq_some_iff.mp h
  unfold AddrSpace.Alloc at halloc
  split at halloc
  · cases halloc
  obtain ⟨rfl, rfl⟩ := Prod.mk.inj (Option.some.inj halloc)
  split at h
  · cases h
  obtain ⟨rfl, rfl⟩ := Prod.mk.inj (Option.some.inj h)
  refine ⟨_, n, ?_, rfl, hcover⟩
  dsimp only
  -- The space with its new size and its new mapping; the loop then sets the entries.
  generalize hspace : ({ (m.spaces b) with
    freePageId := (m.spaces b).freePageId + n
    mapped_files := (m.spaces b).mapped_files ++
      [⟨(m.spaces b).freePageId * PageSize, n, f⟩] : AddrSpace }) = space
  obtain ⟨hentry, hshape, hrest⟩ := mapPages_eq
    (m := { m with spaces := Function.update m.spaces b space }) (b := b)
    (P := (m.spaces b).freePageId) (n := n)
  have hold : ∀ b' v, (Function.update m.spaces b space b').translationTable v =
      m.entry b' v := by
    intro b' v
    unfold Memory.entry
    by_cases hb : b' = b
    · subst hb hspace
      rw [Function.update_self]
    · rw [Function.update_of_ne hb]
  exact {
    first := rfl
    entry := by
      intro b' v
      rw [hentry]
      exact if_congr Iff.rfl (congrArg _ (hold b v)) (hold b' v)
    size := by
      intro b'
      refine (congrArg Prod.fst (congrFun hshape b')).trans ?_
      dsimp only [Memory.shape]
      rw [Function.update_apply]
      subst hspace
      split
      · rfl
      · rfl
    files := by
      intro b'
      refine (congrArg (fun x => x.2.1) (congrFun hshape b')).trans ?_
      dsimp only [Memory.shape]
      rw [Function.update_apply]
      subst hspace
      split
      · rfl
      · rfl
    exec_file := by
      intro b'
      refine (congrArg (fun x => x.2.2) (congrFun hshape b')).trans ?_
      dsimp only [Memory.shape]
      rw [Function.update_apply]
      subst hspace
      split
      · rename_i he
        rw [he]
      · rfl
    rest := hrest }

omit [VmConfig] in
theorem Pc.victim_of_evicting {p : Pc} {r : SpaceId × Nat} (h : p.evicting = some r) :
    ∃ x, p.victim = some x ∧ r = (x.space, x.vpn) := by
  cases p with
  | writeFile | wroteFile | writeSwap | wroteSwap => exact ⟨_, rfl, (Option.some.inj h).symm⟩
  | _ => exact nomatch h

/-- The invariant of the frames does not mind the new pages, which nobody uses. -/
theorem Inv.mmap {b : SpaceId} {P n : Nat} {f : FileId} (hi : Inv T s)
    (hm : Mmapped b P n f s.memory m')
    (hvictim : ∀ t p x, s.pc t = some p → p.victim = some x →
      x.vpn < (s.memory.spaces x.space).freePageId) : Inv T { s with memory := m' } := by
  -- The new pages lie behind the old ones, and are not valid.
  have hold : ∀ b' v, v < (s.memory.spaces b').freePageId →
      m'.entry b' v = s.memory.entry b' v := by
    intro b' v hv
    rw [hm.entry, if_neg]
    rintro ⟨rfl, h1, -⟩
    rw [hm.first] at hv
    omega
  have hgrow : ∀ b', (s.memory.spaces b').freePageId ≤ (m'.spaces b').freePageId := by
    intro b'
    rw [hm.size]
    split
    · rename_i he
      rw [he, hm.first]
      omega
    · exact le_rfl
  have hvalid : ∀ b' v, (m'.entry b' v).valid = true →
      m'.entry b' v = s.memory.entry b' v := by
    intro b' v hv
    rw [hm.entry] at hv ⊢
    split at hv
    · cases hv
    · rename_i he
      rw [if_neg he]
  have hpage : ∀ b' v, (m'.entry b' v).physicalPage = (s.memory.entry b' v).physicalPage := by
    intro b' v
    rw [hm.entry]
    split
    · rename_i he
      rw [he.1]
      rfl
    · rfl
  -- Nothing but the translation table and the list of mapped files changes.
  have htpr : m'.tpr = s.memory.tpr := by rw [hm.rest]
  have hlist : m'.free_page_list = s.memory.free_page_list := by rw [hm.rest]
  have hstatus : m'.status = s.memory.status := by rw [hm.rest]
  exact {
    frames := {
      nodup := by
        rw [hlist]
        exact hi.frames.nodup
      free := by
        intro p
        rw [hlist, htpr]
        exact hi.frames.free p
      valid := by
        intro b' v hd hv
        dsimp only at hd hv ⊢
        have he := hvalid b' v hv
        rw [he] at hv ⊢
        rw [hstatus] at hd
        rw [htpr]
        obtain ⟨hlt, hrest⟩ := hi.frames.valid b' v hd hv
        exact ⟨hlt.trans_le (hgrow b'), hrest⟩
      used := by
        intro p hp hfree hlocked
        dsimp only at hfree hlocked ⊢
        rw [htpr] at hfree hlocked ⊢
        obtain ⟨b', hb', hd, hv, hpp⟩ := hi.frames.used p hp hfree hlocked
        have he := hold b' _ (hi.frames.valid b' _ hd hv).1
        rw [hstatus]
        rw [← he] at hv hpp
        exact ⟨b', hb', hd, hv, hpp⟩
      allowed := by
        intro b' v hv
        dsimp only at hv ⊢
        rw [hm.entry] at hv
        split at hv
        · rename_i he
          rw [hm.size, if_pos he.1]
          exact he.2.2
        · exact (hi.frames.allowed b' v hv).trans_le (hgrow b') }
    ok := by
      intro t p hp
      have hok := hi.ok t p hp
      exact {
        live := by
          intro hd
          rw [hstatus]
          exact hok.live hd
        bound := fun v hv => (hok.bound v hv).trans_le (hgrow _)
        asked := fun q hq => (hok.asked q hq).trans_le (hgrow _)
        io := by
          intro r hr
          -- A bit `io` is held for an old page.
          have hlt : r.2 < (s.memory.spaces r.1).freePageId := by
            rcases hr with ⟨hr1, hr2⟩ | hr
            · rw [hr1]
              exact hok.bound r.2 hr2
            · obtain ⟨x, hx, rfl⟩ := Pc.victim_of_evicting hr
              exact hvictim t p x hp hx
          dsimp only
          rw [hold _ _ hlt]
          exact hok.io r hr
        apart := hok.apart
        frame := by
          intro fr hfr
          dsimp only
          rw [htpr]
          exact hok.frame fr hfr
        destroys := by
          intro b' i hd
          obtain ⟨hst, hbefore⟩ := hok.destroys b' i hd
          refine ⟨(congrFun hstatus b').trans hst, fun j hj => ?_⟩
          dsimp only
          rw [hm.entry]
          split
          · rfl
          · exact hbefore j hj
        destroyed := by
          intro b' i hd
          dsimp only
          rw [hpage]
          exact ⟨(hok.destroyed b' i hd).1.trans_le (hgrow b'), (hok.destroyed b' i hd).2⟩
        victim := by
          intro q x hq
          dsimp only
          rw [hold _ _ (hvictim t p x hp (hq ▸ rfl))]
          exact hok.victim q x hq
        noYield := hok.noYield
        mapped := by
          intro q fr hq
          dsimp only
          rw [htpr]
          exact hok.mapped q fr hq }
    places := hi.places
    io := hi.io
    frame := hi.frame
    destroys := hi.destroys }

/-- Before the file is mapped: the process is the only one, and has no mapped file. -/
structure Unmapped (me : SpaceId) (s : System) : Prop where
  files : (s.memory.spaces me).mapped_files = []
  only : ∀ b v, (s.memory.entry b v).valid = true → b = me
  victim : ∀ t p x, s.pc t = some p → p.victim = some x → x.space = me
  noFile : ∀ t p, s.pc t = some p → p.writes = none

/-- Without a mapped file no page goes to a file. -/
theorem next_noFile {m : Memory} {p : Pc} {o : Option Pc} (hr : Next me m p m' o)
    (hd : p.destroys = none) (hfiles : (m.spaces me).mapped_files = []) (hw : p.writes = none) :
    ∀ p' ∈ o, p'.writes = none := by
  intro p' hp'
  cases hr with
  | load hio hvalid =>
      obtain rfl := Option.some.inj hp'
      rcases load_cases me _ _ with ⟨f, ad, hc⟩ | hc | hc
      all_goals
        rw [hc]
        rfl
  | @evict q x hdead hio =>
      obtain rfl := Option.some.inj hp'
      have hnone : ((m.modifyEntry x.space x.vpn .setBitIo).spaces me).findMappedFile
          (x.vpn * PageSize) = none := by
        rw [findMappedFile_congr (mapped_files_modifyEntry me)]
        exact findMappedFile_none hfiles _
      have hout : ∀ n fresh, (swapOut me (m.modifyEntry x.space x.vpn .setBitIo) q x n
          fresh).2.writes = none := by
        intro n fresh
        rcases swapOut_place me (m.modifyEntry x.space x.vpn .setBitIo) q x n fresh with
          he | ⟨sector, ad, he⟩
        · rw [he]
          rfl
        · rw [he]
          rfl
      unfold Vm.evict
      dsimp only
      rw [hnone]
      dsimp only
      split
      · split
        · exact hout _ _
        · rfl
      · exact hout _ _
  | writeFile => cases hw
  | destroyFile | release | skip | delete | destroyWrite | destroyWrote => cases hd
  | present | finish => exact nomatch hp'
  | _ =>
      obtain rfl := Option.some.inj hp'
      rfl

theorem Unmapped.step (h : Unmapped me s) (hi : Inv T s) (hfull : Full s) (hclock : ClockOk s)
    (hone : ∀ t ∈ T.all, T.process t = me) (hnot : ∀ b, move ≠ .destroy b)
    (hs : Step T s move s') : Unmapped me s' := by
  -- An access of a program changes only the bits of its page.
  have huser : ∀ {m'}, SameFrames s.memory m' → m'.shape = s.memory.shape →
      Unmapped me { s with memory := m' } := by
    intro m' hsame hshape
    refine ⟨(mapped_files_of_shape hshape me).trans h.files, fun b v hv => ?_,
      h.victim, h.noFile⟩
    exact h.only b v ((hsame.valid b v).symm.trans hv)
  cases hs with
  | switch hsw => exact ⟨h.files, h.only, h.victim, h.noFile⟩
  | load hu hm' =>
      obtain ⟨a, ht, -, -⟩ := readMem_cases hm'
      obtain ⟨rfl, -, -, -⟩ := translate_cases ht
      exact huser (readMem_sameFrames hm') modifyEntry_shape
  | store hu hm' =>
      obtain ⟨m₁, a, ht, -, rfl⟩ := writeMem_cases hm'
      obtain ⟨rfl, -, -, -⟩ := translate_cases ht
      exact huser (writeMem_sameFrames hm') (modifyEntry_shape (m := s.memory))
  | fault hu hvalid hallowed =>
      -- The thread comes to the start of `PageFault`, without a victim.
      refine ⟨h.files, h.only, fun t p x hp hx => ?_, fun t p hp => ?_⟩
      · dsimp only at hp
        rw [Function.update_apply] at hp
        split at hp
        · obtain rfl := Option.some.inj hp
          cases hx
        · exact h.victim t p x hp hx
      · dsimp only at hp
        rw [Function.update_apply] at hp
        split at hp
        · obtain rfl := Option.some.inj hp
          rfl
        · exact h.noFile t p hp
  | @destroy b hmem hnone hlive hended => exact absurd rfl (hnot b)
  | advance hp hr =>
      have hme := hone _ (hi.places _ _ hp).1
      rw [hme] at hr
      have hd := (hfull _ _ hp).1
      refine ⟨(mapped_files_of_shape (next_shape hr) me).trans h.files,
        fun b v hv => ?_, fun t p' x hp' hx => ?_, fun t p' hp' => ?_⟩
      · exact (next_valid hr hd hv).elim (h.only b v) id
      · dsimp only at hp'
        rw [Function.update_apply] at hp'
        split at hp'
        · rcases next_victim hr hp' hx with hx | ⟨q, loc, i, rfl, hb, hbusy⟩
          · exact h.victim _ _ x hp hx
          · -- The page in the frame is valid.
            have hfree := (hfull.careful hi hclock .advance rfl).2 _ _ _ _ hp hb hbusy
            simp only [Memory.busy, Bool.or_eq_false_iff] at hbusy
            obtain ⟨b', hb', -, hv, -⟩ := hi.frames.used loc (hclock _ _ _ _ hp) hfree hbusy.2
            obtain rfl := Option.some.inj (hb.symm.trans hb')
            exact h.only _ _ hv
        · exact h.victim t p' x hp' hx
      · dsimp only at hp'
        rw [Function.update_apply] at hp'
        split at hp'
        · exact next_noFile hr hd h.files (h.noFile _ _ hp) p' hp'
        · exact h.noFile t p' hp'

theorem unmapped_of_run {s₀ : System} {tr : Moves} (h₀ : Booted s₀)
    (hone : ∀ t ∈ T.all, T.process t = me) (hfiles : (s₀.memory.spaces me).mapped_files = [])
    (hr : Run (Vm.step T) s₀ tr s) (hnot : ∀ x ∈ tr, ∀ b, x.2 ≠ .destroy b) : Unmapped me s := by
  suffices h : Inv T s ∧ ClockOk s ∧ Full s ∧ Unmapped me s from h.2.2.2
  refine hr.invariant_of_steps (I := fun _ s => Inv T s ∧ ClockOk s ∧ Full s ∧ Unmapped me s)
    (C := fun _ move => ∀ b, move ≠ .destroy b) ?_ ?_ hnot
  · refine ⟨h₀.inv, fun t q loc i hp => ?_, fun t p hp => ?_, hfiles, fun b v hv => ?_,
      fun t p x hp => ?_, fun t p hp => ?_⟩
    · exact nomatch (h₀.idle t).symm.trans hp
    · exact nomatch (h₀.idle t).symm.trans hp
    · exact nomatch (h₀.entry b v).1.symm.trans hv
    · exact nomatch (h₀.idle t).symm.trans hp
    · exact nomatch (h₀.idle t).symm.trans hp
  · intro _ s a s' ⟨hi, hclock, hfull, hu⟩ hnot hs
    have hs' := step_cases hs
    exact ⟨hi.step hclock (hfull.careful hi hclock a) hs', hclock.step hs', hfull.step hs' hnot,
      hu.step hi hfull hclock hone hnot hs'⟩

/-- The pages of the new mapping are in the file, and no thread has to do with them. -/
theorem MapInv.mmap {P n : Nat} {f : FileId} (hu : Unmapped me s) (hi : Inv T s)
    (hfull : Full s) (hone : ∀ t ∈ T.all, T.process t = me)
    (hlive : s.memory.status me = .live)
    (hvictim : ∀ t p x, s.pc t = some p → p.victim = some x →
      x.vpn < (s.memory.spaces x.space).freePageId)
    (hm : Mmapped me P n f s.memory m') :
    MapInv (mappedContents T m' ⟨P * PageSize, n, f⟩ []) me ⟨P * PageSize, n, f⟩
      (m'.files f).length { s with memory := m' } := by
  have hhas : ∀ v, MappedFile.Has ⟨P * PageSize, n, f⟩ v → P ≤ v ∧ v < P + n := by
    rintro v ⟨h1, h2⟩
    dsimp only at h1 h2
    rw [← Nat.add_mul] at h2
    exact ⟨Nat.le_of_mul_le_mul_right h1 pageSize_pos, Nat.lt_of_mul_lt_mul_right h2⟩
  have hnew : ∀ v, MappedFile.Has ⟨P * PageSize, n, f⟩ v →
      m'.entry me v = (s.memory.entry me v).mapped ((v - P) * PageSize) := by
    intro v hv
    rw [hm.entry, if_pos ⟨rfl, hhas v hv⟩]
  -- The pages that the process had are not of the mapping.
  have hold : ∀ v, v < (s.memory.spaces me).freePageId →
      ¬ MappedFile.Has ⟨P * PageSize, n, f⟩ v := by
    intro v hlt hv
    have hle := (hhas v hv).1
    rw [hm.first] at hlt
    omega
  have hloading : ∀ t p v, s.pc t = some p → p.loading = some v →
      ¬ MappedFile.Has ⟨P * PageSize, n, f⟩ v := by
    intro t p v hp hl
    have hbound := (hi.ok t p hp).bound v hl
    rw [hone t (hi.places t p hp).1] at hbound
    exact hold v hbound
  have hvpn : ∀ t p x, s.pc t = some p → p.victim = some x →
      ¬ MappedFile.Has ⟨P * PageSize, n, f⟩ x.vpn := by
    intro t p x hp hx
    have hbound := hvictim t p x hp hx
    rw [hu.victim t p x hp hx] at hbound
    exact hold _ hbound
  have hfile : ∀ v, Agrees (mappedContents T m' ⟨P * PageSize, n, f⟩ []) me ⟨P * PageSize, n, f⟩
      (m'.files f).length v (m'.filePage ⟨P * PageSize, n, f⟩ v) ∨
        ¬ MappedFile.Has ⟨P * PageSize, n, f⟩ v := by
    intro v
    by_cases hv : MappedFile.Has ⟨P * PageSize, n, f⟩ v
    · refine Or.inl fun i _ _ => ?_
      have hle := hv.1
      dsimp only at hle
      show some ((m'.files f).bytes (v * PageSize + i - P * PageSize)) =
        some ((m'.files f).bytes (v * PageSize - P * PageSize + i))
      rw [Nat.sub_add_comm hle]
    · exact Or.inr hv
  exact {
    mapping := {
      files := by
        rw [hm.files, if_pos rfl, hu.files]
        rfl
      last := by
        dsimp only
        rw [hm.size, if_pos rfl, Nat.add_mul]
      aligned := Nat.dvd_mul_left ..
    }
    entry := by
      intro v hv
      dsimp only
      rw [hnew v hv]
      refine ⟨?_, rfl⟩
      show (((v - P) * PageSize : Nat) : Int) = ((v * PageSize - P * PageSize : Nat) : Int)
      rw [Nat.sub_mul]
    only := by
      intro b v hv
      dsimp only at hv
      rw [hm.entry] at hv
      split at hv
      · cases hv
      · exact hu.only b v hv
    length := rfl
    frame := by
      intro v hv hvalid
      dsimp only at hvalid
      rw [hnew v hv] at hvalid
      cases hvalid
    clean := fun v hv _ => (hfile v).resolve_right fun hnot => hnot hv
    written := fun v hv _ _ => (hfile v).resolve_right fun hnot => hnot hv
    place := by
      intro t p hp
      have hdes := (hfull t p hp).1
      exact {
        owner := by
          intro x hx
          have hspace := hu.victim t p x hp hx
          have hbound := hvictim t p x hp hx
          rw [hspace, hm.first] at hbound
          dsimp only
          rw [hm.size, if_pos rfl]
          exact ⟨hspace, by omega⟩
        emptying := fun x hx hv => absurd hv (hvpn t p x hp (Pc.victim_of_emptying hx))
        swapping := by
          intro x hx
          refine hvpn t p x hp ?_
          cases p with
          | writeSwap | wroteSwap => exact hx
          | _ => exact nomatch hx
        fetching := by
          intro q hq
          refine hloading t p q.vpn hp ?_
          cases p with
          | addrIo | addrYield | readSwap => exact congrArg (Option.map Fault.vpn) hq
          | _ => exact nomatch hq
        buffer := fun q hq hv => absurd hv (hloading t p _ hp (Pc.loading_of_buffered hq))
        readFile := by
          rintro q f' ad rfl hv
          exact absurd hv (hloading t _ _ hp rfl)
        writeFile := by
          rintro q x f' ad rfl
          exact nomatch hu.noFile t _ hp
        destroys := fun b i hd => nomatch hdes.symm.trans hd
        destroyWrite := by
          rintro b i f' ad fr rfl
          cases hdes
        destroyWrote := by
          rintro b i rfl
          cases hdes }
    searching := by
      intro t p hp hsearching
      have hlist : m'.free_page_list = s.memory.free_page_list := by rw [hm.rest]
      exact hlist.trans ((hfull t p hp).2 hsearching)
    dead := by
      intro hdead
      have hstatus : m'.status = s.memory.status := by rw [hm.rest]
      exact nomatch (hlive.symm.trans (congrFun hstatus.symm me)).trans hdead }

/-- The step makes the file longer. -/
theorem length_of_extends (hext : Extends mf s move) (hs : Step T s move s') :
    (s.memory.files mf.file).length < (s'.memory.files mf.file).length := by
  obtain ⟨rfl, p, ad, hp, hw, -, hle, hlt, hroom⟩ := hext
  cases hs with
  | advance hp' hr =>
    obtain rfl := Option.some.inj (hp.symm.trans hp')
    have hgrow : ∀ data : Page, (s.memory.files mf.file).length <
        ((s.memory.files mf.file).writeAt data ad.toNat).length := by
      intro data
      rw [File.length_writeAt, if_pos ⟨hle, hroom⟩]
      omega
    cases hr with
    | writeFile had =>
      obtain ⟨rfl, rfl⟩ := Prod.mk.inj (Option.some.inj hw)
      dsimp only
      rw [Function.update_self]
      exact hgrow _
    | destroyWrite had =>
      obtain ⟨rfl, rfl⟩ := Prod.mk.inj (Option.some.inj hw)
      dsimp only
      rw [Function.update_self]
      exact hgrow _
    | _ => cases hw

/-- The state in which the process has mapped the file. -/
theorem mapInv_of_mmap {s₀ s₁ : System} {tr₀ : Moves} {maxNumPages size : Nat} {f : FileId}
    (hone : ∀ t ∈ T.all, T.process t = me) (h₀ : Booted s₀)
    (hfiles : (s₀.memory.spaces me).mapped_files = []) (hr₀ : Run (Vm.step T) s₀ tr₀ s)
    (hnot : ∀ x ∈ tr₀, ∀ b, x.2 ≠ .destroy b) (hmap : s.mmap T maxNumPages f size = some s₁)
    (hmf : (s₁.memory.spaces me).mapped_files = [mf]) :
    Inv T s₁ ∧ ClockOk s₁ ∧ MapInv (mappedContents T s₁.memory mf []) me mf
      (s₁.memory.files f).length s₁ := by
  obtain ⟨hi, hclock, hfull⟩ := full_of_run h₀ hr₀ hnot
  have hu := unmapped_of_run h₀ hone hfiles hr₀ hnot
  -- Nothing is destroyed, so that the steps are careful.
  have hcareful : ∀ x ∈ tr₀, Careful x.1 x.2 := by
    intro x hx
    obtain ⟨tr', hp, hr'⟩ := hr₀.of_mem hx
    obtain ⟨hi', hclock', hfull'⟩ := full_of_run h₀ hr' fun y hy => hnot y (hp.subset hy)
    exact hfull'.careful hi' hclock' x.2
  have hwithin := within_of_run h₀ hr₀ hcareful
  unfold System.mmap at hmap
  split at hmap
  · rename_i hmay
    obtain ⟨hmem, -, hlive⟩ := System.inUserCode_iff.mp hmay.1
    rw [hone _ hmem] at hlive hmap
    obtain ⟨⟨m', addr⟩, hm', rfl⟩ := Option.map_eq_some_iff.mp hmap
    obtain ⟨P, n, hm, -, -⟩ := mmap_cases hm'
    obtain rfl : mf = ⟨P * PageSize, n, f⟩ := by
      have hfirst := hm.files me
      rw [if_pos rfl, hu.files] at hfirst
      exact (List.singleton_injective (hmf.symm.trans hfirst))
    exact ⟨hi.mmap hm hwithin.victim, hclock, MapInv.mmap hu hi hfull hone hlive hwithin.victim hm⟩
  · cases hmap

omit [VmConfig] in
theorem mappedContents_snoc (T : Threads) (m : Memory) (mf : MappedFile) (tr : Moves)
    (x : System × Move) :
    mappedContents T m mf (tr ++ [x]) = (mappedContents T m mf tr).after T x := by
  unfold mappedContents
  rw [List.foldl_append]
  rfl

theorem MapInv.mirrors_of_inv (h : MapInv c me mf L s) (hi : Inv T s)
    (hone : ∀ t ∈ T.all, T.process t = me) : Mirrors c me mf L s := by
  refine h.mirrors fun hdead u p hp => ?_
  cases hx : p.emptying with
  | none => rfl
  | some x =>
    have hlive := live_of_handler hi hone hp (Pc.destroys_of_emptying hx)
    exact nomatch hlive.symm.trans hdead

/-- A page that is in the file as a whole. -/
theorem offset_inside {v : Nat} (haligned : PageSize ∣ mf.first_address) (hv : mf.Has v) :
    mf.offset v + PageSize ≤ mf.size * PageSize := by
  obtain ⟨k, hk⟩ := haligned
  obtain ⟨hle, hlt⟩ := hv
  unfold MappedFile.offset
  rw [hk, Nat.mul_comm PageSize k] at hle hlt ⊢
  rw [← Nat.add_mul] at hlt
  have hpage := Nat.lt_of_mul_lt_mul_right hlt
  have hfirst := Nat.le_of_mul_le_mul_right hle pageSize_pos
  rw [← Nat.sub_mul]
  calc (v - k) * PageSize + PageSize = (v - k + 1) * PageSize := (Nat.succ_mul ..).symm
    _ ≤ mf.size * PageSize := Nat.mul_le_mul_right _ (by omega)

theorem MapInv.not_extends (h : MapInv c me mf L s) (hsize : mf.size * PageSize ≤ L) :
    ¬ Extends mf s move := by
  rintro ⟨-, p, ad, hp, hw, -, -, hlt, -⟩
  rw [h.length] at hlt
  have hin : ∃ v, mf.Has v ∧ ad = mf.offset v := by
    cases p with
    | writeFile q x f ad' =>
      obtain ⟨hv, -, had⟩ := (h.place _ _ hp).writeFile q x f ad' rfl
      obtain ⟨-, rfl⟩ := Prod.mk.inj (Option.some.inj hw)
      exact ⟨_, hv, had⟩
    | destroyWrite b i f ad' fr =>
      obtain ⟨hv, -, had, -⟩ := (h.place _ _ hp).destroyWrite b i f ad' fr rfl
      obtain ⟨-, rfl⟩ := Prod.mk.inj (Option.some.inj hw)
      exact ⟨_, hv, had⟩
    | _ => exact nomatch hw
  obtain ⟨v, hv, rfl⟩ := hin
  have hinside := offset_inside h.mapping.aligned hv
  rw [Int.toNat_natCast] at hlt
  omega

/-- When all pages of the mapping are in the file, nothing goes wrong. -/
theorem mapping_mirrors_inside {s₀ s₁ : System} {tr₀ tr : Moves} {maxNumPages size : Nat}
    {f : FileId} (hone : ∀ t ∈ T.all, T.process t = me) (h₀ : Booted s₀)
    (hfiles : (s₀.memory.spaces me).mapped_files = []) (hr₀ : Run (Vm.step T) s₀ tr₀ s)
    (hnot : ∀ x ∈ tr₀, ∀ b, x.2 ≠ .destroy b) (hmap : s.mmap T maxNumPages f size = some s₁)
    (hmf : (s₁.memory.spaces me).mapped_files = [mf]) (hr : Run (Vm.step T) s₁ tr s')
    (hdestroy : ∀ x ∈ tr, ∀ b, x.2 = .destroy b → b = me)
    (hsize : mf.size * PageSize ≤ (s₁.memory.files f).length) :
    Mirrors (mappedContents T s₁.memory mf tr) me mf (s₁.memory.files f).length s' := by
  suffices h : Inv T s' ∧ ClockOk s' ∧ MapInv (mappedContents T s₁.memory mf tr) me mf
      (s₁.memory.files f).length s' by
    obtain ⟨hi, -, hm⟩ := h
    exact hm.mirrors_of_inv hi hone
  refine hr.invariant_of_steps (I := fun tr s => Inv T s ∧ ClockOk s ∧
    MapInv (mappedContents T s₁.memory mf tr) me mf (s₁.memory.files f).length s)
    (C := fun _ move => ∀ b, move = .destroy b → b = me)
    (mapInv_of_mmap hone h₀ hfiles hr₀ hnot hmap hmf) ?_ hdestroy
  intro tr t a t' ⟨hi, hclock, hm⟩ hd hs
  have hs' := step_cases hs
  rw [mappedContents_snoc]
  exact ⟨hi.step hclock (hm.careful hi hclock a) hs', hclock.step hs',
    hm.step hi hone hclock hd (hm.not_extends hsize) hs'⟩

end Runs

/-! ## A file that gets longer, and one that does not -/

/-- One thread, of the process 0. -/
def oneThread : Threads := ⟨[0], fun _ => 0⟩

/-- The process has one page, and the files have the length. -/
def oneProcess (length : Nat) : Memory :=
  let _ := VmConfig.two
  newMemory (fun b => newSpace (if b = 0 then 1 else 0) (fun _ => -1) [])
    fun _ => ⟨fun i => BitVec.ofNat 8 i, length, 256⟩

omit [VmConfig] in
theorem booted_oneProcess (length : Nat) :
    @Booted VmConfig.two ⟨oneProcess length, 0, fun _ => none⟩ :=
  let _ := VmConfig.two
  booted_new (fun b => if b = 0 then 1 else 0) (fun _ _ => -1) fun _ => []

/-- The process maps the file 0, which has the length, and goes on. -/
def mapAndRun (length : Nat) (moves : List Move) : Option (System × Moves × System) :=
  let _ := VmConfig.two
  (System.mmap oneThread 16 ⟨oneProcess length, 0, fun _ => none⟩ 0 length).bind fun s =>
    (exec (step oneThread) s moves).map fun x => (s, x)

omit [VmConfig] in
theorem mapAndRun_cases {length : Nat} {moves : List Move} {s₁ s : System} {tr : Moves}
    (h : mapAndRun length moves = some (s₁, tr, s)) :
    @System.mmap VmConfig.two oneThread 16 ⟨oneProcess length, 0, fun _ => none⟩ 0 length =
      some s₁ ∧ Run (@step VmConfig.two oneThread) s₁ tr s := by
  obtain ⟨s₁', hmap, hx⟩ := Option.bind_eq_some_iff.mp h
  obtain ⟨⟨tr', s'⟩, he, hx⟩ := Option.map_eq_some_iff.mp hx
  simp only [Prod.mk.injEq] at hx
  obtain ⟨rfl, rfl, rfl⟩ := hx
  exact ⟨hmap, run_of_exec he⟩

/-- A move that ends no process but `b`. -/
def Move.destroysOnly (b : SpaceId) : Move → Bool
  | .destroy b' => b' == b
  | _ => true

omit [VmConfig] in
theorem Move.eq_of_destroysOnly {b b' : SpaceId} (h : (Move.destroy b').destroysOnly b = true) :
    b' = b :=
  beq_iff_eq.mp h

/-- The process stores into the first page of the file, and exits. -/
def storeAndExit : List Move :=
  List.flatten [loads 1 5, [.store 128 1 9, .destroy 0], goOn 5]

/-- Whether the step makes the file longer. -/
def extendsAt (mf : MappedFile) (x : System × Move) : Bool :=
  let _ := VmConfig.two
  match (x.1.pc x.1.current).bind Pc.writes with
  | some (_, ad) =>
    let f := x.1.memory.files mf.file
    decide (ad.toNat ≤ f.length ∧ f.length < ad.toNat + PageSize)
  | none => false

omit [VmConfig] in
theorem not_extends_of_extendsAt {x : System × Move} {mf : MappedFile}
    (h : extendsAt mf x = false) : ¬ @Extends VmConfig.two mf x.1 x.2 := by
  let _ := VmConfig.two
  rintro ⟨-, p, ad, hp, hw, -, hle, hlt, -⟩
  unfold extendsAt at h
  rw [hp, Option.bind_some, hw] at h
  exact of_decide_eq_false h ⟨hle, hlt⟩

/-- The process modifies both pages of the file, of which one is evicted, and exits. -/
def storeEvictAndExit : List Move :=
  List.flatten [loads 1 5, [.store 128 1 9], loads 2 5, [.store 256 4 77], loads 0 9,
    [.destroy 0], goOn 6]

end Vm
end Nachos
