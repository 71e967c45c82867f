/-
  Nachos.Vm.Machine

  Virtual memory: the page fault handler (`vm/pagefaultmanager.cc`), the frames and
  the page replacement (`vm/physMem.cc`), the swap area (`vm/swapManager.cc`), the
  destructor of an address space (`kernel/addrspace.cc`) and the accesses of user
  code (`machine/mmu.cc`), for any number of address spaces and threads.

  A thread of the kernel is at a place (`Pc`) of `PageFault`, of `EvictPage` called
  from it, or of `~AddrSpace`, and goes from place to place until it yields or blocks
  on a disk; only there another thread runs.  An access to a disk blocks twice: until
  the request is made, which moves the data, and until it is served.

  A file is its bytes, with the length that the disk lets it reach.
-/

import Nachos.Filesys.Disk

namespace Nachos
namespace Vm

open Words

abbrev SpaceId := Nat
abbrev ThreadId := Nat
abbrev FileId := Nat

/-- `NumPhysPages` of the configuration; `PageSize` is `SectorSize` there. -/
class VmConfig extends Config where
  NumPhysPages : Nat
  pos : 0 < NumPhysPages

export VmConfig (NumPhysPages)

abbrev PageSize [VmConfig] : Nat := Config.SectorSize

/-- The bytes of a page; past `PageSize` they mean nothing. -/
abbrev Page := Nat → Byte

/-- `tpr_c`. -/
structure Frame where
  free : Bool
  locked : Bool
  virtualPage : Nat
  owner : Option SpaceId

structure PageTableEntry where
  physicalPage : Nat
  addrDisk : Int
  valid : Bool
  io : Bool
  swap : Bool
  U : Bool
  M : Bool
  readAllowed : Bool
  writeAllowed : Bool

namespace PageTableEntry

/-! The setters of `TranslationTable`. -/

def setBitIo (e : PageTableEntry) : PageTableEntry := { e with io := true }
def clearBitIo (e : PageTableEntry) : PageTableEntry := { e with io := false }
def setBitValid (e : PageTableEntry) : PageTableEntry := { e with valid := true }
def clearBitValid (e : PageTableEntry) : PageTableEntry := { e with valid := false }
def setBitU (e : PageTableEntry) : PageTableEntry := { e with U := true }
def clearBitU (e : PageTableEntry) : PageTableEntry := { e with U := false }
def setBitM (e : PageTableEntry) : PageTableEntry := { e with M := true }
def clearBitM (e : PageTableEntry) : PageTableEntry := { e with M := false }
def setBitSwap (e : PageTableEntry) : PageTableEntry := { e with swap := true }
def setAddrDisk (addrDisk : Int) (e : PageTableEntry) : PageTableEntry :=
  { e with addrDisk := addrDisk }
def setPhysicalPage (p : Nat) (e : PageTableEntry) : PageTableEntry :=
  { e with physicalPage := p }

/-- The end of `PageFault`: the page is in frame `p`. -/
def loaded (p : Nat) (e : PageTableEntry) : PageTableEntry :=
  (e.setPhysicalPage p).clearBitIo.clearBitM.setBitU.setBitValid

/-- `EvictPage` after `PutPageSwap`; `fresh`: the page had no sector before. -/
def swapped (addrDisk : Int) (fresh : Bool) (e : PageTableEntry) : PageTableEntry :=
  if fresh then (e.setAddrDisk addrDisk).setBitSwap else e.setAddrDisk addrDisk

/-- The bits that `Translate` sets. -/
def accessed (writing : Bool) (e : PageTableEntry) : PageTableEntry :=
  if writing then e.setBitM.setBitU else e.setBitU

end PageTableEntry

/-- `s_mapped_file`; the size is in pages. -/
structure MappedFile where
  first_address : Nat
  size : Nat
  file : FileId

/-- An address space, with the executable file of its process. -/
structure AddrSpace where
  translationTable : Nat → PageTableEntry
  freePageId : Nat
  mapped_files : List MappedFile
  exec_file : FileId

/-- `dying i`: the destructor has dealt with the pages below `i`; `dead`: it has
    deleted the translation table. -/
inductive Status where
  | live
  | dying (i : Nat)
  | dead
  deriving DecidableEq

structure File where
  bytes : Nat → Byte
  length : Nat
  maxLength : Nat

/-- The objects that all threads share. -/
structure Memory where
  tpr : Nat → Frame
  free_page_list : List Nat
  i_clock : Int
  mainMemory : Nat → Byte
  page_flags : Nat → Bool
  swap_disk : Nat → Page
  spaces : SpaceId → AddrSpace
  status : SpaceId → Status
  files : FileId → File

/-! ## Entries and frames -/

namespace Memory

variable (m : Memory)

def entry (b : SpaceId) (v : Nat) : PageTableEntry := (m.spaces b).translationTable v

/-- The setters of the translation table of `b` for the page `v`. -/
def modifyEntry (b : SpaceId) (v : Nat) (f : PageTableEntry → PageTableEntry) : Memory :=
  { m with
    spaces := Function.update m.spaces b { m.spaces b with
      translationTable := Function.update (m.spaces b).translationTable v (f (m.entry b v)) } }

def modifyFrame (p : Nat) (f : Frame → Frame) : Memory :=
  { m with tpr := Function.update m.tpr p (f (m.tpr p)) }

variable {m : Memory} {b b' : SpaceId} {v v' : Nat} {p p' : Nat}

theorem entry_modifyEntry (f : PageTableEntry → PageTableEntry) :
    (m.modifyEntry b v f).entry b' v' =
      if b' = b ∧ v' = v then f (m.entry b v) else m.entry b' v' := by
  unfold entry modifyEntry
  by_cases hb : b' = b
  · subst hb
    by_cases hv : v' = v
    · subst hv
      simp [entry]
    · simp [hv]
  · simp [hb]

@[simp] theorem entry_modifyEntry_self (f : PageTableEntry → PageTableEntry) :
    (m.modifyEntry b v f).entry b v = f (m.entry b v) := by
  simp [entry_modifyEntry]

/-- A field of the entries that `f` does not change. -/
theorem field_modifyEntry {α : Type} (g : PageTableEntry → α) {f : PageTableEntry → PageTableEntry}
    (hf : ∀ e, g (f e) = g e) : g ((m.modifyEntry b v f).entry b' v') = g (m.entry b' v') := by
  rw [entry_modifyEntry]
  split
  · rename_i h
    rw [hf, h.1, h.2]
  · rfl

section modifyEntry

variable (f : PageTableEntry → PageTableEntry)

@[simp] theorem modifyEntry_tpr : (m.modifyEntry b v f).tpr = m.tpr := rfl
@[simp] theorem modifyEntry_list : (m.modifyEntry b v f).free_page_list = m.free_page_list := rfl
@[simp] theorem modifyEntry_status : (m.modifyEntry b v f).status = m.status := rfl
@[simp] theorem modifyEntry_flags : (m.modifyEntry b v f).page_flags = m.page_flags := rfl
@[simp] theorem modifyEntry_swap : (m.modifyEntry b v f).swap_disk = m.swap_disk := rfl
@[simp] theorem modifyEntry_files : (m.modifyEntry b v f).files = m.files := rfl
@[simp] theorem modifyEntry_main : (m.modifyEntry b v f).mainMemory = m.mainMemory := rfl

/-- All of an address space but its translation table. -/
@[simp] theorem modifyEntry_space (b' : SpaceId) :
    ((m.modifyEntry b v f).spaces b').freePageId = (m.spaces b').freePageId ∧
      ((m.modifyEntry b v f).spaces b').mapped_files = (m.spaces b').mapped_files ∧
      ((m.modifyEntry b v f).spaces b').exec_file = (m.spaces b').exec_file := by
  unfold modifyEntry
  by_cases hb : b' = b
  · subst hb
    simp
  · simp [hb]

end modifyEntry

section modifyFrame

variable (f : Frame → Frame)

@[simp] theorem modifyFrame_entry : (m.modifyFrame p f).entry b v = m.entry b v := rfl
@[simp] theorem modifyFrame_tpr_self : (m.modifyFrame p f).tpr p = f (m.tpr p) := by
  simp [modifyFrame]

theorem modifyFrame_tpr :
    (m.modifyFrame p f).tpr p' = if p' = p then f (m.tpr p) else m.tpr p' := by
  simp [modifyFrame, Function.update_apply]

end modifyFrame

end Memory

section

variable [VmConfig]

/-! ## Files and pages -/

/-- `OpenFile::ReadAt` of a page: what is past the end of the file is not read. -/
def File.readAt (f : File) (buffer : Page) (position : Nat) : Page := fun i =>
  if i < PageSize ∧ position + i < f.length then f.bytes (position + i) else buffer i

/-- The bytes of a page that `OpenFile::WriteAt` writes: all of them, or those that are in
    the file when `reAllocate` finds no room. -/
def File.numBytes (f : File) (position : Nat) : Nat :=
  if position + PageSize ≤ max f.length f.maxLength then PageSize else f.length - position

/-- `OpenFile::WriteAt` of a page. -/
def File.writeAt (f : File) (data : Page) (position : Nat) : File :=
  if position > f.length then f
  else
    let numBytes := f.numBytes position
    { f with
      bytes := fun i =>
        if position ≤ i ∧ i < position + numBytes then data (i - position) else f.bytes i
      length := max f.length (position + numBytes) }

section writeAt

variable {f : File} {data : Page} {position : Nat}

/-- The file grows when it has all the bytes before the page, and there is room for it. -/
theorem File.length_writeAt : (f.writeAt data position).length =
    if position ≤ f.length ∧ position + PageSize ≤ max f.length f.maxLength then
      max f.length (position + PageSize)
    else f.length := by
  unfold File.writeAt File.numBytes
  by_cases hle : position ≤ f.length
  · rw [if_neg (by omega)]
    by_cases hroom : position + PageSize ≤ max f.length f.maxLength
    · simp only [hroom, hle, if_true, and_self]
    · simp only [hroom, if_false, and_false]
      omega
  · rw [if_pos (by omega), if_neg fun h => hle h.1]

theorem File.bytes_writeAt (k : Nat) : (f.writeAt data position).bytes k =
    if position ≤ f.length ∧ position ≤ k ∧ k < position + f.numBytes position then
      data (k - position)
    else f.bytes k := by
  unfold File.writeAt
  by_cases hle : position ≤ f.length
  · rw [if_neg (by omega)]
    simp only [hle, true_and]
  · rw [if_pos (by omega), if_neg fun h => hle h.1]

/-- There is room for the whole page. -/
theorem File.writeAt_page (hle : position ≤ f.length)
    (hroom : position + PageSize ≤ max f.length f.maxLength) {i : Nat} (hi : i < PageSize) :
    position + i < (f.writeAt data position).length ∧
      (f.writeAt data position).bytes (position + i) = data i := by
  have hnum : f.numBytes position = PageSize := if_pos hroom
  rw [File.length_writeAt, File.bytes_writeAt, if_pos ⟨hle, hroom⟩, hnum,
    if_pos ⟨hle, by omega, by omega⟩, Nat.add_sub_cancel_left]
  exact ⟨by omega, rfl⟩

end writeAt

/-- `AddrSpace::findMappedFile`. -/
def AddrSpace.findMappedFile (s : AddrSpace) (addr : Nat) : Option FileId :=
  (s.mapped_files.find? fun mf =>
    decide (addr ≥ mf.first_address ∧ addr < mf.first_address + (mf.size + 1) * PageSize)).map
      MappedFile.file

namespace Memory

variable (m : Memory)

/-- The bytes of a frame. -/
def frame (p : Nat) : Page := fun i => m.mainMemory (p * PageSize + i)

/-- `memcpy` of a page into a frame. -/
def fill (p : Nat) (buffer : Page) : Memory :=
  { m with
    mainMemory := fun j =>
      if p * PageSize ≤ j ∧ j < p * PageSize + PageSize then buffer (j - p * PageSize)
      else m.mainMemory j }

/-- `SwapManager::GetFreePage`: the first clear bit, if there is one. -/
def GetFreePage : Option Nat := (List.range NUM_SECTORS).find? fun s => !m.page_flags s

/-- `SwapManager::PutPageSwap` up to the request: the sector that is to be written. -/
def PutPageSwap (num_sector : Int) : Memory × Option Nat :=
  if num_sector ≥ 0 then (m, some num_sector.toNat)
  else
    match m.GetFreePage with
    | some s => ({ m with page_flags := Function.update m.page_flags s true }, some s)
    | none => (m, none)

/-- `PhysicalMemManager::RemovePhysicalToVirtualMapping`; `none` when the `ASSERT`
    fails. -/
def RemovePhysicalToVirtualMapping (p : Nat) : Option Memory :=
  if (m.tpr p).free then none
  else
    let m' := { m with free_page_list := p :: m.free_page_list }.modifyFrame p
      fun fr => { fr with free := true, locked := false }
    match (m.tpr p).owner with
    | none => none
    | some b =>
        if m.status b = .dead then none
        else some (m'.modifyEntry b (m.tpr p).virtualPage .clearBitValid)

/-- The swap part of `~AddrSpace` for the page `i`. -/
def ReleasePageSwap (b : SpaceId) (i : Nat) : Memory :=
  let e := m.entry b i
  if e.swap ∧ e.addrDisk ≥ 0 then
    { m with page_flags := Function.update m.page_flags e.addrDisk.toNat false }
  else m

end Memory

/-! ## The routines -/

/-- A page fault: the page, and the buffer of the handler. -/
structure Fault where
  vpn : Nat
  buffer : Page

/-- A page that is being evicted. -/
structure Victim where
  frame : Nat
  space : SpaceId
  vpn : Nat

/-- The places in the routines.  The thread has yielded, or is blocked, at those of
    `Pc.switches`. -/
inductive Pc where
  -- `PageFault`
  | faultIo (q : Fault)
  | faultYield (q : Fault)
  | addrIo (q : Fault)
  | addrYield (q : Fault)
  | readFile (q : Fault) (f : FileId) (ad : Int)
  | readSwap (q : Fault) (sector : Int)
  | readDone (q : Fault)
  | map (q : Fault)
  | mapped (q : Fault) (p : Nat)
  -- `EvictPage`
  | search (q : Fault) (local_i_clock i : Nat)
  | searchYield (q : Fault) (local_i_clock i : Nat)
  | evictIo (q : Fault) (x : Victim)
  | evictYield (q : Fault) (x : Victim)
  | writeFile (q : Fault) (x : Victim) (f : FileId) (ad : Int)
  | wroteFile (q : Fault) (x : Victim)
  | writeSwap (q : Fault) (x : Victim) (sector : Nat) (addrDisk : Int) (fresh : Bool)
  | wroteSwap (q : Fault) (x : Victim) (sector : Nat) (addrDisk : Int) (fresh : Bool)
  -- `~AddrSpace`
  | destroyPage (b : SpaceId) (i : Nat)
  | destroyWrite (b : SpaceId) (i : Nat) (f : FileId) (ad : Int) (p : Nat)
  | destroyWrote (b : SpaceId) (i : Nat)

/-- The thread has yielded or is blocked. -/
def Pc.switches : Pc → Bool
  | faultYield _ => true
  | addrYield _ => true
  | readFile _ _ _ => true
  | readSwap _ _ => true
  | readDone _ => true
  | searchYield _ _ _ => true
  | evictYield _ _ => true
  | writeFile _ _ _ _ => true
  | wroteFile _ _ => true
  | writeSwap _ _ _ _ _ => true
  | wroteSwap _ _ _ _ _ => true
  | destroyWrite _ _ _ _ _ => true
  | destroyWrote _ _ => true
  | _ => false

/-- The test of the clock: the page in the frame was used, or the frame is locked. -/
def Memory.busy (m : Memory) (p : Nat) (b : SpaceId) : Bool :=
  (m.entry b (m.tpr p).virtualPage).U || (m.tpr p).locked

/-- The end of `EvictPage` and of `AddPhysicalToVirtualMapping`: the frame is for the
    page of the fault. -/
def Memory.takeOver (m : Memory) (me : SpaceId) (q : Fault) (x : Victim) : Memory :=
  (m.modifyEntry x.space x.vpn .clearBitIo).modifyFrame x.frame
    fun fr => { fr with virtualPage := q.vpn, owner := some me, locked := true }

/-- `EvictPage` with the call of `PutPageSwap`. -/
def swapOut (me : SpaceId) (m : Memory) (q : Fault) (x : Victim) (num_sector : Int)
    (fresh : Bool) : Memory × Pc :=
  -- The address on the disk is hidden while the page is written.
  let hidden := m.modifyEntry x.space x.vpn (.setAddrDisk (-1))
  match hidden.PutPageSwap num_sector with
  | (m, some s) => (m, .writeSwap q x s (if fresh then s else num_sector) fresh)
  | (m, none) => ((m.modifyEntry x.space x.vpn (.swapped num_sector fresh)).takeOver me q x,
      .mapped q x.frame)

/-- `EvictPage` after `setBitIo`: where the page goes. -/
def evict (me : SpaceId) (m : Memory) (q : Fault) (x : Victim) : Memory × Pc :=
  let e := m.entry x.space x.vpn
  match (m.spaces me).findMappedFile (x.vpn * PageSize) with
  | some f =>
      if e.M then (m, .writeFile q x f e.addrDisk)
      else (m.takeOver me q x, .mapped q x.frame)
  | none =>
      if e.swap then
        if e.M then swapOut me m q x e.addrDisk false
        else (m.takeOver me q x, .mapped q x.frame)
      else swapOut me m q x (-1) true

/-- `PageFault` after `setBitIo`: where the page comes from. -/
def load (me : SpaceId) (m : Memory) (q : Fault) : Pc :=
  let e := m.entry me q.vpn
  match (m.spaces me).findMappedFile (q.vpn * PageSize) with
  | some f => .readFile q f e.addrDisk
  | none =>
      if e.swap then .addrIo q
      else if e.addrDisk = -1 then .map { q with buffer := fun _ => 0 }
      else .readFile q (m.spaces me).exec_file e.addrDisk

/-- The next step of a thread of `me`, with the place it comes to (`none`: the routine
    returns).  There is no step when an `ASSERT` fails, a `NULL` or deleted translation
    table is used, or a file is read or written at a negative position. -/
def next (me : SpaceId) (m : Memory) : Pc → Option (Memory × Option Pc)
  | .faultIo q =>
      let e := m.entry me q.vpn
      if e.io then some (m, some (.faultYield q))
      else if e.valid then some (m, none)
      else
        let m := m.modifyEntry me q.vpn .setBitIo
        some (m, some (load me m q))
  | .faultYield q => some (m, some (.faultIo q))
  | .addrIo q =>
      let num_sector := (m.entry me q.vpn).addrDisk
      if num_sector = -1 then some (m, some (.addrYield q))
      else some (m, some (.readSwap q num_sector))
  | .addrYield q => some (m, some (.addrIo q))
  | .readFile q f ad =>
      if ad < 0 then none
      else some (m, some (.readDone { q with buffer := (m.files f).readAt q.buffer ad.toNat }))
  | .readSwap q sector =>
      if sector < 0 ∨ sector ≥ NUM_SECTORS then none
      else some (m, some (.readDone { q with buffer := m.swap_disk sector.toNat }))
  | .readDone q => some (m, some (.map q))
  | .map q =>
      -- `AddPhysicalToVirtualMapping`
      match m.free_page_list with
      | p :: rest =>
          if (m.tpr p).free then
            some ({ m with free_page_list := rest }.modifyFrame p fun _ =>
              { free := false, locked := true, virtualPage := q.vpn, owner := some me },
              some (.mapped q p))
          else none
      | [] => some (m, some (.search q ((m.i_clock + 1).toNat % NumPhysPages) 0))
  | .mapped q p =>
      if (m.tpr p).locked ∧ ¬ (m.tpr p).free then
        some (((m.fill p q.buffer).modifyEntry me q.vpn (.loaded p)).modifyFrame p
          fun fr => { fr with locked := false }, none)
      else none
  | .search q local_i_clock i =>
      match (m.tpr local_i_clock).owner with
      | none => none
      | some b =>
          if m.status b = .dead then none
          else
            let v := (m.tpr local_i_clock).virtualPage
            if m.busy local_i_clock b then
              let m := m.modifyEntry b v .clearBitU
              if i + 1 > NumPhysPages then
                -- Back at the beginning: nothing found.
                some ({ m with i_clock := local_i_clock },
                  some (.searchYield q local_i_clock (i + 1)))
              else some (m, some (.search q ((local_i_clock + 1) % NumPhysPages) (i + 1)))
            else
              let m := m.modifyEntry b v .clearBitValid
              some ({ m with i_clock := local_i_clock }.modifyFrame local_i_clock
                  fun fr => { fr with locked := true },
                some (.evictIo q ⟨local_i_clock, b, v⟩))
  | .searchYield q local_i_clock i =>
      some (m, some (.search q ((local_i_clock + 1) % NumPhysPages) i))
  | .evictIo q x =>
      if m.status x.space = .dead then none
      else if (m.entry x.space x.vpn).io then some (m, some (.evictYield q x))
      else
        let r := evict me (m.modifyEntry x.space x.vpn .setBitIo) q x
        some (r.1, some r.2)
  | .evictYield q x => some (m, some (.evictIo q x))
  | .writeFile q x f ad =>
      if ad < 0 then none
      else
        some ({ m with
          files := Function.update m.files f ((m.files f).writeAt (m.frame x.frame) ad.toNat) },
          some (.wroteFile q x))
  | .wroteFile q x =>
      if m.status x.space = .dead then none
      else some (m.takeOver me q x, some (.mapped q x.frame))
  | .writeSwap q x sector addrDisk fresh =>
      if sector ≥ NUM_SECTORS then none
      else
        some ({ m with swap_disk := Function.update m.swap_disk sector (m.frame x.frame) },
          some (.wroteSwap q x sector addrDisk fresh))
  | .wroteSwap q x _ addrDisk fresh =>
      if m.status x.space = .dead then none
      else
        some ((m.modifyEntry x.space x.vpn (.swapped addrDisk fresh)).takeOver me q x,
          some (.mapped q x.frame))
  | .destroyPage b i =>
      if i < (m.spaces b).freePageId then
        let e := m.entry b i
        if e.valid then
          match (m.spaces b).findMappedFile (i * PageSize), e.M with
          | some f, true => some (m, some (.destroyWrite b i f e.addrDisk e.physicalPage))
          | _, _ => releasePage m b i
        else some (passPage m b i, some (.destroyPage b (i + 1)))
      else some ({ m with status := Function.update m.status b .dead }, none)
  | .destroyWrite b i f ad p =>
      if ad < 0 then none
      else
        some ({ m with
          files := Function.update m.files f ((m.files f).writeAt (m.frame p) ad.toNat) },
          some (.destroyWrote b i))
  | .destroyWrote b i => releasePage m b i
where
  /-- The page `i` is dealt with. -/
  passPage (m : Memory) (b : SpaceId) (i : Nat) : Memory :=
    { m.ReleasePageSwap b i with status := Function.update m.status b (.dying (i + 1)) }
  releasePage (m : Memory) (b : SpaceId) (i : Nat) : Option (Memory × Option Pc) :=
    (m.RemovePhysicalToVirtualMapping (m.entry b i).physicalPage).map fun m =>
      (passPage m b i, some (.destroyPage b (i + 1)))

/-! ## The system -/

/-- The kernel: who runs, and where each thread is in the routines; a thread belongs
    to the address space `process t`. -/
structure System where
  memory : Memory
  current : ThreadId
  pc : ThreadId → Option Pc

/-- A step of the system.  `destroy b`: the running thread starts the destructor of
    `b`, when the threads of `b` have ended. -/
inductive Move where
  | switch (t : ThreadId)
  | load (virtAddr size : Nat)
  | store (virtAddr size : Nat) (value : BitVec 32)
  | fault (vpn : Nat) (buffer : Page)
  | destroy (b : SpaceId)
  | advance

/-- The page of the address can be accessed; `none` when an exception is raised, of
    which the page fault is a step of its own. -/
def Memory.Translate (m : Memory) (me : SpaceId) (virtAddr size : Nat) (writing : Bool) :
    Option (Memory × Nat) :=
  let vpn := virtAddr / PageSize
  let e := m.entry me vpn
  if virtAddr % size ≠ 0 then none
  else if ¬ (e.readAllowed ∨ e.writeAllowed) ∨ writing ∧ ¬ e.writeAllowed then none
  else if ¬ e.valid ∨ e.physicalPage ≥ NumPhysPages then none
  else
    some (m.modifyEntry me vpn (.accessed writing),
      e.physicalPage * PageSize + virtAddr % PageSize)

/-- The bytes of a word, the lowest first. -/
def valueByte (value : BitVec 32) (j : Nat) : Byte := value.extractLsb' (8 * j) 8

/-- `MMU::WriteMem`. -/
def Memory.WriteMem (m : Memory) (me : SpaceId) (virtAddr size : Nat) (value : BitVec 32) :
    Option Memory :=
  if size = 1 ∨ size = 2 ∨ size = 4 then
    (m.Translate me virtAddr size true).map fun r =>
      { r.1 with
        mainMemory := fun j =>
          if r.2 ≤ j ∧ j < r.2 + size then valueByte value (j - r.2) else r.1.mainMemory j }
  else none

/-- The value that `MMU::ReadMem` makes of the bytes it finds: a byte is a `char`, two
    bytes are an `unsigned short`. -/
def readValue (size : Nat) (b : Nat → Byte) : BitVec 32 :=
  if size = 1 then (b 0).signExtend 32
  else if size = 2 then ((b 1) ++ (b 0)).setWidth 32
  else (b 3) ++ (b 2) ++ (b 1) ++ (b 0)

/-- `MMU::ReadMem`. -/
def Memory.ReadMem (m : Memory) (me : SpaceId) (virtAddr size : Nat) :
    Option (Memory × BitVec 32) :=
  if size = 1 ∨ size = 2 ∨ size = 4 then
    (m.Translate me virtAddr size false).map fun r =>
      (r.1, readValue size fun j => r.1.mainMemory (r.2 + j))
  else none

/-- The threads there are, and the address space that each belongs to. -/
structure Threads where
  all : List ThreadId
  process : ThreadId → SpaceId

variable (T : Threads)

namespace System

/-- The running thread may lose the processor where it is. -/
def maySwitch (s : System) : Bool :=
  match s.pc s.current with
  | none => true
  | some p => p.switches

/-- The running thread executes user code. -/
def inUserCode (s : System) : Bool :=
  s.current ∈ T.all ∧ (s.pc s.current).isNone ∧
    s.memory.status (T.process s.current) = .live

/-- The threads of `b` are in no routine. -/
def ended (s : System) (b : SpaceId) : Bool :=
  T.all.all fun t => T.process t ≠ b ∨ (s.pc t).isNone

end System

/-- A step of the system. -/
def step (s : System) : Move → Option System
  | .switch t => if s.maySwitch then some { s with current := t } else none
  | .load virtAddr size =>
      if s.inUserCode T then
        (s.memory.ReadMem (T.process s.current) virtAddr size).map fun r =>
          { s with memory := r.1 }
      else none
  | .store virtAddr size value =>
      if s.inUserCode T then
        (s.memory.WriteMem (T.process s.current) virtAddr size value).map fun m =>
          { s with memory := m }
      else none
  | .fault vpn buffer =>
      let e := s.memory.entry (T.process s.current) vpn
      if s.inUserCode T ∧ ¬ e.valid ∧ (e.readAllowed ∨ e.writeAllowed) then
        some { s with pc := Function.update s.pc s.current (some (.faultIo ⟨vpn, buffer⟩)) }
      else none
  | .destroy b =>
      if s.current ∈ T.all ∧ (s.pc s.current).isNone ∧ s.memory.status b = .live ∧
          s.ended T b then
        some { s with
          memory := { s.memory with status := Function.update s.memory.status b (.dying 0) }
          pc := Function.update s.pc s.current (some (.destroyPage b 0)) }
      else none
  | .advance =>
      (s.pc s.current).bind fun p =>
        (next (T.process s.current) s.memory p).map fun r =>
          { s with memory := r.1, pc := Function.update s.pc s.current r.2 }

end

end Vm
end Nachos
