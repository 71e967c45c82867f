/-
  Nachos.Vm.Loader

  The constructor of `AddrSpace` from an executable file, with both ways that the code has
  to load the pages: each into a frame at once, or when the page is used, by the page
  fault handler.  The first page fault gives a page the bytes and the rights that it would
  have got at once.
-/

import Nachos.Vm.Alone

namespace Nachos
namespace Vm

open Transition Words StateTransition

/-! ## The executable file -/

/-- The fields of the header of an ELF file that are used. -/
structure Elf32_Ehdr where
  msb : Bool
  e_shoff : BitVec 32
  e_shnum : BitVec 16

/-- The fields of a section header that are used. -/
structure Elf32_Shdr where
  sh_type : BitVec 32
  sh_flags : BitVec 32
  sh_addr : BitVec 32
  sh_offset : BitVec 32
  sh_size : BitVec 32
  deriving DecidableEq

abbrev SHT_NOBITS : BitVec 32 := 8
abbrev SHF_WRITE : BitVec 32 := 1
abbrev SHF_ALLOC : BitVec 32 := 2

/-- `ShortToHost` and `WordToHost`: a number in the order of the file. -/
def ShortToHost (msb : Bool) (b : Nat → Byte) (i : Nat) : BitVec 16 :=
  if msb then b i ++ b (i + 1) else b (i + 1) ++ b i

def WordToHost (msb : Bool) (b : Nat → Byte) (i : Nat) : BitVec 32 :=
  if msb then b i ++ b (i + 1) ++ b (i + 2) ++ b (i + 3)
  else b (i + 3) ++ b (i + 2) ++ b (i + 1) ++ b i

/-- `CheckELFHeader`; `none` is `ExecFileFormatError`. -/
def CheckELFHeader (b : Nat → Byte) : Option Elf32_Ehdr :=
  if b 0 ≠ 0x7f ∨ b 1 ≠ 0x45 ∨ b 2 ≠ 0x4c ∨ b 3 ≠ 0x46 then none
  -- `ELFCLASS32`, `EV_CURRENT`
  else if b 4 ≠ 1 ∨ b 6 ≠ 1 then none
  else
    -- `ELFDATA2MSB`
    let msb := b 5 == 2
    -- `EM_MIPS`, `ET_EXEC`
    if ShortToHost msb b 18 ≠ 8 ∨ ShortToHost msb b 16 ≠ 2 then none
    -- `e_ehsize`, `e_shentsize`
    else if ShortToHost msb b 40 ≠ 52 ∨ ShortToHost msb b 46 ≠ 40 then none
    else if WordToHost msb b 32 < 52 then none
    -- `e_shstrndx`, `e_shnum`
    else if ShortToHost msb b 50 ≥ ShortToHost msb b 48 then none
    else some ⟨msb, WordToHost msb b 32, ShortToHost msb b 48⟩

/-- The section header at `i`. -/
def sectionHeader (msb : Bool) (b : Nat → Byte) (i : Nat) : Elf32_Shdr where
  sh_type := WordToHost msb b (i + 4)
  sh_flags := WordToHost msb b (i + 8)
  sh_addr := WordToHost msb b (i + 12)
  sh_offset := WordToHost msb b (i + 16)
  sh_size := WordToHost msb b (i + 20)

/-- `OpenFile::ReadAt` into an array. -/
def File.read (f : File) (into : Nat → Byte) (numBytes position : Nat) : Nat → Byte := fun i =>
  if i < numBytes ∧ position + i < f.length then f.bytes (position + i) else into i

/-- The section table of a file that is accepted.  What is past the end of the file is
    what the stack had in place of the arrays. -/
def sectionTable (f : File) (stack : Nat → Byte) : Option (List Elf32_Shdr) :=
  (CheckELFHeader (f.read stack 52 0)).bind fun h =>
    if h.e_shoff.toInt < 0 then none
    else
      -- The table is read with the size of the file header for that of its entries.
      let bytes := f.read stack (h.e_shnum.toNat * 52) h.e_shoff.toNat
      some ((List.range h.e_shnum.toNat).map fun i => sectionHeader h.msb bytes (40 * i))

namespace Elf32_Shdr

variable (sh : Elf32_Shdr)

/-- The section has to be loaded. -/
def loaded : Bool := sh.sh_size ≠ 0 ∧ sh.sh_flags &&& SHF_ALLOC ≠ 0

variable [VmConfig]

/-- `divRoundUp` of the size. -/
def pages : Nat := sh.sh_size.toNat / PageSize + if sh.sh_size.toNat % PageSize > 0 then 1 else 0

/-- Where the page `pgdisk` of the section is in the file, as an `int`. -/
def position (pgdisk : Nat) : Int := (sh.sh_offset + BitVec.ofNat 32 (pgdisk * PageSize)).toInt

end Elf32_Shdr

/-- The end of the last section. -/
def mem_topaddr (table : List Elf32_Shdr) : Int :=
  table.foldl (fun top sh =>
    let section_topaddr := (sh.sh_addr + sh.sh_size).toInt
    if sh.loaded ∧ section_topaddr > top then section_topaddr else top) 0

/-! ## The constructor -/

namespace PageTableEntry

def clearBitSwap (e : PageTableEntry) : PageTableEntry := { e with swap := false }
def setBitReadAllowed (e : PageTableEntry) : PageTableEntry := { e with readAllowed := true }
def setBitWriteAllowed (e : PageTableEntry) : PageTableEntry := { e with writeAllowed := true }
def clearBitWriteAllowed (e : PageTableEntry) : PageTableEntry := { e with writeAllowed := false }

/-- The rights of a page of the section. -/
def allow (sh : Elf32_Shdr) (e : PageTableEntry) : PageTableEntry :=
  if sh.sh_flags &&& SHF_WRITE ≠ 0 then e.setBitWriteAllowed else e.clearBitWriteAllowed

/-- The default values of the entry of a page that is loaded into a frame. -/
def start (sh : Elf32_Shdr) (e : PageTableEntry) : PageTableEntry :=
  (e.clearBitSwap.setBitReadAllowed.allow sh).clearBitIo

/-- The page is in its frame; later on it will be saved in the swap area. -/
def present (e : PageTableEntry) : PageTableEntry := (e.setAddrDisk (-1)).setBitValid

/-- The entry of a page that is not loaded. -/
def absent (sh : Elf32_Shdr) (addrDisk : Int) (e : PageTableEntry) : PageTableEntry :=
  ((e.clearBitSwap.setBitReadAllowed.setAddrDisk addrDisk).allow sh).clearBitIo.clearBitValid

end PageTableEntry

/-- `TranslationTable::TranslationTable`, in memory that has not been initialized. -/
def TranslationTable (heap : Nat → Nat × Bool) (v : Nat) : PageTableEntry where
  physicalPage := (heap v).1
  addrDisk := -1
  valid := false
  io := (heap v).2
  swap := false
  U := false
  M := false
  readAllowed := false
  writeAllowed := false

/-- `PhysicalMemManager::FindFreePage`; the outer `none` is the `ASSERT`. -/
def Memory.FindFreePage (m : Memory) : Option (Memory × Option Nat) :=
  match m.free_page_list with
  | [] => some (m, none)
  | p :: rest =>
      if (m.tpr p).free then
        some ({ m with free_page_list := rest }.modifyFrame p fun fr => { fr with free := false },
          some p)
      else none

section

variable [VmConfig]

/-- A page of a section: the section, and the number of the page in it. -/
abbrev Visit := Elf32_Shdr × Nat

/-- The virtual page. -/
def Visit.page (x : Visit) : Nat := x.1.sh_addr.toNat / PageSize + x.2

/-- The body of the loop without demand paging: the page is loaded into a frame.  There
    is no result when there is no frame, or an `ASSERT` fails. -/
def loadNow (b : SpaceId) (f : File) (maxNumPages : Nat) (m : Memory) (x : Visit) :
    Option Memory :=
  if x.page ≥ maxNumPages then none
  else
    let m := m.modifyEntry b x.page (.start x.1)
    match m.FindFreePage with
    | some (m, some pp) =>
        let m := (m.modifyFrame pp fun fr =>
          { fr with virtualPage := x.page, owner := some b, locked := true }).modifyEntry
            b x.page (.setPhysicalPage pp)
        if x.1.sh_type ≠ SHT_NOBITS then
          if x.1.position x.2 < 0 then none
          else some ((m.fill pp (f.readAt (m.frame pp) (x.1.position x.2).toNat)).modifyEntry
            b x.page .present)
        else some ((m.fill pp fun _ => 0).modifyEntry b x.page .present)
    | _ => none

/-- The body of the loop with demand paging: where the page is on the disk. -/
def loadLater (b : SpaceId) (maxNumPages : Nat) (m : Memory) (x : Visit) : Option Memory :=
  if x.page ≥ maxNumPages then none
  else some (m.modifyEntry b x.page (.absent x.1
    (if x.1.sh_type ≠ SHT_NOBITS then x.1.position x.2 else -1)))

/-- The pages of a section. -/
def Elf32_Shdr.visits (sh : Elf32_Shdr) : List Visit := (List.range sh.pages).map fun i => (sh, i)

/-- The loops over the sections and their pages. -/
def loadSections (loadPage : Memory → Visit → Option Memory) (table : List Elf32_Shdr)
    (m : Memory) : Option Memory :=
  table.foldlM (fun m sh =>
    if ¬ sh.loaded then some m
    else if sh.sh_addr.toNat % PageSize ≠ 0 then none
    else sh.visits.foldlM loadPage m) m

/-- `AddrSpace::AddrSpace` for the address space `b`, with the body of the loops. -/
def AddrSpace.new (loadPage : Memory → Visit → Option Memory) (heap : Nat → Nat × Bool)
    (stack : Nat → Byte) (maxNumPages : Nat) (b : SpaceId) (exec_file : FileId) (m : Memory) :
    Option Memory :=
  (sectionTable (m.files exec_file) stack).bind fun table =>
    let numPages := divRoundUp (mem_topaddr table) PageSize
    -- `Alloc` has to return 0.
    if numPages ≥ maxNumPages then none
    else
      loadSections loadPage table { m with
        spaces := Function.update m.spaces b
          { translationTable := TranslationTable heap
            freePageId := numPages.toNat
            mapped_files := []
            exec_file := exec_file } }

/-! ## Both loops -/

/-- The pages that are loaded, in their order; a page of several sections comes once for
    each. -/
def visits (table : List Elf32_Shdr) : List Visit :=
  table.flatMap fun sh => if sh.loaded then sh.visits else []

/-- The loops over the sections are one loop over the pages. -/
theorem loadSections_eq {loadPage : Memory → Visit → Option Memory} {table : List Elf32_Shdr}
    {m : Memory}
    (ha : ∀ sh ∈ table, sh.loaded = true → sh.sh_addr.toNat % PageSize = 0) :
    loadSections loadPage table m = (visits table).foldlM loadPage m := by
  induction table generalizing m with
  | nil => rfl
  | cons sh table ih =>
    have ha' := fun sh' hsh' => ha sh' (List.mem_cons_of_mem _ hsh')
    unfold loadSections visits at ih ⊢
    rw [List.foldlM_cons, List.flatMap_cons, List.foldlM_append]
    by_cases hl : sh.loaded = true
    · have hal := ha sh List.mem_cons_self hl
      rw [if_neg (by simpa using hl), if_neg (by simpa using hal), if_pos hl]
      exact bind_congr fun m' => ih ha'
    · rw [if_pos (by simpa using hl), if_neg hl]
      exact ih ha'

/-- The loops come to their end for sections at the beginning of a page only. -/
theorem aligned_of_loadSections {loadPage : Memory → Visit → Option Memory}
    {table : List Elf32_Shdr} {m m' : Memory} (h : loadSections loadPage table m = some m') :
    ∀ sh ∈ table, sh.loaded = true → sh.sh_addr.toNat % PageSize = 0 := by
  induction table generalizing m with
  | nil => simp
  | cons sh table ih =>
    unfold loadSections at ih h
    rw [List.foldlM_cons] at h
    obtain ⟨m₁, h₁, h₂⟩ := Option.bind_eq_some_iff.mp h
    intro sh' hsh' hl
    rcases List.mem_cons.mp hsh' with rfl | hsh'
    · by_contra hal
      rw [if_neg (by simpa using hl), if_pos hal] at h₁
      cases h₁
    · exact ih h₂ sh' hsh' hl

/-- The bytes are those that are meant by `addrDisk`, for a page that is not mapped and
    not in the swap area. -/
def Image (f : File) (addrDisk : Int) (p : Page) : Prop :=
  (addrDisk = -1 ∧ ∀ i < PageSize, p i = 0) ∨
    (0 ≤ addrDisk ∧ ∀ i < PageSize, addrDisk.toNat + i < f.length ∧
      p i = f.bytes (addrDisk.toNat + i))

theorem image_congr {f : File} {addrDisk : Int} {p p' : Page} (h : Image f addrDisk p)
    (heq : ∀ i < PageSize, p' i = p i) : Image f addrDisk p' := by
  rcases h with ⟨had, hzero⟩ | ⟨had, hbytes⟩
  · exact Or.inl ⟨had, fun i hi => (heq i hi).trans (hzero i hi)⟩
  · exact Or.inr ⟨had, fun i hi => ⟨(hbytes i hi).1, (heq i hi).trans (hbytes i hi).2⟩⟩

/-- The file has all of the page. -/
def Visit.LongEnough (f : File) (x : Visit) : Prop :=
  x.1.sh_type ≠ SHT_NOBITS →
    0 ≤ x.1.position x.2 ∧ x.1.position x.2 + PageSize ≤ f.length

/-- The pages that were loaded at once, in `e`, and those that will be loaded, in `d`,
    when the pages in `l` are left of those in `all`. -/
structure Alike (b : SpaceId) (f : File) (all l : List Visit) (e d : Memory) : Prop where
  nodup : e.free_page_list.Nodup
  free : ∀ p ∈ e.free_page_list, (e.tpr p).free = true
  room : l.length ≤ e.free_page_list.length
  long : ∀ x ∈ l, x.LongEnough f
  done : ∀ x ∈ all, x ∈ l ∨ (e.entry b x.page).valid = true
  rights : ∀ v, e.rights b v = d.rights b v
  used : ∀ v, (e.entry b v).valid = true → (e.entry b v).physicalPage ∉ e.free_page_list
  one : ∀ v v', (e.entry b v).valid = true → (e.entry b v').valid = true →
    (e.entry b v).physicalPage = (e.entry b v').physicalPage → v = v'
  page : ∀ v, (e.entry b v).valid = true →
    (d.entry b v).io = false ∧ (d.entry b v).valid = false ∧ (d.entry b v).swap = false ∧
      Image f (d.entry b v).addrDisk (e.frame (e.entry b v).physicalPage)

section Loops

variable {b : SpaceId} {f : File} {maxNumPages : Nat} {all l : List Visit} {x : Visit}
  {e d d' : Memory}

/-- The memory when the page has the frame `pp`, and after it has been loaded. -/
def Memory.framed (e : Memory) (b : SpaceId) (x : Visit) (pp : Nat) (rest : List Nat) : Memory :=
  (({ e.modifyEntry b x.page (.start x.1) with free_page_list := rest }.modifyFrame pp
    fun fr => { fr with free := false }).modifyFrame pp
      fun fr => { fr with virtualPage := x.page, owner := some b, locked := true }).modifyEntry
        b x.page (.setPhysicalPage pp)

def Memory.loadedInto (e : Memory) (b : SpaceId) (x : Visit) (pp : Nat) (rest : List Nat)
    (bytes : Page) : Memory :=
  ((e.framed b x pp rest).fill pp bytes).modifyEntry b x.page .present

theorem entry_loadedInto {pp : Nat} {rest : List Nat} {bytes : Page} (v : Nat) :
    (e.loadedInto b x pp rest bytes).entry b v =
      if v = x.page then (((e.entry b x.page).start x.1).setPhysicalPage pp).present
      else e.entry b v := by
  have hstart : ∀ v, (e.modifyEntry b x.page (.start x.1)).entry b v =
      if v = x.page then (e.entry b x.page).start x.1 else e.entry b v := by
    intro v
    rw [Memory.entry_modifyEntry]
    simp only [true_and]
  have hframed : ∀ v, (e.framed b x pp rest).entry b v =
      if v = x.page then ((e.entry b x.page).start x.1).setPhysicalPage pp else e.entry b v := by
    intro v
    unfold Memory.framed
    rw [Memory.entry_modifyEntry, Memory.modifyFrame_entry, Memory.modifyFrame_entry,
      Memory.modifyFrame_entry, Memory.modifyFrame_entry]
    show (if b = b ∧ v = x.page then
      ((e.modifyEntry b x.page (.start x.1)).entry b x.page).setPhysicalPage pp
      else (e.modifyEntry b x.page (.start x.1)).entry b v) = _
    rw [hstart, hstart, if_pos rfl]
    by_cases hv : v = x.page
    · rw [if_pos ⟨rfl, hv⟩, if_pos hv]
    · rw [if_neg fun h => hv h.2, if_neg hv, if_neg hv]
  unfold Memory.loadedInto
  rw [Memory.entry_modifyEntry]
  show (if b = b ∧ v = x.page then ((e.framed b x pp rest).entry b x.page).present
    else (e.framed b x pp rest).entry b v) = _
  rw [hframed, hframed, if_pos rfl]
  by_cases hv : v = x.page
  · rw [if_pos ⟨rfl, hv⟩, if_pos hv]
  · rw [if_neg fun h => hv h.2, if_neg hv, if_neg hv]

theorem tpr_loadedInto {pp : Nat} {rest : List Nat} {bytes : Page} {p : Nat} (hp : p ≠ pp) :
    (e.loadedInto b x pp rest bytes).tpr p = e.tpr p := by
  unfold Memory.loadedInto
  rw [Memory.modifyEntry_tpr]
  show (e.framed b x pp rest).tpr p = _
  unfold Memory.framed
  rw [Memory.modifyEntry_tpr, Memory.modifyFrame_tpr, if_neg hp, Memory.modifyFrame_tpr, if_neg hp]
  rfl

theorem frame_loadedInto {pp : Nat} {rest : List Nat} {bytes : Page} {p i : Nat}
    (hi : i < PageSize) : (e.loadedInto b x pp rest bytes).frame p i =
      if p = pp then bytes i else e.frame p i :=
  frame_fill (m := e.framed b x pp rest) hi

/-- The page gets a frame, if there is one. -/
theorem loadNow_eq {pp : Nat} {rest : List Nat} (hlt : x.page < maxNumPages)
    (hl : e.free_page_list = pp :: rest) (hfree : (e.tpr pp).free = true)
    (hlong : x.LongEnough f) :
    ∃ bytes, loadNow b f maxNumPages e x = some (e.loadedInto b x pp rest bytes) ∧
      Image f (if x.1.sh_type ≠ SHT_NOBITS then x.1.position x.2 else -1) bytes := by
  have hfind : (e.modifyEntry b x.page (.start x.1)).FindFreePage =
      some ({ e.modifyEntry b x.page (.start x.1) with free_page_list := rest }.modifyFrame pp
        fun fr => { fr with free := false }, some pp) := by
    unfold Memory.FindFreePage
    rw [Memory.modifyEntry_list, hl]
    exact if_pos hfree
  unfold loadNow
  rw [if_neg (by omega)]
  dsimp only
  rw [hfind]
  by_cases hbits : x.1.sh_type ≠ SHT_NOBITS
  · obtain ⟨hpos, hend⟩ := hlong hbits
    refine ⟨f.readAt ((e.framed b x pp rest).frame pp) (x.1.position x.2).toNat, ?_,
      Or.inr ⟨?_, ?_⟩⟩
    · dsimp only
      rw [if_pos hbits, if_neg (by omega)]
      rfl
    · rwa [if_pos hbits]
    · intro i hi
      rw [if_pos hbits]
      have hin : (x.1.position x.2).toNat + i < f.length := by omega
      exact ⟨hin, if_pos ⟨hi, hin⟩⟩
  · refine ⟨fun _ => 0, ?_, Or.inl ⟨if_neg hbits, fun _ _ => rfl⟩⟩
    dsimp only
    rw [if_neg hbits]
    rfl

omit [VmConfig] in
/-- The rights of the page do not depend on how it is loaded. -/
theorem rights_start {sh : Elf32_Shdr} {e e' : PageTableEntry} {pp : Nat} {ad : Int} :
    ((((e.start sh).setPhysicalPage pp).present).readAllowed,
      (((e.start sh).setPhysicalPage pp).present).writeAllowed) =
      ((e'.absent sh ad).readAllowed, (e'.absent sh ad).writeAllowed) := by
  unfold PageTableEntry.start PageTableEntry.absent PageTableEntry.allow
  split
  · rfl
  · rfl

omit [VmConfig] in
theorem absent_bits (sh : Elf32_Shdr) (e : PageTableEntry) (ad : Int) :
    (e.absent sh ad).io = false ∧ (e.absent sh ad).valid = false ∧
      (e.absent sh ad).swap = false ∧ (e.absent sh ad).addrDisk = ad := by
  unfold PageTableEntry.absent PageTableEntry.allow
  split
  · exact ⟨rfl, rfl, rfl, rfl⟩
  · exact ⟨rfl, rfl, rfl, rfl⟩

/-- At the beginning no page is valid. -/
theorem alike_start {m : Memory} (hvalid : ∀ v, (m.entry b v).valid = false)
    (hnodup : m.free_page_list.Nodup) (hfree : ∀ p ∈ m.free_page_list, (m.tpr p).free = true)
    (hroom : l.length ≤ m.free_page_list.length) (hlong : ∀ x ∈ l, x.LongEnough f) :
    Alike b f l l m m where
  nodup := hnodup
  free := hfree
  room := hroom
  long := hlong
  done _ hx := Or.inl hx
  rights _ := rfl
  used v hv := by
    rw [hvalid] at hv
    cases hv
  one v _ hv := by
    rw [hvalid] at hv
    cases hv
  page v hv := by
    rw [hvalid] at hv
    cases hv

/-- One page, in both ways. -/
theorem Alike.step (h : Alike b f all (x :: l) e d)
    (hd : loadLater b maxNumPages d x = some d') :
    ∃ e', loadNow b f maxNumPages e x = some e' ∧ Alike b f all l e' d' := by
  unfold loadLater at hd
  split at hd
  · cases hd
  · rename_i hlt
    obtain rfl := Option.some.inj hd
    obtain ⟨pp, rest, hl⟩ := List.exists_cons_of_length_pos
      (Nat.lt_of_lt_of_le (Nat.succ_pos _) h.room)
    have hpp : pp ∈ e.free_page_list := hl ▸ List.mem_cons_self
    have hrest : ∀ p ∈ rest, p ∈ e.free_page_list := fun p hp => hl ▸ List.mem_cons_of_mem _ hp
    have hnodup := h.nodup
    rw [hl, List.nodup_cons] at hnodup
    obtain ⟨bytes, he', himage⟩ :=
      loadNow_eq (b := b) (Nat.lt_of_not_le hlt) hl (h.free pp hpp) (h.long x List.mem_cons_self)
    have hlist : (e.loadedInto b x pp rest bytes).free_page_list = rest := rfl
    -- No other page has the frame.
    have hother : ∀ v, (e.entry b v).valid = true → (e.entry b v).physicalPage ≠ pp :=
      fun v hv hp => h.used v hv (hp ▸ hpp)
    refine ⟨_, he', ?_⟩
    exact {
      nodup := hnodup.2
      free := by
        intro p hp
        have hne : p ≠ pp := by
          rintro rfl
          exact hnodup.1 hp
        rw [tpr_loadedInto hne]
        exact h.free p (hrest p hp)
      room := by
        have hroom := h.room
        rw [hl, List.length_cons, List.length_cons] at hroom
        rw [hlist]
        omega
      long := fun y hy => h.long y (List.mem_cons_of_mem _ hy)
      done := by
        intro y hy
        rw [entry_loadedInto]
        split
        · exact Or.inr rfl
        · rename_i hne
          rcases h.done y hy with hy' | hv
          · rcases List.mem_cons.mp hy' with rfl | hy'
            · exact absurd rfl hne
            · exact Or.inl hy'
          · exact Or.inr hv
      rights := by
        intro v
        have hr := h.rights v
        unfold Memory.rights at hr ⊢
        rw [entry_loadedInto, Memory.entry_modifyEntry]
        by_cases hv : v = x.page
        · rw [if_pos hv, if_pos ⟨rfl, hv⟩]
          exact rights_start
        · rw [if_neg hv, if_neg fun hb => hv hb.2]
          exact hr
      used := by
        intro v hv
        rw [entry_loadedInto] at hv ⊢
        rw [hlist]
        split at hv
        · rename_i hvx
          rw [if_pos hvx]
          exact hnodup.1
        · rename_i hvx
          rw [if_neg hvx]
          exact fun hm => h.used v hv (hrest _ hm)
      one := by
        intro v v' hv hv' hpage
        rw [entry_loadedInto] at hv hv'
        rw [entry_loadedInto, entry_loadedInto] at hpage
        split at hv
        · rename_i hvx
          split at hv'
          · rename_i hvx'
            rw [hvx, hvx']
          · rename_i hvx'
            rw [if_pos hvx, if_neg hvx'] at hpage
            exact absurd hpage.symm (hother v' hv')
        · rename_i hvx
          split at hv'
          · rename_i hvx'
            rw [if_neg hvx, if_pos hvx'] at hpage
            exact absurd hpage (hother v hv)
          · rename_i hvx'
            rw [if_neg hvx, if_neg hvx'] at hpage
            exact h.one v v' hv hv' hpage
      page := by
        intro v hv
        rw [entry_loadedInto] at hv ⊢
        rw [Memory.entry_modifyEntry]
        split at hv
        · rename_i hvx
          obtain ⟨hio, hvalid, hsw, had⟩ := absent_bits x.1 (d.entry b x.page)
            (if x.1.sh_type ≠ SHT_NOBITS then x.1.position x.2 else -1)
          rw [if_pos hvx, if_pos ⟨rfl, hvx⟩, had]
          refine ⟨hio, hvalid, hsw, image_congr himage fun i hi => ?_⟩
          exact (frame_loadedInto hi).trans (if_pos rfl)
        · rename_i hvx
          rw [if_neg hvx, if_neg fun hb => hvx hb.2]
          obtain ⟨hio, hvalid, hsw, him⟩ := h.page v hv
          refine ⟨hio, hvalid, hsw, image_congr him fun i hi => ?_⟩
          exact (frame_loadedInto hi).trans (if_neg (hother v hv)) }

end Loops

/-! ## The first page fault -/

/-- The page comes from its place on the disk. -/
theorem first_fault_image {b : SpaceId} {v : Nat} {m₂ : Memory} {buffer p : Page}
    {rights : Bool × Bool} (hio : (m₂.entry b v).io = false)
    (hvalid : (m₂.entry b v).valid = false) (hsw : (m₂.entry b v).swap = false)
    (hfiles : (m₂.spaces b).mapped_files = [])
    (himage : Image (m₂.files (m₂.spaces b).exec_file) (m₂.entry b v).addrDisk p)
    (hrights : m₂.rights b v = rights) :
    ∃ m' q, Reaches (alone b) (m₂, some (.faultIo ⟨v, buffer⟩)) (m', some (.map q)) ∧
      ∀ m₃, Reaches (alone b) (m', some (.map q)) (m₃, none) →
        (m₃.entry b v).valid = true ∧ m₃.rights b v = rights ∧
        ∀ i < PageSize, m₃.frame (m₃.entry b v).physicalPage i = p i := by
  have hf := findMappedFile_none hfiles (v * PageSize)
  -- It is enough that the bytes come into the buffer.
  have hend : ∀ m' bytes, (∀ i < PageSize, bytes i = p i) →
      Reaches (alone b) (m₂, some (.faultIo ⟨v, buffer⟩)) (m', some (.map ⟨v, bytes⟩)) →
      ∃ m' q, Reaches (alone b) (m₂, some (.faultIo ⟨v, buffer⟩)) (m', some (.map q)) ∧
        ∀ m₃, Reaches (alone b) (m', some (.map q)) (m₃, none) →
          (m₃.entry b v).valid = true ∧ m₃.rights b v = rights ∧
          ∀ i < PageSize, m₃.frame (m₃.entry b v).physicalPage i = p i := by
    intro m' bytes hbytes hpath
    refine ⟨m', _, hpath, fun m₃ hdone => ?_⟩
    obtain ⟨hv, hframe⟩ := frame_of_buffered rfl hdone
    have hr := congrFun (congrFun (rights_of_reaches (hpath.trans hdone)) b) v
    exact ⟨hv, hr.trans hrights, fun i hi => (hframe i hi).trans (hbytes i hi)⟩
  rcases himage with ⟨had, hzero⟩ | ⟨had, hbytes⟩
  · exact hend _ _ (fun i hi => (hzero i hi).symm) (fault_zero hio hvalid hf hsw had)
  · refine hend _ _ (fun i hi => ?_) (fault_exec hio hvalid hf hsw had)
    obtain ⟨hlt, hb⟩ := hbytes i hi
    exact (if_pos ⟨hi, hlt⟩).trans hb.symm

/-- With demand paging the constructor only fills in the translation table. -/
theorem new_loadLater {heap : Nat → Nat × Bool} {stack : Nat → Byte} {maxNumPages : Nat}
    {b : SpaceId} {exec : FileId} {m d : Memory}
    (hd : AddrSpace.new (loadLater b maxNumPages) heap stack maxNumPages b exec m = some d) :
    d.files = m.files ∧ (d.spaces b).mapped_files = [] ∧ (d.spaces b).exec_file = exec := by
  unfold AddrSpace.new at hd
  obtain ⟨table, -, hd⟩ := Option.bind_eq_some_iff.mp hd
  dsimp only at hd
  split at hd
  · cases hd
  · rw [loadSections_eq (aligned_of_loadSections hd)] at hd
    refine foldlM_invariant (P := fun d => d.files = m.files ∧
      (d.spaces b).mapped_files = [] ∧ (d.spaces b).exec_file = exec) ?_ (by simp) hd
    rintro x - d d' ⟨hfiles, hmapped, hexec⟩ hstep
    unfold loadLater at hstep
    split at hstep
    · cases hstep
    · obtain rfl := Option.some.inj hstep
      obtain ⟨-, h₁, h₂⟩ := Memory.modifyEntry_space (m := d) (b := b) (v := x.page)
        (.absent x.1 (if x.1.sh_type ≠ SHT_NOBITS then x.1.position x.2 else -1)) b
      exact ⟨hfiles, h₁.trans hmapped, h₂.trans hexec⟩

/-- A page that the constructor has only described comes into a frame as the other
    constructor has loaded it. -/
theorem first_fault {heap : Nat → Nat × Bool} {stack : Nat → Byte} {maxNumPages : Nat}
    {b : SpaceId} {exec : FileId} {m d : Memory} {table : List Elf32_Shdr}
    (htable : sectionTable (m.files exec) stack = some table)
    (hd : AddrSpace.new (loadLater b maxNumPages) heap stack maxNumPages b exec m = some d)
    (hnodup : m.free_page_list.Nodup) (hfree : ∀ p ∈ m.free_page_list, (m.tpr p).free = true)
    (hroom : (visits table).length ≤ m.free_page_list.length)
    (hlong : ∀ x ∈ visits table, x.LongEnough (m.files exec)) :
    ∃ e, AddrSpace.new (loadNow b (m.files exec) maxNumPages) heap stack maxNumPages b exec m =
        some e ∧
      ∀ x ∈ visits table, (e.entry b x.page).valid = true ∧
        ∀ (m₂ : Memory) (buffer : Page), m₂.entry b x.page = d.entry b x.page →
          (m₂.spaces b).mapped_files = [] → (m₂.spaces b).exec_file = exec →
          m₂.files exec = m.files exec →
          ∃ m' q, Reaches (alone b) (m₂, some (.faultIo ⟨x.page, buffer⟩)) (m', some (.map q)) ∧
            ∀ m₃, Reaches (alone b) (m', some (.map q)) (m₃, none) →
              (m₃.entry b x.page).valid = true ∧ m₃.rights b x.page = e.rights b x.page ∧
              ∀ i < PageSize, m₃.frame (m₃.entry b x.page).physicalPage i =
                e.frame (e.entry b x.page).physicalPage i := by
  unfold AddrSpace.new at hd ⊢
  rw [htable, Option.bind_some] at hd ⊢
  dsimp only at hd ⊢
  split at hd
  · cases hd
  · rename_i hpages
    rw [if_neg hpages]
    have haligned := aligned_of_loadSections hd
    rw [loadSections_eq haligned] at hd ⊢
    -- The loops begin with the same memory, where no page is valid.
    have hstart := alike_start (b := b) (f := m.files exec) (l := visits table)
      (m := { m with
        spaces := Function.update m.spaces b
          { translationTable := TranslationTable heap
            freePageId := (divRoundUp (mem_topaddr table) PageSize).toNat
            mapped_files := []
            exec_file := exec } })
      (fun v => by simp [Memory.entry, TranslationTable]) hnodup hfree hroom hlong
    obtain ⟨e, he, hend⟩ := exists_foldlM (fun _ _ _ _ _ h hg => h.step hg) hstart hd
    refine ⟨e, he, fun x hx => ?_⟩
    have hvalid := (hend.done x hx).resolve_left List.not_mem_nil
    refine ⟨hvalid, fun m₂ buffer hentry hfiles hexec hfile => ?_⟩
    obtain ⟨hio, hnot, hsw, himage⟩ := hend.page x.page hvalid
    rw [← hentry] at hio hnot hsw himage
    have hrights : m₂.rights b x.page = e.rights b x.page :=
      (congrArg (fun e => (e.readAllowed, e.writeAllowed)) hentry).trans (hend.rights x.page).symm
    rw [← hfile, ← hexec] at himage
    exact first_fault_image hio hnot hsw hfiles himage hrights

/-! ## An executable file with pages of two sections -/

/-- Four frames, and sectors of 128 bytes. -/
@[reducible] def VmConfig.four : VmConfig where
  toConfig := Config.defaults
  NumPhysPages := 4
  pos := by decide

/-- The beginning of a little-endian file: the header, and three section headers.  The
    first is empty; the second is for two pages that are in the file and may be read only;
    the third is for the second of these pages, which has no image and may be written. -/
def elfBytes : List Byte :=
  List.flatten [
    [0x7f, 0x45, 0x4c, 0x46, 1, 1, 1], List.replicate 9 0, [2, 0, 8, 0], List.replicate 12 0,
    [52, 0, 0, 0], List.replicate 4 0, [52, 0, 0, 0, 0, 0, 40, 0, 3, 0, 0, 0],
    List.replicate 40 0,
    [0, 0, 0, 0, 1, 0, 0, 0, 2, 0, 0, 0, 0, 0, 0, 0, 0, 1, 0, 0, 200, 0, 0, 0],
    List.replicate 16 0,
    [0, 0, 0, 0, 8, 0, 0, 0, 3, 0, 0, 0, 128, 0, 0, 0, 0, 0, 0, 0, 64, 0, 0, 0],
    List.replicate 16 0]

def elfTable : List Elf32_Shdr :=
  [⟨0, 0, 0, 0, 0⟩, ⟨1, 2, 0, 256, 200⟩, ⟨8, 3, 128, 0, 64⟩]

def elfMemory : Memory :=
  let _ := VmConfig.four
  newMemory (fun _ => newSpace 0 (fun _ => -1) []) fun _ => ⟨fun i => elfBytes.getD i 9, 512, 512⟩

omit [VmConfig] in
/-- The second page is zero and may be written, in both ways. -/
theorem first_fault_overlap :
    ∃ d e : Memory, @AddrSpace.new VmConfig.four (@loadLater VmConfig.four 0 16)
        (fun _ => (0, true)) (fun _ => 0) 16 0 0 elfMemory = some d ∧
      @AddrSpace.new VmConfig.four (@loadNow VmConfig.four 0 (elfMemory.files 0) 16)
        (fun _ => (0, true)) (fun _ => 0) 16 0 0 elfMemory = some e ∧
      e.rights 0 1 = (true, true) ∧
      ∃ m' q, Reaches (@alone VmConfig.four 0) (d, some (.faultIo ⟨1, fun _ => 7⟩))
          (m', some (.map q)) ∧
        ∀ m₃, Reaches (@alone VmConfig.four 0) (m', some (.map q)) (m₃, none) →
          (m₃.entry 0 1).valid = true ∧ m₃.rights 0 1 = e.rights 0 1 ∧
          ∀ i < 128, @Memory.frame VmConfig.four m₃ (m₃.entry 0 1).physicalPage i =
            @Memory.frame VmConfig.four e (e.entry 0 1).physicalPage i := by
  let _ := VmConfig.four
  have htable : sectionTable (elfMemory.files 0) (fun _ => 0) = some elfTable := by
    decide +kernel
  obtain ⟨d, hd⟩ := Option.isSome_iff_exists.mp
    (show (AddrSpace.new (loadLater 0 16) (fun _ => (0, true)) (fun _ => 0) 16 0 0
      elfMemory).isSome = true by decide +kernel)
  have hlong : ∀ x ∈ visits elfTable, x.LongEnough (elfMemory.files 0) := by
    unfold Visit.LongEnough
    decide +kernel
  obtain ⟨e, he, hpages⟩ := first_fault htable hd (by decide +kernel) (by decide +kernel)
    (by decide +kernel) hlong
  have hrights : (AddrSpace.new (loadNow 0 (elfMemory.files 0) 16) (fun _ => (0, true))
      (fun _ => 0) 16 0 0 elfMemory).map (fun e => e.rights 0 1) = some (true, true) := by
    decide +kernel
  rw [he] at hrights
  obtain ⟨hfiles, hmapped, hexec⟩ := new_loadLater hd
  have hx : ((⟨8, 3, 128, 0, 64⟩, 0) : Visit) ∈ visits elfTable := by decide +kernel
  have hpage : Visit.page ((⟨8, 3, 128, 0, 64⟩, 0) : Visit) = 1 := by decide +kernel
  have hfault := (hpages _ hx).2 d (fun _ => 7) rfl hmapped hexec (congrFun hfiles 0)
  rw [hpage] at hfault
  exact ⟨d, e, hd, he, Option.some.inj hrights, hfault⟩

end

end Vm
end Nachos
