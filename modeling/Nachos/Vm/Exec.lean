/-
  Nachos.Vm.Exec

  The process that the system call `Exec` makes from a file of any content: the constructors
  of `Process` and `AddrSpace` with their `ASSERT`s, with the arrays that they index and with
  the `int`s that they make of the numbers in the file.  How much memory the host has for
  the arrays is not part of it.
-/

import Nachos.Vm.Layout

namespace Nachos
namespace Vm

open Words Guarded Layout

namespace Exec

/-- The error codes of `msgerror.h` that the constructors set. -/
inductive ErrorCode where
  | NoError
  | ExecFileFormatError
  | InexistFileError
deriving DecidableEq, Repr

/-- Why a constructor does not return. -/
inductive Stop where
  | assert
  | outOfRange
  | overflow
deriving DecidableEq, Repr

/-- What is in the arrays before the file is read into them. -/
structure Leftover where
  elfHdr : Nat → Byte
  section_table : Nat → Byte
  shnames : Nat → Byte

/-- A section header, with the place of its name. -/
structure NamedShdr extends Elf32_Shdr where
  sh_name : BitVec 32

def namedHeader (msb : Bool) (b : Nat → Byte) (i : Nat) : NamedShdr where
  toElf32_Shdr := sectionHeader msb b i
  sh_name := WordToHost msb b i

/-- `OpenFile::ReadAt` for `int`s.  A position below zero comes to an index below zero, in
    the table of sectors or in the buffer. -/
def ReadAt (f : File) (into : Nat → Byte) (numBytes position : Int) :
    Except Stop (Nat → Byte) :=
  if numBytes ≤ 0 ∨ position ≥ f.length then .ok into
  else do
    demand (InInt (position + numBytes)) .overflow
    demand (0 ≤ position) .outOfRange
    return f.read into numBytes.toNat position.toNat

/-- The string at `i` ends inside of the array. -/
def Ends (shnames : Nat → Byte) (size i : Nat) : Prop := ∃ j < size, i ≤ j ∧ shnames j = 0

instance (shnames : Nat → Byte) (size i : Nat) : Decidable (Ends shnames size i) :=
  inferInstanceAs (Decidable (∃ j < size, _))

section

variable [LayoutConfig]

/-- The body of the loop over the sections.  `debug` is whether the messages of the address
    spaces are shown; the name of a section that is loaded is shown in any case. -/
def loadSection (debug : Bool) (b : SpaceId) (shnames : Nat → Byte) (size : Nat) (m : Memory)
    (sh : NamedShdr) : Except Stop Memory := do
  demand (debug = true → Ends shnames size sh.sh_name.toNat) .outOfRange
  if ¬ sh.loaded then return m
  else
    demand (Ends shnames size sh.sh_name.toNat) .outOfRange
    demand (sh.sh_addr.toNat % PageSize = 0) .assert
    -- The setters of the translation table demand a page of the table.
    sh.visits.foldlM (fun m x => ((loadLater b MaxVirtPages m x).elim (.error .assert) .ok)) m

/-- `AddrSpace::AddrSpace` from an executable file; the result is the memory and
    `CodeStartAddress`. -/
def AddrSpace.construct (debug : Bool) (left : Leftover) (heap : Nat → Nat × Bool) (b : SpaceId)
    (exec_file : FileId) (m : Memory) : Except Stop (Memory × BitVec 32) := do
  let f := m.files exec_file
  let bytes ← ReadAt f left.elfHdr 52 0
  match CheckELFHeader bytes with
  -- `*err` is `ExecFileFormatError`, and the `ASSERT` demands `NoError`.
  | none => .error .assert
  | some h =>
    let table ← ReadAt f left.section_table (h.e_shnum.toNat * 52 : Nat) h.e_shoff.toInt
    let section_table := (List.range h.e_shnum.toNat).map fun i => namedHeader h.msb table (40 * i)
    let e_shstrndx := ShortToHost h.msb bytes 50
    let shname_section := namedHeader h.msb table (40 * e_shstrndx.toNat)
    let shnames ← ReadAt f left.shnames shname_section.sh_size.toInt shname_section.sh_offset.toInt
    let numPages := divRoundUp (mem_topaddr (section_table.map (·.toElf32_Shdr))) PageSize
    -- `Alloc` has to return 0.
    demand (numPages < MaxVirtPages) .assert
    let m ← section_table.foldlM
      (loadSection debug b shnames shname_section.sh_size.toNat)
      { m with
        spaces := Function.update m.spaces b
          { translationTable := TranslationTable heap
            freePageId := numPages.toNat
            mapped_files := []
            exec_file := exec_file } }
    return (m, WordToHost h.msb bytes 24)

/-- `Process::Process` with a name; `none` is a name that `FileSystem::Open` does not find. -/
def Process.construct (debug : Bool) (left : Leftover) (heap : Nat → Nat × Bool) (b : SpaceId)
    (m : Memory) : Option FileId → Except Stop (ErrorCode × Option (Memory × BitVec 32))
  | none => .ok (.InexistFileError, none)
  | some exec_file => do
    let addrspace ← AddrSpace.construct debug left heap b exec_file m
    return (.NoError, some addrspace)

/-- What `SC_EXEC` answers when the constructor of the process has returned, if it does not go
    on to start a thread. -/
def answer (error : ErrorCode) : Option Int := if error ≠ .NoError then some (-1) else none

/-- There is an address space, or an error code for which the system call returns -1. -/
def Handled (r : Except Stop (ErrorCode × Option (Memory × BitVec 32))) : Prop :=
  ∃ error addrspace, r = .ok (error, addrspace) ∧
    (addrspace.isSome = true ∨ answer error = some (-1))

/-! ## The contents that are handled -/

/-- The bytes can be read: there are none to read, or the first of them is in the file. -/
def Readable (f : File) (numBytes position : Int) : Prop :=
  numBytes ≤ 0 ∨ position ≥ f.length ∨ InInt (position + numBytes) ∧ 0 ≤ position

namespace File

variable (f : File) (left : Leftover) (h : Elf32_Ehdr)

/-- The parts of the file that the constructor looks at. -/
def elfHdr : Nat → Byte := f.read left.elfHdr 52 0

def table : Nat → Byte := f.read left.section_table (h.e_shnum.toNat * 52) h.e_shoff.toInt.toNat

def sections : List NamedShdr :=
  (List.range h.e_shnum.toNat).map fun i => namedHeader h.msb (table f left h) (40 * i)

def shname_section : NamedShdr :=
  namedHeader h.msb (table f left h) (40 * (ShortToHost h.msb (elfHdr f left) 50).toNat)

def shnames : Nat → Byte :=
  f.read left.shnames (shname_section f left h).sh_size.toInt.toNat
    (shname_section f left h).sh_offset.toInt.toNat

/-- The name of the section is inside of the section of names. -/
def Named (sh : NamedShdr) : Prop :=
  Ends (shnames f left h) (shname_section f left h).sh_size.toNat sh.sh_name.toNat

end File

/-- The section is at the beginning of a page, and its pages are pages of the table. -/
structure Placed (sh : Elf32_Shdr) : Prop where
  aligned : sh.sh_addr.toNat % PageSize = 0
  inside : sh.sh_addr.toNat / PageSize + sh.pages ≤ MaxVirtPages

/-- A file that the constructor accepts; it demands this of each file. -/
structure Loadable (debug : Bool) (left : Leftover) (f : File) (h : Elf32_Ehdr) : Prop where
  header : CheckELFHeader (File.elfHdr f left) = some h
  table : Readable f (h.e_shnum.toNat * 52 : Nat) h.e_shoff.toInt
  names : Readable f (File.shname_section f left h).sh_size.toInt
    (File.shname_section f left h).sh_offset.toInt
  room : divRoundUp (mem_topaddr ((File.sections f left h).map (·.toElf32_Shdr))) PageSize <
    MaxVirtPages
  named : ∀ sh ∈ File.sections f left h, (debug = true ∨ sh.loaded = true) → File.Named f left h sh
  placed : ∀ sh ∈ File.sections f left h, sh.loaded = true → Placed sh.toElf32_Shdr

variable {debug : Bool} {left : Leftover} {heap : Nat → Nat × Bool} {b : SpaceId}
  {exec_file : FileId} {m : Memory}

omit [LayoutConfig] in
/-- `ReadAt` returns for what is readable, and it has read it. -/
theorem readAt_ok {f : File} {into bytes : Nat → Byte} {numBytes position : Int} :
    ReadAt f into numBytes position = .ok bytes ↔
      Readable f numBytes position ∧ bytes = f.read into numBytes.toNat position.toNat := by
  unfold ReadAt Readable
  by_cases hnone : numBytes ≤ 0 ∨ position ≥ f.length
  · -- Nothing is read.
    have hread : f.read into numBytes.toNat position.toNat = into := by
      funext i
      exact if_neg (by omega)
    rw [if_pos hnone, hread]
    constructor
    · rintro hok
      exact ⟨by tauto, (Except.ok.inj hok).symm⟩
    · rintro ⟨-, rfl⟩
      rfl
  · rw [if_neg hnone]
    constructor
    · intro hok
      obtain ⟨_, hint, hok⟩ := bind_ok.mp hok
      obtain ⟨_, hpos, hok⟩ := bind_ok.mp hok
      exact ⟨Or.inr (Or.inr ⟨demand_ok.mp hint, demand_ok.mp hpos⟩), (Except.ok.inj hok).symm⟩
    · rintro ⟨hr, rfl⟩
      have hr' : InInt (position + numBytes) ∧ 0 ≤ position := by tauto
      exact bind_ok.mpr ⟨⟨⟩, demand_ok.mpr hr'.1, bind_ok.mpr ⟨⟨⟩, demand_ok.mpr hr'.2, rfl⟩⟩

omit [LayoutConfig] in
/-- What comes after a call of `ReadAt` is reached with the bytes that are read. -/
theorem returns_readAt {α : Type} {f : File} {into : Nat → Byte} {numBytes position : Int}
    {g : (Nat → Byte) → Except Stop α} :
    Returns (ReadAt f into numBytes position >>= g) ↔
      Readable f numBytes position ∧ Returns (g (f.read into numBytes.toNat position.toNat)) := by
  rw [returns_bind]
  constructor
  · rintro ⟨bytes, hread, hg⟩
    obtain ⟨hr, rfl⟩ := readAt_ok.mp hread
    exact ⟨hr, hg⟩
  · rintro ⟨hr, hg⟩
    exact ⟨_, readAt_ok.mpr ⟨hr, rfl⟩, hg⟩

/-- A section with a size has a page. -/
theorem pages_pos {sh : Elf32_Shdr} (h : sh.loaded = true) : 0 < sh.pages := by
  have hsize : sh.sh_size ≠ 0 := by
    unfold Elf32_Shdr.loaded at h
    exact (of_decide_eq_true h).1
  have hpos : 0 < sh.sh_size.toNat := Nat.pos_of_ne_zero fun h0 =>
    hsize (BitVec.eq_of_toNat_eq h0)
  unfold Elf32_Shdr.pages
  by_cases hdiv : sh.sh_size.toNat % PageSize = 0
  · have hle := Nat.le_of_dvd hpos (Nat.dvd_of_mod_eq_zero hdiv)
    have hone := Nat.div_pos hle pageSize_pos
    omega
  · rw [if_pos (Nat.pos_of_ne_zero hdiv)]
    exact Nat.succ_pos _

/-- The loop over the pages comes to its end for pages of the table only. -/
theorem returns_pages {sh : Elf32_Shdr} (h : sh.loaded = true) :
    Returns (sh.visits.foldlM
      (fun m x => ((loadLater b MaxVirtPages m x).elim (.error Stop.assert) .ok)) m) ↔
      sh.sh_addr.toNat / PageSize + sh.pages ≤ MaxVirtPages := by
  have hround : ∀ x ∈ sh.visits, ∀ m : Memory,
      Returns ((loadLater b MaxVirtPages m x).elim (.error Stop.assert) .ok) ↔
        x.page < MaxVirtPages := by
    intro x _ m
    unfold loadLater
    by_cases hx : x.page ≥ MaxVirtPages
    · rw [if_pos hx]
      simpa using hx
    · rw [if_neg hx]
      simpa using hx
  rw [returns_foldlM hround m]
  unfold Elf32_Shdr.visits
  simp only [List.forall_mem_map, List.mem_range, Visit.page]
  have hpages := pages_pos h
  constructor
  · intro hall
    have hlast := hall (sh.pages - 1) (by omega)
    omega
  · intro hle i hi
    omega

/-- The round of a section returns when the section can be shown and loaded. -/
theorem returns_loadSection {shnames : Nat → Byte} {size : Nat} {sh : NamedShdr} :
    Returns (loadSection debug b shnames size m sh) ↔
      ((debug = true ∨ sh.loaded = true) → Ends shnames size sh.sh_name.toNat) ∧
        (sh.loaded = true → Placed sh.toElf32_Shdr) := by
  unfold loadSection
  rw [returns_demand]
  by_cases hl : sh.loaded = true
  · rw [if_neg (by simpa using hl), returns_demand, returns_demand, returns_pages hl]
    constructor
    · rintro ⟨-, hends, haligned, hinside⟩
      exact ⟨fun _ => hends, fun _ => ⟨haligned, hinside⟩⟩
    · rintro ⟨hends, hplaced⟩
      have he := hends (Or.inr hl)
      exact ⟨fun _ => he, he, (hplaced hl).aligned, (hplaced hl).inside⟩
  · rw [if_pos (by simpa using hl)]
    simp [hl]

/-- The constructor returns for the files that are loadable. -/
theorem returns_construct :
    Returns (AddrSpace.construct debug left heap b exec_file m) ↔
      ∃ h, Loadable debug left (m.files exec_file) h := by
  have hreadable : Readable (m.files exec_file) 52 0 := Or.inr (Or.inr ⟨by decide, le_refl 0⟩)
  unfold AddrSpace.construct
  rw [returns_readAt, and_iff_right hreadable]
  dsimp only
  have helf : (m.files exec_file).read left.elfHdr (Int.toNat 52) (Int.toNat 0) =
      File.elfHdr (m.files exec_file) left := rfl
  rw [helf]
  cases hcheck : CheckELFHeader (File.elfHdr (m.files exec_file) left) with
  | none =>
    simp only [not_returns_error, false_iff]
    rintro ⟨h, hload⟩
    cases hcheck.symm.trans hload.header
  | some h =>
    dsimp only
    rw [returns_readAt, returns_readAt, returns_demand, returns_bind_pure]
    -- The sections are independent of each other.
    have hloop := returns_foldlM (l := File.sections (m.files exec_file) left h)
      (f := loadSection debug b (File.shnames (m.files exec_file) left h)
        (File.shname_section (m.files exec_file) left h).sh_size.toNat)
      fun sh _ m => returns_loadSection
    refine (and_congr Iff.rfl (and_congr Iff.rfl (and_congr Iff.rfl (hloop _)))).trans ?_
    constructor
    · rintro ⟨htable, hnames, hroom, hall⟩
      exact ⟨h, {
        header := hcheck
        table := htable
        names := hnames
        room := hroom
        named := fun sh hsh => (hall sh hsh).1
        placed := fun sh hsh => (hall sh hsh).2 }⟩
    · rintro ⟨h', hload⟩
      obtain rfl := Option.some.inj (hcheck.symm.trans hload.header)
      exact ⟨hload.table, hload.names, hload.room,
        fun sh hsh => ⟨hload.named sh hsh, hload.placed sh hsh⟩⟩

/-- Every content is handled, or the constructor stops: no error code comes out of it. -/
theorem handled_iff_returns :
    Handled (Process.construct debug left heap b m (some exec_file)) ↔
      Returns (AddrSpace.construct debug left heap b exec_file m) := by
  unfold Process.construct
  constructor
  · rintro ⟨error, addrspace, hr, -⟩
    obtain ⟨a, ha, -⟩ := bind_ok.mp hr
    exact ⟨a, ha⟩
  · rintro ⟨a, ha⟩
    exact ⟨.NoError, some a, bind_ok.mpr ⟨a, ha, rfl⟩, Or.inl rfl⟩

/-- A memory with one file. -/
def oneFile (f : File) : Memory :=
  let _ := VmConfig.four
  newMemory (fun _ => newSpace 0 (fun _ => -1) []) fun _ => f

/-- A little-endian file that is handled, with two section headers: that of the names, which
    are the first bytes of the header, and that of two pages that are loaded. -/
def namedBytes : List Byte :=
  List.flatten [
    [0x7f, 0x45, 0x4c, 0x46, 1, 1, 1], List.replicate 9 0, [2, 0, 8, 0], List.replicate 12 0,
    [52, 0, 0, 0], List.replicate 4 0, [52, 0, 0, 0, 0, 0, 40, 0, 2, 0, 0, 0],
    [0, 0, 0, 0, 3, 0, 0, 0], List.replicate 12 0, [16, 0, 0, 0], List.replicate 16 0,
    [1, 0, 0, 0, 1, 0, 0, 0, 2, 0, 0, 0, 0, 1, 0, 0, 0, 1, 0, 0, 200, 0, 0, 0],
    List.replicate 16 0]

example :
    let _ := LayoutConfig.eight
    (Process.construct true ⟨fun _ => 7, fun _ => 7, fun _ => 7⟩ (fun _ => (0, false)) 0
      (oneFile ⟨fun i => namedBytes.getD i 9, 512, 512⟩) (some 0)).isOk = true := by
  decide +kernel

/-! ## The address space that is made -/

omit [LayoutConfig] in
/-- A header that is accepted has a section of names, so it has sections. -/
theorem shnum_pos {bytes : Nat → Byte} {h : Elf32_Ehdr} (hcheck : CheckELFHeader bytes = some h) :
    0 < h.e_shnum.toNat := by
  unfold CheckELFHeader at hcheck
  simp only [Option.ite_none_left_eq_some] at hcheck
  obtain ⟨-, -, -, -, -, hnames, hh⟩ := hcheck
  obtain rfl := Option.some.inj hh
  have hlt := BitVec.lt_def.mp (BitVec.not_le.mp hnames)
  exact Nat.lt_of_le_of_lt (Nat.zero_le _) hlt

omit [LayoutConfig] in
/-- An offset that the code can use is the number in the file. -/
theorem toNat_offset {x : BitVec 32} (h : 0 ≤ x.toInt) : x.toInt.toNat = x.toNat :=
  BitVec.toNat_toInt_of_sle (by simpa [BitVec.sle] using h)

/-- The round of a section is that of the loop that only loads. -/
theorem loadSection_some {shnames : Nat → Byte} {size : Nat} {sh : NamedShdr} {m' : Memory}
    (h : loadSection debug b shnames size m sh = .ok m') :
    (if ¬ sh.loaded then some m
      else if sh.sh_addr.toNat % PageSize ≠ 0 then none
      else sh.visits.foldlM (loadLater b MaxVirtPages) m) = some m' := by
  unfold loadSection at h
  obtain ⟨-, -, h⟩ := bind_ok.mp h
  by_cases hl : sh.loaded = true
  · rw [if_neg (by simpa using hl)] at h ⊢
    obtain ⟨-, -, h⟩ := bind_ok.mp h
    obtain ⟨_, haligned, h⟩ := bind_ok.mp h
    rw [if_neg (by simpa using demand_ok.mp haligned)]
    refine foldlM_option (fun x _ m m' hx => ?_) h
    cases hload : loadLater b MaxVirtPages m x with
    | none =>
      rw [hload] at hx
      cases hx
    | some m'' =>
      rw [hload] at hx
      rw [Except.ok.inj hx]
  · rw [if_pos (by simpa using hl)] at h ⊢
    rw [Except.ok.inj h]

/-- A constructor that returns has made the address space of the loader. -/
theorem new_of_construct {m' : Memory} {start : BitVec 32}
    (hstack : left.section_table = left.elfHdr)
    (h : AddrSpace.construct debug left heap b exec_file m = .ok (m', start)) :
    AddrSpace.new (loadLater b MaxVirtPages) heap left.elfHdr MaxVirtPages b exec_file m =
      some m' := by
  unfold AddrSpace.construct at h
  obtain ⟨bytes, hbytes, h⟩ := bind_ok.mp h
  obtain ⟨-, rfl⟩ := readAt_ok.mp hbytes
  dsimp only at h
  split at h
  · cases h
  · rename_i hdr hcheck
    have hpos := shnum_pos hcheck
    obtain ⟨table, htable, h⟩ := bind_ok.mp h
    obtain ⟨hread, rfl⟩ := readAt_ok.mp htable
    obtain ⟨names, -, h⟩ := bind_ok.mp h
    obtain ⟨_, hroom, h⟩ := bind_ok.mp h
    obtain ⟨m₁, hloop, h⟩ := bind_ok.mp h
    obtain ⟨rfl, -⟩ := Prod.mk.inj (Except.ok.inj h)
    have hoff : 0 ≤ hdr.e_shoff.toInt := by
      unfold Readable at hread
      omega
    have hsections : sectionTable (m.files exec_file) left.elfHdr =
        some ((File.sections (m.files exec_file) left hdr).map (·.toElf32_Shdr)) := by
      unfold sectionTable File.sections File.table
      have hcheck' : CheckELFHeader ((m.files exec_file).read left.elfHdr 52 0) = some hdr :=
        hcheck
      rw [hcheck', Option.bind_some, if_neg (by omega), toNat_offset hoff, List.map_map, hstack]
      rfl
    have hroom' : ¬ divRoundUp (mem_topaddr ((File.sections (m.files exec_file) left hdr).map
        (·.toElf32_Shdr))) PageSize ≥ MaxVirtPages := Int.not_le.mpr (demand_ok.mp hroom)
    unfold AddrSpace.new
    rw [hsections, Option.bind_some]
    dsimp only
    rw [if_neg hroom']
    unfold loadSections
    rw [List.foldlM_map]
    exact foldlM_option (fun sh _ m m' => loadSection_some) hloop

end

end Exec

end Vm
end Nachos
