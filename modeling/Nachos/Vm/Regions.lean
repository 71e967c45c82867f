/-
  Nachos.Vm.Regions

  Address spaces that get stacks and mappings, in any order.  The pages are handed out one
  after the other, so the regions do not overlap; but the search for the mapping of an
  address takes one page too many for each mapping, and a stack is followed from below by
  its blank pages only when there are so many left.
-/

import Nachos.Lib.Region
import Nachos.Vm.Layout

namespace Nachos
namespace Vm
namespace Layout

open Transition Space Words Guarded

/-! ## Runs -/

/-- A space, with the pages of its stacks. -/
structure Areas where
  space : Space
  userStacks : List Region

inductive Op where
  | Mmap (f : FileId) (size : Int)
  | StackAllocate

section

variable [LayoutConfig]

/-- The pages of the stack that ends at its stack pointer, where four words are kept free. -/
def stackOf (sp : Int) : Region :=
  let n := divRoundUp UserStackSize PageSize
  ⟨(sp + 16) / PageSize - n, n⟩

/-- The pages of a mapping. -/
def MappedFile.pages (mf : MappedFile) : Region := ⟨mf.first_address / PageSize, mf.size⟩

/-- The successful calls.  The system call checks that the size is positive. -/
def step (a : Areas) : Op → Option Areas
  | .Mmap f size =>
      if 0 < size then
        match a.space.Mmap f size with
        | .ok (s, _) => some { a with space := s }
        | .error _ => none
      else none
  | .StackAllocate =>
      match a.space.StackAllocate with
      | .ok (s, sp) => some ⟨s, a.userStacks ++ [stackOf sp]⟩
      | .error _ => none

namespace Space

/-- What a mapping that is made adds. -/
theorem mmap_added {s s' : Space} {f : FileId} {size addr : Int} (hsize : 0 < size)
    (h : s.Mmap f size = .ok (s', addr)) :
    0 < divRoundUp size PageSize ∧ 0 < s.freePageId ∧ InInt (s.freePageId * PageSize) ∧
      NewMapping s s' f (divRoundUp size PageSize) addr := by
  have hone := one_le_pages hsize
  obtain ⟨h0, hcan, hfull, hint⟩ := mmap_ok hsize h
  rw [mmap_eq hsize h0 hcan hfull hint] at h
  obtain ⟨rfl, rfl⟩ := Prod.mk.inj (Except.ok.inj h)
  exact ⟨by omega, h0, hint, added_mapFile (Int.le_of_lt h0) (by omega) hcan⟩

end Space

/-- A mapping for which there is room. -/
theorem step_Mmap {a : Areas} {f : FileId} {size : Int} (hsize : 0 < size)
    (h0 : 0 < a.space.freePageId) (hcan : a.space.CanAlloc (divRoundUp size PageSize))
    (hfull : a.space.mapped_files.length < MAX_MAPPED_FILES)
    (hint : InInt (a.space.freePageId * PageSize)) :
    step a (.Mmap f size) =
      some { a with space := a.space.mapFile f (divRoundUp size PageSize) } := by
  simp only [step, mmap_eq hsize h0 hcan hfull hint]
  exact if_pos hsize

/-- What a step adds: the pages of a mapping, or of a stack. -/
inductive Stepped (a : Areas) : Op → Areas → Prop
  | mapping {s' : Space} {f : FileId} {size n : Int} (hn : 0 < n) (h0 : 0 < a.space.freePageId)
      (h : NewMapping a.space s' f n (a.space.freePageId * PageSize)) :
      Stepped a (.Mmap f size) { a with space := s' }
  | stack {s' : Space} {P : Int}
      (h : NewStack a.space s' P (divRoundUp UserStackSize PageSize)) :
      Stepped a .StackAllocate ⟨s', a.userStacks ++ [stackOf
        (((P + divRoundUp UserStackSize PageSize) * PageSize - 16).bmod (2 ^ 32))]⟩

theorem stepped_of_step {a a' : Areas} {op : Op} (h : step a op = some a') : Stepped a op a' := by
  cases op with
  | Mmap f size =>
    simp only [Layout.step] at h
    split at h
    · rename_i hsize
      split at h
      · rename_i s' addr hm
        obtain rfl := Option.some.inj h
        obtain ⟨hn, h0, -, hadded⟩ := mmap_added hsize hm
        obtain rfl := hadded.start
        exact .mapping hn h0 hadded
      · cases h
    · cases h
  | StackAllocate =>
    simp only [Layout.step] at h
    split at h
    · rename_i s' sp hs
      obtain rfl := Option.some.inj h
      obtain ⟨P, n, rfl, hstacked, rfl⟩ := stack_cases hs
      exact .stack hstacked
    · cases h

/-- The stack that is found from the stack pointer is the one that was allocated. -/
theorem stackOf_eq {s s' : Space} {P : Int}
    (h : NewStack s s' P (divRoundUp UserStackSize PageSize))
    (hn : 0 ≤ divRoundUp UserStackSize PageSize) :
    stackOf (((P + divRoundUp UserStackSize PageSize) * PageSize - 16).bmod (2 ^ 32)) =
      ⟨P, divRoundUp UserStackSize PageSize⟩ := by
  unfold stackOf
  dsimp only
  have hint := h.top
  have h0 := h.inside.1
  generalize divRoundUp UserStackSize PageSize = n at hn hint h0 ⊢
  have hpos : 0 ≤ (P + n) * PageSize :=
    Int.mul_nonneg (by omega) (Int.le_of_lt pageSize_pos_int)
  have hmod : ((P + n) * PageSize - 16).bmod (2 ^ 32) = (P + n) * PageSize - 16 := by
    have h2 := hint.2
    rw [Int.bmod_eq_of_le (by omega) (by omega)]
  rw [hmod, Int.sub_add_cancel, Int.mul_ediv_cancel _ (Int.ne_of_gt pageSize_pos_int),
    Int.add_sub_cancel]

/-- A stack begins at the next page, or after the pages that are left blank. -/
theorem Space.NewStack.le {s s' : Space} {P n : Int} (h : NewStack s s' P n) :
    s.freePageId ≤ P := by
  have hblank : STACK_BLANK_LEN = 4 := rfl
  rcases h.base with ⟨-, rfl⟩ | ⟨-, rfl⟩
  · omega
  · omega

/-! ## The regions do not overlap -/

/-- The stacks have no negative number of pages. -/
theorem stackPages_nonneg (h : -PageSize < UserStackSize) :
    0 ≤ divRoundUp UserStackSize PageSize := by
  have hcover := le_divRoundUp_mul UserStackSize pageSize_pos_int
  have hgt : -1 * (PageSize : Int) < divRoundUp UserStackSize PageSize * PageSize := by omega
  have := Int.lt_of_mul_lt_mul_right hgt (Int.le_of_lt pageSize_pos_int)
  omega

/-- All the regions of a space, with those it began with. -/
def Areas.regions (a : Areas) (base : List Region) : List Region :=
  base ++ a.userStacks ++ a.space.mapped_files.map MappedFile.pages

/-- The regions lie one after the other below the next page, and mappings begin at a page. -/
structure Laid (base : List Region) (a : Areas) : Prop where
  packed : Region.Packed a.space.freePageId (a.regions base)
  aligned : ∀ mf ∈ a.space.mapped_files, ∃ P, mf.first_address = P * PageSize

/-- The pages of a mapping that is made. -/
theorem regions_mapping {a : Areas} {s' : Space} {f : FileId} {n : Int} (base : List Region)
    (h : NewMapping a.space s' f n (a.space.freePageId * PageSize)) :
    (({ a with space := s' } : Areas).regions base).Perm
      (⟨a.space.freePageId, n⟩ :: a.regions base) := by
  have hpages : (⟨a.space.freePageId * PageSize, n, f⟩ : MappedFile).pages =
      ⟨a.space.freePageId, n⟩ := by
    unfold MappedFile.pages
    rw [Int.mul_ediv_cancel _ (Int.ne_of_gt pageSize_pos_int)]
  unfold Areas.regions
  rw [h.files, List.map_append, List.map_singleton, hpages, ← List.append_assoc]
  exact List.perm_append_singleton _ _

/-- The pages of a stack that is allocated. -/
theorem regions_stack {a : Areas} {s' : Space} {P n : Int} (base : List Region)
    (h : NewStack a.space s' P n) :
    ((⟨s', a.userStacks ++ [⟨P, n⟩]⟩ : Areas).regions base).Perm (⟨P, n⟩ :: a.regions base) := by
  unfold Areas.regions
  rw [h.files, ← List.append_assoc, List.append_assoc (base ++ a.userStacks)]
  exact List.perm_middle

/-- A step adds one region, from the next page on. -/
theorem Laid.stepped {base : List Region} {a a' : Areas} {op : Op} (h : Laid base a)
    (hstack : op = .StackAllocate → -PageSize < UserStackSize) (hs : Stepped a op a') :
    Laid base a' := by
  cases hs with
  | @mapping s' f size n hn h0 hadded =>
    constructor
    · have hnew : Region.Packed s'.freePageId (⟨a.space.freePageId, n⟩ :: a.regions base) :=
        h.packed.cons (Int.le_refl _) (by rw [hadded.taken]) (by rw [hadded.taken]; omega)
      exact hnew.perm (regions_mapping base hadded).symm
    · intro mf hmf
      rw [show (({ a with space := s' } : Areas).space).mapped_files = _ from hadded.files,
        List.mem_append, List.mem_singleton] at hmf
      rcases hmf with hmf | rfl
      · exact h.aligned mf hmf
      · exact ⟨_, rfl⟩
  | @stack s' P hstacked =>
    have hn := stackPages_nonneg (hstack rfl)
    rw [stackOf_eq hstacked hn]
    generalize divRoundUp UserStackSize PageSize = n at hn hstacked
    have hP := hstacked.le
    constructor
    · have hnew : Region.Packed s'.freePageId (⟨P, n⟩ :: a.regions base) :=
        h.packed.cons hP (by rw [hstacked.taken]) (by rw [hstacked.taken]; omega)
      exact hnew.perm (regions_stack base hstacked).symm
    · intro mf hmf
      rw [show (({ space := s', userStacks := _ } : Areas).space).mapped_files = _ from
        hstacked.files] at hmf
      exact h.aligned mf hmf

theorem Laid.run {base : List Region} {a₀ a : Areas} {tr : List (Areas × Op)} (h₀ : Laid base a₀)
    (hstack : -PageSize < UserStackSize) (h : Run step a₀ tr a) : Laid base a :=
  Run.invariant h₀ (fun _ _ _ hi hs => hi.stepped (fun _ => hstack) (stepped_of_step hs)) h

/-! ## The search for a mapping -/

namespace MappedFile

variable (mf : MappedFile) (addr : Int)

/-- The address is in a page of the mapping. -/
def Has : Prop := mf.first_address ≤ addr ∧ addr < mf.first_address + mf.size * PageSize

/-- The address is in the page after the mapping. -/
def EndsBefore : Prop :=
  mf.first_address + mf.size * PageSize ≤ addr ∧
    addr < mf.first_address + (mf.size + 1) * PageSize

/-- The search takes the address for one of the mapping. -/
def Touches : Prop :=
  mf.first_address ≤ addr ∧ addr < mf.first_address + (mf.size + 1) * PageSize

instance : Decidable (mf.Touches addr) := inferInstanceAs (Decidable (_ ∧ _))

/-- The search computes the end of the mapping without an overflow. -/
def EndInInt : Prop :=
  InInt ((mf.size + 1) * PageSize) ∧ InInt (mf.first_address + (mf.size + 1) * PageSize)

variable {mf addr}

theorem Has.touches (h : mf.Has addr) : mf.Touches addr := by
  have hpos := pageSize_pos_int
  unfold Touches
  rw [Int.add_mul, Int.one_mul]
  exact ⟨h.1, by have := h.2; omega⟩

theorem Touches.has_or_endsBefore (h : mf.Touches addr) : mf.Has addr ∨ mf.EndsBefore addr := by
  rcases Int.lt_or_le addr (mf.first_address + mf.size * PageSize) with hlt | hle
  · exact Or.inl ⟨h.1, hlt⟩
  · exact Or.inr ⟨hle, h.2⟩

/-- The pages of a mapping that begins at a page have its addresses. -/
theorem Has.page {P : Int} (h : mf.Has addr) (hP : mf.first_address = P * PageSize) :
    mf.pages.Has (addr / PageSize) := by
  have hpos := pageSize_pos_int
  obtain ⟨hge, hlt⟩ := h
  unfold pages Region.Has
  rw [hP] at hge hlt ⊢
  rw [Int.mul_ediv_cancel _ (Int.ne_of_gt hpos)]
  rw [← Int.add_mul] at hlt
  exact ⟨(Int.le_ediv_iff_mul_le hpos).mpr hge, (Int.ediv_lt_iff_lt_mul hpos).mpr hlt⟩

end MappedFile

/-- No mapping that the search looks at ends within a page of the greatest `int`. -/
def Ends (addr : Int) : List MappedFile → Prop
  | [] => True
  | mf :: mfs => mf.EndInInt ∧ (mf.Touches addr ∨ Ends addr mfs)

/-- The first mapping that the search takes for that of the address does not end before the
    address, or the address is in a mapping of the same file. -/
def Clear (addr : Int) (mfs : List MappedFile) : Prop :=
  ∀ mf, mfs.find? (fun mf => mf.Touches addr) = some mf → mf.EndsBefore addr →
    ∃ mf' ∈ mfs, mf'.Has addr ∧ mf'.file = mf.file

/-- The mappings that have the address are of one file. -/
def OneFile (addr : Int) (mfs : List MappedFile) : Prop :=
  ∀ mf ∈ mfs, ∀ mf' ∈ mfs, mf.Has addr → mf'.Has addr → mf.file = mf'.file

/-- What is expected of `findMappedFile`: the file of the mapping that has the address, and
    no file when there is none. -/
def Finds (s : Space) (addr : Int) : Prop :=
  (∀ mf ∈ s.mapped_files, mf.Has addr → s.findMappedFile addr = .ok (some mf.file)) ∧
    ((∀ mf ∈ s.mapped_files, ¬ mf.Has addr) → s.findMappedFile addr = .ok none)

/-- One round of the search. -/
theorem search_cons {addr : Int} {mf : MappedFile} {mfs : List MappedFile} {r : Option FileId} :
    search addr (mf :: mfs) = .ok r ↔
      mf.EndInInt ∧
        (if mf.Touches addr then .ok (some mf.file) else search addr mfs) = Except.ok r := by
  conv_lhs => unfold search
  constructor
  · intro h
    obtain ⟨length, hlength, h⟩ := bind_ok.mp h
    obtain ⟨mf_end, hend, h⟩ := bind_ok.mp h
    obtain ⟨h1, rfl⟩ := checked_ok.mp hlength
    obtain ⟨h2, rfl⟩ := checked_ok.mp hend
    exact ⟨⟨h1, h2⟩, h⟩
  · rintro ⟨⟨h1, h2⟩, h⟩
    exact bind_ok.mpr ⟨_, checked_of_inInt h1, bind_ok.mpr ⟨_, checked_of_inInt h2, h⟩⟩

/-- The search returns just when the ends that it computes are `int`s. -/
theorem search_ok {addr : Int} {mfs : List MappedFile} {r : Option FileId} :
    search addr mfs = .ok r ↔
      Ends addr mfs ∧ r = (mfs.find? fun mf => mf.Touches addr).map MappedFile.file := by
  induction mfs with
  | nil => simp [search, Ends, eq_comm]
  | cons mf mfs ih =>
    rw [search_cons]
    unfold Ends
    by_cases htouch : mf.Touches addr
    · rw [if_pos htouch, List.find?_cons_of_pos (by simpa using htouch)]
      simp [htouch, eq_comm]
    · rw [if_neg htouch, List.find?_cons_of_neg (by simpa using htouch), ih]
      simp [htouch, and_assoc]

/-- For one address and one table of mappings. -/
theorem finds_iff {s : Space} {addr : Int} :
    Finds s addr ↔
      Ends addr s.mapped_files ∧ Clear addr s.mapped_files ∧ OneFile addr s.mapped_files := by
  constructor
  · rintro ⟨hhas, hnone⟩
    have hends : Ends addr s.mapped_files := by
      by_cases hex : ∃ mf ∈ s.mapped_files, mf.Has addr
      · obtain ⟨mf, hmf, hin⟩ := hex
        exact (search_ok.mp (hhas mf hmf hin)).1
      · exact (search_ok.mp (hnone fun mf hmf hin => hex ⟨mf, hmf, hin⟩)).1
    refine ⟨hends, ?_, ?_⟩
    · intro mf hfirst _
      have hfound : s.findMappedFile addr = .ok (some mf.file) := by
        refine search_ok.mpr ⟨hends, ?_⟩
        rw [hfirst]
        rfl
      by_contra hno
      refine absurd (hfound.symm.trans (hnone fun mf' hmf' hin => hno ⟨mf', hmf', hin, ?_⟩)) ?_
      · exact Option.some.inj (Except.ok.inj ((hhas mf' hmf' hin).symm.trans hfound))
      · exact nofun
    · intro mf hmf mf' hmf' hin hin'
      exact Option.some.inj (Except.ok.inj ((hhas mf hmf hin).symm.trans (hhas mf' hmf' hin')))
  · rintro ⟨hends, hclear, hone⟩
    -- what is found belongs to a mapping that has the address
    have hfound : ∀ mf, s.mapped_files.find? (fun mf => mf.Touches addr) = some mf →
        ∃ mf' ∈ s.mapped_files, mf'.Has addr ∧ mf'.file = mf.file := by
      intro mf hfirst
      have htouch : mf.Touches addr := by simpa using List.find?_some hfirst
      rcases htouch.has_or_endsBefore with hin | hbefore
      · exact ⟨mf, List.mem_of_find?_eq_some hfirst, hin, rfl⟩
      · exact hclear mf hfirst hbefore
    refine ⟨fun mf hmf hin => search_ok.mpr ⟨hends, ?_⟩, fun hno => search_ok.mpr ⟨hends, ?_⟩⟩
    · cases hfirst : s.mapped_files.find? (fun mf => mf.Touches addr) with
      | none =>
        have hno := List.find?_eq_none.mp hfirst mf hmf
        exact absurd hin.touches (by simpa using hno)
      | some mf₀ =>
        obtain ⟨mf', hmf', hin', hfile⟩ := hfound mf₀ hfirst
        rw [Option.map_some, hone mf hmf mf' hmf' hin hin', hfile]
    · cases hfirst : s.mapped_files.find? (fun mf => mf.Touches addr) with
      | none => rfl
      | some mf₀ =>
        obtain ⟨mf', hmf', hin', -⟩ := hfound mf₀ hfirst
        exact absurd hin' (hno mf' hmf')

/-- Mappings that lie one after the other have no address in common. -/
theorem Laid.oneFile {base : List Region} {a : Areas} (h : Laid base a) (addr : Int) :
    OneFile addr a.space.mapped_files := by
  intro mf hmf mf' hmf' hin hin'
  have hpacked : Region.Packed a.space.freePageId (a.space.mapped_files.map MappedFile.pages) :=
    h.packed.of_sublist (List.sublist_append_right _ _)
  obtain ⟨P, hP⟩ := h.aligned mf hmf
  obtain ⟨P', hP'⟩ := h.aligned mf' hmf'
  rw [hpacked.eq_of_has hmf hmf' (hin.page hP) (hin'.page hP')]

/-- In every space that has been given stacks and mappings, an address is looked up in the
    right file just when the condition is met; and unless stacks have a negative number of
    pages, the mappings of an address are of one file. -/
theorem findMappedFile_finds_iff {s₀ : Space} {a : Areas} {tr : List (Areas × Op)}
    (h₀ : s₀.mapped_files = []) (h : Run step ⟨s₀, []⟩ tr a) (addr : Int) :
    (Finds a.space addr ↔ Ends addr a.space.mapped_files ∧ Clear addr a.space.mapped_files ∧
      OneFile addr a.space.mapped_files) ∧
    (-PageSize < UserStackSize → OneFile addr a.space.mapped_files) := by
  refine ⟨finds_iff, fun hstack => ?_⟩
  have hstart : Laid [] ⟨s₀, []⟩ := by
    constructor
    · unfold Areas.regions
      rw [h₀]
      exact Region.Packed.nil
    · simp [h₀]
  exact (hstart.run hstack h).oneFile addr

end

/-- Three pages of a program, and a page of a file. -/
def onePage : Areas :=
  let _ := LayoutConfig.eight
  ⟨(fresh 3).mapFile 0 (divRoundUp 100 PageSize), []⟩

theorem run_onePage :
    let _ := LayoutConfig.eight
    Run step ⟨fresh 3, []⟩ [(⟨fresh 3, []⟩, .Mmap 0 100)] onePage :=
  let _ := LayoutConfig.eight
  Run.snoc Run.nil (step_Mmap (by decide) (by decide) (by decide) (by decide) (by decide))

theorem findMappedFile_finds_onePage :
    let _ := LayoutConfig.eight
    (Finds onePage.space 400 ↔ Ends 400 onePage.space.mapped_files ∧
      Clear 400 onePage.space.mapped_files ∧ OneFile 400 onePage.space.mapped_files) ∧
    (-PageSize < UserStackSize → OneFile 400 onePage.space.mapped_files) :=
  let _ := LayoutConfig.eight
  findMappedFile_finds_iff rfl run_onePage 400

/-- The page after the mapping is taken for a page of the file. -/
theorem findMappedFile_page_after :
    let _ := LayoutConfig.eight
    ∃ (s₀ : Space) (a : Areas) (tr : List (Areas × Op)) (addr : Int), s₀.mapped_files = [] ∧
      Run step ⟨s₀, []⟩ tr a ∧ 0 ≤ addr ∧ addr < MaxVirtPages * PageSize ∧
      ¬ Finds a.space addr := by
  intro _
  refine ⟨fresh 3, onePage, _, 512, rfl, run_onePage, by decide, by decide, fun h => ?_⟩
  have hnone : ∀ mf ∈ onePage.space.mapped_files, ¬ mf.Has 512 := by
    unfold MappedFile.Has
    decide
  have hfound : onePage.space.findMappedFile 512 = .ok (some 0) := by decide
  exact nomatch hfound.symm.trans (h.2 hnone)

section

variable [LayoutConfig]

/-- The search agrees with that of the model of the memory management. -/
theorem findMappedFile_of_memory {m : Memory} {b : SpaceId} {addr : Nat}
    (h : Ends addr (spaceOf m b).mapped_files) :
    (spaceOf m b).findMappedFile addr = .ok ((m.spaces b).findMappedFile addr) := by
  refine search_ok.mpr ⟨h, ?_⟩
  unfold spaceOf AddrSpace.findMappedFile
  rw [List.find?_map, Option.map_map]
  refine congrArg (fun p => Option.map _ (List.find? p _)) (funext fun mf => ?_)
  refine decide_eq_decide.mpr ?_
  unfold MappedFile.Touches
  dsimp only
  exact_mod_cast Iff.rfl

/-! ## The constructor -/

/-- The page is one of a section that is loaded. -/
def InSection (table : List Elf32_Shdr) (v : Nat) : Prop :=
  ∃ sh ∈ table, sh.loaded = true ∧ sh.sh_addr.toNat / PageSize ≤ v ∧
    v < sh.sh_addr.toNat / PageSize + sh.pages

theorem inSection_page {table : List Elf32_Shdr} {x : Visit} (hx : x ∈ visits table) :
    InSection table x.page := by
  obtain ⟨sh, hsh, hx⟩ := List.mem_flatMap.mp hx
  split at hx
  · rename_i hl
    obtain ⟨i, hi, rfl⟩ := List.mem_map.mp hx
    have hlt := List.mem_range.mp hi
    exact ⟨sh, hsh, hl, Nat.le_add_right _ _, Nat.add_lt_add_left hlt _⟩
  · cases hx

omit [LayoutConfig] in
/-- No section ends after the last one, as far as the ends are `int`s. -/
theorem le_mem_topaddr (table : List Elf32_Shdr) :
    0 ≤ mem_topaddr table ∧
      ∀ sh ∈ table, sh.loaded = true → (sh.sh_addr + sh.sh_size).toInt ≤ mem_topaddr table := by
  -- from the last section back, since the maximum is taken from the left
  induction table using List.reverseRecOn with
  | nil => exact ⟨Int.le_refl 0, nofun⟩
  | append_singleton table sh ih =>
    obtain ⟨h0, hall⟩ := ih
    have hstep : mem_topaddr (table ++ [sh]) =
        if sh.loaded ∧ (sh.sh_addr + sh.sh_size).toInt > mem_topaddr table then
          (sh.sh_addr + sh.sh_size).toInt
        else mem_topaddr table := by
      unfold mem_topaddr
      rw [List.foldl_append]
      rfl
    have hle : mem_topaddr table ≤ mem_topaddr (table ++ [sh]) := by
      rw [hstep]
      split
      · rename_i hmore
        exact Int.le_of_lt hmore.2
      · exact Int.le_refl _
    refine ⟨h0.trans hle, fun sh' hsh' hl => ?_⟩
    rcases List.mem_append.mp hsh' with hin | hlast
    · exact (hall sh' hin hl).trans hle
    · obtain rfl := List.mem_singleton.mp hlast
      rw [hstep]
      split
      · exact Int.le_refl _
      · rename_i hno
        exact Int.not_lt.mp fun hlt => hno ⟨hl, hlt⟩

/-- The end of the section is an `int`, so that it counts for the size of the program. -/
def EndIsInt (sh : Elf32_Shdr) : Prop := sh.sh_addr.toNat + sh.sh_size.toNat < 2 ^ 31

/-- What the constructor leaves: the pages up to the end of the last section are taken, and
    the pages of the sections alone have rights. -/
structure Built (table : List Elf32_Shdr) (s : Space) : Prop where
  taken : s.freePageId = divRoundUp (mem_topaddr table) PageSize
  inside : 0 ≤ s.freePageId ∧ s.freePageId < MaxVirtPages
  files : s.mapped_files = []
  aligned : ∀ sh ∈ table, sh.loaded = true → sh.sh_addr.toNat % PageSize = 0
  rights : ∀ v, (s.pageTable v).readAllowed = true ∨ (s.pageTable v).writeAllowed = true →
    InSection table v

theorem built_of_new {heap : Nat → Nat × Bool} {stack : Nat → Byte} {b : SpaceId} {exec : FileId}
    {m d : Memory} {table : List Elf32_Shdr}
    (htable : sectionTable (m.files exec) stack = some table)
    (hd : AddrSpace.new (loadLater b MaxVirtPages) heap stack MaxVirtPages b exec m = some d) :
    Built table (spaceOf d b) := by
  have hfiles := (new_loadLater hd).2.1
  unfold AddrSpace.new at hd
  rw [htable, Option.bind_some] at hd
  dsimp only at hd
  split at hd
  · cases hd
  rename_i hroom
  have haligned := aligned_of_loadSections hd
  rw [loadSections_eq haligned] at hd
  have hpages : 0 ≤ divRoundUp (mem_topaddr table) PageSize :=
    divRoundUp_nonneg pageSize_pos_int (le_mem_topaddr table).1
  have hloop := foldlM_invariant (P := fun d : Memory =>
    (d.spaces b).freePageId = (divRoundUp (mem_topaddr table) PageSize).toNat ∧
      ∀ v, (d.entry b v).readAllowed = true ∨ (d.entry b v).writeAllowed = true →
        InSection table v) ?_ ?_ hd
  · have hfree : (spaceOf d b).freePageId = divRoundUp (mem_topaddr table) PageSize := by
      show ((d.spaces b).freePageId : Int) = _
      rw [hloop.1, Int.toNat_of_nonneg hpages]
    refine ⟨hfree, ?_, ?_, haligned, hloop.2⟩
    · rw [hfree]
      exact ⟨hpages, Int.not_le.mp hroom⟩
    · show (d.spaces b).mapped_files.map _ = []
      rw [hfiles, List.map_nil]
  · rintro x hx d d' ⟨hfree, hrights⟩ hstep
    unfold loadLater at hstep
    split at hstep
    · cases hstep
    · obtain rfl := Option.some.inj hstep
      refine ⟨Memory.modifyEntry_space _ b |>.1.trans hfree, fun v hv => ?_⟩
      by_cases hpage : v = x.page
      · rw [hpage]
        exact inSection_page hx
      · rw [Memory.entry_modifyEntry, if_neg fun h => hpage h.2] at hv
        exact hrights v hv
  · refine ⟨by simp, fun v hv => ?_⟩
    simp [Memory.entry, TranslationTable] at hv

/-- The pages of the sections are below the first page that is free, when the ends of the
    sections are `int`s. -/
theorem Built.section_lt {table : List Elf32_Shdr} {s : Space} (h : Built table s)
    (hends : ∀ sh ∈ table, sh.loaded = true → EndIsInt sh) {v : Nat} (hv : InSection table v) :
    v < s.freePageId := by
  obtain ⟨sh, hsh, hl, -, hlt⟩ := hv
  have hend : sh.sh_addr.toNat + sh.sh_size.toNat < 2 ^ 31 := hends sh hsh hl
  have hsum : (sh.sh_addr + sh.sh_size).toInt = sh.sh_addr.toNat + sh.sh_size.toNat := by
    have hnat : (sh.sh_addr + sh.sh_size).toNat = sh.sh_addr.toNat + sh.sh_size.toNat := by
      rw [BitVec.toNat_add, Nat.mod_eq_of_lt (by omega)]
    rw [BitVec.toInt_eq_toNat_of_lt (by omega), hnat, Int.natCast_add]
  have htop := (le_mem_topaddr table).2 sh hsh hl
  have hcover := le_divRoundUp_mul (mem_topaddr table) pageSize_pos_int
  rw [← h.taken] at hcover
  -- the section begins at the page `q`
  have hq := Nat.div_add_mod' sh.sh_addr.toNat PageSize
  rw [h.aligned sh hsh hl, Nat.add_zero] at hq
  generalize sh.sh_addr.toNat / PageSize = q at hq hlt
  have hpages : divRoundUp sh.sh_size.toNat PageSize = sh.pages := divRoundUp_natCast _
  have hle : divRoundUp sh.sh_size.toNat PageSize ≤ s.freePageId - q := by
    have hqi : (q : Int) * PageSize = sh.sh_addr.toNat := by exact_mod_cast hq
    refine divRoundUp_le pageSize_pos_int ?_ ?_
    · have hmul : (q : Int) * PageSize ≤ s.freePageId * PageSize := by omega
      have := Int.le_of_mul_le_mul_right hmul pageSize_pos_int
      omega
    · rw [Int.sub_mul]
      omega
  omega

/-! ## Guard pages -/

/-- What is expected of a space with the sections of `table` and its first pages taken for
    the program: the regions do not overlap, they are in the table, the pages before a stack
    have no rights, and the pages that have rights are in a region. -/
structure Guarded (table : List Elf32_Shdr) (program : Region) (a : Areas) : Prop where
  disjoint : (a.regions [program]).Pairwise Region.Disjoint
  inside : ∀ r ∈ a.regions [program], 0 ≤ r.first ∧ 0 ≤ r.size ∧ r.first + r.size ≤ MaxVirtPages
  sections : ∀ v, InSection table v → program.Has v
  blank : ∀ r ∈ a.userStacks, STACK_BLANK_LEN ≤ r.first ∧
    ∀ v : Nat, r.first - STACK_BLANK_LEN ≤ v → v < r.first →
      (a.space.pageTable v).readAllowed = false ∧ (a.space.pageTable v).writeAllowed = false
  rights : ∀ v, (a.space.pageTable v).readAllowed = true ∨
      (a.space.pageTable v).writeAllowed = true →
    InSection table v ∨ ∃ r ∈ a.regions [], r.Has v

/-- The invariant, with what makes the next region fit. -/
structure Sound (table : List Elf32_Shdr) (program : Region) (a : Areas) : Prop where
  laid : Laid [program] a
  room : 0 ≤ a.space.freePageId ∧ a.space.freePageId ≤ MaxVirtPages
  inside : ∀ r ∈ a.regions [program], 0 ≤ r.first ∧ 0 ≤ r.size
  sections : ∀ v, InSection table v → program.Has v
  blank : ∀ r ∈ a.userStacks, STACK_BLANK_LEN ≤ r.first ∧
    ∀ v : Nat, r.first - STACK_BLANK_LEN ≤ v → v < r.first →
      (a.space.pageTable v).readAllowed = false ∧ (a.space.pageTable v).writeAllowed = false
  rights : ∀ v, (a.space.pageTable v).readAllowed = true ∨
      (a.space.pageTable v).writeAllowed = true →
    InSection table v ∨ ∃ r ∈ a.regions [], r.Has v

section

variable {table : List Elf32_Shdr} {program : Region} {a a' : Areas}

theorem Sound.guarded (h : Sound table program a) : Guarded table program a where
  disjoint := h.laid.packed.disjoint
  inside r hr := ⟨(h.inside r hr).1, (h.inside r hr).2,
    Int.le_trans (h.laid.packed.below r hr) h.room.2⟩
  sections := h.sections
  blank := h.blank
  rights := h.rights

theorem mem_regions {r : Region} (h : r ∈ a.regions []) : r ∈ a.regions [program] :=
  List.mem_cons_of_mem _ h

/-- A page that is free has no rights. -/
theorem Sound.no_rights (h : Sound table program a) {v : Nat} (hv : a.space.freePageId ≤ v) :
    (a.space.pageTable v).readAllowed = false ∧ (a.space.pageTable v).writeAllowed = false := by
  have hbelow : ∀ r ∈ a.regions [program], ¬ r.Has v := by
    rintro r hr ⟨-, hlt⟩
    have := h.laid.packed.below r hr
    omega
  by_contra hno
  have hright : (a.space.pageTable v).readAllowed = true ∨
      (a.space.pageTable v).writeAllowed = true := by
    cases hr : (a.space.pageTable v).readAllowed
    · cases hw : (a.space.pageTable v).writeAllowed
      · exact absurd ⟨hr, hw⟩ hno
      · exact Or.inr rfl
    · exact Or.inl rfl
  rcases h.rights v hright with hsec | ⟨r, hr, hin⟩
  · exact hbelow program List.mem_cons_self (h.sections v hsec)
  · exact hbelow r (mem_regions hr) hin

/-- The step does what the guard pages need: a stack finds room for its blank pages, and has
    no negative size. -/
def Leaves (a : Areas) : Op → Prop
  | .Mmap _ _ => True
  | .StackAllocate => a.space.CanAlloc STACK_BLANK_LEN ∧ -PageSize < UserStackSize

/-- A step that gives rights to the pages of one new region only, and leaves the pages below
    it alone. -/
theorem Sound.grow (h : Sound table program a) {r : Region} (hlaid : Laid [program] a')
    (hperm : ∀ base, (a'.regions base).Perm (r :: a.regions base))
    (hfirst : a.space.freePageId ≤ r.first) (hsize : 0 ≤ r.size)
    (hfree : a'.space.freePageId = r.first + r.size) (hroom : a'.space.freePageId ≤ MaxVirtPages)
    (hsame : ∀ v : Nat, ¬ r.Has v → a'.space.pageTable v = a.space.pageTable v)
    (hstacks : ∀ s ∈ a'.userStacks, s ∈ a.userStacks ∨
      s = r ∧ a.space.freePageId + STACK_BLANK_LEN ≤ r.first) : Sound table program a' where
  laid := hlaid
  room := ⟨by have := h.room.1; omega, hroom⟩
  inside s hs := by
    rcases List.mem_cons.mp ((hperm _).mem_iff.mp hs) with rfl | hs
    · exact ⟨Int.le_trans h.room.1 hfirst, hsize⟩
    · exact h.inside s hs
  sections := h.sections
  blank s hs := by
    have hblank : STACK_BLANK_LEN = 4 := rfl
    have h0 := h.room.1
    rcases hstacks s hs with hs | ⟨rfl, hnew⟩
    · -- the pages before an earlier stack are below the new region
      obtain ⟨hle, hno⟩ := h.blank s hs
      refine ⟨hle, fun v hge hlt => ?_⟩
      have hin : s ∈ a.regions [program] :=
        List.mem_append_left _ (List.mem_append_right _ hs)
      have hbelow := h.laid.packed.below s hin
      have hpos := (h.inside s hin).2
      rw [hsame v fun hhas => by have := hhas.1; omega]
      exact hno v hge hlt
    · refine ⟨by omega, fun v hge hlt => ?_⟩
      rw [hsame v fun hhas => by have := hhas.1; omega]
      exact h.no_rights (by omega)
  rights v hv := by
    by_cases hhas : r.Has v
    · exact Or.inr ⟨r, (hperm []).mem_iff.mpr List.mem_cons_self, hhas⟩
    · rw [hsame v hhas] at hv
      refine (h.rights v hv).imp_right ?_
      rintro ⟨s, hs, hin⟩
      exact ⟨s, (hperm []).mem_iff.mpr (List.mem_cons_of_mem _ hs), hin⟩

theorem Sound.stepped {op : Op} (h : Sound table program a) (hl : Leaves a op)
    (hs : Stepped a op a') : Sound table program a' := by
  have hlaid : Laid [program] a' := h.laid.stepped (by rintro rfl; exact hl.2) hs
  cases hs with
  | @mapping s' f size n hn h0 hadded =>
    refine h.grow hlaid (fun base => regions_mapping base hadded) (Int.le_refl _)
      (Int.le_of_lt hn) hadded.taken ?_ ?_ fun s hs => Or.inl hs
    · show s'.freePageId ≤ _
      rw [hadded.taken]
      exact Int.le_of_lt hadded.inside.2
    · intro v hout
      exact (hadded.entry v).trans (if_neg hout)
  | @stack s' P hstacked =>
    have hn := stackPages_nonneg hl.2
    rw [stackOf_eq hstacked hn] at hlaid ⊢
    generalize divRoundUp UserStackSize PageSize = n at hn hstacked hlaid ⊢
    have hP : P = a.space.freePageId + STACK_BLANK_LEN :=
      (hstacked.base.resolve_right fun hno => hno.1 hl.1).2
    refine h.grow hlaid (fun base => regions_stack base hstacked) hstacked.le hn hstacked.taken ?_
      ?_ fun s hs => ?_
    · show s'.freePageId ≤ _
      rw [hstacked.taken]
      exact Int.le_of_lt hstacked.inside.2
    · intro v hout
      exact (hstacked.entry v).trans (if_neg hout)
    · rcases List.mem_append.mp hs with hs | hs
      · exact Or.inl hs
      · exact Or.inr ⟨List.mem_singleton.mp hs, Int.le_of_eq hP.symm⟩

/-- The space that the constructor leaves. -/
theorem Built.sound {s : Space} (h : Built table s)
    (hends : ∀ sh ∈ table, sh.loaded = true → EndIsInt sh) :
    Sound table ⟨0, s.freePageId⟩ ⟨s, []⟩ where
  laid := by
    constructor
    · unfold Areas.regions
      rw [h.files]
      exact Region.Packed.nil.cons (Int.le_refl _) (by simp) h.inside.1
    · simp [h.files]
  room := ⟨h.inside.1, Int.le_of_lt h.inside.2⟩
  inside r hr := by
    unfold Areas.regions at hr
    rw [h.files] at hr
    obtain rfl : r = ⟨0, s.freePageId⟩ := by simpa using hr
    exact ⟨Int.le_refl 0, h.inside.1⟩
  sections v hv := ⟨Int.natCast_nonneg v, by simpa using h.section_lt hends hv⟩
  blank r hr := absurd hr List.not_mem_nil
  rights v hv := Or.inl (h.rights v hv)

/-- A space that the constructor has built from sections whose ends are `int`s keeps its
    regions apart, and its guard pages without rights, in every run in which each stack finds
    room for its guard pages. -/
theorem guarded_run {heap : Nat → Nat × Bool} {stack : Nat → Byte} {b : SpaceId} {exec : FileId}
    {m d : Memory} {tr : List (Areas × Op)}
    (htable : sectionTable (m.files exec) stack = some table)
    (hd : AddrSpace.new (loadLater b MaxVirtPages) heap stack MaxVirtPages b exec m = some d)
    (hends : ∀ sh ∈ table, sh.loaded = true → EndIsInt sh)
    (h : Run step ⟨spaceOf d b, []⟩ tr a) (hleaves : ∀ x ∈ tr, Leaves x.1 x.2) :
    Guarded table ⟨0, (spaceOf d b).freePageId⟩ a :=
  (Run.invariant_of_steps (I := fun _ a => Sound table ⟨0, (spaceOf d b).freePageId⟩ a)
    ((built_of_new htable hd).sound hends)
    (fun _ _ _ _ hi hl hs => hi.stepped hl (stepped_of_step hs)) h hleaves).guarded

end

end

/-- A program of two pages with a stack and a page of a file, in a table of sixteen pages. -/
theorem guarded_run_elf :
    let _ := LayoutConfig.pages 16 (by decide)
    ∃ (d : Memory) (a a' : Areas),
      AddrSpace.new (loadLater 0 16) (fun _ => (0, true)) (fun _ => 0) 16 0 0 elfMemory = some d ∧
      step ⟨spaceOf d 0, []⟩ .StackAllocate = some a ∧ step a (.Mmap 0 100) = some a' ∧
      a'.userStacks = [⟨6, 1⟩] ∧ Guarded elfTable ⟨0, (spaceOf d 0).freePageId⟩ a' := by
  intro _
  have htable : sectionTable (elfMemory.files 0) (fun _ => 0) = some elfTable := by
    decide +kernel
  have hall : ((AddrSpace.new (loadLater 0 16) (fun _ => (0, true)) (fun _ => 0) 16 0 0
      elfMemory).bind fun d => (step ⟨spaceOf d 0, []⟩ .StackAllocate).bind fun a =>
        (step a (.Mmap 0 100)).map Areas.userStacks) = some [⟨6, 1⟩] := by
    decide +kernel
  obtain ⟨d, hd, hall⟩ := Option.bind_eq_some_iff.mp hall
  obtain ⟨a, ha, hall⟩ := Option.bind_eq_some_iff.mp hall
  obtain ⟨a', ha', hstacks⟩ := Option.map_eq_some_iff.mp hall
  have hroom : (spaceOf d 0).CanAlloc STACK_BLANK_LEN := by
    unfold Space.CanAlloc
    rw [(built_of_new htable hd).taken]
    decide +kernel
  refine ⟨d, a, a', hd, ha, ha', hstacks, ?_⟩
  refine guarded_run htable hd ?_ (Run.snoc (Run.snoc Run.nil ha) ha') ?_
  · unfold EndIsInt
    decide +kernel
  · intro x hx
    obtain rfl | rfl : x = _ ∨ x = _ := by simpa using hx
    · exact ⟨hroom, by decide⟩
    · trivial

/-- Three pages of a file and no room for the blank pages: the stack comes right after the
    file, whose pages may be written. -/
theorem guarded_run_fails :
    let _ := LayoutConfig.pages 9 (by decide)
    ∃ (heap : Nat → Nat × Bool) (stack : Nat → Byte) (m d : Memory) (table : List Elf32_Shdr)
      (tr : List (Areas × Op)) (a : Areas),
      sectionTable (m.files 0) stack = some table ∧
      AddrSpace.new (loadLater 0 9) heap stack 9 0 0 m = some d ∧
      Run step ⟨spaceOf d 0, []⟩ tr a ∧ ¬ Guarded table ⟨0, (spaceOf d 0).freePageId⟩ a := by
  intro _
  have hall : ((AddrSpace.new (loadLater 0 9) (fun _ => (0, true)) (fun _ => 0) 9 0 0
      elfMemory).bind fun d => (step ⟨spaceOf d 0, []⟩ (.Mmap 0 300)).bind fun a =>
        (step a .StackAllocate).map fun a =>
          (a.userStacks, (a.space.pageTable 4).writeAllowed)) = some ([⟨5, 1⟩], true) := by
    decide +kernel
  obtain ⟨d, hd, hall⟩ := Option.bind_eq_some_iff.mp hall
  obtain ⟨a, ha, hall⟩ := Option.bind_eq_some_iff.mp hall
  obtain ⟨a', ha', hend⟩ := Option.map_eq_some_iff.mp hall
  obtain ⟨hstacks, hwrite⟩ := Prod.mk.inj hend
  refine ⟨_, _, elfMemory, d, elfTable, _, a', by decide +kernel, hd,
    Run.snoc (Run.snoc Run.nil ha) ha', fun h => ?_⟩
  have hblank := (h.blank ⟨5, 1⟩ (hstacks ▸ List.mem_singleton_self _)).2 4 (by decide) (by decide)
  rw [hblank.2] at hwrite
  exact nomatch hwrite

end Layout
end Vm
end Nachos
