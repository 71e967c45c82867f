/-
  Nachos.Vm.Layout

  How an address space is divided (`kernel/addrspace.cc`): `Alloc`, `StackAllocate`, `Mmap`
  and `findMappedFile`, with the `int`s of the code and each way in which one of them does
  not come to its end.  `Alloc` takes the next pages and never gives one back; it answers -1
  when it has no more, and its callers differ in what they make of that.
-/

import Nachos.Filesys.HeaderSpec
import Nachos.Lib.Guarded
import Nachos.Vm.Mapping

namespace Nachos
namespace Vm
namespace Layout

open Transition Guarded

/-- The part of the configuration that the address spaces are made from.  `UserStackSize`
    is any `int`. -/
class LayoutConfig extends VmConfig where
  MaxVirtPages : Nat
  UserStackSize : Int
  maxVirtPages_int : InInt MaxVirtPages

export LayoutConfig (MaxVirtPages UserStackSize)

abbrev STACK_BLANK_LEN : Int := 4

/-- Why a call does not return: a failing `ASSERT`, `Halt`, an index outside of an array, an
    `int` that overflows. -/
inductive Stop where
  | assert
  | halt
  | outOfBounds
  | overflow
deriving DecidableEq, Repr

/-- An `int` that the code computes. -/
def checked (x : Int) : Except Stop Int := if InInt x then .ok x else .error .overflow

/-- `s_mapped_file`; the size is in pages. -/
structure MappedFile where
  first_address : Int
  size : Int
  file : FileId
deriving DecidableEq, Repr

/-- What an address space knows about its pages. -/
@[ext]
structure Space where
  freePageId : Int
  mapped_files : List MappedFile
  pageTable : Nat → PageTableEntry

section

variable [LayoutConfig]

namespace Space

/-- Setters of the translation table, which demand a page of the table. -/
def set (s : Space) (virtualPage : Int) (f : PageTableEntry → PageTableEntry) :
    Except Stop Space :=
  if 0 ≤ virtualPage ∧ virtualPage < MaxVirtPages then
    .ok { s with
      pageTable := Function.update s.pageTable virtualPage.toNat
        (f (s.pageTable virtualPage.toNat)) }
  else .error .assert

/-- `AddrSpace::Alloc`. -/
def Alloc (s : Space) (numPages : Int) : Except Stop (Space × Int) := do
  let last ← checked (s.freePageId + numPages)
  if last ≥ MaxVirtPages then return (s, -1)
  else return ({ s with freePageId := last }, s.freePageId)

/-- The loop of `Mmap`; no byte offset is past the size, which is an `int`. -/
def mapPages (s : Space) (page_allocated : Int) (nb_pages : Nat) : Except Stop Space :=
  (List.range nb_pages).foldlM (fun s (i : Nat) =>
    s.set (page_allocated + i) (.mapped (i * PageSize))) s

/-- `AddrSpace::Mmap`. -/
def Mmap (s : Space) (f : FileId) (size : Int) : Except Stop (Space × Int) := do
  let nb_pages := divRoundUp size PageSize
  let (s, page_allocated) ← s.Alloc nb_pages
  let addr_allocated ← checked (page_allocated * PageSize)
  if addr_allocated = 0 then throw .halt
  else if s.mapped_files.length ≥ MAX_MAPPED_FILES then throw .outOfBounds
  else
    let element : MappedFile := ⟨addr_allocated, nb_pages, f⟩
    let s := { s with mapped_files := s.mapped_files ++ [element] }
    let s ← s.mapPages page_allocated nb_pages.toNat
    return (s, addr_allocated)

/-- The entry of a page of a stack. -/
def stackEntry (e : PageTableEntry) : PageTableEntry :=
  (((e.clearBitValid.setAddrDisk (-1)).clearBitSwap.setBitReadAllowed).setBitWriteAllowed).clearBitIo

/-- The loop of `StackAllocate`. -/
def stackPages (s : Space) (stackBasePage : Int) (numPages : Nat) : Except Stop Space :=
  (List.range numPages).foldlM (fun s (i : Nat) => s.set (stackBasePage + i) stackEntry) s

/-- `AddrSpace::StackAllocate`.  The arguments of its messages are computed whether the
    messages are shown or not.  The size of an `int` has no sign, and so has what is taken
    from it; the stack pointer is the `int` with these bits. -/
def StackAllocate (s : Space) : Except Stop (Space × Int) := do
  let (s, blankaddr) ← s.Alloc STACK_BLANK_LEN
  let _ ← checked (blankaddr * PageSize)
  let _ ← checked ((blankaddr + STACK_BLANK_LEN) * PageSize)
  let numPages := divRoundUp UserStackSize PageSize
  let (s, stackBasePage) ← s.Alloc numPages
  if ¬ stackBasePage ≥ 0 then throw .assert
  else
    let _ ← checked (stackBasePage * PageSize)
    let top ← checked ((stackBasePage + numPages) * PageSize)
    let s ← s.stackPages stackBasePage numPages.toNat
    return (s, (top - 4 * 4).bmod (2 ^ 32))

/-- `AddrSpace::findMappedFile`: the loop over the mappings. -/
def search (addr : Int) : List MappedFile → Except Stop (Option FileId)
  | [] => .ok none
  | mf :: mfs => do
      let length ← checked ((mf.size + 1) * PageSize)
      let mf_end ← checked (mf.first_address + length)
      if addr ≥ mf.first_address ∧ addr < mf_end then return some mf.file
      else search addr mfs

def findMappedFile (s : Space) (addr : Int) : Except Stop (Option FileId) :=
  search addr s.mapped_files

end Space

/-! ## What the operations do -/

omit [LayoutConfig] in
theorem checked_of_inInt {x : Int} (h : InInt x) : checked x = .ok x := if_pos h

omit [LayoutConfig] in
theorem checked_ok {x y : Int} : checked x = .ok y ↔ InInt x ∧ y = x := by
  unfold checked
  split <;> rename_i h
  · simp [h, eq_comm]
  · simp [h]

namespace Space

variable {s s' : Space} {P n addr size : Int} {f : FileId}

/-- There are pages left for `n` more. -/
def CanAlloc (s : Space) (n : Int) : Prop := s.freePageId + n < MaxVirtPages

instance : Decidable (s.CanAlloc n) := inferInstanceAs (Decidable (_ < _))

/-- What `Alloc` does with the pages it has. -/
def take (s : Space) (n : Int) : Space := { s with freePageId := s.freePageId + n }

theorem alloc_of_inInt (h : InInt (s.freePageId + n)) :
    s.Alloc n = if s.CanAlloc n then .ok (s.take n, s.freePageId) else .ok (s, -1) := by
  unfold Alloc
  rw [checked_of_inInt h]
  by_cases hcan : s.CanAlloc n
  · rw [if_pos hcan]
    exact if_neg (Int.not_le.mpr hcan)
  · rw [if_neg hcan]
    exact if_pos (Int.not_lt.mp hcan)

/-- `Alloc` returns the next pages, or -1 and changes nothing. -/
theorem alloc_cases (h : s.Alloc n = .ok (s', P)) :
    InInt (s.freePageId + n) ∧
      (s.CanAlloc n ∧ s' = s.take n ∧ P = s.freePageId ∨ ¬ s.CanAlloc n ∧ s' = s ∧ P = -1) := by
  have hint : InInt (s.freePageId + n) := by
    unfold Alloc at h
    obtain ⟨x, hx, -⟩ := bind_ok.mp h
    exact (checked_ok.mp hx).1
  rw [alloc_of_inInt hint] at h
  refine ⟨hint, ?_⟩
  split at h <;> rename_i hcan
  · obtain ⟨rfl, rfl⟩ := Prod.mk.inj (Except.ok.inj h)
    exact Or.inl ⟨hcan, rfl, rfl⟩
  · obtain ⟨rfl, rfl⟩ := Prod.mk.inj (Except.ok.inj h)
    exact Or.inr ⟨hcan, rfl, rfl⟩

/-- The page table with new entries from the page `P` on; `g i` sets the `i`-th of them. -/
def setPages (s : Space) (P : Nat) (n : Nat) (g : Nat → PageTableEntry → PageTableEntry) : Space :=
  { s with
    pageTable := fun v => if P ≤ v ∧ v < P + n then g (v - P) (s.pageTable v) else s.pageTable v }

/-- A loop over pages of the table sets the entries of all of them. -/
theorem foldlM_set {g : Nat → PageTableEntry → PageTableEntry} {P n : Nat}
    (h : 0 < n → P + n ≤ MaxVirtPages) :
    (List.range n).foldlM (fun s (i : Nat) => set s ((P : Int) + i) (g i)) s =
      .ok (s.setPages P n g) := by
  induction n with
  | zero =>
    have hnone : s.setPages P 0 g = s := by
      unfold setPages
      congr 1
      funext v
      exact if_neg (by omega)
    rw [hnone]
    rfl
  | succ n ih =>
    have hle := h (Nat.succ_pos n)
    rw [List.range_succ, List.foldlM_append, ih fun _ => by omega]
    have hin : (0 : Int) ≤ (P : Int) + n ∧ (P : Int) + n < MaxVirtPages := by omega
    have htoNat : ((P : Int) + n).toNat = P + n := by omega
    show (set (s.setPages P n g) ((P : Int) + n) (g n) >>= pure) = _
    unfold set
    rw [if_pos hin, htoNat]
    -- the last page of the loop is the only one that has not been set before
    refine congrArg Except.ok ?_
    unfold setPages
    congr 1
    funext v
    dsimp only
    rw [Function.update_apply]
    by_cases hv : v = P + n
    · subst hv
      rw [if_pos rfl, if_neg (by omega), if_pos (by omega), Nat.add_sub_cancel_left]
    · rw [if_neg hv]
      exact if_congr (by omega) rfl rfl

/-- A loop that starts outside of the table stops at once. -/
theorem foldlM_set_error {g : Nat → PageTableEntry → PageTableEntry} {k : Nat} (hk : 0 < k)
    (h : ¬ (0 ≤ P ∧ P < MaxVirtPages)) :
    (List.range k).foldlM (fun s (i : Nat) => set s (P + i) (g i)) s = .error .assert := by
  obtain ⟨k, rfl⟩ := Nat.exists_eq_succ_of_ne_zero (Nat.ne_of_gt hk)
  rw [List.range_succ_eq_map, List.foldlM_cons]
  have hset : set s (P + (0 : Nat)) (g 0) = .error .assert := by
    unfold set
    rw [if_neg (by simpa using h)]
  rw [hset]
  rfl

/-- A positive size needs a page. -/
theorem one_le_pages (h : 0 < size) : 1 ≤ divRoundUp size PageSize := by
  have hcover := le_divRoundUp_mul size pageSize_pos_int
  by_contra hno
  have hle : divRoundUp size PageSize * PageSize ≤ 0 :=
    Int.mul_nonpos_of_nonpos_of_nonneg (by omega) (Int.le_of_lt pageSize_pos_int)
  omega

/-- What a mapping adds: `n` pages from the first that was not taken, their entries, and one
    element of the table of mappings. -/
structure NewMapping (s s' : Space) (f : FileId) (n addr : Int) : Prop where
  start : addr = s.freePageId * PageSize
  taken : s'.freePageId = s.freePageId + n
  inside : 0 ≤ s.freePageId ∧ s.freePageId + n < MaxVirtPages
  files : s'.mapped_files = s.mapped_files ++ [⟨addr, n, f⟩]
  entry : ∀ v, s'.pageTable v =
    if s.freePageId ≤ v ∧ v < s.freePageId + n then
      (s.pageTable v).mapped ((v - s.freePageId.toNat) * PageSize)
    else s.pageTable v

/-- The space that `Mmap` leaves. -/
def mapFile (s : Space) (f : FileId) (n : Int) : Space :=
  setPages
    { s.take n with mapped_files := s.mapped_files ++ [⟨s.freePageId * PageSize, n, f⟩] }
    s.freePageId.toNat n.toNat fun i => .mapped (i * PageSize)

theorem added_mapFile (h0 : 0 ≤ s.freePageId) (hn : 0 ≤ n) (hcan : s.CanAlloc n) :
    NewMapping s (s.mapFile f n) f n (s.freePageId * PageSize) where
  start := rfl
  taken := rfl
  inside := ⟨h0, hcan⟩
  files := rfl
  entry v := if_congr (by omega) rfl rfl

/-- The mapping is made when nothing is in its way. -/
theorem mmap_eq (hsize : 0 < size) (h0 : 0 < s.freePageId)
    (hcan : s.CanAlloc (divRoundUp size PageSize))
    (hfull : s.mapped_files.length < MAX_MAPPED_FILES)
    (hint : InInt (s.freePageId * PageSize)) :
    s.Mmap f size =
      .ok (s.mapFile f (divRoundUp size PageSize), s.freePageId * PageSize) := by
  have hone := one_le_pages hsize
  have hne : s.freePageId * PageSize ≠ 0 := by
    have := Int.mul_pos h0 pageSize_pos_int
    omega
  unfold Mmap
  dsimp only
  generalize divRoundUp size PageSize = n at hcan hone ⊢
  have hmax := LayoutConfig.maxVirtPages_int.2
  have hlt : s.freePageId + n < MaxVirtPages := hcan
  have hsum : InInt (s.freePageId + n) := ⟨by omega, by omega⟩
  rw [alloc_of_inInt hsum, if_pos hcan]
  simp only [bind, Except.bind, checked_of_inInt hint, if_neg hne, pure, Except.pure]
  have hloop : mapPages { s.take n with
      mapped_files := s.mapped_files ++ [⟨s.freePageId * PageSize, n, f⟩] } s.freePageId n.toNat =
      .ok (s.mapFile f n) := by
    have hset := foldlM_set (s := { s.take n with
      mapped_files := s.mapped_files ++ [⟨s.freePageId * PageSize, n, f⟩] })
      (g := fun i => .mapped (i * PageSize)) (P := s.freePageId.toNat) (n := n.toNat)
      fun _ => by omega
    rw [Int.toNat_of_nonneg (Int.le_of_lt h0)] at hset
    exact hset
  rw [show (s.take n).mapped_files = s.mapped_files from rfl, hloop]
  exact if_neg (Nat.not_le.mpr hfull)

/-- When `Mmap` returns, nothing was in its way. -/
theorem mmap_ok (hsize : 0 < size) (h : s.Mmap f size = .ok (s', addr)) :
    0 < s.freePageId ∧ s.CanAlloc (divRoundUp size PageSize) ∧
      s.mapped_files.length < MAX_MAPPED_FILES ∧ InInt (s.freePageId * PageSize) := by
  have hone := one_le_pages hsize
  unfold Mmap at h
  dsimp only at h
  generalize divRoundUp size PageSize = n at h hone ⊢
  obtain ⟨⟨s₁, P⟩, halloc, h⟩ := bind_ok.mp h
  obtain ⟨addr', haddr, h⟩ := bind_ok.mp h
  obtain ⟨hint, rfl⟩ := checked_ok.mp haddr
  have hzero : ¬ P * (PageSize : Int) = 0 := by
    intro hzero
    simp only [hzero, if_true] at h
    exact nomatch h
  have hfull : ¬ s₁.mapped_files.length ≥ MAX_MAPPED_FILES := by
    intro hfull
    simp only [hzero, hfull, if_true, if_false] at h
    exact nomatch h
  simp only [hzero, hfull, if_false] at h
  obtain ⟨s₂, hloop, -⟩ := bind_ok.mp h
  -- the first page of the loop is a page of the table
  have hin : 0 ≤ P ∧ P < MaxVirtPages := by
    by_contra hout
    unfold mapPages at hloop
    rw [foldlM_set_error (by omega) hout] at hloop
    exact nomatch hloop
  rcases (alloc_cases halloc).2 with ⟨hcan, rfl, rfl⟩ | ⟨-, -, rfl⟩
  · have hne : s.freePageId ≠ 0 := fun h0 => hzero (by rw [h0, Int.zero_mul])
    exact ⟨by omega, hcan, Nat.lt_of_not_le hfull, hint⟩
  · omega

/-- What a stack adds: `n` pages from the page `P` on, and their entries.  It is the
    first page that was not taken, or the first after the pages that are left blank when
    there are so many. -/
structure NewStack (s s' : Space) (P n : Int) : Prop where
  base : s.CanAlloc STACK_BLANK_LEN ∧ P = s.freePageId + STACK_BLANK_LEN ∨
    ¬ s.CanAlloc STACK_BLANK_LEN ∧ P = s.freePageId
  inside : 0 ≤ P ∧ P + n < MaxVirtPages
  top : InInt ((P + n) * PageSize)
  taken : s'.freePageId = P + n
  files : s'.mapped_files = s.mapped_files
  entry : ∀ v, s'.pageTable v =
    if P ≤ v ∧ v < P + n then stackEntry (s.pageTable v) else s.pageTable v

theorem stack_cases {sp : Int} (h : s.StackAllocate = .ok (s', sp)) :
    ∃ P n, n = divRoundUp UserStackSize PageSize ∧ NewStack s s' P n ∧
      sp = ((P + n) * PageSize - 16).bmod (2 ^ 32) := by
  unfold StackAllocate at h
  dsimp only at h
  generalize hn : divRoundUp UserStackSize PageSize = n at h
  obtain ⟨⟨s₁, B⟩, hblank, h⟩ := bind_ok.mp h
  obtain ⟨-, -, h⟩ := bind_ok.mp h
  obtain ⟨-, -, h⟩ := bind_ok.mp h
  obtain ⟨⟨s₂, P⟩, hstack, h⟩ := bind_ok.mp h
  dsimp only at hblank hstack h
  split at h
  · exact nomatch h
  rename_i hpos
  have hP : 0 ≤ P := Int.not_lt.mp fun hlt => hpos (Int.not_le.mpr hlt)
  obtain ⟨-, -, h⟩ := bind_ok.mp h
  obtain ⟨top, htop, h⟩ := bind_ok.mp h
  obtain ⟨hint, rfl⟩ := checked_ok.mp htop
  obtain ⟨s₃, hloop, h⟩ := bind_ok.mp h
  obtain ⟨rfl, rfl⟩ := Prod.mk.inj (Except.ok.inj h)
  -- the second `Alloc` has succeeded, the first one need not have
  rcases (alloc_cases hstack).2 with ⟨hcan, rfl, rfl⟩ | ⟨-, -, rfl⟩
  · have hlt : s₁.freePageId + n < MaxVirtPages := hcan
    have hset := foldlM_set (s := s₁.take n) (g := fun _ => stackEntry) (P := s₁.freePageId.toNat)
      (n := n.toNat) fun _ => by omega
    rw [Int.toNat_of_nonneg hP] at hset
    obtain rfl := Except.ok.inj (hset.symm.trans hloop)
    have hbase : (s.CanAlloc STACK_BLANK_LEN ∧ s₁.freePageId = s.freePageId + STACK_BLANK_LEN ∨
        ¬ s.CanAlloc STACK_BLANK_LEN ∧ s₁.freePageId = s.freePageId) ∧
        s₁.mapped_files = s.mapped_files ∧ s₁.pageTable = s.pageTable := by
      rcases (alloc_cases hblank).2 with ⟨hcan₁, rfl, -⟩ | ⟨hcan₁, rfl, -⟩
      · exact ⟨Or.inl ⟨hcan₁, rfl⟩, rfl, rfl⟩
      · exact ⟨Or.inr ⟨hcan₁, rfl⟩, rfl, rfl⟩
    obtain ⟨hbase, hfiles, htable⟩ := hbase
    refine ⟨_, _, rfl, ⟨hbase, ⟨hP, hlt⟩, hint, rfl, hfiles, fun v => ?_⟩, rfl⟩
    rw [← htable]
    exact if_congr (by omega) rfl rfl
  · omega

end Space

/-! ## A mapping is made, or nothing happens -/

open Space

/-- What is expected of `Mmap`: when the pages or the table of mappings are used up, a
    negative number and no change; else one more mapping. -/
def Maps (s : Space) (f : FileId) (size : Int) (r : Except Stop (Space × Int)) : Prop :=
  match r with
  | .error _ => False
  | .ok (s', addr) =>
      if s.CanAlloc (divRoundUp size PageSize) ∧ s.mapped_files.length < MAX_MAPPED_FILES then
        NewMapping s s' f (divRoundUp size PageSize) addr
      else addr < 0 ∧ s' = s

theorem Maps.exists_ok {s : Space} {f : FileId} {size : Int} {r : Except Stop (Space × Int)}
    (h : Maps s f size r) : ∃ s' addr, r = .ok (s', addr) := by
  cases r with
  | error e => exact h.elim
  | ok r => exact ⟨r.1, r.2, rfl⟩

/-- `Mmap` does what is expected just when it can: there are pages and room for the mapping,
    the pages are not the first ones, and their address is an `int`. -/
theorem Mmap_maps_iff (s : Space) (f : FileId) {size : Int} (hsize : 0 < size) :
    Maps s f size (s.Mmap f size) ↔
      s.CanAlloc (divRoundUp size PageSize) ∧ s.mapped_files.length < MAX_MAPPED_FILES ∧
        0 < s.freePageId ∧ InInt (s.freePageId * PageSize) := by
  constructor
  · intro h
    obtain ⟨s', addr, hr⟩ := h.exists_ok
    obtain ⟨h0, hcan, hfull, hint⟩ := mmap_ok hsize hr
    exact ⟨hcan, hfull, h0, hint⟩
  · rintro ⟨hcan, hfull, h0, hint⟩
    have hone := one_le_pages hsize
    rw [mmap_eq hsize h0 hcan hfull hint]
    show if _ then _ else _
    rw [if_pos ⟨hcan, hfull⟩]
    exact added_mapFile (Int.le_of_lt h0) (by omega) hcan

end

/-- Four frames, tables of `n` pages, and stacks of one page. -/
@[reducible] def LayoutConfig.pages (n : Nat) (h : InInt n) : LayoutConfig where
  toVmConfig := VmConfig.four
  MaxVirtPages := n
  UserStackSize := 128
  maxVirtPages_int := h

@[reducible] def LayoutConfig.eight : LayoutConfig := .pages 8 (by decide)

/-- A space whose program has `n` pages. -/
def fresh (n : Int) : Space where
  freePageId := n
  mapped_files := []
  pageTable _ := TranslationTable (fun _ => (0, false)) 0

theorem Mmap_maps_fresh :
    let _ := LayoutConfig.eight
    Maps (fresh 3) 0 200 ((fresh 3).Mmap 0 200) ↔
      (fresh 3).CanAlloc (divRoundUp 200 PageSize) ∧
        (fresh 3).mapped_files.length < MAX_MAPPED_FILES ∧
        0 < (fresh 3).freePageId ∧ InInt ((fresh 3).freePageId * PageSize) :=
  let _ := LayoutConfig.eight
  Mmap_maps_iff (fresh 3) 0 (by decide)

/-- Five pages of eight are left, and six are wanted: the setter is called for the page -1. -/
theorem Mmap_fails :
    let _ := LayoutConfig.eight
    ∃ (s : Space) (f : FileId) (size : Int), 0 < size ∧ ¬ Maps s f size (s.Mmap f size) := by
  intro _
  refine ⟨fresh 3, 0, 700, by decide, fun h => ?_⟩
  obtain ⟨s', addr, hr⟩ := h.exists_ok
  have hcan := (Space.mmap_ok (by decide) hr).2.1
  revert hcan
  decide

/-! ## The memory management -/

section

variable [LayoutConfig]

/-- The address space `b`, in a memory of the kernel. -/
def spaceOf (m : Memory) (b : SpaceId) : Space where
  freePageId := (m.spaces b).freePageId
  mapped_files := (m.spaces b).mapped_files.map fun mf => ⟨mf.first_address, mf.size, mf.file⟩
  pageTable := m.entry b

theorem divRoundUp_natCast (size : Nat) : divRoundUp size PageSize =
    ((size / PageSize + if size % PageSize > 0 then 1 else 0 : Nat) : Int) := by
  unfold divRoundUp
  rw [show (size : Int).tdiv PageSize = ((size / PageSize : Nat) : Int) from rfl,
    show (size : Int).tmod PageSize = ((size % PageSize : Nat) : Int) from rfl]
  by_cases hmod : size % PageSize > 0
  · rw [if_pos hmod, if_pos (by exact_mod_cast hmod)]
    rfl
  · rw [if_neg hmod, if_neg (by exact_mod_cast hmod)]
    rfl

/-- What a mapping of the model of the memory management finds, and how far it goes. -/
theorem mmap_room {m m' : Memory} {b : SpaceId} {maxNumPages size addr : Nat} {f : FileId}
    (h : m.Mmap b maxNumPages f size = some (m', addr)) :
    ∃ n : Nat, divRoundUp size PageSize = n ∧ 0 < (m.spaces b).freePageId ∧
      (m.spaces b).freePageId + n < maxNumPages ∧
      (m.spaces b).mapped_files.length < MAX_MAPPED_FILES ∧
      (m'.spaces b).freePageId = (m.spaces b).freePageId + n := by
  refine ⟨_, divRoundUp_natCast size, ?_⟩
  unfold Memory.Mmap AddrSpace.Alloc at h
  dsimp only at h
  generalize (size / PageSize + if size % PageSize > 0 then 1 else 0) = n at h ⊢
  split at h
  · cases h
  rename_i hroom
  rw [Option.bind_some] at h
  dsimp only at h
  split at h
  · cases h
  rename_i hguard
  obtain ⟨hne, hfull⟩ := not_or.mp hguard
  obtain ⟨rfl, -⟩ := Prod.mk.inj (Option.some.inj h)
  refine ⟨Nat.pos_of_ne_zero fun h0 => hne (by rw [h0, Nat.zero_mul]), Nat.lt_of_not_le hroom,
    Nat.lt_of_not_le hfull, ?_⟩
  refine (congrArg Prod.fst (congrFun mapPages_eq.2.1 b)).trans ?_
  dsimp only [Memory.shape]
  rw [Function.update_self]

/-- A mapping that is made in the model of the memory management is made here, when its
    address is an `int`. -/
theorem mmap_of_memory {m m' : Memory} {b : SpaceId} {f : FileId} {size addr : Nat}
    (hsize : 0 < size) (hint : InInt addr)
    (h : m.Mmap b MaxVirtPages f size = some (m', addr)) :
    (spaceOf m b).Mmap f size = .ok (spaceOf m' b, addr) := by
  obtain ⟨n, hpages, h0, hroom, hfull, hfree⟩ := mmap_room h
  obtain ⟨P, n', hm, rfl, -⟩ := mmap_cases h
  have hsum := hm.size b
  rw [if_pos rfl, hfree, hm.first] at hsum
  obtain rfl : n = n' := Nat.add_left_cancel hsum
  have hP : (spaceOf m b).freePageId = (P : Int) := by
    rw [← hm.first]
    rfl
  have haddr : (spaceOf m b).freePageId * PageSize = ((P * PageSize : Nat) : Int) := by
    rw [hP, Int.natCast_mul]
  have hcan : (spaceOf m b).CanAlloc (divRoundUp size PageSize) := by
    unfold Space.CanAlloc
    rw [hpages, hP, ← hm.first]
    exact_mod_cast hroom
  rw [Space.mmap_eq (by omega) (hP ▸ Int.natCast_pos.mpr (hm.first ▸ h0)) hcan
    (by simpa [spaceOf] using hfull)
    (haddr ▸ hint), hpages, haddr]
  -- the same mapping in both models
  refine congrArg (fun s => Except.ok (s, _)) (Space.ext ?_ ?_ ?_)
  · show (spaceOf m b).freePageId + (n : Int) = (m'.spaces b).freePageId
    rw [hfree, hP, hm.first, Int.natCast_add]
  · show (spaceOf m b).mapped_files ++ [_] = _
    rw [haddr]
    unfold spaceOf
    rw [hm.files b, if_pos rfl, List.map_append]
    rfl
  · funext v
    show (if _ then _ else _) = m'.entry b v
    rw [hm.entry, hP]
    exact if_congr (by simp) rfl rfl

end

end Layout
end Vm
end Nachos
