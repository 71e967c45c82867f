/-
  Nachos.Vm.Translate

  The translation of an address as the MMU does it (`MMU::Translate`, and the getters and
  setters of `TranslationTable` that it calls).  An address is a signed integer of 32 bits:
  the page is its quotient by the size of a page, rounded towards zero, and the offset is
  the remainder that goes with it.  What the kernel does on a page fault is a parameter.
-/

import Nachos.Vm.Contents

namespace Nachos
namespace Vm
namespace MMU

variable [VmConfig]

/-- An entry of the page table, as far as the MMU looks at it. -/
structure Entry where
  physicalPage : Int
  valid : Bool
  U : Bool
  M : Bool
  readAllowed : Bool
  writeAllowed : Bool
deriving DecidableEq, Repr

structure TranslationTable where
  maxNumPages : Nat
  pageTable : Nat → Entry

/-- The results of `Translate`, with `PAGEFAULT_EXCEPTION` for the kernel. -/
inductive ExceptionType where
  | NO_EXCEPTION
  | READONLY_EXCEPTION
  | BUSERROR_EXCEPTION
  | ADDRESSERROR_EXCEPTION
deriving DecidableEq, Repr

/-- How the simulator stops: an `ASSERT` fails, or `Translate` calls `exit`. -/
inductive Stop where
  | assert
  | exit
deriving DecidableEq, Repr

namespace TranslationTable

variable (t : TranslationTable)

/-- The getters, which check the number of the page. -/
def entry (virtualPage : Int) : Except Stop Entry :=
  if 0 ≤ virtualPage ∧ virtualPage < t.maxNumPages then .ok (t.pageTable virtualPage.toNat)
  else .error .assert

/-- The setters, which check it too. -/
def modify (virtualPage : Int) (f : Entry → Entry) : Except Stop TranslationTable :=
  if 0 ≤ virtualPage ∧ virtualPage < t.maxNumPages then
    .ok { t with
      pageTable := Function.update t.pageTable virtualPage.toNat
        (f (t.pageTable virtualPage.toNat)) }
  else .error .assert

end TranslationTable

/-- `RaiseException (PAGEFAULT_EXCEPTION, virtAddr)`: the kernel's handler, by the address. -/
abbrev FaultHandler := TranslationTable → Int → Except Stop TranslationTable

/-- If the page is not yet in main memory, run the page fault manager. -/
def loadPage (raise : FaultHandler) (t : TranslationTable) (virtAddr vpn : Int) :
    Except Stop TranslationTable := do
  let e ← t.entry vpn
  if e.valid then pure t
  else do
    let t ← raise t virtAddr
    let e ← t.entry vpn
    if e.valid then pure t else throw .exit

/-- Set the U/M bits. -/
def setBits (t : TranslationTable) (vpn : Int) (writing : Bool) : Except Stop TranslationTable := do
  let t ← if writing then t.modify vpn fun e => { e with M := true } else pure t
  t.modify vpn fun e => { e with U := true }

/-- The end of `Translate`: the check of the physical page, the bits, the address. -/
def finish (t : TranslationTable) (vpn offset : Int) (writing : Bool) :
    Except Stop (TranslationTable × ExceptionType × Int) := do
  let e ← t.entry vpn
  if e.physicalPage < 0 ∨ NumPhysPages ≤ e.physicalPage then pure (t, .BUSERROR_EXCEPTION, 0)
  else do
    let t ← setBits t vpn writing
    let e ← t.entry vpn
    pure (t, .NO_EXCEPTION, e.physicalPage * PageSize + offset)

/-- `MMU::Translate`, with `*physAddr` for an address that is translated. -/
def Translate (raise : FaultHandler) (t : TranslationTable) (virtAddr : BitVec 32) (size : Nat)
    (writing : Bool) : Except Stop (TranslationTable × ExceptionType × Int) :=
  if size = 4 ∧ virtAddr &&& 0x3 ≠ 0 ∨ size = 2 ∧ virtAddr &&& 0x1 ≠ 0 then .error .assert
  else
    let vpn := virtAddr.toInt.tdiv PageSize
    let offset := virtAddr.toInt.tmod PageSize
    if vpn ≥ t.maxNumPages then .ok (t, .ADDRESSERROR_EXCEPTION, 0)
    else do
      let e ← t.entry vpn
      -- is the page correctly mapped, and are the rights there?
      if ¬ e.readAllowed ∧ ¬ e.writeAllowed then pure (t, .ADDRESSERROR_EXCEPTION, 0)
      else if writing ∧ ¬ e.writeAllowed then pure (t, .READONLY_EXCEPTION, 0)
      else do
        let t ← loadPage raise t virtAddr.toInt vpn
        finish t vpn offset writing

/-! ## Isolation -/

/-- What the kernel does on a page fault of a page that is mapped: the page is in a frame
    then, with the rights it had. -/
def Loads (raise : FaultHandler) : Prop :=
  ∀ (t : TranslationTable) (virtAddr : Int) (p : Nat), virtAddr.tdiv PageSize = p →
    p < t.maxNumPages → (t.pageTable p).readAllowed ∨ (t.pageTable p).writeAllowed →
    (t.pageTable p).valid = false →
      ∃ t', raise t virtAddr = .ok t' ∧ t'.maxNumPages = t.maxNumPages ∧
        (t'.pageTable p).valid = true ∧
        0 ≤ (t'.pageTable p).physicalPage ∧ (t'.pageTable p).physicalPage < NumPhysPages ∧
        (t'.pageTable p).readAllowed = (t.pageTable p).readAllowed ∧
        (t'.pageTable p).writeAllowed = (t.pageTable p).writeAllowed

/-- The access is aligned to its size. -/
def Aligned (virtAddr : BitVec 32) (size : Nat) : Prop :=
  (size = 1 ∨ size = 2 ∨ size = 4) ∧ virtAddr.toNat % size = 0

/-- An address of which all bytes are in the frame of the page of the virtual address, at
    the same offset, with the right that the access needs. -/
def InFrame (t : TranslationTable) (virtAddr : BitVec 32) (size : Nat) (writing : Bool)
    (physAddr : Int) : Prop :=
  ∃ p : Nat, virtAddr.toInt / PageSize = p ∧ p < t.maxNumPages ∧
    let e := t.pageTable p
    0 ≤ e.physicalPage ∧ e.physicalPage < NumPhysPages ∧
      physAddr = e.physicalPage * PageSize + virtAddr.toInt % PageSize ∧
      physAddr + size ≤ (e.physicalPage + 1) * PageSize ∧
      (if writing then e.writeAllowed else e.readAllowed) = true

/-- The translation ends with an exception, or in the frame of the page; no `ASSERT`
    fails. -/
def Isolated (virtAddr : BitVec 32) (size : Nat) (writing : Bool) :
    Except Stop (TranslationTable × ExceptionType × Int) → Prop
  | .ok (t, .NO_EXCEPTION, physAddr) => InFrame t virtAddr size writing physAddr
  | .ok _ => True
  | .error _ => False

/-- The table gives an exception for an access to a page: the page is outside the table, it
    is not mapped, it may not be written, or its frame does not exist. -/
def Refused (t : TranslationTable) (p : Nat) (writing : Bool) : Prop :=
  t.maxNumPages ≤ p ∨
    let e := t.pageTable p
    e.readAllowed = false ∧ e.writeAllowed = false ∨
    writing = true ∧ e.writeAllowed = false ∨
    e.valid = true ∧ (e.physicalPage < 0 ∨ NumPhysPages ≤ e.physicalPage)

/-- The address is not so far below zero that its quotient is; and if the table lets the
    access through, the address is not negative and a read has the right to read. -/
def Meets (t : TranslationTable) (virtAddr : BitVec 32) (writing : Bool) : Prop :=
  -PageSize < virtAddr.toInt ∧
    (Refused t (virtAddr.toInt.tdiv PageSize).toNat writing ∨
      0 ≤ virtAddr.toInt ∧
        (writing = true ∨ (t.pageTable (virtAddr.toInt.tdiv PageSize).toNat).readAllowed = true))

section

variable {raise : FaultHandler} {t t' : TranslationTable} {virtAddr : BitVec 32} {size p : Nat}
  {writing : Bool} {offset : Int}

omit [VmConfig] in
theorem entry_of_lt (h : p < t.maxNumPages) : t.entry p = .ok (t.pageTable p) :=
  if_pos ⟨Int.natCast_nonneg p, Int.ofNat_lt.mpr h⟩

omit [VmConfig] in
theorem entry_of_neg {vpn : Int} (h : vpn < 0) : t.entry vpn = .error .assert :=
  if_neg fun hr => absurd hr.1 (Int.not_le.mpr h)

omit [VmConfig] in
theorem modify_of_lt {f : Entry → Entry} (h : p < t.maxNumPages) :
    t.modify p f = .ok { t with pageTable := Function.update t.pageTable p (f (t.pageTable p)) } :=
  if_pos ⟨Int.natCast_nonneg p, Int.ofNat_lt.mpr h⟩

/-! ### The pages of an address -/

/-- An address above minus a page has a quotient that is a page. -/
theorem quotient_of_gt (h : -PageSize < virtAddr.toInt) :
    virtAddr.toInt.tdiv PageSize = (virtAddr.toInt.tdiv PageSize).toNat := by
  have hpos := pageSize_pos_int
  refine (Int.toNat_of_nonneg ?_).symm
  rcases Int.lt_or_le virtAddr.toInt 0 with hneg | hnonneg
  · -- the quotient of a negative number that is smaller than the divisor is zero
    have hzero : (-virtAddr.toInt).tdiv PageSize = 0 := Int.tdiv_eq_zero_of_lt (by omega) (by omega)
    rw [← Int.neg_neg virtAddr.toInt, Int.neg_tdiv, hzero]
    decide
  · exact Int.tdiv_nonneg hnonneg (Int.le_of_lt hpos)

/-- One that is not has none. -/
theorem quotient_of_le (h : virtAddr.toInt ≤ -PageSize) : virtAddr.toInt.tdiv PageSize < 0 := by
  have hpos := pageSize_pos_int
  have hone : 1 ≤ (-virtAddr.toInt).tdiv PageSize := by
    rw [Int.tdiv_eq_ediv_of_nonneg (by omega)]
    exact (Int.le_ediv_iff_mul_le hpos).mpr (by omega)
  rw [← Int.neg_neg virtAddr.toInt, Int.neg_tdiv]
  omega

omit [VmConfig] in
theorem toInt_of_nonneg (h : 0 ≤ virtAddr.toInt) : virtAddr.toInt = virtAddr.toNat := by
  rw [BitVec.toInt_eq_toNat_cond] at h ⊢
  split at h <;> split <;> omega

omit [VmConfig] in
/-- The check of the alignment lets an aligned access through. -/
theorem aligned_passes (h : Aligned virtAddr size) :
    ¬ (size = 4 ∧ virtAddr &&& 0x3 ≠ 0 ∨ size = 2 ∧ virtAddr &&& 0x1 ≠ 0) := by
  have hmask : ∀ k, virtAddr.toNat % 2 ^ k = 0 →
      virtAddr &&& BitVec.ofNat 32 (2 ^ k - 1) = 0 ∨ 32 < k := by
    intro k hk
    by_cases hlt : 32 < k
    · exact Or.inr hlt
    · have hpow := Nat.pow_le_pow_right (by decide : 0 < 2) (Nat.le_of_not_lt hlt)
      have hpos := Nat.two_pow_pos k
      left
      apply BitVec.eq_of_toNat_eq
      rw [BitVec.toNat_and, BitVec.toNat_ofNat, Nat.mod_eq_of_lt (by omega),
        Nat.and_two_pow_sub_one_eq_mod, hk]
      rfl
  rintro (⟨rfl, hne⟩ | ⟨rfl, hne⟩)
  · exact hne ((hmask 2 h.2).resolve_right (by decide))
  · exact hne ((hmask 1 h.2).resolve_right (by decide))

/-! ### The parts of the translation -/

omit [VmConfig] in
theorem loadPage_valid (hlt : p < t.maxNumPages) (h : (t.pageTable p).valid = true) :
    loadPage raise t virtAddr.toInt p = .ok t := by
  unfold loadPage
  rw [entry_of_lt hlt]
  simp [h, bind, Except.bind, pure, Except.pure]

/-- A page that is mapped, and in a frame if it is in any, is there after the load. -/
theorem loadPage_spec (hraise : Loads raise) (hlt : p < t.maxNumPages)
    (hdiv : virtAddr.toInt.tdiv PageSize = p)
    (hmapped : (t.pageTable p).readAllowed ∨ (t.pageTable p).writeAllowed)
    (hframe : (t.pageTable p).valid = true →
      0 ≤ (t.pageTable p).physicalPage ∧ (t.pageTable p).physicalPage < NumPhysPages) :
    ∃ t', loadPage raise t virtAddr.toInt p = .ok t' ∧ t'.maxNumPages = t.maxNumPages ∧
      0 ≤ (t'.pageTable p).physicalPage ∧ (t'.pageTable p).physicalPage < NumPhysPages ∧
      (t'.pageTable p).readAllowed = (t.pageTable p).readAllowed ∧
      (t'.pageTable p).writeAllowed = (t.pageTable p).writeAllowed := by
  cases hvalid : (t.pageTable p).valid with
  | true =>
    obtain ⟨h0, h1⟩ := hframe hvalid
    exact ⟨t, loadPage_valid hlt hvalid, rfl, h0, h1, rfl, rfl⟩
  | false =>
    unfold loadPage
    rw [entry_of_lt hlt]
    obtain ⟨t', hcall, hmax, hvalid', h0, h1, hr, hw⟩ := hraise t _ p hdiv hlt hmapped hvalid
    have hentry : t'.entry p = .ok (t'.pageTable p) := entry_of_lt (hmax ▸ hlt)
    exact ⟨t', by simp [hvalid, hcall, hentry, hvalid', bind, Except.bind, pure, Except.pure],
      hmax, h0, h1, hr, hw⟩

/-- A frame that does not exist is an exception. -/
theorem finish_busError (hlt : p < t.maxNumPages)
    (h : (t.pageTable p).physicalPage < 0 ∨ NumPhysPages ≤ (t.pageTable p).physicalPage) :
    finish t p offset writing = .ok (t, .BUSERROR_EXCEPTION, 0) := by
  unfold finish
  rw [entry_of_lt hlt]
  simp [bind, Except.bind, pure, Except.pure, h]

/-- The entry with the bits that `Translate` sets. -/
def Entry.accessed (writing : Bool) (e : Entry) : Entry :=
  if writing then { e with M := true, U := true } else { e with U := true }

/-- The table with the bits that an access to the page sets. -/
def TranslationTable.accessed (t : TranslationTable) (p : Nat) (writing : Bool) :
    TranslationTable :=
  { t with pageTable := Function.update t.pageTable p ((t.pageTable p).accessed writing) }

omit [VmConfig] in
theorem accessed_entry : (t.accessed p writing).pageTable p = (t.pageTable p).accessed writing :=
  Function.update_self ..

omit [VmConfig] in
/-- The bits leave the frame and the rights. -/
theorem accessed_same (writing : Bool) (e : Entry) :
    (e.accessed writing).physicalPage = e.physicalPage ∧
      (e.accessed writing).readAllowed = e.readAllowed ∧
      (e.accessed writing).writeAllowed = e.writeAllowed := by
  cases writing <;> exact ⟨rfl, rfl, rfl⟩

omit [VmConfig] in
theorem setBits_eq (writing : Bool) (hlt : p < t.maxNumPages) :
    setBits t p writing = .ok (t.accessed p writing) := by
  unfold setBits
  cases writing
  · exact modify_of_lt (f := fun e => { e with U := true }) hlt
  · rw [if_pos rfl, modify_of_lt hlt]
    simp only [bind, Except.bind]
    rw [modify_of_lt (by exact hlt)]
    simp [TranslationTable.accessed, Entry.accessed]

theorem finish_eq (hlt : p < t.maxNumPages) (h0 : 0 ≤ (t.pageTable p).physicalPage)
    (h1 : (t.pageTable p).physicalPage < NumPhysPages) :
    finish t p offset writing = .ok (t.accessed p writing, .NO_EXCEPTION,
      (t.pageTable p).physicalPage * PageSize + offset) := by
  have hno : ¬ ((t.pageTable p).physicalPage < 0 ∨ NumPhysPages ≤ (t.pageTable p).physicalPage) := by
    omega
  have hentry : (t.accessed p writing).entry p = .ok ((t.pageTable p).accessed writing) :=
    (entry_of_lt (t := t.accessed p writing) hlt).trans (congrArg _ accessed_entry)
  unfold finish
  rw [entry_of_lt hlt]
  simp only [bind, Except.bind, hno, if_false, setBits_eq writing hlt, hentry,
    (accessed_same writing _).1]
  rfl

/-! ### The translation -/

theorem Translate_eq (h : Aligned virtAddr size) (hdiv : virtAddr.toInt.tdiv PageSize = p)
    (hlt : p < t.maxNumPages) :
    Translate raise t virtAddr size writing =
      if ¬ (t.pageTable p).readAllowed ∧ ¬ (t.pageTable p).writeAllowed then
        .ok (t, .ADDRESSERROR_EXCEPTION, 0)
      else if writing ∧ ¬ (t.pageTable p).writeAllowed then .ok (t, .READONLY_EXCEPTION, 0)
      else loadPage raise t virtAddr.toInt p >>= fun t =>
        finish t p (virtAddr.toInt.tmod PageSize) writing := by
  have hge : ¬ (p : Int) ≥ t.maxNumPages := by omega
  unfold Translate
  simp only [if_neg (aligned_passes h), hdiv, if_neg hge, entry_of_lt hlt]
  rfl

/-- What the table refuses ends with an exception. -/
theorem Translate_refused (raise : FaultHandler) (h : Aligned virtAddr size)
    (hdiv : virtAddr.toInt.tdiv PageSize = p)
    (href : Refused t p writing) :
    ∃ e, Translate raise t virtAddr size writing = .ok (t, e, 0) ∧ e ≠ .NO_EXCEPTION := by
  by_cases hlt : p < t.maxNumPages
  · rw [Translate_eq h hdiv hlt]
    by_cases hmapped : ¬ (t.pageTable p).readAllowed ∧ ¬ (t.pageTable p).writeAllowed
    · exact ⟨_, if_pos hmapped, by decide⟩
    rw [if_neg hmapped]
    by_cases hwrite : writing ∧ ¬ (t.pageTable p).writeAllowed
    · exact ⟨_, if_pos hwrite, by decide⟩
    rw [if_neg hwrite]
    -- what is left is a page in a frame that does not exist
    obtain ⟨hvalid, hframe⟩ : (t.pageTable p).valid = true ∧
        ((t.pageTable p).physicalPage < 0 ∨ NumPhysPages ≤ (t.pageTable p).physicalPage) := by
      rcases href with hmax | ⟨hr, hw⟩ | ⟨hw, hno⟩ | hframe
      · omega
      · simp [hr, hw] at hmapped
      · simp [hw, hno] at hwrite
      · exact hframe
    have hload : loadPage raise t virtAddr.toInt p = .ok t := loadPage_valid hlt hvalid
    exact ⟨.BUSERROR_EXCEPTION, by rw [hload]; exact finish_busError hlt hframe, by decide⟩
  · refine ⟨.ADDRESSERROR_EXCEPTION, ?_, by decide⟩
    have hge : (p : Int) ≥ t.maxNumPages := by omega
    unfold Translate
    simp only [if_neg (aligned_passes h), hdiv, if_pos hge]

/-- What it does not refuse is translated, by the frame that the page has in the end. -/
theorem Translate_passed (hraise : Loads raise) (h : Aligned virtAddr size)
    (hdiv : virtAddr.toInt.tdiv PageSize = p) (href : ¬ Refused t p writing) :
    ∃ t', Translate raise t virtAddr size writing =
        .ok (t', .NO_EXCEPTION,
          (t'.pageTable p).physicalPage * PageSize + virtAddr.toInt.tmod PageSize) ∧
      p < t'.maxNumPages ∧
      0 ≤ (t'.pageTable p).physicalPage ∧ (t'.pageTable p).physicalPage < NumPhysPages ∧
      (t'.pageTable p).readAllowed = (t.pageTable p).readAllowed ∧
      (t'.pageTable p).writeAllowed = (t.pageTable p).writeAllowed := by
  have hlt : p < t.maxNumPages := Nat.lt_of_not_le fun hle => href (Or.inl hle)
  have hmapped : ¬ (¬ (t.pageTable p).readAllowed ∧ ¬ (t.pageTable p).writeAllowed) := by
    intro hno
    exact href (Or.inr (Or.inl (by simpa using hno)))
  have hwrite : ¬ (writing ∧ ¬ (t.pageTable p).writeAllowed) := by
    intro hno
    exact href (Or.inr (Or.inr (Or.inl (by simpa using hno))))
  have hframe : (t.pageTable p).valid = true →
      0 ≤ (t.pageTable p).physicalPage ∧ (t.pageTable p).physicalPage < NumPhysPages := by
    intro hvalid
    have hno : ¬ ((t.pageTable p).physicalPage < 0 ∨ NumPhysPages ≤ (t.pageTable p).physicalPage) :=
      fun hbad => href (Or.inr (Or.inr (Or.inr ⟨hvalid, hbad⟩)))
    omega
  have hright : (t.pageTable p).readAllowed ∨ (t.pageTable p).writeAllowed := by
    by_contra hno
    exact hmapped (not_or.mp hno)
  obtain ⟨t₁, hload, hmax, h0, h1, hr, hw⟩ := loadPage_spec hraise hlt hdiv hright hframe
  have hlt₁ : p < t₁.maxNumPages := hmax ▸ hlt
  obtain ⟨hpage, hr₂, hw₂⟩ := accessed_same writing (t₁.pageTable p)
  refine ⟨t₁.accessed p writing, ?_, hlt₁, ?_⟩
  · rw [Translate_eq h hdiv hlt, if_neg hmapped, if_neg hwrite, hload, accessed_entry, hpage]
    exact finish_eq hlt₁ h0 h1
  · rw [accessed_entry, hpage, hr₂, hw₂]
    exact ⟨h0, h1, hr, hw⟩

/-- Where an address that is translated comes out. -/
theorem inFrame_iff (h : Aligned virtAddr size) (hdiv : virtAddr.toInt.tdiv PageSize = p)
    (hlt : p < t.maxNumPages) (h0 : 0 ≤ (t.pageTable p).physicalPage)
    (h1 : (t.pageTable p).physicalPage < NumPhysPages)
    (hwrite : writing = true → (t.pageTable p).writeAllowed = true) :
    InFrame t virtAddr size writing
        ((t.pageTable p).physicalPage * PageSize + virtAddr.toInt.tmod PageSize) ↔
      0 ≤ virtAddr.toInt ∧ (writing = true ∨ (t.pageTable p).readAllowed = true) := by
  have hpos := pageSize_pos_int
  constructor
  · rintro ⟨q, hq, -, -, -, -, -, hright⟩
    have hnonneg : 0 ≤ virtAddr.toInt := by
      by_contra hneg
      have := Int.ediv_neg_of_neg_of_pos (Int.not_le.mp hneg) hpos
      omega
    have hqp : q = p := by
      rw [Int.tdiv_eq_ediv_of_nonneg hnonneg] at hdiv
      omega
    subst hqp
    refine ⟨hnonneg, ?_⟩
    cases writing
    · exact Or.inr hright
    · exact Or.inl rfl
  · rintro ⟨hnonneg, hright⟩
    have hnat := toInt_of_nonneg hnonneg
    have hin : virtAddr.toNat % PageSize + size ≤ PageSize := access_in_page h.1 h.2
    rw [Int.tdiv_eq_ediv_of_nonneg hnonneg] at hdiv
    rw [Int.tmod_eq_emod_of_nonneg hnonneg]
    refine ⟨p, hdiv, hlt, h0, h1, rfl, ?_, ?_⟩
    · rw [hnat, Int.add_mul, Int.one_mul, ← Int.natCast_mod]
      omega
    · cases writing
      · exact hright.resolve_left Bool.false_ne_true
      · exact hwrite rfl

/-- A page below the table: the first getter fails. -/
theorem Translate_stops (raise : FaultHandler) (h : Aligned virtAddr size)
    (hle : virtAddr.toInt ≤ -PageSize) :
    Translate raise t virtAddr size writing = .error .assert := by
  have hneg := quotient_of_le hle
  have hge : ¬ virtAddr.toInt.tdiv PageSize ≥ t.maxNumPages := by omega
  unfold Translate
  simp only [if_neg (aligned_passes h), if_neg hge, entry_of_neg hneg]
  rfl

/-- The translation of an aligned access keeps to the frame of its page just when the
    condition is met. -/
theorem Translate_isolated_iff (hraise : Loads raise) (h : Aligned virtAddr size) :
    Isolated virtAddr size writing (Translate raise t virtAddr size writing) ↔
      Meets t virtAddr writing := by
  rcases Int.lt_or_le (-PageSize) virtAddr.toInt with hgt | hle
  · have hdiv := quotient_of_gt hgt
    generalize hp : (virtAddr.toInt.tdiv PageSize).toNat = p at hdiv
    have hmeets : Meets t virtAddr writing ↔ Refused t p writing ∨ 0 ≤ virtAddr.toInt ∧
        (writing = true ∨ (t.pageTable p).readAllowed = true) := by
      unfold Meets
      rw [hp]
      exact and_iff_right hgt
    rw [hmeets]
    by_cases href : Refused t p writing
    · obtain ⟨e, htrans, he⟩ := Translate_refused raise h hdiv href
      rw [htrans]
      simp only [href, true_or, iff_true]
      cases e
      · exact absurd rfl he
      all_goals trivial
    · have hwrite : writing = true → (t.pageTable p).writeAllowed = true := by
        intro hw
        by_contra hno
        exact href (Or.inr (Or.inr (Or.inl ⟨hw, by simpa using hno⟩)))
      obtain ⟨t', htrans, hlt, h0, h1, hr, hw⟩ := Translate_passed hraise h hdiv href
      rw [htrans, or_iff_right href, ← hr]
      exact inFrame_iff h hdiv hlt h0 h1 fun hwriting => hw.trans (hwrite hwriting)
  · rw [Translate_stops raise h hle]
    exact iff_of_false id fun hmeets => absurd hmeets.1 (Int.not_lt.mpr hle)

/-- A kernel that loads every page into the first frame. -/
def loadFirst : FaultHandler := fun t virtAddr =>
  t.modify (virtAddr.tdiv PageSize) fun e =>
    { e with physicalPage := 0, valid := true, U := true, M := false }

theorem loadFirst_loads : Loads loadFirst := by
  intro t virtAddr p hdiv hlt _ _
  have hcall : loadFirst t virtAddr = _ :=
    (congrArg (fun v => t.modify v _) hdiv).trans (modify_of_lt hlt)
  refine ⟨_, hcall, rfl, ?_⟩
  simp [VmConfig.pos]

end

omit [VmConfig] in
/-- One page, which may be read and written and is not in memory yet. -/
def onePage : TranslationTable where
  maxNumPages := 1
  pageTable _ := ⟨0, false, false, false, true, true⟩

omit [VmConfig] in
theorem Translate_isolated_onePage :
    let _ := VmConfig.two
    Isolated 4 4 true (Translate loadFirst onePage 4 4 true) ↔ Meets onePage 4 true :=
  let _ := VmConfig.two
  Translate_isolated_iff loadFirst_loads ⟨Or.inr (Or.inr rfl), rfl⟩

omit [VmConfig] in
/-- The lowest address there is, `0x80000000`, makes an `ASSERT` fail. -/
theorem Translate_isolated_fails :
    let _ := VmConfig.two
    ∃ (raise : FaultHandler) (t : TranslationTable) (virtAddr : BitVec 32) (size : Nat)
      (writing : Bool), Loads raise ∧ Aligned virtAddr size ∧
        ¬ Isolated virtAddr size writing (Translate raise t virtAddr size writing) := by
  intro _
  have haligned : Aligned 0x80000000 4 := ⟨Or.inr (Or.inr rfl), rfl⟩
  refine ⟨loadFirst, onePage, 0x80000000, 4, false, loadFirst_loads, haligned, ?_⟩
  rw [Translate_stops loadFirst haligned (by decide)]
  exact id

/-! ## The memory management -/

/-- The table of an address space, in a memory of the kernel. -/
def table (m : Memory) (b : SpaceId) (maxNumPages : Nat) : TranslationTable where
  maxNumPages := maxNumPages
  pageTable v :=
    let e := m.entry b v
    { physicalPage := e.physicalPage, valid := e.valid, U := e.U, M := e.M,
      readAllowed := e.readAllowed, writeAllowed := e.writeAllowed }

omit [VmConfig] in
theorem table_modifyEntry (m : Memory) (b : SpaceId) (maxNumPages p : Nat) (writing : Bool) :
    table (m.modifyEntry b p (.accessed writing)) b maxNumPages =
      (table m b maxNumPages).accessed p writing := by
  unfold table TranslationTable.accessed
  congr 1
  funext v
  by_cases hv : v = p
  · subst hv
    rw [Memory.entry_modifyEntry_self, Function.update_self]
    cases writing <;> rfl
  · rw [Memory.entry_modifyEntry, Function.update_of_ne hv]
    simp [hv]

/-- An access that goes through in the model of the memory management, to a page of the
    table, is translated to the same address with the same bits set. -/
theorem translate_of_memory {m m' : Memory} {b : SpaceId} {maxNumPages a size : Nat}
    {virtAddr : BitVec 32} {writing : Bool} (raise : FaultHandler)
    (h : Aligned virtAddr size) (hnonneg : 0 ≤ virtAddr.toInt)
    (hlt : virtAddr.toNat / PageSize < maxNumPages)
    (ht : m.Translate b virtAddr.toNat size writing = some (m', a)) :
    Translate raise (table m b maxNumPages) virtAddr size writing =
      .ok (table m' b maxNumPages, .NO_EXCEPTION, a) := by
  have hnat := toInt_of_nonneg hnonneg
  have hdiv : virtAddr.toInt.tdiv PageSize = (virtAddr.toNat / PageSize : Nat) := by
    rw [hnat]
    rfl
  have hmod : virtAddr.toInt.tmod PageSize = (virtAddr.toNat % PageSize : Nat) := by
    rw [hnat]
    rfl
  unfold Memory.Translate at ht
  rw [if_neg (by simp [h.2])] at ht
  split at ht
  · exact nomatch ht
  rename_i hrights
  split at ht
  · exact nomatch ht
  rename_i hframe
  obtain ⟨rfl, rfl⟩ := Prod.mk.inj (Option.some.inj ht)
  obtain ⟨hvalid, hpage⟩ := not_or.mp hframe
  obtain ⟨hmapped, hwrite⟩ := not_or.mp hrights
  have hload :
      loadPage raise (table m b maxNumPages) virtAddr.toInt (virtAddr.toNat / PageSize : Nat) =
      .ok (table m b maxNumPages) := loadPage_valid hlt (by simpa [table] using hvalid)
  rw [Translate_eq h hdiv hlt, if_neg, if_neg, hload, table_modifyEntry, hmod]
  · exact finish_eq hlt (Int.natCast_nonneg _) (Int.ofNat_lt.mpr (Nat.lt_of_not_le hpage))
  · simpa [table] using hwrite
  · simpa [table, not_or] using hmapped

end MMU
end Vm
end Nachos
