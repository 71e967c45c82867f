/-
  Nachos.Vm.Contents

  What user code finds in its memory, when a page fault is not interrupted and no file
  is mapped.  The bytes of a page are in its frame, in its sector of the swap area, or
  where they were at the beginning: in the executable file, or nowhere when they are
  zero.  A load finds what the last store has put there.
-/

import Nachos.Vm.FaultSafety
import Nachos.Vm.Swap

namespace Nachos
namespace Vm

open Transition Ownership Words

variable [VmConfig]

/-! ## The contents of the address spaces -/

/-- The bytes at the addresses of the address spaces, where they are known. -/
abbrev Contents := SpaceId → Nat → Option Byte

/-- A store. -/
def Contents.put (c : Contents) (b : SpaceId) (virtAddr size : Nat) (value : BitVec 32) :
    Contents := fun b' a =>
  if b' = b ∧ virtAddr ≤ a ∧ a < virtAddr + size then some (valueByte value (a - virtAddr))
  else c b' a

/-- The bytes of a page. -/
def Contents.page (c : Contents) (b : SpaceId) (v : Nat) : Nat → Option Byte :=
  fun i => c b (v * PageSize + i)

/-- The byte of a page that has not been used: that of the executable file, if the file
    is long enough, or zero. -/
def Memory.initialByte (m : Memory) (b : SpaceId) (v i : Nat) : Option Byte :=
  let f := m.files (m.spaces b).exec_file
  let ad := (m.entry b v).addrDisk
  if ad = -1 then some 0
  else if 0 ≤ ad ∧ ad.toNat + i < f.length then some (f.bytes (ad.toNat + i))
  else none

def Memory.initialContents (m : Memory) : Contents :=
  fun b a => m.initialByte b (a / PageSize) (a % PageSize)

/-- The contents after a move. -/
def Contents.after (T : Threads) (c : Contents) (x : System × Move) : Contents :=
  match x.2 with
  | .store virtAddr size value => c.put (T.process x.1.current) virtAddr size value
  | _ => c

/-- The contents after a run: the last byte stored at each address, or the initial one. -/
def contents (T : Threads) (m : Memory) (tr : Moves) : Contents :=
  tr.foldl (Contents.after T) m.initialContents

/-- The page has the bytes that are known. -/
def Holds (c : Nat → Option Byte) (p : Page) : Prop :=
  ∀ i < PageSize, ∀ x, c i = some x → p i = x

/-! ## Addresses -/

theorem pageSize_pos : 0 < PageSize := by
  obtain ⟨k, -, -, h⟩ := Config.powerOfTwo
  rw [PageSize, h]
  exact Nat.two_pow_pos k

theorem pageSize_pos_int : (0 : Int) < PageSize := Int.natCast_pos.mpr pageSize_pos

/-- The bytes of two frames, or of two pages, are different ones. -/
theorem page_of_address {p i : Nat} (hi : i < PageSize) :
    (p * PageSize + i) / PageSize = p ∧ (p * PageSize + i) % PageSize = i := by
  rw [Nat.mul_comm]
  constructor
  · rw [Nat.mul_add_div pageSize_pos, Nat.div_eq_of_lt hi, Nat.add_zero]
  · rw [Nat.mul_add_mod, Nat.mod_eq_of_lt hi]

theorem address_in_page {p p' i : Nat} (hi : i < PageSize) :
    p * PageSize ≤ p' * PageSize + i ∧ p' * PageSize + i < p * PageSize + PageSize ↔ p' = p := by
  constructor
  · rintro ⟨h1, h2⟩
    have hd := (page_of_address (p := p') hi).1
    rw [← hd]
    have hlt : p' * PageSize + i < (p + 1) * PageSize := by
      rw [Nat.add_mul, Nat.one_mul]
      exact h2
    have h3 := (Nat.div_lt_iff_lt_mul pageSize_pos).mpr hlt
    have h4 := (Nat.le_div_iff_mul_le pageSize_pos).mpr h1
    omega
  · rintro rfl
    omega

/-- An aligned access stays in its page. -/
theorem access_in_page {virtAddr size : Nat} (hsize : size = 1 ∨ size = 2 ∨ size = 4)
    (ha : virtAddr % size = 0) : virtAddr % PageSize + size ≤ PageSize := by
  obtain ⟨k, hk, -, h⟩ := Config.powerOfTwo
  have hdvd : size ∣ PageSize := by
    rw [PageSize, h]
    have h4 : (4 : Nat) ∣ 2 ^ k := by
      have := Nat.pow_dvd_pow 2 (show 2 ≤ k by omega)
      simpa using this
    rcases hsize with rfl | rfl | rfl
    · exact Nat.one_dvd _
    · exact Nat.dvd_trans (by decide) h4
    · exact h4
  obtain ⟨n, hn⟩ := hdvd
  have hmod : virtAddr % PageSize % size = 0 := by
    rw [Nat.mod_mod_of_dvd _ ⟨n, hn⟩]
    exact ha
  obtain ⟨j, hj⟩ := Nat.dvd_of_mod_eq_zero hmod
  have hlt := Nat.mod_lt virtAddr pageSize_pos
  -- Both ends are multiples of the size.
  have hjn : j < n := by
    rw [hj, hn] at hlt
    exact Nat.lt_of_mul_lt_mul_left hlt
  calc virtAddr % PageSize + size = size * (j + 1) := by rw [hj, Nat.mul_add, Nat.mul_one]
    _ ≤ size * n := Nat.mul_le_mul_left _ hjn
    _ = PageSize := hn.symm

theorem frame_fill {m : Memory} {p p' : Nat} {buffer : Page} {i : Nat} (hi : i < PageSize) :
    (m.fill p buffer).frame p' i = if p' = p then buffer i else m.frame p' i := by
  unfold Memory.frame Memory.fill
  dsimp only
  by_cases hp : p' = p
  · rw [if_pos ((address_in_page hi).mpr hp), if_pos hp, hp, Nat.add_sub_cancel_left]
  · rw [if_neg fun h => hp ((address_in_page hi).mp h), if_neg hp]

/-! ## Where the bytes are -/

/-- The buffer of the page fault holds the page. -/
def Pc.buffered : Pc → Option Fault
  | .readDone q => some q
  | .map q => some q
  | .mapped q _ => some q
  | .search q _ _ => some q
  | .searchYield q _ _ => some q
  | .evictIo q _ => some q
  | .evictYield q _ => some q
  | .writeFile q _ _ _ => some q
  | .wroteFile q _ => some q
  | .writeSwap q _ _ _ _ => some q
  | .wroteSwap q _ _ _ _ => some q
  | _ => none

/-- The page is being evicted. -/
def IsVictim (o : Option Pc) (b : SpaceId) (v : Nat) : Prop :=
  ∃ x, o.bind Pc.victim = some x ∧ x.space = b ∧ x.vpn = v

/-- The sector of the page, if it has one, is out of date. -/
def Dirty (m : Memory) (o : Option Pc) (b : SpaceId) (v : Nat) : Prop :=
  (m.entry b v).M = true ∧ ((m.entry b v).valid = true ∨ IsVictim o b v)

/-- What the running thread of `me` relies on at its place. -/
structure PlaceData (c : Contents) (me : SpaceId) (m : Memory) (p : Pc) : Prop where
  wrote : ∀ q x n ad fresh, p = .wroteSwap q x n ad fresh →
    Holds (c.page x.space x.vpn) (m.swap_disk n)
  buffer : ∀ q, p.buffered = some q → Holds (c.page me q.vpn) q.buffer
  file : ∀ q f ad, p = .readFile q f ad → f = (m.spaces me).exec_file ∧
    ad = (m.entry me q.vpn).addrDisk ∧ ad ≠ -1 ∧ (m.entry me q.vpn).swap = false
  sector : ∀ q n, p = .readSwap q n →
    n = (m.entry me q.vpn).addrDisk ∧ (m.entry me q.vpn).swap = true
  asked : ∀ q, p = .addrIo q ∨ p = .addrYield q → (m.entry me q.vpn).swap = true
  noFile : (∀ q x f ad, p ≠ .writeFile q x f ad) ∧ ∀ q x, p ≠ .wroteFile q x

/-- The bytes are where the entries say, with the running thread of `me` at `o`. -/
structure Sound (c : Contents) (me : SpaceId) (m : Memory) (o : Option Pc) : Prop where
  unmapped : ∀ b, (m.spaces b).mapped_files = []
  frame : ∀ b v, (m.entry b v).valid = true →
    Holds (c.page b v) (m.frame (m.entry b v).physicalPage)
  victim : ∀ x, o.bind Pc.victim = some x → Holds (c.page x.space x.vpn) (m.frame x.frame)
  sector : ∀ b v, (m.entry b v).swap = true → ¬ Dirty m o b v →
    0 ≤ (m.entry b v).addrDisk ∧ Holds (c.page b v) (m.swap_disk (m.entry b v).addrDisk.toNat)
  fresh : ∀ b v, (m.entry b v).swap = false → (m.entry b v).valid = false → ¬ IsVictim o b v →
    ∀ i < PageSize, ∀ x, c.page b v i = some x → m.initialByte b v i = some x
  place : ∀ p ∈ o, PlaceData c me m p

/-- The bytes are as they were, and the entries say the same of them. -/
structure SameData (m m' : Memory) : Prop where
  main : m'.mainMemory = m.mainMemory
  swap_disk : m'.swap_disk = m.swap_disk
  files : m'.files = m.files
  shape : m'.shape = m.shape
  valid : ∀ b v, (m'.entry b v).valid = (m.entry b v).valid
  swap : ∀ b v, (m'.entry b v).swap = (m.entry b v).swap
  addrDisk : ∀ b v, (m'.entry b v).addrDisk = (m.entry b v).addrDisk
  page : ∀ b v, (m'.entry b v).physicalPage = (m.entry b v).physicalPage
  M : ∀ b v, (m'.entry b v).M = (m.entry b v).M

section Sound

variable {c : Contents} {me : SpaceId} {m m' : Memory} {o o' : Option Pc} {p : Pc}

omit [VmConfig] in
theorem SameData.refl (m : Memory) : SameData m m :=
  ⟨rfl, rfl, rfl, rfl, fun _ _ => rfl, fun _ _ => rfl, fun _ _ => rfl, fun _ _ => rfl,
    fun _ _ => rfl⟩

omit [VmConfig] in
theorem SameData.modifyEntry {b : SpaceId} {v : Nat} {f : PageTableEntry → PageTableEntry}
    (hvalid : ∀ e, (f e).valid = e.valid) (hswap : ∀ e, (f e).swap = e.swap)
    (haddr : ∀ e, (f e).addrDisk = e.addrDisk) (hpage : ∀ e, (f e).physicalPage = e.physicalPage)
    (hM : ∀ e, (f e).M = e.M) : SameData m (m.modifyEntry b v f) where
  main := rfl
  swap_disk := rfl
  files := rfl
  shape := modifyEntry_shape
  valid _ _ := Memory.field_modifyEntry PageTableEntry.valid hvalid
  swap _ _ := Memory.field_modifyEntry PageTableEntry.swap hswap
  addrDisk _ _ := Memory.field_modifyEntry PageTableEntry.addrDisk haddr
  page _ _ := Memory.field_modifyEntry PageTableEntry.physicalPage hpage
  M _ _ := Memory.field_modifyEntry PageTableEntry.M hM

omit [VmConfig] in
/-- The frames, the bitmap and the status are not about the bytes. -/
theorem SameData.others (h : SameData m m') {tpr : Nat → Frame} {list : List Nat} {i_clock : Int}
    {flags : Nat → Bool} {status : SpaceId → Status} :
    SameData m ⟨tpr, list, i_clock, m'.mainMemory, flags, m'.swap_disk, m'.spaces, status,
      m'.files⟩ :=
  ⟨h.main, h.swap_disk, h.files, h.shape, h.valid, h.swap, h.addrDisk, h.page, h.M⟩

omit [VmConfig] in
theorem SameData.initialByte [VmConfig] (h : SameData m m') (b : SpaceId) (v i : Nat) :
    m'.initialByte b v i = m.initialByte b v i := by
  unfold Memory.initialByte
  rw [h.files, exec_file_of_shape h.shape, h.addrDisk]

theorem PlaceData.same (h : PlaceData c me m p) (hs : SameData m m') : PlaceData c me m' p where
  wrote q x n ad fresh hp := by
    rw [hs.swap_disk]
    exact h.wrote q x n ad fresh hp
  buffer := h.buffer
  file q f ad hp := by
    rw [exec_file_of_shape hs.shape, hs.addrDisk, hs.swap]
    exact h.file q f ad hp
  sector q n hp := by
    rw [hs.addrDisk, hs.swap]
    exact h.sector q n hp
  asked q hp := by
    rw [hs.swap]
    exact h.asked q hp
  noFile := h.noFile

/-- A step that is not about the bytes. -/
theorem Sound.keep (h : Sound c me m o) (hs : SameData m m')
    (hv : o'.bind Pc.victim = o.bind Pc.victim) (hplace : ∀ p ∈ o', PlaceData c me m p) :
    Sound c me m' o' where
  unmapped b := by
    rw [mapped_files_of_shape hs.shape]
    exact h.unmapped b
  frame b v hvalid := by
    rw [hs.valid] at hvalid
    unfold Memory.frame
    rw [hs.main, hs.page]
    exact h.frame b v hvalid
  victim x hx := by
    unfold Memory.frame
    rw [hs.main]
    exact h.victim x (hv.symm.trans hx)
  sector b v hsw hd := by
    rw [hs.swap] at hsw
    rw [hs.addrDisk, hs.swap_disk]
    apply h.sector b v hsw
    rintro ⟨hM, hor⟩
    apply hd
    refine ⟨(hs.M b v).trans hM, ?_⟩
    unfold IsVictim at hor ⊢
    rwa [hs.valid, hv]
  fresh b v hsw hvalid hnot i hi x hx := by
    rw [hs.swap] at hsw
    rw [hs.valid] at hvalid
    rw [hs.initialByte]
    apply h.fresh b v hsw hvalid _ i hi x hx
    unfold IsVictim at hnot ⊢
    rwa [← hv]
  place p hp := (hplace p hp).same hs

/-- At most places nothing is said but of the buffer. -/
def Pc.still : Pc → Bool
  | .readFile _ _ _ => false
  | .readSwap _ _ => false
  | .addrIo _ => false
  | .addrYield _ => false
  | .writeFile _ _ _ _ => false
  | .wroteFile _ _ => false
  | .wroteSwap _ _ _ _ _ => false
  | _ => true

theorem PlaceData.ofStill (hp : p.still)
    (hb : ∀ q, p.buffered = some q → Holds (c.page me q.vpn) q.buffer) : PlaceData c me m p where
  wrote q x n ad fresh h := by
    subst h
    cases hp
  buffer := hb
  file q f ad h := by
    subst h
    cases hp
  sector q n h := by
    subst h
    cases hp
  asked q h := by
    rcases h with rfl | rfl
    · cases hp
    · cases hp
  noFile := by
    constructor
    · rintro q x f ad rfl
      cases hp
    · rintro q x rfl
      cases hp

/-- To a place where the same is known. -/
theorem Sound.go (h : Sound c me m (some p)) {p' : Pc} (hs : SameData m m')
    (hv : p'.victim = p.victim) (hp' : p'.still)
    (hb : ∀ q, p'.buffered = some q → Holds (c.page me q.vpn) q.buffer) :
    Sound c me m' (some p') := by
  refine h.keep hs (show (some p').bind Pc.victim = _ from hv) fun p'' hp'' => ?_
  obtain rfl := Option.some.inj hp''
  exact PlaceData.ofStill hp' hb

omit [VmConfig] in
/-- Without mapped files there is none to find. -/
theorem findMappedFile_none [VmConfig] {s : AddrSpace} (h : s.mapped_files = []) (addr : Nat) :
    s.findMappedFile addr = none := by
  unfold AddrSpace.findMappedFile
  rw [h]
  rfl

/-! ## The page fault -/

section PageFault

variable {q : Fault}

/-- `setBitIo` of `PageFault`, and where the page comes from. -/
theorem Sound.load (h : Sound c me m (some (.faultIo q)))
    (hvalid : (m.entry me q.vpn).valid = false) :
    Sound c me (m.modifyEntry me q.vpn .setBitIo)
      (some (Vm.load me (m.modifyEntry me q.vpn .setBitIo) q)) := by
  have hs : SameData m (m.modifyEntry me q.vpn .setBitIo) :=
    SameData.modifyEntry (f := .setBitIo) (fun _ => rfl) (fun _ => rfl) (fun _ => rfl)
      (fun _ => rfl) fun _ => rfl
  have hspace := (Memory.modifyEntry_space (m := m) (b := me) (v := q.vpn) .setBitIo me)
  have hnone : ((m.modifyEntry me q.vpn .setBitIo).spaces me).findMappedFile (q.vpn * PageSize) =
      none :=
    findMappedFile_none (hspace.2.1.trans (h.unmapped me)) _
  have hnot : ¬ IsVictim (some (.faultIo q)) me q.vpn := by
    rintro ⟨x, hx, -⟩
    cases hx
  unfold Vm.load
  dsimp only
  rw [hnone, hs.swap, hs.addrDisk, hspace.2.2]
  dsimp only
  split
  · rename_i hsw
    refine h.keep hs rfl fun p hp => ?_
    obtain rfl := Option.some.inj hp
    exact {
      wrote := by simp
      buffer := by simp [Pc.buffered]
      file := by simp
      sector := by simp
      asked := by
        rintro q' (hq | hq)
        · obtain rfl := Pc.addrIo.inj hq
          exact hsw
        · cases hq
      noFile := by simp }
  · rename_i hsw
    rw [Bool.not_eq_true] at hsw
    split
    · rename_i had
      refine h.go hs rfl rfl fun q' hq' i hi x hx => ?_
      obtain rfl := Option.some.inj hq'
      -- An anonymous page that has not been used is zero.
      have hinit := h.fresh me q.vpn hsw hvalid hnot i hi x hx
      unfold Memory.initialByte at hinit
      dsimp only at hinit
      rw [if_pos had] at hinit
      exact Option.some.inj hinit
    · rename_i had
      refine h.keep hs rfl fun p hp => ?_
      obtain rfl := Option.some.inj hp
      exact {
        wrote := by simp
        buffer := by simp [Pc.buffered]
        file := by
          intro q' f ad hq
          obtain ⟨rfl, rfl, rfl⟩ := Pc.readFile.inj hq
          exact ⟨rfl, rfl, had, hsw⟩
        sector := by simp
        asked := by simp
        noFile := by simp }

/-- The page is read from the executable file. -/
theorem Sound.readFile {f : FileId} {ad : Int} (h : Sound c me m (some (.readFile q f ad)))
    (hvalid : (m.entry me q.vpn).valid = false) :
    Sound c me m
      (some (.readDone { q with buffer := (m.files f).readAt q.buffer ad.toNat })) := by
  obtain ⟨rfl, hadr, had, hsw⟩ := (h.place _ rfl).file q f ad rfl
  refine h.go (SameData.refl m) rfl rfl fun q' hq' i hi x hx => ?_
  obtain rfl := Option.some.inj hq'
  have hnot : ¬ IsVictim (some (.readFile q (m.spaces me).exec_file ad)) me q.vpn := by
    rintro ⟨x, hx, -⟩
    cases hx
  have hinit := h.fresh me q.vpn hsw hvalid hnot i hi x hx
  unfold Memory.initialByte at hinit
  dsimp only at hinit
  rw [← hadr, if_neg had] at hinit
  split at hinit
  · rename_i hlt
    show (if i < PageSize ∧ ad.toNat + i < _ then _ else _) = x
    rw [if_pos ⟨hi, hlt.2⟩]
    exact Option.some.inj hinit
  · cases hinit

/-- The page is read from the swap area. -/
theorem Sound.readSwap {n : Int} (h : Sound c me m (some (.readSwap q n)))
    (hvalid : (m.entry me q.vpn).valid = false) :
    Sound c me m (some (.readDone { q with buffer := m.swap_disk n.toNat })) := by
  obtain ⟨hn, hsw⟩ := (h.place _ rfl).sector q n rfl
  refine h.go (SameData.refl m) rfl rfl fun q' hq' => ?_
  obtain rfl := Option.some.inj hq'
  dsimp only
  rw [hn]
  refine (h.sector me q.vpn hsw ?_).2
  rintro ⟨-, hv | ⟨x, hx, -⟩⟩
  · rw [hvalid] at hv
    cases hv
  · cases hx

/-- The end of `PageFault`. -/
theorem Sound.finish {f : Nat} (h : Sound c me m (some (.mapped q f)))
    (hvalid : (m.entry me q.vpn).valid = false)
    (hother : ∀ b v, (m.entry b v).valid = true → (m.entry b v).physicalPage ≠ f) :
    Sound c me (((m.fill f q.buffer).modifyEntry me q.vpn (.loaded f)).modifyFrame f
      fun fr => { fr with locked := false }) none := by
  have hbuffer := (h.place _ rfl).buffer q rfl
  have hentry : ∀ b v, (((m.fill f q.buffer).modifyEntry me q.vpn (.loaded f)).modifyFrame f
      fun fr => { fr with locked := false }).entry b v =
      if b = me ∧ v = q.vpn then (m.entry me q.vpn).loaded f else m.entry b v := fun b v =>
    Memory.entry_modifyEntry (m := m.fill f q.buffer) (.loaded f)
  have hshape : (((m.fill f q.buffer).modifyEntry me q.vpn (.loaded f)).modifyFrame f
      fun fr => { fr with locked := false }).shape = m.shape :=
    modifyEntry_shape (m := m.fill f q.buffer)
  have hfill : ∀ p i, i < PageSize → (((m.fill f q.buffer).modifyEntry me q.vpn
      (.loaded f)).modifyFrame f fun fr => { fr with locked := false }).frame p i =
      if p = f then q.buffer i else m.frame p i := fun p i hi => frame_fill hi
  exact {
    unmapped := by
      intro b
      exact (mapped_files_of_shape hshape b).trans (h.unmapped b)
    frame := by
      intro b v hv i hi x hx
      have he := hentry b v
      rw [hfill _ i hi]
      by_cases hbv : b = me ∧ v = q.vpn
      · rw [if_pos hbv] at he
        rw [he, if_pos (show ((m.entry me q.vpn).loaded f).physicalPage = f from rfl)]
        rw [hbv.1, hbv.2] at hx
        exact hbuffer i hi x hx
      · rw [if_neg hbv] at he
        rw [he] at hv ⊢
        rw [if_neg (hother b v hv)]
        exact h.frame b v hv i hi x hx
    victim := by
      intro x hx
      cases hx
    sector := by
      intro b v hsw hd
      rw [hentry] at hsw ⊢
      by_cases hbv : b = me ∧ v = q.vpn
      · obtain ⟨rfl, rfl⟩ := hbv
        rw [if_pos ⟨rfl, rfl⟩] at hsw ⊢
        -- The sector is the one that the page has been read from.
        apply h.sector b q.vpn hsw
        rintro ⟨-, hv | ⟨x, hx, -⟩⟩
        · rw [hvalid] at hv
          cases hv
        · cases hx
      · rw [if_neg hbv] at hsw ⊢
        apply h.sector b v hsw
        rintro ⟨hM, hv | ⟨x, hx, -⟩⟩
        · apply hd
          unfold Dirty
          rw [hentry, if_neg hbv]
          exact ⟨hM, Or.inl hv⟩
        · cases hx
    fresh := by
      intro b v hsw hv hnot i hi x hx
      rw [hentry] at hsw hv
      have hbv : ¬ (b = me ∧ v = q.vpn) := by
        intro hbv
        rw [if_pos hbv] at hv
        cases hv
      rw [if_neg hbv] at hsw hv
      have hnot' : ¬ IsVictim (some (.mapped q f)) b v := by
        rintro ⟨y, hy, -⟩
        cases hy
      have hinit := h.fresh b v hsw hv hnot' i hi x hx
      have hexec : (((((m.fill f q.buffer).modifyEntry me q.vpn (.loaded f)).modifyFrame f
          fun fr => { fr with locked := false }).spaces b).exec_file) =
          (m.spaces b).exec_file := exec_file_of_shape hshape b
      unfold Memory.initialByte at hinit ⊢
      rw [hentry, if_neg hbv, hexec]
      exact hinit
    place := by
      intro p hp
      cases hp }

end PageFault

/-! ## The eviction -/

section EvictPage

variable {q : Fault} {x : Victim}

/-- The clock takes a frame from its page. -/
theorem Sound.found {loc i : Nat} {b : SpaceId} {v : Nat} {z : Int}
    (h : Sound c me m (some (.search q loc i))) (hvalid : (m.entry b v).valid = true)
    (hpage : (m.entry b v).physicalPage = loc) :
    Sound c me ({ m.modifyEntry b v .clearBitValid with i_clock := z }.modifyFrame loc
      fun fr => { fr with locked := true }) (some (.evictIo q ⟨loc, b, v⟩)) := by
  have hentry : ∀ b' v', (({ m.modifyEntry b v .clearBitValid with i_clock := z }.modifyFrame loc
      fun fr => { fr with locked := true }).entry b' v') =
      if b' = b ∧ v' = v then (m.entry b v).clearBitValid else m.entry b' v' := fun b' v' =>
    Memory.entry_modifyEntry (m := m) .clearBitValid
  have hshape : ({ m.modifyEntry b v .clearBitValid with i_clock := z }.modifyFrame loc
      fun fr => { fr with locked := true }).shape = m.shape := modifyEntry_shape (m := m)
  -- The fields but the `valid` bit.
  have hfield : ∀ {α : Type} (g : PageTableEntry → α), (∀ e, g e.clearBitValid = g e) →
      ∀ b' v', g (({ m.modifyEntry b v .clearBitValid with i_clock := z }.modifyFrame loc
        fun fr => { fr with locked := true }).entry b' v') = g (m.entry b' v') :=
    fun g hg b' v' => Memory.field_modifyEntry (m := m) g hg
  have hnot : ∀ b' v', ¬ IsVictim (some (.search q loc i)) b' v' := by
    rintro b' v' ⟨y, hy, -⟩
    cases hy
  exact {
    unmapped := by
      intro b'
      exact (mapped_files_of_shape hshape b').trans (h.unmapped b')
    frame := by
      intro b' v' hv
      have hold : (m.entry b' v').valid = true := by
        rw [hentry] at hv
        split at hv
        · cases hv
        · exact hv
      rw [hfield PageTableEntry.physicalPage fun _ => rfl]
      exact h.frame b' v' hold
    victim := by
      intro y hy
      obtain rfl := Option.some.inj hy
      have := h.frame b v hvalid
      rwa [hpage] at this
    sector := by
      intro b' v' hsw hd
      rw [hfield PageTableEntry.swap fun _ => rfl] at hsw
      rw [hfield PageTableEntry.addrDisk fun _ => rfl]
      apply h.sector b' v' hsw
      rintro ⟨hM, hv⟩
      have hv := hv.resolve_right (hnot b' v')
      apply hd
      refine ⟨(hfield PageTableEntry.M (fun _ => rfl) b' v').trans hM, ?_⟩
      by_cases hbv : b' = b ∧ v' = v
      · exact Or.inr ⟨_, rfl, hbv.1.symm, hbv.2.symm⟩
      · left
        rwa [hentry, if_neg hbv]
    fresh := by
      intro b' v' hsw hv hnv i hi y hy
      rw [hfield PageTableEntry.swap fun _ => rfl] at hsw
      have hbv : ¬ (b' = b ∧ v' = v) := fun hbv => hnv ⟨_, rfl, hbv.1.symm, hbv.2.symm⟩
      rw [hentry, if_neg hbv] at hv
      have hinit := h.fresh b' v' hsw hv (hnot b' v') i hi y hy
      have hexec := congrArg (fun x => x.2.2) (congrFun hshape b')
      unfold Memory.initialByte at hinit ⊢
      rw [hfield PageTableEntry.addrDisk fun _ => rfl]
      dsimp only [Memory.shape] at hexec
      rw [hexec]
      exact hinit
    place := by
      intro p hp
      obtain rfl := Option.some.inj hp
      exact PlaceData.ofStill rfl (h.place _ rfl).buffer }

/-- Only the place on the disk of one page has changed, and it is not valid. -/
structure SameBut (m : Memory) (x : Victim) (m' : Memory) : Prop where
  main : m'.mainMemory = m.mainMemory
  swap_disk : m'.swap_disk = m.swap_disk
  files : m'.files = m.files
  shape : m'.shape = m.shape
  valid : ∀ b v, (m'.entry b v).valid = (m.entry b v).valid
  page : ∀ b v, (m'.entry b v).physicalPage = (m.entry b v).physicalPage
  M : ∀ b v, (m'.entry b v).M = (m.entry b v).M
  entry : ∀ b v, ¬ (x.space = b ∧ x.vpn = v) → (m'.entry b v).swap = (m.entry b v).swap ∧
    (m'.entry b v).addrDisk = (m.entry b v).addrDisk

omit [VmConfig] in
theorem SameBut.modifyEntry {f : PageTableEntry → PageTableEntry}
    (hvalid : ∀ e, (f e).valid = e.valid) (hpage : ∀ e, (f e).physicalPage = e.physicalPage)
    (hM : ∀ e, (f e).M = e.M) : SameBut m x (m.modifyEntry x.space x.vpn f) where
  main := rfl
  swap_disk := rfl
  files := rfl
  shape := modifyEntry_shape
  valid _ _ := Memory.field_modifyEntry PageTableEntry.valid hvalid
  page _ _ := Memory.field_modifyEntry PageTableEntry.physicalPage hpage
  M _ _ := Memory.field_modifyEntry PageTableEntry.M hM
  entry b v hne := by
    rw [Memory.entry_modifyEntry, if_neg fun h => hne ⟨h.1.symm, h.2.symm⟩]
    exact ⟨rfl, rfl⟩

omit [VmConfig] in
theorem SameBut.trans {m'' : Memory} (h : SameBut m x m') (h' : SameBut m' x m'') :
    SameBut m x m'' where
  main := h'.main.trans h.main
  swap_disk := h'.swap_disk.trans h.swap_disk
  files := h'.files.trans h.files
  shape := h'.shape.trans h.shape
  valid b v := (h'.valid b v).trans (h.valid b v)
  page b v := (h'.page b v).trans (h.page b v)
  M b v := (h'.M b v).trans (h.M b v)
  entry b v hne := ⟨(h'.entry b v hne).1.trans (h.entry b v hne).1,
    (h'.entry b v hne).2.trans (h.entry b v hne).2⟩

omit [VmConfig] in
theorem SameBut.initialByte (h : SameBut m x m') {b : SpaceId} {v : Nat}
    (hne : ¬ (x.space = b ∧ x.vpn = v)) (i : Nat) :
    m'.initialByte b v i = m.initialByte b v i := by
  unfold Memory.initialByte
  rw [h.files, exec_file_of_shape h.shape, (h.entry b v hne).2]

/-- The pages that are in frames have their bytes there. -/
theorem SameBut.frame (h : SameBut m x m') (hsound : Sound c me m o) (b : SpaceId) (v : Nat)
    (hv : (m'.entry b v).valid = true) :
    Holds (c.page b v) (m'.frame (m'.entry b v).physicalPage) := by
  rw [h.valid] at hv
  unfold Memory.frame
  rw [h.main, h.page]
  exact hsound.frame b v hv

omit [VmConfig] in
theorem isVictim_iff (ho : o.bind Pc.victim = some x) {b : SpaceId} {v : Nat} :
    IsVictim o b v ↔ x.space = b ∧ x.vpn = v := by
  constructor
  · rintro ⟨y, hy, hb, hv⟩
    obtain rfl := Option.some.inj (ho.symm.trans hy)
    exact ⟨hb, hv⟩
  · rintro ⟨hb, hv⟩
    exact ⟨x, ho, hb, hv⟩

/-- While the victim is evicted its entry may change, if its sector is out of date. -/
theorem Sound.hide (h : Sound c me m o) (hs : SameBut m x m') (ho : o.bind Pc.victim = some x)
    (ho' : o'.bind Pc.victim = some x)
    (hM : (m'.entry x.space x.vpn).swap = true → (m.entry x.space x.vpn).M = true)
    (hplace : ∀ p ∈ o', PlaceData c me m' p) : Sound c me m' o' where
  unmapped b := (mapped_files_of_shape hs.shape b).trans (h.unmapped b)
  frame := hs.frame h
  victim y hy := by
    unfold Memory.frame
    rw [hs.main]
    exact h.victim y (ho.trans (ho'.symm.trans hy))
  sector b v hsw hd := by
    have hne : ¬ (x.space = b ∧ x.vpn = v) := by
      rintro ⟨rfl, rfl⟩
      exact hd ⟨(hs.M _ _).trans (hM hsw), Or.inr ((isVictim_iff ho').mpr ⟨rfl, rfl⟩)⟩
    rw [(hs.entry b v hne).1] at hsw
    rw [(hs.entry b v hne).2, hs.swap_disk]
    apply h.sector b v hsw
    rintro ⟨hMv, hv⟩
    have hv := hv.resolve_right fun hv => hne ((isVictim_iff ho).mp hv)
    exact hd ⟨(hs.M b v).trans hMv, Or.inl ((hs.valid b v).trans hv)⟩
  fresh b v hsw hv hnot i hi y hy := by
    have hne : ¬ (x.space = b ∧ x.vpn = v) := fun hne => hnot ((isVictim_iff ho').mpr hne)
    rw [(hs.entry b v hne).1] at hsw
    rw [hs.valid] at hv
    rw [hs.initialByte hne]
    exact h.fresh b v hsw hv (fun hnv => hne ((isVictim_iff ho).mp hnv)) i hi y hy
  place := hplace

/-- The victim is evicted: it is in its sector. -/
theorem Sound.evicted (h : Sound c me m o) (hs : SameBut m x m') (ho : o.bind Pc.victim = some x)
    (ho' : o'.bind Pc.victim = none) (hsw : (m'.entry x.space x.vpn).swap = true)
    (hpos : 0 ≤ (m'.entry x.space x.vpn).addrDisk)
    (hsector : Holds (c.page x.space x.vpn)
      (m.swap_disk (m'.entry x.space x.vpn).addrDisk.toNat))
    (hplace : ∀ p ∈ o', PlaceData c me m' p) : Sound c me m' o' where
  unmapped b := (mapped_files_of_shape hs.shape b).trans (h.unmapped b)
  frame := hs.frame h
  victim y hy := by
    rw [ho'] at hy
    cases hy
  sector b v hsw' hd := by
    by_cases hne : x.space = b ∧ x.vpn = v
    · obtain ⟨rfl, rfl⟩ := hne
      rw [hs.swap_disk]
      exact ⟨hpos, hsector⟩
    · rw [(hs.entry b v hne).1] at hsw'
      rw [(hs.entry b v hne).2, hs.swap_disk]
      apply h.sector b v hsw'
      rintro ⟨hMv, hv⟩
      have hv := hv.resolve_right fun hv => hne ((isVictim_iff ho).mp hv)
      exact hd ⟨(hs.M b v).trans hMv, Or.inl ((hs.valid b v).trans hv)⟩
  fresh b v hsw' hv _ i hi y hy := by
    have hne : ¬ (x.space = b ∧ x.vpn = v) := by
      rintro ⟨rfl, rfl⟩
      rw [hsw] at hsw'
      cases hsw'
    rw [(hs.entry b v hne).1] at hsw'
    rw [hs.valid] at hv
    rw [hs.initialByte hne]
    exact h.fresh b v hsw' hv (fun hnv => hne ((isVictim_iff ho).mp hnv)) i hi y hy
  place := hplace

/-- The request for the swap disk moves the bytes of the frame to the sector. -/
theorem Sound.written {n : Nat} {ad : Int} {fresh : Bool}
    (h : Sound c me m (some (.writeSwap q x n ad fresh)))
    (hhidden : (m.entry x.space x.vpn).addrDisk = -1)
    (hother : ∀ b v, ¬ (x.space = b ∧ x.vpn = v) → (m.entry b v).swap = true →
      (m.entry b v).addrDisk ≠ n) :
    Sound c me { m with swap_disk := Function.update m.swap_disk n (m.frame x.frame) }
      (some (.wroteSwap q x n ad fresh)) where
  unmapped := h.unmapped
  frame := h.frame
  victim := h.victim
  sector b v hsw hd := by
    obtain ⟨hpos, hsec⟩ := h.sector b v hsw hd
    refine ⟨hpos, ?_⟩
    have hne : ¬ (x.space = b ∧ x.vpn = v) := by
      rintro ⟨rfl, rfl⟩
      rw [hhidden] at hpos
      omega
    have hn : (m.entry b v).addrDisk.toNat ≠ n := by
      have := hother b v hne hsw
      omega
    show Holds _ (Function.update m.swap_disk n (m.frame x.frame) (m.entry b v).addrDisk.toNat)
    rw [Function.update_of_ne hn]
    exact hsec
  fresh := h.fresh
  place p hp := by
    obtain rfl := Option.some.inj hp
    exact {
      wrote := by
        intro q' x' n' ad' fresh' hw
        obtain ⟨rfl, rfl, rfl, rfl, rfl⟩ := Pc.wroteSwap.inj hw
        show Holds _ (Function.update m.swap_disk n _ n)
        rw [Function.update_self]
        exact h.victim x rfl
      buffer := (h.place _ rfl).buffer
      file := by simp
      sector := by simp
      asked := by simp
      noFile := by simp }

omit [VmConfig] in
theorem sameBut_takeOver : SameBut m x (m.takeOver me q x) := by
  have hs := SameBut.modifyEntry (m := m) (x := x) (f := .clearBitIo) (fun _ => rfl)
    (fun _ => rfl) fun _ => rfl
  exact ⟨hs.main, hs.swap_disk, hs.files, hs.shape, hs.valid, hs.page, hs.M, hs.entry⟩

omit [VmConfig] in
theorem sameBut_hidden : SameBut m x (hidden m x) :=
  (SameBut.modifyEntry (f := .setBitIo) (fun _ => rfl) (fun _ => rfl) fun _ => rfl).trans
    (SameBut.modifyEntry (f := .setAddrDisk (-1)) (fun _ => rfl) (fun _ => rfl) fun _ => rfl)

/-- `EvictPage` from `setBitIo` on, when there is room in the swap area. -/
theorem Sound.evict (h : Sound c me m (some (.evictIo q x)))
    (hpos : (m.entry x.space x.vpn).swap = true → 0 ≤ (m.entry x.space x.vpn).addrDisk)
    (hroom : (m.entry x.space x.vpn).swap = false → m.GetFreePage ≠ none) :
    Sound c me (Vm.evict me (m.modifyEntry x.space x.vpn .setBitIo) q x).1
      (some (Vm.evict me (m.modifyEntry x.space x.vpn .setBitIo) q x).2) := by
  have hbuffer := (h.place _ rfl).buffer
  have hset : SameBut m x (m.modifyEntry x.space x.vpn .setBitIo) :=
    SameBut.modifyEntry (f := .setBitIo) (fun _ => rfl) (fun _ => rfl) fun _ => rfl
  have hswap := (sameSwap_setBitIo m x.space x.vpn).swap
  have haddr := (sameSwap_setBitIo m x.space x.vpn).addrDisk
  -- No file is mapped, so that the page is for the swap area.
  have hnone : ((m.modifyEntry x.space x.vpn .setBitIo).spaces me).findMappedFile
      (x.vpn * PageSize) = none :=
    findMappedFile_none ((mapped_files_of_shape hset.shape me).trans (h.unmapped me)) _
  unfold Vm.evict
  dsimp only
  rw [hnone]
  dsimp only
  split
  · rename_i hsw
    rw [hswap] at hsw
    split
    · -- The page was modified: it is written to the sector it has.
      rename_i hM
      rw [hset.M] at hM
      rw [haddr, swapOut_sector (hpos hsw)]
      refine h.hide sameBut_hidden rfl rfl (fun _ => hM) fun p hp => ?_
      obtain rfl := Option.some.inj hp
      exact PlaceData.ofStill rfl hbuffer
    · rename_i hM
      rw [hset.M] at hM
      -- The page has not been modified: it is left where it is.
      have hover : SameBut m x ((m.modifyEntry x.space x.vpn .setBitIo).takeOver me q x) :=
        hset.trans sameBut_takeOver
      have hsw' := ((sameSwap_takeOver _ me q x).swap x.space x.vpn).trans (hswap x.space x.vpn)
      have haddr' :=
        ((sameSwap_takeOver _ me q x).addrDisk x.space x.vpn).trans (haddr x.space x.vpn)
      refine h.evicted hover rfl rfl (hsw'.trans hsw) ?_ ?_ fun p hp => ?_
      · rw [haddr']
        exact hpos hsw
      · -- The sector still has the bytes of the page.
        rw [haddr']
        exact (h.sector x.space x.vpn hsw fun hd => hM hd.1).2
      · obtain rfl := Option.some.inj hp
        exact PlaceData.ofStill rfl hbuffer
  · rename_i hsw
    rw [hswap, Bool.not_eq_true] at hsw
    -- The page gets a sector of its own, of which there is one.
    cases hfree : (m.modifyEntry x.space x.vpn .setBitIo).GetFreePage with
    | none => exact absurd hfree (hroom hsw)
    | some n =>
        rw [swapOut_free hfree]
        have hhide := sameBut_hidden (m := m) (x := x)
        refine h.hide (x := x) ⟨hhide.main, hhide.swap_disk, hhide.files, hhide.shape,
          hhide.valid, hhide.page, hhide.M, hhide.entry⟩ rfl rfl (fun hsw' => ?_) fun p hp => ?_
        · have hold : (m.entry x.space x.vpn).swap = true := (hidden_entry m x).2.symm.trans hsw'
          rw [hsw] at hold
          cases hold
        · obtain rfl := Option.some.inj hp
          exact PlaceData.ofStill rfl hbuffer

/-- `EvictPage` after the write to the swap area. -/
theorem Sound.wrote {n : Nat} {ad : Int} {fresh : Bool}
    (h : Sound c me m (some (.wroteSwap q x n ad fresh))) (had : ad = n)
    (hfresh : fresh = false → (m.entry x.space x.vpn).swap = true) :
    Sound c me ((m.modifyEntry x.space x.vpn (.swapped ad fresh)).takeOver me q x)
      (some (.mapped q x.frame)) := by
  have hs : SameBut m x ((m.modifyEntry x.space x.vpn (.swapped ad fresh)).takeOver me q x) :=
    (SameBut.modifyEntry (f := .swapped ad fresh) (fun e => by cases fresh <;> rfl)
      (fun e => by cases fresh <;> rfl) fun e => by cases fresh <;> rfl).trans sameBut_takeOver
  have hentry : (((m.modifyEntry x.space x.vpn (.swapped ad fresh)).takeOver me q x).entry
      x.space x.vpn).swap = true ∧
      (((m.modifyEntry x.space x.vpn (.swapped ad fresh)).takeOver me q x).entry
        x.space x.vpn).addrDisk = ad := by
    rw [(sameSwap_takeOver _ _ _ _).swap, (sameSwap_takeOver _ _ _ _).addrDisk,
      Memory.entry_modifyEntry_self]
    cases fresh with
    | true => exact ⟨rfl, rfl⟩
    | false => exact ⟨hfresh rfl, rfl⟩
  refine h.evicted hs rfl rfl hentry.1 ?_ ?_ fun p hp => ?_
  · rw [hentry.2]
    omega
  · rw [hentry.2, had, Int.toNat_natCast]
    exact (h.place _ rfl).wrote q x n ad fresh rfl
  · obtain rfl := Option.some.inj hp
    exact PlaceData.ofStill rfl (h.place _ rfl).buffer

end EvictPage

/-! ## The accesses of user code -/

omit [VmConfig] in
/-- When no routine runs it does not matter whose turn it is. -/
theorem Sound.idle [VmConfig] (h : Sound c me m none) (me' : SpaceId) : Sound c me' m none :=
  ⟨h.unmapped, h.frame, h.victim, h.sector, h.fresh, nofun⟩

omit [VmConfig] in
theorem sameData_accessed {b : SpaceId} {v : Nat} :
    SameData m (m.modifyEntry b v (.accessed false)) :=
  SameData.modifyEntry (f := .accessed false) (fun _ => rfl) (fun _ => rfl) (fun _ => rfl)
    (fun _ => rfl) fun _ => rfl

/-- A load finds the bytes of the contents. -/
theorem Sound.find (h : Sound c me m o) {b : SpaceId} {virtAddr size a : Nat}
    (hsize : size = 1 ∨ size = 2 ∨ size = 4)
    (ht : m.Translate b virtAddr size false = some (m', a)) {j : Nat} (hj : j < size) {x : Byte}
    (hx : c b (virtAddr + j) = some x) : m'.mainMemory (a + j) = x := by
  obtain ⟨rfl, rfl, hvalid, hmod⟩ := translate_cases ht
  have hin := access_in_page hsize hmod
  have hi : virtAddr % PageSize + j < PageSize := by omega
  have haddr : virtAddr + j = virtAddr / PageSize * PageSize + (virtAddr % PageSize + j) := by
    have := Nat.div_add_mod' virtAddr PageSize
    omega
  rw [haddr] at hx
  rw [Nat.add_assoc]
  exact h.frame b _ hvalid _ hi x hx

/-- The bytes of a word are written into the memory. -/
def Memory.poke (m : Memory) (a size : Nat) (value : BitVec 32) : Memory :=
  { m with
    mainMemory := fun j =>
      if a ≤ j ∧ j < a + size then valueByte value (j - a) else m.mainMemory j }

omit [VmConfig] in
theorem poke_entry {a size : Nat} {value : BitVec 32} (b : SpaceId) (v : Nat) :
    (m.poke a size value).entry b v = m.entry b v := rfl

theorem poke_frame {a size p i : Nat} {value : BitVec 32} :
    (m.poke a size value).frame p i =
      if a ≤ p * PageSize + i ∧ p * PageSize + i < a + size then
        valueByte value (p * PageSize + i - a)
      else m.frame p i := rfl

/-- Where a byte of a page is in the contents after a store. -/
theorem page_put {b : SpaceId} {virtAddr size : Nat} {value : BitVec 32}
    (hin : virtAddr % PageSize + size ≤ PageSize) (b' : SpaceId) (v' i : Nat)
    (hi : i < PageSize) : (c.put b virtAddr size value).page b' v' i =
      if (b' = b ∧ v' = virtAddr / PageSize) ∧ virtAddr % PageSize ≤ i ∧
          i < virtAddr % PageSize + size then
        some (valueByte value (i - virtAddr % PageSize))
      else c.page b' v' i := by
  have hdiv := Nat.div_add_mod' virtAddr PageSize
  unfold Contents.put Contents.page
  dsimp only
  by_cases hv : v' = virtAddr / PageSize
  · subst hv
    have hsub : virtAddr / PageSize * PageSize + i - virtAddr = i - virtAddr % PageSize := by
      omega
    rw [hsub]
    congr 1
    apply propext
    constructor
    · rintro ⟨hb, h1, h2⟩
      exact ⟨⟨hb, rfl⟩, by omega, by omega⟩
    · rintro ⟨⟨hb, -⟩, h1, h2⟩
      exact ⟨hb, by omega, by omega⟩
  · -- An access does not reach another page.
    rw [if_neg, if_neg]
    · exact fun hc => hv hc.1.2
    · rintro ⟨-, h1, h2⟩
      apply hv
      apply (address_in_page (p := virtAddr / PageSize) hi).mp
      omega

/-- A store puts its bytes into the contents. -/
theorem Sound.put (h : Sound c me m none) {b : SpaceId} {virtAddr size a : Nat}
    {value : BitVec 32} (hsize : size = 1 ∨ size = 2 ∨ size = 4)
    (ht : m.Translate b virtAddr size true = some (m', a))
    (hother : ∀ b' v', (m.entry b' v').valid = true →
      (m.entry b' v').physicalPage = (m.entry b (virtAddr / PageSize)).physicalPage →
      b' = b ∧ v' = virtAddr / PageSize) :
    Sound (c.put b virtAddr size value) me (m'.poke a size value) none := by
  obtain ⟨rfl, rfl, hvalid, hmod⟩ := translate_cases ht
  have hin := access_in_page hsize hmod
  have hdiv := Nat.div_add_mod' virtAddr PageSize
  have hput := @page_put _ c b virtAddr size value hin
  have hfield : ∀ {α : Type} (g : PageTableEntry → α), (∀ e, g (e.accessed true) = g e) →
      ∀ b' v', g ((m.modifyEntry b (virtAddr / PageSize) (.accessed true)).entry b' v') =
        g (m.entry b' v') := fun g hg b' v' => Memory.field_modifyEntry g hg
  have hM : ∀ b' v', (m.entry b' v').M = true →
      ((m.modifyEntry b (virtAddr / PageSize) (.accessed true)).entry b' v').M = true := by
    intro b' v' hM
    rw [Memory.entry_modifyEntry]
    split
    · rfl
    · exact hM
  have hnot : ∀ b' v', ¬ IsVictim none b' v' := by
    rintro b' v' ⟨x, hx, -⟩
    cases hx
  have hspace : ∀ b', ((m.modifyEntry b (virtAddr / PageSize) (.accessed true)).spaces
      b').mapped_files = (m.spaces b').mapped_files ∧
      ((m.modifyEntry b (virtAddr / PageSize) (.accessed true)).spaces b').exec_file =
        (m.spaces b').exec_file := fun b' => (Memory.modifyEntry_space _ b').2
  exact {
    unmapped := fun b' => (hspace b').1.trans (h.unmapped b')
    frame := by
      intro b' v' hv i hi x hx
      rw [poke_entry, hfield PageTableEntry.valid fun _ => rfl] at hv
      rw [hput b' v' i hi] at hx
      rw [poke_entry, hfield PageTableEntry.physicalPage fun _ => rfl, poke_frame]
      by_cases hc : b' = b ∧ v' = virtAddr / PageSize
      · obtain ⟨rfl, rfl⟩ := hc
        by_cases hr : virtAddr % PageSize ≤ i ∧ i < virtAddr % PageSize + size
        · rw [if_pos ⟨⟨rfl, rfl⟩, hr⟩] at hx
          rw [if_pos (by omega), ← Option.some.inj hx]
          congr 1
          omega
        · rw [if_neg fun hc => hr hc.2] at hx
          rw [if_neg (by omega)]
          exact h.frame b' _ hvalid i hi x hx
      · rw [if_neg fun hc' => hc hc'.1] at hx
        rw [if_neg]
        · exact h.frame b' v' hv i hi x hx
        · -- It is in another frame.
          rintro ⟨h1, h2⟩
          apply hc
          apply hother b' v' hv
          apply (address_in_page hi).mp
          omega
    victim := by
      intro x hx
      cases hx
    sector := by
      intro b' v' hsw hd
      rw [poke_entry, hfield PageTableEntry.swap fun _ => rfl] at hsw
      rw [poke_entry, hfield PageTableEntry.addrDisk fun _ => rfl]
      -- The page of the store is valid and modified.
      have hne : ¬ (b' = b ∧ v' = virtAddr / PageSize) := by
        rintro ⟨rfl, rfl⟩
        apply hd
        refine ⟨?_, Or.inl ((hfield PageTableEntry.valid (fun _ => rfl) _ _).trans hvalid)⟩
        exact congrArg PageTableEntry.M (Memory.entry_modifyEntry_self _)
      obtain ⟨hpos, hsec⟩ := h.sector b' v' hsw (by
        rintro ⟨hMv, hv⟩
        have hv := hv.resolve_right (hnot b' v')
        exact hd ⟨hM b' v' hMv, Or.inl
          ((hfield PageTableEntry.valid (fun _ => rfl) b' v').trans hv)⟩)
      refine ⟨hpos, fun i hi x hx => ?_⟩
      rw [hput b' v' i hi, if_neg fun hc => hne hc.1] at hx
      exact hsec i hi x hx
    fresh := by
      intro b' v' hsw hv hnv i hi x hx
      rw [poke_entry, hfield PageTableEntry.valid fun _ => rfl] at hv
      rw [poke_entry, hfield PageTableEntry.swap fun _ => rfl] at hsw
      have hne : ¬ (b' = b ∧ v' = virtAddr / PageSize) := by
        rintro ⟨rfl, rfl⟩
        rw [hvalid] at hv
        cases hv
      rw [hput b' v' i hi, if_neg fun hc => hne hc.1] at hx
      have hinit := h.fresh b' v' hsw hv (hnot b' v') i hi x hx
      unfold Memory.initialByte at hinit ⊢
      rw [poke_entry, hfield PageTableEntry.addrDisk fun _ => rfl]
      have hexec : (((m.modifyEntry b (virtAddr / PageSize) (.accessed true)).poke
          ((m.entry b (virtAddr / PageSize)).physicalPage * PageSize + virtAddr % PageSize) size
          value).spaces b').exec_file = (m.spaces b').exec_file := (hspace b').2
      rw [hexec]
      exact hinit
    place := by
      intro p hp
      cases hp }

end Sound

/-! ## The runs -/

/-- The step is of a user access or of a page fault that runs alone, no address space is
    destroyed, and there is room in the swap area. -/
def Complete (s : System) (move : Move) : Prop :=
  (∀ b, move ≠ .destroy b) ∧ (∀ t, move = .switch t → s.pc s.current = none) ∧
    (move = .advance → ∀ q x, s.pc s.current = some (.evictIo q x) →
      (s.memory.entry x.space x.vpn).swap = false → s.memory.GetFreePage ≠ none)

structure DataInv (T : Threads) (c : Contents) (s : System) : Prop where
  alone : ∀ t, t ≠ s.current → s.pc t = none
  sound : Sound c (T.process s.current) s.memory (s.pc s.current)

section Steps

variable {T : Threads} {c : Contents} {s s' : System} {m' : Memory} {p : Pc} {move : Move}

/-- A page with its `io` bit set is not valid. -/
theorem Inv.notValid (hi : Inv T s) {t : ThreadId} (hp : s.pc t = some p) {r : SpaceId × Nat}
    (hd : s.memory.status r.1 ≠ .dead) (hr : HoldsIo T t p r) :
    (s.memory.entry r.1 r.2).valid = false := by
  rw [Bool.eq_false_iff]
  intro hv
  have hio := (hi.ok t p hp).io r hr
  rw [(hi.frames.valid _ _ hd hv).2.1] at hio
  cases hio

/-- A step of the page fault. -/
theorem Sound.next (h : Sound c (T.process s.current) s.memory (some p)) (hi : Inv T s)
    (hclock : ClockOk s) (hfull : Full s) (hsw : SwapInv T s)
    (hlive : ∀ b, s.memory.status b = .live) (hc : Complete s .advance)
    (hp : s.pc s.current = some p) {o : Option Pc}
    (hr : Next (T.process s.current) s.memory p m' o) :
    Sound c (T.process s.current) m' o := by
  have hsame := SameData.refl s.memory
  have hbuffer := (h.place p rfl).buffer
  have hloading : ∀ v, p.loading = some v →
      (s.memory.entry (T.process s.current) v).valid = false := fun v hv =>
    hi.notValid hp (r := (T.process s.current, v)) (by simp [hlive]) (Or.inl ⟨rfl, hv⟩)
  obtain ⟨hdes, -⟩ := hfull _ _ hp
  cases hr with
  | wait hio => exact h.go hsame rfl rfl (by simp [Pc.buffered])
  | present hvalid =>
      refine h.keep hsame rfl fun p hp => ?_
      cases hp
  | load hio hvalid => exact h.load hvalid
  | retry => exact h.go hsame rfl rfl (by simp [Pc.buffered])
  | @hidden q had =>
      refine h.keep hsame rfl fun p hp => ?_
      obtain rfl := Option.some.inj hp
      have hsw := (h.place _ rfl).asked q (Or.inl rfl)
      exact {
        wrote := by simp
        buffer := by simp [Pc.buffered]
        file := by simp
        sector := by simp
        asked := by
          rintro q' (hq | hq)
          · cases hq
          · obtain rfl := Pc.addrYield.inj hq
            exact hsw
        noFile := by simp }
  | @sector q had =>
      refine h.keep hsame rfl fun p hp => ?_
      obtain rfl := Option.some.inj hp
      have hsw := (h.place _ rfl).asked q (Or.inl rfl)
      exact {
        wrote := by simp
        buffer := by simp [Pc.buffered]
        file := by simp
        sector := by
          intro q' n hq
          obtain ⟨rfl, rfl⟩ := Pc.readSwap.inj hq
          exact ⟨rfl, hsw⟩
        asked := by simp
        noFile := by simp }
  | @look q =>
      refine h.keep hsame rfl fun p hp => ?_
      obtain rfl := Option.some.inj hp
      have hsw := (h.place _ rfl).asked q (Or.inr rfl)
      exact {
        wrote := by simp
        buffer := by simp [Pc.buffered]
        file := by simp
        sector := by simp
        asked := by
          rintro q' (hq | hq)
          · obtain rfl := Pc.addrIo.inj hq
            exact hsw
          · cases hq
        noFile := by simp }
  | readFile had => exact h.readFile (hloading _ rfl)
  | readSwap hs hlt => exact h.readSwap (hloading _ rfl)
  | read => exact h.go hsame rfl rfl hbuffer
  | take hl hfree => exact h.go hsame.others rfl rfl hbuffer
  | noFree hl => exact h.go hsame rfl rfl hbuffer
  | @finish q f hlocked hfree =>
      apply h.finish (hloading _ rfl)
      -- A frame that is locked is not the frame of a valid page.
      intro b v hv hpage
      have hd : s.memory.status b ≠ .dead := by
        rw [hlive]
        simp
      obtain ⟨-, -, -, htpr⟩ := hi.frames.valid b v hd hv
      rw [hpage] at htpr
      rw [htpr] at hlocked
      cases hlocked
  | pass hb hbusy =>
      exact h.go (SameData.modifyEntry (f := .clearBitU) (fun _ => rfl) (fun _ => rfl)
        (fun _ => rfl) (fun _ => rfl) fun _ => rfl) rfl rfl hbuffer
  | @around q loc i b hb hbusy =>
      have hs : SameData s.memory
          (s.memory.modifyEntry b (s.memory.tpr loc).virtualPage .clearBitU) :=
        SameData.modifyEntry (f := .clearBitU) (fun _ => rfl) (fun _ => rfl) (fun _ => rfl)
          (fun _ => rfl) fun _ => rfl
      exact h.go hs.others rfl rfl hbuffer
  | @stop q loc i b hb hd hbusy =>
      have hfree := (hfull.careful hi hclock .advance rfl).2 _ _ _ _ hp hb hbusy
      simp only [Memory.busy, Bool.or_eq_false_iff] at hbusy
      obtain ⟨b', hb', -, hvalid, hpage⟩ :=
        hi.frames.used loc (hclock _ _ _ _ hp) hfree hbusy.2
      obtain rfl := Option.some.inj (hb.symm.trans hb')
      exact h.found hvalid hpage
  | goOn => exact h.go hsame rfl rfl hbuffer
  | evictWait hio => exact h.go hsame rfl rfl hbuffer
  | @evict q x hd hio =>
      obtain ⟨-, -, hpos⟩ := (hsw.ok _ _ hp).victim q x rfl
      exact h.evict hpos (hc.2.2 rfl q x hp)
  | evictAgain => exact h.go hsame rfl rfl hbuffer
  | writeFile had => exact absurd rfl ((h.place _ rfl).noFile.1 _ _ _ _)
  | wroteFile hd => exact absurd rfl ((h.place _ rfl).noFile.2 _ _)
  | @writeSwap q x n ad fresh hlt =>
      obtain ⟨hcounted, -, hhidden⟩ := (hsw.ok _ _ hp).writing (x.space, x.vpn) n rfl
      apply h.written hhidden
      -- The sector is claimed by the page that is written to it.
      intro b v hne hswv had
      apply hne
      have hclaim : Claims s.memory s.pc (x.space, x.vpn) n := ⟨hcounted, Or.inr ⟨_, _, hp, rfl⟩⟩
      have hclaim' : Claims s.memory s.pc (b, v) n := ⟨Or.inl (hlive b), Or.inl ⟨hswv, had⟩⟩
      exact Prod.mk.inj (hsw.accounts.one _ _ n hclaim hclaim')
  | @wroteSwap q x n ad fresh hd =>
      obtain ⟨had, hfresh⟩ := (hsw.ok _ _ hp).writes q x n ad fresh (Or.inr rfl)
      exact h.wrote had hfresh
  | destroyFile | release | skip | delete | destroyWrite | destroyWrote => cases hdes

theorem DataInv.step (h : DataInv T c s) (hi : Inv T s) (hclock : ClockOk s) (hfull : Full s)
    (hsw : SwapInv T s) (hlive : ∀ b, s.memory.status b = .live) (hc : Complete s move)
    (hs : Step T s move s') : DataInv T (c.after T (s, move)) s' := by
  cases hs with
  | @switch t _ =>
      have hnone := hc.2.1 t rfl
      -- The thread that stops is in no page fault, and the other threads are in none either.
      have hall : ∀ u, s.pc u = none := by
        intro u
        by_cases hu : u = s.current
        · rw [hu]
          exact hnone
        · exact h.alone u hu
      have hsound := h.sound
      rw [hnone] at hsound
      refine ⟨fun u _ => hall u, ?_⟩
      show Sound c _ s.memory (s.pc t)
      rw [hall t]
      exact hsound.idle _
  | load hu hm' =>
      obtain ⟨-, hnone, -⟩ := System.inUserCode_iff.mp hu
      obtain ⟨a, ht, -, -⟩ := readMem_cases hm'
      obtain ⟨rfl, -, -, -⟩ := translate_cases ht
      refine ⟨h.alone, h.sound.keep sameData_accessed rfl fun p hp => ?_⟩
      rw [hnone] at hp
      cases hp
  | @store virtAddr size m' value hu hm' =>
      obtain ⟨-, hnone, -⟩ := System.inUserCode_iff.mp hu
      obtain ⟨m₁, a, ht, hsize, rfl⟩ := writeMem_cases hm'
      obtain ⟨-, -, hvalid, -⟩ := translate_cases ht
      have hsound := h.sound
      rw [hnone] at hsound
      refine ⟨h.alone, ?_⟩
      show Sound _ _ _ (s.pc s.current)
      rw [hnone]
      apply hsound.put hsize ht
      have hd : ∀ b, s.memory.status b ≠ .dead := by
        intro b
        rw [hlive]
        simp
      exact fun b' v' hv hpage => hi.frames.safe.one b' v' _ _ (hd _) (hd _) hv hvalid hpage
  | fault hu hvalid hallowed =>
      obtain ⟨-, hnone, -⟩ := System.inUserCode_iff.mp hu
      have hsound := h.sound
      rw [hnone] at hsound
      refine ⟨fun t ht => ?_, ?_⟩
      · exact (Function.update_of_ne ht _ _).trans (h.alone t ht)
      · show Sound c _ s.memory (Function.update s.pc s.current _ s.current)
        rw [Function.update_self]
        refine hsound.keep (SameData.refl _) rfl fun p hp => ?_
        obtain rfl := Option.some.inj hp
        exact PlaceData.ofStill rfl (by simp [Pc.buffered])
  | @destroy b hmem hnone hlive' hended => exact absurd rfl (hc.1 b)
  | @advance p m' o hp hr =>
      have hsound := h.sound
      rw [hp] at hsound
      refine ⟨fun t ht => ?_, ?_⟩
      · exact (Function.update_of_ne ht _ _).trans (h.alone t ht)
      · show Sound c _ m' (Function.update s.pc s.current o s.current)
        rw [Function.update_self]
        exact hsound.next hi hclock hfull hsw hlive hc hp hr

omit [VmConfig] in
/-- Nothing is destroyed, so that the destructor does not come in the way. -/
theorem Full.quiet (h : Full s) (move : Move) : Quiet s move := by
  rintro - b i (hp | hp)
  · cases (h _ _ hp).1
  · cases (h _ _ hp).1

end Steps

/-- What is kept in a run of page faults that are not interrupted. -/
theorem complete_run {T : Threads} {s₀ s : System} {tr : Moves} (h₀ : Booted s₀)
    (hfiles : ∀ b, (s₀.memory.spaces b).mapped_files = []) (hr : Run (step T) s₀ tr s)
    (hc : ∀ x ∈ tr, Complete x.1 x.2) :
    Inv T s ∧ ClockOk s ∧ Full s ∧ SwapInv T s ∧ (∀ b, s.memory.status b = .live) ∧
      DataInv T (contents T s₀.memory tr) s := by
  refine hr.invariant_of_steps (I := fun tr s => Inv T s ∧ ClockOk s ∧ Full s ∧ SwapInv T s ∧
    (∀ b, s.memory.status b = .live) ∧ DataInv T (contents T s₀.memory tr) s)
    (C := fun s move => Complete s move) ?_ ?_ hc
  -- At the boot no page is valid and none is in the swap area.
  · refine ⟨h₀.inv, fun t q loc i hp => ?_, fun t p hp => ?_, h₀.swapInv, h₀.live, ?_⟩
    · rw [h₀.idle] at hp
      cases hp
    · rw [h₀.idle] at hp
      cases hp
    · refine ⟨fun t _ => h₀.idle t, ?_⟩
      rw [h₀.idle]
      exact {
        unmapped := hfiles
        frame := by
          intro b v hv
          rw [(h₀.entry b v).1] at hv
          cases hv
        victim := by
          intro x hx
          cases hx
        sector := by
          intro b v hsw
          rw [(h₀.entry b v).2.2] at hsw
          cases hsw
        fresh := by
          intro b v _ _ _ i hi x hx
          unfold Contents.page contents Memory.initialContents at hx
          dsimp only [List.foldl_nil] at hx
          rwa [(page_of_address hi).1, (page_of_address hi).2] at hx
        place := by
          intro p hp
          cases hp }
  · intro tr s a s' ⟨hi, hclock, hfull, hsw, hlive, hdata⟩ hca hs
    have hs' := step_cases hs
    have hcareful := hfull.careful hi hclock a
    have hi' := hi.step hclock hcareful hs'
    -- The move is added to what the memory should hold.
    have hafter : contents T s₀.memory (tr ++ [(s, a)]) =
        (contents T s₀.memory tr).after T (s, a) := by
      unfold contents
      rw [List.foldl_append]
      rfl
    rw [hafter]
    refine ⟨hi', hclock.step hs', hfull.step hs' hca.1,
      hsw.step hi hclock hcareful (hfull.quiet a) hs' hi', fun b => ?_,
      hdata.step hi hclock hfull hsw hlive hca hs'⟩
    exact status_of_step hs' hfull hca.1 ▸ hlive b

/-- The bytes are in their places after a run of page faults that are not interrupted. -/
theorem dataInv_of_run {T : Threads} {s₀ s : System} {tr : Moves} (h₀ : Booted s₀)
    (hfiles : ∀ b, (s₀.memory.spaces b).mapped_files = []) (hr : Run (step T) s₀ tr s)
    (hc : ∀ x ∈ tr, Complete x.1 x.2) : DataInv T (contents T s₀.memory tr) s :=
  (complete_run h₀ hfiles hr hc).2.2.2.2.2

/-- A load returns what the last stores have put at its addresses, or what was there at
    the beginning. -/
theorem load_contents {T : Threads} {s₀ s : System} {tr : Moves} (h₀ : Booted s₀)
    (hfiles : ∀ b, (s₀.memory.spaces b).mapped_files = []) (hr : Run (step T) s₀ tr s)
    (hc : ∀ x ∈ tr, Complete x.1 x.2) {virtAddr size : Nat} {m' : Memory} {value : BitVec 32}
    (hload : s.memory.ReadMem (T.process s.current) virtAddr size = some (m', value)) :
    ∃ b : Nat → Byte, value = readValue size b ∧ ∀ j < size, ∀ x,
      contents T s₀.memory tr (T.process s.current) (virtAddr + j) = some x → b j = x := by
  have hdata := dataInv_of_run h₀ hfiles hr hc
  obtain ⟨a, ht, hsize, rfl⟩ := readMem_cases hload
  exact ⟨_, rfl, fun j hj x hx => hdata.sound.find hsize ht hj hx⟩

omit [VmConfig] in
/-- The bytes of a word make the word. -/
theorem readValue_valueByte {value : BitVec 32} {b : Nat → Byte}
    (h : ∀ j < 4, b j = valueByte value j) : readValue 4 b = value := by
  unfold readValue
  rw [if_neg (by decide), if_neg (by decide)]
  rw [h 0 (by decide), h 1 (by decide), h 2 (by decide), h 3 (by decide)]
  unfold valueByte
  apply BitVec.eq_of_getLsbD_eq
  intro i hi
  simp only [BitVec.getLsbD_append, BitVec.getLsbD_extractLsb']
  grind

/-- The step is complete, as far as can be seen. -/
def completeAt (x : System × Move) : Bool :=
  match x.2 with
  | .destroy _ => false
  | .switch _ => (x.1.pc x.1.current).isNone
  | .advance =>
    match x.1.pc x.1.current with
    | some (.evictIo _ x') =>
      (x.1.memory.entry x'.space x'.vpn).swap || x.1.memory.GetFreePage.isSome
    | _ => true
  | _ => true

omit [VmConfig] in
theorem complete_of_completeAt {s : System} {move : Move} (h : completeAt (s, move) = true) :
    Complete s move := by
  unfold completeAt at h
  refine ⟨fun b hb => ?_, fun t ht => ?_, fun ha q x hp hsw hnone => ?_⟩
  · rw [hb] at h
    cases h
  · rw [ht] at h
    exact Option.isNone_iff_eq_none.mp h
  · rw [ha] at h
    dsimp only at h
    rw [hp] at h
    dsimp only at h
    rw [hsw, hnone] at h
    cases h

/-- The page of 0 is in the executable file, those of 1 and 2 are zero. -/
def threePages : Memory :=
  let _ := VmConfig.two
  newMemory (fun b => newSpace (if b < 3 then 1 else 0) (fun _ => if b = 0 then 128 else -1) [])
    fun _ => ⟨fun i => BitVec.ofNat 8 i, 256, 256⟩

omit [VmConfig] in
theorem booted_threePages : @Booted VmConfig.two ⟨threePages, 0, fun _ => none⟩ :=
  let _ := VmConfig.two
  booted_new (fun b => if b < 3 then 1 else 0) (fun b _ => if b = 0 then 128 else -1) fun _ => []

/-- 0 modifies its page, 2 evicts it, and 0 gets it back for that of 1. -/
def evictedAndBack : List Move :=
  List.flatten [loads 0 5, [.store 4 4 0x01020384, .switch 1], loads 0 3,
    [.store 0 4 7, .switch 2], loads 0 9, [.switch 0], loads 0 10]

omit [VmConfig] in
/-- The word that has been to the swap area. -/
theorem load_contents_evicted :
    ∃ (tr : Moves) (s : System) (m' : Memory) (value : BitVec 32),
      Run (@step VmConfig.two fourThreads) ⟨threePages, 0, fun _ => none⟩ tr s ∧
      (s.memory.entry 0 0).swap = true ∧
      @Memory.ReadMem VmConfig.two s.memory 0 4 4 = some (m', value) ∧ value = 0x01020384 := by
  let _ := VmConfig.two
  obtain ⟨⟨tr, s⟩, he, hx⟩ := Option.map_eq_some_iff.mp
    (show (exec (step fourThreads) ⟨threePages, 0, fun _ => none⟩ evictedAndBack).map
        (fun x => (x.2.current, (x.2.memory.entry 0 0).swap, x.1.all completeAt,
          (x.2.memory.ReadMem 0 4 4).isSome,
          (List.range 4).all fun j =>
            contents fourThreads threePages x.1 0 (4 + j) == some (valueByte 0x01020384 j))) =
      some (0, true, true, true, true) by decide +kernel)
  simp only [Prod.mk.injEq] at hx
  obtain ⟨hcurrent, hsw, hall, hsome, hbytes⟩ := hx
  obtain ⟨⟨m', value⟩, hload⟩ := Option.isSome_iff_exists.mp hsome
  have hload' : s.memory.ReadMem (fourThreads.process s.current) 4 4 = some (m', value) := by
    rw [hcurrent]
    exact hload
  obtain ⟨b, rfl, hb⟩ := load_contents booted_threePages (fun _ => rfl) (run_of_exec he)
    (fun y hy => complete_of_completeAt (List.all_eq_true.mp hall y hy)) hload'
  refine ⟨tr, s, m', _, run_of_exec he, hsw, hload, readValue_valueByte fun j hj => ?_⟩
  apply hb j hj
  rw [hcurrent]
  exact beq_iff_eq.mp (List.all_eq_true.mp hbytes j (List.mem_range.mpr hj))

end Vm
end Nachos
