/-
  Nachos.Vm.Swap

  The swap area.  A sector is claimed by a page that is in it, or by the page that an
  eviction is writing to it; the bits of `page_flags` are those of the claimed sectors,
  as long as the destructor does not pass a page while it is written.
-/

import Nachos.Lib.Accounts
import Nachos.Vm.FrameSafety

namespace Nachos
namespace Vm

open Transition Ownership Words

/-! ## The sectors that the pages claim -/

namespace Pc

/-- The page that is being written to the swap area, and the sector. -/
def writing : Pc → Option ((SpaceId × Nat) × Nat)
  | writeSwap _ x n _ _ => some ((x.space, x.vpn), n)
  | wroteSwap _ x n _ _ => some ((x.space, x.vpn), n)
  | _ => none

/-- The page whose place on the disk has been found, until it is loaded. -/
def fetched : Pc → Option Nat
  | readDone q => some q.vpn
  | map q => some q.vpn
  | mapped q _ => some q.vpn
  | search q _ _ => some q.vpn
  | searchYield q _ _ => some q.vpn
  | evictIo q _ => some q.vpn
  | evictYield q _ => some q.vpn
  | writeFile q _ _ _ => some q.vpn
  | wroteFile q _ => some q.vpn
  | writeSwap q _ _ _ _ => some q.vpn
  | wroteSwap q _ _ _ _ => some q.vpn
  | _ => none

theorem loading_of_fetched {p : Pc} {v : Nat} (h : p.fetched = some v) : p.loading = some v := by
  cases p with
  | readDone | map | mapped | search | searchYield | evictIo | evictYield | writeFile | wroteFile
  | writeSwap | wroteSwap => exact h
  | _ => cases h

theorem evicting_of_writing {p : Pc} {r : SpaceId × Nat} {n : Nat}
    (h : p.writing = some (r, n)) : p.evicting = some r := by
  cases p with
  | writeSwap | wroteSwap =>
      obtain ⟨rfl, -⟩ := Prod.mk.inj (Option.some.inj h)
      rfl
  | _ => cases h

end Pc

/-- The destructor of the address space has not dealt with the page. -/
def Counted (m : Memory) (r : SpaceId × Nat) : Prop :=
  m.status r.1 = .live ∨ ∃ k ≤ r.2, m.status r.1 = .dying k

/-- The entry of the page says that it is in the sector. -/
def Names (m : Memory) (r : SpaceId × Nat) (n : Nat) : Prop :=
  Counted m r ∧ (m.entry r.1 r.2).swap = true ∧ (m.entry r.1 r.2).addrDisk = n

/-- A thread is writing the page to the sector. -/
def Writes (pc : ThreadId → Option Pc) (r : SpaceId × Nat) (n : Nat) : Prop :=
  ∃ t p, pc t = some p ∧ p.writing = some (r, n)

/-- A page claims the sector that it is in or is written to. -/
def Claims (m : Memory) (pc : ThreadId → Option Pc) (r : SpaceId × Nat) (n : Nat) : Prop :=
  Counted m r ∧
    ((m.entry r.1 r.2).swap = true ∧ (m.entry r.1 r.2).addrDisk = n ∨ Writes pc r n)

section

variable {m m' m'' : Memory} {pc : ThreadId → Option Pc} {r : SpaceId × Nat} {n : Nat}

theorem Counted.notDead (h : Counted m r) : m.status r.1 ≠ .dead := by
  rcases h with h | ⟨k, -, h⟩
  all_goals
    rw [h]
    simp

theorem counted_congr (h : m'.status = m.status) : Counted m' r ↔ Counted m r := by
  unfold Counted
  rw [h]

/-- Nothing has changed of what the swap area is about. -/
structure SameSwap (m m' : Memory) : Prop where
  flags : m'.page_flags = m.page_flags
  status : m'.status = m.status
  size : ∀ b, (m'.spaces b).freePageId = (m.spaces b).freePageId
  swap : ∀ b v, (m'.entry b v).swap = (m.entry b v).swap
  addrDisk : ∀ b v, (m'.entry b v).addrDisk = (m.entry b v).addrDisk

theorem SameSwap.refl (m : Memory) : SameSwap m m :=
  ⟨rfl, rfl, fun _ => rfl, fun _ _ => rfl, fun _ _ => rfl⟩

theorem SameSwap.trans (h : SameSwap m m') (h' : SameSwap m' m'') : SameSwap m m'' where
  flags := h'.flags.trans h.flags
  status := h'.status.trans h.status
  size b := (h'.size b).trans (h.size b)
  swap b v := (h'.swap b v).trans (h.swap b v)
  addrDisk b v := (h'.addrDisk b v).trans (h.addrDisk b v)

theorem SameSwap.modifyEntry {b : SpaceId} {v : Nat} {f : PageTableEntry → PageTableEntry}
    (hswap : ∀ e, (f e).swap = e.swap) (haddr : ∀ e, (f e).addrDisk = e.addrDisk) :
    SameSwap m (m.modifyEntry b v f) where
  flags := rfl
  status := rfl
  size := modifyEntry_size f
  swap _ _ := Memory.field_modifyEntry PageTableEntry.swap hswap
  addrDisk _ _ := Memory.field_modifyEntry PageTableEntry.addrDisk haddr

/-- The rest of the memory is not about the swap area. -/
theorem SameSwap.others (h : SameSwap m m') {tpr : Nat → Frame} {list : List Nat} {c : Int}
    {mainMemory : Nat → Byte} {swap_disk : Nat → Page} {files : FileId → File} :
    SameSwap m ⟨tpr, list, c, mainMemory, m'.page_flags, swap_disk, m'.spaces, m'.status, files⟩ :=
  ⟨h.flags, h.status, h.size, h.swap, h.addrDisk⟩

theorem claims_congr (hs : SameSwap m m') {pc' : ThreadId → Option Pc}
    (hw : Writes pc' r n ↔ Writes pc r n) : Claims m' pc' r n ↔ Claims m pc r n := by
  unfold Claims
  rw [counted_congr hs.status, hs.swap, hs.addrDisk, hw]

/-- What the other threads are writing, and what the running thread is. -/
theorem writes_update {t : ThreadId} {o : Option Pc} :
    Writes (Function.update pc t o) r n ↔
      (∃ u p, u ≠ t ∧ pc u = some p ∧ p.writing = some (r, n)) ∨
        o.bind Pc.writing = some (r, n) := by
  constructor
  · rintro ⟨u, p, hp, hw⟩
    by_cases hu : u = t
    · right
      rw [hu, Function.update_self] at hp
      rw [hp]
      exact hw
    · left
      rw [Function.update_of_ne hu] at hp
      exact ⟨u, p, hu, hp, hw⟩
  · rintro (⟨u, p, hu, hp, hw⟩ | hw)
    · refine ⟨u, p, ?_, hw⟩
      rwa [Function.update_of_ne hu]
    · obtain ⟨p, hp, hw⟩ := Option.bind_eq_some_iff.mp hw
      refine ⟨t, p, ?_, hw⟩
      rwa [Function.update_self]

/-- The running thread goes on with what it is writing, or with writing nothing. -/
theorem writes_update_same {t : ThreadId} {o : Option Pc}
    (hw : o.bind Pc.writing = (pc t).bind Pc.writing) :
    Writes (Function.update pc t o) r n ↔ Writes pc r n := by
  rw [writes_update, hw]
  constructor
  · rintro (⟨u, p', -, hp', hw'⟩ | hw')
    · exact ⟨u, p', hp', hw'⟩
    · obtain ⟨p, hp, hw'⟩ := Option.bind_eq_some_iff.mp hw'
      exact ⟨t, p, hp, hw'⟩
  · rintro ⟨u, p', hp', hw'⟩
    by_cases hu : u = t
    · right
      rw [hu] at hp'
      rwa [hp']
    · exact Or.inl ⟨u, p', hu, hp', hw'⟩

end

/-! ## The invariant -/

variable (T : Threads)

/-- What a thread knows of the places of its pages on the disk. -/
structure SwapOk (m : Memory) (t : ThreadId) (p : Pc) : Prop where
  writing : ∀ r n, p.writing = some (r, n) →
    Counted m r ∧ r.2 < (m.spaces r.1).freePageId ∧ (m.entry r.1 r.2).addrDisk = -1
  writes : ∀ q x n ad fresh, p = .writeSwap q x n ad fresh ∨ p = .wroteSwap q x n ad fresh →
    ad = n ∧ (fresh = false → (m.entry x.space x.vpn).swap = true)
  victim : ∀ q x, p = .evictIo q x →
    Counted m (x.space, x.vpn) ∧ x.vpn < (m.spaces x.space).freePageId ∧
      ((m.entry x.space x.vpn).swap = true → 0 ≤ (m.entry x.space x.vpn).addrDisk)
  file : ∀ q f ad, p = .readFile q f ad → ad = (m.entry (T.process t) q.vpn).addrDisk
  sector : ∀ q n, p = .readSwap q n → n = (m.entry (T.process t) q.vpn).addrDisk
  fetched : ∀ v, p.fetched = some v → (m.entry (T.process t) v).swap = true →
    0 ≤ (m.entry (T.process t) v).addrDisk

structure SwapInv (s : System) : Prop where
  accounts : Accounts s.memory.page_flags (Claims s.memory s.pc)
  ok : ∀ t p, s.pc t = some p → SwapOk T s.memory t p
  loaded : ∀ b v, s.memory.status b ≠ .dead → (s.memory.entry b v).valid = true →
    (s.memory.entry b v).swap = true → 0 ≤ (s.memory.entry b v).addrDisk
  swapped : ∀ b v, s.memory.status b ≠ .dead → (s.memory.entry b v).swap = true →
    v < (s.memory.spaces b).freePageId
  dying : ∀ b k, s.memory.status b = .dying k → ∀ j < k, (s.memory.entry b j).valid = false

section Steps

variable {T} {s : System} {m' : Memory} {p p' : Pc} [VmConfig]

/-- What the other threads see of a step: it changes the places on the disk of pages
    with which it alone is concerned. -/
structure Keeps (T : Threads) (s : System) (m' : Memory) : Prop where
  size : ∀ b, (m'.spaces b).freePageId = (s.memory.spaces b).freePageId
  entry : ∀ b v, (m'.entry b v).swap = (s.memory.entry b v).swap ∧
      (m'.entry b v).addrDisk = (s.memory.entry b v).addrDisk ∨
    HeldAt (HoldsIo T) s.pc s.current (b, v) ∨ (s.memory.entry b v).io = false
  counted : ∀ r n, Writes s.pc r n → Counted s.memory r → Counted m' r

omit [VmConfig] in
theorem SameSwap.keeps (h : SameSwap s.memory m') : Keeps T s m' where
  size := h.size
  entry b v := Or.inl ⟨h.swap b v, h.addrDisk b v⟩
  counted _ _ _ hr := (counted_congr h.status).mpr hr

theorem SwapInv.other (h : SwapInv T s) (hi : Inv T s) (hk : Keeps T s m') {t : ThreadId}
    (ht : t ≠ s.current) (hp : s.pc t = some p) : SwapOk T m' t p := by
  have hok := h.ok t p hp
  -- The pages that the thread has set the bit of.
  have hsame : ∀ b v, HoldsIo T t p (b, v) →
      (m'.entry b v).swap = (s.memory.entry b v).swap ∧
        (m'.entry b v).addrDisk = (s.memory.entry b v).addrDisk := by
    intro b v hr
    rcases hk.entry b v with he | hheld | hio
    · exact he
    · exact absurd (hi.io t s.current (b, v) (heldAt_of hp hr) hheld) ht
    · rw [(hi.ok t p hp).io (b, v) hr] at hio
      cases hio
  have hloading : ∀ v, p.loading = some v → HoldsIo T t p (T.process t, v) :=
    fun v hv => Or.inl ⟨rfl, hv⟩
  exact {
    writing := by
      intro r n hw
      obtain ⟨hc, hlt, had⟩ := hok.writing r n hw
      have he := hsame r.1 r.2 (Or.inr (Pc.evicting_of_writing hw))
      rw [hk.size, he.2]
      exact ⟨hk.counted r n ⟨t, p, hp, hw⟩ hc, hlt, had⟩
    writes := by
      intro q x n ad fresh hw
      have hev : p.evicting = some (x.space, x.vpn) := by
        rcases hw with rfl | rfl
        · rfl
        · rfl
      rw [(hsame _ _ (Or.inr hev)).1]
      exact hok.writes q x n ad fresh hw
    victim := by
      rintro q x rfl
      -- No other thread has stopped there.
      cases (hi.places t _ hp).2 ht
    file := by
      rintro q f ad rfl
      rw [(hsame _ _ (hloading _ rfl)).2]
      exact hok.file q f ad rfl
    sector := by
      rintro q n rfl
      rw [(hsame _ _ (hloading _ rfl)).2]
      exact hok.sector q n rfl
    fetched := by
      intro v hv
      have he := hsame _ _ (hloading v (Pc.loading_of_fetched hv))
      rw [he.1, he.2]
      exact hok.fetched v hv }

/-- The invariant from its parts. -/
theorem SwapInv.advance (h : SwapInv T s) (hi : Inv T s) {o : Option Pc} (hk : Keeps T s m')
    (hacc : Accounts m'.page_flags (Claims m' (Function.update s.pc s.current o)))
    (hnew : ∀ p ∈ o, SwapOk T m' s.current p)
    (hloaded : ∀ b v, m'.status b ≠ .dead → (m'.entry b v).valid = true →
      (m'.entry b v).swap = true → 0 ≤ (m'.entry b v).addrDisk)
    (hswapped : ∀ b v, m'.status b ≠ .dead → (m'.entry b v).swap = true →
      v < (m'.spaces b).freePageId)
    (hdying : ∀ b k, m'.status b = .dying k → ∀ j < k, (m'.entry b j).valid = false) :
    SwapInv T ⟨m', s.current, Function.update s.pc s.current o⟩ where
  accounts := hacc
  ok t p hp := by
    dsimp only at hp
    by_cases ht : t = s.current
    · rw [ht, Function.update_self] at hp
      rw [ht]
      exact hnew p hp
    · rw [Function.update_of_ne ht] at hp
      exact h.other hi hk ht hp
  loaded := hloaded
  swapped := hswapped
  dying := hdying

/-- A step that is not about the swap area. -/
theorem SwapInv.move (h : SwapInv T s) (hi : Inv T s) {o : Option Pc}
    (hp : s.pc s.current = some p) (hs : SameSwap s.memory m')
    (hw : o.bind Pc.writing = p.writing)
    (hvalid : ∀ b v, (m'.entry b v).valid = true → (s.memory.entry b v).valid = true)
    (hnew : ∀ p ∈ o, SwapOk T m' s.current p) :
    SwapInv T ⟨m', s.current, Function.update s.pc s.current o⟩ := by
  apply h.advance hi hs.keeps _ hnew
  · intro b v hd hv hsw
    rw [hs.status] at hd
    rw [hs.swap] at hsw
    rw [hs.addrDisk]
    exact h.loaded b v hd (hvalid b v hv) hsw
  · intro b v hd hsw
    rw [hs.status] at hd
    rw [hs.swap] at hsw
    rw [hs.size]
    exact h.swapped b v hd hsw
  · intro b k hst j hj
    rw [hs.status] at hst
    rw [Bool.eq_false_iff]
    intro hv
    have hold := hvalid b j hv
    rw [h.dying b k hst j hj] at hold
    cases hold
  · apply h.accounts.congr hs.flags
    intro r n
    apply claims_congr hs
    apply writes_update_same
    rw [hp]
    exact hw

/-! ## The steps -/

/-- The places where no more is known than that the page of the fault has been found. -/
def Pc.mere : Pc → Bool
  | .readFile _ _ _ => false
  | .readSwap _ _ => false
  | .evictIo _ _ => false
  | .writeSwap _ _ _ _ _ => false
  | .wroteSwap _ _ _ _ _ => false
  | _ => true

omit [VmConfig] in
theorem SwapOk.ofMere {m : Memory} {t : ThreadId} (hm : p.mere)
    (hf : ∀ v, p.fetched = some v → (m.entry (T.process t) v).swap = true →
      0 ≤ (m.entry (T.process t) v).addrDisk) : SwapOk T m t p where
  writing r n hw := by
    cases p with
    | writeSwap | wroteSwap => cases hm
    | _ => cases hw
  writes q x n ad fresh hw := by
    rcases hw with rfl | rfl
    · cases hm
    · cases hm
  victim q x hx := by
    subst hx
    cases hm
  file q f ad hf := by
    subst hf
    cases hm
  sector q n hn := by
    subst hn
    cases hm
  fetched := hf

/-- From a place to a place where the same is known. -/
theorem SwapInv.go (h : SwapInv T s) (hi : Inv T s) (hp : s.pc s.current = some p)
    (hs : SameSwap s.memory m')
    (hvalid : ∀ b v, (m'.entry b v).valid = true → (s.memory.entry b v).valid = true)
    (hm : p'.mere) (hw : p.writing = none)
    (hf : ∀ v, p'.fetched = some v → (s.memory.entry (T.process s.current) v).swap = true →
      0 ≤ (s.memory.entry (T.process s.current) v).addrDisk) :
    SwapInv T ⟨m', s.current, Function.update s.pc s.current (some p')⟩ := by
  have hw' : p'.writing = none := by
    cases p' with
    | writeSwap | wroteSwap => cases hm
    | _ => rfl
  apply h.move (o := some p') hi hp hs (hw'.trans hw.symm) hvalid
  intro p'' hp''
  obtain rfl := Option.some.inj hp''
  apply SwapOk.ofMere hm
  intro v hv hsw
  rw [hs.swap] at hsw
  rw [hs.addrDisk]
  exact hf v hv hsw

/-- The routine returns. -/
theorem SwapInv.return (h : SwapInv T s) (hi : Inv T s) (hp : s.pc s.current = some p)
    (hw : p.writing = none) (hs : SameSwap s.memory m')
    (hvalid : ∀ b v, (m'.entry b v).valid = true → (s.memory.entry b v).valid = true) :
    SwapInv T ⟨m', s.current, Function.update s.pc s.current none⟩ := by
  apply h.move (o := none) hi hp hs hw.symm hvalid
  intro p' hp'
  cases hp'

omit [VmConfig] in
theorem valid_of_modifyEntry {m : Memory} {b : SpaceId} {v : Nat}
    {f : PageTableEntry → PageTableEntry} (hf : ∀ e, (f e).valid = true → e.valid = true)
    (b' : SpaceId) (v' : Nat) (h : ((m.modifyEntry b v f).entry b' v').valid = true) :
    (m.entry b' v').valid = true := by
  rw [Memory.entry_modifyEntry] at h
  split at h
  · rename_i he
    rw [he.1, he.2]
    exact hf _ h
  · exact h

/-- `setBitIo` of `PageFault`, and where the page comes from. -/
theorem SwapInv.load (h : SwapInv T s) (hi : Inv T s) {q : Fault}
    (hp : s.pc s.current = some (.faultIo q)) :
    SwapInv T ⟨s.memory.modifyEntry (T.process s.current) q.vpn .setBitIo, s.current,
      Function.update s.pc s.current (some (Vm.load (T.process s.current)
        (s.memory.modifyEntry (T.process s.current) q.vpn .setBitIo) q))⟩ := by
  have hs : SameSwap s.memory (s.memory.modifyEntry (T.process s.current) q.vpn .setBitIo) :=
    SameSwap.modifyEntry (f := .setBitIo) (fun _ => rfl) fun _ => rfl
  have hnew : SwapOk T (s.memory.modifyEntry (T.process s.current) q.vpn .setBitIo) s.current
      (Vm.load (T.process s.current)
        (s.memory.modifyEntry (T.process s.current) q.vpn .setBitIo) q) ∧
      (Vm.load (T.process s.current)
        (s.memory.modifyEntry (T.process s.current) q.vpn .setBitIo) q).writing = none := by
    have hfile : ∀ f, SwapOk T (s.memory.modifyEntry (T.process s.current) q.vpn .setBitIo)
        s.current (.readFile q f
          ((s.memory.modifyEntry (T.process s.current) q.vpn .setBitIo).entry
            (T.process s.current) q.vpn).addrDisk) := by
      intro f
      exact {
        writing := by simp [Pc.writing]
        writes := by simp
        victim := by simp
        file := by
          rintro q' f' ad hf
          obtain ⟨rfl, -, rfl⟩ := Pc.readFile.inj hf
          rfl
        sector := by simp
        fetched := by simp [Pc.fetched] }
    unfold Vm.load
    dsimp only
    split
    · exact ⟨hfile _, rfl⟩
    · split
      · exact ⟨SwapOk.ofMere rfl (by simp [Pc.fetched]), rfl⟩
      · rename_i hsw
        split
        · -- The page has never been in the swap area.
          refine ⟨SwapOk.ofMere rfl ?_, rfl⟩
          intro v hv hsw'
          obtain rfl := Option.some.inj hv
          exact absurd hsw' hsw
        · exact ⟨hfile _, rfl⟩
  apply h.move (o := some _) hi hp hs hnew.2
  · exact valid_of_modifyEntry fun _ => id
  · intro p' hp'
    obtain rfl := Option.some.inj hp'
    exact hnew.1

/-- The clock takes a frame from its page. -/
theorem SwapInv.found (h : SwapInv T s) (hi : Inv T s) {q : Fault} {loc i : Nat} {b : SpaceId}
    {v : Nat} {c : Int} (hp : s.pc s.current = some (.search q loc i)) (hlt : loc < NumPhysPages)
    (hfree : (s.memory.tpr loc).free = false) (hlocked : (s.memory.tpr loc).locked = false)
    (hb : (s.memory.tpr loc).owner = some b) (hv : (s.memory.tpr loc).virtualPage = v) :
    SwapInv T ⟨{ s.memory.modifyEntry b v .clearBitValid with i_clock := c }.modifyFrame loc
        fun fr => { fr with locked := true },
      s.current, Function.update s.pc s.current (some (.evictIo q ⟨loc, b, v⟩))⟩ := by
  have hs : SameSwap s.memory (s.memory.modifyEntry b v .clearBitValid) :=
    SameSwap.modifyEntry (f := .clearBitValid) (fun _ => rfl) fun _ => rfl
  obtain ⟨b', hb', hdead, hvalid, -⟩ := hi.frames.used loc hlt hfree hlocked
  obtain rfl := Option.some.inj (hb.symm.trans hb')
  rw [hv] at hvalid
  -- The destructor has no valid pages behind it.
  have hcounted : Counted s.memory (b, v) := by
    cases hst : s.memory.status b with
    | live => exact Or.inl hst
    | dead => exact absurd hst hdead
    | dying k =>
        refine Or.inr ⟨k, Nat.le_of_not_lt fun hlt => ?_, hst⟩
        rw [h.dying b k hst v hlt] at hvalid
        cases hvalid
  apply h.move hi hp hs.others rfl
  · exact valid_of_modifyEntry fun _ hv' => nomatch hv'
  · intro p' hp'
    obtain rfl := Option.some.inj hp'
    exact {
      writing := by simp [Pc.writing]
      writes := by simp
      victim := by
        intro q' x hx
        obtain ⟨-, rfl⟩ := Pc.evictIo.inj hx
        refine ⟨(counted_congr hs.status).mpr hcounted, ?_, ?_⟩
        · exact (hi.frames.valid b v hdead hvalid).1.trans_eq (hs.size b).symm
        · intro hsw
          have hold := (hs.swap b v).symm.trans hsw
          exact (h.loaded b v hdead hvalid hold).trans_eq (hs.addrDisk b v).symm
      file := by simp
      sector := by simp
      fetched := by
        intro v' hv' hsw
        have hold := (hs.swap _ v').symm.trans hsw
        exact ((h.ok _ _ hp).fetched v' hv' hold).trans_eq (hs.addrDisk _ v').symm }

/-! ## The steps that write to the swap area -/

/-- Only the place on the disk of one page has changed, which is not valid. -/
structure Changed (m : Memory) (x : SpaceId × Nat) (m' : Memory) : Prop where
  status : m'.status = m.status
  size : ∀ b, (m'.spaces b).freePageId = (m.spaces b).freePageId
  entry : ∀ r : SpaceId × Nat, r ≠ x → (m'.entry r.1 r.2).swap = (m.entry r.1 r.2).swap ∧
    (m'.entry r.1 r.2).addrDisk = (m.entry r.1 r.2).addrDisk
  valid : ∀ b v, (m'.entry b v).valid = (m.entry b v).valid

section Changed

variable {x r : SpaceId × Nat} {n : Nat} {o : Option Pc} {pc : ThreadId → Option Pc} {t : ThreadId}

omit [VmConfig] in
theorem Changed.trans {m m'' : Memory} (h : Changed m x m') (h' : Changed m' x m'') :
    Changed m x m'' where
  status := h'.status.trans h.status
  size b := (h'.size b).trans (h.size b)
  entry r hr := ⟨(h'.entry r hr).1.trans (h.entry r hr).1,
    (h'.entry r hr).2.trans (h.entry r hr).2⟩
  valid b v := (h'.valid b v).trans (h.valid b v)

omit [VmConfig] in
theorem changed_modifyEntry {m : Memory} {f : PageTableEntry → PageTableEntry}
    (hf : ∀ e, (f e).valid = e.valid) : Changed m x (m.modifyEntry x.1 x.2 f) where
  status := rfl
  size := modifyEntry_size f
  entry _ hr := by
    rw [Memory.entry_modifyEntry, if_neg]
    · exact ⟨rfl, rfl⟩
    · rintro ⟨h1, h2⟩
      exact hr (Prod.ext h1 h2)
  valid b v := Memory.field_modifyEntry PageTableEntry.valid hf

omit [VmConfig] in
theorem changed_takeOver {m : Memory} (me : SpaceId) (q : Fault) (y : Victim) :
    Changed m x (m.takeOver me q y) where
  status := rfl
  size := modifyEntry_size _
  entry _ _ := ⟨Memory.field_modifyEntry (f := .clearBitIo) PageTableEntry.swap fun _ => rfl,
    Memory.field_modifyEntry (f := .clearBitIo) PageTableEntry.addrDisk fun _ => rfl⟩
  valid _ _ := Memory.field_modifyEntry (f := .clearBitIo) PageTableEntry.valid fun _ => rfl

omit [VmConfig] in
/-- The claims of the other pages are as they were; what the page itself claims is in its
    entry, or what the running thread writes. -/
theorem Changed.claims {m : Memory} (h : Changed m x m') (hp : pc t = some p)
    (hpw : ∀ r n, p.writing = some (r, n) → r = x)
    (how : ∀ r n, o.bind Pc.writing = some (r, n) → r = x)
    (hnot : ∀ u p' n, u ≠ t → pc u = some p' → p'.writing ≠ some (x, n)) (hc : Counted m x) :
    Claims m' (Function.update pc t o) r n ↔ r ≠ x ∧ Claims m pc r n ∨
      r = x ∧ ((m'.entry x.1 x.2).swap = true ∧ (m'.entry x.1 x.2).addrDisk = n ∨
        o.bind Pc.writing = some (x, n)) := by
  by_cases hr : r = x
  · subst hr
    have hw : Writes (Function.update pc t o) r n ↔ o.bind Pc.writing = some (r, n) := by
      rw [writes_update]
      refine or_iff_right ?_
      rintro ⟨u, p', hu, hp', hw'⟩
      exact hnot u p' n hu hp' hw'
    unfold Claims
    rw [hw, and_iff_right ((counted_congr h.status).mpr hc)]
    simp
  · have hw : Writes (Function.update pc t o) r n ↔ Writes pc r n := by
      rw [writes_update]
      constructor
      · rintro (⟨u, p', -, hp', hw'⟩ | hw')
        · exact ⟨u, p', hp', hw'⟩
        · exact absurd (how r n hw') hr
      · rintro ⟨u, p', hp', hw'⟩
        refine Or.inl ⟨u, p', ?_, hp', hw'⟩
        rintro rfl
        obtain rfl := Option.some.inj (hp.symm.trans hp')
        exact hr (hpw r n hw')
    unfold Claims
    rw [counted_congr h.status, (h.entry r hr).1, (h.entry r hr).2, hw]
    simp [hr]

/-- A step that changes the place of one page on the disk. -/
theorem SwapInv.change (h : SwapInv T s) (hi : Inv T s) (hs : Changed s.memory x m')
    (hx : HeldAt (HoldsIo T) s.pc s.current x ∨ (s.memory.entry x.1 x.2).io = false)
    (hnot : (s.memory.entry x.1 x.2).valid = false) (hlt : x.2 < (s.memory.spaces x.1).freePageId)
    (hacc : Accounts m'.page_flags (Claims m' (Function.update s.pc s.current o)))
    (hnew : ∀ p ∈ o, SwapOk T m' s.current p) :
    SwapInv T ⟨m', s.current, Function.update s.pc s.current o⟩ := by
  apply h.advance hi _ hacc hnew
  · intro b v hd hv hsw
    rw [hs.status] at hd
    rw [hs.valid] at hv
    have hne : (b, v) ≠ x := by
      rintro rfl
      rw [hnot] at hv
      cases hv
    obtain ⟨hswap, haddr⟩ := hs.entry (b, v) hne
    rw [hswap] at hsw
    rw [haddr]
    exact h.loaded b v hd hv hsw
  · intro b v hd hsw
    rw [hs.status] at hd
    rw [hs.size]
    by_cases hne : (b, v) = x
    · rw [← hne] at hlt
      exact hlt
    · rw [(hs.entry (b, v) hne).1] at hsw
      exact h.swapped b v hd hsw
  · intro b k hst j hj
    rw [hs.status] at hst
    rw [hs.valid]
    exact h.dying b k hst j hj
  · exact {
      size := hs.size
      entry := by
        intro b v
        by_cases hne : (b, v) = x
        · right
          rw [← hne] at hx
          exact hx
        · exact Or.inl (hs.entry (b, v) hne)
      counted := fun r _ _ hr => (counted_congr hs.status).mpr hr }

end Changed

omit [VmConfig] in
/-- What a thread knows at the places of the access to the swap disk. -/
theorem swapOk_writeSwap {m : Memory} {t : ThreadId} {q : Fault} {x : Victim} {n : Nat} {ad : Int}
    {fresh : Bool} (hc : Counted m (x.space, x.vpn)) (hlt : x.vpn < (m.spaces x.space).freePageId)
    (hhidden : (m.entry x.space x.vpn).addrDisk = -1) (had : ad = n)
    (hfresh : fresh = false → (m.entry x.space x.vpn).swap = true)
    (hf : (m.entry (T.process t) q.vpn).swap = true → 0 ≤ (m.entry (T.process t) q.vpn).addrDisk)
    (hp : p = .writeSwap q x n ad fresh ∨ p = .wroteSwap q x n ad fresh) : SwapOk T m t p where
  writing r k hw := by
    have hr : p.writing = some ((x.space, x.vpn), n) := by
      rcases hp with rfl | rfl
      · rfl
      · rfl
    obtain ⟨rfl, -⟩ := Prod.mk.inj (Option.some.inj (hw.symm.trans hr))
    exact ⟨hc, hlt, hhidden⟩
  writes q' x' k ad' fresh' hw := by
    rcases hp with rfl | rfl
    all_goals
      rcases hw with hw | hw
      all_goals
        cases hw
        try exact ⟨had, hfresh⟩
  victim q' x' hx := by
    rcases hp with rfl | rfl
    · cases hx
    · cases hx
  file q' f ad' hf := by
    rcases hp with rfl | rfl
    · cases hf
    · cases hf
  sector q' k hn := by
    rcases hp with rfl | rfl
    · cases hn
    · cases hn
  fetched v hv := by
    have hq : p.fetched = some q.vpn := by
      rcases hp with rfl | rfl
      · rfl
      · rfl
    obtain rfl := Option.some.inj (hq.symm.trans hv)
    exact hf

section EvictPage

variable {q : Fault} {x : Victim}

/-- A page that is about to be evicted is being written by nobody. -/
theorem SwapInv.notWritten (hi : Inv T s) {r : SpaceId × Nat}
    (hio : (s.memory.entry r.1 r.2).io = false) {u : ThreadId} (hu : s.pc u = some p) {n : Nat} :
    p.writing ≠ some (r, n) := by
  intro hw
  have := (hi.ok u p hu).io r (Or.inr (Pc.evicting_of_writing hw))
  rw [hio] at this
  cases this

omit [VmConfig] in
theorem claims_unwritten {m : Memory} {pc : ThreadId → Option Pc} {r : SpaceId × Nat} {n : Nat}
    (hc : Counted m r) (hnot : ∀ u p', pc u = some p' → p'.writing ≠ some (r, n)) :
    Claims m pc r n ↔ (m.entry r.1 r.2).swap = true ∧ (m.entry r.1 r.2).addrDisk = n := by
  unfold Claims
  rw [and_iff_right hc]
  refine or_iff_left ?_
  rintro ⟨u, p', hp', hw'⟩
  exact hnot u p' hp' hw'

omit [VmConfig] in
/-- The end of `EvictPage` that changes nothing on the disk. -/
theorem sameSwap_takeOver (m : Memory) (me : SpaceId) (q : Fault) (x : Victim) :
    SameSwap m (m.takeOver me q x) where
  flags := rfl
  status := rfl
  size := modifyEntry_size _
  swap _ _ := Memory.field_modifyEntry (f := .clearBitIo) PageTableEntry.swap fun _ => rfl
  addrDisk _ _ := Memory.field_modifyEntry (f := .clearBitIo) PageTableEntry.addrDisk fun _ => rfl

omit [VmConfig] in
theorem sameSwap_setBitIo (m : Memory) (b : SpaceId) (v : Nat) :
    SameSwap m (m.modifyEntry b v .setBitIo) :=
  SameSwap.modifyEntry (f := .setBitIo) (fun _ => rfl) fun _ => rfl

omit [VmConfig] in
/-- The first sector that is clear. -/
theorem getFreePage_clear {m : Memory} {n : Nat} (h : m.GetFreePage = some n) :
    m.page_flags n = false := by
  have := List.find?_some h
  simpa using this

omit [VmConfig] in
theorem putPageSwap_free {m : Memory} {n : Nat} (h : m.GetFreePage = some n) :
    m.PutPageSwap (-1) =
      ({ m with page_flags := Function.update m.page_flags n true }, some n) := by
  unfold Memory.PutPageSwap
  rw [if_neg (by decide), h]

omit [VmConfig] in
theorem putPageSwap_full {m : Memory} (h : m.GetFreePage = none) :
    m.PutPageSwap (-1) = (m, none) := by
  unfold Memory.PutPageSwap
  rw [if_neg (by decide), h]

omit [VmConfig] in
theorem putPageSwap_sector {m : Memory} {ad : Int} (h : 0 ≤ ad) :
    m.PutPageSwap ad = (m, some ad.toNat) := by
  unfold Memory.PutPageSwap
  rw [if_pos h]

/-- The address on the disk is hidden. -/
def hidden (m : Memory) (x : Victim) : Memory :=
  (m.modifyEntry x.space x.vpn .setBitIo).modifyEntry x.space x.vpn (.setAddrDisk (-1))

omit [VmConfig] in
theorem changed_hidden (m : Memory) (x : Victim) :
    Changed m (x.space, x.vpn) (hidden m x) :=
  (changed_modifyEntry (x := (x.space, x.vpn)) (f := .setBitIo) fun _ => rfl).trans
    (changed_modifyEntry (x := (x.space, x.vpn)) (f := .setAddrDisk (-1)) fun _ => rfl)

omit [VmConfig] in
theorem hidden_entry (m : Memory) (x : Victim) :
    ((hidden m x).entry x.space x.vpn).addrDisk = -1 ∧
      ((hidden m x).entry x.space x.vpn).swap = (m.entry x.space x.vpn).swap := by
  unfold hidden
  rw [Memory.entry_modifyEntry_self, Memory.entry_modifyEntry_self]
  exact ⟨rfl, rfl⟩

/-- The page of the fault is not the one that is evicted. -/
theorem Inv.victim_ne (hi : Inv T s) (hp : s.pc s.current = some (.evictIo q x)) :
    (T.process s.current, q.vpn) ≠ (x.space, x.vpn) := by
  intro he
  obtain ⟨hb, hv⟩ := Prod.mk.inj he
  have hheld := (hi.ok _ _ hp).io (T.process s.current, q.vpn) (Or.inl ⟨rfl, rfl⟩)
  rw [hb, hv, ((hi.ok _ _ hp).victim q x rfl).2] at hheld
  cases hheld

/-- `EvictPage` gives the page a new sector. -/
theorem SwapInv.evictFree (h : SwapInv T s) (hi : Inv T s)
    (hp : s.pc s.current = some (.evictIo q x))
    (hsw : (s.memory.entry x.space x.vpn).swap = false) {n : Nat}
    (hn : s.memory.page_flags n = false) :
    SwapInv T ⟨{ hidden s.memory x with
        page_flags := Function.update s.memory.page_flags n true }, s.current,
      Function.update s.pc s.current (some (.writeSwap q x n n true))⟩ := by
  obtain ⟨hc, hlt, -⟩ := (h.ok _ _ hp).victim q x rfl
  obtain ⟨hvalid, hio⟩ := (hi.ok _ _ hp).victim q x rfl
  have hhide := changed_hidden s.memory x
  obtain ⟨haddr, hswap⟩ := hidden_entry s.memory x
  have hs : Changed s.memory (x.space, x.vpn) { hidden s.memory x with
      page_flags := Function.update s.memory.page_flags n true } :=
    ⟨hhide.status, hhide.size, hhide.entry, hhide.valid⟩
  have hold : ∀ k, ¬ Claims s.memory s.pc (x.space, x.vpn) k := by
    intro k hcl
    rw [claims_unwritten hc fun u p' hu => SwapInv.notWritten hi hio hu, hsw] at hcl
    cases hcl.1
  apply h.change hi hs (Or.inr hio) hvalid hlt
  · apply h.accounts.mark hn (x := (x.space, x.vpn))
    intro r k
    rw [hs.claims (o := some (.writeSwap q x n n true)) hp (fun _ _ hw => nomatch hw)
      (fun r' k' hw => (Prod.mk.inj (Option.some.inj hw)).1.symm)
      (fun u p' k' _ hu => SwapInv.notWritten hi hio hu) hc]
    constructor
    · rintro (⟨-, hcl⟩ | ⟨hr, ⟨hsw', -⟩ | hw⟩)
      · exact Or.inl hcl
      · -- It is not in the swap area yet.
        exact absurd (hsw'.symm.trans (hswap.trans hsw)) (by decide)
      · exact Or.inr ⟨hr, (Prod.mk.inj (Option.some.inj hw)).2.symm⟩
    · rintro (hcl | ⟨hr, rfl⟩)
      · left
        refine ⟨?_, hcl⟩
        rintro rfl
        exact hold k hcl
      · exact Or.inr ⟨hr, Or.inr rfl⟩
  · intro p' hp'
    obtain rfl := Option.some.inj hp'
    have hfresh : ∀ e : PageTableEntry, true = false → e.swap = true := fun _ h => nomatch h
    refine swapOk_writeSwap hc ?_ haddr (rfl : (n : Int) = n) (hfresh _) ?_ (Or.inl rfl)
    · exact hlt.trans_eq (hhide.size _).symm
    · intro hf
      obtain ⟨hswap', haddr'⟩ := hhide.entry _ (hi.victim_ne hp)
      exact ((h.ok _ _ hp).fetched q.vpn rfl (hswap'.symm.trans hf)).trans_eq haddr'.symm

/-- There is no sector for the page. -/
theorem SwapInv.evictFull (h : SwapInv T s) (hi : Inv T s)
    (hp : s.pc s.current = some (.evictIo q x))
    (hsw : (s.memory.entry x.space x.vpn).swap = false) :
    SwapInv T ⟨((hidden s.memory x).modifyEntry x.space x.vpn (.swapped (-1) true)).takeOver
        (T.process s.current) q x, s.current,
      Function.update s.pc s.current (some (.mapped q x.frame))⟩ := by
  obtain ⟨hc, hlt, -⟩ := (h.ok _ _ hp).victim q x rfl
  obtain ⟨hvalid, hio⟩ := (hi.ok _ _ hp).victim q x rfl
  have hs := ((changed_hidden s.memory x).trans (changed_modifyEntry (x := (x.space, x.vpn))
    (f := .swapped (-1) true) fun _ => rfl)).trans
      (changed_takeOver (T.process s.current) q x)
  have haddr : ((((hidden s.memory x).modifyEntry x.space x.vpn (.swapped (-1) true)).takeOver
      (T.process s.current) q x).entry x.space x.vpn).addrDisk = -1 := by
    rw [(sameSwap_takeOver _ _ _ _).addrDisk, Memory.entry_modifyEntry_self]
    rfl
  apply h.change hi hs (Or.inr hio) hvalid hlt
  · apply h.accounts.congr rfl
    intro r k
    rw [hs.claims (o := some (.mapped q x.frame)) hp (fun _ _ hw => nomatch hw)
      (fun _ _ hw => nomatch hw) (fun u p' k' _ hu => SwapInv.notWritten hi hio hu) hc]
    constructor
    · rintro (⟨-, hcl⟩ | ⟨-, ⟨-, had⟩ | hw⟩)
      · exact hcl
      · -- A hidden address is no sector.
        have hm : (-1 : Int) = k := haddr.symm.trans had
        omega
      · cases hw
    · intro hcl
      left
      refine ⟨?_, hcl⟩
      rintro rfl
      rw [claims_unwritten hc fun u p' hu => SwapInv.notWritten hi hio hu, hsw] at hcl
      cases hcl.1
  · intro p' hp'
    obtain rfl := Option.some.inj hp'
    apply SwapOk.ofMere rfl
    intro v hv hf
    obtain rfl := Option.some.inj hv
    obtain ⟨hswap', haddr'⟩ := hs.entry _ (hi.victim_ne hp)
    exact ((h.ok _ _ hp).fetched q.vpn rfl (hswap'.symm.trans hf)).trans_eq haddr'.symm

/-- `EvictPage` writes the page to the sector it has. -/
theorem SwapInv.evictAgain (h : SwapInv T s) (hi : Inv T s)
    (hp : s.pc s.current = some (.evictIo q x))
    (hsw : (s.memory.entry x.space x.vpn).swap = true) :
    SwapInv T ⟨hidden s.memory x, s.current, Function.update s.pc s.current
      (some (.writeSwap q x (s.memory.entry x.space x.vpn).addrDisk.toNat
        (s.memory.entry x.space x.vpn).addrDisk false))⟩ := by
  obtain ⟨hc, hlt, hpos⟩ := (h.ok _ _ hp).victim q x rfl
  obtain ⟨hvalid, hio⟩ := (hi.ok _ _ hp).victim q x rfl
  have hs := changed_hidden s.memory x
  obtain ⟨haddr, hswap⟩ := hidden_entry s.memory x
  have had : (s.memory.entry x.space x.vpn).addrDisk =
      ((s.memory.entry x.space x.vpn).addrDisk.toNat : Int) := (Int.toNat_of_nonneg (hpos hsw)).symm
  apply h.change hi hs (Or.inr hio) hvalid hlt
  · apply h.accounts.congr rfl
    intro r k
    rw [hs.claims (o := some (.writeSwap q x _ _ false)) hp (fun _ _ hw => nomatch hw)
      (fun r' k' hw => (Prod.mk.inj (Option.some.inj hw)).1.symm)
      (fun u p' k' _ hu => SwapInv.notWritten hi hio hu) hc]
    by_cases hr : r = (x.space, x.vpn)
    · subst hr
      rw [claims_unwritten hc fun u p' hu => SwapInv.notWritten hi hio hu]
      constructor
      · rintro (⟨hr, -⟩ | ⟨-, ⟨-, had'⟩ | hw⟩)
        · exact absurd rfl hr
        · have hm : (-1 : Int) = k := haddr.symm.trans had'
          omega
        · rw [← (Prod.mk.inj (Option.some.inj hw)).2]
          exact ⟨hsw, had⟩
      · rintro ⟨-, hk⟩
        refine Or.inr ⟨rfl, Or.inr ?_⟩
        show some ((x.space, x.vpn), (s.memory.entry x.space x.vpn).addrDisk.toNat) = _
        rw [show (s.memory.entry x.space x.vpn).addrDisk = k from hk, Int.toNat_natCast]
    · simp [hr]
  · intro p' hp'
    obtain rfl := Option.some.inj hp'
    refine swapOk_writeSwap hc ?_ haddr had (fun _ => hswap.trans hsw) ?_
      (Or.inl rfl)
    · exact hlt.trans_eq (hs.size _).symm
    · intro hf
      obtain ⟨hswap', haddr'⟩ := hs.entry _ (hi.victim_ne hp)
      exact ((h.ok _ _ hp).fetched q.vpn rfl (hswap'.symm.trans hf)).trans_eq haddr'.symm

omit [VmConfig] in
theorem swapOut_sector {me : SpaceId} {m : Memory} {ad : Int} (h : 0 ≤ ad) :
    swapOut me m q x ad false =
      (m.modifyEntry x.space x.vpn (.setAddrDisk (-1)), .writeSwap q x ad.toNat ad false) := by
  unfold swapOut
  dsimp only
  rw [putPageSwap_sector h]
  rfl

omit [VmConfig] in
theorem swapOut_free {me : SpaceId} {m : Memory} {n : Nat} (h : m.GetFreePage = some n) :
    swapOut me m q x (-1) true =
      ({ m.modifyEntry x.space x.vpn (.setAddrDisk (-1)) with
        page_flags := Function.update m.page_flags n true }, .writeSwap q x n n true) := by
  unfold swapOut
  dsimp only
  rw [putPageSwap_free (m := m.modifyEntry x.space x.vpn (.setAddrDisk (-1))) h]
  rfl

omit [VmConfig] in
theorem swapOut_full {me : SpaceId} {m : Memory} (h : m.GetFreePage = none) :
    swapOut me m q x (-1) true =
      (((m.modifyEntry x.space x.vpn (.setAddrDisk (-1))).modifyEntry x.space x.vpn
        (.swapped (-1) true)).takeOver me q x, .mapped q x.frame) := by
  unfold swapOut
  dsimp only
  rw [putPageSwap_full (m := m.modifyEntry x.space x.vpn (.setAddrDisk (-1))) h]

omit [VmConfig] in
theorem valid_of_takeOver {m : Memory} {me : SpaceId} (b : SpaceId) (v : Nat)
    (h : ((m.takeOver me q x).entry b v).valid = true) : (m.entry b v).valid = true :=
  valid_of_modifyEntry (f := .clearBitIo) (fun _ => id) b v h

/-- `EvictPage` from `setBitIo` on. -/
theorem SwapInv.evict (h : SwapInv T s) (hi : Inv T s)
    (hp : s.pc s.current = some (.evictIo q x)) :
    SwapInv T ⟨(Vm.evict (T.process s.current) (s.memory.modifyEntry x.space x.vpn .setBitIo)
        q x).1, s.current, Function.update s.pc s.current (some
      (Vm.evict (T.process s.current) (s.memory.modifyEntry x.space x.vpn .setBitIo) q x).2)⟩ := by
  obtain ⟨-, -, hpos⟩ := (h.ok _ _ hp).victim q x rfl
  have hfetched := (h.ok _ _ hp).fetched
  have hset := sameSwap_setBitIo s.memory x.space x.vpn
  have hvalid : ∀ b v, ((s.memory.modifyEntry x.space x.vpn .setBitIo).entry b v).valid = true →
      (s.memory.entry b v).valid = true :=
    valid_of_modifyEntry fun _ => id
  have hover : SwapInv T ⟨(s.memory.modifyEntry x.space x.vpn .setBitIo).takeOver
      (T.process s.current) q x, s.current,
      Function.update s.pc s.current (some (.mapped q x.frame))⟩ :=
    h.go hi hp (hset.trans (sameSwap_takeOver _ _ q x))
      (fun b v hv => hvalid b v (valid_of_takeOver b v hv)) rfl rfl hfetched
  unfold Vm.evict
  dsimp only
  split
  · split
    · exact h.go hi hp hset hvalid rfl rfl hfetched
    · exact hover
  · split
    · rename_i hsw
      rw [hset.swap] at hsw
      split
      · rw [hset.addrDisk, swapOut_sector (hpos hsw)]
        exact h.evictAgain hi hp hsw
      · exact hover
    · rename_i hsw
      rw [hset.swap, Bool.not_eq_true] at hsw
      cases hfree : (s.memory.modifyEntry x.space x.vpn .setBitIo).GetFreePage with
      | some n =>
          rw [swapOut_free hfree]
          exact h.evictFree hi hp hsw (getFreePage_clear hfree)
      | none =>
          rw [swapOut_full hfree]
          exact h.evictFull hi hp hsw

/-- `EvictPage` after the write to the swap area. -/
theorem SwapInv.wrote (h : SwapInv T s) (hi : Inv T s) {n : Nat} {ad : Int} {fresh : Bool}
    (hp : s.pc s.current = some (.wroteSwap q x n ad fresh)) :
    SwapInv T ⟨(s.memory.modifyEntry x.space x.vpn (.swapped ad fresh)).takeOver
        (T.process s.current) q x, s.current,
      Function.update s.pc s.current (some (.mapped q x.frame))⟩ := by
  have hok := h.ok _ _ hp
  obtain ⟨hc, hlt, hhidden⟩ := hok.writing (x.space, x.vpn) n rfl
  obtain ⟨had, hfresh⟩ := hok.writes q x n ad fresh (Or.inr rfl)
  -- The page is held, so that it is not valid.
  have hio : (s.memory.entry x.space x.vpn).io = true :=
    (hi.ok _ _ hp).io (x.space, x.vpn) (Or.inr rfl)
  have hheld : HeldAt (HoldsIo T) s.pc s.current (x.space, x.vpn) := heldAt_of hp (Or.inr rfl)
  have hvalid : (s.memory.entry x.space x.vpn).valid = false := by
    rw [Bool.eq_false_iff]
    intro hv
    rw [(hi.frames.valid _ _ hc.notDead hv).2.1] at hio
    cases hio
  have hs := (changed_modifyEntry (m := s.memory) (x := (x.space, x.vpn)) (f := .swapped ad fresh)
    fun e => by cases fresh <;> rfl).trans
      (changed_takeOver (T.process s.current) q x)
  have hentry : (((s.memory.modifyEntry x.space x.vpn (.swapped ad fresh)).takeOver
      (T.process s.current) q x).entry x.space x.vpn).swap = true ∧
      (((s.memory.modifyEntry x.space x.vpn (.swapped ad fresh)).takeOver
        (T.process s.current) q x).entry x.space x.vpn).addrDisk = ad := by
    rw [(sameSwap_takeOver _ _ _ _).swap, (sameSwap_takeOver _ _ _ _).addrDisk,
      Memory.entry_modifyEntry_self]
    cases fresh with
    | true => exact ⟨rfl, rfl⟩
    | false => exact ⟨hfresh rfl, rfl⟩
  apply h.change hi hs (Or.inl hheld) hvalid hlt
  · apply h.accounts.congr rfl
    intro r k
    -- Nobody else writes it.
    have hother : ∀ u p' k', u ≠ s.current → s.pc u = some p' →
        p'.writing ≠ some ((x.space, x.vpn), k') := by
      intro u p' k' hu hp' hw
      exact hu (hi.io u _ _ (heldAt_of hp' (Or.inr (Pc.evicting_of_writing hw))) hheld)
    rw [hs.claims (o := some (.mapped q x.frame)) hp
      (fun r' k' hw => (Prod.mk.inj (Option.some.inj hw)).1.symm) (fun _ _ hw => nomatch hw)
      hother hc]
    -- The claim passes from the thread to the entry.
    by_cases hr : r = (x.space, x.vpn)
    · subst hr
      constructor
      · rintro (⟨hr, -⟩ | ⟨-, ⟨-, hk⟩ | hw⟩)
        · exact absurd rfl hr
        · have hn : n = k := by
            have := hentry.2.symm.trans hk
            omega
          exact ⟨hc, Or.inr ⟨_, _, hp, by rw [← hn]; rfl⟩⟩
        · cases hw
      · rintro ⟨-, ⟨-, hk⟩ | ⟨u, p', hp', hw⟩⟩
        · have hm : (-1 : Int) = k := hhidden.symm.trans hk
          omega
        · by_cases hu : u = s.current
          · rw [hu] at hp'
            obtain rfl := Option.some.inj (hp.symm.trans hp')
            obtain rfl := (Prod.mk.inj (Option.some.inj hw)).2
            exact Or.inr ⟨rfl, Or.inl ⟨hentry.1, hentry.2.trans had⟩⟩
          · exact absurd hw (hother u p' k hu hp')
    · simp [hr]
  · intro p' hp'
    obtain rfl := Option.some.inj hp'
    apply SwapOk.ofMere rfl
    intro v hv hf
    obtain rfl := Option.some.inj hv
    have hne : (T.process s.current, q.vpn) ≠ (x.space, x.vpn) :=
      ((hi.ok _ _ hp).apart q.vpn (x.space, x.vpn) rfl rfl).symm
    obtain ⟨hswap', haddr'⟩ := hs.entry _ hne
    exact (hok.fetched q.vpn rfl (hswap'.symm.trans hf)).trans_eq haddr'.symm

end EvictPage

/-! ## The other steps -/

/-- The end of `PageFault`. -/
theorem SwapInv.finish (h : SwapInv T s) (hi : Inv T s) {q : Fault} {f : Nat}
    (hp : s.pc s.current = some (.mapped q f)) :
    SwapInv T ⟨((s.memory.fill f q.buffer).modifyEntry (T.process s.current) q.vpn
        (.loaded f)).modifyFrame f fun fr => { fr with locked := false },
      s.current, Function.update s.pc s.current none⟩ := by
  have hlive := (hi.ok _ _ hp).live rfl
  have hs : SameSwap s.memory (((s.memory.fill f q.buffer).modifyEntry (T.process s.current) q.vpn
      (.loaded f)).modifyFrame f fun fr => { fr with locked := false }) := by
    have hset : SameSwap (s.memory.fill f q.buffer) ((s.memory.fill f q.buffer).modifyEntry
        (T.process s.current) q.vpn (.loaded f)) :=
      SameSwap.modifyEntry (fun _ => rfl) fun _ => rfl
    exact ⟨hset.flags, hset.status, hset.size, hset.swap, hset.addrDisk⟩
  -- Only the page of the fault becomes valid.
  have hvalid : ∀ b v, ((((s.memory.fill f q.buffer).modifyEntry (T.process s.current) q.vpn
      (.loaded f)).modifyFrame f fun fr => { fr with locked := false }).entry b v).valid = true →
      (b, v) = (T.process s.current, q.vpn) ∨ (s.memory.entry b v).valid = true := by
    intro b v hv
    rw [Memory.modifyFrame_entry, Memory.entry_modifyEntry] at hv
    split at hv
    · rename_i he
      exact Or.inl (Prod.ext he.1 he.2)
    · exact Or.inr hv
  apply h.advance (o := none) hi hs.keeps
  · apply h.accounts.congr hs.flags
    intro r n
    apply claims_congr hs
    apply writes_update_same
    rw [hp]
    rfl
  · intro p' hp'
    cases hp'
  · intro b v hd hv hsw
    rw [hs.status] at hd
    rw [hs.swap] at hsw
    rw [hs.addrDisk]
    rcases hvalid b v hv with he | hv
    · obtain ⟨rfl, rfl⟩ := Prod.mk.inj he
      exact (h.ok _ _ hp).fetched q.vpn rfl hsw
    · exact h.loaded b v hd hv hsw
  · intro b v hd hsw
    rw [hs.status] at hd
    rw [hs.swap] at hsw
    rw [hs.size]
    exact h.swapped b v hd hsw
  · intro b k hst j hj
    rw [hs.status] at hst
    rw [Bool.eq_false_iff]
    intro hv
    rcases hvalid b j hv with he | hv
    · rw [(Prod.mk.inj he).1, hlive] at hst
      cases hst
    · rw [h.dying b k hst j hj] at hv
      cases hv

omit [VmConfig] in
/-- With the page `i` the destructor has dealt with one page more. -/
theorem counted_pass {m : Memory} {b : SpaceId} {i : Nat} (hst : m.status b = .dying i)
    (hst' : ∀ b', m'.status b' = if b' = b then .dying (i + 1) else m.status b')
    (r : SpaceId × Nat) : Counted m' r ↔ Counted m r ∧ r ≠ (b, i) := by
  obtain ⟨b', v⟩ := r
  unfold Counted
  rw [hst' b']
  by_cases hb : b' = b
  · subst hb
    have hiff : (b', v) = (b', i) ↔ v = i := by simp
    simp only [if_pos, hst, Status.dying.injEq, reduceCtorEq, false_or, ne_eq, hiff]
    constructor
    · rintro ⟨k, hk, rfl⟩
      exact ⟨⟨i, by omega, rfl⟩, by omega⟩
    · rintro ⟨⟨k, hk, rfl⟩, hne⟩
      exact ⟨i + 1, by omega, rfl⟩
  · have hne : (b', v) ≠ (b, i) := fun he => hb (Prod.mk.inj he).1
    simp [hb]

/-- The destructor goes on to the next page, when nobody is writing the page `i`. -/
theorem SwapInv.pass (h : SwapInv T s) (hi : Inv T s) {b : SpaceId} {i : Nat}
    (hp : s.pc s.current = some p) (hdes : p.destroys = some (b, i)) {m₁ : Memory}
    (hs : SameSwap s.memory m₁)
    (hvalid : ∀ b v, (m₁.entry b v).valid = true → (s.memory.entry b v).valid = true)
    (hinvalid : ∀ j ≤ i, (m₁.entry b j).valid = false)
    (hnot : ∀ n, ¬ Writes s.pc (b, i) n) :
    SwapInv T ⟨next.passPage m₁ b i, s.current,
      Function.update s.pc s.current (some (.destroyPage b (i + 1)))⟩ := by
  obtain ⟨hst, -⟩ := (hi.ok _ p hp).destroys b i hdes
  have hdead : s.memory.status b ≠ .dead := by
    rw [hst]
    simp
  have hc : Counted s.memory (b, i) := Or.inr ⟨i, Nat.le_refl i, hst⟩
  have hst' : ∀ b', (next.passPage m₁ b i).status b' =
      if b' = b then .dying (i + 1) else s.memory.status b' := by
    intro b'
    rw [← hs.status]
    exact Function.update_apply _ _ _ _
  have hcounted := counted_pass hst hst'
  have hspaces : (next.passPage m₁ b i).spaces = m₁.spaces := by
    unfold next.passPage Memory.ReleasePageSwap
    dsimp only
    split
    · rfl
    · rfl
  have hentry : ∀ b' v, (next.passPage m₁ b i).entry b' v = m₁.entry b' v := by
    intro b' v
    unfold Memory.entry
    rw [hspaces]
  have hdead' : ∀ b', (next.passPage m₁ b i).status b' ≠ .dead → s.memory.status b' ≠ .dead := by
    intro b' hd
    rw [hst'] at hd
    split at hd
    · rename_i he
      rw [he]
      exact hdead
    · exact hd
  have hsize : ∀ b', ((next.passPage m₁ b i).spaces b').freePageId =
      (s.memory.spaces b').freePageId := by
    intro b'
    rw [hspaces]
    exact hs.size b'
  have hw : p.writing = none := by
    cases p with
    | destroyPage | destroyWrite | destroyWrote => rfl
    | _ => cases hdes
  have hwrites : ∀ r n, Writes (Function.update s.pc s.current
      (some (.destroyPage b (i + 1)))) r n ↔ Writes s.pc r n := by
    intro r n
    apply writes_update_same
    rw [hp]
    exact hw.symm
  -- The page gives back the sector it claims.
  have hclaims : ∀ r n, Claims (next.passPage m₁ b i) (Function.update s.pc s.current
      (some (.destroyPage b (i + 1)))) r n ↔ Claims s.memory s.pc r n ∧ r ≠ (b, i) := by
    intro r n
    unfold Claims
    rw [hcounted, hwrites, hentry, hs.swap, hs.addrDisk]
    exact and_right_comm
  have hown : ∀ n, Claims s.memory s.pc (b, i) n ↔ (s.memory.entry b i).swap = true ∧
      (s.memory.entry b i).addrDisk = n := by
    intro n
    apply claims_unwritten hc
    intro u p' hu hw'
    exact hnot n ⟨u, p', hu, hw'⟩
  apply h.advance hi
  · exact {
      size := hsize
      entry := by
        intro b' v
        rw [hentry]
        exact Or.inl ⟨hs.swap b' v, hs.addrDisk b' v⟩
      counted := by
        intro r n hwr hr
        refine (hcounted r).mpr ⟨hr, ?_⟩
        rintro rfl
        exact hnot n hwr }
  · have hflags : (next.passPage m₁ b i).page_flags =
        if (s.memory.entry b i).swap = true ∧ (s.memory.entry b i).addrDisk ≥ 0 then
          Function.update s.memory.page_flags (s.memory.entry b i).addrDisk.toNat false
        else s.memory.page_flags := by
      unfold next.passPage Memory.ReleasePageSwap
      dsimp only
      rw [hs.swap, hs.addrDisk]
      split
      · rw [← hs.flags]
      · exact hs.flags
    rw [hflags]
    split
    · rename_i hsw
      have hnat := Int.toNat_of_nonneg hsw.2
      apply h.accounts.clear (x := (b, i)) ((hown _).mpr ⟨hsw.1, hnat.symm⟩)
      · intro k hk
        have := ((hown k).mp hk).2
        omega
      · exact hclaims
    · rename_i hsw
      apply h.accounts.congr rfl
      intro r n
      rw [hclaims]
      refine ⟨And.left, fun hcl => ⟨hcl, ?_⟩⟩
      rintro rfl
      obtain ⟨hsw', had⟩ := (hown n).mp hcl
      exact hsw ⟨hsw', by omega⟩
  · intro p' hp'
    obtain rfl := Option.some.inj hp'
    exact SwapOk.ofMere rfl (by simp [Pc.fetched])
  · intro b' v hd hv hsw
    rw [hentry] at hv hsw ⊢
    rw [hs.swap] at hsw
    rw [hs.addrDisk]
    exact h.loaded b' v (hdead' b' hd) (hvalid b' v hv) hsw
  · intro b' v hd hsw
    rw [hentry, hs.swap] at hsw
    rw [hsize]
    exact h.swapped b' v (hdead' b' hd) hsw
  · intro b' k hk j hj
    rw [hst'] at hk
    rw [hentry]
    split at hk
    · rename_i he
      obtain rfl := Status.dying.inj hk
      rw [he]
      exact hinvalid j (by omega)
    · rw [Bool.eq_false_iff]
      intro hv
      have := hvalid b' j hv
      rw [h.dying b' k hk j hj] at this
      cases this

/-- The end of the destructor. -/
theorem SwapInv.delete (h : SwapInv T s) (hi : Inv T s) {b : SpaceId} {i : Nat}
    (hp : s.pc s.current = some (.destroyPage b i))
    (hlt : (s.memory.spaces b).freePageId ≤ i) :
    SwapInv T ⟨{ s.memory with status := Function.update s.memory.status b .dead }, s.current,
      Function.update s.pc s.current none⟩ := by
  obtain ⟨hst, -⟩ := (hi.ok _ _ hp).destroys b i rfl
  have hdead : s.memory.status b ≠ .dead := by
    rw [hst]
    simp
  -- The pages that the destructor has not passed have never been used.
  have hnone : ∀ v n, ¬ Claims s.memory s.pc (b, v) n := by
    rintro v n ⟨hc, hcl⟩
    have hv : i ≤ v := by
      rcases hc with hc | ⟨k, hk, hc⟩
      · rw [show _ = _ from hst] at hc
        cases hc
      · obtain rfl := Status.dying.inj (hst.symm.trans hc)
        exact hk
    have hsize : v < (s.memory.spaces b).freePageId := by
      rcases hcl with ⟨hsw, -⟩ | ⟨u, p', hp', hw⟩
      · exact h.swapped b v hdead hsw
      · exact ((h.ok u p' hp').writing _ _ hw).2.1
    omega
  have hcounted : ∀ r : SpaceId × Nat, r.1 ≠ b → (Counted { s.memory with
      status := Function.update s.memory.status b .dead } r ↔ Counted s.memory r) := by
    intro r hr
    unfold Counted
    dsimp only
    rw [Function.update_of_ne hr]
  have hnot : ∀ r : SpaceId × Nat, r.1 = b → ¬ Counted { s.memory with
      status := Function.update s.memory.status b .dead } r := by
    intro r hr hc
    apply hc.notDead
    rw [hr]
    exact Function.update_self _ _ _
  have hdead' : ∀ b', Function.update s.memory.status b .dead b' ≠ .dead →
      s.memory.status b' ≠ .dead := by
    intro b' hd
    by_cases hb : b' = b
    · rw [hb]
      exact hdead
    · rwa [Function.update_of_ne hb] at hd
  have hwrites : ∀ r n, Writes (Function.update s.pc s.current none) r n ↔ Writes s.pc r n := by
    intro r n
    apply writes_update_same
    rw [hp]
    rfl
  apply h.advance (o := none) hi
  · exact {
      size := fun _ => rfl
      entry := fun _ _ => Or.inl ⟨rfl, rfl⟩
      counted := by
        intro r n hw hr
        by_cases hb : r.1 = b
        · obtain ⟨b', v⟩ := r
          obtain rfl : b' = b := hb
          exact absurd ⟨hr, Or.inr hw⟩ (hnone v n)
        · exact (hcounted r hb).mpr hr }
  · apply h.accounts.congr rfl
    intro r n
    by_cases hb : r.1 = b
    · refine iff_of_false (fun hcl => hnot r hb hcl.1) ?_
      obtain ⟨b', v⟩ := r
      obtain rfl : b' = b := hb
      exact hnone v n
    · unfold Claims
      rw [hcounted r hb, hwrites]
      rfl
  · intro p' hp'
    cases hp'
  · exact fun b' v hd hv hsw => h.loaded b' v (hdead' b' hd) hv hsw
  · exact fun b' v hd hsw => h.swapped b' v (hdead' b' hd) hsw
  · intro b' k hk j hj
    have hne : b' ≠ b := by
      rintro rfl
      exact Status.noConfusion ((Function.update_self _ _ _).symm.trans hk)
    exact h.dying b' k ((Function.update_of_ne hne _ _).symm.trans hk) j hj

/-! ## The steps of the system -/

/-- What may go wrong does not at this step: the destructor deals with a page that an
    eviction is writing to the swap area. -/
def Quiet (s : System) (move : Move) : Prop :=
  move = .advance → ∀ b i,
    s.pc s.current = some (.destroyPage b i) ∨ s.pc s.current = some (.destroyWrote b i) →
      ∀ n, ¬ Writes s.pc (b, i) n

/-- A step of a thread in the routines. -/
theorem SwapInv.next (h : SwapInv T s) (hi : Inv T s) (hclock : ClockOk s)
    (hc : Careful s .advance) (hq : Quiet s .advance) (hp : s.pc s.current = some p)
    {o : Option Pc} (hr : Next (T.process s.current) s.memory p m' o)
    (hi' : Inv T ⟨m', s.current, Function.update s.pc s.current o⟩) :
    SwapInv T ⟨m', s.current, Function.update s.pc s.current o⟩ := by
  have hok := h.ok _ p hp
  have hsame := SameSwap.refl s.memory
  have hid : ∀ b v, (s.memory.entry b v).valid = true → (s.memory.entry b v).valid = true :=
    fun _ _ => id
  -- The pages that the destructor has dealt with after the step.
  have hpassed : ∀ b i, o = some (.destroyPage b (i + 1)) →
      ∀ j ≤ i, (m'.entry b j).valid = false := by
    rintro b i rfl j hj
    have hp' : Function.update s.pc s.current (some (Pc.destroyPage b (i + 1))) s.current =
        some (.destroyPage b (i + 1)) := Function.update_self _ _ _
    exact ((hi'.ok _ _ hp').destroys b (i + 1) rfl).2 j (by omega)
  have hentry : ∀ {m₁ b i}, (next.passPage m₁ b i).spaces = m₁.spaces := by
    intro m₁ b i
    unfold next.passPage Memory.ReleasePageSwap
    dsimp only
    split
    · rfl
    · rfl
  have hreleased : ∀ {f b m₁}, Released s.memory f b m₁ → SameSwap s.memory m₁ ∧
      ∀ b v, (m₁.entry b v).valid = true → (s.memory.entry b v).valid = true := by
    intro f b m₁ hrel
    constructor
    · refine ⟨hrel.flags, hrel.status, hrel.size, fun b' v => ?_, fun b' v => ?_⟩
      all_goals
        rw [hrel.entry]
        split
        · rename_i he
          rw [he.1, he.2]
          rfl
        · rfl
    · intro b' v hv
      rw [hrel.entry] at hv
      split at hv
      · cases hv
      · exact hv
  cases hr with
  | wait hio => exact h.go hi hp hsame hid rfl rfl hok.fetched
  | present hvalid => exact h.return hi hp rfl hsame hid
  | load hio hvalid => exact h.load hi hp
  | retry => exact h.go hi hp hsame hid rfl rfl hok.fetched
  | hidden had => exact h.go hi hp hsame hid rfl rfl hok.fetched
  | @sector q had =>
      apply h.move (o := some _) hi hp hsame rfl hid
      intro p' hp'
      obtain rfl := Option.some.inj hp'
      exact {
        writing := by simp [Pc.writing]
        writes := by simp
        victim := by simp
        file := by simp
        sector := by
          intro q' n hn
          obtain ⟨rfl, rfl⟩ := Pc.readSwap.inj hn
          rfl
        fetched := by simp [Pc.fetched] }
  | look => exact h.go hi hp hsame hid rfl rfl hok.fetched
  | @readFile q f ad had =>
      apply h.go hi hp hsame hid rfl rfl
      intro v hv _
      obtain rfl := Option.some.inj hv
      rwa [← hok.file q f ad rfl]
  | @readSwap q sector hpos hlt =>
      apply h.go hi hp hsame hid rfl rfl
      intro v hv _
      obtain rfl := Option.some.inj hv
      rwa [← hok.sector q sector rfl]
  | read => exact h.go hi hp hsame hid rfl rfl hok.fetched
  | take hl hfree => exact h.go hi hp hsame.others hid rfl rfl hok.fetched
  | noFree hl => exact h.go hi hp hsame hid rfl rfl hok.fetched
  | finish hlocked hfree => exact h.finish hi hp
  | pass hb hbusy =>
      exact h.go hi hp (SameSwap.modifyEntry (f := .clearBitU) (fun _ => rfl) fun _ => rfl)
        (valid_of_modifyEntry (f := .clearBitU) fun _ => id) rfl rfl hok.fetched
  | @around q loc i b hb hbusy =>
      have hs : SameSwap s.memory
          (s.memory.modifyEntry b (s.memory.tpr loc).virtualPage .clearBitU) :=
        SameSwap.modifyEntry (f := .clearBitU) (fun _ => rfl) fun _ => rfl
      exact h.go hi hp hs.others (valid_of_modifyEntry (f := .clearBitU) fun _ => id) rfl rfl
        hok.fetched
  | stop hb hd hbusy =>
      have hfree := (hc rfl).2 _ _ _ _ hp hb hbusy
      simp only [Memory.busy, Bool.or_eq_false_iff] at hbusy
      exact h.found hi hp (hclock _ _ _ _ hp) hfree hbusy.2 hb rfl
  | goOn => exact h.go hi hp hsame hid rfl rfl hok.fetched
  | evictWait hio => exact h.go hi hp hsame hid rfl rfl hok.fetched
  | evict hd hio => exact h.evict hi hp
  | evictAgain => exact absurd rfl ((hi.ok _ _ hp).noYield _ _)
  | writeFile had => exact h.go hi hp hsame.others hid rfl rfl hok.fetched
  | wroteFile hd =>
      exact h.go hi hp (sameSwap_takeOver _ _ _ _) (fun b v hv => valid_of_takeOver b v hv) rfl rfl
        hok.fetched
  | @writeSwap q x n ad fresh hlt =>
      have hs : SameSwap s.memory { s.memory with
          swap_disk := Function.update s.memory.swap_disk n (s.memory.frame x.frame) } :=
        hsame.others
      apply h.move (o := some _) hi hp hs rfl hid
      intro p' hp'
      obtain rfl := Option.some.inj hp'
      obtain ⟨hcounted, hsize, hhidden⟩ := hok.writing (x.space, x.vpn) n rfl
      obtain ⟨had, hfresh⟩ := hok.writes q x n ad fresh (Or.inl rfl)
      exact swapOk_writeSwap hcounted hsize hhidden had hfresh (hok.fetched q.vpn rfl) (Or.inr rfl)
  | wroteSwap hd => exact h.wrote hi hp
  | destroyFile hlt hvalid _ _ => exact h.go hi hp hsame hid rfl rfl hok.fetched
  | @release b i m₁ hlt hvalid _ hm₁ =>
      obtain ⟨b', hrel⟩ := released_of_remove hm₁
      obtain ⟨hs, hle⟩ := hreleased hrel
      apply h.pass hi hp rfl hs hle _ (hq rfl b i (Or.inl hp))
      intro j hj
      have := hpassed b i rfl j hj
      unfold Memory.entry at this ⊢
      rwa [hentry] at this
  | @skip b i hlt hvalid =>
      apply h.pass hi hp rfl hsame hid _ (hq rfl b i (Or.inl hp))
      intro j hj
      have := hpassed b i rfl j hj
      unfold Memory.entry at this ⊢
      rwa [hentry] at this
  | delete hlt => exact h.delete hi hp hlt
  | destroyWrite had => exact h.go hi hp hsame.others hid rfl rfl hok.fetched
  | @destroyWrote b i m₁ hm₁ =>
      obtain ⟨b', hrel⟩ := released_of_remove hm₁
      obtain ⟨hs, hle⟩ := hreleased hrel
      apply h.pass hi hp rfl hs hle _ (hq rfl b i (Or.inr hp))
      intro j hj
      have := hpassed b i rfl j hj
      unfold Memory.entry at this ⊢
      rwa [hentry] at this

omit [VmConfig] in
/-- A step of user code. -/
theorem SwapInv.user (h : SwapInv T s) (hs : SameSwap s.memory m')
    (hvalid : ∀ b v, (m'.entry b v).valid = (s.memory.entry b v).valid) :
    SwapInv T { s with memory := m' } where
  accounts := h.accounts.congr hs.flags fun r n => claims_congr hs Iff.rfl
  ok t p hp := by
    have hok := h.ok t p hp
    exact {
      writing := by
        intro r n hw
        rw [counted_congr hs.status, hs.size, hs.addrDisk]
        exact hok.writing r n hw
      writes := by
        intro q x n ad fresh hw
        rw [hs.swap]
        exact hok.writes q x n ad fresh hw
      victim := by
        intro q x hx
        rw [counted_congr hs.status, hs.size, hs.addrDisk, hs.swap]
        exact hok.victim q x hx
      file := by
        intro q f ad hf
        rw [hs.addrDisk]
        exact hok.file q f ad hf
      sector := by
        intro q n hn
        rw [hs.addrDisk]
        exact hok.sector q n hn
      fetched := by
        intro v hv
        rw [hs.addrDisk, hs.swap]
        exact hok.fetched v hv }
  loaded b v := by
    rw [hs.status, hvalid, hs.swap, hs.addrDisk]
    exact h.loaded b v
  swapped b v := by
    rw [hs.status, hs.swap, hs.size]
    exact h.swapped b v
  dying b k hk j hj := by
    rw [hs.status] at hk
    rw [hvalid]
    exact h.dying b k hk j hj

theorem translate_sameSwap {m m' : Memory} {me : SpaceId} {virtAddr size a : Nat} {writing : Bool}
    (h : m.Translate me virtAddr size writing = some (m', a)) : SameSwap m m' := by
  obtain ⟨rfl, -, -, -⟩ := translate_cases h
  cases writing with
  | true => exact SameSwap.modifyEntry (f := .accessed true) (fun _ => rfl) fun _ => rfl
  | false => exact SameSwap.modifyEntry (f := .accessed false) (fun _ => rfl) fun _ => rfl

/-- A thread enters a routine. -/
theorem SwapInv.enter (h : SwapInv T s) (hi : Inv T s) (hnone : s.pc s.current = none)
    {st : SpaceId → Status} (hst : ∀ b, st b = s.memory.status b ∨
      s.memory.status b = .live ∧ st b = .dying 0)
    (hm : p'.mere) (hf : p'.fetched = none) :
    SwapInv T ⟨{ s.memory with status := st }, s.current,
      Function.update s.pc s.current (some p')⟩ := by
  have hw : p'.writing = none := by
    cases p' with
    | writeSwap | wroteSwap => cases hm
    | _ => rfl
  have hcounted : ∀ r, Counted { s.memory with status := st } r ↔ Counted s.memory r := by
    intro r
    unfold Counted
    rcases hst r.1 with he | ⟨hlive, hdying⟩
    · dsimp only
      rw [he]
    · refine iff_of_true (Or.inr ⟨0, Nat.zero_le _, hdying⟩) (Or.inl hlive)
  have hdead : ∀ b, st b ≠ .dead → s.memory.status b ≠ .dead := by
    intro b hd
    rcases hst b with he | ⟨hlive, -⟩
    · rwa [← he]
    · rw [hlive]
      simp
  apply h.advance (o := some p') hi
  · exact {
      size := fun _ => rfl
      entry := fun _ _ => Or.inl ⟨rfl, rfl⟩
      counted := fun r _ _ hr => (hcounted r).mpr hr }
  · apply h.accounts.congr rfl
    intro r n
    have hwrites : Writes (Function.update s.pc s.current (some p')) r n ↔ Writes s.pc r n := by
      apply writes_update_same
      rw [hnone]
      exact hw
    unfold Claims
    rw [hcounted, hwrites]
    rfl
  · intro p hp
    obtain rfl := Option.some.inj hp
    apply SwapOk.ofMere hm
    intro v hv
    rw [hf] at hv
    cases hv
  · exact fun b v hd => h.loaded b v (hdead b hd)
  · exact fun b v hd => h.swapped b v (hdead b hd)
  · intro b k hk j hj
    rcases hst b with he | ⟨-, hdying⟩
    · exact h.dying b k (he.symm.trans hk) j hj
    · obtain rfl := Status.dying.inj (hdying.symm.trans hk)
      omega

theorem SwapInv.step {s s' : System} {move : Move} (h : SwapInv T s) (hi : Inv T s)
    (hclock : ClockOk s) (hc : Careful s move) (hq : Quiet s move) (hs : Step T s move s')
    (hi' : Inv T s') : SwapInv T s' := by
  cases hs with
  | switch hsw => exact ⟨h.accounts, h.ok, h.loaded, h.swapped, h.dying⟩
  | load hu hm' =>
      obtain ⟨a, ht, -, -⟩ := readMem_cases hm'
      exact h.user (translate_sameSwap ht) (translate_sameFrames ht).valid
  | store hu hm' =>
      obtain ⟨m₁, a, ht, -, rfl⟩ := writeMem_cases hm'
      exact h.user (translate_sameSwap ht).others (translate_sameFrames ht).valid
  | fault hu hvalid hallowed =>
      obtain ⟨-, hnone, -⟩ := System.inUserCode_iff.mp hu
      exact h.enter hi hnone (fun _ => Or.inl rfl) rfl rfl
  | @destroy b hmem hnone hlive hended =>
      apply h.enter hi hnone _ rfl rfl
      intro b'
      by_cases hb : b' = b
      · rw [hb]
        exact Or.inr ⟨hlive, Function.update_self _ _ _⟩
      · exact Or.inl (Function.update_of_ne hb _ _)
  | advance hp hr => exact h.next hi hclock hc hq hp hr hi'

/-! ## The runs -/

theorem Booted.swapInv {s : System} (h : Booted s) : SwapInv T s where
  accounts := {
    marked := by
      intro n
      rw [h.flags]
      refine iff_of_false (by simp) ?_
      rintro ⟨r, -, ⟨hsw, -⟩ | ⟨t, p, hp, -⟩⟩
      · rw [(h.entry r.1 r.2).2.2] at hsw
        cases hsw
      · rw [h.idle] at hp
        cases hp
    one := by
      rintro r r' n ⟨-, ⟨hsw, -⟩ | ⟨t, p, hp, -⟩⟩
      · rw [(h.entry r.1 r.2).2.2] at hsw
        cases hsw
      · rw [h.idle] at hp
        cases hp }
  ok t p hp := by
    rw [h.idle] at hp
    cases hp
  loaded b v _ hv := by
    rw [(h.entry b v).1] at hv
    cases hv
  swapped b v _ hsw := by
    rw [(h.entry b v).2.2] at hsw
    cases hsw
  dying b k hk := by
    rw [h.live] at hk
    cases hk

theorem swapInv_of_run {s₀ s : System} {tr : Moves} (h₀ : Booted s₀) (hr : Run (step T) s₀ tr s)
    (hc : ∀ x ∈ tr, Careful x.1 x.2 ∧ Quiet x.1 x.2) : Inv T s ∧ SwapInv T s := by
  suffices h : Inv T s ∧ ClockOk s ∧ SwapInv T s from ⟨h.1, h.2.2⟩
  refine hr.invariant_of_steps (I := fun _ s => Inv T s ∧ ClockOk s ∧ SwapInv T s)
    (C := fun s move => Careful s move ∧ Quiet s move) ?_ ?_ hc
  · refine ⟨h₀.inv, fun t q loc i hp => ?_, h₀.swapInv⟩
    rw [h₀.idle] at hp
    cases hp
  · intro _ s a s' ⟨hi, hclock, hsw⟩ ⟨hca, hq⟩ hs
    have hs' := step_cases hs
    have hi' := hi.step hclock hca hs'
    exact ⟨hi', hclock.step hs', hsw.step hi hclock hca hq hs' hi'⟩

/-- What is said of the bitmap: a sector is allocated when one page names it, or when an
    eviction for a live address space is writing it. -/
def SwapLaw (T : Threads) (s : System) : Prop :=
  ∀ n, s.memory.page_flags n = true ↔ (∃! r, Names s.memory r n) ∨
    ∃ t p r, s.pc t = some p ∧ p.writing = some (r, n) ∧ s.memory.status (T.process t) = .live

theorem SwapInv.law (h : SwapInv T s) (hi : Inv T s) : SwapLaw T s := by
  intro n
  rw [h.accounts.marked]
  constructor
  · rintro ⟨r, hc, ⟨hsw, had⟩ | ⟨t, p, hp, hw⟩⟩
    · refine Or.inl ⟨r, ⟨hc, hsw, had⟩, ?_⟩
      rintro r' ⟨hc', hsw', had'⟩
      exact h.accounts.one r' r n ⟨hc', Or.inl ⟨hsw', had'⟩⟩ ⟨hc, Or.inl ⟨hsw, had⟩⟩
    · refine Or.inr ⟨t, p, r, hp, hw, (hi.ok t p hp).live ?_⟩
      cases p with
      | writeSwap | wroteSwap => rfl
      | _ => cases hw
  · rintro (⟨r, ⟨hc, hsw, had⟩, -⟩ | ⟨t, p, r, hp, hw, -⟩)
    · exact ⟨r, hc, Or.inl ⟨hsw, had⟩⟩
    · exact ⟨r, ((h.ok t p hp).writing r n hw).1, Or.inr ⟨t, p, hp, hw⟩⟩

/-- In a run without the accidents of the destructor the bitmap is that of the pages in
    the swap area; of an address space that has been destroyed nothing is left there. -/
theorem swap_law {s₀ s : System} {tr : Moves} (h₀ : Booted s₀) (hr : Run (Vm.step T) s₀ tr s)
    (hc : ∀ x ∈ tr, Careful x.1 x.2 ∧ Quiet x.1 x.2) :
    SwapLaw T s ∧ ∀ b, s.memory.status b = .dead → ∀ n, s.memory.page_flags n = true →
      ∃ r, r.1 ≠ b ∧ Claims s.memory s.pc r n := by
  obtain ⟨hi, hsw⟩ := swapInv_of_run h₀ hr hc
  refine ⟨hsw.law hi, fun b hb n hn => ?_⟩
  obtain ⟨r, hr⟩ := (hsw.accounts.marked n).mp hn
  refine ⟨r, ?_, hr⟩
  rintro rfl
  exact hr.1.notDead hb

/-! ## The pages that can come to the swap area -/

/-- The page that is being evicted, from the moment the clock stops at its frame. -/
def Pc.victim : Pc → Option Victim
  | .evictIo _ x => some x
  | .evictYield _ x => some x
  | .writeFile _ x _ _ => some x
  | .wroteFile _ x => some x
  | .writeSwap _ x _ _ _ => some x
  | .wroteSwap _ x _ _ _ => some x
  | _ => none

theorem load_victim {me : SpaceId} {m : Memory} {q : Fault} : (load me m q).victim = none := by
  rcases load_cases me m q with ⟨f, ad, hc⟩ | hc | hc
  all_goals
    rw [hc]
    rfl

/-- Only pages of the address spaces are evicted, and come to the swap area. -/
structure Within (s₀ s : System) : Prop where
  size : ∀ b, (s.memory.spaces b).freePageId = (s₀.memory.spaces b).freePageId
  victim : ∀ t p x, s.pc t = some p → p.victim = some x →
    x.vpn < (s.memory.spaces x.space).freePageId
  swap : ∀ b v, (s.memory.entry b v).swap = true → v < (s.memory.spaces b).freePageId

omit [VmConfig] in
theorem swapOut_within {me : SpaceId} {m : Memory} {q : Fault} {x : Victim} {ad : Int}
    {fresh : Bool} {b : SpaceId} {v : Nat} :
    (((swapOut me m q x ad fresh).1.entry b v).swap = true →
      (m.entry b v).swap = true ∨ (b, v) = (x.space, x.vpn)) ∧
    ∀ y, (swapOut me m q x ad fresh).2.victim = some y → y = x := by
  have hchanged : ∀ m', Changed m (x.space, x.vpn) m' → (m'.entry b v).swap = true →
      (m.entry b v).swap = true ∨ (b, v) = (x.space, x.vpn) := by
    intro m' hm' hsw
    by_cases hbv : (b, v) = (x.space, x.vpn)
    · exact Or.inr hbv
    · left
      rwa [(hm'.entry (b, v) hbv).1] at hsw
  have hset := changed_modifyEntry (m := m) (x := (x.space, x.vpn)) (f := .setAddrDisk (-1))
    fun _ => rfl
  have hput : ∀ m₁, ((m.modifyEntry x.space x.vpn (.setAddrDisk (-1))).PutPageSwap ad).1 = m₁ →
      Changed m (x.space, x.vpn) m₁ := by
    rintro m₁ rfl
    unfold Memory.PutPageSwap
    split
    · exact hset
    · split
      · exact ⟨hset.status, hset.size, hset.entry, hset.valid⟩
      · exact hset
  unfold swapOut
  dsimp only
  split
  · rename_i m₁ n heq
    refine ⟨hchanged m₁ (hput m₁ (by rw [heq])), ?_⟩
    intro y hy
    exact (Option.some.inj hy).symm
  · rename_i m₁ heq
    refine ⟨hchanged _ (((hput m₁ (by rw [heq])).trans (changed_modifyEntry
      (x := (x.space, x.vpn)) (f := .swapped ad fresh) fun e => ?_)).trans
        (changed_takeOver _ _ _)), ?_⟩
    · cases fresh with
      | true => rfl
      | false => rfl
    · intro y hy
      cases hy

theorem evict_within {me : SpaceId} {m : Memory} {q : Fault} {x : Victim} {b : SpaceId} {v : Nat} :
    (((evict me m q x).1.entry b v).swap = true →
      (m.entry b v).swap = true ∨ (b, v) = (x.space, x.vpn)) ∧
    ∀ y, (evict me m q x).2.victim = some y → y = x := by
  have hover : ∀ b v, ((m.takeOver me q x).entry b v).swap = true → (m.entry b v).swap = true := by
    intro b v h
    rwa [(sameSwap_takeOver m me q x).swap] at h
  unfold evict
  dsimp only
  split
  · split
    · exact ⟨Or.inl, fun y hy => (Option.some.inj hy).symm⟩
    · exact ⟨fun h => Or.inl (hover b v h), fun y hy => nomatch hy⟩
  · split
    · split
      · exact swapOut_within
      · exact ⟨fun h => Or.inl (hover b v h), fun y hy => nomatch hy⟩
    · exact swapOut_within

/-- A step of a thread: a page comes to the swap area by its eviction only. -/
theorem next_within {me : SpaceId} {m m' : Memory} {p : Pc} {o : Option Pc}
    (hr : Next me m p m' o)
    (hp : ∀ x, p.victim = some x → x.vpn < (m.spaces x.space).freePageId)
    (hstop : ∀ q loc i b, p = .search q loc i → (m.tpr loc).owner = some b →
      m.busy loc b = false → (m.tpr loc).virtualPage < (m.spaces b).freePageId) :
    (∀ b v, (m'.entry b v).swap = true →
      (m.entry b v).swap = true ∨ v < (m.spaces b).freePageId) ∧
    ∀ p' ∈ o, ∀ x, p'.victim = some x → x.vpn < (m.spaces x.space).freePageId := by
  -- An update of an entry that leaves its swap bit.
  have hset : ∀ {b₀ v₀} {f : PageTableEntry → PageTableEntry}, (∀ e, (f e).swap = e.swap) →
      ∀ b v, ((m.modifyEntry b₀ v₀ f).entry b v).swap = true →
        (m.entry b v).swap = true ∨ v < (m.spaces b).freePageId := by
    intro b₀ v₀ f hf b v h
    rw [Memory.field_modifyEntry PageTableEntry.swap hf] at h
    exact Or.inl h
  -- The destructor after a page with a frame.
  have hreleased : ∀ {f i b₁ m₁}, m.RemovePhysicalToVirtualMapping f = some m₁ → ∀ b v,
      ((next.passPage m₁ b₁ i).entry b v).swap = true →
        (m.entry b v).swap = true ∨ v < (m.spaces b).freePageId := by
    intro f i b₁ m₁ hm₁ b v h
    obtain ⟨b', hrel⟩ := released_of_remove hm₁
    have hentry : (next.passPage m₁ b₁ i).entry b v = m₁.entry b v := by
      unfold next.passPage Memory.ReleasePageSwap Memory.entry
      dsimp only
      split
      · rfl
      · rfl
    rw [hentry, hrel.entry] at h
    split at h
    · rename_i he
      rw [← he.1, ← he.2] at h
      exact Or.inl h
    · exact Or.inl h
  cases hr with
  | load hio hvalid =>
      refine ⟨hset (f := .setBitIo) fun _ => rfl, fun p' hp' x hx => ?_⟩
      obtain rfl := Option.some.inj hp'
      exact nomatch load_victim.symm.trans hx
  | finish hlocked hfree =>
      refine ⟨fun b v h => ?_, fun p' hp' => nomatch hp'⟩
      rw [Memory.modifyFrame_entry, Memory.field_modifyEntry (f := .loaded _)
        PageTableEntry.swap fun _ => rfl] at h
      exact Or.inl h
  | pass hb hbusy =>
      exact ⟨hset (f := .clearBitU) fun _ => rfl, fun p' hp' x hx => by cases hp'; cases hx⟩
  | around hb hbusy =>
      exact ⟨hset (f := .clearBitU) fun _ => rfl, fun p' hp' x hx => by cases hp'; cases hx⟩
  | @stop q loc i b hb hd hbusy =>
      refine ⟨hset (f := .clearBitValid) fun _ => rfl, fun p' hp' x hx => ?_⟩
      cases hp'
      cases hx
      exact hstop q loc i b rfl hb hbusy
  -- Only here, and after the write, is a page in the swap area that was not: the victim.
  | @evict q x hd hio =>
      refine ⟨fun b v h => ?_, fun p' hp' y hy => ?_⟩
      · rcases evict_within.1 h with h | h
        · exact hset (f := .setBitIo) (fun _ => rfl) b v h
        · obtain ⟨rfl, rfl⟩ := Prod.mk.inj h
          exact Or.inr (hp x rfl)
      · obtain rfl := Option.some.inj hp'
        obtain rfl := (evict_within (b := 0) (v := 0)).2 y hy
        exact hp y rfl
  | wroteFile hd =>
      refine ⟨fun b v h => ?_, fun p' hp' x hx => by cases hp'; cases hx⟩
      rw [(sameSwap_takeOver _ _ _ _).swap] at h
      exact Or.inl h
  | @wroteSwap q x n ad fresh hd =>
      refine ⟨fun b v h => ?_, fun p' hp' x hx => by cases hp'; cases hx⟩
      rw [(sameSwap_takeOver _ _ _ _).swap, Memory.entry_modifyEntry] at h
      split at h
      · rename_i he
        obtain ⟨rfl, rfl⟩ := he
        exact Or.inr (hp x rfl)
      · exact Or.inl h
  | release hlt hvalid _ hm₁ =>
      exact ⟨hreleased hm₁, fun p' hp' x hx => by cases hp'; cases hx⟩
  | @skip b₁ i hlt hvalid =>
      refine ⟨fun b v h => ?_, fun p' hp' x hx => by cases hp'; cases hx⟩
      have hentry : (next.passPage m b₁ i).entry b v = m.entry b v := by
        unfold next.passPage Memory.ReleasePageSwap Memory.entry
        dsimp only
        split
        · rfl
        · rfl
      rw [hentry] at h
      exact Or.inl h
  | destroyWrote hm₁ =>
      exact ⟨hreleased hm₁, fun p' hp' x hx => by cases hp'; cases hx⟩
  | evictWait | evictAgain | writeFile | writeSwap =>
      refine ⟨fun b v h => Or.inl h, fun p' hp' x hx => ?_⟩
      cases hp'
      exact hp x hx
  | present | delete => exact ⟨fun b v h => Or.inl h, fun p' hp' => nomatch hp'⟩
  | _ => exact ⟨fun b v h => Or.inl h, fun p' hp' x hx => by cases hp'; cases hx⟩

/-- A victim is one already, or the page in the frame where the clock stops. -/
theorem next_victim {me : SpaceId} {m m' : Memory} {p p' : Pc} {o : Option Pc}
    (hr : Next me m p m' o)
    (hp' : p' ∈ o) {x : Victim} (hx : p'.victim = some x) :
    p.victim = some x ∨ ∃ q loc i, p = .search q loc i ∧ (m.tpr loc).owner = some x.space ∧
      m.busy loc x.space = false := by
  cases hr with
  | load hio hvalid =>
      obtain rfl := Option.some.inj hp'
      exact nomatch load_victim.symm.trans hx
  | stop hb hd hbusy =>
      obtain rfl := Option.some.inj hp'
      obtain rfl := Option.some.inj hx
      exact Or.inr ⟨_, _, _, rfl, hb, hbusy⟩
  | @evict q y hdead hio =>
      obtain rfl := Option.some.inj hp'
      obtain rfl := (evict_within (b := 0) (v := 0)).2 x hx
      exact Or.inl rfl
  | evictWait | evictAgain | writeFile | writeSwap =>
      obtain rfl := Option.some.inj hp'
      exact Or.inl hx
  | present | finish | delete => exact nomatch hp'
  | _ =>
      obtain rfl := Option.some.inj hp'
      cases hx

theorem next_size {me : SpaceId} {m m' : Memory} {p : Pc} {o : Option Pc}
    (hr : Next me m p m' o) (b : SpaceId) :
    (m'.spaces b).freePageId = (m.spaces b).freePageId :=
  freePageId_of_shape (next_shape hr) b

theorem Within.step {s₀ s s' : System} {move : Move} (h : Within s₀ s) (hi : Inv T s)
    (hclock : ClockOk s) (hc : Careful s move) (hs : Step T s move s') : Within s₀ s' := by
  have huser : ∀ {m'}, SameSwap s.memory m' → Within s₀ { s with memory := m' } := by
    intro m' hsame
    refine ⟨fun b => (hsame.size b).trans (h.size b), fun t p x hp hx => ?_, fun b v hsw => ?_⟩
    · exact (h.victim t p x hp hx).trans_eq (hsame.size _).symm
    · exact (h.swap b v ((hsame.swap b v).symm.trans hsw)).trans_eq (hsame.size b).symm
  have henter : ∀ {p' st}, p'.victim = none → Within s₀ ⟨{ s.memory with status := st },
      s.current, Function.update s.pc s.current (some p')⟩ := by
    intro p' st hp'
    refine ⟨h.size, fun t p x hp hx => ?_, h.swap⟩
    dsimp only at hp
    rw [Function.update_apply] at hp
    split at hp
    · obtain rfl := Option.some.inj hp
      rw [hp'] at hx
      cases hx
    · exact h.victim t p x hp hx
  cases hs with
  | switch hsw => exact ⟨h.size, h.victim, h.swap⟩
  | load hu hm' =>
      obtain ⟨a, ht, -, -⟩ := readMem_cases hm'
      exact huser (translate_sameSwap ht)
  | store hu hm' =>
      obtain ⟨m₁, a, ht, -, rfl⟩ := writeMem_cases hm'
      exact huser (translate_sameSwap ht).others
  | fault hu hvalid hallowed => exact henter rfl
  | destroy hmem hnone hlive hended => exact henter rfl
  | @advance p m' o hp hr =>
      have hsize := next_size hr
      obtain ⟨hsw, hvictim⟩ := next_within hr (fun x hx => h.victim _ p x hp hx) (by
        rintro q loc i b rfl hb hbusy
        have hfree := (hc rfl).2 q loc i b hp hb hbusy
        simp only [Memory.busy, Bool.or_eq_false_iff] at hbusy
        obtain ⟨b', hb', hd, hv, -⟩ := hi.frames.used loc (hclock _ _ _ _ hp) hfree hbusy.2
        obtain rfl := Option.some.inj (hb.symm.trans hb')
        exact (hi.frames.valid b _ hd hv).1)
      refine ⟨fun b => (hsize b).trans (h.size b), fun t p' x hp' hx => ?_, fun b v hv => ?_⟩
      · dsimp only at hp' ⊢
        rw [hsize]
        rw [Function.update_apply] at hp'
        split at hp'
        · exact hvictim p' hp' x hx
        · exact h.victim t p' x hp' hx
      · dsimp only at hv ⊢
        rw [hsize]
        rcases hsw b v hv with hv | hv
        · exact h.swap b v hv
        · exact hv

theorem within_of_run {s₀ s : System} {tr : Moves} (h₀ : Booted s₀)
    (hr : Run (Vm.step T) s₀ tr s) (hc : ∀ x ∈ tr, Careful x.1 x.2) : Within s₀ s := by
  suffices h : Inv T s ∧ ClockOk s ∧ Within s₀ s from h.2.2
  refine hr.invariant_of_steps (I := fun _ s => Inv T s ∧ ClockOk s ∧ Within s₀ s)
    (C := fun s move => Careful s move) ?_ ?_ hc
  · refine ⟨h₀.inv, fun t q loc i hp => ?_, fun _ => rfl, fun t p x hp => ?_, fun b v hsw => ?_⟩
    · rw [h₀.idle] at hp
      cases hp
    · rw [h₀.idle] at hp
      cases hp
    · rw [(h₀.entry b v).2.2] at hsw
      cases hsw
  · intro _ s a s' ⟨hi, hclock, hw⟩ hca hs
    have hs' := step_cases hs
    exact ⟨hi.step hclock hca hs', hclock.step hs', hw.step hi hclock hca hs'⟩

end Steps

/-! ## A sector that is lost -/

/-- The address space 1 has two pages, the second of which is that of a mapped file; 0
    has one page. -/
def halfMapped : Memory :=
  let _ := VmConfig.two
  newMemory (fun b => newSpace (if b = 0 then 1 else if b = 1 then 2 else 0)
    (fun v => if b = 1 ∧ v = 1 then 0 else -1) (if b = 1 then [⟨128, 1, 0⟩] else []))
    fun _ => ⟨fun _ => 0, 256, 256⟩

theorem booted_halfMapped : @Booted VmConfig.two ⟨halfMapped, 1, fun _ => none⟩ :=
  let _ := VmConfig.two
  booted_new (fun b => if b = 0 then 1 else if b = 1 then 2 else 0)
    (fun b v => if b = 1 ∧ v = 1 then 0 else -1) (fun b => if b = 1 then [⟨128, 1, 0⟩] else [])

/-- The pages of 1 are loaded, the second is modified.  While 0 writes the first to the
    swap area, the destructor passes it, and blocks at the second. -/
def destroyedWhileWritten : List Move :=
  List.flatten [loads 0 3, loads 1 5, [.store 128 4 0], [.switch 0], loads 0 6,
    [.switch 3, .destroy 1], goOn 2, [.switch 0], goOn 3, [.switch 3], goOn 3]

/-- The sector of a page of 1 stays allocated after 1 is gone. -/
theorem swap_law_fails :
    ¬ ∀ [VmConfig] (T : Threads) (s₀ s : System) (tr : Moves), Booted s₀ →
      Run (step T) s₀ tr s → SwapLaw T s := by
  intro h
  let _ := VmConfig.two
  obtain ⟨⟨tr, s⟩, he, hx⟩ := Option.map_eq_some_iff.mp
    (show (exec (step fourThreads) ⟨halfMapped, 1, fun _ => none⟩ destroyedWhileWritten).map
        (fun x => (x.2.memory.page_flags 0, x.2.memory.status 1, (x.2.memory.entry 0 0).swap,
          [0, 1, 2, 3].all fun t => (x.2.pc t).isNone, x.1.all carefulAt)) =
      some (true, .dead, false, true, true) by decide +kernel)
  simp only [Prod.mk.injEq] at hx
  obtain ⟨hflag, hdead, hsw, hidle, hall⟩ := hx
  have hr := run_of_exec he
  have hcareful : ∀ y ∈ tr, Careful y.1 y.2 := fun y hy =>
    careful_of_carefulAt (List.all_eq_true.mp hall y hy)
  have hi := (inv_of_run booted_halfMapped hr hcareful).1
  have hw := within_of_run booted_halfMapped hr hcareful
  rcases (h fourThreads _ s tr booted_halfMapped hr 0).mp hflag with
    ⟨⟨b, v⟩, ⟨hc, hsw', -⟩, -⟩ | ⟨t, p, r, hp, -⟩
  · -- Only the first page of 0 and the pages of 1 could be meant.
    have hlt : v < if b = 0 then 1 else if b = 1 then 2 else 0 :=
      (hw.swap b v hsw').trans_eq (hw.size b)
    by_cases hb : b = 0
    · rw [if_pos hb] at hlt
      obtain rfl : v = 0 := by omega
      rw [hb] at hsw'
      exact absurd (hsw.symm.trans hsw') (by decide)
    · by_cases hb' : b = 1
      · apply hc.notDead
        rw [hb']
        exact hdead
      · rw [if_neg hb, if_neg hb'] at hlt
        omega
  · -- No thread is in the routines.
    have hm := List.all_eq_true.mp hidle t (hi.places t p hp).1
    rw [hp] at hm
    cases hm

/-- No thread of the four writes while the destructor deals with a page. -/
def quietAt (y : System × Move) : Bool :=
  match y.1.pc y.1.current with
  | some (.destroyPage _ _) => [0, 1, 2, 3].all fun t => ((y.1.pc t).bind Pc.writing).isNone
  | some (.destroyWrote _ _) => [0, 1, 2, 3].all fun t => ((y.1.pc t).bind Pc.writing).isNone
  | _ => true

theorem quiet_of_quietAt [VmConfig] {s : System} {move : Move} (hi : Inv fourThreads s)
    (h : quietAt (s, move) = true) : Quiet s move := by
  rintro - b i hp n ⟨t, p, ht, hw⟩
  have hall : ([0, 1, 2, 3].all fun t => ((s.pc t).bind Pc.writing).isNone) = true := by
    unfold quietAt at h
    dsimp only at h
    rcases hp with hp | hp
    · rw [hp] at h
      exact h
    · rw [hp] at h
      exact h
  have hm := List.all_eq_true.mp hall t (hi.places t p ht).1
  rw [ht] at hm
  change p.writing.isNone = true at hm
  rw [hw] at hm
  cases hm

/-- A page of 1 comes to the swap area, and 1 is destroyed. -/
theorem swap_law_destroyed :
    ∃ (tr : Moves) (s : System), Run (@step VmConfig.two fourThreads)
        ⟨halfMapped, 1, fun _ => none⟩ tr s ∧
      (∃ x ∈ tr, x.1.memory.page_flags 0 = true) ∧ s.memory.status 1 = .dead ∧
      s.memory.page_flags 0 = false ∧
      SwapLaw fourThreads s ∧ ∀ b, s.memory.status b = .dead → ∀ n,
        s.memory.page_flags n = true → ∃ r, r.1 ≠ b ∧ Claims s.memory s.pc r n := by
  let _ := VmConfig.two
  obtain ⟨⟨tr, s⟩, he, hx⟩ := Option.map_eq_some_iff.mp
    (show (exec (step fourThreads) ⟨halfMapped, 1, fun _ => none⟩
        (List.flatten [loads 0 3, loads 1 5, [.switch 0], loads 0 9, [.switch 3, .destroy 1],
          goOn 3])).map (fun x => (x.1.any fun y => y.1.memory.page_flags 0,
            x.2.memory.status 1, x.2.memory.page_flags 0,
            x.1.all fun y => carefulAt y && quietAt y)) =
      some (true, .dead, false, true) by decide +kernel)
  simp only [Prod.mk.injEq] at hx
  obtain ⟨hused, hdead, hflag, hall⟩ := hx
  have hr := run_of_exec he
  have hat : ∀ y ∈ tr, carefulAt y = true ∧ quietAt y = true := by
    intro y hy
    have := List.all_eq_true.mp hall y hy
    rwa [Bool.and_eq_true] at this
  have hcareful : ∀ y ∈ tr, Careful y.1 y.2 := fun y hy => careful_of_carefulAt (hat y hy).1
  refine ⟨tr, s, hr, List.any_eq_true.mp hused, hdead, hflag,
    swap_law booted_halfMapped hr fun y hy => ⟨hcareful y hy, ?_⟩⟩
  -- The state before the step is reached by a run of the same kind.
  obtain ⟨tr', hp, hr'⟩ := hr.of_mem hy
  have hi := (inv_of_run booted_halfMapped hr' fun z hz => hcareful z (hp.subset hz)).1
  exact quiet_of_quietAt hi (hat y hy).2

end Vm
end Nachos
