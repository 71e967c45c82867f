/-
  Nachos.Vm.Frames

  The frames over all interleavings.  A frame is free and on the list, or it is the
  frame of a valid page that has it, or it is locked for a thread that fills or
  empties it; and a page has its `io` bit while a thread loads or evicts it.  This
  holds as long as the destructor does not release a frame that has been taken from
  it meanwhile, and the clock does not stop at a free frame.
-/

import Nachos.Lib.Exclusive
import Nachos.Lib.Run
import Nachos.Vm.Next

namespace Nachos
namespace Vm

open Transition Ownership

/-! ## What a thread holds at its place -/

namespace Pc

/-- The page that is being loaded, from `setBitIo` to `clearBitIo` in `PageFault`. -/
def loading : Pc → Option Nat
  | addrIo q => some q.vpn
  | addrYield q => some q.vpn
  | readFile q _ _ => some q.vpn
  | readSwap q _ => some q.vpn
  | readDone q => some q.vpn
  | map q => some q.vpn
  | mapped q _ => some q.vpn
  | search q _ _ => some q.vpn
  | searchYield q _ _ => some q.vpn
  | evictIo q _ => some q.vpn
  | evictYield q _ => some q.vpn
  | writeFile q _ _ _ => some q.vpn
  | wroteFile q _ => some q.vpn
  | writeSwap q _ _ _ _ => some q.vpn
  | wroteSwap q _ _ _ _ => some q.vpn
  | _ => none

/-- The page that is being evicted, from `setBitIo` to `clearBitIo` in `EvictPage`. -/
def evicting : Pc → Option (SpaceId × Nat)
  | writeFile _ x _ _ => some (x.space, x.vpn)
  | wroteFile _ x => some (x.space, x.vpn)
  | writeSwap _ x _ _ _ => some (x.space, x.vpn)
  | wroteSwap _ x _ _ _ => some (x.space, x.vpn)
  | _ => none

/-- The frame that is being emptied or filled. -/
def frame : Pc → Option Nat
  | mapped _ p => some p
  | evictIo _ x => some x.frame
  | evictYield _ x => some x.frame
  | writeFile _ x _ _ => some x.frame
  | wroteFile _ x => some x.frame
  | writeSwap _ x _ _ _ => some x.frame
  | wroteSwap _ x _ _ _ => some x.frame
  | _ => none

/-- The address space that is being destroyed, and the page that it is the turn of. -/
def destroys : Pc → Option (SpaceId × Nat)
  | destroyPage b i => some (b, i)
  | destroyWrite b i _ _ _ => some (b, i)
  | destroyWrote b i => some (b, i)
  | _ => none

end Pc

variable (T : Threads)

/-- The pages whose `io` bit a thread has set. -/
def HoldsIo (t : ThreadId) (p : Pc) (r : SpaceId × Nat) : Prop :=
  (r.1 = T.process t ∧ p.loading = some r.2) ∨ p.evicting = some r

def HoldsFrame (_ : ThreadId) (p : Pc) (f : Nat) : Prop := p.frame = some f

def Destroys (_ : ThreadId) (p : Pc) (b : SpaceId) : Prop := ∃ i, p.destroys = some (b, i)

/-- Nothing has changed of what the frames are about. -/
structure SameFrames (m m' : Memory) : Prop where
  tpr : m'.tpr = m.tpr
  list : m'.free_page_list = m.free_page_list
  status : m'.status = m.status
  size : ∀ b, (m'.spaces b).freePageId = (m.spaces b).freePageId
  valid : ∀ b v, (m'.entry b v).valid = (m.entry b v).valid
  io : ∀ b v, (m'.entry b v).io = (m.entry b v).io
  page : ∀ b v, (m'.entry b v).physicalPage = (m.entry b v).physicalPage
  allowed : ∀ b v, (m'.entry b v).readAllowed = (m.entry b v).readAllowed ∧
    (m'.entry b v).writeAllowed = (m.entry b v).writeAllowed

section SameFrames

variable {m m' m'' : Memory} {b : SpaceId} {v : Nat}

theorem SameFrames.refl (m : Memory) : SameFrames m m :=
  ⟨rfl, rfl, rfl, fun _ => rfl, fun _ _ => rfl, fun _ _ => rfl, fun _ _ => rfl,
    fun _ _ => ⟨rfl, rfl⟩⟩

theorem SameFrames.trans (h : SameFrames m m') (h' : SameFrames m' m'') : SameFrames m m'' where
  tpr := h'.tpr.trans h.tpr
  list := h'.list.trans h.list
  status := h'.status.trans h.status
  size b := (h'.size b).trans (h.size b)
  valid b v := (h'.valid b v).trans (h.valid b v)
  io b v := (h'.io b v).trans (h.io b v)
  page b v := (h'.page b v).trans (h.page b v)
  allowed b v := ⟨(h'.allowed b v).1.trans (h.allowed b v).1,
    (h'.allowed b v).2.trans (h.allowed b v).2⟩

theorem modifyFrame_size (p : Nat) (f : Frame → Frame) (b' : SpaceId) :
    ((m.modifyFrame p f).spaces b').freePageId = (m.spaces b').freePageId := rfl

theorem modifyEntry_size (f : PageTableEntry → PageTableEntry) (b' : SpaceId) :
    ((m.modifyEntry b v f).spaces b').freePageId = (m.spaces b').freePageId :=
  (Memory.modifyEntry_space f b').1

/-- A setter of a bit or an address that the frames are not about. -/
theorem SameFrames.modifyEntry {f : PageTableEntry → PageTableEntry}
    (hvalid : ∀ e, (f e).valid = e.valid) (hio : ∀ e, (f e).io = e.io)
    (hpage : ∀ e, (f e).physicalPage = e.physicalPage)
    (hallowed : ∀ e, (f e).readAllowed = e.readAllowed ∧ (f e).writeAllowed = e.writeAllowed) :
    SameFrames m (m.modifyEntry b v f) where
  tpr := rfl
  list := rfl
  status := rfl
  size := modifyEntry_size f
  valid _ _ := Memory.field_modifyEntry PageTableEntry.valid hvalid
  io _ _ := Memory.field_modifyEntry PageTableEntry.io hio
  page _ _ := Memory.field_modifyEntry PageTableEntry.physicalPage hpage
  allowed _ _ := ⟨Memory.field_modifyEntry PageTableEntry.readAllowed fun e => (hallowed e).1,
    Memory.field_modifyEntry PageTableEntry.writeAllowed fun e => (hallowed e).2⟩

/-- What `RemovePhysicalToVirtualMapping` does: frame `p` of `b` is released, and its
    page is not valid any more. -/
structure Released (m : Memory) (p : Nat) (b : SpaceId) (m' : Memory) : Prop where
  used : (m.tpr p).free = false
  owner : (m.tpr p).owner = some b
  notDead : m.status b ≠ .dead
  tpr : ∀ p', m'.tpr p' =
    if p' = p then { m.tpr p with free := true, locked := false } else m.tpr p'
  list : m'.free_page_list = p :: m.free_page_list
  status : m'.status = m.status
  size : ∀ b', (m'.spaces b').freePageId = (m.spaces b').freePageId
  entry : ∀ b' v', m'.entry b' v' =
    if b' = b ∧ v' = (m.tpr p).virtualPage then
      (m.entry b (m.tpr p).virtualPage).clearBitValid
    else m.entry b' v'
  flags : m'.page_flags = m.page_flags

theorem released_of_remove {p : Nat} (h : m.RemovePhysicalToVirtualMapping p = some m') :
    ∃ b, Released m p b m' := by
  unfold Memory.RemovePhysicalToVirtualMapping at h
  split at h
  · cases h
  · rename_i hused
    dsimp only at h
    split at h
    · cases h
    · rename_i b hb
      split at h
      · cases h
      · rename_i hd
        obtain rfl := Option.some.inj h
        exact ⟨b, {
          used := by simpa using hused
          owner := hb
          notDead := hd
          tpr := by
            intro p'
            rw [Memory.modifyEntry_tpr, Memory.modifyFrame_tpr]
          list := rfl
          status := rfl
          size := fun b' => modifyEntry_size _ b'
          entry := fun b' v' => Memory.entry_modifyEntry _
          flags := rfl }⟩

end SameFrames

variable [VmConfig]

/-- What a thread relies on at its place. -/
structure Ok (m : Memory) (t : ThreadId) (p : Pc) : Prop where
  live : p.destroys = none → m.status (T.process t) = .live
  bound : ∀ v, p.loading = some v → v < (m.spaces (T.process t)).freePageId
  asked : ∀ q, p = .faultIo q ∨ p = .faultYield q →
    q.vpn < (m.spaces (T.process t)).freePageId
  io : ∀ r, HoldsIo T t p r → (m.entry r.1 r.2).io = true
  apart : ∀ v r, p.loading = some v → p.evicting = some r → r ≠ (T.process t, v)
  frame : ∀ f, p.frame = some f →
    f < NumPhysPages ∧ (m.tpr f).free = false ∧ (m.tpr f).locked = true
  destroys : ∀ b i, p.destroys = some (b, i) →
    m.status b = .dying i ∧ ∀ j < i, (m.entry b j).valid = false
  destroyed : ∀ b i, ((∃ f ad p', p = .destroyWrite b i f ad p') ∨ p = .destroyWrote b i) →
    i < (m.spaces b).freePageId ∧ (m.entry b i).physicalPage < NumPhysPages
  victim : ∀ q x, p = .evictIo q x →
    (m.entry x.space x.vpn).valid = false ∧ (m.entry x.space x.vpn).io = false
  noYield : ∀ q x, p ≠ .evictYield q x
  mapped : ∀ q f, p = .mapped q f →
    (m.tpr f).owner = some (T.process t) ∧ (m.tpr f).virtualPage = q.vpn

/-- The frames and the pages agree. -/
structure FramesOk (m : Memory) : Prop where
  nodup : m.free_page_list.Nodup
  free : ∀ p, p ∈ m.free_page_list ↔ p < NumPhysPages ∧ (m.tpr p).free = true
  valid : ∀ b v, m.status b ≠ .dead → (m.entry b v).valid = true →
    v < (m.spaces b).freePageId ∧ (m.entry b v).io = false ∧
      (m.entry b v).physicalPage < NumPhysPages ∧
      m.tpr (m.entry b v).physicalPage = ⟨false, false, v, some b⟩
  used : ∀ p < NumPhysPages, (m.tpr p).free = false → (m.tpr p).locked = false →
    ∃ b, (m.tpr p).owner = some b ∧ m.status b ≠ .dead ∧
      (m.entry b (m.tpr p).virtualPage).valid = true ∧
      (m.entry b (m.tpr p).virtualPage).physicalPage = p
  /-- Only pages that the address space has been given can be accessed. -/
  allowed : ∀ b v, (m.entry b v).readAllowed ∨ (m.entry b v).writeAllowed →
    v < (m.spaces b).freePageId

structure Inv (s : System) : Prop where
  frames : FramesOk s.memory
  ok : ∀ t p, s.pc t = some p → Ok T s.memory t p
  places : ∀ t p, s.pc t = some p → t ∈ T.all ∧ (t ≠ s.current → p.switches = true)
  io : Exclusive (HeldAt (HoldsIo T) s.pc)
  frame : Exclusive (HeldAt HoldsFrame s.pc)
  destroys : Exclusive (HeldAt Destroys s.pc)

/-! ## A step of one thread and the others -/

section Others

variable {T} {s : System} {m' : Memory} {t : ThreadId} {p : Pc}

/-- What the other threads see of a step of the running thread: it clears no `io` bit
    and changes no locked frame but its own, and changes nothing of an address space
    that another thread destroys. -/
structure Apart (T : Threads) (s : System) (m' : Memory) : Prop where
  size : ∀ b, (m'.spaces b).freePageId = (s.memory.spaces b).freePageId
  io : ∀ b v, (s.memory.entry b v).io = true →
    (m'.entry b v).io = true ∨ HeldAt (HoldsIo T) s.pc s.current (b, v)
  tpr : ∀ f, (s.memory.tpr f).free = false → (s.memory.tpr f).locked = true →
    m'.tpr f = s.memory.tpr f ∨ HeldAt HoldsFrame s.pc s.current f
  status : ∀ b, m'.status b = s.memory.status b ∨ HeldAt Destroys s.pc s.current b
  pages : ∀ b v, s.memory.status b ≠ .live →
    ((m'.entry b v).valid = true → (s.memory.entry b v).valid = true) ∧
      (m'.entry b v).physicalPage = (s.memory.entry b v).physicalPage

/-- The other threads keep what they rely on. -/
theorem Inv.other (h : Inv T s) (ha : Apart T s m') (ht : t ≠ s.current) (hp : s.pc t = some p) :
    Ok T m' t p := by
  have hok := h.ok t p hp
  have hsw := (h.places t p hp).2 ht
  exact {
    live := by
      intro hd
      have hlive := hok.live hd
      rcases ha.status (T.process t) with he | ⟨p', hp', i, hi⟩
      · rw [he, hlive]
      · -- An address space with a thread in the handler is not destroyed.
        have := ((h.ok _ p' hp').destroys _ i hi).1
        rw [hlive] at this
        cases this
    bound := by
      intro v hv
      rw [ha.size]
      exact hok.bound v hv
    asked := by
      intro q hq
      rw [ha.size]
      exact hok.asked q hq
    io := by
      intro r hr
      -- What the thread holds the running one does not, and so has not changed.
      rcases ha.io r.1 r.2 (hok.io r hr) with hio | hheld
      · exact hio
      · exact absurd (h.io t s.current r (heldAt_of hp hr) hheld) ht
    apart := hok.apart
    frame := by
      intro f hf
      obtain ⟨hlt, hfree, hlocked⟩ := hok.frame f hf
      rcases ha.tpr f hfree hlocked with he | hheld
      · rw [he]
        exact ⟨hlt, hfree, hlocked⟩
      · exact absurd (h.frame t s.current f (heldAt_of hp hf) hheld) ht
    destroys := by
      intro b i hd
      obtain ⟨hst, hvalid⟩ := hok.destroys b i hd
      have hnl : s.memory.status b ≠ .live := by
        rw [hst]
        simp
      rcases ha.status b with he | hheld
      · refine ⟨by rw [he, hst], fun j hj => ?_⟩
        rw [Bool.eq_false_iff]
        intro hv
        have := (ha.pages b j hnl).1 hv
        rw [hvalid j hj] at this
        cases this
      · exact absurd (h.destroys t s.current b (heldAt_of hp ⟨i, hd⟩) hheld) ht
    destroyed := by
      intro b i hd
      obtain ⟨hlt, hpage⟩ := hok.destroyed b i hd
      have hdes : p.destroys = some (b, i) := by
        rcases hd with ⟨f, ad, p', rfl⟩ | rfl
        · rfl
        · rfl
      have hnl : s.memory.status b ≠ .live := by
        rw [(hok.destroys b i hdes).1]
        simp
      rw [ha.size, (ha.pages b i hnl).2]
      exact ⟨hlt, hpage⟩
    victim := by
      rintro q x rfl
      cases hsw
    noYield := hok.noYield
    mapped := by
      rintro q f rfl
      cases hsw }

/-- What the running thread may come to hold. -/
structure Takes (T : Threads) (s : System) (p : Pc) : Prop where
  io : ∀ r, HoldsIo T s.current p r →
    HeldAt (HoldsIo T) s.pc s.current r ∨ (s.memory.entry r.1 r.2).io = false
  frame : ∀ f, p.frame = some f →
    HeldAt HoldsFrame s.pc s.current f ∨ ∀ u, ¬ HeldAt HoldsFrame s.pc u f
  destroys : ∀ b, Destroys s.current p b → HeldAt Destroys s.pc s.current b

/-- A step of the running thread keeps the invariant when it keeps the frames in
    order, stays apart from the other threads, and takes what nobody has. -/
theorem Inv.advance (h : Inv T s) {o : Option Pc} (hcur : (s.pc s.current).isSome)
    (hf : FramesOk m') (ha : Apart T s m')
    (hnew : ∀ p ∈ o, Ok T m' s.current p ∧ Takes T s p) :
    Inv T ⟨m', s.current, Function.update s.pc s.current o⟩ := by
  obtain ⟨p₀, hp₀⟩ := Option.isSome_iff_exists.mp hcur
  refine ⟨hf, ?_, ?_, ?_, ?_, ?_⟩
  · intro t p hp
    by_cases ht : t = s.current
    · subst ht
      dsimp only at hp
      rw [Function.update_self] at hp
      exact (hnew p hp).1
    · dsimp only at hp
      rw [Function.update_of_ne ht] at hp
      exact h.other ha ht hp
  · intro t p hp
    by_cases ht : t = s.current
    · subst ht
      exact ⟨(h.places _ p₀ hp₀).1, fun hne => absurd rfl hne⟩
    · dsimp only at hp
      rw [Function.update_of_ne ht] at hp
      exact h.places t p hp
  · apply h.io.update
    intro p hp r hr
    rcases (hnew p hp).2.io r hr with hheld | hclear
    · exact Or.inl hheld
    · right
      rintro u ⟨p', hp', hr'⟩
      rw [(h.ok u p' hp').io r hr'] at hclear
      cases hclear
  · apply h.frame.update
    intro p hp f hfr
    exact (hnew p hp).2.frame f hfr
  · apply h.destroys.update
    intro p hp b hb
    exact Or.inl ((hnew p hp).2.destroys b hb)

end Others

/-! ## The frames and the pages -/

section Frames

variable {m m' m'' : Memory} {b : SpaceId} {v p : Nat}

theorem SameFrames.framesOk (h : SameFrames m m') (hf : FramesOk m) : FramesOk m' where
  nodup := by
    rw [h.list]
    exact hf.nodup
  free p := by
    rw [h.list, h.tpr]
    exact hf.free p
  valid b v hd hv := by
    rw [h.status] at hd
    rw [h.valid] at hv
    rw [h.size, h.io, h.page, h.tpr]
    exact hf.valid b v hd hv
  used p hp hfree hlocked := by
    rw [h.tpr] at hfree hlocked
    obtain ⟨b, ho, hd, hv, hpage⟩ := hf.used p hp hfree hlocked
    refine ⟨b, ?_⟩
    rw [h.tpr, h.status, h.valid, h.page]
    exact ⟨ho, hd, hv, hpage⟩
  allowed b v ha := by
    rw [(h.allowed b v).1, (h.allowed b v).2] at ha
    rw [h.size]
    exact hf.allowed b v ha

namespace FramesOk

/-- A page that is not valid may have any `io` bit. -/
theorem modifyIo (h : FramesOk m) {f : PageTableEntry → PageTableEntry}
    (hvalid : ∀ e, (f e).valid = e.valid) (hpage : ∀ e, (f e).physicalPage = e.physicalPage)
    (hallowed : ∀ e, (f e).readAllowed = e.readAllowed ∧ (f e).writeAllowed = e.writeAllowed)
    (hio : m.status b ≠ .dead → (m.entry b v).valid = true → (f (m.entry b v)).io = false) :
    FramesOk (m.modifyEntry b v f) where
  nodup := h.nodup
  free := h.free
  valid b' v' hd hv := by
    rw [Memory.field_modifyEntry PageTableEntry.valid hvalid] at hv
    obtain ⟨hlt, hclear, hframe, htpr⟩ := h.valid b' v' hd hv
    rw [modifyEntry_size, Memory.field_modifyEntry PageTableEntry.physicalPage hpage]
    refine ⟨hlt, ?_, hframe, htpr⟩
    rw [Memory.entry_modifyEntry]
    split
    · rename_i he
      rw [he.1, he.2] at hv
      rw [he.1] at hd
      exact hio hd hv
    · exact hclear
  used p hp hfree hlocked := by
    obtain ⟨b', ho, hd, hv, hpg⟩ := h.used p hp hfree hlocked
    refine ⟨b', ho, hd, ?_⟩
    have hmv : ((m.modifyEntry b v f).entry b' (m.tpr p).virtualPage).valid =
        (m.entry b' (m.tpr p).virtualPage).valid :=
      Memory.field_modifyEntry PageTableEntry.valid hvalid
    have hmp : ((m.modifyEntry b v f).entry b' (m.tpr p).virtualPage).physicalPage =
        (m.entry b' (m.tpr p).virtualPage).physicalPage :=
      Memory.field_modifyEntry PageTableEntry.physicalPage hpage
    exact ⟨hmv.trans hv, hmp.trans hpg⟩
  allowed b' v' ha := by
    rw [Memory.field_modifyEntry PageTableEntry.readAllowed fun e => (hallowed e).1,
      Memory.field_modifyEntry PageTableEntry.writeAllowed fun e => (hallowed e).2] at ha
    rw [modifyEntry_size]
    exact h.allowed b' v' ha

/-- A locked frame may get another owner. -/
theorem modifyLocked (h : FramesOk m) {f : Frame → Frame} (hlocked : (m.tpr p).locked = true)
    (hfl : (f (m.tpr p)).locked = true) (hff : (f (m.tpr p)).free = (m.tpr p).free) :
    FramesOk (m.modifyFrame p f) where
  nodup := h.nodup
  free p' := by
    rw [Memory.modifyFrame_tpr]
    split
    · rename_i he
      rw [hff, he]
      exact h.free p
    · exact h.free p'
  valid b' v' hd hv := by
    obtain ⟨hlt, hclear, hframe, htpr⟩ := h.valid b' v' hd hv
    refine ⟨hlt, hclear, hframe, ?_⟩
    rw [Memory.modifyFrame_entry, Memory.modifyFrame_tpr]
    split
    · rename_i he
      rw [he] at htpr
      rw [htpr] at hlocked
      cases hlocked
    · exact htpr
  used p' hp' hfree hl := by
    rw [Memory.modifyFrame_tpr] at hfree hl ⊢
    split at hfree
    · rename_i he
      rw [if_pos he, hfl] at hl
      cases hl
    · rename_i he
      rw [if_neg he] at hl ⊢
      exact h.used p' hp' hfree hl
  allowed := h.allowed

/-- `FindFreePage` and the lock. -/
theorem take (h : FramesOk m) {rest : List Nat} (hl : m.free_page_list = p :: rest) {fr : Frame}
    (hfree : fr.free = false) (hlocked : fr.locked = true) :
    FramesOk ({ m with free_page_list := rest }.modifyFrame p fun _ => fr) := by
  have hnd := h.nodup
  rw [hl, List.nodup_cons] at hnd
  obtain ⟨hnot, hnd⟩ := hnd
  have hpfree : (m.tpr p).free = true := ((h.free p).mp (by rw [hl]; simp)).2
  exact {
    nodup := hnd
    free := by
      intro p'
      rw [Memory.modifyFrame_tpr]
      show p' ∈ rest ↔ _
      have hiff := h.free p'
      rw [hl, List.mem_cons] at hiff
      by_cases he : p' = p
      · rw [if_pos he, hfree, he]
        simp [hnot]
      · rw [if_neg he]
        simpa [he] using hiff
    valid := by
      intro b' v' hd hv
      obtain ⟨hlt, hclear, hframe, htpr⟩ := h.valid b' v' hd hv
      refine ⟨hlt, hclear, hframe, ?_⟩
      rw [Memory.modifyFrame_tpr, if_neg]
      · exact htpr
      · intro he
        change (m.entry b' v').physicalPage = p at he
        rw [he] at htpr
        rw [htpr] at hpfree
        cases hpfree
    used := by
      intro p' hp' hf hlk
      rw [Memory.modifyFrame_tpr] at hf hlk ⊢
      split at hf
      · rename_i he
        rw [if_pos he, hlocked] at hlk
        cases hlk
      · rename_i he
        rw [if_neg he] at hlk ⊢
        exact h.used p' hp' hf hlk
    allowed := h.allowed }

/-- The clock takes a frame from its page. -/
theorem lockVictim (h : FramesOk m) (hp : p < NumPhysPages) (hfree : (m.tpr p).free = false)
    (hlocked : (m.tpr p).locked = false) (hb : (m.tpr p).owner = some b)
    (hv : (m.tpr p).virtualPage = v) :
    FramesOk ((m.modifyEntry b v .clearBitValid).modifyFrame p
      fun fr => { fr with locked := true }) where
  nodup := h.nodup
  free p' := by
    rw [Memory.modifyFrame_tpr]
    split
    · rename_i he
      rw [he]
      exact h.free p
    · exact h.free p'
  valid b' v' hd hv' := by
    rw [Memory.modifyFrame_entry, Memory.entry_modifyEntry] at hv' ⊢
    split at hv'
    · cases hv'
    · rename_i hne
      rw [if_neg hne]
      obtain ⟨hlt, hclear, hframe, htpr⟩ := h.valid b' v' hd hv'
      refine ⟨?_, hclear, hframe, ?_⟩
      · rwa [modifyFrame_size, modifyEntry_size]
      · rw [Memory.modifyFrame_tpr, if_neg]
        · exact htpr
        · -- The frame has one page only.
          intro he
          rw [he] at htpr
          apply hne
          rw [htpr] at hb hv
          exact ⟨Option.some.inj hb, hv⟩
  used p' hp' hf hl := by
    rw [Memory.modifyFrame_tpr] at hf hl ⊢
    split at hf
    · rename_i he
      rw [if_pos he] at hl
      cases hl
    · rename_i he
      rw [if_neg he] at hl ⊢
      obtain ⟨b', ho, hd, hvalid, hpage⟩ := h.used p' hp' hf hl
      refine ⟨b', ho, hd, ?_⟩
      rw [Memory.modifyFrame_entry, Memory.entry_modifyEntry, if_neg]
      · exact ⟨hvalid, hpage⟩
      · rintro ⟨hbb, hvv⟩
        -- It would be the page of frame `p`.
        obtain ⟨b₀, ho₀, -, -, hpage₀⟩ := h.used p hp hfree hlocked
        rw [hb] at ho₀
        obtain rfl := Option.some.inj ho₀
        rw [hv] at hpage₀
        change (m.tpr p').virtualPage = v at hvv
        rw [hbb] at hpage
        change (m.entry b (m.tpr p').virtualPage).physicalPage = p' at hpage
        rw [hvv, hpage₀] at hpage
        exact he hpage.symm
  allowed b' v' ha := by
    rw [Memory.modifyFrame_entry] at ha
    have hr : ((m.modifyEntry b v .clearBitValid).entry b' v').readAllowed =
        (m.entry b' v').readAllowed :=
      Memory.field_modifyEntry PageTableEntry.readAllowed fun _ => rfl
    have hw : ((m.modifyEntry b v .clearBitValid).entry b' v').writeAllowed =
        (m.entry b' v').writeAllowed :=
      Memory.field_modifyEntry PageTableEntry.writeAllowed fun _ => rfl
    rw [hr, hw] at ha
    rw [modifyFrame_size, modifyEntry_size]
    exact h.allowed b' v' ha

/-- The end of a page fault: the page has the frame. -/
theorem finish (h : FramesOk m) (hp : p < NumPhysPages) (hfree : (m.tpr p).free = false)
    (hlocked : (m.tpr p).locked = true) (hb : (m.tpr p).owner = some b)
    (hv : (m.tpr p).virtualPage = v) (hd : m.status b ≠ .dead)
    (hsize : v < (m.spaces b).freePageId) (hnot : (m.entry b v).valid = false)
    {f : PageTableEntry → PageTableEntry} (hpage : ∀ e, (f e).physicalPage = p)
    (hio : ∀ e, (f e).io = false) (hvalid : ∀ e, (f e).valid = true)
    (hallowed : ∀ e, (f e).readAllowed = e.readAllowed ∧ (f e).writeAllowed = e.writeAllowed) :
    FramesOk ((m.modifyEntry b v f).modifyFrame p fun fr => { fr with locked := false }) where
  nodup := h.nodup
  free p' := by
    rw [Memory.modifyFrame_tpr]
    split
    · rename_i he
      rw [he]
      exact h.free p
    · exact h.free p'
  valid b' v' hd' hv' := by
    rw [Memory.modifyFrame_entry, Memory.entry_modifyEntry] at hv' ⊢
    rw [modifyFrame_size, modifyEntry_size]
    split at hv'
    · rename_i he
      rw [if_pos he, he.1, he.2, hio, hpage, Memory.modifyFrame_tpr, if_pos rfl]
      refine ⟨hsize, rfl, hp, ?_⟩
      show (⟨(m.tpr p).free, false, (m.tpr p).virtualPage, (m.tpr p).owner⟩ : Frame) = _
      rw [hfree, hb, hv]
    · rename_i hne
      rw [if_neg hne]
      obtain ⟨hlt, hclear, hframe, htpr⟩ := h.valid b' v' hd' hv'
      refine ⟨hlt, hclear, hframe, ?_⟩
      rw [Memory.modifyFrame_tpr, if_neg]
      · exact htpr
      · intro he
        rw [he] at htpr
        rw [htpr] at hlocked
        cases hlocked
  used p' hp' hf hl := by
    rw [Memory.modifyFrame_tpr] at hf hl ⊢
    split at hf
    · rename_i he
      rw [if_pos he]
      refine ⟨b, hb, hd, ?_⟩
      rw [Memory.modifyFrame_entry]
      show ((m.modifyEntry b v f).entry b (m.tpr p).virtualPage).valid = true ∧
        ((m.modifyEntry b v f).entry b (m.tpr p).virtualPage).physicalPage = p'
      rw [hv, Memory.entry_modifyEntry_self, hvalid, hpage]
      exact ⟨rfl, he.symm⟩
    · rename_i he
      rw [if_neg he] at hl ⊢
      obtain ⟨b', ho, hd', hvalid', hpage'⟩ := h.used p' hp' hf hl
      refine ⟨b', ho, hd', ?_⟩
      rw [Memory.modifyFrame_entry, Memory.entry_modifyEntry, if_neg]
      · exact ⟨hvalid', hpage'⟩
      · rintro ⟨hbb, hvv⟩
        rw [hbb] at hvalid'
        change (m.tpr p').virtualPage = v at hvv
        change (m.entry b (m.tpr p').virtualPage).valid = true at hvalid'
        rw [hvv, hnot] at hvalid'
        cases hvalid'
  allowed b' v' ha := by
    rw [Memory.modifyFrame_entry] at ha
    rw [Memory.field_modifyEntry PageTableEntry.readAllowed fun e => (hallowed e).1,
      Memory.field_modifyEntry PageTableEntry.writeAllowed fun e => (hallowed e).2] at ha
    rw [modifyFrame_size, modifyEntry_size]
    exact h.allowed b' v' ha

/-- The release of a frame that is not locked. -/
theorem release (h : FramesOk m) (hp : p < NumPhysPages) (hlocked : (m.tpr p).locked = false)
    (hr : Released m p b m') : FramesOk m' := by
  obtain ⟨b₀, hb₀, -, hvalid, hpage⟩ := h.used p hp hr.used hlocked
  obtain rfl := Option.some.inj (hr.owner.symm.trans hb₀)
  exact {
    nodup := by
      rw [hr.list]
      refine List.nodup_cons.mpr ⟨fun hm => ?_, h.nodup⟩
      have hused := hr.used
      rw [((h.free p).mp hm).2] at hused
      cases hused
    free := by
      intro p'
      rw [hr.list, hr.tpr, List.mem_cons]
      by_cases he : p' = p
      · rw [if_pos he, he]
        simp [hp]
      · rw [if_neg he]
        simpa [he] using h.free p'
    valid := by
      intro b' v' hd' hv'
      rw [hr.status] at hd'
      rw [hr.entry] at hv' ⊢
      rw [hr.size]
      split at hv'
      · cases hv'
      · rename_i hne
        rw [if_neg hne]
        obtain ⟨hlt, hclear, hframe, htpr⟩ := h.valid b' v' hd' hv'
        refine ⟨hlt, hclear, hframe, ?_⟩
        rw [hr.tpr, if_neg]
        · exact htpr
        · intro he
          apply hne
          have hown := hr.owner
          rw [he] at htpr
          rw [htpr] at hown ⊢
          exact ⟨Option.some.inj hown, rfl⟩
    used := by
      intro p' hp' hf hl
      rw [hr.tpr] at hf hl
      split at hf
      · cases hf
      · rename_i he
        rw [if_neg he] at hl
        obtain ⟨b', ho, hd', hvalid', hpage'⟩ := h.used p' hp' hf hl
        -- The page of another frame is another page.
        have hne : ¬ (b' = b ∧ (m.tpr p').virtualPage = (m.tpr p).virtualPage) := by
          rintro ⟨hbb, hvv⟩
          rw [hbb, hvv, hpage] at hpage'
          exact he hpage'.symm
        refine ⟨b', ?_⟩
        rw [hr.tpr, if_neg he, hr.status, hr.entry, if_neg hne]
        exact ⟨ho, hd', hvalid', hpage'⟩
    allowed := by
      intro b' v' ha
      rw [hr.size]
      apply h.allowed b' v'
      rw [hr.entry] at ha
      split at ha
      · rename_i he
        rw [he.1, he.2]
        exact ha
      · exact ha }

/-- A change of status of an address space that is deleted neither before nor after. -/
theorem status (h : FramesOk m) {st : Status} (hd : m.status b ≠ .dead) (hst : st ≠ .dead) :
    FramesOk { m with status := Function.update m.status b st } := by
  have hiff : ∀ b', Function.update m.status b st b' ≠ .dead ↔ m.status b' ≠ .dead := by
    intro b'
    by_cases hb : b' = b
    · rw [hb, Function.update_self]
      exact ⟨fun _ => hd, fun _ => hst⟩
    · rw [Function.update_of_ne hb]
  exact {
    nodup := h.nodup
    free := h.free
    valid := fun b' v hd' hv => h.valid b' v ((hiff b').mp hd') hv
    used := by
      intro p hp hf hl
      obtain ⟨b', ho, hd', hv⟩ := h.used p hp hf hl
      exact ⟨b', ho, (hiff b').mpr hd', hv⟩
    allowed := h.allowed }

/-- The translation table of an address space without valid pages is deleted. -/
theorem delete (h : FramesOk m) (hnone : ∀ v, (m.entry b v).valid = false) :
    FramesOk { m with status := Function.update m.status b .dead } where
  nodup := h.nodup
  free := h.free
  valid b' v hd hv := by
    apply h.valid b' v _ hv
    intro hdead
    apply hd
    by_cases hb : b' = b
    · rw [hb]
      exact Function.update_self _ _ _
    · exact (Function.update_of_ne hb _ _).trans hdead
  used p hp hf hl := by
    obtain ⟨b', ho, hd, hv, hpage⟩ := h.used p hp hf hl
    refine ⟨b', ho, ?_, hv, hpage⟩
    have hb : b' ≠ b := by
      rintro rfl
      change (m.entry b' (m.tpr p).virtualPage).valid = true at hv
      rw [hnone] at hv
      cases hv
    show Function.update m.status b .dead b' ≠ .dead
    rwa [Function.update_of_ne hb]
  allowed := h.allowed

end FramesOk

end Frames

/-! ## The steps -/

section Steps

variable {T} {s : System} {m' : Memory} {p p' : Pc}

omit [VmConfig] in
theorem SameFrames.apart (h : SameFrames s.memory m') : Apart T s m' where
  size := h.size
  io b v hio := Or.inl (by rw [h.io, hio])
  tpr f _ _ := Or.inl (by rw [h.tpr])
  status b := Or.inl (by rw [h.status])
  pages b v _ := ⟨fun hv => by rwa [h.valid] at hv, h.page b v⟩

/-- The places at which no more is known than what the thread holds. -/
def Pc.plain : Pc → Bool
  | .faultIo _ => false
  | .faultYield _ => false
  | .evictIo _ _ => false
  | .evictYield _ _ => false
  | .mapped _ _ => false
  | .destroyWrite _ _ _ _ _ => false
  | .destroyWrote _ _ => false
  | _ => true

/-- At a plain place the thread holds what it held. -/
theorem Ok.move {m m' : Memory} {t : ThreadId} (h : Ok T m t p) (hs : SameFrames m m')
    (hload : p'.loading = p.loading) (hev : p'.evicting = p.evicting)
    (hframe : p'.frame = p.frame) (hdes : p'.destroys = p.destroys) (hplain : p'.plain) :
    Ok T m' t p' where
  live hd := by
    rw [hs.status]
    exact h.live (hdes ▸ hd)
  bound v hv := by
    rw [hs.size]
    exact h.bound v (hload ▸ hv)
  asked q hq := by
    rcases hq with rfl | rfl
    · cases hplain
    · cases hplain
  io r hr := by
    rw [hs.io]
    apply h.io
    unfold HoldsIo at hr ⊢
    rwa [hload, hev] at hr
  apart v r hv hr := h.apart v r (hload ▸ hv) (hev ▸ hr)
  frame f hf := by
    rw [hs.tpr]
    exact h.frame f (hframe ▸ hf)
  destroys b i hd := by
    rw [hs.status]
    obtain ⟨hst, hvalid⟩ := h.destroys b i (hdes ▸ hd)
    refine ⟨hst, fun j hj => ?_⟩
    rw [hs.valid]
    exact hvalid j hj
  destroyed b i hd := by
    rcases hd with ⟨f, ad, p'', rfl⟩ | rfl
    · cases hplain
    · cases hplain
  victim q x hq := by
    subst hq
    cases hplain
  noYield q x := by
    rintro rfl
    cases hplain
  mapped q f hq := by
    subst hq
    cases hplain

omit [VmConfig] in
/-- The thread holds what it held. -/
theorem takes_of_same (hp : s.pc s.current = some p) (hload : p'.loading = p.loading)
    (hev : p'.evicting = p.evicting) (hframe : p'.frame = p.frame)
    (hdes : p'.destroys = p.destroys) : Takes T s p' where
  io r hr := by
    left
    rw [heldAt_iff hp]
    unfold HoldsIo at hr ⊢
    rwa [hload, hev] at hr
  frame f hf := by
    left
    rw [heldAt_iff hp]
    show p.frame = some f
    rw [← hframe, hf]
  destroys b hb := by
    rw [heldAt_iff hp]
    obtain ⟨i, hi⟩ := hb
    exact ⟨i, hdes ▸ hi⟩

/-- The running thread goes to a plain place, and the frames are not concerned. -/
theorem Inv.move (h : Inv T s) (hp : s.pc s.current = some p) (hs : SameFrames s.memory m')
    (hload : p'.loading = p.loading) (hev : p'.evicting = p.evicting)
    (hframe : p'.frame = p.frame) (hdes : p'.destroys = p.destroys) (hplain : p'.plain) :
    Inv T ⟨m', s.current, Function.update s.pc s.current (some p')⟩ := by
  apply h.advance (by simp [hp]) (hs.framesOk h.frames) hs.apart
  intro p'' hp''
  obtain rfl := Option.some.inj hp''
  exact ⟨(h.ok _ p hp).move hs hload hev hframe hdes hplain,
    takes_of_same hp hload hev hframe hdes⟩

/-- The routine returns. -/
theorem Inv.return (h : Inv T s) (hp : s.pc s.current = some p) (hs : SameFrames s.memory m') :
    Inv T ⟨m', s.current, Function.update s.pc s.current none⟩ := by
  apply h.advance (by simp [hp]) (hs.framesOk h.frames) hs.apart
  intro p'' hp''
  cases hp''

/-- To a place before `setBitIo`, where the page must be one of the address space. -/
theorem Inv.ask (h : Inv T s) (hp : s.pc s.current = some p) {q : Fault}
    (hq : p' = .faultIo q ∨ p' = .faultYield q)
    (hfrom : p = .faultIo q ∨ p = .faultYield q) :
    Inv T ⟨s.memory, s.current, Function.update s.pc s.current (some p')⟩ := by
  have hok := h.ok _ p hp
  have hask := hok.asked q hfrom
  have hd : p.destroys = none := by
    rcases hfrom with rfl | rfl
    · rfl
    · rfl
  apply h.advance (by simp [hp]) h.frames (SameFrames.refl _).apart
  intro p'' hp''
  obtain rfl := Option.some.inj hp''
  have hnew : Ok T s.memory s.current p' := by
    rcases hq with rfl | rfl
    all_goals
      exact {
        live := fun _ => hok.live hd
        bound := by simp [Pc.loading]
        asked := by
          intro q' hq'
          rcases hq' with hq' | hq'
          all_goals
            cases hq'
            try exact hask
        io := by simp [HoldsIo, Pc.loading, Pc.evicting]
        apart := by simp [Pc.loading]
        frame := by simp [Pc.frame]
        destroys := by simp [Pc.destroys]
        destroyed := by simp
        victim := by simp
        noYield := by simp
        mapped := by simp }
  refine ⟨hnew, ?_⟩
  rcases hq with rfl | rfl
  all_goals
    exact {
      io := by simp [HoldsIo, Pc.loading, Pc.evicting]
      frame := by simp [Pc.frame]
      destroys := by simp [Destroys, Pc.destroys] }

/-- `setBitIo` of `PageFault`. -/
theorem Inv.startLoad (h : Inv T s) {q : Fault} (hp : s.pc s.current = some (.faultIo q))
    (hio : (s.memory.entry (T.process s.current) q.vpn).io = false)
    (hvalid : (s.memory.entry (T.process s.current) q.vpn).valid = false)
    (hload : p'.loading = some q.vpn) (hev : p'.evicting = none) (hframe : p'.frame = none)
    (hdes : p'.destroys = none) (hplain : p'.plain) :
    Inv T ⟨s.memory.modifyEntry (T.process s.current) q.vpn .setBitIo,
      s.current, Function.update s.pc s.current (some p')⟩ := by
  have hok := h.ok _ _ hp
  apply h.advance (by simp [hp])
  · apply h.frames.modifyIo (f := .setBitIo) (fun _ => rfl) (fun _ => rfl) fun _ => ⟨rfl, rfl⟩
    intro _ hv
    rw [hvalid] at hv
    cases hv
  · exact {
      size := modifyEntry_size _
      io := by
        intro b v hb
        left
        rw [Memory.entry_modifyEntry]
        split
        · rfl
        · exact hb
      tpr := fun f _ _ => Or.inl rfl
      status := fun b => Or.inl rfl
      pages := by
        intro b v _
        have hval : ((s.memory.modifyEntry (T.process s.current) q.vpn .setBitIo).entry b v).valid =
            (s.memory.entry b v).valid :=
          Memory.field_modifyEntry PageTableEntry.valid fun _ => rfl
        have hpg : ((s.memory.modifyEntry (T.process s.current) q.vpn .setBitIo).entry
            b v).physicalPage = (s.memory.entry b v).physicalPage :=
          Memory.field_modifyEntry PageTableEntry.physicalPage fun _ => rfl
        exact ⟨fun hv => hval ▸ hv, hpg⟩ }
  -- What the thread relies on at its new place, and what it holds there.
  · intro p'' hp''
    obtain rfl := Option.some.inj hp''
    -- It holds the bit `io` of the page, and no frame.
    have hholds : ∀ r, HoldsIo T s.current p' r → r = (T.process s.current, q.vpn) := by
      intro r hr
      rcases hr with ⟨hb, hv⟩ | hr
      · rw [hload] at hv
        exact Prod.ext hb (Option.some.inj hv).symm
      · rw [hev] at hr
        cases hr
    constructor
    · exact {
        live := fun _ => hok.live rfl
        bound := by
          intro v hv
          rw [hload] at hv
          rw [modifyEntry_size, ← Option.some.inj hv]
          exact hok.asked q (Or.inl rfl)
        asked := by
          rintro q' (rfl | rfl)
          · cases hplain
          · cases hplain
        io := by
          intro r hr
          rw [hholds r hr, Memory.entry_modifyEntry_self]
          rfl
        apart := by
          intro v r _ hr
          rw [hev] at hr
          cases hr
        frame := by
          intro f hf
          rw [hframe] at hf
          cases hf
        destroys := by
          intro b i hd
          rw [hdes] at hd
          cases hd
        destroyed := by
          rintro b i (⟨f, ad, p'', rfl⟩ | rfl)
          · cases hplain
          · cases hplain
        victim := by
          rintro q' x rfl
          cases hplain
        noYield := by
          rintro q' x rfl
          cases hplain
        mapped := by
          rintro q' f rfl
          cases hplain }
    · exact {
        io := by
          intro r hr
          right
          rw [hholds r hr]
          exact hio
        frame := by
          intro f hf
          rw [hframe] at hf
          cases hf
        destroys := by
          rintro b ⟨i, hi⟩
          rw [hdes] at hi
          cases hi }

/-- The place at which the thread has got a frame. -/
theorem Ok.atMapped {m : Memory} {t : ThreadId} {q : Fault} {f : Nat}
    (hlive : m.status (T.process t) = .live)
    (hbound : q.vpn < (m.spaces (T.process t)).freePageId)
    (hio : (m.entry (T.process t) q.vpn).io = true) (hlt : f < NumPhysPages)
    (htpr : m.tpr f = ⟨false, true, q.vpn, some (T.process t)⟩) : Ok T m t (.mapped q f) where
  live _ := hlive
  bound v hv := by
    obtain rfl := Option.some.inj hv
    exact hbound
  asked q' hq' := by simp at hq'
  io r hr := by
    rcases hr with ⟨hb, hv⟩ | hr
    · obtain rfl : r = (T.process t, q.vpn) := Prod.ext hb (Option.some.inj hv).symm
      exact hio
    · cases hr
  apart v r _ hr := by cases hr
  frame f' hf := by
    obtain rfl := Option.some.inj hf
    rw [htpr]
    exact ⟨hlt, rfl, rfl⟩
  destroys b i hd := by cases hd
  destroyed b i hd := by simp at hd
  victim q' x hq := by cases hq
  noYield q' x := by simp
  mapped q' f' hq := by
    cases hq
    rw [htpr]
    exact ⟨rfl, rfl⟩

/-- A frame that is not locked, or that is free, is held by nobody. -/
theorem Inv.notHeld (h : Inv T s) {f : Nat}
    (hf : (s.memory.tpr f).free = true ∨ (s.memory.tpr f).locked = false) (u : ThreadId) :
    ¬ HeldAt HoldsFrame s.pc u f := by
  rintro ⟨p, hp, hpf⟩
  obtain ⟨-, hfree, hlocked⟩ := (h.ok u p hp).frame f hpf
  rcases hf with hf | hf
  · rw [hfree] at hf
    cases hf
  · rw [hlocked] at hf
    cases hf

/-- `FindFreePage`. -/
theorem Inv.findFree (h : Inv T s) {q : Fault} {f : Nat} {rest : List Nat}
    (hp : s.pc s.current = some (.map q)) (hl : s.memory.free_page_list = f :: rest) :
    Inv T ⟨{ s.memory with free_page_list := rest }.modifyFrame f fun _ =>
        { free := false, locked := true, virtualPage := q.vpn,
          owner := some (T.process s.current) },
      s.current, Function.update s.pc s.current (some (.mapped q f))⟩ := by
  have hok := h.ok _ _ hp
  obtain ⟨hlt, hfree⟩ := (h.frames.free f).mp (by rw [hl]; simp)
  apply h.advance (by simp [hp]) (h.frames.take hl rfl rfl)
  · exact {
      size := fun _ => rfl
      io := fun _ _ hio => Or.inl hio
      tpr := by
        intro f' hf' _
        left
        rw [Memory.modifyFrame_tpr, if_neg]
        rintro rfl
        rw [hfree] at hf'
        cases hf'
      status := fun _ => Or.inl rfl
      pages := fun _ _ _ => ⟨id, rfl⟩ }
  · intro p'' hp''
    obtain rfl := Option.some.inj hp''
    constructor
    · apply Ok.atMapped
      · exact hok.live rfl
      · exact hok.bound _ rfl
      · exact hok.io (T.process s.current, q.vpn) (Or.inl ⟨rfl, rfl⟩)
      · exact hlt
      · exact Memory.modifyFrame_tpr_self _
    · exact {
        io := by
          intro r hr
          left
          rw [heldAt_iff hp]
          exact hr
        frame := by
          intro f' hf'
          obtain rfl := Option.some.inj hf'
          exact Or.inr (h.notHeld (Or.inl hfree))
        destroys := by
          rintro b ⟨i, hi⟩
          cases hi }

/-- The clock finds a frame that is not locked. -/
theorem Inv.found (h : Inv T s) {q : Fault} {loc i : Nat} {b : SpaceId} {v : Nat}
    (hp : s.pc s.current = some (.search q loc i)) (hlt : loc < NumPhysPages)
    (hfree : (s.memory.tpr loc).free = false) (hlocked : (s.memory.tpr loc).locked = false)
    (hb : (s.memory.tpr loc).owner = some b) (hv : (s.memory.tpr loc).virtualPage = v) :
    Inv T ⟨{ s.memory.modifyEntry b v .clearBitValid with i_clock := loc }.modifyFrame loc
        fun fr => { fr with locked := true },
      s.current, Function.update s.pc s.current (some (.evictIo q ⟨loc, b, v⟩))⟩ := by
  have hok := h.ok _ _ hp
  have hframes := h.frames.lockVictim hlt hfree hlocked hb hv
  -- The frame is used by a valid page of its owner.
  obtain ⟨b', hb', hdead, hvalid, -⟩ := h.frames.used loc hlt hfree hlocked
  obtain rfl := Option.some.inj (hb.symm.trans hb')
  rw [hv] at hvalid
  have hio := (h.frames.valid b v hdead hvalid).2.1
  have hvalid' : ∀ b' v', ((s.memory.modifyEntry b v .clearBitValid).entry b' v').valid = true →
      (s.memory.entry b' v').valid = true := by
    intro b' v' hv'
    rw [Memory.entry_modifyEntry] at hv'
    split at hv'
    · cases hv'
    · exact hv'
  -- Only the `valid` bit of the victim changes.
  have hio' : ∀ b' v', ((s.memory.modifyEntry b v .clearBitValid).entry b' v').io =
      (s.memory.entry b' v').io := fun b' v' =>
    Memory.field_modifyEntry PageTableEntry.io fun _ => rfl
  apply h.advance (by simp [hp])
  · exact ⟨hframes.nodup, hframes.free, hframes.valid, hframes.used, hframes.allowed⟩
  · exact {
      size := modifyEntry_size _
      io := fun b' v' hb' => Or.inl ((hio' b' v').trans hb')
      tpr := by
        intro f' _ hf'
        left
        rw [Memory.modifyFrame_tpr, if_neg]
        · rfl
        · rintro rfl
          rw [hlocked] at hf'
          cases hf'
      status := fun _ => Or.inl rfl
      pages := fun b' v' _ => ⟨hvalid' b' v',
        Memory.field_modifyEntry PageTableEntry.physicalPage fun _ => rfl⟩ }
  · intro p'' hp''
    obtain rfl := Option.some.inj hp''
    constructor
    · exact {
        live := fun _ => hok.live rfl
        bound := by
          intro v' hv'
          rw [modifyFrame_size]
          exact (modifyEntry_size _ _).symm ▸ hok.bound v' hv'
        asked := by simp
        io := by
          intro r hr
          exact (hio' r.1 r.2).trans (hok.io r hr)
        apart := by
          intro v' r _ hr
          cases hr
        frame := by
          intro f hf
          obtain rfl := Option.some.inj hf
          rw [Memory.modifyFrame_tpr_self]
          exact ⟨hlt, hfree, rfl⟩
        destroys := by
          intro b' i hd
          cases hd
        destroyed := by simp
        victim := by
          intro q' x hx
          obtain ⟨rfl, rfl⟩ := Pc.evictIo.inj hx
          rw [Memory.modifyFrame_entry]
          constructor
          · exact congrArg PageTableEntry.valid (Memory.entry_modifyEntry_self _)
          · exact (hio' b v).trans hio
        noYield := by simp
        mapped := by simp }
    · exact {
        io := by
          intro r hr
          left
          rw [heldAt_iff hp]
          exact hr
        frame := by
          intro f hf
          obtain rfl := Option.some.inj hf
          exact Or.inr (h.notHeld (Or.inr hlocked))
        destroys := by
          rintro b ⟨i, hi⟩
          cases hi }

/-- `clearBitIo` of `EvictPage`, and the frame for the page of the fault. -/
theorem Inv.takeOver (h : Inv T s) {q : Fault} {x : Victim} (hp : s.pc s.current = some p)
    (hload : p.loading = some q.vpn) (hframe : p.frame = some x.frame) (hdes : p.destroys = none)
    (hev : p.evicting = some (x.space, x.vpn) ∨ (s.memory.entry x.space x.vpn).io = false)
    (hne : (x.space, x.vpn) ≠ (T.process s.current, q.vpn))
    (hsame : SameFrames (s.memory.modifyEntry x.space x.vpn .clearBitIo)
      (m'.modifyEntry x.space x.vpn .clearBitIo)) :
    Inv T ⟨m'.takeOver (T.process s.current) q x, s.current,
      Function.update s.pc s.current (some (.mapped q x.frame))⟩ := by
  have hok := h.ok _ p hp
  obtain ⟨hlt, hfree, hlocked⟩ := hok.frame _ hframe
  have hheld : HeldAt HoldsFrame s.pc s.current x.frame := heldAt_of hp hframe
  have hcleared : FramesOk (s.memory.modifyEntry x.space x.vpn .clearBitIo) :=
    h.frames.modifyIo (f := .clearBitIo) (fun _ => rfl) (fun _ => rfl) (fun _ => ⟨rfl, rfl⟩)
      fun _ _ => rfl
  have hframes := hsame.framesOk hcleared
  have htpr : (m'.modifyEntry x.space x.vpn .clearBitIo).tpr = s.memory.tpr := hsame.tpr
  -- The bit of every other page is as it was.
  have hio : ∀ b v, (b, v) ≠ (x.space, x.vpn) → (s.memory.entry b v).io = true →
      ((m'.modifyEntry x.space x.vpn .clearBitIo).entry b v).io = true := by
    intro b v hbv hb
    rw [hsame.io, Memory.entry_modifyEntry, if_neg]
    · exact hb
    · rintro ⟨rfl, rfl⟩
      exact hbv rfl
  unfold Memory.takeOver
  -- The frames, the other threads, and the place at which the thread goes on.
  apply h.advance (by simp [hp])
  · apply hframes.modifyLocked
    · rw [htpr]
      exact hlocked
    · rfl
    · rfl
  · exact {
      size := by
        intro b
        rw [modifyFrame_size, hsame.size, modifyEntry_size]
      io := by
        intro b v hb
        by_cases hbv : (b, v) = (x.space, x.vpn)
        · -- Only the thread that evicts the page clears its bit.
          right
          rcases hev with hev | hev
          · exact heldAt_of hp (Or.inr (hbv ▸ hev))
          · obtain ⟨rfl, rfl⟩ := Prod.mk.inj hbv
            rw [hev] at hb
            cases hb
        · exact Or.inl (hio b v hbv hb)
      tpr := by
        intro f _ _
        by_cases hf : f = x.frame
        · right
          rw [hf]
          exact hheld
        · left
          rw [Memory.modifyFrame_tpr, if_neg hf, htpr]
      status := fun b => Or.inl (congrFun hsame.status b)
      pages := by
        intro b v _
        have hvalid := (hsame.valid b v).trans
          (Memory.field_modifyEntry PageTableEntry.valid fun _ => rfl)
        have hpage := (hsame.page b v).trans
          (Memory.field_modifyEntry PageTableEntry.physicalPage fun _ => rfl)
        exact ⟨fun hv => hvalid ▸ hv, hpage⟩ }
  · intro p'' hp''
    obtain rfl := Option.some.inj hp''
    constructor
    · apply Ok.atMapped
      · exact (congrFun hsame.status _).trans (hok.live hdes)
      · rw [modifyFrame_size, hsame.size, modifyEntry_size]
        exact hok.bound _ hload
      · exact hio _ _ hne.symm (hok.io (T.process s.current, q.vpn) (Or.inl ⟨rfl, hload⟩))
      · exact hlt
      · rw [Memory.modifyFrame_tpr_self, htpr, hfree]
    · exact {
        io := by
          intro r hr
          left
          rw [heldAt_iff hp]
          rcases hr with ⟨hb, hv⟩ | hr
          · exact Or.inl ⟨hb, hload.trans hv⟩
          · cases hr
        frame := by
          intro f hf
          obtain rfl := Option.some.inj hf
          exact Or.inl hheld
        destroys := by
          rintro b ⟨i, hi⟩
          cases hi }

omit [VmConfig] in
theorem SameFrames.clearIo {m m' : Memory} (h : SameFrames m m') (b : SpaceId) (v : Nat) :
    SameFrames (m.modifyEntry b v .clearBitIo) (m'.modifyEntry b v .clearBitIo) where
  tpr := h.tpr
  list := h.list
  status := h.status
  size b' := by rw [modifyEntry_size, modifyEntry_size, h.size]
  valid b' v' := by
    rw [Memory.field_modifyEntry (f := .clearBitIo) PageTableEntry.valid fun _ => rfl,
      Memory.field_modifyEntry (f := .clearBitIo) PageTableEntry.valid fun _ => rfl, h.valid]
  io b' v' := by
    rw [Memory.entry_modifyEntry, Memory.entry_modifyEntry]
    split
    · rfl
    · exact h.io b' v'
  page b' v' := by
    rw [Memory.field_modifyEntry (f := .clearBitIo) PageTableEntry.physicalPage fun _ => rfl,
      Memory.field_modifyEntry (f := .clearBitIo) PageTableEntry.physicalPage fun _ => rfl, h.page]
  allowed b' v' := by
    rw [Memory.field_modifyEntry (f := .clearBitIo) PageTableEntry.readAllowed fun _ => rfl,
      Memory.field_modifyEntry (f := .clearBitIo) PageTableEntry.readAllowed fun _ => rfl,
      Memory.field_modifyEntry (f := .clearBitIo) PageTableEntry.writeAllowed fun _ => rfl,
      Memory.field_modifyEntry (f := .clearBitIo) PageTableEntry.writeAllowed fun _ => rfl]
    exact h.allowed b' v'

omit [VmConfig] in
/-- The bit is as if it had not been set. -/
theorem sameFrames_clear_set (m : Memory) (b : SpaceId) (v : Nat) :
    SameFrames (m.modifyEntry b v .clearBitIo)
      ((m.modifyEntry b v .setBitIo).modifyEntry b v .clearBitIo) := by
  have hentry : ∀ b' v', ((m.modifyEntry b v .setBitIo).modifyEntry b v .clearBitIo).entry b' v' =
      (m.modifyEntry b v .clearBitIo).entry b' v' := by
    intro b' v'
    rw [Memory.entry_modifyEntry, Memory.entry_modifyEntry, Memory.entry_modifyEntry,
      Memory.entry_modifyEntry]
    split
    · simp [PageTableEntry.clearBitIo, PageTableEntry.setBitIo]
    · rfl
  exact {
    tpr := rfl
    list := rfl
    status := rfl
    size := fun b' => by rw [modifyEntry_size, modifyEntry_size, modifyEntry_size]
    valid := fun b' v' => by rw [hentry]
    io := fun b' v' => by rw [hentry]
    page := fun b' v' => by rw [hentry]
    allowed := fun b' v' => by rw [hentry]; exact ⟨rfl, rfl⟩ }

omit [VmConfig] in
theorem putPageSwap_sameFrames (m : Memory) (num_sector : Int) :
    SameFrames m (m.PutPageSwap num_sector).1 := by
  unfold Memory.PutPageSwap
  split
  · exact SameFrames.refl m
  · split
    · exact ⟨rfl, rfl, rfl, fun _ => rfl, fun _ _ => rfl, fun _ _ => rfl, fun _ _ => rfl,
        fun _ _ => ⟨rfl, rfl⟩⟩
    · exact SameFrames.refl m

omit [VmConfig] in
theorem setAddrDisk_sameFrames (m : Memory) (b : SpaceId) (v : Nat) (ad : Int) :
    SameFrames m (m.modifyEntry b v (.setAddrDisk ad)) :=
  SameFrames.modifyEntry (fun _ => rfl) (fun _ => rfl) (fun _ => rfl) fun _ => ⟨rfl, rfl⟩

omit [VmConfig] in
theorem swapped_sameFrames (m : Memory) (b : SpaceId) (v : Nat) (ad : Int) (fresh : Bool) :
    SameFrames m (m.modifyEntry b v (.swapped ad fresh)) := by
  cases fresh with
  | true =>
      exact SameFrames.modifyEntry (f := .swapped ad true) (fun _ => rfl) (fun _ => rfl)
        (fun _ => rfl) fun _ => ⟨rfl, rfl⟩
  | false =>
      exact SameFrames.modifyEntry (f := .swapped ad false) (fun _ => rfl) (fun _ => rfl)
        (fun _ => rfl) fun _ => ⟨rfl, rfl⟩

/-- Where `EvictPage` goes after `setBitIo`: to a disk, or on with the frame at once. -/
inductive EvictCases (me : SpaceId) (m : Memory) (q : Fault) (x : Victim) : Memory × Pc → Prop
  | file (f : FileId) (ad : Int) : EvictCases me m q x (m, .writeFile q x f ad)
  | swap {m' : Memory} {s : Nat} {ad : Int} {fresh : Bool} (h : SameFrames m m') :
      EvictCases me m q x (m', .writeSwap q x s ad fresh)
  | on {m' : Memory} (h : SameFrames m m') :
      EvictCases me m q x (m'.takeOver me q x, .mapped q x.frame)

omit [VmConfig] in
theorem swapOut_cases (me : SpaceId) (m : Memory) (q : Fault) (x : Victim) (num_sector : Int)
    (fresh : Bool) : EvictCases me m q x (swapOut me m q x num_sector fresh) := by
  have hsame := (setAddrDisk_sameFrames m x.space x.vpn (-1)).trans
    (putPageSwap_sameFrames _ num_sector)
  unfold swapOut
  dsimp only
  split
  · rename_i m' s heq
    rw [heq] at hsame
    exact .swap hsame
  · rename_i m' heq
    rw [heq] at hsame
    exact .on (hsame.trans (swapped_sameFrames m' x.space x.vpn num_sector fresh))

theorem evict_cases (me : SpaceId) (m : Memory) (q : Fault) (x : Victim) :
    EvictCases me m q x (evict me m q x) := by
  unfold evict
  dsimp only
  split
  · rename_i f _
    split
    · exact .file f _
    · exact .on (SameFrames.refl m)
  · split
    · split
      · exact swapOut_cases me m q x _ false
      · exact .on (SameFrames.refl m)
    · exact swapOut_cases me m q x (-1) true

/-- `setBitIo` of `EvictPage`, on the way to a disk. -/
theorem Inv.startWrite (h : Inv T s) {q : Fault} {x : Victim}
    (hp : s.pc s.current = some (.evictIo q x))
    (hsame : SameFrames (s.memory.modifyEntry x.space x.vpn .setBitIo) m')
    (hload : p'.loading = some q.vpn) (hev : p'.evicting = some (x.space, x.vpn))
    (hframe : p'.frame = some x.frame) (hdes : p'.destroys = none) (hplain : p'.plain) :
    Inv T ⟨m', s.current, Function.update s.pc s.current (some p')⟩ := by
  have hok := h.ok _ _ hp
  obtain ⟨hvalid, hio⟩ := hok.victim q x rfl
  have hsetIo : ∀ b v, (s.memory.entry b v).io = true ∨ (b, v) = (x.space, x.vpn) →
      (m'.entry b v).io = true := by
    intro b v hb
    rw [hsame.io, Memory.entry_modifyEntry]
    split
    · rfl
    · rename_i hne
      rcases hb with hb | hb
      · exact hb
      · exact absurd (Prod.mk.inj hb) hne
  have hsetValid : ∀ b v, (m'.entry b v).valid = (s.memory.entry b v).valid := fun b v =>
    (hsame.valid b v).trans
      (Memory.field_modifyEntry (f := .setBitIo) PageTableEntry.valid fun _ => rfl)
  -- The victim is another page: the page of the fault has its bit already.
  have hne : (x.space, x.vpn) ≠ (T.process s.current, q.vpn) := by
    intro he
    obtain ⟨hb, hv⟩ := Prod.mk.inj he
    have := hok.io (T.process s.current, q.vpn) (Or.inl ⟨rfl, rfl⟩)
    rw [← hb, ← hv, hio] at this
    cases this
  apply h.advance (by simp [hp])
  · apply hsame.framesOk
    apply h.frames.modifyIo (f := .setBitIo) (fun _ => rfl) (fun _ => rfl) fun _ => ⟨rfl, rfl⟩
    intro _ hv
    rw [hvalid] at hv
    cases hv
  · exact {
      size := fun b => (hsame.size b).trans (modifyEntry_size _ b)
      io := fun b v hb => Or.inl (hsetIo b v (Or.inl hb))
      tpr := fun f _ _ => Or.inl (congrFun hsame.tpr f)
      status := fun b => Or.inl (congrFun hsame.status b)
      pages := fun b v _ => ⟨fun hv => hsetValid b v ▸ hv, (hsame.page b v).trans
        (Memory.field_modifyEntry (f := .setBitIo) PageTableEntry.physicalPage fun _ => rfl)⟩ }
  · intro p'' hp''
    obtain rfl := Option.some.inj hp''
    constructor
    · exact {
        live := fun _ => (congrFun hsame.status _).trans (hok.live rfl)
        bound := by
          intro v hv
          rw [hload] at hv
          rw [hsame.size, modifyEntry_size, ← Option.some.inj hv]
          exact hok.bound _ rfl
        asked := by
          rintro q' (rfl | rfl)
          · cases hplain
          · cases hplain
        io := by
          intro r hr
          apply hsetIo
          rcases hr with ⟨hb, hv⟩ | hr
          · left
            exact hok.io r (Or.inl ⟨hb, hload.symm.trans hv⟩)
          · right
            rw [hev] at hr
            exact (Option.some.inj hr).symm
        apart := by
          intro v r hv hr
          rw [hload] at hv
          rw [hev] at hr
          rw [← Option.some.inj hv, ← Option.some.inj hr]
          exact hne
        frame := by
          intro f hf
          rw [hframe] at hf
          rw [hsame.tpr]
          exact hok.frame f hf
        destroys := by
          intro b i hd
          rw [hdes] at hd
          cases hd
        destroyed := by
          rintro b i (⟨f, ad, p'', rfl⟩ | rfl)
          · cases hplain
          · cases hplain
        victim := by
          rintro q' x' rfl
          cases hplain
        noYield := by
          rintro q' x' rfl
          cases hplain
        mapped := by
          rintro q' f rfl
          cases hplain }
    · exact {
        io := by
          intro r hr
          rcases hr with ⟨hb, hv⟩ | hr
          · left
            exact heldAt_of hp (Or.inl ⟨hb, hload.symm.trans hv⟩)
          · right
            rw [hev] at hr
            rw [← Option.some.inj hr]
            exact hio
        frame := by
          intro f hf
          left
          exact heldAt_of hp (hframe.symm.trans hf)
        destroys := by
          rintro b ⟨i, hi⟩
          rw [hdes] at hi
          cases hi }

/-- `EvictPage` from `setBitIo` on. -/
theorem Inv.evict (h : Inv T s) {q : Fault} {x : Victim}
    (hp : s.pc s.current = some (.evictIo q x)) :
    Inv T ⟨(evict (T.process s.current) (s.memory.modifyEntry x.space x.vpn .setBitIo) q x).1,
      s.current, Function.update s.pc s.current (some
        (Vm.evict (T.process s.current) (s.memory.modifyEntry x.space x.vpn .setBitIo) q x).2)⟩ := by
  have hok := h.ok _ _ hp
  obtain ⟨-, hio⟩ := hok.victim q x rfl
  have hne : (x.space, x.vpn) ≠ (T.process s.current, q.vpn) := by
    intro he
    obtain ⟨hb, hv⟩ := Prod.mk.inj he
    have := hok.io (T.process s.current, q.vpn) (Or.inl ⟨rfl, rfl⟩)
    rw [← hb, ← hv, hio] at this
    cases this
  have hcases := evict_cases (T.process s.current)
    (s.memory.modifyEntry x.space x.vpn .setBitIo) q x
  generalize Vm.evict (T.process s.current) (s.memory.modifyEntry x.space x.vpn .setBitIo) q x = r
    at hcases
  cases hcases with
  | file f ad => exact h.startWrite hp (SameFrames.refl _) rfl rfl rfl rfl rfl
  | swap hsame => exact h.startWrite hp hsame rfl rfl rfl rfl rfl
  | on hsame =>
      apply h.takeOver hp rfl rfl rfl (Or.inr hio) hne
      exact (sameFrames_clear_set s.memory x.space x.vpn).trans (hsame.clearIo _ _)

/-- The end of `PageFault`. -/
theorem Inv.finish (h : Inv T s) {q : Fault} {f : Nat}
    (hp : s.pc s.current = some (.mapped q f)) :
    Inv T ⟨((s.memory.fill f q.buffer).modifyEntry (T.process s.current) q.vpn
        (.loaded f)).modifyFrame f fun fr => { fr with locked := false },
      s.current, Function.update s.pc s.current none⟩ := by
  have hok := h.ok _ _ hp
  obtain ⟨hlt, hfree, hlocked⟩ := hok.frame f rfl
  obtain ⟨hb, hv⟩ := hok.mapped q f rfl
  have hlive := hok.live rfl
  have hio := hok.io (T.process s.current, q.vpn) (Or.inl ⟨rfl, rfl⟩)
  have hdead : s.memory.status (T.process s.current) ≠ .dead := by
    rw [hlive]
    simp
  have hnot : (s.memory.entry (T.process s.current) q.vpn).valid = false := by
    rw [Bool.eq_false_iff]
    intro hval
    rw [(h.frames.valid _ _ hdead hval).2.1] at hio
    cases hio
  have hfill : FramesOk (s.memory.fill f q.buffer) :=
    ⟨h.frames.nodup, h.frames.free, h.frames.valid, h.frames.used, h.frames.allowed⟩
  apply h.advance (by simp [hp])
  · exact hfill.finish hlt hfree hlocked hb hv hdead (hok.bound _ rfl) hnot (fun _ => rfl)
      (fun _ => rfl) (fun _ => rfl) fun _ => ⟨rfl, rfl⟩
  · exact {
      size := fun b => modifyEntry_size (m := s.memory.fill f q.buffer) _ b
      io := by
        intro b v hbv
        by_cases he : b = T.process s.current ∧ v = q.vpn
        · right
          obtain ⟨rfl, rfl⟩ := he
          exact heldAt_of hp (Or.inl ⟨rfl, rfl⟩)
        · left
          rw [Memory.modifyFrame_entry, Memory.entry_modifyEntry, if_neg he]
          exact hbv
      tpr := by
        intro f' _ _
        by_cases hf : f' = f
        · right
          rw [hf]
          exact heldAt_of hp rfl
        · left
          rw [Memory.modifyFrame_tpr, if_neg hf]
          rfl
      status := fun b => Or.inl rfl
      pages := by
        -- The page belongs to an address space that is not being destroyed.
        intro b v hnl
        have hne : ¬ (b = T.process s.current ∧ v = q.vpn) := by
          rintro ⟨rfl, -⟩
          exact hnl hlive
        rw [Memory.modifyFrame_entry, Memory.entry_modifyEntry, if_neg hne]
        exact ⟨id, rfl⟩ }
  · intro p' hp'
    cases hp'

/-! ## The destructor -/

/-- The destructor goes on to the next page when the page `i` is not valid any more. -/
theorem Inv.pass (h : Inv T s) {b : SpaceId} {i : Nat} (hp : s.pc s.current = some p)
    (hdes : p.destroys = some (b, i)) (hf : FramesOk m') (ha : Apart T s m')
    (hstatus : m'.status b = .dying i)
    (hvalid : ∀ j ≤ i, (m'.entry b j).valid = false) :
    Inv T ⟨next.passPage m' b i, s.current,
      Function.update s.pc s.current (some (.destroyPage b (i + 1)))⟩ := by
  have hheld : HeldAt Destroys s.pc s.current b := heldAt_of hp ⟨i, hdes⟩
  -- The sector of the page, if it has one, is all that is released.
  have hrelease : SameFrames m' (m'.ReleasePageSwap b i) := by
    unfold Memory.ReleasePageSwap
    dsimp only
    split
    · exact ⟨rfl, rfl, rfl, fun _ => rfl, fun _ _ => rfl, fun _ _ => rfl, fun _ _ => rfl,
        fun _ _ => ⟨rfl, rfl⟩⟩
    · exact SameFrames.refl m'
  have hstatus' : ∀ b', (next.passPage m' b i).status b' =
      if b' = b then .dying (i + 1) else m'.status b' := fun b' => Function.update_apply _ _ _ _
  apply h.advance (by simp [hp])
  · have hr := hrelease.framesOk hf
    have hd : (m'.ReleasePageSwap b i).status b ≠ .dead := by
      rw [hrelease.status, hstatus]
      simp
    have := hr.status hd (show Status.dying (i + 1) ≠ .dead by simp)
    unfold next.passPage
    rw [← hrelease.status]
    exact this
  · exact {
      size := fun b' => (hrelease.size b').trans (ha.size b')
      io := by
        intro b' v hb
        have hsame : ((next.passPage m' b i).entry b' v).io = (m'.entry b' v).io :=
          hrelease.io b' v
        rw [hsame]
        exact ha.io b' v hb
      tpr := by
        intro f hfree hlocked
        have hsame : (next.passPage m' b i).tpr = m'.tpr := hrelease.tpr
        rw [hsame]
        exact ha.tpr f hfree hlocked
      status := by
        intro b'
        rw [hstatus']
        split
        · rename_i he
          right
          rw [he]
          exact hheld
        · exact ha.status b'
      pages := by
        intro b' v hnl
        have hsame : ((next.passPage m' b i).entry b' v).valid = (m'.entry b' v).valid :=
          hrelease.valid b' v
        have hpage : ((next.passPage m' b i).entry b' v).physicalPage =
            (m'.entry b' v).physicalPage := hrelease.page b' v
        rw [hsame, hpage]
        exact ha.pages b' v hnl }
  · intro p' hp'
    obtain rfl := Option.some.inj hp'
    constructor
    · exact {
        live := by simp [Pc.destroys]
        bound := by simp [Pc.loading]
        asked := by simp
        io := by simp [HoldsIo, Pc.loading, Pc.evicting]
        apart := by simp [Pc.loading]
        frame := by simp [Pc.frame]
        destroys := by
          intro b' i' hd
          obtain ⟨rfl, rfl⟩ := Prod.mk.inj (Option.some.inj hd)
          refine ⟨by rw [hstatus', if_pos rfl], fun j hj => ?_⟩
          exact (hrelease.valid b j).trans (hvalid j (by omega))
        destroyed := by simp
        victim := by simp
        noYield := by simp
        mapped := by simp }
    · exact {
        io := by simp [HoldsIo, Pc.loading, Pc.evicting]
        frame := by simp [Pc.frame]
        destroys := by
          rintro b' ⟨i', hi⟩
          obtain ⟨rfl, rfl⟩ := Prod.mk.inj (Option.some.inj hi)
          exact hheld }

/-- The destructor releases a frame that is not locked. -/
theorem Inv.release (h : Inv T s) {b : SpaceId} {i : Nat} {m₁ : Memory}
    (hp : s.pc s.current = some p) (hdes : p.destroys = some (b, i))
    (hlt : (s.memory.entry b i).physicalPage < NumPhysPages)
    (hlocked : (s.memory.tpr (s.memory.entry b i).physicalPage).locked = false)
    (hm₁ : s.memory.RemovePhysicalToVirtualMapping (s.memory.entry b i).physicalPage = some m₁) :
    Inv T ⟨next.passPage m₁ b i, s.current,
      Function.update s.pc s.current (some (.destroyPage b (i + 1)))⟩ := by
  obtain ⟨hst, hinvalid⟩ := (h.ok _ p hp).destroys b i hdes
  obtain ⟨b', hrel⟩ := released_of_remove hm₁
  -- No page becomes valid.
  have hle : ∀ b₂ v₂, (m₁.entry b₂ v₂).valid = true → (s.memory.entry b₂ v₂).valid = true := by
    intro b₂ v₂ hv
    rw [hrel.entry] at hv
    split at hv
    · cases hv
    · exact hv
  apply h.pass hp hdes (h.frames.release hlt hlocked hrel)
  · exact {
      size := hrel.size
      io := by
        intro b₂ v₂ hio
        left
        rw [hrel.entry]
        split
        · rename_i he
          rw [he.1, he.2] at hio
          exact hio
        · exact hio
      tpr := by
        intro f _ hl
        left
        rw [hrel.tpr, if_neg]
        rintro rfl
        rw [hlocked] at hl
        cases hl
      status := fun b₂ => Or.inl (congrFun hrel.status b₂)
      pages := by
        intro b₂ v₂ _
        refine ⟨hle b₂ v₂, ?_⟩
        rw [hrel.entry]
        split
        · rename_i he
          rw [he.1, he.2]
          rfl
        · rfl }
  · rw [hrel.status, hst]
  · intro j hj
    rw [Bool.eq_false_iff]
    intro hv
    have hold := hle b j hv
    rcases Nat.lt_or_eq_of_le hj with hj | rfl
    · rw [hinvalid j hj] at hold
      cases hold
    · -- The frame is the one of this page, so the page has lost it.
      have hd : s.memory.status b ≠ .dead := by
        rw [hst]
        simp
      obtain ⟨-, -, -, htpr⟩ := h.frames.valid b j hd hold
      have howner := hrel.owner
      rw [htpr] at howner
      obtain rfl := Option.some.inj howner
      rw [hrel.entry, htpr, if_pos ⟨rfl, rfl⟩] at hv
      cases hv

/-- Between the places at which the destructor writes a page to its file. -/
theorem Inv.destroyFile (h : Inv T s) {b : SpaceId} {i : Nat} (hp : s.pc s.current = some p)
    (hdes : p.destroys = some (b, i)) (hs : SameFrames s.memory m')
    (hp' : (∃ f ad f', p' = .destroyWrite b i f ad f') ∨ p' = .destroyWrote b i)
    (hlt : i < (s.memory.spaces b).freePageId)
    (hpage : (s.memory.entry b i).physicalPage < NumPhysPages) :
    Inv T ⟨m', s.current, Function.update s.pc s.current (some p')⟩ := by
  obtain ⟨hst, hinvalid⟩ := (h.ok _ p hp).destroys b i hdes
  have hdes' : p'.destroys = some (b, i) := by
    rcases hp' with ⟨f, ad, f', rfl⟩ | rfl
    · rfl
    · rfl
  apply h.advance (by simp [hp]) (hs.framesOk h.frames) hs.apart
  intro p'' hp''
  obtain rfl := Option.some.inj hp''
  constructor
  · have hdestroys : ∀ b' i', p'.destroys = some (b', i') →
        m'.status b' = .dying i' ∧ ∀ j < i', (m'.entry b' j).valid = false := by
      intro b' i' hd
      rw [hdes'] at hd
      obtain ⟨rfl, rfl⟩ := Prod.mk.inj (Option.some.inj hd)
      refine ⟨(congrFun hs.status b).trans hst, fun j hj => ?_⟩
      exact (hs.valid b j).trans (hinvalid j hj)
    have hdestroyed : ∀ b' i', p'.destroys = some (b', i') →
        i' < (m'.spaces b').freePageId ∧ (m'.entry b' i').physicalPage < NumPhysPages := by
      intro b' i' hd
      rw [hdes'] at hd
      obtain ⟨rfl, rfl⟩ := Prod.mk.inj (Option.some.inj hd)
      rw [hs.size, hs.page]
      exact ⟨hlt, hpage⟩
    rcases hp' with ⟨f, ad, f', rfl⟩ | rfl
    all_goals
      exact {
        live := by simp [Pc.destroys]
        bound := by simp [Pc.loading]
        asked := by simp
        io := by simp [HoldsIo, Pc.loading, Pc.evicting]
        apart := by simp [Pc.loading]
        frame := by simp [Pc.frame]
        destroys := hdestroys
        destroyed := by
          intro b' i' hd
          apply hdestroyed b' i'
          rcases hd with ⟨f₂, ad₂, f₂', he⟩ | he
          all_goals
            cases he
            try rfl
        victim := by simp
        noYield := by simp
        mapped := by simp }
  · rcases hp' with ⟨f, ad, f', rfl⟩ | rfl
    all_goals
      exact {
        io := by simp [HoldsIo, Pc.loading, Pc.evicting]
        frame := by simp [Pc.frame]
        destroys := by
          rintro b' ⟨i', hi⟩
          rw [hdes'] at hi
          obtain ⟨rfl, rfl⟩ := Prod.mk.inj (Option.some.inj hi)
          exact heldAt_of hp ⟨i, hdes⟩ }

/-- The end of the destructor. -/
theorem Inv.delete (h : Inv T s) {b : SpaceId} {i : Nat}
    (hp : s.pc s.current = some (.destroyPage b i))
    (hi : (s.memory.spaces b).freePageId ≤ i) :
    Inv T ⟨{ s.memory with status := Function.update s.memory.status b .dead }, s.current,
      Function.update s.pc s.current none⟩ := by
  obtain ⟨hst, hinvalid⟩ := (h.ok _ _ hp).destroys b i rfl
  have hd : s.memory.status b ≠ .dead := by
    rw [hst]
    simp
  apply h.advance (by simp [hp])
  · apply h.frames.delete
    intro v
    rw [Bool.eq_false_iff]
    intro hv
    have hlt := (h.frames.valid b v hd hv).1
    rw [hinvalid v (by omega)] at hv
    cases hv
  · exact {
      size := fun _ => rfl
      io := fun _ _ hio => Or.inl hio
      tpr := fun _ _ _ => Or.inl rfl
      status := by
        intro b'
        by_cases hb : b' = b
        · right
          rw [hb]
          exact heldAt_of hp ⟨i, rfl⟩
        · exact Or.inl (Function.update_of_ne hb _ _)
      pages := fun _ _ _ => ⟨id, rfl⟩ }
  · intro p' hp'
    cases hp'

/-! ## The steps of the system -/

/-- What may go wrong does not at this step: the destructor has blocked on the disk
    and releases a frame that an eviction has locked meanwhile, or the clock stops at a
    frame that has been released while the thread yielded. -/
def Careful (s : System) (move : Move) : Prop :=
  move = .advance →
    (∀ b i, s.pc s.current = some (.destroyWrote b i) →
      (s.memory.tpr (s.memory.entry b i).physicalPage).locked = false) ∧
    ∀ q loc i b, s.pc s.current = some (.search q loc i) → (s.memory.tpr loc).owner = some b →
      s.memory.busy loc b = false → (s.memory.tpr loc).free = false

/-- The clock stays within the frames. -/
def ClockOk (s : System) : Prop :=
  ∀ t q loc i, s.pc t = some (.search q loc i) → loc < NumPhysPages

theorem evict_ne_search {me : SpaceId} {m : Memory} {q q' : Fault} {x : Victim} {loc i : Nat} :
    (evict me m q x).2 ≠ .search q' loc i := by
  have hcases := evict_cases me m q x
  generalize Vm.evict me m q x = r at hcases
  cases hcases with
  | file f ad => simp
  | swap hsame => simp
  | on hsame => simp

theorem load_cases (me : SpaceId) (m : Memory) (q : Fault) :
    (∃ f ad, load me m q = .readFile q f ad) ∨ load me m q = .addrIo q ∨
      load me m q = .map { q with buffer := fun _ => 0 } := by
  unfold load
  dsimp only
  split
  · exact Or.inl ⟨_, _, rfl⟩
  · split
    · exact Or.inr (Or.inl rfl)
    · split
      · exact Or.inr (Or.inr rfl)
      · exact Or.inl ⟨_, _, rfl⟩

theorem load_ne_search {me : SpaceId} {m : Memory} {q q' : Fault} {loc i : Nat} :
    load me m q ≠ .search q' loc i := by
  rcases load_cases me m q with ⟨f, ad, hc⟩ | hc | hc
  all_goals
    rw [hc]
    nofun

theorem load_destroys (me : SpaceId) (m : Memory) (q : Fault) : (load me m q).destroys = none := by
  rcases load_cases me m q with ⟨f, ad, hc⟩ | hc | hc
  all_goals
    rw [hc]
    rfl

/-- `setBitIo` of `PageFault`, and where the page comes from. -/
theorem Inv.load (h : Inv T s) {q : Fault} (hp : s.pc s.current = some (.faultIo q))
    (hio : (s.memory.entry (T.process s.current) q.vpn).io = false)
    (hvalid : (s.memory.entry (T.process s.current) q.vpn).valid = false) :
    Inv T ⟨s.memory.modifyEntry (T.process s.current) q.vpn .setBitIo, s.current,
      Function.update s.pc s.current (some (Vm.load (T.process s.current)
        (s.memory.modifyEntry (T.process s.current) q.vpn .setBitIo) q))⟩ := by
  rcases load_cases (T.process s.current)
      (s.memory.modifyEntry (T.process s.current) q.vpn .setBitIo) q with ⟨f, ad, he⟩ | he | he
  all_goals
    rw [he]
    exact h.startLoad hp hio hvalid rfl rfl rfl rfl rfl

/-- A step of the clock past a frame. -/
theorem Inv.searchOn (h : Inv T s) {q : Fault} {loc i : Nat} {b : SpaceId} {v : Nat}
    (hp : s.pc s.current = some (.search q loc i)) {c : Int}
    (hload : p'.loading = some q.vpn) (hev : p'.evicting = none) (hframe : p'.frame = none)
    (hdes : p'.destroys = none) (hplain : p'.plain) :
    Inv T ⟨{ s.memory.modifyEntry b v .clearBitU with i_clock := c }, s.current,
      Function.update s.pc s.current (some p')⟩ := by
  have hsame : SameFrames s.memory (s.memory.modifyEntry b v .clearBitU) :=
    SameFrames.modifyEntry (f := .clearBitU) (fun _ => rfl) (fun _ => rfl) (fun _ => rfl)
      fun _ => ⟨rfl, rfl⟩
  apply h.move hp _ hload hev hframe hdes hplain
  exact ⟨hsame.tpr, hsame.list, hsame.status, hsame.size, hsame.valid, hsame.io, hsame.page,
    hsame.allowed⟩

omit [VmConfig] in
/-- Nothing of the frames is in the files and the swap area. -/
theorem sameFrames_disks {m : Memory} {files : FileId → File} {swap_disk : Nat → Page} :
    SameFrames m { m with files := files, swap_disk := swap_disk } :=
  ⟨rfl, rfl, rfl, fun _ => rfl, fun _ _ => rfl, fun _ _ => rfl, fun _ _ => rfl,
    fun _ _ => ⟨rfl, rfl⟩⟩

/-- The end of `EvictPage` after a write. -/
theorem Inv.wrote (h : Inv T s) {q : Fault} {x : Victim} (hp : s.pc s.current = some p)
    (hload : p.loading = some q.vpn) (hframe : p.frame = some x.frame) (hdes : p.destroys = none)
    (hev : p.evicting = some (x.space, x.vpn)) (hsame : SameFrames s.memory m') :
    Inv T ⟨m'.takeOver (T.process s.current) q x, s.current,
      Function.update s.pc s.current (some (.mapped q x.frame))⟩ :=
  h.takeOver hp hload hframe hdes (Or.inl hev) ((h.ok _ p hp).apart _ _ hload hev)
    (hsame.clearIo _ _)

/-- A step of a thread in the routines. -/
theorem Inv.next (h : Inv T s) (hclock : ClockOk s) (hc : Careful s .advance)
    (hp : s.pc s.current = some p) {o : Option Pc}
    (hr : Next (T.process s.current) s.memory p m' o) :
    Inv T ⟨m', s.current, Function.update s.pc s.current o⟩ := by
  have hok := h.ok _ p hp
  cases hr with
  | wait hio => exact h.ask hp (Or.inr rfl) (Or.inl rfl)
  | present hvalid => exact h.return hp (SameFrames.refl _)
  | load hio hvalid => exact h.load hp hio hvalid
  | retry => exact h.ask hp (Or.inl rfl) (Or.inr rfl)
  | hidden had => exact h.move hp (SameFrames.refl _) rfl rfl rfl rfl rfl
  | sector had => exact h.move hp (SameFrames.refl _) rfl rfl rfl rfl rfl
  | look => exact h.move hp (SameFrames.refl _) rfl rfl rfl rfl rfl
  | readFile had => exact h.move hp (SameFrames.refl _) rfl rfl rfl rfl rfl
  | readSwap hs hlt => exact h.move hp (SameFrames.refl _) rfl rfl rfl rfl rfl
  | read => exact h.move hp (SameFrames.refl _) rfl rfl rfl rfl rfl
  | take hl hfree => exact h.findFree hp hl
  | noFree hl => exact h.move hp (SameFrames.refl _) rfl rfl rfl rfl rfl
  | finish hlocked hfree => exact h.finish hp
  | pass hb hbusy => exact h.searchOn hp rfl rfl rfl rfl rfl
  | around hb hbusy => exact h.searchOn hp rfl rfl rfl rfl rfl
  | stop hb hd hbusy =>
      have hfree := (hc rfl).2 _ _ _ _ hp hb hbusy
      simp only [Memory.busy, Bool.or_eq_false_iff] at hbusy
      exact h.found hp (hclock _ _ _ _ hp) hfree hbusy.2 hb rfl
  | goOn => exact h.move hp (SameFrames.refl _) rfl rfl rfl rfl rfl
  | evictWait hio =>
      -- The page had no `io` bit when the clock took its frame.
      rw [(hok.victim _ _ rfl).2] at hio
      cases hio
  | evict hd hio => exact h.evict hp
  | evictAgain => exact absurd rfl (hok.noYield _ _)
  | writeFile had => exact h.move hp sameFrames_disks rfl rfl rfl rfl rfl
  | wroteFile hd => exact h.wrote hp rfl rfl rfl rfl (SameFrames.refl _)
  | writeSwap hlt => exact h.move hp sameFrames_disks rfl rfl rfl rfl rfl
  | wroteSwap hd => exact h.wrote hp rfl rfl rfl rfl (swapped_sameFrames _ _ _ _ _)
  | @destroyFile b i f hlt hvalid _ _ =>
      have hd : s.memory.status b ≠ .dead := by
        rw [(hok.destroys b i rfl).1]
        simp
      obtain ⟨-, -, hpage, -⟩ := h.frames.valid b i hd hvalid
      exact h.destroyFile hp rfl (SameFrames.refl _) (Or.inl ⟨_, _, _, rfl⟩) hlt hpage
  | @release b i m₁ hlt hvalid _ hm₁ =>
      have hd : s.memory.status b ≠ .dead := by
        rw [(hok.destroys b i rfl).1]
        simp
      obtain ⟨-, -, hpage, htpr⟩ := h.frames.valid b i hd hvalid
      exact h.release hp rfl hpage (by rw [htpr]) hm₁
  | @skip b i hlt hvalid =>
      obtain ⟨hst, hinvalid⟩ := hok.destroys b i rfl
      apply h.pass hp rfl h.frames (SameFrames.refl _).apart hst
      intro j hj
      rcases Nat.lt_or_eq_of_le hj with hj | rfl
      · exact hinvalid j hj
      · exact hvalid
  | delete hlt => exact h.delete hp hlt
  | @destroyWrite b i f ad p had =>
      obtain ⟨hlt, hpage⟩ := hok.destroyed b i (Or.inl ⟨_, _, _, rfl⟩)
      exact h.destroyFile hp rfl sameFrames_disks (Or.inr rfl) hlt hpage
  | @destroyWrote b i m₁ hm₁ =>
      obtain ⟨-, hpage⟩ := hok.destroyed b i (Or.inr rfl)
      exact h.release hp rfl hpage ((hc rfl).1 b i hp) hm₁

/-- Where the clock goes. -/
theorem next_search {me : SpaceId} {m m' : Memory} {p : Pc} {q : Fault} {loc i : Nat}
    (hr : Next me m p m' (some (.search q loc i))) : loc < NumPhysPages := by
  have hmod : ∀ a, a % NumPhysPages < NumPhysPages := fun a => Nat.mod_lt a VmConfig.pos
  generalize ho : some (Pc.search q loc i) = o at hr
  cases hr with
  | noFree hl =>
      cases ho
      exact hmod _
  | pass hb hbusy =>
      cases ho
      exact hmod _
  | goOn =>
      cases ho
      exact hmod _
  | load hio hvalid => exact absurd (Option.some.inj ho).symm load_ne_search
  | evict hd hio => exact absurd (Option.some.inj ho).symm evict_ne_search
  | _ => cases ho

/-! ## The steps of the system -/

/-- The thread keeps what it relies on. -/
theorem Ok.same {m : Memory} {t : ThreadId} (h : Ok T m t p) (hs : SameFrames m m') :
    Ok T m' t p where
  live hd := (congrFun hs.status _).trans (h.live hd)
  bound v hv := by
    rw [hs.size]
    exact h.bound v hv
  asked q hq := by
    rw [hs.size]
    exact h.asked q hq
  io r hr := (hs.io r.1 r.2).trans (h.io r hr)
  apart := h.apart
  frame f hf := by
    rw [hs.tpr]
    exact h.frame f hf
  destroys b i hd := by
    obtain ⟨hst, hinvalid⟩ := h.destroys b i hd
    refine ⟨(congrFun hs.status b).trans hst, fun j hj => ?_⟩
    exact (hs.valid b j).trans (hinvalid j hj)
  destroyed b i hd := by
    rw [hs.size, hs.page]
    exact h.destroyed b i hd
  victim q x hq := by
    rw [hs.valid, hs.io]
    exact h.victim q x hq
  noYield := h.noYield
  mapped q f hq := by
    rw [hs.tpr]
    exact h.mapped q f hq

/-- A step of user code. -/
theorem Inv.user (h : Inv T s) (hs : SameFrames s.memory m') : Inv T { s with memory := m' } where
  frames := hs.framesOk h.frames
  ok t p hp := (h.ok t p hp).same hs
  places := h.places
  io := h.io
  frame := h.frame
  destroys := h.destroys

/-- Another thread gets the processor. -/
theorem Inv.switch (h : Inv T s) (hsw : s.maySwitch) (t : ThreadId) :
    Inv T { s with current := t } where
  frames := h.frames
  ok := h.ok
  places u p hp := by
    refine ⟨(h.places u p hp).1, fun _ => ?_⟩
    by_cases hu : u = s.current
    · rw [hu] at hp
      unfold System.maySwitch at hsw
      rw [hp] at hsw
      exact hsw
    · exact (h.places u p hp).2 hu
  io := h.io
  frame := h.frame
  destroys := h.destroys

/-- The running thread enters a routine, where it holds nothing that another holds. -/
theorem Inv.enter (h : Inv T s) (hmem : s.current ∈ T.all)
    (hf : FramesOk m') (hok : Ok T m' s.current p')
    (hother : ∀ t p, t ≠ s.current → s.pc t = some p → Ok T m' t p)
    (hload : p'.loading = none) (hev : p'.evicting = none) (hframe : p'.frame = none)
    (hdes : ∀ b, Destroys s.current p' b → ∀ u, ¬ HeldAt Destroys s.pc u b) :
    Inv T ⟨m', s.current, Function.update s.pc s.current (some p')⟩ := by
  refine ⟨hf, ?_, ?_, ?_, ?_, ?_⟩
  · intro t p hp
    dsimp only at hp
    by_cases ht : t = s.current
    · rw [ht, Function.update_self] at hp
      obtain rfl := Option.some.inj hp
      rw [ht]
      exact hok
    · rw [Function.update_of_ne ht] at hp
      exact hother t p ht hp
  · intro t p hp
    dsimp only at hp
    by_cases ht : t = s.current
    · rw [ht]
      exact ⟨hmem, fun hne => absurd rfl hne⟩
    · rw [Function.update_of_ne ht] at hp
      exact h.places t p hp
  · apply h.io.update
    intro p hp r hr
    obtain rfl := Option.some.inj hp
    unfold HoldsIo at hr
    rw [hload, hev] at hr
    simp at hr
  · apply h.frame.update
    intro p hp f hfr
    obtain rfl := Option.some.inj hp
    unfold HoldsFrame at hfr
    rw [hframe] at hfr
    cases hfr
  · apply h.destroys.update
    intro p hp b hb
    obtain rfl := Option.some.inj hp
    exact Or.inr (hdes b hb)

/-- A page fault begins. -/
theorem Inv.fault (h : Inv T s) (hmem : s.current ∈ T.all)
    (hlive : s.memory.status (T.process s.current) = .live) {q : Fault}
    (hq : q.vpn < (s.memory.spaces (T.process s.current)).freePageId) :
    Inv T ⟨s.memory, s.current, Function.update s.pc s.current (some (.faultIo q))⟩ := by
  apply h.enter hmem h.frames _ (fun t p _ hp => h.ok t p hp) rfl rfl rfl
  · rintro b ⟨i, hi⟩
    cases hi
  · exact {
      live := fun _ => hlive
      bound := by simp [Pc.loading]
      asked := by
        intro q' hq'
        rcases hq' with hq' | hq'
        · obtain rfl := Pc.faultIo.inj hq'
          exact hq
        · cases hq'
      io := by simp [HoldsIo, Pc.loading, Pc.evicting]
      apart := by simp [Pc.loading]
      frame := by simp [Pc.frame]
      destroys := by simp [Pc.destroys]
      destroyed := by simp
      victim := by simp
      noYield := by simp
      mapped := by simp }

/-- The destructor of an address space begins. -/
theorem Inv.destroy (h : Inv T s) (hmem : s.current ∈ T.all)
    {b : SpaceId} (hlive : s.memory.status b = .live) (hended : s.ended T b) :
    Inv T ⟨{ s.memory with status := Function.update s.memory.status b (.dying 0) }, s.current,
      Function.update s.pc s.current (some (.destroyPage b 0))⟩ := by
  have hd : s.memory.status b ≠ .dead := by
    rw [hlive]
    simp
  have hnobody : ∀ u, ¬ HeldAt Destroys s.pc u b := by
    rintro u ⟨p, hp, i, hi⟩
    have hst := ((h.ok u p hp).destroys b i hi).1
    rw [hlive] at hst
    cases hst
  apply h.enter hmem (h.frames.status hd (by simp)) _ _ rfl rfl rfl
  · rintro b' ⟨i, hi⟩
    obtain ⟨rfl, -⟩ := Prod.mk.inj (Option.some.inj hi)
    exact hnobody
  · exact {
      live := by simp [Pc.destroys]
      bound := by simp [Pc.loading]
      asked := by simp
      io := by simp [HoldsIo, Pc.loading, Pc.evicting]
      apart := by simp [Pc.loading]
      frame := by simp [Pc.frame]
      destroys := by
        intro b' i hi
        obtain ⟨rfl, rfl⟩ := Prod.mk.inj (Option.some.inj hi)
        refine ⟨Function.update_self _ _ _, fun j hj => ?_⟩
        omega
      destroyed := by simp
      victim := by simp
      noYield := by simp
      mapped := by simp }
  · intro t p _ hp
    have hok := h.ok t p hp
    exact {
      live := by
        intro hdes
        -- The threads of `b` are in no routine.
        have hne : T.process t ≠ b := by
          intro he
          have hall := List.all_eq_true.mp hended t (h.places t p hp).1
          simp [he, hp] at hall
        exact (Function.update_of_ne hne _ _).trans (hok.live hdes)
      bound := hok.bound
      asked := hok.asked
      io := hok.io
      apart := hok.apart
      frame := hok.frame
      destroys := by
        intro b' i hi
        have hne : b' ≠ b := by
          rintro rfl
          exact hnobody t (heldAt_of hp ⟨i, hi⟩)
        refine ⟨(Function.update_of_ne hne _ _).trans (hok.destroys b' i hi).1, ?_⟩
        exact (hok.destroys b' i hi).2
      destroyed := hok.destroyed
      victim := hok.victim
      noYield := hok.noYield
      mapped := hok.mapped }

end Steps

end Vm
end Nachos
