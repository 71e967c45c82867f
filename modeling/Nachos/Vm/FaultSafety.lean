/-
  Nachos.Vm.FaultSafety

  Page faults and evictions of address spaces that are not destroyed: a page is loaded
  or evicted by one thread at a time, into or out of one frame, which stays locked.
-/

import Nachos.Vm.FrameSafety

namespace Nachos
namespace Vm

open Transition Ownership

variable {T : Threads} [VmConfig]

/-- The thread looks for a frame to evict. -/
def Pc.searching : Pc → Bool
  | .search _ _ _ => true
  | .searchYield _ _ _ => true
  | _ => false

/-- Nothing is being destroyed, so that the frames that a thread has not found free stay
    in use. -/
def Full (s : System) : Prop :=
  ∀ t p, s.pc t = some p →
    p.destroys = none ∧ (p.searching → s.memory.free_page_list = [])

/-- What `EvictPage` does with the victim is not about the list. -/
theorem evict_list (me : SpaceId) (m : Memory) (q : Fault) (x : Victim) :
    (evict me m q x).1.free_page_list = m.free_page_list ∧
      (evict me m q x).2.destroys = none ∧ (evict me m q x).2.searching = false := by
  have hcases := evict_cases me m q x
  generalize Vm.evict me m q x = r at hcases
  cases hcases with
  | file f ad => exact ⟨rfl, rfl, rfl⟩
  | swap hsame => exact ⟨hsame.list, rfl, rfl⟩
  | on hsame => exact ⟨hsame.list, rfl, rfl⟩

theorem load_searching {me : SpaceId} {m : Memory} {q : Fault} :
    (load me m q).searching = false := by
  rcases load_cases me m q with ⟨f, ad, hc⟩ | hc | hc
  all_goals
    rw [hc]
    rfl

/-- The list gets shorter only, and the clock runs only when it is empty. -/
theorem next_full {me : SpaceId} {m m' : Memory} {p : Pc} {o : Option Pc}
    (hr : Next me m p m' o) (hd : p.destroys = none) (hs : p.searching → m.free_page_list = []) :
    (m.free_page_list = [] → m'.free_page_list = []) ∧
      ∀ p' ∈ o, p'.destroys = none ∧ (p'.searching → m'.free_page_list = []) := by
  cases hr with
  | load hio hvalid =>
      refine ⟨id, fun p' hp' => ?_⟩
      obtain rfl := Option.some.inj hp'
      exact ⟨load_destroys _ _ _, fun h => nomatch load_searching.symm.trans h⟩
  | take hl hfree =>
      refine ⟨fun h => ?_, fun p' hp' => ?_⟩
      · rw [hl] at h
        cases h
      · obtain rfl := Option.some.inj hp'
        exact ⟨rfl, fun h => nomatch h⟩
  | noFree hl =>
      refine ⟨id, fun p' hp' => ?_⟩
      obtain rfl := Option.some.inj hp'
      exact ⟨rfl, fun _ => hl⟩
  | pass hb hbusy =>
      refine ⟨id, fun p' hp' => ?_⟩
      obtain rfl := Option.some.inj hp'
      exact ⟨rfl, fun _ => hs rfl⟩
  | around hb hbusy =>
      refine ⟨id, fun p' hp' => ?_⟩
      obtain rfl := Option.some.inj hp'
      exact ⟨rfl, fun _ => hs rfl⟩
  | goOn =>
      refine ⟨id, fun p' hp' => ?_⟩
      obtain rfl := Option.some.inj hp'
      exact ⟨rfl, fun _ => hs rfl⟩
  | evict hdead hio =>
      obtain ⟨hlist, hdes, hsearch⟩ := evict_list me (m.modifyEntry _ _ .setBitIo) _ _
      refine ⟨fun h => hlist.trans h, fun p' hp' => ?_⟩
      obtain rfl := Option.some.inj hp'
      refine ⟨hdes, fun h => ?_⟩
      rw [hsearch] at h
      cases h
  | destroyFile | release | skip | delete | destroyWrite | destroyWrote => cases hd
  | present | finish => exact ⟨id, fun p' hp' => nomatch hp'⟩
  | _ =>
      refine ⟨id, fun p' hp' => ?_⟩
      obtain rfl := Option.some.inj hp'
      exact ⟨rfl, fun h => nomatch h⟩

theorem Full.step {s s' : System} {move : Move} (h : Full s) (hs : Step T s move s')
    (hnot : ∀ b, move ≠ .destroy b) : Full s' := by
  have hmemory : ∀ {m'}, SameFrames s.memory m' → Full { s with memory := m' } := by
    intro m' hsame t p hp
    obtain ⟨hdes, hsearch⟩ := h t p hp
    exact ⟨hdes, fun hx => hsame.list.trans (hsearch hx)⟩
  cases hs with
  | switch hsw => exact h
  | load hu hm' => exact hmemory (readMem_sameFrames hm')
  | store hu hm' => exact hmemory (writeMem_sameFrames hm')
  | fault hu hvalid hallowed =>
      intro t p hp
      dsimp only at hp
      rw [Function.update_apply] at hp
      split at hp
      · obtain rfl := Option.some.inj hp
        exact ⟨rfl, fun hx => nomatch hx⟩
      · exact h t p hp
  | @destroy b hmem hnone hlive hended => exact absurd rfl (hnot b)
  | advance hp hr =>
      obtain ⟨hdes, hsearch⟩ := h _ _ hp
      obtain ⟨hlist, hnew⟩ := next_full hr hdes hsearch
      intro t p' hp'
      dsimp only at hp'
      rw [Function.update_apply] at hp'
      split at hp'
      · exact hnew p' hp'
      · obtain ⟨hdes', hsearch'⟩ := h t p' hp'
        exact ⟨hdes', fun hx => hlist (hsearch' hx)⟩

/-- Without destruction the two accidents do not happen. -/
theorem Full.careful {s : System} (h : Full s) (hi : Inv T s) (hclock : ClockOk s) (move : Move) :
    Careful s move := by
  intro _
  constructor
  · intro b i hp
    cases (h _ _ hp).1
  · intro q loc i b hp _ _
    rw [Bool.eq_false_iff]
    intro hfree
    have hm := (hi.frames.free loc).mpr ⟨hclock _ _ _ _ hp, hfree⟩
    rw [(h _ _ hp).2 rfl] at hm
    cases hm

/-- The invariant of a run without destruction. -/
theorem full_of_run {s₀ s : System} {tr : Moves} (h₀ : Booted s₀) (hr : Run (step T) s₀ tr s)
    (hnot : ∀ x ∈ tr, ∀ b, x.2 ≠ .destroy b) : Inv T s ∧ ClockOk s ∧ Full s := by
  refine hr.invariant_of_steps (I := fun _ s => Inv T s ∧ ClockOk s ∧ Full s)
    (C := fun _ move => ∀ b, move ≠ .destroy b) ?_ ?_ hnot
  · refine ⟨h₀.inv, fun t q loc i hp => ?_, fun t p hp => ?_⟩
    · rw [h₀.idle] at hp
      cases hp
    · rw [h₀.idle] at hp
      cases hp
  · intro _ s a s' ⟨hi, hclock, hfull⟩ hnot hs
    have hs' := step_cases hs
    exact ⟨hi.step hclock (hfull.careful hi hclock a) hs', hclock.step hs', hfull.step hs' hnot⟩

/-! ## The pages that are loaded and evicted -/

/-- The page `v` of `b` is loaded into the frame, or has it already. -/
def LoadedInto (T : Threads) (s : System) (b : SpaceId) (v f : Nat) : Prop :=
  (∃ t q, s.pc t = some (.mapped q f) ∧ T.process t = b ∧ q.vpn = v) ∨
    (s.memory.entry b v).valid = true ∧ (s.memory.entry b v).physicalPage = f

/-- What is said of the pages and their `io` bits. -/
structure FaultSafe (T : Threads) (s : System) : Prop where
  /-- One thread at most is between `setBitIo` and `clearBitIo` of a page. -/
  oneThread : Exclusive (HeldAt (HoldsIo T) s.pc)
  /-- There it finds the bit set. -/
  bit : ∀ t r, HeldAt (HoldsIo T) s.pc t r → (s.memory.entry r.1 r.2).io = true
  notBoth : ∀ b v, ¬ ((s.memory.entry b v).valid = true ∧ (s.memory.entry b v).io = true)
  locked : ∀ t f, HeldAt HoldsFrame s.pc t f →
    (s.memory.tpr f).free = false ∧ (s.memory.tpr f).locked = true
  oneFrame : ∀ b v f f', LoadedInto T s b v f → LoadedInto T s b v f' → f = f'

theorem Inv.faultSafe {s : System} (h : Inv T s) (hd : ∀ b, s.memory.status b ≠ .dead) :
    FaultSafe T s := by
  have hboth : ∀ b v, ¬ ((s.memory.entry b v).valid = true ∧ (s.memory.entry b v).io = true) := by
    rintro b v ⟨hv, hio⟩
    rw [(h.frames.valid b v (hd b) hv).2.1] at hio
    cases hio
  have hbit : ∀ t r, HeldAt (HoldsIo T) s.pc t r → (s.memory.entry r.1 r.2).io = true := by
    rintro t r ⟨p, hp, hr⟩
    exact (h.ok t p hp).io r hr
  -- A thread that loads the page has its bit.
  have hloads : ∀ {t q f b v}, s.pc t = some (.mapped q f) → T.process t = b → q.vpn = v →
      HeldAt (HoldsIo T) s.pc t (b, v) := by
    rintro t q f b v hp rfl rfl
    exact heldAt_of hp (Or.inl ⟨rfl, rfl⟩)
  exact {
    oneThread := h.io
    bit := hbit
    notBoth := hboth
    locked := by
      rintro t f ⟨p, hp, hf⟩
      exact ((h.ok t p hp).frame f hf).2
    oneFrame := by
      rintro b v f f' (⟨t, q, hp, hb, hv⟩ | ⟨hv, hf⟩) (⟨t', q', hp', hb', hv'⟩ | ⟨hv', hf'⟩)
      · obtain rfl := h.io t t' (b, v) (hloads hp hb hv) (hloads hp' hb' hv')
        rw [hp] at hp'
        exact (Pc.mapped.inj (Option.some.inj hp')).2
      · exact absurd ⟨hv', hbit t _ (hloads hp hb hv)⟩ (hboth b v)
      · exact absurd ⟨hv, hbit t' _ (hloads hp' hb' hv')⟩ (hboth b v)
      · rw [← hf, ← hf'] }

section

variable {me : SpaceId} {m m' : Memory} {p : Pc} {o : Option Pc}

omit [VmConfig] in
theorem takeOver_valid {q : Fault} {x : Victim} {b : SpaceId} {v : Nat} :
    ((m.takeOver me q x).entry b v).valid = (m.entry b v).valid :=
  Memory.field_modifyEntry (m := m) (f := .clearBitIo) PageTableEntry.valid fun _ => rfl

/-- A thread makes a page of its own address space valid only. -/
theorem next_valid (hr : Next me m p m' o)
    (hd : p.destroys = none) {b : SpaceId} {v : Nat} (hv : (m'.entry b v).valid = true) :
    (m.entry b v).valid = true ∨ b = me := by
  have hset : ∀ {b' v'} {f : PageTableEntry → PageTableEntry}, (∀ e, (f e).valid = e.valid) →
      ((m.modifyEntry b' v' f).entry b v).valid = (m.entry b v).valid :=
    fun hf => Memory.field_modifyEntry PageTableEntry.valid hf
  cases hr with
  | load => exact Or.inl ((hset (f := .setBitIo) fun _ => rfl).symm.trans hv)
  | @finish q f hlocked hfree =>
      rw [Memory.modifyFrame_entry, Memory.entry_modifyEntry] at hv
      split at hv
      · rename_i he
        exact Or.inr he.1
      · exact Or.inl hv
  | pass hb hbusy => exact Or.inl ((hset (f := .clearBitU) fun _ => rfl).symm.trans hv)
  | around hb hbusy => exact Or.inl ((hset (f := .clearBitU) fun _ => rfl).symm.trans hv)
  | @stop q loc i b' hb hdead hbusy =>
      rw [Memory.modifyFrame_entry] at hv
      have hv' : ((m.modifyEntry b' (m.tpr loc).virtualPage .clearBitValid).entry b v).valid =
          true := hv
      rw [Memory.entry_modifyEntry] at hv'
      split at hv'
      · cases hv'
      · exact Or.inl hv'
  | @evict q x hdead hio =>
      left
      have hio : ((m.modifyEntry x.space x.vpn .setBitIo).entry b v).valid =
          (m.entry b v).valid := hset fun _ => rfl
      have hcases := evict_cases me (m.modifyEntry x.space x.vpn .setBitIo) q x
      generalize Vm.evict me (m.modifyEntry x.space x.vpn .setBitIo) q x = r at hcases hv
      cases hcases with
      | file f ad => exact hio.symm.trans hv
      | swap hsame => exact hio.symm.trans ((hsame.valid b v).symm.trans hv)
      | on hsame =>
          exact hio.symm.trans ((hsame.valid b v).symm.trans (takeOver_valid.symm.trans hv))
  | wroteFile hdead => exact Or.inl (takeOver_valid.symm.trans hv)
  | @wroteSwap q x n ad fresh hdead =>
      rw [takeOver_valid, (swapped_sameFrames m x.space x.vpn ad fresh).valid] at hv
      exact Or.inl hv
  | destroyFile | release | skip | delete | destroyWrite | destroyWrote => cases hd
  | _ => exact Or.inl hv

/-- A thread in the handler does not come to the destructor. -/
theorem next_handler (hr : Next me m p m' o) (hd : p.destroys = none) :
    ∀ p' ∈ o, p'.destroys = none := by
  intro p' hp'
  cases hr with
  | load hio hvalid =>
      obtain rfl := Option.some.inj hp'
      exact load_destroys _ _ _
  | @evict q x hdead hio =>
      obtain rfl := Option.some.inj hp'
      exact (evict_list me (m.modifyEntry x.space x.vpn .setBitIo) q x).2.1
  | destroyFile | release | skip | delete | destroyWrite | destroyWrote => cases hd
  | present | finish => exact nomatch hp'
  | _ =>
      obtain rfl := Option.some.inj hp'
      rfl

/-- The destructor goes on with its address space, until it has ended. -/
theorem next_destructor {b : SpaceId} {i : Nat} (hr : Next me m p m' o)
    (hd : p.destroys = some (b, i)) :
    (∀ b', b' ≠ b → m'.status b' = m.status b') ∧
      ((o = none ∧ m'.status b = .dead) ∨ ∃ p' i', o = some p' ∧ p'.destroys = some (b, i') ∧
        (m'.status b = m.status b ∨ ∃ j, m'.status b = .dying j)) := by
  have hpass : ∀ (m₁ : Memory) (i : Nat), m₁.status = m.status →
      (∀ b', b' ≠ b → (next.passPage m₁ b i).status b' = m.status b') ∧
        (next.passPage m₁ b i).status b = .dying (i + 1) := by
    intro m₁ i hst
    have hstatus : (next.passPage m₁ b i).status = Function.update m₁.status b (.dying (i + 1)) :=
      rfl
    rw [hstatus, hst]
    exact ⟨fun b' hb' => Function.update_of_ne hb' _ _, Function.update_self ..⟩
  cases hr with
  | destroyFile | destroyWrite =>
      obtain ⟨rfl, rfl⟩ := Prod.mk.inj (Option.some.inj hd)
      exact ⟨fun _ _ => rfl, Or.inr ⟨_, _, rfl, rfl, Or.inl rfl⟩⟩
  | release hlt hvalid hnot hm₁ =>
      obtain ⟨rfl, rfl⟩ := Prod.mk.inj (Option.some.inj hd)
      obtain ⟨b', hrel⟩ := released_of_remove hm₁
      obtain ⟨hother, hself⟩ := hpass _ _ hrel.status
      exact ⟨hother, Or.inr ⟨_, _, rfl, rfl, Or.inr ⟨_, hself⟩⟩⟩
  | destroyWrote hm₁ =>
      obtain ⟨rfl, rfl⟩ := Prod.mk.inj (Option.some.inj hd)
      obtain ⟨b', hrel⟩ := released_of_remove hm₁
      obtain ⟨hother, hself⟩ := hpass _ _ hrel.status
      exact ⟨hother, Or.inr ⟨_, _, rfl, rfl, Or.inr ⟨_, hself⟩⟩⟩
  | skip hlt hvalid =>
      obtain ⟨rfl, rfl⟩ := Prod.mk.inj (Option.some.inj hd)
      obtain ⟨hother, hself⟩ := hpass m _ rfl
      exact ⟨hother, Or.inr ⟨_, _, rfl, rfl, Or.inr ⟨_, hself⟩⟩⟩
  | delete hlt =>
      obtain ⟨rfl, rfl⟩ := Prod.mk.inj (Option.some.inj hd)
      exact ⟨fun b' hb' => Function.update_of_ne hb' _ _,
        Or.inl ⟨rfl, Function.update_self ..⟩⟩
  | _ => cases hd

end

/-- The status changes by destruction only. -/
theorem next_status {me : SpaceId} {m m' : Memory} {p : Pc} {o : Option Pc}
    (hr : Next me m p m' o) (hd : p.destroys = none) : m'.status = m.status := by
  cases hr with
  | @evict q x hdead hio =>
      have hcases := evict_cases me (m.modifyEntry x.space x.vpn .setBitIo) q x
      generalize Vm.evict me (m.modifyEntry x.space x.vpn .setBitIo) q x = r at hcases
      cases hcases with
      | file f ad => rfl
      | swap hsame => exact hsame.status
      | on hsame => exact hsame.status
  | destroyFile | release | skip | delete | destroyWrite | destroyWrote => cases hd
  | _ => rfl

theorem status_of_step {s s' : System} {move : Move} (hs : Step T s move s') (h : Full s)
    (hnot : ∀ b, move ≠ .destroy b) : s'.memory.status = s.memory.status := by
  cases hs with
  | switch hsw => rfl
  | load hu hm' => exact (readMem_sameFrames hm').status
  | store hu hm' => exact (writeMem_sameFrames hm').status
  | fault hu hvalid hallowed => rfl
  | @destroy b hmem hnone hlive hended => exact absurd rfl (hnot b)
  | advance hp hr => exact next_status hr (h _ _ hp).1

theorem live_of_run {s₀ s : System} {tr : Moves} (h₀ : Booted s₀) (hr : Run (step T) s₀ tr s)
    (hnot : ∀ x ∈ tr, ∀ b, x.2 ≠ .destroy b) (b : SpaceId) : s.memory.status b = .live := by
  suffices h : Full s ∧ s.memory.status b = .live from h.2
  refine hr.invariant_of_steps (I := fun _ s => Full s ∧ s.memory.status b = .live)
    (C := fun _ move => ∀ b, move ≠ .destroy b) ?_ ?_ hnot
  · refine ⟨fun t p hp => ?_, h₀.live b⟩
    rw [h₀.idle] at hp
    cases hp
  · intro _ s a s' ⟨hfull, hlive⟩ hnot hs
    have hs' := step_cases hs
    exact ⟨hfull.step hs' hnot, (congrFun (status_of_step hs' hfull hnot) b).trans hlive⟩

/-- Over every interleaving of page faults and evictions. -/
theorem faults_safe {s₀ s : System} {tr : Moves} (h₀ : Booted s₀) (hr : Run (step T) s₀ tr s)
    (hnot : ∀ x ∈ tr, ∀ b, x.2 ≠ .destroy b) : FaultSafe T s := by
  apply (full_of_run h₀ hr hnot).1.faultSafe
  intro b
  rw [live_of_run h₀ hr hnot b]
  simp

omit [VmConfig] in
/-- The page of 0 is being loaded while the first page of 1 is evicted. -/
theorem faults_safe_evicting :
    ∃ (tr : Moves) (s : System), Run (@step VmConfig.two fourThreads)
        ⟨mappedSpaces, 1, fun _ => none⟩ tr s ∧
      (s.memory.entry 0 0).io = true ∧ (s.memory.entry 1 0).io = true ∧
      @FaultSafe fourThreads s := by
  let _ := VmConfig.two
  obtain ⟨⟨tr, s⟩, he, hx⟩ := Option.map_eq_some_iff.mp
    (show (exec (step fourThreads) ⟨mappedSpaces, 1, fun _ => none⟩
        (List.flatten [loads 0 5, loads 1 5, [.switch 0], loads 0 6])).map
          (fun x => ((x.2.memory.entry 0 0).io, (x.2.memory.entry 1 0).io,
            x.1.all fun y => match y.2 with
              | .destroy _ => false
              | _ => true)) = some (true, true, true) by decide +kernel)
  simp only [Prod.mk.injEq] at hx
  obtain ⟨hio, hio', hall⟩ := hx
  refine ⟨tr, s, run_of_exec he, hio, hio',
    faults_safe booted_mappedSpaces (run_of_exec he) ?_⟩
  intro y hy b hb
  have hy' := List.all_eq_true.mp hall y hy
  rw [hb] at hy'
  cases hy'

end Vm
end Nachos
