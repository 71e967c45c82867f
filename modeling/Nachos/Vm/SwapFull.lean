/-
  Nachos.Vm.SwapFull

  The swap area may be full.  `PutPageSwap` then answers -1; `EvictPage` takes it for the
  sector of the page.  In runs in which this does not happen each page that is in the swap
  area is in a sector that has its last content; it happens in a run that evicts one page
  more than there are sectors.
-/

import Nachos.Vm.ClockSearch
import Nachos.Vm.MappedFiles

namespace Nachos
namespace Vm

open Transition Words StateTransition

/-! ## As long as there are sectors -/

/-- The step is of a user access, or of a page fault that runs alone; no address space is
    destroyed. -/
def Uninterrupted (s : System) (move : Move) : Prop :=
  (∀ b, move ≠ .destroy b) ∧ ∀ t, move = .switch t → s.pc s.current = none

/-- A page that has no sector is evicted only when there is a sector for it. -/
def HasSector (s : System) (move : Move) : Prop :=
  move = .advance → ∀ q x, s.pc s.current = some (.evictIo q x) →
    (s.memory.entry x.space x.vpn).swap = false → s.memory.GetFreePage ≠ none

theorem complete_of {s : System} {move : Move} (h : Uninterrupted s move)
    (hs : HasSector s move) : Complete s move := ⟨h.1, h.2, hs⟩

section

variable [VmConfig]

/-- What is expected of the swap area when no routine runs: a page with its swap bit set has
    a sector, and the sector has the content of the page unless the page is in a frame. -/
def Swapped (c : Contents) (m : Memory) : Prop :=
  ∀ b v, (m.entry b v).swap = true → 0 ≤ (m.entry b v).addrDisk ∧
    ((m.entry b v).valid = false →
      Holds (c.page b v) (m.swap_disk (m.entry b v).addrDisk.toNat))

/-- In a run of page faults that are not interrupted, without mapped files, the pages that
    are swapped out are in their sectors, if each page that is evicted finds a sector. -/
theorem swapped_run {T : Threads} {s₀ s : System} {tr : Moves} (h₀ : Booted s₀)
    (hfiles : ∀ b, (s₀.memory.spaces b).mapped_files = []) (hr : Run (step T) s₀ tr s)
    (halone : ∀ x ∈ tr, Uninterrupted x.1 x.2) (hsector : ∀ x ∈ tr, HasSector x.1 x.2)
    (hidle : s.pc s.current = none) : Swapped (contents T s₀.memory tr) s.memory := by
  obtain ⟨-, -, -, hswap, hlive, hdata⟩ :=
    complete_run h₀ hfiles hr fun x hx => complete_of (halone x hx) (hsector x hx)
  have hsound := hdata.sound
  rw [hidle] at hsound
  intro b v hsw
  -- no page is a victim when no routine runs
  have hno : ¬ IsVictim none b v := by
    rintro ⟨x, hx, -⟩
    cases hx
  cases hvalid : (s.memory.entry b v).valid with
  | true => exact ⟨hswap.loaded b v (by simp [hlive]) hvalid hsw, nofun⟩
  | false =>
    have hclean : ¬ Dirty s.memory none b v := by
      rintro ⟨-, hv | hv⟩
      · exact nomatch hvalid.symm.trans hv
      · exact hno hv
    obtain ⟨hpos, hholds⟩ := hsound.sector b v hsw hclean
    exact ⟨hpos, fun _ => hholds⟩

omit [VmConfig] in
/-- 0 modifies its page, and 2 evicts it. -/
def evictedPage : List Move :=
  List.flatten [loads 0 5, [.store 4 4 0x01020384, .switch 1], loads 0 3,
    [.store 0 4 7, .switch 2], loads 0 9]

omit [VmConfig] in
/-- The page of 0 is in its sector. -/
theorem swapped_run_evicted :
    let _ := VmConfig.two
    ∃ (tr : Moves) (s : System), Run (step fourThreads) ⟨threePages, 0, fun _ => none⟩ tr s ∧
      (s.memory.entry 0 0).swap = true ∧ (s.memory.entry 0 0).valid = false ∧
      Swapped (contents fourThreads threePages tr) s.memory := by
  intro _
  obtain ⟨⟨tr, s⟩, he, hx⟩ := Option.map_eq_some_iff.mp
    (show (exec (step fourThreads) ⟨threePages, 0, fun _ => none⟩ evictedPage).map
        (fun x => ((x.2.memory.entry 0 0).swap, (x.2.memory.entry 0 0).valid,
          (x.2.pc x.2.current).isNone, x.1.all completeAt)) =
      some (true, false, true, true) by decide +kernel)
  simp only [Prod.mk.injEq] at hx
  obtain ⟨hsw, hvalid, hidle, hall⟩ := hx
  have hcomplete : ∀ x ∈ tr, Complete x.1 x.2 :=
    fun x hx => complete_of_completeAt (List.all_eq_true.mp hall x hx)
  refine ⟨tr, s, run_of_exec he, hsw, hvalid, swapped_run booted_threePages (fun _ => rfl)
    (run_of_exec he) (fun x hx => ?_) (fun x hx => ?_) (Option.isNone_iff_eq_none.mp hidle)⟩
  · exact ⟨(hcomplete x hx).1, (hcomplete x hx).2.1⟩
  · exact (hcomplete x hx).2.2

/-! ## A routine as steps of the system -/

/-- A routine that goes on alone is a run. -/
theorem run_of_reaches {T : Threads} {s : System} {o : Option Pc} {y : Memory × Option Pc}
    (ho : s.pc s.current = o)
    (h : Reaches (alone (T.process s.current)) (s.memory, o) y) :
    ∃ tr, Run (step T) s tr
        { s with memory := y.1, pc := Function.update s.pc s.current y.2 } ∧
      ∀ x ∈ tr, x.2 = .advance := by
  induction h with
  | refl =>
    subst ho
    refine ⟨[], ?_, nofun⟩
    rw [Function.update_eq_self]
    exact Run.nil
  | @tail y z _ hstep ih =>
    obtain ⟨tr, hrun, hadvance⟩ := ih
    obtain ⟨p, hp, hnext⟩ := Option.bind_eq_some_iff.mp hstep
    refine ⟨_, Run.snoc hrun (a := .advance) ?_, fun x hx => ?_⟩
    · simp only [step, Function.update_self, hp, Option.bind_some]
      rw [hnext, Option.map_some, Function.update_idem]
    · rcases List.mem_append.mp hx with hx | hx
      · exact hadvance x hx
      · rw [List.mem_singleton.mp hx]

/-- A page fault that runs alone to its end. -/
theorem run_of_fault {T : Threads} {s : System} {v : Nat} {buffer : Page} {m' : Memory}
    (hu : s.inUserCode T = true)
    (hvalid : (s.memory.entry (T.process s.current) v).valid = false)
    (hallowed : (s.memory.entry (T.process s.current) v).readAllowed = true)
    (h : Reaches (alone (T.process s.current)) (s.memory, some (.faultIo ⟨v, buffer⟩))
      (m', none)) :
    ∃ tr, Run (step T) s tr { s with memory := m' } ∧ ∀ x ∈ tr, Uninterrupted x.1 x.2 := by
  obtain ⟨-, hidle, -⟩ := System.inUserCode_iff.mp hu
  have hfault : step T s (.fault v buffer) = some { s with
      pc := Function.update s.pc s.current (some (.faultIo ⟨v, buffer⟩)) } := by
    unfold step
    exact if_pos ⟨hu, by simp [hvalid], Or.inl hallowed⟩
  obtain ⟨tr, hrun, hadvance⟩ := run_of_reaches (T := T)
    (s := { s with pc := Function.update s.pc s.current (some (.faultIo ⟨v, buffer⟩)) })
    (Function.update_self _ _ _) h
  dsimp only at hrun
  rw [Function.update_idem, ← hidle, Function.update_eq_self] at hrun
  refine ⟨(s, .fault v buffer) :: tr, Run.cons hfault hrun, fun x hx => ?_⟩
  rcases List.mem_cons.mp hx with rfl | hx
  · exact ⟨nofun, nofun⟩
  · rw [Uninterrupted, hadvance x hx]
    exact ⟨nofun, nofun⟩

/-! ## One frame, and more pages than sectors -/

/-- The sectors below `k` are in use, and the pages after the page `k + 1` of the space of
    the running thread have not been used; the space has `pages` pages. -/
structure Filling (pages k : Nat) (m : Memory) : Prop where
  list : m.free_page_list = []
  live : ∀ b, m.status b = .live
  unmapped : ∀ b, (m.spaces b).mapped_files = []
  flags : ∀ n, m.page_flags n = decide (n < k)
  rest : ∀ v, k + 1 < v → v < pages → m.entry 0 v = newEntry (-1) true

/-- The page `k` is in the frame. -/
structure Resident (pages k : Nat) (m : Memory) : Prop extends Filling pages k m where
  frame : m.tpr 0 = ⟨false, false, k, some 0⟩
  coming : k + 1 < pages → m.entry 0 (k + 1) = newEntry (-1) true
  used : (m.entry 0 k).U = true
  io : (m.entry 0 k).io = false
  swap : (m.entry 0 k).swap = false

/-- The page `k` is to leave the frame to the next one. -/
structure Leaving (pages k : Nat) (m : Memory) : Prop extends Filling pages k m where
  frame : m.tpr 0 = ⟨false, true, k, some 0⟩
  coming : m.entry 0 (k + 1) = (newEntry (-1) true).setBitIo
  taken : Taken m ⟨0, 0, k⟩
  swap : (m.entry 0 k).swap = false

omit [VmConfig] in
/-- The first sector that is free. -/
theorem getFreePage_of_flags {m : Memory} {k : Nat}
    (h : ∀ n, m.page_flags n = decide (n < k)) :
    (k < NUM_SECTORS → m.GetFreePage = some k) ∧ (NUM_SECTORS ≤ k → m.GetFreePage = none) := by
  unfold Memory.GetFreePage
  refine ⟨fun hk => ?_, fun hk => ?_⟩
  · rw [List.find?_range_eq_some]
    simp only [h, Bool.not_eq_true', decide_eq_false_iff_not, List.mem_range]
    exact ⟨Nat.lt_irrefl k, hk, fun j hj => by simpa using hj⟩
  · rw [List.find?_range_eq_none]
    intro n hn
    simp [h]
    omega

/-- The next page is not in a frame, and the clock finds the only frame there is. -/
theorem Resident.leave {pages k : Nat} {m : Memory} (h : Resident pages k m)
    (hone : NumPhysPages = 1) (hk : k + 1 < pages) (buffer : Page) :
    ∃ m', Reaches (alone 0) (m, some (.faultIo ⟨k + 1, buffer⟩))
        (m', some (.evictIo ⟨k + 1, fun _ => 0⟩ ⟨0, 0, k⟩)) ∧ Leaving pages k m' := by
  have hnew := h.coming hk
  have hfault : Reaches (alone 0) (m, some (.faultIo ⟨k + 1, buffer⟩))
      (m.modifyEntry 0 (k + 1) .setBitIo, some (.map ⟨k + 1, fun _ => 0⟩)) := by
    refine fault_zero ?_ ?_ (findMappedFile_none (h.unmapped 0) _) ?_ ?_
    all_goals
      rw [hnew]
      rfl
  have hother : ∀ v, v ≠ k + 1 → (m.modifyEntry 0 (k + 1) .setBitIo).entry 0 v = m.entry 0 v :=
    fun v hv => (Memory.entry_modifyEntry _).trans (if_neg fun hno => hv hno.2)
  have hcoming : (m.modifyEntry 0 (k + 1) .setBitIo).entry 0 (k + 1) =
      (newEntry (-1) true).setBitIo := (Memory.entry_modifyEntry_self _).trans (congrArg _ hnew)
  generalize hm₁ : m.modifyEntry 0 (k + 1) .setBitIo = m₁ at hfault hother hcoming
  have hframe : m₁.tpr 0 = ⟨false, false, k, some 0⟩ := hm₁ ▸ h.frame
  have hlive : ∀ b, m₁.status b = .live := hm₁ ▸ h.live
  have hlist : m₁.free_page_list = [] := hm₁ ▸ h.list
  have hmap : next 0 m₁ (.map ⟨k + 1, fun _ => 0⟩) =
      some (m₁, some (.search ⟨k + 1, fun _ => 0⟩ 0 0)) := by
    simp only [next, hlist, hone, Nat.mod_one]
  -- the page was used, so the clock comes to it twice
  have hpass : next 0 m₁ (.search ⟨k + 1, fun _ => 0⟩ 0 0) =
      some (m₁.modifyEntry 0 k .clearBitU, some (.search ⟨k + 1, fun _ => 0⟩ 0 1)) := by
    have hbusy : m₁.busy 0 0 = true := by
      unfold Memory.busy
      rw [hframe, hother k (by omega), h.used]
      rfl
    simp only [next, hframe, hlive, hbusy, hone]
    rfl
  have hstop : next 0 (m₁.modifyEntry 0 k .clearBitU) (.search ⟨k + 1, fun _ => 0⟩ 0 1) =
      some ({ (m₁.modifyEntry 0 k .clearBitU).modifyEntry 0 k .clearBitValid with
          i_clock := (0 : Nat) }.modifyFrame 0 fun fr => { fr with locked := true },
        some (.evictIo ⟨k + 1, fun _ => 0⟩ ⟨0, 0, k⟩)) := by
    have hbusy : (m₁.modifyEntry 0 k .clearBitU).busy 0 0 = false := by
      unfold Memory.busy
      rw [Memory.modifyEntry_tpr, hframe, Memory.entry_modifyEntry_self]
      rfl
    simp only [next, Memory.modifyEntry_tpr, hframe, Memory.modifyEntry_status, hlive, hbusy]
    rfl
  refine ⟨_, ((hfault.tail (alone_of_next hmap)).tail (alone_of_next hpass)).tail
    (alone_of_next hstop), ?_⟩
  have hentry : ∀ v, ({ (m₁.modifyEntry 0 k .clearBitU).modifyEntry 0 k .clearBitValid with
      i_clock := (0 : Nat) }.modifyFrame 0 fun fr => { fr with locked := true }).entry 0 v =
      if v = k then (m.entry 0 k).clearBitU.clearBitValid else m₁.entry 0 v := by
    intro v
    show ((m₁.modifyEntry 0 k .clearBitU).modifyEntry 0 k .clearBitValid).entry 0 v = _
    rw [Memory.entry_modifyEntry, Memory.entry_modifyEntry_self, Memory.entry_modifyEntry,
      hother k (by omega)]
    by_cases hv : v = k <;> simp [hv]
  exact {
    list := hlist
    live := hlive
    unmapped := fun b => by
      refine ((mapped_files_modifyEntry b).trans (mapped_files_modifyEntry b)).trans ?_
      rw [← hm₁, mapped_files_modifyEntry]
      exact h.unmapped b
    flags := hm₁ ▸ h.flags
    rest := fun v hv hlt => by
      rw [hentry, if_neg (by omega), hother v (by omega)]
      exact h.rest v hv hlt
    frame := by
      rw [Memory.modifyFrame_tpr_self]
      show { m₁.tpr 0 with locked := true } = _
      rw [hframe]
    coming := by
      rw [hentry, if_neg (by omega), hcoming]
    taken := {
      notDead := by
        show m₁.status 0 ≠ .dead
        rw [hlive]
        intro h
        cases h
      valid := by
        rw [hentry, if_pos rfl]
        rfl
      io := by
        rw [hentry, if_pos rfl]
        exact h.io }
    swap := by
      rw [hentry, if_pos rfl]
      exact h.swap }

/-- The memory at the end of the page fault for the page `k + 1`. -/
def Memory.ended (m : Memory) (k : Nat) : Memory :=
  (((m.takeOver 0 ⟨k + 1, fun _ => 0⟩ ⟨0, 0, k⟩).fill 0 fun _ => 0).modifyEntry 0 (k + 1)
    (.loaded 0)).modifyFrame 0 fun fr => { fr with locked := false }

theorem entry_ended {m : Memory} {k v : Nat} : (m.ended k).entry 0 v =
    if v = k + 1 then (m.entry 0 (k + 1)).loaded 0
    else if v = k then (m.entry 0 k).clearBitIo else m.entry 0 v := by
  have htake : ∀ v, (m.takeOver 0 ⟨k + 1, fun _ => 0⟩ ⟨0, 0, k⟩).entry 0 v =
      if v = k then (m.entry 0 k).clearBitIo else m.entry 0 v := by
    intro v
    show (m.modifyEntry 0 k .clearBitIo).entry 0 v = _
    rw [Memory.entry_modifyEntry]
    simp only [true_and]
  show (((m.takeOver 0 ⟨k + 1, fun _ => 0⟩ ⟨0, 0, k⟩).fill 0 fun _ => 0).modifyEntry 0 (k + 1)
    (.loaded 0)).entry 0 v = _
  rw [Memory.entry_modifyEntry]
  show (if _ then PageTableEntry.loaded 0
    ((m.takeOver 0 ⟨k + 1, fun _ => 0⟩ ⟨0, 0, k⟩).entry 0 (k + 1)) else
      (m.takeOver 0 ⟨k + 1, fun _ => 0⟩ ⟨0, 0, k⟩).entry 0 v) = _
  rw [htake, htake, if_neg (Nat.succ_ne_self k)]
  simp only [true_and]

omit [VmConfig] in
theorem tpr_takeOver {m : Memory} {k : Nat} (hfree : (m.tpr 0).free = false) :
    (m.takeOver 0 ⟨k + 1, fun _ => 0⟩ ⟨0, 0, k⟩).tpr 0 = ⟨false, true, k + 1, some 0⟩ := by
  refine (Memory.modifyFrame_tpr_self _).trans ?_
  show Frame.mk (m.tpr 0).free true (k + 1) (some 0) = _
  rw [hfree]

/-- Once the frame is taken over, the page fault ends. -/
theorem reaches_ended {m m₁ : Memory} {k : Nat} {pc : Pc} (hfree : (m₁.tpr 0).free = false)
    (h : Reaches (alone 0) (m, some pc) (m₁.takeOver 0 ⟨k + 1, fun _ => 0⟩ ⟨0, 0, k⟩,
      some (.mapped ⟨k + 1, fun _ => 0⟩ 0))) :
    Reaches (alone 0) (m, some pc) (m₁.ended k, none) := by
  refine h.tail (alone_of_next ?_)
  simp only [next]
  rw [tpr_takeOver hfree]
  exact if_pos ⟨rfl, fun h => by cases h⟩

/-- The page goes to the next sector, and the next page gets the frame. -/
theorem Leaving.fresh {pages k : Nat} {m : Memory} (h : Leaving pages k m)
    (hk : k < NUM_SECTORS) :
    ∃ m', Reaches (alone 0) (m, some (.evictIo ⟨k + 1, fun _ => 0⟩ ⟨0, 0, k⟩)) (m', none) ∧
      Resident pages (k + 1) m' := by
  have hsector := (getFreePage_of_flags h.flags).1 hk
  have hreach : Reaches (alone 0) (m, some (.evictIo ⟨k + 1, fun _ => 0⟩ ⟨0, 0, k⟩))
      (_, some (.mapped ⟨k + 1, fun _ => 0⟩ 0)) :=
    (reaches_fresh h.taken (findMappedFile_none (h.unmapped 0) _) h.swap hsector).mpr ⟨hk, rfl⟩
  dsimp only at hreach
  -- The memory after the page has been written to its sector.
  generalize hm₁ : (({ (m.modifyEntry 0 k .setBitIo).modifyEntry 0 k (.setAddrDisk (-1)) with
    page_flags := Function.update m.page_flags k true } : Memory).toSector ⟨0, 0, k⟩ k).modifyEntry
      0 k (.swapped k true) = m₁ at hreach
  have hother : ∀ v, v ≠ k → m₁.entry 0 v = m.entry 0 v := by
    intro v hv
    subst hm₁
    rw [Memory.entry_modifyEntry, if_neg fun hno => hv hno.2]
    show ((m.modifyEntry 0 k .setBitIo).modifyEntry 0 k (.setAddrDisk (-1))).entry 0 v = _
    rw [Memory.entry_modifyEntry, if_neg fun hno => hv hno.2, Memory.entry_modifyEntry,
      if_neg fun hno => hv hno.2]
  have hframe : m₁.tpr 0 = m.tpr 0 := by
    subst hm₁
    rfl
  refine ⟨_, reaches_ended (by rw [hframe, h.frame]) hreach, ?_⟩
  exact {
    list := by
      subst hm₁
      exact h.list
    live := by
      subst hm₁
      exact h.live
    unmapped := fun b => by
      have hfiles : (m₁.spaces b).mapped_files = [] := by
        subst hm₁
        rw [mapped_files_modifyEntry]
        exact ((mapped_files_modifyEntry b).trans (mapped_files_modifyEntry b)).trans
          (h.unmapped b)
      exact ((mapped_files_modifyEntry b).trans (mapped_files_modifyEntry b)).trans hfiles
    flags := fun n => by
      have hflags : (m₁.ended k).page_flags = Function.update m.page_flags k true := by
        subst hm₁
        rfl
      rw [hflags, Function.update_apply, h.flags]
      by_cases hn : n = k
      · simp [hn]
      · simp [hn]
        omega
    rest := fun v hv hlt => by
      rw [entry_ended, if_neg (by omega), if_neg (by omega), hother v (by omega)]
      exact h.rest v (by omega) hlt
    frame := by
      refine (Memory.modifyFrame_tpr_self _).trans ?_
      show { (m₁.takeOver 0 ⟨k + 1, fun _ => 0⟩ ⟨0, 0, k⟩).tpr 0 with locked := false } = _
      rw [tpr_takeOver (by rw [hframe, h.frame])]
    coming := fun hlt => by
      rw [entry_ended, if_neg (by omega), if_neg (by omega), hother _ (by omega)]
      exact h.rest _ (by omega) hlt
    used := by
      rw [entry_ended, if_pos rfl]
      rfl
    io := by
      rw [entry_ended, if_pos rfl]
      rfl
    swap := by
      rw [entry_ended, if_pos rfl, hother _ (by omega), h.coming]
      rfl }

/-- No sector is left: the swap bit of the page is set, and it has no sector. -/
theorem Leaving.full {pages k : Nat} {m : Memory} (h : Leaving pages k m)
    (hk : NUM_SECTORS ≤ k) :
    ∃ m', Reaches (alone 0) (m, some (.evictIo ⟨k + 1, fun _ => 0⟩ ⟨0, 0, k⟩)) (m', none) ∧
      (m'.entry 0 k).swap = true ∧ (m'.entry 0 k).addrDisk = -1 := by
  have hreach : Reaches (alone 0) (m, some (.evictIo ⟨k + 1, fun _ => 0⟩ ⟨0, 0, k⟩))
      (_, some (.mapped ⟨k + 1, fun _ => 0⟩ 0)) :=
    (reaches_full h.taken (findMappedFile_none (h.unmapped 0) _) h.swap
      ((getFreePage_of_flags h.flags).2 hk)).mpr rfl
  dsimp only at hreach
  generalize hm₁ : ((m.modifyEntry 0 k .setBitIo).modifyEntry 0 k (.setAddrDisk (-1))).modifyEntry
    0 k (.swapped (-1) true) = m₁ at hreach
  have hframe : m₁.tpr 0 = m.tpr 0 := by
    subst hm₁
    rfl
  refine ⟨_, reaches_ended (by rw [hframe, h.frame]) hreach, ?_⟩
  rw [entry_ended, if_neg (by omega), if_pos rfl]
  subst hm₁
  rw [Memory.entry_modifyEntry_self]
  exact ⟨rfl, rfl⟩

/-! ## A run that fills the swap area -/

omit [VmConfig] in
/-- One process, which is in user code. -/
def singleThread : Threads := ⟨[0], fun _ => 0⟩

def inUser (m : Memory) : System := ⟨m, 0, fun _ => none⟩

/-- A page fault that ends, as a run of the system. -/
theorem run_of_ended {m m' : Memory} {v : Nat} (hlive : m.status 0 = .live)
    (hnew : m.entry 0 v = newEntry (-1) true)
    (h : Reaches (alone 0) (m, some (.faultIo ⟨v, fun _ => 0⟩)) (m', none)) :
    ∃ tr, Run (step singleThread) (inUser m) tr (inUser m') ∧
      ∀ x ∈ tr, Uninterrupted x.1 x.2 := by
  have hu : (inUser m).inUserCode singleThread = true :=
    System.inUserCode_iff.mpr ⟨List.mem_singleton_self _, rfl, hlive⟩
  refine run_of_fault hu ?_ ?_ h
  · show (m.entry 0 v).valid = false
    rw [hnew]
    rfl
  · show (m.entry 0 v).readAllowed = true
    rw [hnew]
    rfl

/-- As many pages are evicted as there are sectors. -/
theorem Resident.fill {pages k : Nat} {m : Memory} (h : Resident pages 0 m)
    (hone : NumPhysPages = 1) (hpages : k < pages) (hk : k ≤ NUM_SECTORS) :
    ∃ tr m', Run (step singleThread) (inUser m) tr (inUser m') ∧
      (∀ x ∈ tr, Uninterrupted x.1 x.2) ∧ Resident pages k m' := by
  induction k with
  | zero => exact ⟨[], m, Run.nil, nofun, h⟩
  | succ k ih =>
    obtain ⟨tr, m₁, hrun, halone, hresident⟩ := ih (by omega) (by omega)
    obtain ⟨m₂, hleave, hleaving⟩ := hresident.leave hone hpages fun _ => 0
    obtain ⟨m', hend, hnext⟩ := hleaving.fresh (by omega)
    obtain ⟨tr', hrun', halone'⟩ := run_of_ended (hresident.live 0) (hresident.coming hpages)
      (hleave.trans hend)
    refine ⟨tr ++ tr', m', hrun.append hrun', fun x hx => ?_, hnext⟩
    exact (List.mem_append.mp hx).elim (halone x) (halone' x)

end

/-- One frame. -/
@[reducible] def VmConfig.one : VmConfig where
  toConfig := Config.defaults
  NumPhysPages := 1
  pos := by decide

/-- A process with more pages than there are sectors. -/
def manyPages : Memory :=
  let _ := VmConfig.one
  newMemory (fun _ => newSpace 2050 (fun _ => -1) []) fun _ => ⟨fun _ => 0, 0, 0⟩

theorem booted_manyPages : @Booted VmConfig.one (inUser manyPages) :=
  let _ := VmConfig.one
  booted_new (fun _ => 2050) (fun _ _ => -1) fun _ => []

/-- The first page gets the frame. -/
theorem resident_manyPages :
    let _ := VmConfig.one
    ∃ m, Reaches (alone 0) (manyPages, some (.faultIo ⟨0, fun _ => 0⟩)) (m, none) ∧
      Resident 2050 0 m := by
  intro _
  have hfault : Reaches (alone 0) (manyPages, some (.faultIo ⟨0, fun _ => 0⟩))
      (manyPages.modifyEntry 0 0 .setBitIo, some (.map ⟨0, fun _ => 0⟩)) :=
    fault_zero rfl rfl rfl rfl rfl
  have hentry : ∀ v, (manyPages.modifyEntry 0 0 .setBitIo).entry 0 v =
      if v = 0 then (newEntry (-1) true).setBitIo else newEntry (-1) (v < 2050) := by
    intro v
    rw [Memory.entry_modifyEntry]
    simp only [true_and]
    rfl
  -- The memory when the thread asks for a frame.
  generalize hm₁ : manyPages.modifyEntry 0 0 .setBitIo = m₁ at hfault hentry
  have hlist : m₁.free_page_list = [0] := by
    rw [← hm₁]
    rfl
  have hfree : (m₁.tpr 0).free = true := by
    rw [← hm₁]
    rfl
  -- The memory when it has taken the only one.
  generalize hm₂ : ({ m₁ with free_page_list := [] }.modifyFrame 0 fun _ =>
    { free := false, locked := true, virtualPage := 0, owner := some 0 } : Memory) = m₂
  have hmap : next 0 m₁ (.map ⟨0, fun _ => 0⟩) = some (m₂, some (.mapped ⟨0, fun _ => 0⟩ 0)) := by
    simp only [next, hlist, hfree, if_true, hm₂]
  have hframe : m₂.tpr 0 = ⟨false, true, 0, some 0⟩ := by
    rw [← hm₂]
    exact Memory.modifyFrame_tpr_self _
  have hmapped : next 0 m₂ (.mapped ⟨0, fun _ => 0⟩ 0) =
      some (((m₂.fill 0 fun _ => 0).modifyEntry 0 0 (.loaded 0)).modifyFrame 0
        fun fr => { fr with locked := false }, none) := by
    simp only [next]
    rw [hframe]
    exact if_pos ⟨rfl, fun h => by cases h⟩
  refine ⟨_, (hfault.tail (alone_of_next hmap)).tail (alone_of_next hmapped), ?_⟩
  -- The entries at the end of the page fault.
  have hend : ∀ v, (((m₂.fill 0 fun _ => 0).modifyEntry 0 0 (.loaded 0)).modifyFrame 0
      fun fr => { fr with locked := false }).entry 0 v =
      if v = 0 then (newEntry (-1) true).setBitIo.loaded 0 else newEntry (-1) (v < 2050) := by
    intro v
    show ((m₂.fill 0 fun _ => 0).modifyEntry 0 0 (.loaded 0)).entry 0 v = _
    rw [Memory.entry_modifyEntry]
    show (if _ then (m₂.entry 0 0).loaded 0 else m₂.entry 0 v) = _
    have hsame : ∀ v, m₂.entry 0 v = m₁.entry 0 v := fun v => by
      rw [← hm₂]
      rfl
    rw [hsame, hsame, hentry, hentry]
    by_cases hv : v = 0 <;> simp [hv]
  exact {
    list := by
      rw [← hm₂]
      rfl
    live := by
      rw [← hm₂, ← hm₁]
      exact fun _ => rfl
    unmapped := fun b => by
      refine (mapped_files_modifyEntry b).trans ?_
      rw [← hm₂, ← hm₁]
      exact mapped_files_modifyEntry b
    flags := by
      rw [← hm₂, ← hm₁]
      exact fun n => (decide_eq_false (Nat.not_lt_zero n)).symm
    rest := fun v hv hlt => by
      rw [hend, if_neg (by omega), decide_eq_true hlt]
    frame := by
      refine (Memory.modifyFrame_tpr_self _).trans ?_
      show { m₂.tpr 0 with locked := false } = _
      rw [hframe]
    coming := fun hlt => by
      rw [hend, if_neg (by omega), decide_eq_true hlt]
    used := by
      rw [hend]
      rfl
    io := by
      rw [hend]
      rfl
    swap := by
      rw [hend]
      rfl }

/-- The page that is evicted when all sectors are in use has its swap bit set, and no
    sector. -/
theorem swapped_run_full :
    let _ := VmConfig.one
    ∃ (T : Threads) (s₀ s : System) (tr : Moves), Booted s₀ ∧
      (∀ b, (s₀.memory.spaces b).mapped_files = []) ∧ Run (step T) s₀ tr s ∧
      (∀ x ∈ tr, Uninterrupted x.1 x.2) ∧ s.pc s.current = none ∧
      ¬ Swapped (contents T s₀.memory tr) s.memory := by
  intro _
  obtain ⟨m₁, hfirst, hresident⟩ := resident_manyPages
  obtain ⟨tr₁, hrun₁, halone₁⟩ := run_of_ended rfl rfl hfirst
  obtain ⟨tr₂, m₂, hrun₂, halone₂, hfilled⟩ :=
    hresident.fill rfl (show NUM_SECTORS < 2050 by decide) (Nat.le_refl _)
  obtain ⟨m₃, hleave, hleaving⟩ := hfilled.leave rfl (by decide) fun _ => 0
  obtain ⟨m₄, hend, hsw, had⟩ := hleaving.full (Nat.le_refl _)
  obtain ⟨tr₃, hrun₃, halone₃⟩ := run_of_ended (hfilled.live 0) (hfilled.coming (by decide))
    (hleave.trans hend)
  refine ⟨singleThread, inUser manyPages, inUser m₄, tr₁ ++ tr₂ ++ tr₃, booted_manyPages,
    fun _ => rfl, (hrun₁.append hrun₂).append hrun₃, fun x hx => ?_, rfl, fun h => ?_⟩
  · rcases List.mem_append.mp hx with hx | hx
    · exact (List.mem_append.mp hx).elim (halone₁ x) (halone₂ x)
    · exact halone₃ x hx
  · have hpos := (h 0 NUM_SECTORS hsw).1
    rw [show (inUser m₄).memory = m₄ from rfl, had] at hpos
    exact absurd hpos (by decide)

end Vm
end Nachos
