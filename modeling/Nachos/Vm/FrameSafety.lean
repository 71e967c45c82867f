/-
  Nachos.Vm.FrameSafety

  What holds of the frames in every state that the system reaches, and how the
  destruction of an address space can break it.
-/

import Nachos.Vm.Frames

namespace Nachos
namespace Vm

open Transition Ownership

variable {T : Threads} [VmConfig]

/-! ## The step of the system -/

/-- `Translate` sets bits that the frames are not about. -/
theorem translate_sameFrames {m m' : Memory} {me : SpaceId} {virtAddr size a : Nat}
    {writing : Bool} (h : m.Translate me virtAddr size writing = some (m', a)) :
    SameFrames m m' := by
  obtain ⟨rfl, -, -, -⟩ := translate_cases h
  cases writing with
  | true =>
      exact SameFrames.modifyEntry (f := .accessed true) (fun _ => rfl) (fun _ => rfl)
        (fun _ => rfl) fun _ => ⟨rfl, rfl⟩
  | false =>
      exact SameFrames.modifyEntry (f := .accessed false) (fun _ => rfl) (fun _ => rfl)
        (fun _ => rfl) fun _ => ⟨rfl, rfl⟩

theorem writeMem_sameFrames {m m' : Memory} {me : SpaceId} {virtAddr size : Nat}
    {value : BitVec 32} (h : m.WriteMem me virtAddr size value = some m') : SameFrames m m' := by
  obtain ⟨m₁, a, hm₁, -, rfl⟩ := writeMem_cases h
  have hs := translate_sameFrames hm₁
  exact ⟨hs.tpr, hs.list, hs.status, hs.size, hs.valid, hs.io, hs.page, hs.allowed⟩

theorem readMem_sameFrames {m m' : Memory} {me : SpaceId} {virtAddr size : Nat}
    {value : BitVec 32} (h : m.ReadMem me virtAddr size = some (m', value)) :
    SameFrames m m' := by
  obtain ⟨a, hm', -, -⟩ := readMem_cases h
  exact translate_sameFrames hm'

theorem Inv.step {s s' : System} {move : Move} (h : Inv T s) (hclock : ClockOk s)
    (hc : Careful s move) (hs : Step T s move s') : Inv T s' := by
  cases hs with
  | switch hsw => exact h.switch hsw _
  | load hu hm' => exact h.user (readMem_sameFrames hm')
  | store hu hm' => exact h.user (writeMem_sameFrames hm')
  | fault hu hvalid hallowed =>
      obtain ⟨hmem, -, hlive⟩ := System.inUserCode_iff.mp hu
      exact h.fault hmem hlive (h.frames.allowed _ _ hallowed)
  | destroy hmem hnone hlive hended => exact h.destroy hmem hlive hended
  | advance hp hr => exact h.next hclock hc hp hr

theorem ClockOk.step {s s' : System} {move : Move} (h : ClockOk s) (hs : Step T s move s') :
    ClockOk s' := by
  cases hs with
  | switch hsw => exact h
  | load hu hm' => exact h
  | store hu hm' => exact h
  | fault hu hvalid hallowed =>
      intro t q loc i hp
      dsimp only at hp
      rw [Function.update_apply] at hp
      split at hp
      · cases hp
      · exact h t q loc i hp
  | destroy hmem hnone hlive hended =>
      intro t q loc i hp
      dsimp only at hp
      rw [Function.update_apply] at hp
      split at hp
      · cases hp
      · exact h t q loc i hp
  | advance hp hr =>
      intro t q loc i hp'
      dsimp only at hp'
      rw [Function.update_apply] at hp'
      split at hp'
      · rw [hp'] at hr
        exact next_search hr
      · exact h t q loc i hp'

/-! ## The runs -/

/-- The state after the start of the system: all frames are free, and no page has been
    loaded yet. -/
structure Booted (s : System) : Prop where
  idle : ∀ t, s.pc t = none
  list : s.memory.free_page_list = List.range NumPhysPages
  free : ∀ p, (s.memory.tpr p).free = true
  flags : ∀ n, s.memory.page_flags n = false
  live : ∀ b, s.memory.status b = .live
  entry : ∀ b v, (s.memory.entry b v).valid = false ∧ (s.memory.entry b v).io = false ∧
    (s.memory.entry b v).swap = false
  allowed : ∀ b v, (s.memory.entry b v).readAllowed ∨ (s.memory.entry b v).writeAllowed →
    v < (s.memory.spaces b).freePageId

theorem Booted.inv {s : System} (h : Booted s) : Inv T s where
  frames := {
    nodup := by
      rw [h.list]
      exact List.nodup_range
    free := by
      intro p
      rw [h.list, h.free]
      simp
    valid := by
      intro b v _ hv
      rw [(h.entry b v).1] at hv
      cases hv
    used := by
      intro p _ hf
      rw [h.free] at hf
      cases hf
    allowed := h.allowed }
  ok t p hp := by
    rw [h.idle] at hp
    cases hp
  places t p hp := by
    rw [h.idle] at hp
    cases hp
  io := by
    rintro t t' r ⟨p, hp, -⟩
    rw [h.idle] at hp
    cases hp
  frame := by
    rintro t t' r ⟨p, hp, -⟩
    rw [h.idle] at hp
    cases hp
  destroys := by
    rintro t t' r ⟨p, hp, -⟩
    rw [h.idle] at hp
    cases hp

abbrev Moves := List (System × Move)

/-- The invariant over a run. -/
theorem inv_of_run {s₀ s : System} {tr : Moves} (h₀ : Booted s₀) (hr : Run (step T) s₀ tr s)
    (hc : ∀ x ∈ tr, Careful x.1 x.2) : Inv T s ∧ ClockOk s := by
  refine hr.invariant_of_steps (I := fun _ s => Inv T s ∧ ClockOk s) ?_ ?_ hc
  · refine ⟨h₀.inv, fun t q loc i hp => ?_⟩
    rw [h₀.idle] at hp
    cases hp
  · intro _ s a s' hi hca hs
    have hs' := step_cases hs
    exact ⟨hi.1.step hi.2 hca hs', hi.2.step hs'⟩

/-- What is said of the frames, with the address spaces that are `alive`. -/
structure FrameSafe (alive : Status → Prop) (m : Memory) : Prop where
  once : m.free_page_list.Nodup
  onList : ∀ p ∈ m.free_page_list, (m.tpr p).free = true
  notFree : ∀ b v, alive (m.status b) → (m.entry b v).valid = true →
    (m.tpr (m.entry b v).physicalPage).free = false ∧
      (m.entry b v).physicalPage ∉ m.free_page_list
  one : ∀ b v b' v', alive (m.status b) → alive (m.status b') → (m.entry b v).valid = true →
    (m.entry b' v').valid = true →
    (m.entry b v).physicalPage = (m.entry b' v').physicalPage → b = b' ∧ v = v'

theorem FramesOk.safe {m : Memory} (h : FramesOk m) : FrameSafe (· ≠ .dead) m where
  once := h.nodup
  onList p hp := ((h.free p).mp hp).2
  notFree b v hd hv := by
    obtain ⟨-, -, -, htpr⟩ := h.valid b v hd hv
    have hfree : (m.tpr (m.entry b v).physicalPage).free = false := by rw [htpr]
    refine ⟨hfree, fun hm => ?_⟩
    rw [((h.free _).mp hm).2] at hfree
    cases hfree
  one b v b' v' hd hd' hv hv' hpage := by
    obtain ⟨-, -, -, htpr⟩ := h.valid b v hd hv
    obtain ⟨-, -, -, htpr'⟩ := h.valid b' v' hd' hv'
    -- The frame has one owner and one page.
    rw [hpage, htpr'] at htpr
    injection htpr with _ _ hvv hbb
    exact ⟨(Option.some.inj hbb).symm, hvv.symm⟩

/-- In a run without the two accidents the frames are safe, those of address spaces
    under destruction too. -/
theorem frames_safe {s₀ s : System} {tr : Moves} (h₀ : Booted s₀) (hr : Run (step T) s₀ tr s)
    (hc : ∀ x ∈ tr, Careful x.1 x.2) : FrameSafe (· ≠ .dead) s.memory :=
  (inv_of_run h₀ hr hc).1.frames.safe

/-! ## Address spaces that are new -/

/-- The entry of a page that has not been loaded. -/
def newEntry (addrDisk : Int) (allowed : Bool) : PageTableEntry where
  physicalPage := 0
  addrDisk := addrDisk
  valid := false
  io := false
  swap := false
  U := false
  M := false
  readAllowed := allowed
  writeAllowed := allowed

/-- An address space with its pages, and where they are on the disk. -/
def newSpace (pages : Nat) (addrDisk : Nat → Int) (mapped_files : List MappedFile) :
    AddrSpace where
  translationTable v := newEntry (addrDisk v) (v < pages)
  freePageId := pages
  mapped_files := mapped_files
  exec_file := 0

/-- The memory after the start, with address spaces and files. -/
def newMemory (spaces : SpaceId → AddrSpace) (files : FileId → File) : Memory where
  tpr _ := ⟨true, false, 0, none⟩
  free_page_list := List.range NumPhysPages
  i_clock := -1
  mainMemory _ := 0
  page_flags _ := false
  swap_disk _ _ := 0
  spaces := spaces
  status _ := .live
  files := files

theorem booted_new (p : SpaceId → Nat) (a : SpaceId → Nat → Int)
    (l : SpaceId → List MappedFile) {files : FileId → File} {t : ThreadId} :
    Booted ⟨newMemory (fun b => newSpace (p b) (a b) (l b)) files, t,
      fun _ => none⟩ where
  idle _ := rfl
  list := rfl
  free _ := rfl
  flags _ := rfl
  live _ := rfl
  entry _ _ := ⟨rfl, rfl, rfl⟩
  allowed b v h := by
    rcases h with h | h
    all_goals exact of_decide_eq_true h

/-- Two frames, and sectors of 128 bytes. -/
@[reducible] def VmConfig.two : VmConfig where
  toConfig := Config.defaults
  NumPhysPages := 2
  pos := by decide

/-- One thread for each of four address spaces. -/
def fourThreads : Threads := ⟨[0, 1, 2, 3], id⟩

/-- The address space 1 has two pages, which are those of a file mapped at address 0;
    0 and 2 have one page each. -/
def mappedSpaces : Memory :=
  let _ := VmConfig.two
  newMemory (fun b => newSpace (if b = 1 then 2 else if b = 3 then 0 else 1)
    (fun v => if b = 1 then v * 128 else -1) (if b = 1 then [⟨0, 1, 0⟩] else []))
    fun _ => ⟨fun _ => 0, 256, 256⟩

omit [VmConfig] in
theorem booted_mappedSpaces : @Booted VmConfig.two ⟨mappedSpaces, 1, fun _ => none⟩ :=
  let _ := VmConfig.two
  booted_new (fun b => if b = 1 then 2 else if b = 3 then 0 else 1)
    (fun b v => if b = 1 then v * 128 else -1) (fun b => if b = 1 then [⟨0, 1, 0⟩] else [])

/-- The running thread goes on for `n` steps. -/
def goOn (n : Nat) : List Move := List.replicate n .advance

/-- The running thread loads its page `v`, without eviction. -/
def loads (v : Nat) (n : Nat) : List Move := .fault v (fun _ => 0) :: goOn n

/-- The two pages of 1 are loaded and modified, and 3 starts to destroy it.  While the
    destructor writes the first page, 0 evicts it; the destructor releases the frame,
    and 2 gets it before 0 goes on. -/
def releasedWhileEvicted : List Move :=
  List.flatten [loads 0 5, [.store 0 4 0], loads 1 5, [.store 128 4 0],
    [.switch 3, .destroy 1, .advance], [.switch 0], loads 0 6, [.switch 3], goOn 3,
    [.switch 2], loads 0 3, [.switch 0], goOn 3]

/-- The frames are treated with care, as far as can be seen at each step. -/
def carefulAt (y : System × Move) : Bool :=
  match y.1.pc y.1.current with
  | some (.destroyWrote b i) => !(y.1.memory.tpr (y.1.memory.entry b i).physicalPage).locked
  | some (.search _ loc _) => !(y.1.memory.tpr loc).free
  | _ => true

omit [VmConfig] in
theorem careful_of_carefulAt {s : System} {move : Move} (h : carefulAt (s, move) = true) :
    Careful s move := by
  intro _
  constructor
  · intro b i hp
    unfold carefulAt at h
    dsimp only at h
    rw [hp] at h
    simpa using h
  · intro q loc i b hp _ _
    unfold carefulAt at h
    dsimp only at h
    rw [hp] at h
    simpa using h

omit [VmConfig] in
/-- Two live address spaces have the same frame. -/
theorem frames_safe_fails :
    ¬ ∀ [VmConfig] (T : Threads) (s₀ s : System) (tr : Moves), Booted s₀ →
      Run (step T) s₀ tr s → FrameSafe (· = .live) s.memory := by
  intro h
  let _ := VmConfig.two
  obtain ⟨⟨tr, s⟩, he, hx⟩ := Option.map_eq_some_iff.mp
    (show (exec (step fourThreads) ⟨mappedSpaces, 1, fun _ => none⟩ releasedWhileEvicted).map
        (fun x => (x.2.memory.status 0, x.2.memory.status 2, (x.2.memory.entry 0 0).valid,
          (x.2.memory.entry 2 0).valid, (x.2.memory.entry 0 0).physicalPage,
          (x.2.memory.entry 2 0).physicalPage)) =
      some (.live, .live, true, true, 0, 0) by decide +kernel)
  simp only [Prod.mk.injEq] at hx
  obtain ⟨hlive, hlive', hv, hv', hpage, hpage'⟩ := hx
  have hsafe := h fourThreads _ s tr booted_mappedSpaces (run_of_exec he)
  exact absurd (hsafe.one 0 0 2 0 hlive hlive' hv hv' (hpage.trans hpage'.symm)).1 (by decide)

omit [VmConfig] in
/-- A page of 1 is loaded and modified, and 3 destroys it. -/
theorem frames_safe_destroyed :
    ∃ (tr : Moves) (s : System), Run (@step VmConfig.two fourThreads)
        ⟨mappedSpaces, 1, fun _ => none⟩ tr s ∧
      s.memory.status 1 = .dead ∧ s.memory.free_page_list.length = 2 ∧
      FrameSafe (· ≠ .dead) s.memory := by
  let _ := VmConfig.two
  obtain ⟨⟨tr, s⟩, he, hx⟩ := Option.map_eq_some_iff.mp
    (show (exec (step fourThreads) ⟨mappedSpaces, 1, fun _ => none⟩
        (List.flatten [loads 0 5, [.store 0 4 0, .switch 3, .destroy 1], goOn 5])).map
          (fun x => (x.2.memory.status 1, x.2.memory.free_page_list.length,
            x.1.all carefulAt)) = some (.dead, 2, true) by decide +kernel)
  simp only [Prod.mk.injEq] at hx
  obtain ⟨hdead, hlen, hall⟩ := hx
  exact ⟨tr, s, run_of_exec he, hdead, hlen, frames_safe booted_mappedSpaces (run_of_exec he)
    fun y hy => careful_of_carefulAt (List.all_eq_true.mp hall y hy)⟩

end Vm
end Nachos
