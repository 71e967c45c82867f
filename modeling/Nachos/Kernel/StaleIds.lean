/-
  Nachos.Kernel.StaleIds

  What an identifier stands for over whole runs.  The table of identifiers is
  faithful as long as every object that is deleted has been taken out of it
  first.  `Close` does that; the three `Destroy` calls and the deletion of a
  finished thread in `SwitchTo` do not, and leave an identifier whose pointer
  points to freed memory, or to whatever is built there next.
-/

import Nachos.Kernel.ObjId

namespace Nachos

namespace Kernel

/-- There is a thread object with this number, and it has not been deleted. -/
def isThread (k : Kernel) (t : ThreadId) : Bool := (k.thread t).any fun th => th.typeId = .thread

theorem isThread_congr {k k' : Kernel} (h : k'.thread = k.thread) (u : ThreadId) :
    k'.isThread u = k.isThread u := by
  rw [isThread, h, isThread]

@[simp] theorem isThread_saveResume (k : Kernel) (t u : ThreadId) (r : Resume) :
    (k.saveResume t r).isThread u = k.isThread u := by
  by_cases hu : u = t
  · subst hu
    simp only [isThread, saveResume, Function.update_self]
    cases k.thread u <;> rfl
  · simp [isThread, saveResume, Function.update_of_ne hu]

/-- A switch takes the finished thread away, unless the next one enters its first code. -/
theorem switchTo_isThread {k k' : Kernel} {t : ThreadId} (h : k.switchTo t = some k')
    (u : ThreadId) :
    k'.isThread u = (k.isThread u &&
      !decide (k.resumeOf t ≠ some .startThreadExecution ∧ k.threadToBeDestroyed = some u)) := by
  obtain ⟨r, hr, ⟨rfl, rfl⟩ | ⟨hne, k₁, hk₁, rfl⟩⟩ := switchTo_cases h
  · rw [hr]
    simp [isThread]
  · have hres : (k₁.resumeOperation r).isThread u = k₁.isThread u := by
      cases r <;> rfl
    have hne' : k.resumeOf t ≠ some .startThreadExecution := by
      rw [hr]
      exact fun he => hne (Option.some.inj he)
    rw [hres]
    cases hslot : k.threadToBeDestroyed with
    | none =>
        simp only [destroyFinished, hslot] at hk₁
        obtain rfl := Option.some.inj hk₁
        simp [isThread]
    | some v =>
        simp only [destroyFinished, hslot] at hk₁
        obtain ⟨th, p, pr, hth, -, -, rfl⟩ := deleteThread_cases hk₁
        by_cases hu : u = v
        · subst hu
          simp [isThread, setProcess, setThread, hne']
        · have huv : ¬ v = u := fun he => hu he.symm
          simp [isThread, setProcess, setThread, Function.update_of_ne hu, huv]

/-- The switch of a `yield` or a `dispatch`, from the kernel `k` it was prepared in. -/
theorem isThread_of_switch {k k₁ k' : Kernel} {a : Action} {t : ThreadId}
    (hsw : switched k a = some t) (h : k₁.switchTo t = some k')
    (hres : k₁.resumeOf t = k.resumeOf t) (hslot : k₁.threadToBeDestroyed = k.threadToBeDestroyed)
    (hthread : ∀ u, k₁.isThread u = k.isThread u) (u : ThreadId) :
    k'.isThread u = (k.isThread u && !decide (deletes k a = some u)) := by
  obtain ⟨r, hr, -⟩ := switchTo_cases h
  have hret : returning k a = some r := by
    rw [returning, hsw, Option.bind_some, ← hres, hr]
  have hcomes : comesBack k a = true ↔ r ≠ .startThreadExecution := by
    unfold comesBack
    rw [hret]
    cases r <;> simp
  rw [switchTo_isThread h, hthread, hr, hslot]
  congr 2
  rw [decide_eq_decide, deletes]
  by_cases hc : comesBack k a = true
  · simp [hc, hcomes.mp hc]
  · have hstart : r = .startThreadExecution := not_not.mp fun hne => hc (hcomes.mpr hne)
    simp [hc, hstart]

/-- A step makes new threads, and takes away the one it deletes. -/
theorem Step.isThread {k k' : Kernel} {a : Action} (hs : Step k a k')
    (hcur : k.sleeping = false → k.currentThread ∉ k.readyList) (u : ThreadId) :
    k'.isThread u =
      (decide (a = .newThread u) || (k.isThread u && !decide (deletes k a = some u))) := by
  -- A step that makes no thread and switches to none.
  have other : ∀ {a : Action} {k' : Kernel}, a ≠ .newThread u → switched k a = none →
      k'.isThread u = k.isThread u → k'.isThread u =
        (decide (a = .newThread u) || (k.isThread u && !decide (deletes k a = some u))) := by
    intro a k' hnew hsw hthread
    have hdel : deletes k a = none := by simp [deletes, comesBack, returning, hsw]
    simp [hnew, hdel, hthread]
  cases hs with
  | call hrun hc =>
      cases hc with
      | @newThread t ht =>
          by_cases hu : u = t
          · subst hu
            simp [Kernel.isThread, setThread, Thread.create]
          · have hne : ¬ t = u := fun he => hu he.symm
            have hdel : deletes k (.newThread t) = none := by
              simp [deletes, comesBack, returning, switched]
            simp [Kernel.isThread, setThread, Function.update_of_ne hu, hne, hdel]
      | @start t p th pr ht hp hnone hid hlive =>
          refine other (by simp) rfl ?_
          by_cases hu : u = t
          · subst hu
            simp [Kernel.isThread, setThread, ht, hid]
          · simp [Kernel.isThread, setThread, setProcess, Function.update_of_ne hu]
      | yieldAlone hr => exact other (by simp) (by simp [switched, hr]) rfl
      | @yieldTo t rest _ hr hsw =>
          -- The thread switched to is another one, and deletes the one that has ended.
          have hne : t ≠ k.currentThread := by
            intro he
            exact hcur hrun (by rw [hr, he]; exact List.mem_cons_self)
          have hswitch : k'.isThread u = (k.isThread u && !decide (deletes k .yield = some u)) := by
            refine isThread_of_switch (k := k) (a := .yield) (by simp [switched, hr]) hsw ?_ rfl
              (fun v => ?_) u
            · show (k.saveResume k.currentThread _).resumeOf t = _
              rw [resumeOf_saveResume, if_neg hne]
            · exact isThread_saveResume k k.currentThread v _
          simpa using hswitch
      | finish hrem => exact other (by simp) rfl (isThread_saveResume k k.currentThread u _)
      | semPBlock _ => exact other (by simp) rfl (isThread_saveResume k k.currentThread u _)
      | lockBlock _ => exact other (by simp) rfl (isThread_saveResume k k.currentThread u _)
      | condWait => exact other (by simp) rfl (isThread_saveResume k k.currentThread u _)
      | @semV s =>
          exact other (by simp) rfl (isThread_congr (semV_thread k s) u)
      | _ => exact other (by simp) rfl rfl
  | @interrupt vs hrun hon =>
      have hv := handlers_onlyWakes (k.setStatus .off) vs
      exact other (by simp) rfl (isThread_congr hv.thread u)
  | @idle vs hsleep hready =>
      have hv := handlers_onlyWakes k vs
      exact other (by simp) rfl (isThread_congr hv.thread u)
  | dispatch hsleep hr hsw =>
      have hswitch : k'.isThread u = (k.isThread u && !decide (deletes k .dispatch = some u)) :=
        isThread_of_switch (k := k) (a := .dispatch) (by simp [switched, hr]) hsw rfl rfl
          (fun _ => rfl) u
      simpa using hswitch

end Kernel

namespace System

open Kernel Transition

/-- Every pointer `SearchObject` returns points to an object that has not been deleted,
    and is the one `AddObject` registered under the identifier. -/
def Faithful (s : System) : Prop :=
  ∀ id a, s.objectIds.ids id = some a →
    ∃ o, s.memory a = some o ∧ s.live o = true ∧ s.registered id = some o

/-- Some identifier stands for the object. -/
def Designated (s : System) (o : Object) : Prop :=
  ∃ id a, s.objectIds.ids id = some a ∧ s.memory a = some o

/-- The step of the thread system in which the processor may change hands. -/
def switching (s : System) : Request → Option Action
  | .call .yield => some .yield
  | .joinLoop =>
      if (s.joining s.kernel.currentThread).any s.aliveAt then some .yield else none
  | .dispatch => some .dispatch
  | _ => none

/-- The object a `Destroy` call deletes. -/
def destroyed (s : System) (id : Int) (queue : Object → Option (List ThreadId)) : Option Object :=
  (s.search id).filter fun o => queue o = some []

/-- The object a step deletes, other than by `Close`. -/
def deletedBy (s : System) : Request → Option Object
  | .call (.semDestroy id) => s.destroyed id s.semaphoreQueue
  | .call (.lockDestroy id) => s.destroyed id s.lockSleepqueue
  | .call (.condDestroy id) => s.destroyed id s.conditionWaitqueue
  | r => (s.switching r).bind fun a => (deletes s.kernel a).map .thread

/-- A step deletes no object an identifier stands for. -/
def Careful (s : System) (r : Request) : Prop :=
  ∀ o, s.deletedBy r = some o → ¬ s.Designated o

/-- The invariant of runs whose steps are careful. -/
structure Sound (s : System) : Prop where
  faithful : s.Faithful
  injective : ∀ id id' a, s.objectIds.ids id = some a → s.objectIds.ids id' = some a → id = id'
  unique : ∀ a a' o, s.memory a = some o → s.memory a' = some o → a = a'
  numbered : ∀ a o, s.memory a = some o → o.number < s.numObjects
  fresh : ∀ o, s.numObjects ≤ o.number → s.deleted o = false
  placed : ∃ loc, PlacedAt s.kernel loc
  noneQueued : NoneQueued s.kernel

variable {s s' : System} {o : Object} {a : Addr} {id : Int} {x : Action} {r : Request}

/-- What does not concern the identifiers, the objects and the places of the threads. -/
theorem Sound.congr (h : s.Sound) (hids : s'.objectIds = s.objectIds)
    (hmem : s'.memory = s.memory) (hlive : ∀ o, s.Designated o → s.live o = true → s'.live o = true)
    (hreg : s'.registered = s.registered) (hnum : s'.numObjects = s.numObjects)
    (hfresh : ∀ o, s.numObjects ≤ o.number → s'.deleted o = false)
    (hplaced : ∃ loc, PlacedAt s'.kernel loc) (hnone : NoneQueued s'.kernel) : s'.Sound := by
  refine ⟨fun id a hid => ?_, ?_, ?_, ?_, ?_, hplaced, hnone⟩
  · rw [hids] at hid
    obtain ⟨o, ho, hl, hr⟩ := h.faithful id a hid
    refine ⟨o, by rw [hmem, ho], hlive o ⟨id, a, hid, ho⟩ hl, by rw [hreg, hr]⟩
  · rw [hids]
    exact h.injective
  · rw [hmem]
    exact h.unique
  · rw [hmem, hnum]
    exact h.numbered
  · rw [hnum]
    exact hfresh

/-- The value a call returns, a failure and a `Join` concern none of it. -/
theorem Sound.aside (h : s.Sound) (hids : s'.objectIds = s.objectIds)
    (hmem : s'.memory = s.memory) (hreg : s'.registered = s.registered)
    (hnum : s'.numObjects = s.numObjects) (hdel : s'.deleted = s.deleted)
    (hk : s'.kernel = s.kernel) : s'.Sound := by
  refine h.congr hids hmem (fun o _ hl => ?_) hreg hnum ?_ (hk ▸ h.placed) (hk ▸ h.noneQueued)
  · cases o with
    | thread t =>
        show s'.kernel.isThread t = true
        rw [hk]
        exact hl
    | _ =>
        simp only [live, hdel] at hl ⊢
        exact hl
  · rw [hdel]
    exact h.fresh

theorem Sound.answer (h : s.Sound) (n : Int) : (s.answer n).Sound := h.aside rfl rfl rfl rfl rfl rfl

theorem Sound.fail (h : s.Sound) (f : Failure) : (s.fail f).Sound :=
  h.aside rfl rfl rfl rfl rfl rfl

/-! ## The thread system -/

/-- The running thread is not on the ready list. -/
theorem Sound.current_not_ready (h : s.Sound) (hrun : s.kernel.sleeping = false) :
    s.kernel.currentThread ∉ s.kernel.readyList := by
  obtain ⟨loc, hp⟩ := h.placed
  exact hp.current_not_ready hrun

/-- An action deletes one thread at most, and leaves the table alone. -/
theorem Sound.isThread_act (h : s.Sound) {k : Kernel} (hk : s.kernel.step x = some k)
    (t : ThreadId) : k.isThread t = (decide (x = .newThread t) ||
      (s.kernel.isThread t && !decide (deletes s.kernel x = some t))) :=
  (step_cases hk).isThread h.current_not_ready t

theorem Sound.act (h : s.Sound)
    (hcareful : ∀ t, deletes s.kernel x = some t → ¬ s.Designated (.thread t))
    (ha : s.act x = some s') : s'.Sound := by
  obtain ⟨k, hk, rfl⟩ := Option.map_eq_some_iff.mp ha
  obtain ⟨loc, hp⟩ := h.placed
  obtain ⟨loc', hmoved, -⟩ := hp.step h.noneQueued (step_cases hk)
  refine h.congr rfl rfl (fun o hd hl => ?_) rfl rfl h.fresh ⟨loc', hmoved.placed⟩
    (h.noneQueued.step (step_cases hk))
  cases o with
  | thread t =>
      show k.isThread t = true
      have hlive : s.kernel.isThread t = true := hl
      have hkept : deletes s.kernel x ≠ some t := fun he => hcareful t he hd
      rw [h.isThread_act hk t, hlive]
      simp [hkept]
  | _ => exact hl

/-- A thread that an action deletes is no longer live. -/
theorem Sound.act_deletes (h : s.Sound) {t : ThreadId} (hdel : deletes s.kernel x = some t)
    (ha : s.act x = some s') : s'.live (.thread t) = false := by
  obtain ⟨k, hk, rfl⟩ := Option.map_eq_some_iff.mp ha
  have hne : x ≠ .newThread t := by
    rintro rfl
    simp [deletes, comesBack, returning, switched] at hdel
  show k.isThread t = false
  rw [h.isThread_act hk t, hdel]
  simp [hne]

/-! ## Building and registering an object -/

theorem build_cases (hb : s.build a o = some s') :
    (s.memory a).any s.live = false ∧
      s' = { s with
        memory := Function.update s.memory a (some o)
        numObjects := s.numObjects + 1 } := by
  unfold build at hb
  split at hb
  · exact nomatch hb
  · rename_i hfree
    exact ⟨Bool.eq_false_of_not_eq_true hfree, (Option.some.inj hb).symm⟩

/-- No identifier stands for what lies at an address that is free. -/
theorem Sound.not_designated (h : s.Sound) (hfree : (s.memory a).any s.live = false) :
    s.objectIds.ids id ≠ some a := by
  intro hid
  obtain ⟨o, ho, hl, -⟩ := h.faithful id a hid
  rw [ho, Option.any_some, hl] at hfree
  exact nomatch hfree

theorem Sound.build (h : s.Sound) (ho : o.number = s.numObjects) (hb : s.build a o = some s') :
    s'.Sound := by
  obtain ⟨hfree, rfl⟩ := build_cases hb
  have hother : ∀ {b p}, Function.update s.memory a (some o) b = some p → b ≠ a →
      s.memory b = some p := by
    intro b p hb hne
    rwa [Function.update_of_ne hne] at hb
  refine ⟨fun id b hid => ?_, h.injective, fun b b' p hb hb' => ?_, fun b p hb => ?_,
    fun p hp => h.fresh p (Nat.le_of_succ_le hp), h.placed, h.noneQueued⟩
  · have hne : b ≠ a := by
      rintro rfl
      exact h.not_designated hfree hid
    obtain ⟨p, hp, hl, hr⟩ := h.faithful id b hid
    refine ⟨p, ?_, hl, hr⟩
    show Function.update s.memory a (some o) b = some p
    rw [Function.update_of_ne hne, hp]
  · -- The new object has a number no other one has.
    by_cases hba : b = a <;> by_cases hba' : b' = a
    · rw [hba, hba']
    · subst hba
      have hp : o = p := by simpa using hb
      have hlt := h.numbered b' p (hother hb' hba')
      rw [← hp] at hlt
      omega
    · subst hba'
      have hp : o = p := by simpa using hb'
      have hlt := h.numbered b p (hother hb hba)
      rw [← hp] at hlt
      omega
    · exact h.unique b b' p (hother hb hba) (hother hb' hba')
  · show p.number < s.numObjects + 1
    by_cases hba : b = a
    · subst hba
      have hp : o = p := by simpa using hb
      rw [← hp]
      omega
    · have hlt := h.numbered b p (hother hb hba)
      omega

/-- An object that is live and has no identifier is given one. -/
theorem Sound.register (h : s.Sound) (ho : s.memory a = some o) (hl : s.live o = true)
    (hnot : ∀ id, s.objectIds.ids id ≠ some a) : (s.register a o).Sound := by
  have hother : ∀ {id b}, Function.update s.objectIds.ids s.objectIds.last_id (some a) id = some b →
      id ≠ s.objectIds.last_id → s.objectIds.ids id = some b := by
    intro id b hid hne
    rwa [Function.update_of_ne hne] at hid
  have hnew : ∀ {b}, Function.update s.objectIds.ids s.objectIds.last_id (some a)
      s.objectIds.last_id = some b → a = b := by
    intro b hid
    simpa using hid
  refine ⟨fun id b hid => ?_, fun id id' b hid hid' => ?_, h.unique, h.numbered, h.fresh, h.placed,
    h.noneQueued⟩
  · by_cases hlast : id = s.objectIds.last_id
    · subst hlast
      obtain rfl := hnew hid
      exact ⟨o, ho, hl, Function.update_self _ _ _⟩
    · obtain ⟨p, hp, hlp, hr⟩ := h.faithful id b (hother hid hlast)
      refine ⟨p, hp, hlp, ?_⟩
      show Function.update s.registered s.objectIds.last_id (some o) id = some p
      rw [Function.update_of_ne hlast, hr]
  · by_cases hlast : id = s.objectIds.last_id <;> by_cases hlast' : id' = s.objectIds.last_id
    · rw [hlast, hlast']
    · subst hlast
      obtain rfl := hnew hid
      exact absurd (hother hid' hlast') (hnot id')
    · subst hlast'
      obtain rfl := hnew hid'
      exact absurd (hother hid hlast) (hnot id)
    · exact h.injective id id' b (hother hid hlast) (hother hid' hlast')

/-! ## Deleting -/

theorem live_eq (s : System) {p : Object} (hp : ∀ t, p ≠ .thread t) :
    s.live p = !s.deleted p := by
  cases p with
  | thread t => exact absurd rfl (hp t)
  | _ => rfl

theorem live_delete (s : System) {o : Object} (hthread : ∀ t, o ≠ .thread t) (p : Object) :
    (s.delete o).live p = (s.live p && !decide (p = o)) := by
  by_cases hp : ∃ t, p = .thread t
  · obtain ⟨t, rfl⟩ := hp
    have hne : Object.thread t ≠ o := fun he => hthread t he.symm
    show s.live (.thread t) = _
    simp [hne]
  · have hp' : ∀ t, p ≠ .thread t := fun t he => hp ⟨t, he⟩
    rw [live_eq _ hp', live_eq _ hp']
    show (!Function.update s.deleted o true p) = _
    by_cases hpo : p = o
    · subst hpo
      simp
    · rw [Function.update_of_ne hpo]
      simp [hpo]

/-- Deleting an object that no identifier stands for does not matter. -/
theorem Sound.delete (h : s.Sound) (hthread : ∀ t, o ≠ .thread t) (hnum : o.number < s.numObjects)
    (hnot : ¬ s.Designated o) : (s.delete o).Sound := by
  refine h.congr rfl rfl (fun p hd hl => ?_) rfl rfl (fun p hp => ?_) h.placed h.noneQueued
  · have hne : p ≠ o := fun he => hnot (he ▸ hd)
    rw [live_delete s hthread, hl]
    simp [hne]
  · have hne : p ≠ o := by
      rintro rfl
      omega
    show Function.update s.deleted o true p = false
    rw [Function.update_of_ne hne]
    exact h.fresh p hp

/-- `RemoveObject` leaves the object under no identifier. -/
theorem Sound.removeObject (h : s.Sound) (hid : s.objectIds.ids id = some a) :
    ({ s with objectIds := s.objectIds.removeObject id } : System).Sound ∧
      ∀ o, s.memory a = some o →
        ¬ ({ s with objectIds := s.objectIds.removeObject id } : System).Designated o := by
  have hother : ∀ {id' b}, Function.update s.objectIds.ids id none id' = some b →
      id' ≠ id ∧ s.objectIds.ids id' = some b := by
    intro id' b hb
    have hne : id' ≠ id := by
      rintro rfl
      simp at hb
    rw [Function.update_of_ne hne] at hb
    exact ⟨hne, hb⟩
  constructor
  · refine ⟨fun id' b hb => h.faithful id' b (hother hb).2, fun id₁ id₂ b h₁ h₂ => ?_, h.unique,
      h.numbered, h.fresh, h.placed, h.noneQueued⟩
    exact h.injective id₁ id₂ b (hother h₁).2 (hother h₂).2
  · rintro o ho ⟨id', b, hb, hbo⟩
    obtain ⟨hne, hb⟩ := hother hb
    obtain rfl := h.unique b a o hbo ho
    exact hne (h.injective id' id b hb hid)

/-! ## One step -/

theorem deletes_eq_none {k : Kernel} (hyield : x ≠ .yield) (hdispatch : x ≠ .dispatch) :
    deletes k x = none := by
  cases x <;> first | rfl | exact absurd rfl hyield | exact absurd rfl hdispatch

theorem search_eq_some (hs : s.search id = some o) :
    ∃ a, s.objectIds.ids id = some a ∧ s.memory a = some o ∧ s.live o = true := by
  obtain ⟨a, ha, ho⟩ := Option.bind_eq_some_iff.mp hs
  obtain ⟨ho, hl⟩ := Option.filter_eq_some_iff.mp ho
  exact ⟨a, ha, ho, hl⟩

theorem designated_of_search (hs : s.search id = some o) : s.Designated o := by
  obtain ⟨a, ha, ho, -⟩ := search_eq_some hs
  exact ⟨id, a, ha, ho⟩

/-- An action other than a switch. -/
theorem Sound.call (h : s.Sound) (hyield : x ≠ .yield) (hdispatch : x ≠ .dispatch)
    (ha : s.act x = some s') : s'.Sound :=
  h.act (fun t ht => by simp [deletes_eq_none hyield hdispatch] at ht) ha

theorem act_same (ha : s.act x = some s') :
    s'.objectIds = s.objectIds ∧ s'.memory = s.memory ∧ s'.numObjects = s.numObjects := by
  obtain ⟨k, -, rfl⟩ := Option.map_eq_some_iff.mp ha
  exact ⟨rfl, rfl, rfl⟩

/-- A new object is built and registered. -/
theorem Sound.create (h : s.Sound) (ho : o.number = s.numObjects) (hthread : ∀ t, o ≠ .thread t)
    (hc : s.create a o = some s') : s'.Sound := by
  obtain ⟨s₁, hb, rfl⟩ := Option.map_eq_some_iff.mp hc
  have hs₁ := h.build ho hb
  obtain ⟨hfree, rfl⟩ := build_cases hb
  refine hs₁.register (Function.update_self _ _ _) ?_ fun id => h.not_designated hfree
  have hfresh : s.deleted o = false := h.fresh o (Nat.le_of_eq ho.symm)
  rw [live_eq _ hthread]
  show (!s.deleted o) = true
  rw [hfresh]
  rfl

/-- An object of the thread system is set up under a new number. -/
theorem Sound.withKernel {k : Kernel} (h : s.Sound) (hm : k.members = s.kernel.members)
    (halive : k.alive = s.kernel.alive) (hthread : k.thread = s.kernel.thread)
    (hnone : NoneQueued k) : ({ s with kernel := k } : System).Sound := by
  obtain ⟨loc, hp⟩ := h.placed
  have hres : ∀ t ∈ s.kernel.alive, k.resumeOf t = s.kernel.resumeOf t := by
    intro t _
    simp only [resumeOf, hthread]
  have hproc : ∀ t ∈ s.kernel.alive, k.processOf t = s.kernel.processOf t := by
    intro t _
    simp only [processOf, hthread]
  refine h.congr rfl rfl (fun p _ hl => ?_) rfl rfl h.fresh
    ⟨loc, (hp.stay hm halive hres hproc).placed⟩ hnone
  cases p with
  | thread t =>
      show k.isThread t = true
      rw [isThread_congr hthread]
      exact hl
  | _ => exact hl

theorem Sound.semCreate {v : Int} (h : s.Sound) (hc : s.semCreate v a = some s') : s'.Sound := by
  unfold System.semCreate at hc
  split at hc
  · rename_i hq
    have hk : ({ s with kernel := s.kernel.setSemaphore s.numObjects ⟨v, []⟩ } : System).Sound := by
      refine h.withKernel ?_ rfl rfl h.noneQueued
      rw [members_setSemaphore]
      exact Function.update_eq_self_iff.mpr hq.symm
    exact hk.create rfl (by simp) hc
  · exact nomatch hc

theorem Sound.lockCreate (h : s.Sound) (hc : s.lockCreate a = some s') : s'.Sound := by
  unfold System.lockCreate at hc
  split at hc
  · rename_i hq
    have hk :
        ({ s with kernel := s.kernel.setLock s.numObjects ⟨[], true, none⟩ } : System).Sound := by
      refine h.withKernel ?_ rfl rfl h.noneQueued
      rw [members_setLock]
      exact Function.update_eq_self_iff.mpr hq.symm
    exact hk.create rfl (by simp) hc
  · exact nomatch hc

theorem Sound.condCreate (h : s.Sound) (hc : s.condCreate a = some s') : s'.Sound := by
  unfold System.condCreate at hc
  split at hc
  · rename_i hq
    have hk : ({ s with kernel := s.kernel.setCondition s.numObjects ⟨[]⟩ } : System).Sound := by
      refine h.withKernel ?_ rfl rfl fun c => ?_
      · rw [members_setCondition]
        exact Function.update_eq_self_iff.mpr hq.symm
      · show (Function.update s.kernel.condition s.numObjects ⟨[]⟩ c).waitqueue = []
        by_cases hcn : c = s.numObjects
        · rw [hcn, Function.update_self]
        · rw [Function.update_of_ne hcn]
          exact h.noneQueued c
    exact hk.create rfl (by simp) hc
  · exact nomatch hc

theorem Sound.startThread {p : ProcessId} (h : s.Sound) (hc : s.startThread p a = some s') :
    s'.Sound := by
  obtain ⟨s₁, hb, hc⟩ := Option.bind_eq_some_iff.mp hc
  obtain ⟨s₂, hnew, hc⟩ := Option.bind_eq_some_iff.mp hc
  have hs₁ := h.build rfl hb
  have hs₂ := hs₁.call (by simp) (by simp) hnew
  obtain ⟨hfree, rfl⟩ := build_cases hb
  obtain ⟨hids, hmem, -⟩ := act_same hnew
  obtain ⟨k, hk, rfl⟩ := Option.map_eq_some_iff.mp hnew
  refine Sound.call (hs₂.register ?_ ?_ fun id => ?_) (by simp) (by simp) hc
  · exact Function.update_self _ _ _
  · show k.isThread s.numObjects = true
    rw [hs₁.isThread_act hk]
    simp
  · exact h.not_designated hfree

theorem Sound.exec (h : s.Sound) (hc : s.exec a = some s') : s'.Sound := by
  obtain ⟨s₁, hnew, hc⟩ := Option.bind_eq_some_iff.mp hc
  exact (h.call (by simp) (by simp) hnew).startThread hc

theorem Sound.newThread (h : s.Sound) (hc : s.newThread a = some s') : s'.Sound := by
  obtain ⟨p, -, hc⟩ := Option.bind_eq_some_iff.mp hc
  exact h.startThread hc

theorem Sound.close (h : s.Sound) : (s.close id).Sound := by
  unfold System.close
  split
  · rename_i f hf
    obtain ⟨a, hid, ha, -⟩ := search_eq_some hf
    obtain ⟨hrem, hnot⟩ := h.removeObject hid
    exact (hrem.delete (by simp) (h.numbered a _ ha) (hnot _ ha)).answer 0
  · exact h.answer _

theorem Sound.join (h : s.Sound) : (s.join id).Sound := by
  unfold System.join
  split
  · exact h.aside rfl rfl rfl rfl rfl rfl
  · exact h.answer 0

/-! ### The steps that delete -/

/-- What is left when an identifier still stands for an object that is gone. -/
theorem not_faithful (hd : s.Designated o) (hids : s'.objectIds = s.objectIds)
    (hmem : s'.memory = s.memory) (hl : s'.live o = false) : ¬ s'.Faithful := by
  obtain ⟨id, a, hid, ho⟩ := hd
  intro hf
  obtain ⟨p, hp, hlp, -⟩ := hf id a (hids ▸ hid)
  rw [hmem, ho] at hp
  obtain rfl := Option.some.inj hp
  rw [hl] at hlp
  exact nomatch hlp

/-- A step is sound while it is careful, and leaves a stale identifier when it is not. -/
def Splits (s : System) (r : Request) (s' : System) : Prop :=
  (s.Careful r → s'.Sound) ∧ (¬ s.Careful r → ¬ s'.Faithful)

theorem Splits.of_none (hnone : s.deletedBy r = none) (h : s'.Sound) : Splits s r s' := by
  refine ⟨fun _ => h, fun hc => absurd ?_ hc⟩
  intro o ho
  rw [hnone] at ho
  exact nomatch ho

/-- A `Destroy` call deletes what it finds under the identifier, and leaves it there. -/
theorem Splits.destroy {queue : Object → Option (List ThreadId)} {f : Failure} (h : s.Sound)
    (hdel : s.deletedBy r = s.destroyed id queue) (hthread : ∀ t, queue (.thread t) = none) :
    Splits s r (s.destroy id queue f) := by
  unfold System.destroy
  split
  · rename_i hs
    exact .of_none (by simp [hdel, destroyed, hs]) (h.answer _)
  · rename_i o hs
    split
    · rename_i hq
      exact .of_none (by simp [hdel, destroyed, hs, hq]) (h.answer _)
    · rename_i hq
      have hd := designated_of_search hs
      have ho : s.deletedBy r = some o := by simp [hdel, destroyed, hs, hq]
      have hne : ∀ t, o ≠ .thread t := by
        rintro t rfl
        simp [hthread] at hq
      refine ⟨fun hc => absurd hd (hc o ho), fun _ => not_faithful hd rfl rfl ?_⟩
      show (s.delete o).live o = false
      rw [live_delete s hne]
      simp
    · rename_i hq
      exact .of_none (by simp [hdel, destroyed, hs, hq]) (h.fail _)

/-- A switch deletes the finished thread, if it comes back inside `SwitchTo`. -/
theorem Splits.switch (h : s.Sound) (hdel : s.deletedBy r = (deletes s.kernel x).map .thread)
    (ha : s.act x = some s') : Splits s r s' := by
  constructor
  · intro hc
    refine h.act (fun t ht => hc _ ?_) ha
    rw [hdel, ht]
    rfl
  · intro hc
    -- The thread deleted is one that an identifier stands for.
    obtain ⟨o, ho⟩ := not_forall.mp hc
    obtain ⟨ho, hd⟩ := Classical.not_imp.mp ho
    obtain ⟨t, ht, rfl⟩ := Option.map_eq_some_iff.mp (hdel ▸ ho)
    obtain ⟨hids, hmem, -⟩ := act_same ha
    exact not_faithful (not_not.mp hd) hids hmem (h.act_deletes ht ha)

/-- A system call that applies an operation to the object it finds. -/
theorem Sound.applyTo {operation : Object → Option Action} (h : s.Sound)
    (hop : ∀ o x, operation o = some x → x ≠ .yield ∧ x ≠ .dispatch)
    (hc : s.applyTo id operation = some s') : s'.Sound := by
  unfold System.applyTo at hc
  split at hc
  · rename_i x hx
    obtain ⟨o, -, hx⟩ := Option.bind_eq_some_iff.mp hx
    obtain ⟨hyield, hdispatch⟩ := hop o x hx
    exact (h.answer 0).call hyield hdispatch hc
  · obtain rfl := Option.some.inj hc
    exact h.answer _

theorem Sound.lockRelease (h : s.Sound) (hc : s.lockRelease id = some s') : s'.Sound := by
  unfold System.lockRelease at hc
  split at hc
  · split at hc
    · exact (h.answer 0).call (by simp) (by simp) hc
    · obtain rfl := Option.some.inj hc
      exact h.fail _
  · obtain rfl := Option.some.inj hc
    exact h.answer _

theorem systemCall_splits {c : SystemCall} (h : s.Sound) (hc : s.systemCall c = some s') :
    Splits s (.call c) s' := by
  cases c with
  | semDestroy id =>
      obtain rfl := Option.some.inj hc
      exact .destroy h rfl fun _ => rfl
  | lockDestroy id =>
      obtain rfl := Option.some.inj hc
      exact .destroy h rfl fun _ => rfl
  | condDestroy id =>
      obtain rfl := Option.some.inj hc
      exact .destroy h rfl fun _ => rfl
  | yield => exact .switch h rfl hc
  | semCreate v a => exact .of_none rfl (h.semCreate hc)
  | lockCreate a => exact .of_none rfl (h.lockCreate hc)
  | condCreate a => exact .of_none rfl (h.condCreate hc)
  | openFile a => exact .of_none rfl (h.create rfl (by simp) hc)
  | exec a => exact .of_none rfl (h.exec hc)
  | newThread a => exact .of_none rfl (h.newThread hc)
  | close id =>
      obtain rfl := Option.some.inj hc
      exact .of_none rfl h.close
  | join id =>
      obtain rfl := Option.some.inj hc
      exact .of_none rfl h.join
  | lockRelease id => exact .of_none rfl (h.lockRelease hc)
  | exit => exact .of_none rfl (h.call (by simp) (by simp) hc)
  | device n =>
      simp only [systemCall] at hc
      split at hc
      · exact .of_none rfl (h.call (by simp) (by simp) hc)
      · exact nomatch hc
  | _ =>
      refine .of_none rfl (h.applyTo (fun o x hx => ?_) hc)
      split at hx
      · obtain rfl := Option.some.inj hx
        exact ⟨by simp, by simp⟩
      · exact nomatch hx

/-- What one step does to the identifiers. -/
theorem step_splits (h : s.Sound) (hs : s.step r = some s') : Splits s r s' := by
  unfold step at hs
  split at hs
  · exact nomatch hs
  · cases r with
    | call c =>
        simp only at hs
        split at hs
        · exact nomatch hs
        · exact systemCall_splits h hs
    | joinLoop =>
        simp only [joinLoop] at hs
        split at hs
        · exact nomatch hs
        · split at hs
          · exact nomatch hs
          · rename_i a ha
            split at hs
            · rename_i hwait
              refine .switch h ?_ hs
              simp [deletedBy, switching, ha, hwait]
            · rename_i hwait
              obtain rfl := Option.some.inj hs
              refine .of_none ?_ (h.aside rfl rfl rfl rfl rfl rfl)
              simp [deletedBy, switching, ha, hwait]
    | interrupt vs =>
        simp only at hs
        split at hs
        · exact .of_none rfl (h.call (by simp) (by simp) hs)
        · exact nomatch hs
    | idle vs =>
        simp only at hs
        split at hs
        · exact .of_none rfl (h.call (by simp) (by simp) hs)
        · exact nomatch hs
    | dispatch => exact .switch h rfl hs

/-! ## Over whole runs -/

theorem sound_booted (initialValue : SemId → Int) (drivers : Nat) :
    (booted initialValue drivers).Sound :=
  ⟨fun _ _ h => (nomatch h), fun _ _ _ h => (nomatch h), fun _ _ _ h => (nomatch h),
    fun _ _ h => (nomatch h), fun _ _ => rfl, ⟨_, initialized_placedAt initialValue⟩, fun _ => rfl⟩

variable {initialValue : SemId → Int} {drivers : Nat} {tr : List (System × Request)}

theorem sound_of_run (hr : Run step (booted initialValue drivers) tr s)
    (hc : ∀ x ∈ tr, Careful x.1 x.2) : s.Sound :=
  hr.invariant_of_steps (I := fun _ s => s.Sound) (C := Careful)
    (sound_booted initialValue drivers) (fun _ _ _ _ h hc hs => (step_splits h hs).1 hc) hc

/-- Every identifier stands for the object registered under it throughout a run if and only
    if no step of the run deletes an object while an identifier stands for it: no `Destroy`
    call succeeds, and no context switch deletes a finished thread that `Exec` or `NewThread`
    registered. -/
theorem always_faithful_iff (hr : Run step (booted initialValue drivers) tr s) :
    Run.Always step (booted initialValue drivers) (fun _ s => s.Faithful) tr ↔
      ∀ x ∈ tr, Careful x.1 x.2 := by
  induction hr with
  | nil =>
      rw [Run.always_nil]
      exact ⟨fun _ x hx => (nomatch hx), fun _ => (sound_booted initialValue drivers).faithful⟩
  | @snoc tr s s' r hr hs ih =>
      rw [Run.always_snoc hr hs, ih]
      constructor
      · rintro ⟨hcareful, hf⟩ x hx
        rcases List.mem_append.mp hx with hx | hx
        · exact hcareful x hx
        · -- A careless last step would have left a stale identifier.
          obtain rfl := List.mem_singleton.mp hx
          have hsplit := step_splits (sound_of_run hr hcareful) hs
          exact not_not.mp fun hc => hsplit.2 hc hf
      · intro hcareful
        have hbefore : ∀ x ∈ tr, Careful x.1 x.2 := fun x hx =>
          hcareful x (List.mem_append_left _ hx)
        have hsplit := step_splits (sound_of_run hr hbefore) hs
        exact ⟨hbefore, (hsplit.1 (hcareful (s, r) (by simp))).faithful⟩

/-- A thread uses a semaphore, a file and a second thread, to which it yields. -/
private def keptObjects : List Request :=
  [.call (.semCreate 1 0), .call (.semP 3), .call (.openFile 1), .call (.newThread 2),
    .call (.close 4), .call .yield, .call (.semV 3), .call (.openFile 1), .call (.join 5)]

theorem always_faithful_kept :
    ∃ (tr : List (System × Request)) (s : System),
      Run step (booted (fun _ => 0) 0) tr s ∧ s.objectIds.ids 3 = some 0 ∧
      s.objectIds.ids 6 = some 1 ∧
      Run.Always step (booted (fun _ => 0) 0) (fun _ s => s.Faithful) tr := by
  obtain ⟨⟨tr, s⟩, he, hx⟩ := Option.map_eq_some_iff.mp
    (show (Transition.exec step (booted (fun _ => 0) 0) keptObjects).map (fun x =>
        (x.1.all fun y => (y.1.deletedBy y.2).isNone, x.2.objectIds.ids 3,
          x.2.objectIds.ids 6)) = some (true, some 0, some 1) by decide +kernel)
  simp only [Prod.mk.injEq] at hx
  obtain ⟨hall, h3, h6⟩ := hx
  have hr := run_of_exec he
  refine ⟨tr, s, hr, h3, h6, (always_faithful_iff hr).mpr fun x hmem o ho => ?_⟩
  have hnone := List.all_eq_true.mp hall x hmem
  rw [ho] at hnone
  exact nomatch hnone

/-- A semaphore is destroyed, and another one is built in its place: the identifier of the
    first stands for the second. -/
theorem always_faithful_fails :
    ¬ ∀ (initialValue : SemId → Int) (drivers : Nat) (tr : List (System × Request)) (s : System),
      Run step (booted initialValue drivers) tr s → s.Faithful := by
  intro h
  obtain ⟨⟨tr, s⟩, he, hx⟩ := Option.map_eq_some_iff.mp
    (show (Transition.exec step (booted (fun _ => 0) 0)
        [.call (.semCreate 1 0), .call (.semDestroy 3), .call (.semCreate 1 0)]).map
        (fun x => (x.2.objectIds.ids 3, x.2.memory 0, x.2.registered 3)) =
      some (some 0, some (.semaphore 2), some (.semaphore 1)) by decide +kernel)
  simp only [Prod.mk.injEq] at hx
  obtain ⟨hid, hmem, hreg⟩ := hx
  obtain ⟨o, ho, -, hro⟩ := h _ _ tr s (run_of_exec he) 3 0 hid
  have hsecond := Option.some.inj (hmem.symm.trans ho)
  have hfirst := Option.some.inj (hreg.symm.trans hro)
  rw [← hsecond] at hfirst
  exact absurd hfirst (by decide)

end System

end Nachos
