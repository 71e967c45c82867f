/-
  Nachos.Kernel.Destroy

  The end of threads and of processes.  `Finish` leaves the thread in the one
  slot `threadToBeDestroyed`; a thread that comes back inside `SwitchTo` empties
  the slot, a thread dispatched for the first time does not.  When two threads
  finish with no return inside `SwitchTo` between them, the second overwrites the
  first: the first is never deleted, and its process neither.
-/

import Nachos.Kernel.Schedule

namespace Nachos
namespace Kernel

open Transition

/-- A step in which a thread comes back inside `SwitchTo`: a dispatch that is not
    the thread's first. -/
def comesBack (k : Kernel) (a : Action) : Bool :=
  match returning k a with
  | none => false
  | some .startThreadExecution => false
  | some _ => true

/-- The thread a step deletes. -/
def deletes (k : Kernel) (a : Action) : Option ThreadId :=
  if comesBack k a then k.threadToBeDestroyed else none

/-- The threads that have been started, in order. -/
def startedThreads (tr : History) : List ThreadId :=
  0 :: tr.filterMap fun x => match x.2 with
    | .start t _ => some t
    | _ => none

/-- The threads that have finished, in order. -/
def finishedThreads (tr : History) : List ThreadId :=
  tr.filterMap fun x => if x.2 = .finish then some x.1.currentThread else none

/-- The threads that have been deleted, in order. -/
def deletedThreads (tr : History) : List ThreadId := tr.filterMap fun x => deletes x.1 x.2

/-- Between two threads that finish, some thread comes back inside `SwitchTo`. -/
def FinishesApart (tr : History) : Prop :=
  ∀ tr₁ x tr₂ y tr₃, tr = tr₁ ++ x :: tr₂ ++ y :: tr₃ → x.2 = .finish → y.2 = .finish →
    ∃ z ∈ tr₂, comesBack z.1 z.2 = true

/-- The number of started threads of `p` that are not deleted. -/
def undeleted (tr : History) (k : Kernel) (p : ProcessId) : Nat :=
  (startedThreads tr).countP fun t => k.processOf t = some p ∧ t ∉ deletedThreads tr

/-- What the code promises of the threads that finish. -/
structure SlotLaw (tr : History) (k : Kernel) : Prop where
  /-- `Finish` finds the slot empty. -/
  slotFree : ∀ x ∈ tr, x.2 = .finish → x.1.threadToBeDestroyed = none
  /-- The finished threads are deleted in order, once each; the last one may
      still be in the slot. -/
  once : finishedThreads tr = deletedThreads tr ++ k.threadToBeDestroyed.toList
  nodup : (finishedThreads tr).Nodup
  numThreads : ∀ p pr, k.process p = some pr → pr.numThreads = undeleted tr k p
  /-- A process whose threads have all finished is deleted once some thread has
      come back inside `SwitchTo`. -/
  process : ∀ tr₁ tr₂ p, tr = tr₁ ++ tr₂ →
    (∃ t ∈ startedThreads tr, k.processOf t = some p) →
    (∀ t ∈ startedThreads tr, k.processOf t = some p → t ∈ finishedThreads tr₁) →
    (∃ z ∈ tr₂, comesBack z.1 z.2 = true) →
    ∃ pr, k.process p = some pr ∧ pr.deleted = true

/-! ## The history after a step -/

theorem deletedThreads_snoc (tr : History) (k : Kernel) (a : Action) :
    deletedThreads (tr ++ [(k, a)]) = deletedThreads tr ++ (deletes k a).toList := by
  cases h : deletes k a <;> simp [deletedThreads, h]

theorem finishedThreads_snoc (tr : History) (k : Kernel) (a : Action) :
    finishedThreads (tr ++ [(k, a)]) =
      finishedThreads tr ++ if a = .finish then [k.currentThread] else [] := by
  by_cases ha : a = .finish <;> simp [finishedThreads, ha]

theorem startedThreads_start (tr : History) (k : Kernel) (t : ThreadId) (p : ProcessId) :
    startedThreads (tr ++ [(k, .start t p)]) = startedThreads tr ++ [t] := by
  simp [startedThreads]

theorem startedThreads_snoc (tr : History) (k : Kernel) {a : Action}
    (ha : ∀ t p, a ≠ .start t p) : startedThreads (tr ++ [(k, a)]) = startedThreads tr := by
  cases a <;> simp_all [startedThreads]

theorem mem_startedThreads {tr : History} {t : ThreadId} :
    t ∈ startedThreads tr ↔ started tr t := by
  rw [startedThreads, List.mem_cons, List.mem_filterMap, started]
  apply or_congr_right
  apply exists_congr
  intro x
  apply and_congr_right
  intro _
  cases x.2 <;> simp

theorem mem_finishedThreads {tr : History} {t : ThreadId} :
    t ∈ finishedThreads tr ↔ finished tr t := by
  rw [finishedThreads, List.mem_filterMap, finished]
  apply exists_congr
  intro x
  apply and_congr_right
  intro _
  by_cases hx : x.2 = .finish <;> simp [hx]

theorem deletedThreads_append (tr₁ tr₂ : History) :
    deletedThreads (tr₁ ++ tr₂) = deletedThreads tr₁ ++ deletedThreads tr₂ := by
  simp [deletedThreads]

theorem finishedThreads_append (tr₁ tr₂ : History) :
    finishedThreads (tr₁ ++ tr₂) = finishedThreads tr₁ ++ finishedThreads tr₂ := by
  simp [finishedThreads]

/-! ## The slot and the processes after a step -/

/-- The effect of a switch on the slot and on the processes. -/
theorem switchTo_destroys {k k' : Kernel} {t : ThreadId} {r : Resume}
    (h : k.switchTo t = some k') (hr : k.resumeOf t = some r) :
    (r = .startThreadExecution ∧ k'.threadToBeDestroyed = k.threadToBeDestroyed ∧
      k'.process = k.process) ∨
    (r ≠ .startThreadExecution ∧ k'.threadToBeDestroyed = none ∧
      (k.threadToBeDestroyed = none → k'.process = k.process) ∧
      ∀ u, k.threadToBeDestroyed = some u → ∃ p pr, k.processOf u = some p ∧
        k.process p = some pr ∧ k'.process = Function.update k.process p
          (some ⟨pr.numThreads - 1, pr.deleted || pr.numThreads - 1 == 0⟩)) := by
  obtain ⟨r', hr', ⟨rfl, rfl⟩ | ⟨hne, k₁, hk₁, rfl⟩⟩ := switchTo_cases h
  · obtain rfl : r = .startThreadExecution := Option.some.inj (hr.symm.trans hr')
    exact Or.inl ⟨rfl, rfl, rfl⟩
  · obtain rfl : r = r' := Option.some.inj (hr.symm.trans hr')
    have hslot : (k₁.resumeOperation r).threadToBeDestroyed = k₁.threadToBeDestroyed := by
      cases r <;> rfl
    have hproc : (k₁.resumeOperation r).process = k₁.process := by
      cases r <;> rfl
    refine Or.inr ⟨hne, by rw [hslot]; exact destroyFinished_slot hk₁, ?_, ?_⟩
    · intro hnone
      rw [hproc]
      simp only [destroyFinished, hnone] at hk₁
      rw [← Option.some.inj hk₁]
    · intro u hu
      rw [hproc]
      simp only [destroyFinished, hu] at hk₁
      obtain ⟨th, p, pr, hth, hp, hpr, rfl⟩ := deleteThread_cases hk₁
      refine ⟨p, pr, ?_, hpr, rfl⟩
      have hth' : k.thread u = some th := hth
      simp [processOf, hth', hp]

/-- What a step does to the slot and to the processes. -/
inductive Reaps (k : Kernel) (a : Action) (k' : Kernel) : Prop where
  | start (t : ThreadId) (p : ProcessId) (pr : Process) (ha : a = .start t p)
      (hpr : k.process p = some pr) (hlive : pr.deleted = false)
      (hp : k'.process = Function.update k.process p (some ⟨pr.numThreads + 1, false⟩))
      (hslot : k'.threadToBeDestroyed = k.threadToBeDestroyed)
  | newProcess (p : ProcessId) (ha : a = .newProcess p) (hpr : k.process p = none)
      (hp : k'.process = Function.update k.process p (some ⟨0, false⟩))
      (hslot : k'.threadToBeDestroyed = k.threadToBeDestroyed)
  | finish (ha : a = .finish) (hp : k'.process = k.process)
      (hslot : k'.threadToBeDestroyed = some k.currentThread)
  | delete (u : ThreadId) (p : ProcessId) (pr : Process) (hyd : a = .yield ∨ a = .dispatch)
      (hc : comesBack k a = true) (hu : k.threadToBeDestroyed = some u)
      (hpu : k.processOf u = some p) (hpr : k.process p = some pr)
      (hp : k'.process = Function.update k.process p
        (some ⟨pr.numThreads - 1, pr.deleted || pr.numThreads - 1 == 0⟩))
      (hslot : k'.threadToBeDestroyed = none)
  | other (hs : ∀ t p, a ≠ .start t p) (hf : a ≠ .finish) (hd : deletes k a = none)
      (hp : k'.process = k.process) (hslot : k'.threadToBeDestroyed = k.threadToBeDestroyed)

/-- A switch from `k`, whose slot and processes the prepared kernel `k₁` has. -/
theorem Reaps.of_switch {k k₁ k' : Kernel} {a : Action} {t : ThreadId}
    (hyd : a = .yield ∨ a = .dispatch) (hsw : switched k a = some t)
    (h : k₁.switchTo t = some k') (hres : k₁.resumeOf t = k.resumeOf t)
    (hslot : k₁.threadToBeDestroyed = k.threadToBeDestroyed) (hproc : k₁.process = k.process)
    (hof : ∀ u, k₁.processOf u = k.processOf u) : Reaps k a k' := by
  obtain ⟨r, hr, -⟩ := switchTo_cases h
  have hret : returning k a = some r := by
    rw [returning, hsw, Option.bind_some, ← hres, hr]
  have hns : ∀ t p, a ≠ .start t p := by rcases hyd with rfl | rfl <;> simp
  have hnf : a ≠ .finish := by rcases hyd with rfl | rfl <;> simp
  rcases switchTo_destroys h hr with ⟨rfl, hs', hp'⟩ | ⟨hne, hs', hnone, hsome⟩
  · refine .other hns hnf ?_ (hp'.trans hproc) (hs'.trans hslot)
    simp [deletes, comesBack, hret]
  · have hc : comesBack k a = true := by
      rw [comesBack, hret]
      cases r <;> first | rfl | exact absurd rfl hne
    cases hu : k.threadToBeDestroyed with
    | none =>
        refine .other hns hnf ?_ ((hnone (hslot.trans hu)).trans hproc) (hs'.trans hu.symm)
        simp [deletes, hu]
    | some u =>
        obtain ⟨p, pr, hpu, hpr, hp'⟩ := hsome u (hslot.trans hu)
        rw [hproc] at hpr hp'
        exact .delete u p pr hyd hc hu ((hof u).symm.trans hpu) hpr hp' hs'

theorem Step.reaps {k k' : Kernel} {a : Action} (hs : Step k a k')
    (hcur : k.sleeping = false → k.currentThread ∉ k.readyList) : Reaps k a k' := by
  have other : ∀ {a : Action} {k' : Kernel}, (∀ t p, a ≠ .start t p) → a ≠ .finish →
      switched k a = none → k'.process = k.process →
      k'.threadToBeDestroyed = k.threadToBeDestroyed → Reaps k a k' :=
    fun hns hnf hsw hp hslot =>
      .other hns hnf (by simp [deletes, comesBack, returning, hsw]) hp hslot
  cases hs with
  | call hrun hc =>
      cases hc with
      | start ht hp hnone hid hlive =>
          exact .start _ _ _ rfl hp hlive (by simp [setThread, setProcess, hlive]) rfl
      | newProcess hp => exact .newProcess _ rfl hp rfl rfl
      | finish hrem => exact .finish rfl rfl rfl
      | yieldAlone hr => exact other (by simp) (by simp) (by simp [switched, hr]) rfl rfl
      | @yieldTo t rest _ hr hsw =>
          have hne : t ≠ k.currentThread := by
            intro he
            exact hcur hrun (by rw [hr, he]; exact List.mem_cons_self)
          refine Reaps.of_switch (Or.inl rfl) (by simp [switched, hr]) hsw ?_ rfl rfl ?_
          · show (k.saveResume k.currentThread _).resumeOf t = _
            rw [resumeOf_saveResume, if_neg hne]
          · intro u
            exact processOf_saveResume k k.currentThread u _
      | @semV s =>
          have hv := semV_onlyWakes k s
          exact other (by simp) (by simp) rfl hv.process hv.threadToBeDestroyed
      | _ => exact other (by simp) (by simp) rfl rfl rfl
  | @interrupt vs hrun hon =>
      have hv := handlers_onlyWakes (k.setStatus .off) vs
      exact other (by simp) (by simp) rfl hv.process hv.threadToBeDestroyed
  | @idle vs hsleep hready =>
      have hv := handlers_onlyWakes k vs
      exact other (by simp) (by simp) rfl hv.process hv.threadToBeDestroyed
  | dispatch hsleep hr hsw =>
      exact Reaps.of_switch (Or.inr rfl) (by simp [switched, hr]) hsw rfl rfl rfl (fun _ => rfl)

/-! ## Counting the threads of a process -/

/-- One thread of a process less. -/
theorem countP_delete {l : List ThreadId} (hn : l.Nodup) {u : ThreadId} (hu : u ∈ l)
    {P : ThreadId → Prop} [DecidablePred P] (hP : P u) :
    l.countP (fun t => P t) = l.countP (fun t => P t ∧ t ≠ u) + 1 := by
  have hp := List.perm_cons_erase hu
  have hnot : ∀ t ∈ l.erase u, t ≠ u := by
    intro t ht he
    exact hn.not_mem_erase (he ▸ ht)
  have hrest : (l.erase u).countP (fun t => P t ∧ t ≠ u) = (l.erase u).countP (fun t => P t) := by
    apply List.countP_congr
    intro t ht
    simp [hnot t ht]
  rw [hp.countP_eq, hp.countP_eq, List.countP_cons, List.countP_cons, hrest]
  simp [hP]

/-- A started thread that is not deleted counts. -/
theorem undeleted_eq_zero {tr : History} {k : Kernel} {p : ProcessId} :
    undeleted tr k p = 0 ↔
      ∀ t ∈ startedThreads tr, k.processOf t = some p → t ∈ deletedThreads tr := by
  rw [undeleted, List.countP_eq_zero]
  apply forall_congr'
  intro t
  apply imp_congr_right
  intro _
  simp

/-- The invariant of a run in which `Finish` always found the slot empty. -/
structure ReapInv (tr : History) (k : Kernel) : Prop where
  once : finishedThreads tr = deletedThreads tr ++ k.threadToBeDestroyed.toList
  nodup : (finishedThreads tr).Nodup
  startedOnce : (startedThreads tr).Nodup
  owner : ∀ t p, k.processOf t = some p → k.process p ≠ none
  numThreads : ∀ p pr, k.process p = some pr → pr.numThreads = undeleted tr k p
  deleted : ∀ p pr, k.process p = some pr →
    (pr.deleted = true ↔
      undeleted tr k p = 0 ∧ ∃ t ∈ startedThreads tr, k.processOf t = some p)

theorem Step.processOf_same {k k' : Kernel} {a : Action} (hs : Step k a k')
    (hns : ∀ t p, a ≠ .start t p) (u : ThreadId) : k'.processOf u = k.processOf u := by
  obtain ⟨t, p, ha, -⟩ | ⟨-, -, -, hp⟩ | ⟨-, -, -, hp⟩ := hs.threads
  · exact absurd ha (hns t p)
  · exact hp u
  · exact hp u

namespace ReapInv

variable {tr : History} {k k' : Kernel} {a : Action}

/-- A deleted thread was started. -/
theorem started_of_deleted (h : ReapInv tr k) (hsch : Scheduled tr k) {t : ThreadId}
    (ht : t ∈ deletedThreads tr) : t ∈ startedThreads tr := by
  have hfin : t ∈ finishedThreads tr := by
    rw [h.once]
    exact List.mem_append_left _ ht
  exact mem_startedThreads.mpr (hsch.wasStarted t (mem_finishedThreads.mp hfin))

/-- Nothing is counted differently when no thread is started or deleted. -/
theorem undeleted_same (hs : Step k a k') (hns : ∀ t p, a ≠ .start t p)
    (hd : deletes k a = none) (p : ProcessId) :
    undeleted (tr ++ [(k, a)]) k' p = undeleted tr k p := by
  unfold undeleted
  rw [startedThreads_snoc tr k hns, deletedThreads_snoc, hd]
  simp only [hs.processOf_same hns, Option.toList_none, List.append_nil]

theorem owned_same (hs : Step k a k') (hns : ∀ t p, a ≠ .start t p) (p : ProcessId) :
    (∃ t ∈ startedThreads (tr ++ [(k, a)]), k'.processOf t = some p) ↔
      ∃ t ∈ startedThreads tr, k.processOf t = some p := by
  rw [startedThreads_snoc tr k hns]
  simp only [hs.processOf_same hns]

/-- The list of finished threads grows by the running thread only. -/
theorem finished_nodup (h : ReapInv tr k) (hsch : Scheduled tr k) (hs : Step k a k') :
    (finishedThreads (tr ++ [(k, a)])).Nodup := by
  rw [finishedThreads_snoc]
  by_cases ha : a = .finish
  · subst ha
    rw [if_pos rfl]
    have hrun : k.sleeping = false := by
      cases hs with
      | call hrun _ => exact hrun
    obtain ⟨loc, hp, -⟩ := hsch.placed
    have hnot : k.currentThread ∉ finishedThreads tr := fun hmem =>
      ((hsch.isAlive _).mp (hp.current_alive hrun)).2 (mem_finishedThreads.mp hmem)
    refine List.nodup_append.mpr ⟨h.nodup, List.nodup_singleton _, fun x hx y hy hxy => ?_⟩
    rw [List.mem_singleton.mp hy] at hxy
    exact hnot (hxy ▸ hx)
  · rw [if_neg ha, List.append_nil]
    exact h.nodup

theorem start (h : ReapInv tr k) (hsch : Scheduled tr k) {t : ThreadId} {p : ProcessId}
    (hs : Step k (.start t p) k') {pr : Process} (hpr : k.process p = some pr)
    (hp : k'.process = Function.update k.process p (some ⟨pr.numThreads + 1, false⟩))
    (hslot : k'.threadToBeDestroyed = k.threadToBeDestroyed) :
    ReapInv (tr ++ [(k, .start t p)]) k' := by
  obtain ⟨hnone, hof⟩ : k.processOf t = none ∧
      ∀ u, k'.processOf u = if u = t then some p else k.processOf u := by
    obtain ⟨t', p', ha, hnone, -, hof⟩ | ⟨ha, -⟩ | ⟨hns, -⟩ := hs.threads
    · obtain ⟨rfl, rfl⟩ : t = t' ∧ p = p' := by simpa using ha
      exact ⟨hnone, hof⟩
    · exact absurd ha (by simp)
    · exact absurd rfl (hns t p)
  have hnew : t ∉ startedThreads tr := fun hmem =>
    (hsch.hasProcess t).mp (mem_startedThreads.mp hmem) hnone
  have hdel : deletes k (.start t p) = none := by simp [deletes, comesBack, returning, switched]
  have hd : deletedThreads (tr ++ [(k, .start t p)]) = deletedThreads tr := by
    rw [deletedThreads_snoc, hdel]
    simp
  have hundel : t ∉ deletedThreads tr := fun hmem => hnew (h.started_of_deleted hsch hmem)
  -- The new thread adds one to its own process.
  have hcount : ∀ q, undeleted (tr ++ [(k, .start t p)]) k' q =
      undeleted tr k q + if q = p then 1 else 0 := by
    intro q
    unfold undeleted
    rw [startedThreads_start, hd, List.countP_append]
    congr 1
    · apply List.countP_congr
      intro u hu
      have hut : u ≠ t := fun he => hnew (he ▸ hu)
      simp [hof, hut]
    · by_cases hq : q = p
      · simp [hof, hq, hundel]
      · simp [hof, hq, Ne.symm hq]
  refine ⟨?_, h.finished_nodup hsch hs, ?_, ?_, ?_, ?_⟩
  · rw [finishedThreads_snoc, hd, hslot, h.once]
    simp
  · rw [startedThreads_start]
    refine List.nodup_append.mpr ⟨h.startedOnce, List.nodup_singleton _, fun x hx y hy hxy => ?_⟩
    rw [List.mem_singleton.mp hy] at hxy
    exact hnew (hxy ▸ hx)
  · intro u q hu
    rw [hp]
    by_cases hq : q = p
    · simp [hq]
    · rw [hof] at hu
      by_cases hut : u = t
      · rw [if_pos hut] at hu
        exact absurd (Option.some.inj hu).symm hq
      · rw [Function.update_of_ne hq]
        rw [if_neg hut] at hu
        exact h.owner u q hu
  · intro q qr hq
    rw [hp] at hq
    rw [hcount]
    by_cases hqp : q = p
    · subst hqp
      rw [Function.update_self] at hq
      obtain rfl := Option.some.inj hq
      have := h.numThreads q pr hpr
      simp [this]
    · rw [Function.update_of_ne hqp] at hq
      simpa [hqp] using h.numThreads q qr hq
  · intro q qr hq
    rw [hp] at hq
    rw [hcount]
    by_cases hqp : q = p
    · subst hqp
      rw [Function.update_self] at hq
      obtain rfl := Option.some.inj hq
      simp
    · rw [Function.update_of_ne hqp] at hq
      rw [h.deleted q qr hq, startedThreads_start]
      simp only [hqp, if_false, Nat.add_zero, List.mem_append, List.mem_singleton]
      apply and_congr_right
      intro _
      constructor
      · rintro ⟨u, hu, hpu⟩
        have hut : u ≠ t := fun he => hnew (he ▸ hu)
        exact ⟨u, Or.inl hu, by rw [hof, if_neg hut]; exact hpu⟩
      · rintro ⟨u, hu, hpu⟩
        rw [hof] at hpu
        by_cases hut : u = t
        · rw [if_pos hut] at hpu
          exact absurd (Option.some.inj hpu).symm hqp
        · rw [if_neg hut] at hpu
          exact ⟨u, hu.resolve_right hut, hpu⟩

/-- A new process has no threads. -/
theorem newProcess (h : ReapInv tr k) (hsch : Scheduled tr k) {p : ProcessId}
    (hs : Step k (.newProcess p) k') (hpr : k.process p = none)
    (hp : k'.process = Function.update k.process p (some ⟨0, false⟩))
    (hslot : k'.threadToBeDestroyed = k.threadToBeDestroyed) :
    ReapInv (tr ++ [(k, .newProcess p)]) k' := by
  have hns : ∀ t q, Action.newProcess p ≠ .start t q := by simp
  have hdel : deletes k (.newProcess p) = none := by
    simp [deletes, comesBack, returning, switched]
  have hnobody : ∀ t, k.processOf t ≠ some p := fun t ht => h.owner t p ht hpr
  refine ⟨?_, h.finished_nodup hsch hs, ?_, ?_, ?_, ?_⟩
  · rw [finishedThreads_snoc, deletedThreads_snoc, hdel, hslot, h.once]
    simp
  · rw [startedThreads_snoc tr k hns]
    exact h.startedOnce
  · intro u q hu
    rw [hs.processOf_same hns] at hu
    rw [hp]
    by_cases hq : q = p
    · simp [hq]
    · rw [Function.update_of_ne hq]
      exact h.owner u q hu
  · intro q qr hq
    rw [hp] at hq
    rw [undeleted_same hs hns hdel]
    by_cases hqp : q = p
    · subst hqp
      rw [Function.update_self] at hq
      obtain rfl := Option.some.inj hq
      have hzero : undeleted tr k q = 0 :=
        undeleted_eq_zero.mpr fun t _ ht => absurd ht (hnobody t)
      simp [hzero]
    · rw [Function.update_of_ne hqp] at hq
      exact h.numThreads q qr hq
  · intro q qr hq
    rw [hp] at hq
    rw [undeleted_same hs hns hdel, owned_same hs hns]
    by_cases hqp : q = p
    · subst hqp
      rw [Function.update_self] at hq
      obtain rfl := Option.some.inj hq
      simp [hnobody]
    · rw [Function.update_of_ne hqp] at hq
      exact h.deleted q qr hq

/-- A thread that comes back deletes the finished thread. -/
theorem delete (h : ReapInv tr k) (hsch : Scheduled tr k) (hs : Step k a k')
    {u : ThreadId} {p : ProcessId} {pr : Process} (hyd : a = .yield ∨ a = .dispatch)
    (hc : comesBack k a = true) (hu : k.threadToBeDestroyed = some u)
    (hpu : k.processOf u = some p) (hpr : k.process p = some pr)
    (hp : k'.process = Function.update k.process p
      (some ⟨pr.numThreads - 1, pr.deleted || pr.numThreads - 1 == 0⟩))
    (hslot : k'.threadToBeDestroyed = none) : ReapInv (tr ++ [(k, a)]) k' := by
  have hns : ∀ t q, a ≠ .start t q := by rcases hyd with rfl | rfl <;> simp
  have hnf : a ≠ .finish := by rcases hyd with rfl | rfl <;> simp
  have hdel : deletes k a = some u := by simp [deletes, hc, hu]
  have honce := h.once
  rw [hu, Option.toList_some] at honce
  have hundel : u ∉ deletedThreads tr := by
    have hn := h.nodup
    rw [honce] at hn
    exact fun hmem => (List.nodup_append.mp hn).2.2 u hmem u (by simp) rfl
  have hmem : u ∈ startedThreads tr := by
    refine mem_startedThreads.mpr (hsch.wasStarted u (mem_finishedThreads.mp ?_))
    rw [honce]
    simp
  -- The process of `u` loses one thread, the others none.
  have hcount : ∀ q, undeleted tr k q =
      undeleted (tr ++ [(k, a)]) k' q + if q = p then 1 else 0 := by
    intro q
    unfold undeleted
    rw [startedThreads_snoc tr k hns, deletedThreads_snoc, hdel]
    simp only [hs.processOf_same hns, Option.toList_some, List.mem_append, List.mem_singleton,
      not_or]
    by_cases hq : q = p
    · subst hq
      rw [if_pos rfl, countP_delete (P := fun t => k.processOf t = some q ∧ t ∉ deletedThreads tr)
        h.startedOnce hmem ⟨hpu, hundel⟩]
      simp only [and_assoc]
    · rw [if_neg hq, Nat.add_zero]
      apply List.countP_congr
      intro t _
      have htu : k.processOf t = some q → t ≠ u := by
        rintro ht rfl
        exact hq (Option.some.inj (ht.symm.trans hpu))
      simp only [decide_eq_true_eq]
      constructor
      · rintro ⟨ht, hd⟩
        exact ⟨ht, hd, htu ht⟩
      · rintro ⟨ht, hd, -⟩
        exact ⟨ht, hd⟩
  refine ⟨?_, h.finished_nodup hsch hs, ?_, ?_, ?_, ?_⟩
  · rw [finishedThreads_snoc, deletedThreads_snoc, hdel, hslot, if_neg hnf, honce]
    simp
  · rw [startedThreads_snoc tr k hns]
    exact h.startedOnce
  · intro t q ht
    rw [hs.processOf_same hns] at ht
    rw [hp]
    by_cases hq : q = p
    · simp [hq]
    · rw [Function.update_of_ne hq]
      exact h.owner t q ht
  · intro q qr hq
    rw [hp] at hq
    have hcq := hcount q
    by_cases hqp : q = p
    · subst hqp
      rw [Function.update_self] at hq
      obtain rfl := Option.some.inj hq
      have hn := h.numThreads q pr hpr
      rw [if_pos rfl] at hcq
      show pr.numThreads - 1 = _
      omega
    · rw [Function.update_of_ne hqp] at hq
      have hn := h.numThreads q qr hq
      rw [if_neg hqp] at hcq
      omega
  · intro q qr hq
    rw [hp] at hq
    rw [owned_same hs hns]
    have hcq := hcount q
    by_cases hqp : q = p
    · subst hqp
      rw [Function.update_self] at hq
      obtain rfl := Option.some.inj hq
      have hn := h.numThreads q pr hpr
      rw [if_pos rfl] at hcq
      have hlive : pr.deleted = false := by
        cases hdead : pr.deleted with
        | false => rfl
        | true =>
            have := ((h.deleted q pr hpr).mp hdead).1
            omega
      have howned : ∃ t ∈ startedThreads tr, k.processOf t = some q := ⟨u, hmem, hpu⟩
      simp only [hlive, Bool.false_or, beq_iff_eq, howned, and_true]
      omega
    · rw [Function.update_of_ne hqp] at hq
      rw [if_neg hqp] at hcq
      rw [h.deleted q qr hq, hcq, Nat.add_zero]

/-- The other steps, `Finish` with an empty slot among them. -/
theorem other (h : ReapInv tr k) (hsch : Scheduled tr k) (hs : Step k a k')
    (hns : ∀ t p, a ≠ .start t p) (hd : deletes k a = none) (hp : k'.process = k.process)
    (hslot : k'.threadToBeDestroyed.toList =
      k.threadToBeDestroyed.toList ++ if a = .finish then [k.currentThread] else []) :
    ReapInv (tr ++ [(k, a)]) k' := by
  refine ⟨?_, h.finished_nodup hsch hs, ?_, ?_, ?_, ?_⟩
  · rw [finishedThreads_snoc, deletedThreads_snoc, hd, hslot, h.once]
    simp
  · rw [startedThreads_snoc tr k hns]
    exact h.startedOnce
  · intro t p ht
    rw [hs.processOf_same hns] at ht
    rw [hp]
    exact h.owner t p ht
  · intro p pr hpr
    rw [hp] at hpr
    rw [undeleted_same hs hns hd]
    exact h.numThreads p pr hpr
  · intro p pr hpr
    rw [hp] at hpr
    rw [undeleted_same hs hns hd, owned_same hs hns]
    exact h.deleted p pr hpr

/-- The invariant is kept by every step that does not overwrite the slot. -/
theorem step (h : ReapInv tr k) (hsch : Scheduled tr k) (hs : Step k a k')
    (hfree : a = .finish → k.threadToBeDestroyed = none) : ReapInv (tr ++ [(k, a)]) k' := by
  obtain ⟨loc, hplaced, -⟩ := hsch.placed
  cases hs.reaps fun hrun => hplaced.current_not_ready hrun with
  | start t p pr ha hpr hlive hp hslot =>
      subst ha
      exact h.start hsch hs hpr hp hslot
  | newProcess p ha hpr hp hslot =>
      subst ha
      exact h.newProcess hsch hs hpr hp hslot
  | finish ha hp hslot =>
      subst ha
      refine h.other hsch hs (by simp) ?_ hp ?_
      · simp [deletes, comesBack, returning, switched]
      · simp [hslot, hfree rfl]
  | delete u p pr hyd hc hu hpu hpr hp hslot => exact h.delete hsch hs hyd hc hu hpu hpr hp hslot
  | other hns hf hd hp hslot => exact h.other hsch hs hns hd hp (by simp [hslot, hf])

end ReapInv

/-! ## The slot against the history -/

/-- A thread comes back only through a switch. -/
theorem not_finish_of_comesBack {k : Kernel} {a : Action} (h : comesBack k a = true) :
    a ≠ .finish := by
  rintro rfl
  simp [comesBack, returning, switched] at h

theorem Step.slot {k k' : Kernel} {a : Action} (hs : Step k a k')
    (hcur : k.sleeping = false → k.currentThread ∉ k.readyList) :
    k'.threadToBeDestroyed =
      if a = .finish then some k.currentThread
      else if comesBack k a then none else k.threadToBeDestroyed := by
  cases hs.reaps hcur with
  | start t p pr ha _ _ _ hslot => simp [ha, comesBack, returning, switched, hslot]
  | newProcess p ha _ _ hslot => simp [ha, comesBack, returning, switched, hslot]
  | finish ha _ hslot => rw [if_pos ha, hslot]
  | delete u p pr _ hc _ _ _ _ hslot =>
      rw [if_neg (not_finish_of_comesBack hc), if_pos hc, hslot]
  | other _ hf hd _ hslot =>
      rw [if_neg hf, hslot]
      split
      · rename_i hc
        simpa [deletes, hc] using hd
      · rfl

/-- The slot is taken exactly while no thread has come back since the last
    `Finish`. -/
theorem slot_taken_iff {initialValue : SemId → Int} {tr : History} {k : Kernel}
    (hr : Run Kernel.step (Kernel.initialized initialValue) tr k) :
    k.threadToBeDestroyed ≠ none ↔
      ∃ tr₁ x tr₂, tr = tr₁ ++ x :: tr₂ ∧ x.2 = .finish ∧
        ∀ z ∈ tr₂, comesBack z.1 z.2 = false := by
  induction hr with
  | nil => simp [Kernel.initialized]
  | @snoc tr k k' a hr hs ih =>
      obtain ⟨loc, hp, -⟩ := (scheduled_of_run hr).placed
      rw [(step_cases hs).slot fun hrun => hp.current_not_ready hrun]
      constructor
      · intro h
        by_cases ha : a = .finish
        · exact ⟨tr, (k, a), [], rfl, ha, by simp⟩
        · rw [if_neg ha] at h
          cases hc : comesBack k a with
          | true => simp [hc] at h
          | false =>
              simp only [hc, Bool.false_eq_true, if_false] at h
              obtain ⟨tr₁, x, tr₂, rfl, hx, hall⟩ := ih.mp h
              refine ⟨tr₁, x, tr₂ ++ [(k, a)], by simp, hx, fun z hz => ?_⟩
              rcases List.mem_append.mp hz with hz | hz
              · exact hall z hz
              · rw [List.mem_singleton.mp hz]
                exact hc
      · rintro ⟨tr₁, x, tr₂, he, hx, hall⟩
        rcases List.eq_nil_or_concat tr₂ with rfl | ⟨tr₂, z, rfl⟩
        · obtain ⟨-, hlast⟩ := List.append_inj' he rfl
          obtain rfl : (k, a) = x := by simpa using hlast
          simp [show a = .finish from hx]
        · rw [List.concat_eq_append] at he hall
          obtain ⟨htr, hlast⟩ := List.append_inj' (he.trans (by simp) :
            tr ++ [(k, a)] = (tr₁ ++ x :: tr₂) ++ [z]) rfl
          obtain rfl : (k, a) = z := by simpa using hlast
          have hc : comesBack k a = false := hall (k, a) (by simp)
          have hslot := ih.mpr ⟨tr₁, x, tr₂, htr, hx,
            fun z hz => hall z (List.mem_append_left _ hz)⟩
          by_cases ha : a = .finish
          · simp [ha]
          · simpa [ha, hc] using hslot

theorem FinishesApart.of_prefix {tr tr' : History} (h : FinishesApart tr) (hp : tr' <+: tr) :
    FinishesApart tr' := by
  obtain ⟨tl, rfl⟩ := hp
  intro tr₁ x tr₂ y tr₃ he hx hy
  exact h tr₁ x tr₂ y (tr₃ ++ tl) (by simp [he]) hx hy

theorem finishesApart_snoc {initialValue : SemId → Int} {tr : History} {k : Kernel}
    (hr : Run Kernel.step (Kernel.initialized initialValue) tr k) (a : Action) :
    FinishesApart (tr ++ [(k, a)]) ↔
      FinishesApart tr ∧ (a = .finish → k.threadToBeDestroyed = none) := by
  have hslot := slot_taken_iff hr
  constructor
  · intro h
    refine ⟨h.of_prefix (List.prefix_append _ _), fun ha => ?_⟩
    apply Classical.byContradiction
    intro hne
    obtain ⟨tr₁, x, tr₂, he, hx, hall⟩ := hslot.mp hne
    obtain ⟨z, hz, hc⟩ := h tr₁ x tr₂ (k, a) [] (by simp [he]) hx ha
    rw [hall z hz] at hc
    cases hc
  · rintro ⟨h, hfree⟩ tr₁ x tr₂ y tr₃ he hx hy
    rcases List.eq_nil_or_concat tr₃ with rfl | ⟨tr₃, w, rfl⟩
    · obtain ⟨htr, hlast⟩ := List.append_inj' he rfl
      obtain rfl : (k, a) = y := by simpa using hlast
      apply Classical.byContradiction
      intro hno
      refine hslot.mpr ⟨tr₁, x, tr₂, htr, hx, fun z hz => ?_⟩ (hfree hy)
      exact Bool.eq_false_iff.mpr fun hc => hno ⟨z, hz, hc⟩
    · rw [List.concat_eq_append] at he
      obtain ⟨htr, -⟩ := List.append_inj' (he.trans (by simp) :
        tr ++ [(k, a)] = (tr₁ ++ x :: tr₂ ++ y :: tr₃) ++ [w]) rfl
      exact h tr₁ x tr₂ y tr₃ htr hx hy

/-- `Finish` always finds the slot empty exactly when the threads finish apart. -/
theorem slotFree_iff {initialValue : SemId → Int} {tr : History} {k : Kernel}
    (hr : Run Kernel.step (Kernel.initialized initialValue) tr k) :
    (∀ x ∈ tr, x.2 = .finish → x.1.threadToBeDestroyed = none) ↔ FinishesApart tr := by
  induction hr with
  | nil =>
      refine iff_of_true (by simp) fun tr₁ x tr₂ y tr₃ he => ?_
      simp at he
  | snoc hr _ ih =>
      rw [finishesApart_snoc hr, ← ih]
      simp only [List.forall_mem_append, List.forall_mem_singleton]

theorem reapInv_initialized (initialValue : SemId → Int) :
    ReapInv [] (Kernel.initialized initialValue) := by
  have hof : ∀ t p, (Kernel.initialized initialValue).processOf t = some p ↔ t = 0 ∧ p = 0 := by
    intro t p
    by_cases ht : t = 0
    · simp [processOf, Kernel.initialized, ht, eq_comm]
    · simp [processOf, Kernel.initialized, ht]
  have hcount : undeleted [] (Kernel.initialized initialValue) 0 = 1 := rfl
  have hboot : ∀ p pr, (Kernel.initialized initialValue).process p = some pr →
      p = 0 ∧ pr = ⟨1, false⟩ := by
    intro p pr hp
    by_cases h0 : p = 0
    · simpa [Kernel.initialized, h0, eq_comm] using hp
    · simp [Kernel.initialized, h0] at hp
  refine ⟨rfl, List.nodup_nil, List.nodup_singleton 0, ?_, ?_, ?_⟩
  · intro t p ht
    obtain ⟨rfl, rfl⟩ := (hof t p).mp ht
    simp [Kernel.initialized]
  · intro p pr hp
    obtain ⟨rfl, rfl⟩ := hboot p pr hp
    rw [hcount]
    rfl
  · intro p pr hp
    obtain ⟨rfl, rfl⟩ := hboot p pr hp
    rw [hcount]
    simp

theorem reapInv_of_run {initialValue : SemId → Int} {tr : History} {k : Kernel}
    (hr : Run Kernel.step (Kernel.initialized initialValue) tr k) (h : FinishesApart tr) :
    ReapInv tr k := by
  induction hr with
  | nil => exact reapInv_initialized initialValue
  | snoc hr hs ih =>
      obtain ⟨htr, hfree⟩ := (finishesApart_snoc hr _).mp h
      exact (ih htr).step (scheduled_of_run hr) (step_cases hs) hfree

/-- Once a thread has come back, every thread that had finished is deleted. -/
theorem deleted_of_comesBack {initialValue : SemId → Int} {tr₁ tr₂ : History} {k : Kernel}
    (hr : Run Kernel.step (Kernel.initialized initialValue) (tr₁ ++ tr₂) k)
    (h : FinishesApart (tr₁ ++ tr₂)) (hz : ∃ z ∈ tr₂, comesBack z.1 z.2 = true)
    {t : ThreadId} (ht : t ∈ finishedThreads tr₁) : t ∈ deletedThreads (tr₁ ++ tr₂) := by
  obtain ⟨z, hz, hc⟩ := hz
  obtain ⟨b, c, rfl⟩ := List.append_of_mem hz
  -- The state right after the thread came back has an empty slot.
  have hpre : tr₁ ++ b ++ [z] <+: tr₁ ++ (b ++ z :: c) := ⟨c, by simp⟩
  obtain ⟨k₂, hr₂⟩ := hr.exists_prefix hpre
  have hinv := reapInv_of_run hr₂ (h.of_prefix hpre)
  obtain ⟨hr₁, hs⟩ := hr₂.of_snoc
  obtain ⟨loc, hp, -⟩ := (scheduled_of_run hr₁).placed
  have hslot := (step_cases hs).slot fun hrun => hp.current_not_ready hrun
  rw [if_neg (not_finish_of_comesBack hc), if_pos hc] at hslot
  have honce := hinv.once
  rw [hslot, Option.toList_none, List.append_nil] at honce
  have hmem : t ∈ deletedThreads (tr₁ ++ b ++ [z]) := by
    rw [← honce, List.append_assoc, finishedThreads_append]
    exact List.mem_append_left _ ht
  have hall : deletedThreads (tr₁ ++ (b ++ z :: c)) =
      deletedThreads (tr₁ ++ b ++ [z]) ++ deletedThreads c := by
    rw [← deletedThreads_append]
    simp
  rw [hall]
  exact List.mem_append_left _ hmem

/-- The finished threads and their processes are deleted as promised exactly in
    the runs in which a thread comes back inside `SwitchTo` between any two
    threads that finish. -/
theorem slot_law_iff_finishes_apart (initialValue : SemId → Int) (tr : History) (k : Kernel)
    (hr : Run Kernel.step (Kernel.initialized initialValue) tr k) :
    SlotLaw tr k ↔ FinishesApart tr := by
  constructor
  · intro h
    exact (slotFree_iff hr).mp h.slotFree
  · intro h
    have hinv := reapInv_of_run hr h
    refine ⟨(slotFree_iff hr).mpr h, hinv.once, hinv.nodup, hinv.numThreads, ?_⟩
    rintro tr₁ tr₂ p rfl ⟨t, ht, hpt⟩ hall hz
    have hzero : undeleted (tr₁ ++ tr₂) k p = 0 :=
      undeleted_eq_zero.mpr fun u hu hpu => deleted_of_comesBack hr h hz (hall u hu hpu)
    obtain ⟨pr, hpr⟩ := Option.ne_none_iff_exists'.mp (hinv.owner t p hpt)
    exact ⟨pr, hpr, (hinv.deleted p pr hpr).mpr ⟨hzero, t, ht, hpt⟩⟩

/-- The main thread starts thread 1 and finishes; thread 1 is dispatched for the
    first time and finishes. -/
def overwritten : List Action := [.newThread 1, .start 1 0, .finish, .dispatch, .finish]

theorem overwritten_run :
    ∃ tr k, Run Kernel.step (Kernel.initialized fun _ => 0) tr k ∧
      tr.map (fun x => (decide (x.2 = .finish), x.1.threadToBeDestroyed)) =
        [(false, none), (false, none), (true, none), (false, some 0), (true, some 0)] := by
  obtain ⟨⟨tr, k⟩, he, hx⟩ := Option.map_eq_some_iff.mp
    (show (exec Kernel.step (Kernel.initialized fun _ => 0) overwritten).map
        (fun x => x.1.map fun y => (decide (y.2 = .finish), y.1.threadToBeDestroyed)) =
      some [(false, none), (false, none), (true, none), (false, some 0), (true, some 0)] by
        decide)
  exact ⟨tr, k, run_of_exec he, hx⟩

theorem slot_law_fails :
    ¬ ∀ (initialValue : SemId → Int) (tr : History) (k : Kernel),
      Run Kernel.step (Kernel.initialized initialValue) tr k → SlotLaw tr k := by
  intro h
  obtain ⟨tr, k, hr, hx⟩ := overwritten_run
  have hmem : (true, some 0) ∈ tr.map fun x =>
      (decide (x.2 = Action.finish), x.1.threadToBeDestroyed) := by
    rw [hx]
    simp
  obtain ⟨x, hxt, hxe⟩ := List.mem_map.mp hmem
  simp only [Prod.mk.injEq, decide_eq_true_eq] at hxe
  have hfree := (h _ tr k hr).slotFree x hxt hxe.1
  rw [hxe.2] at hfree
  cases hfree

theorem slot_law_iff_finishes_apart_overwritten :
    ∃ tr k, Run Kernel.step (Kernel.initialized fun _ => 0) tr k ∧
      (SlotLaw tr k ↔ FinishesApart tr) := by
  obtain ⟨tr, k, hr, -⟩ := overwritten_run
  exact ⟨tr, k, hr, slot_law_iff_finishes_apart _ tr k hr⟩

end Kernel
end Nachos
