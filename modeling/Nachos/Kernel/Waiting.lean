/-
  Nachos.Kernel.Waiting

  The threads that have called an operation and have not returned from it.  A
  `V` or a `Release` moves a thread from the queue to the ready list; for the
  thread nothing changes until it is switched to.  So a thread is in `P`, or in
  `Acquire`, from the call to the return, whatever the others do.
-/

import Nachos.Kernel.Lock
import Nachos.Kernel.Semaphore

namespace Nachos
namespace Kernel

/-- Thread `t` has called `P` on `s` and not returned. -/
def InP (s : SemId) (k : Kernel) (t : ThreadId) : Prop :=
  t ∈ (k.semaphore s).queue ∨ t ∈ k.readyList ∧ ∃ o, k.resumeOf t = some (.semP s o)

/-- Thread `t` has called `Acquire` on `l` and not returned. -/
def InAcquire (l : LockId) (k : Kernel) (t : ThreadId) : Prop :=
  t ∈ (k.lock l).sleepqueue ∨ t ∈ k.readyList ∧ ∃ o, k.resumeOf t = some (.lockAcquire l o)

/-- The thread that returns from `P` on `s` in a step, at once or later. -/
def pReturner (s : SemId) (k : Kernel) (a : Action) : Option ThreadId :=
  if a = .semP s ∧ 0 < (k.semaphore s).value then some k.currentThread
  else if returnsInP s (returning k a) then switched k a else none

variable {k k' : Kernel} {a : Action} {loc : ThreadId → Option Place} {s : SemId} {l : LockId}
  {t : ThreadId}

theorem returnsInP_iff {r : Option Resume} : returnsInP s r = true ↔ ∃ o, r = some (.semP s o) := by
  cases r with
  | none => simp [returnsInP]
  | some r => cases r <;> simp [returnsInP]

theorem returnsInAcquire_iff {r : Option Resume} :
    returnsInAcquire l r = true ↔ ∃ o, r = some (.lockAcquire l o) := by
  cases r with
  | none => simp [returnsInAcquire]
  | some r => cases r <;> simp [returnsInAcquire]

/-- A thread that is switched to heads the ready list. -/
theorem ready_of_switched (h : switched k a = some t) : t ∈ k.readyList := by
  apply List.mem_of_mem_head?
  cases a with
  | yield => exact h
  | dispatch => exact h
  | _ => cases h

theorem switched_of_pReturner (ha : a ≠ .semP s) (h : pReturner s k a = some t) :
    switched k a = some t ∧ ∃ o, k.resumeOf t = some (.semP s o) := by
  rw [pReturner, if_neg fun hc => ha hc.1] at h
  split at h
  · rename_i hret
    refine ⟨h, ?_⟩
    rw [returning, h] at hret
    exact returnsInP_iff.mp hret
  · cases h

/-- The number of `P` calls that return is that of the threads they return to. -/
theorem pReturns_eq (s : SemId) (k : Kernel) (a : Action) :
    pReturns s k a = (pReturner s k a).toList.length := by
  unfold pReturns pReturner
  by_cases htake : a = .semP s ∧ 0 < (k.semaphore s).value
  · simp [htake]
  · by_cases hret : returnsInP s (returning k a) = true
    · cases hsw : switched k a with
      | none => simp [returning, hsw, returnsInP] at hret
      | some t => simp [htake, hret]
    · simp [htake, hret]

/-- The threads that have returned from `P` on `s`, in order. -/
def pReturners (s : SemId) (tr : History) : List ThreadId :=
  tr.filterMap fun x => pReturner s x.1 x.2

@[simp] theorem pReturners_snoc (s : SemId) (tr : History) (k : Kernel) (a : Action) :
    pReturners s (tr ++ [(k, a)]) = pReturners s tr ++ (pReturner s k a).toList := by
  cases h : pReturner s k a <;> simp [pReturners, h]

theorem pReturned_eq (s : SemId) (tr : History) : pReturned s tr = (pReturners s tr).length := by
  induction tr using List.reverseRecOn with
  | nil => rfl
  | append_singleton tr x ih =>
      obtain ⟨k, a⟩ := x
      rw [pReturned_snoc, pReturners_snoc, List.length_append, ih, pReturns_eq]

/-! ## The queue of a semaphore -/

theorem handlers_queue (k : Kernel) (vs : List SemId) (s : SemId) :
    ((k.handlers vs).semaphore s).queue = (k.semaphore s).queue.drop (vs.count s) := by
  induction vs generalizing k with
  | nil => simp [handlers]
  | cons s' vs ih =>
      show (((k.semV s').handlers vs).semaphore s).queue = _
      rw [ih, semV_eq]
      by_cases hs : s' = s
      · subst hs
        simp [setSemaphore, List.drop_drop, ← List.drop_one, Nat.add_comm]
      · simp [setSemaphore, hs, Ne.symm hs]

/-- A waiter that a handler takes off the queue is ready. -/
theorem handlers_queued (vs : List SemId) (ht : t ∈ (k.semaphore s).queue) :
    t ∈ ((k.handlers vs).semaphore s).queue ∨ t ∈ (k.handlers vs).readyList := by
  induction vs generalizing k with
  | nil => exact Or.inl ht
  | cons s' vs ih =>
      show t ∈ (((k.semV s').handlers vs).semaphore s).queue ∨
        t ∈ ((k.semV s').handlers vs).readyList
      have hnext : t ∈ ((k.semV s').semaphore s).queue ∨ t ∈ (k.semV s').readyList := by
        rw [semV_eq]
        by_cases hs : s = s'
        · subst hs
          cases hq : (k.semaphore s).queue with
          | nil => simp [hq] at ht
          | cons u rest =>
              rcases List.mem_cons.mp (hq ▸ ht) with rfl | hm
              · exact Or.inr (by simp)
              · exact Or.inl (by simpa [setSemaphore] using hm)
        · exact Or.inl (by simpa [setSemaphore, hs] using ht)
      rcases hnext with hm | hm
      · exact ih hm
      · exact Or.inr (handlers_mem_ready _ vs hm)

theorem Step.queued (hs : Step k a k') (ht : t ∈ (k.semaphore s).queue) :
    t ∈ (k'.semaphore s).queue ∨ t ∈ k'.readyList := by
  cases hs with
  | call hrun hc =>
      cases hc with
      | yieldTo hr hsw =>
          obtain ⟨r, hsw⟩ := switchTo_switched hsw
          rw [hsw.semaphore, semaphoreAfter_queue]
          exact Or.inl ht
      | @semPTake s' hv =>
          by_cases hs : s = s'
          · subst hs
            exact Or.inl (by simpa [setSemaphore] using ht)
          · exact Or.inl (by simpa [setSemaphore, hs] using ht)
      | @semPBlock s' hv =>
          by_cases hs : s = s'
          · subst hs
            exact Or.inl (by simp [asleep, saveResume, setSemaphore, ht])
          · exact Or.inl (by simpa [asleep, saveResume, setSemaphore, hs] using ht)
      | @semV s' => exact handlers_queued [s'] ht
      | _ => exact Or.inl ht
  | interrupt hrun hon => exact handlers_queued (k := k.setStatus .off) _ ht
  | idle hsleep hready => exact handlers_queued _ ht
  | dispatch hsleep hready hsw =>
      obtain ⟨r, hsw⟩ := switchTo_switched hsw
      rw [hsw.semaphore, semaphoreAfter_queue]
      exact Or.inl ht

/-- Without a `V` nobody leaves the queue. -/
theorem Step.stays_queued (hs : Step k a k') (hv : vCalls s a = 0)
    (ht : t ∈ (k.semaphore s).queue) : t ∈ (k'.semaphore s).queue := by
  cases hs with
  | call hrun hc =>
      cases hc with
      | yieldTo hr hsw =>
          obtain ⟨r, hsw⟩ := switchTo_switched hsw
          rw [hsw.semaphore, semaphoreAfter_queue]
          exact ht
      | @semPTake s' hv' =>
          by_cases hs : s = s'
          · subst hs
            simpa [setSemaphore] using ht
          · simpa [setSemaphore, hs] using ht
      | @semPBlock s' hv' =>
          by_cases hs : s = s'
          · subst hs
            simp [asleep, saveResume, setSemaphore, ht]
          · simpa [asleep, saveResume, setSemaphore, hs] using ht
      | @semV s' =>
          have hq := handlers_queue k [s'] s
          change ((k.semV s').semaphore s).queue = _ at hq
          change [s'].count s = 0 at hv
          rw [hq, hv]
          exact ht
      | _ => exact ht
  | @interrupt vs hrun hon =>
      show t ∈ (((k.setStatus .off).handlers vs).semaphore s).queue
      change vs.count s = 0 at hv
      rw [handlers_queue, hv]
      exact ht
  | @idle vs hsleep hready =>
      change vs.count s = 0 at hv
      rw [handlers_queue, hv]
      exact ht
  | dispatch hsleep hready hsw =>
      obtain ⟨r, hsw⟩ := switchTo_switched hsw
      rw [hsw.semaphore, semaphoreAfter_queue]
      exact ht

/-- A thread enters the queue only by a `P` that finds no unit. -/
theorem Step.queued_before (hs : Step k a k') (ht : t ∈ (k'.semaphore s).queue) :
    t ∈ (k.semaphore s).queue ∨
      a = .semP s ∧ (k.semaphore s).value ≤ 0 ∧ t = k.currentThread := by
  cases hs with
  | call hrun hc =>
      cases hc with
      | yieldTo hr hsw =>
          obtain ⟨r, hsw⟩ := switchTo_switched hsw
          rw [hsw.semaphore, semaphoreAfter_queue] at ht
          exact Or.inl ht
      | @semPTake s' hv =>
          by_cases hs : s = s'
          · subst hs
            exact Or.inl (by simpa [setSemaphore] using ht)
          · exact Or.inl (by simpa [setSemaphore, hs] using ht)
      | @semPBlock s' hv =>
          by_cases hs : s = s'
          · subst hs
            rcases (by simpa [asleep, saveResume, setSemaphore] using ht :
                t ∈ (k.semaphore s).queue ∨ t = k.currentThread) with hm | hm
            · exact Or.inl hm
            · exact Or.inr ⟨rfl, hv, hm⟩
          · exact Or.inl (by simpa [asleep, saveResume, setSemaphore, hs] using ht)
      | @semV s' =>
          have hq := handlers_queue k [s'] s
          change ((k.semV s').semaphore s).queue = _ at hq
          rw [hq] at ht
          exact Or.inl (List.mem_of_mem_drop ht)
      | _ => exact Or.inl ht
  | @interrupt vs hrun hon =>
      change t ∈ (((k.setStatus .off).handlers vs).semaphore s).queue at ht
      rw [handlers_queue] at ht
      exact Or.inl (List.mem_of_mem_drop ht)
  | idle hsleep hready =>
      rw [handlers_queue] at ht
      exact Or.inl (List.mem_of_mem_drop ht)
  | dispatch hsleep hready hsw =>
      obtain ⟨r, hsw⟩ := switchTo_switched hsw
      rw [hsw.semaphore, semaphoreAfter_queue] at ht
      exact Or.inl ht

/-! ## From the call of `P` to its return -/

/-- The handlers make threads ready that waited in the queue of a semaphore. -/
theorem handlers_ready_before (vs : List SemId) (ht : t ∈ (k.handlers vs).readyList) :
    t ∈ k.readyList ∨ ∃ s, t ∈ (k.semaphore s).queue := by
  induction vs generalizing k with
  | nil => exact Or.inl ht
  | cons s' vs ih =>
      have hq : ∀ s, ((k.semV s').semaphore s).queue = (k.semaphore s).queue.drop ([s'].count s) :=
        handlers_queue k [s']
      rcases ih (k := k.semV s') ht with hm | ⟨s, hm⟩
      · rw [semV_eq] at hm
        rcases List.mem_append.mp hm with hm | hm
        · exact Or.inl hm
        · exact Or.inr ⟨s', List.mem_of_mem_head? (Option.mem_toList.mp hm)⟩
      · rw [hq] at hm
        exact Or.inr ⟨s, List.mem_of_mem_drop hm⟩

/-- A thread that is ready to go on in `P` was in it before the step. -/
theorem Step.ready_in_P (hs : Step k a k') (hp : PlacedAt k loc) (hw : NoneQueued k)
    (ht : t ∈ k'.readyList) {o : IntStatus} (hr : k'.resumeOf t = some (.semP s o)) :
    (t ∈ k.readyList ∧ switched k a ≠ some t ∧ k.resumeOf t = some (.semP s o)) ∨
      t ∈ (k.semaphore s).queue := by
  have inQueue : ∀ s', t ∈ (k.semaphore s').queue → t ∈ (k.semaphore s).queue := by
    intro s' hm
    have hmem : t ∈ k.members (.semQueue s') := hm
    obtain ⟨r, hr', o', rfl⟩ := hp.resume_of_mem hmem
    have hsame := hs.resumeOf_same hp (hp.alive t _ (hp.located.loc_of_mem hmem))
      (hp.not_current hmem (by simp))
    rw [hsame, hr'] at hr
    cases hr
    exact hm
  rcases hs.readied hp hw ht with
    ⟨hm, hsw, hsame⟩ | ⟨p, -, hr'⟩ | ⟨o', -, hr'⟩ | ⟨s', o', hr'⟩ | ⟨l', rest, o', -, -, hr'⟩
  · exact Or.inl ⟨hm, hsw, hsame.symm.trans hr⟩
  · simp [hr'] at hr
  · simp [hr'] at hr
  · -- It has been woken: it was in a queue, or is ready as before.
    by_cases hm : t ∈ k.readyList
    · have hmem : t ∈ k.members .ready := hm
      have hsame := hs.resumeOf_same hp (hp.alive t .ready (hp.located.loc_of_mem hmem))
        (hp.not_current hmem (by simp))
      have hres := hsame.symm.trans hr
      by_cases hsw : switched k a = some t
      · -- A thread that is switched to is not ready afterwards.
        exfalso
        cases hs with
        | call hrun hc =>
            cases hc with
            | @yieldTo u rest _ hrd hsw' =>
                obtain ⟨r, hsw'⟩ := switchTo_switched hsw'
                obtain rfl : u = t := by simpa [switched, hrd] using hsw
                rw [hsw'.readyList] at ht
                rcases List.mem_append.mp ht with hx | hx
                · exact hp.head_not_mem hrd hx
                · obtain rfl := List.mem_singleton.mp hx
                  exact hp.current_not_ready hrun hm
            | yieldAlone hrd => simp [hrd] at hm
            | _ => simp [switched] at hsw
        | @dispatch u rest _ hsleep hrd hsw' =>
            obtain ⟨r, hsw'⟩ := switchTo_switched hsw'
            obtain rfl : u = t := by simpa [switched, hrd] using hsw
            rw [hsw'.readyList] at ht
            exact hp.head_not_mem hrd ht
        | _ => simp [switched] at hsw
      · exact Or.inl ⟨hm, hsw, hres⟩
    · right
      cases hs with
      | call hrun hc =>
          cases hc with
          | @semV s'' =>
              rcases handlers_ready_before [s''] ht with hx | ⟨s₁, hx⟩
              · exact absurd hx hm
              · exact inQueue s₁ hx
          | @yieldTo u rest _ hrd hsw =>
              obtain ⟨r, hsw⟩ := switchTo_switched hsw
              rw [hsw.readyList] at ht
              rcases List.mem_append.mp ht with hx | hx
              · exact absurd (hrd ▸ List.mem_cons_of_mem u hx) hm
              · obtain rfl := List.mem_singleton.mp hx
                obtain ⟨q, hq, -⟩ := hp.resume_of_mem (p := .cpu) (t := k.currentThread)
                  (by simp [members, hrun])
                rw [hsw.resumeOf] at hr
                change (k.saveResume k.currentThread _).resumeOf k.currentThread = _ at hr
                rw [resumeOf_saveResume, if_pos rfl, hq] at hr
                cases hr
          | @start u p th pr htd hpd hnone hid hlive =>
              rcases List.mem_append.mp ht with hx | hx
              · exact absurd hx hm
              · obtain rfl := List.mem_singleton.mp hx
                simp [resumeOf, setThread] at hr
          | @lockPass l' u rest ho hq =>
              rcases List.mem_append.mp ht with hx | hx
              · exact absurd hx hm
              · obtain rfl := List.mem_singleton.mp hx
                obtain ⟨r, hr₁, o₁, rfl⟩ := hp.resume_of_mem (p := .lockQueue l') (t := t)
                  (by simp [members, hq])
                change k.resumeOf t = _ at hr
                rw [hr₁] at hr
                cases hr
          | @condSignal c u rest hq => exact absurd (hq.symm.trans (hw c)) (by simp)
          | @condBroadcast c =>
              rw [hw c] at ht
              exact absurd (by simpa using ht) hm
          | _ => exact absurd ht hm
      | @interrupt vs hrun hon =>
          rcases handlers_ready_before (k := k.setStatus .off) vs ht with hx | ⟨s₁, hx⟩
          · exact absurd hx hm
          · exact inQueue s₁ hx
      | @idle vs hsleep hready =>
          rcases handlers_ready_before vs ht with hx | ⟨s₁, hx⟩
          · exact absurd hx hm
          · exact inQueue s₁ hx
      | @dispatch u rest _ hsleep hrd hsw =>
          obtain ⟨r, hsw⟩ := switchTo_switched hsw
          rw [hsw.readyList] at ht
          exact absurd (hrd ▸ List.mem_cons_of_mem u ht) hm
  · simp [hr'] at hr

/-- A thread is woken in `P` only by a `V`. -/
theorem Step.woken_before (hs : Step k a k') (hp : PlacedAt k loc) (hw : NoneQueued k)
    (hv : vCalls s a = 0) (ht : t ∈ k'.readyList) {o : IntStatus}
    (hr : k'.resumeOf t = some (.semP s o)) :
    t ∈ k.readyList ∧ switched k a ≠ some t ∧ k.resumeOf t = some (.semP s o) := by
  rcases hs.ready_in_P hp hw ht hr with h | hq
  · exact h
  · obtain ⟨loc', hm, -⟩ := hp.step hw hs
    have hq' : t ∈ k'.members (.semQueue s) := hs.stays_queued hv hq
    have hrd : t ∈ k'.members .ready := ht
    exact absurd (hm.placed.located.place_unique hq' hrd) (by simp)

/-- A thread that waits in the queue of an object, or is ready, does not run and
    is not switched to by the way. -/
theorem PlacedAt.pReturner_of_queue (hp : PlacedAt k loc) (hs : Step k a k') {p : Place}
    (hm : t ∈ k.members p) (hcpu : p ≠ .cpu) (hready : p ≠ .ready) :
    pReturner s k a ≠ some t := by
  intro h
  by_cases ha : a = .semP s
  · subst ha
    have hcur : k.currentThread = t := by
      unfold pReturner at h
      split at h
      · exact Option.some.inj h
      · simp [switched] at h
    cases hs with
    | call hrun hc => exact hp.not_current hm hcpu hrun hcur.symm
  · have hrd := ready_of_switched (switched_of_pReturner ha h).1
    have hmem : t ∈ k.members .ready := hrd
    exact hready (hp.located.place_unique hm hmem)

/-- From its call of `P` until it returns a thread is in `P`. -/
theorem Step.inP (hs : Step k a k') (hp : PlacedAt k loc) (hw : NoneQueued k) :
    InP s k' t ↔
      (InP s k t ∨ a = .semP s ∧ t = k.currentThread) ∧ pReturner s k a ≠ some t := by
  constructor
  · rintro (hq | ⟨hrd, o, hr⟩)
    · rcases hs.queued_before hq with hm | ⟨rfl, hv, rfl⟩
      · have hmem : t ∈ k.members (.semQueue s) := hm
        exact ⟨Or.inl (Or.inl hm), hp.pReturner_of_queue hs hmem (by simp) (by simp)⟩
      · refine ⟨Or.inr ⟨rfl, rfl⟩, ?_⟩
        have hv' : ¬ 0 < (k.semaphore s).value := Int.not_lt.mpr hv
        simp [pReturner, hv', returning, switched, returnsInP]
    · rcases hs.ready_in_P hp hw hrd hr with ⟨hm, hsw, hr'⟩ | hm
      · refine ⟨Or.inl (Or.inr ⟨hm, o, hr'⟩), fun h => ?_⟩
        -- A thread that is ready has not called `P`, and comes back only when it is switched to.
        by_cases ha : a = .semP s
        · subst ha
          have hcur : k.currentThread = t := by
            unfold pReturner at h
            split at h
            · exact Option.some.inj h
            · simp [switched] at h
          cases hs with
          | call hrun hc => exact hp.current_not_ready hrun (hcur ▸ hm)
        · exact hsw (switched_of_pReturner ha h).1
      · have hmem : t ∈ k.members (.semQueue s) := hm
        exact ⟨Or.inl (Or.inl hm), hp.pReturner_of_queue hs hmem (by simp) (by simp)⟩
  · rintro ⟨(hq | ⟨hrd, o, hr⟩) | ⟨rfl, rfl⟩, hne⟩
    · rcases hs.queued hq with hm | hm
      · exact Or.inl hm
      · have hmem : t ∈ k.members (.semQueue s) := hq
        obtain ⟨r, hr, o, rfl⟩ := hp.resume_of_mem hmem
        have hsame := hs.resumeOf_same hp (hp.alive t _ (hp.located.loc_of_mem hmem))
          (hp.not_current hmem (by simp))
        exact Or.inr ⟨hm, o, hsame.trans hr⟩
    -- It stays ready, for otherwise it would have returned.
    · have hmem : t ∈ k.members .ready := hrd
      have hsame := hs.resumeOf_same hp (hp.alive t _ (hp.located.loc_of_mem hmem))
        (hp.not_current hmem (by simp))
      refine Or.inr ⟨hs.stays_ready hrd fun hsw => hne ?_, o, hsame.trans hr⟩
      have hret : returnsInP s (returning k a) = true := by
        rw [returning, hsw]
        exact returnsInP_iff.mpr ⟨o, hr⟩
      have ha : a ≠ .semP s := by
        rintro rfl
        cases hsw
      rw [pReturner, if_neg fun hc => ha hc.1, if_pos hret, hsw]
    · -- It has called `P` and found no unit.
      cases hs with
      | call hrun hc =>
          cases hc with
          | semPTake hv => exact absurd (by simp [pReturner, hv]) hne
          | semPBlock hv => exact Or.inl (by simp [asleep, saveResume, setSemaphore])

/-! ## From the call of `Acquire` to its return -/

theorem acquires_of_ne (ha : a ≠ .lockAcquire l) (h : acquires l k a = some t) :
    switched k a = some t ∧ ∃ o, k.resumeOf t = some (.lockAcquire l o) := by
  rw [acquires, if_neg fun hc => ha hc.1, resumedIn] at h
  split at h
  · rename_i hret
    refine ⟨h, ?_⟩
    rw [returning, h] at hret
    exact returnsInAcquire_iff.mp hret
  · cases h

theorem acquires_call (h : acquires l k (.lockAcquire l) = some t) :
    (k.lock l).free = true ∧ k.currentThread = t := by
  unfold acquires at h
  split at h
  · rename_i hc
    exact ⟨hc.2, Option.some.inj h⟩
  · simp [resumedIn, switched] at h

/-- A sleeper stays in the queue of the lock, or is ready. -/
theorem Step.lock_queued (hs : Step k a k') (ht : t ∈ (k.lock l).sleepqueue) :
    t ∈ (k'.lock l).sleepqueue ∨ t ∈ k'.readyList := by
  by_cases hq : (k'.lock l).sleepqueue = (k.lock l).sleepqueue
  · exact Or.inl (hq ▸ ht)
  · cases hs with
    | call hrun hc =>
        cases hc with
        | yieldTo hr hsw =>
            obtain ⟨r, hsw⟩ := switchTo_switched hsw
            exact absurd (by rw [hsw.lock]; rfl) hq
        | semV => exact absurd (by rw [semV_eq]; rfl) hq
        | @lockTake l' hf =>
            by_cases hl : l = l'
            · subst hl
              exact absurd (by simp [setLock]) hq
            · exact absurd (by simp [setLock, hl]) hq
        | @lockBlock l' hf =>
            by_cases hl : l = l'
            · subst hl
              exact Or.inl (by simp [asleep, saveResume, setLock, ht])
            · exact absurd (by simp [asleep, saveResume, setLock, hl]) hq
        | @lockFree l' ho he =>
            by_cases hl : l = l'
            · subst hl
              simp [he] at ht
            · exact absurd (by simp [setLock, hl]) hq
        | @lockPass l' u rest ho he =>
            by_cases hl : l = l'
            · subst hl
              rw [he] at ht
              rcases List.mem_cons.mp ht with rfl | hm
              · exact Or.inr (by simp [readyToRun])
              · exact Or.inl (by simpa [readyToRun, setLock] using hm)
            · exact absurd (by simp [readyToRun, setLock, hl]) hq
        | _ => exact absurd rfl hq
    | interrupt hrun hon =>
        exact absurd (by
          show (((k.setStatus .off).handlers _).lock l).sleepqueue = _
          rw [(handlers_onlyWakes (k.setStatus .off) _).lock]
          rfl) hq
    | idle hsleep hready => exact absurd (by rw [(handlers_onlyWakes k _).lock]) hq
    | dispatch hsleep hready hsw =>
        obtain ⟨r, hsw⟩ := switchTo_switched hsw
        exact absurd (by rw [hsw.lock]) hq

/-- A thread enters the queue only by an `Acquire` that finds the lock taken. -/
theorem Step.lock_queued_before (hs : Step k a k') (ht : t ∈ (k'.lock l).sleepqueue) :
    t ∈ (k.lock l).sleepqueue ∨
      a = .lockAcquire l ∧ (k.lock l).free = false ∧ t = k.currentThread := by
  by_cases hret : returnsInAcquire l (returning k a) = true
  · have hl : k'.lock = k.lock := by
      cases hs with
      | call hrun hc =>
          cases hc with
          | yieldTo hr hsw =>
              obtain ⟨r, hsw⟩ := switchTo_switched hsw
              exact hsw.lock
          | yieldAlone hr => rfl
          | _ => simp [returning, switched, returnsInAcquire] at hret
      | dispatch hsleep hready hsw =>
          obtain ⟨r, hsw⟩ := switchTo_switched hsw
          exact hsw.lock
      | _ => simp [returning, switched, returnsInAcquire] at hret
    exact Or.inl (hl ▸ ht)
  · by_cases hacq : a = .lockAcquire l
    · subst hacq
      cases hs with
      | call hrun hc =>
          cases hc with
          | lockTake hf => exact Or.inl (by simpa [setLock] using ht)
          | lockBlock hf =>
              rcases (by simpa [asleep, saveResume, setLock] using ht :
                  t ∈ (k.lock l).sleepqueue ∨ t = k.currentThread) with hm | hm
              · exact Or.inl hm
              · exact Or.inr ⟨rfl, hf, hm⟩
    · by_cases hrel : a = .lockRelease l
      · subst hrel
        cases hs with
        | call hrun hc =>
            cases hc with
            | lockFree ho he => simp [setLock] at ht
            | lockPass ho he =>
                rw [he]
                exact Or.inl (List.mem_cons_of_mem _ (by simpa [readyToRun, setLock] using ht))
      · rw [hs.lock_apart ⟨hacq, hrel, by simpa using hret⟩] at ht
        exact Or.inl ht

/-- From its call of `Acquire` until it returns a thread is in `Acquire`. -/
theorem Step.inAcquire (hs : Step k a k') (hp : PlacedAt k loc) (hw : NoneQueued k) :
    InAcquire l k' t ↔
      (InAcquire l k t ∨ a = .lockAcquire l ∧ t = k.currentThread) ∧ acquires l k a ≠ some t := by
  have hother : ∀ {p : Place}, t ∈ k.members p → p ≠ .cpu → p ≠ .ready →
      acquires l k a ≠ some t := by
    intro p hm hcpu hready h
    by_cases ha : a = .lockAcquire l
    · subst ha
      cases hs with
      | call hrun hc => exact hp.not_current hm hcpu hrun (acquires_call h).2.symm
    · have hmem : t ∈ k.members .ready := ready_of_switched (acquires_of_ne ha h).1
      exact hready (hp.located.place_unique hm hmem)
  constructor
  · rintro (hq | ⟨hrd, o, hr⟩)
    · rcases hs.lock_queued_before hq with hm | ⟨rfl, hf, rfl⟩
      · exact ⟨Or.inl (Or.inl hm), hother (p := .lockQueue l) hm (by simp) (by simp)⟩
      · refine ⟨Or.inr ⟨rfl, rfl⟩, fun h => ?_⟩
        have hfree := (acquires_call h).1
        rw [hf] at hfree
        cases hfree
    · rcases hs.ready_acquiring hp hw hrd hr with ⟨hm, hsw, hr'⟩ | ⟨-, rest, hq⟩
      · refine ⟨Or.inl (Or.inr ⟨hm, o, hr'⟩), fun h => ?_⟩
        by_cases ha : a = .lockAcquire l
        · subst ha
          cases hs with
          | call hrun hc => exact hp.current_not_ready hrun ((acquires_call h).2 ▸ hm)
        · exact hsw (acquires_of_ne ha h).1
      · have hm : t ∈ (k.lock l).sleepqueue := by simp [hq]
        exact ⟨Or.inl (Or.inl hm), hother (p := .lockQueue l) hm (by simp) (by simp)⟩
  · rintro ⟨(hq | ⟨hrd, o, hr⟩) | ⟨rfl, rfl⟩, hne⟩
    · have hmem : t ∈ k.members (.lockQueue l) := hq
      obtain ⟨r, hr, o, rfl⟩ := hp.resume_of_mem hmem
      have hsame := hs.resumeOf_same hp (hp.alive t _ (hp.located.loc_of_mem hmem))
        (hp.not_current hmem (by simp))
      rcases hs.lock_queued hq with hm | hm
      · exact Or.inl hm
      · exact Or.inr ⟨hm, o, hsame.trans hr⟩
    · have hmem : t ∈ k.members .ready := hrd
      have hsame := hs.resumeOf_same hp (hp.alive t _ (hp.located.loc_of_mem hmem))
        (hp.not_current hmem (by simp))
      refine Or.inr ⟨hs.stays_ready hrd fun hsw => hne ?_, o, hsame.trans hr⟩
      have hret : returnsInAcquire l (returning k a) = true := by
        rw [returning, hsw]
        exact returnsInAcquire_iff.mpr ⟨o, hr⟩
      have ha : a ≠ .lockAcquire l := by
        rintro rfl
        cases hsw
      rw [acquires, if_neg fun hc => ha hc.1, resumedIn, if_pos hret, hsw]
    · cases hs with
      | call hrun hc =>
          cases hc with
          | lockTake hf => exact absurd (by simp [acquires, hf]) hne
          | lockBlock hf => exact Or.inl (by simp [asleep, saveResume, setLock])

/-- The running thread is in no operation. -/
theorem PlacedAt.current_not_in (hp : PlacedAt k loc) (hrun : k.sleeping = false) :
    ¬ InP s k k.currentThread ∧ ¬ InAcquire l k k.currentThread := by
  constructor
  · rintro (hm | ⟨hm, -⟩)
    · exact hp.not_current (p := .semQueue s) hm (by simp) hrun rfl
    · exact hp.current_not_ready hrun hm
  · rintro (hm | ⟨hm, -⟩)
    · exact hp.not_current (p := .lockQueue l) hm (by simp) hrun rfl
    · exact hp.current_not_ready hrun hm

end Kernel
end Nachos
