/-
  Nachos.Kernel.Condition

  Waiting on one condition over all schedules.  `Wait` puts the calling thread to
  sleep and puts it in no queue: `Signal` and `Broadcast` read an empty
  `waitqueue`, and a thread that has called `Wait` never runs again.
-/

import Mathlib.Data.List.Dedup
import Nachos.Kernel.Schedule

namespace Nachos
namespace Kernel

open Transition

/-- The calls of `Wait` on `c`, by the calling thread. -/
def waitCalls (c : CondId) (tr : History) : List ThreadId :=
  tr.filterMap fun x => if x.2 = .condWait c then some x.1.currentThread else none

/-- Thread `t` is asleep in `Wait` on `c`: neither running nor ready, and to go on
    in `Wait`. -/
def blockedInWait (c : CondId) (k : Kernel) (t : ThreadId) : Bool :=
  !(k.readyList.contains t) && (k.sleeping || k.currentThread != t) &&
    match k.resumeOf t with
    | some (.condWait c' _) => c' == c
    | _ => false

/-- The threads blocked in `Wait`, the one that has waited longest first. -/
def waiting (c : CondId) (tr : History) (k : Kernel) : List ThreadId :=
  (waitCalls c tr).dedup.filter (blockedInWait c k)

/-- What a condition promises in a state: the blocked threads are in the queue,
    once each, `Signal` makes the longest-waiting one ready, `Broadcast` all of
    them in waiting order, and both do nothing when nobody is blocked. -/
structure ConditionLaw (c : CondId) (tr : History) (k : Kernel) : Prop where
  queued : ∀ t ∈ waiting c tr k, (k.condition c).waitqueue.count t = 1
  signal : ∀ t rest, waiting c tr k = t :: rest →
    (k.condSignal c).readyList = k.readyList ++ [t]
  broadcast : waiting c tr k ≠ [] →
    (k.condBroadcast c).readyList = k.readyList ++ waiting c tr k
  nobody : waiting c tr k = [] → k.condSignal c = k ∧ k.condBroadcast c = k

/-- The invariant of runs: who has called `Wait` is nowhere, to go on in `Wait`. -/
structure WaitInv (tr : History) (k : Kernel) : Prop where
  noneQueued : NoneQueued k
  placed : ∃ loc, PlacedAt k loc ∧ ∀ c, ∀ t ∈ waitCalls c tr,
    t ∈ k.alive ∧ loc t = none ∧ ∃ o, k.resumeOf t = some (.condWait c o)

theorem waitCalls_snoc (c : CondId) (tr : History) (k : Kernel) (a : Action) :
    waitCalls c (tr ++ [(k, a)]) =
      waitCalls c tr ++ if a = .condWait c then [k.currentThread] else [] := by
  by_cases ha : a = .condWait c <;> simp [waitCalls, ha]

/-- A thread that calls `Wait` is nowhere after it. -/
theorem PlacedAt.wait_nowhere {k : Kernel} {loc loc' : ThreadId → Option Place} {r : Resume}
    (h : PlacedAt k loc) (hrun : k.sleeping = false) (h' : PlacedAt (k.asleep r) loc') :
    loc' k.currentThread = none := by
  cases hl : loc' k.currentThread with
  | none => rfl
  | some p =>
      have hmem := h'.located.mem_of_loc hl
      rw [members_asleep] at hmem
      by_cases hp : p = .cpu
      · simp [hp] at hmem
      · rw [Function.update_of_ne hp] at hmem
        exact absurd rfl (h.not_current hmem hp hrun)

theorem WaitInv.step {tr : History} {k k' : Kernel} {a : Action} (h : WaitInv tr k)
    (hs : Step k a k') : WaitInv (tr ++ [(k, a)]) k' := by
  obtain ⟨loc, hp, hwait⟩ := h.placed
  obtain ⟨loc', hm, -⟩ := hp.step h.noneQueued hs
  refine ⟨h.noneQueued.step hs, loc', hm.placed, fun c t ht => ?_⟩
  rw [waitCalls_snoc] at ht
  rcases List.mem_append.mp ht with ht | ht
  · -- An earlier caller stays where it is: nowhere.
    obtain ⟨ha, hn, o, hr⟩ := hwait c t ht
    obtain ⟨ha', hn', hr'⟩ := hm.lost t ha hn
    exact ⟨ha', hn', o, hr'.trans hr⟩
  · by_cases hc : a = .condWait c
    · subst hc
      rw [if_pos rfl, List.mem_singleton] at ht
      subst ht
      cases hs with
      | call hrun hcall =>
          cases hcall with
          | condWait =>
              obtain ⟨r, hr, -⟩ := hp.resume_of_mem (p := .cpu) (t := k.currentThread)
                (by simp [members, hrun])
              refine ⟨hp.current_alive hrun, hp.wait_nowhere hrun hm.placed, k.level, ?_⟩
              show (k.saveResume k.currentThread _).resumeOf k.currentThread = _
              rw [resumeOf_saveResume, if_pos rfl, hr]
              rfl
    · simp [hc] at ht

theorem waitInv_of_run {initialValue : SemId → Int} {tr : History} {k : Kernel}
    (hr : Run Kernel.step (Kernel.initialized initialValue) tr k) : WaitInv tr k := by
  induction hr with
  | nil =>
      refine ⟨fun _ => rfl, _, initialized_placedAt initialValue, fun c t ht => ?_⟩
      simp [waitCalls] at ht
  | snoc _ hs ih => exact ih.step (step_cases hs)

/-- Every thread that has called `Wait` is blocked in it. -/
theorem WaitInv.blocked {tr : History} {k : Kernel} (h : WaitInv tr k) {c : CondId}
    {t : ThreadId} (ht : t ∈ waitCalls c tr) : blockedInWait c k t = true := by
  obtain ⟨loc, hp, hwait⟩ := h.placed
  obtain ⟨-, hn, o, hr⟩ := hwait c t ht
  have hready : t ∉ k.readyList := by
    intro hm
    have := hp.located.loc_of_mem (p := .ready) hm
    simp [hn] at this
  have hcur : k.sleeping = true ∨ k.currentThread ≠ t := by
    cases hrun : k.sleeping with
    | true => exact Or.inl rfl
    | false =>
        refine Or.inr fun he => ?_
        have := hp.loc_current hrun
        rw [he, hn] at this
        cases this
  simpa [blockedInWait, hready, hr] using hcur

/-- `Signal` and `Broadcast` do nothing at all: no thread is ever queued. -/
theorem NoneQueued.wake_nothing {k : Kernel} (h : NoneQueued k) (c : CondId) :
    k.condSignal c = k ∧ k.condBroadcast c = k := by
  rw [condSignal_eq, condBroadcast_eq, h c]
  refine ⟨rfl, ?_⟩
  have hc : k.setCondition c ⟨[]⟩ = k := by
    have hself : Function.update k.condition c ⟨[]⟩ = k.condition := by
      rw [Function.update_eq_self_iff]
      have hq := h c
      cases hx : k.condition c with
      | mk q =>
          rw [hx] at hq
          subst hq
          rfl
    unfold setCondition
    rw [hself]
  rw [hc, List.append_nil]

/-- A condition keeps its promise in a state of a run exactly when `Wait` has not
    been called on it so far. -/
theorem condition_law_iff_no_wait (initialValue : SemId → Int) (c : CondId) (tr : History)
    (k : Kernel) (hr : Run Kernel.step (Kernel.initialized initialValue) tr k) :
    ConditionLaw c tr k ↔ ∀ x ∈ tr, x.2 ≠ .condWait c := by
  have hinv := waitInv_of_run hr
  constructor
  · intro hlaw x hx hc
    have hcall : x.1.currentThread ∈ waitCalls c tr :=
      List.mem_filterMap.mpr ⟨x, hx, by simp [hc]⟩
    have hmem : x.1.currentThread ∈ waiting c tr k :=
      List.mem_filter.mpr ⟨List.mem_dedup.mpr hcall, hinv.blocked hcall⟩
    have hq := hlaw.queued _ hmem
    rw [hinv.noneQueued c] at hq
    simp at hq
  · intro hno
    have hcalls : waitCalls c tr = [] := by
      apply List.filterMap_eq_nil_iff.mpr
      intro x hx
      rw [if_neg (hno x hx)]
    have hnil : waiting c tr k = [] := by simp [waiting, hcalls]
    refine ⟨?_, ?_, fun h => absurd hnil h, fun _ => hinv.noneQueued.wake_nothing c⟩
    · intro t ht
      simp [hnil] at ht
    · intro t rest ht
      simp [hnil] at ht

/-- Thread 1 calls `Wait`, then the main thread calls `Signal`. -/
theorem condition_law_fails :
    ¬ ∀ (initialValue : SemId → Int) (c : CondId) (tr : History) (k : Kernel),
      Run Kernel.step (Kernel.initialized initialValue) tr k → ConditionLaw c tr k := by
  intro h
  obtain ⟨⟨tr, k⟩, he, hx⟩ := Option.map_eq_some_iff.mp
    (show (exec Kernel.step (Kernel.initialized fun _ => 0)
        [.newThread 1, .start 1 0, .yield, .condWait 0, .dispatch]).map
          (fun x => (waiting 0 x.1 x.2, x.2.readyList, (x.2.condSignal 0).readyList)) =
        some ([1], [], []) by decide)
  simp only [Prod.mk.injEq] at hx
  have hsig := (h _ 0 tr k (run_of_exec he)).signal 1 [] hx.1
  rw [hx.2.1, hx.2.2] at hsig
  cases hsig

theorem condition_law_iff_no_wait_blocked :
    ∃ tr k, Run Kernel.step (Kernel.initialized fun _ => 0) tr k ∧ waiting 0 tr k = [1] ∧
      (ConditionLaw 0 tr k ↔ ∀ x ∈ tr, x.2 ≠ .condWait 0) := by
  obtain ⟨⟨tr, k⟩, he, hx⟩ := Option.map_eq_some_iff.mp
    (show (exec Kernel.step (Kernel.initialized fun _ => 0)
        [.newThread 1, .start 1 0, .yield, .condWait 0]).map (fun x => waiting 0 x.1 x.2) =
        some [1] by decide)
  exact ⟨tr, k, run_of_exec he, hx, condition_law_iff_no_wait _ 0 tr k (run_of_exec he)⟩

end Kernel
end Nachos
