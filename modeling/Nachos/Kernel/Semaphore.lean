/-
  Nachos.Kernel.Semaphore

  Counting on one semaphore.  In every run the value is the initial value plus
  the `V` calls minus the `P` calls that have returned.  `P` tests the value with
  `if (value <= 0)` before it sleeps and not again when it goes on, so a thread
  that comes back in `P` takes one off whatever the value is then.
-/

import Mathlib.Algebra.GroupWithZero.Nat
import Nachos.Kernel.Schedule

namespace Nachos
namespace Kernel

open Transition

/-- The number of `V` calls on `s` in a step. -/
def vCalls (s : SemId) : Action → Nat
  | .semV s' => [s'].count s
  | .interrupt vs => vs.count s
  | .idle vs => vs.count s
  | _ => 0

/-- `P` on `s` returns to a thread that was asleep in it. -/
def returnsInP (s : SemId) : Option Resume → Bool
  | some (.semP s' _) => s' == s
  | _ => false

/-- The number of `P` calls on `s` that return in a step: at once, since the
    value is positive, or later, in the thread switched to. -/
def pReturns (s : SemId) (k : Kernel) (a : Action) : Nat :=
  if a = .semP s ∧ 0 < (k.semaphore s).value ∨ returnsInP s (returning k a) then 1 else 0

/-- The `P` calls on `s` that have returned. -/
def pReturned (s : SemId) (tr : History) : Nat := (tr.map fun x => pReturns s x.1 x.2).sum

/-- The `V` calls made on `s`. -/
def vMade (s : SemId) (tr : History) : Nat := (tr.map fun x => vCalls s x.2).sum

@[simp] theorem pReturned_snoc (s : SemId) (tr : History) (k : Kernel) (a : Action) :
    pReturned s (tr ++ [(k, a)]) = pReturned s tr + pReturns s k a := by
  simp [pReturned]

@[simp] theorem vMade_snoc (s : SemId) (tr : History) (k : Kernel) (a : Action) :
    vMade s (tr ++ [(k, a)]) = vMade s tr + vCalls s a := by
  simp [vMade]

/-! ## The value after a step -/

theorem semV_value (k : Kernel) (s s' : SemId) :
    ((k.semV s').semaphore s).value = (k.semaphore s).value + [s'].count s := by
  rw [semV_eq]
  by_cases hs : s = s'
  · subst hs
    simp [setSemaphore]
  · simp [setSemaphore, hs, Ne.symm hs]

theorem handlers_value (k : Kernel) (vs : List SemId) (s : SemId) :
    ((k.handlers vs).semaphore s).value = (k.semaphore s).value + vs.count s := by
  induction vs generalizing k with
  | nil => simp [handlers]
  | cons s' vs ih =>
      have h := ih (k.semV s')
      rw [semV_value] at h
      have hc : (s' :: vs).count s = [s'].count s + vs.count s := by
        rw [← List.count_append, List.singleton_append]
      show (((k.semV s').handlers vs).semaphore s).value = _
      rw [h, hc]
      push_cast
      omega

theorem Switched.value {k k' : Kernel} {t : ThreadId} {r : Resume} (h : Switched k t r k')
    (s : SemId) :
    (k'.semaphore s).value =
      (k.semaphore s).value - (if returnsInP s (some r) then 1 else 0 : Nat) := by
  rw [h.semaphore]
  cases r with
  | semP s' o =>
      by_cases hs : s' = s
      · subst hs
        simp [semaphoreAfter, returnsInP]
      · simp [semaphoreAfter, returnsInP, hs, Ne.symm hs]
  | _ => simp [semaphoreAfter, returnsInP]

/-- A step changes the value by its `V` calls and its returns from `P`. -/
theorem Step.value {k k' : Kernel} {a : Action} (hs : Step k a k')
    (hcur : k.sleeping = false → k.currentThread ∉ k.readyList) (s : SemId) :
    (k'.semaphore s).value = (k.semaphore s).value + vCalls s a - pReturns s k a := by
  cases hs with
  | call hrun hc =>
      cases hc with
      | @yieldTo t rest _ hr hsw =>
          obtain ⟨r, hsw⟩ := switchTo_switched hsw
          have hne : t ≠ k.currentThread := by
            intro he
            exact hcur hrun (by rw [hr, he]; exact List.mem_cons_self)
          -- The thread that goes on does so where it stopped, in `P` or elsewhere.
          have hres : k.resumeOf t = some r := by
            have h := hsw.resume
            change (k.saveResume k.currentThread _).resumeOf t = some r at h
            rwa [resumeOf_saveResume, if_neg hne] at h
          have hv := hsw.value s
          simp only [pReturns, vCalls, returning, switched, hr, List.head?_cons,
            Option.bind_some, hres, reduceCtorEq, false_and, false_or]
          rw [hv]
          simp [saveResume]
      | yieldAlone hr => simp [pReturns, vCalls, returning, switched, hr, returnsInP]
      | @semPTake s' hv =>
          by_cases hs : s' = s
          · subst hs
            simp [setSemaphore, pReturns, vCalls, hv]
          · simp [setSemaphore, pReturns, vCalls, returning, switched, returnsInP, hs, Ne.symm hs]
      | @semPBlock s' hv =>
          by_cases hs : s' = s
          · subst hs
            have hv' : ¬ 0 < (k.semaphore s').value := by omega
            simp [asleep, saveResume, setSemaphore, pReturns, vCalls, returning, switched,
              returnsInP, hv']
          · simp [asleep, saveResume, setSemaphore, pReturns, vCalls, returning, switched,
              returnsInP, hs, Ne.symm hs]
      | @semV s' =>
          rw [semV_value]
          simp [pReturns, vCalls, returning, switched, returnsInP]
      | _ =>
          simp [pReturns, vCalls, returning, switched, returnsInP, setThread, setProcess,
            setStatus, setLock, setCondition, asleep, saveResume, readyToRun]
  | interrupt hrun hon =>
      show (((k.setStatus .off).handlers _).semaphore s).value = _
      rw [handlers_value]
      simp [pReturns, vCalls, returning, switched, returnsInP, setStatus]
  | idle hsleep hready =>
      rw [handlers_value]
      simp [pReturns, vCalls, returning, switched, returnsInP]
  | @dispatch t rest _ hsleep hr hsw =>
      obtain ⟨r, hsw⟩ := switchTo_switched hsw
      have hres : k.resumeOf t = some r := hsw.resume
      rw [hsw.value s]
      simp [pReturns, vCalls, returning, switched, hr, hres]

/-- In every run the value is the initial value plus the `V` calls minus the `P`
    calls that have returned. -/
theorem value_of_run {initialValue : SemId → Int} {tr : History} {k : Kernel}
    (hr : Run Kernel.step (Kernel.initialized initialValue) tr k) (s : SemId) :
    (k.semaphore s).value = initialValue s + vMade s tr - pReturned s tr := by
  induction hr with
  | nil => simp [Kernel.initialized, vMade, pReturned]
  | @snoc tr k k' a hr hs ih =>
      obtain ⟨loc, hp, -⟩ := (scheduled_of_run hr).placed
      have hv := (step_cases hs).value (fun hrun => hp.current_not_ready hrun) s
      rw [hv, ih, vMade_snoc, pReturned_snoc]
      push_cast
      omega

/-! ## The law of the semaphore -/

/-- No more `P` calls have returned than the initial value and the `V` calls
    allow, and the value is not negative. -/
def SemaphoreLaw (n : Int) (s : SemId) (tr : History) (k : Kernel) : Prop :=
  (pReturned s tr : Int) ≤ n + vMade s tr ∧ 0 ≤ (k.semaphore s).value

/-- A thread that comes back in `P` on `s` finds a positive value. -/
def FindsUnit (s : SemId) (k : Kernel) (a : Action) : Prop :=
  returnsInP s (returning k a) = true → 0 < (k.semaphore s).value

/-- The two halves of the law are one in a run. -/
theorem semaphoreLaw_iff {initialValue : SemId → Int} {tr : History} {k : Kernel}
    (hr : Run Kernel.step (Kernel.initialized initialValue) tr k) (s : SemId) :
    SemaphoreLaw (initialValue s) s tr k ↔ 0 ≤ (k.semaphore s).value := by
  have hv := value_of_run hr s
  unfold SemaphoreLaw
  omega

/-- A switch makes no `V` call. -/
theorem vCalls_of_returnsInP {s : SemId} {k : Kernel} {a : Action}
    (h : returnsInP s (returning k a) = true) : vCalls s a = 0 := by
  cases a <;> simp_all [returning, switched, returnsInP, vCalls]

/-- From a value that is not negative a step leads to one that is not negative
    exactly when a thread that comes back in `P` finds a unit. -/
theorem Step.value_nonneg_iff {k k' : Kernel} {a : Action} (hs : Step k a k')
    (hcur : k.sleeping = false → k.currentThread ∉ k.readyList) (s : SemId)
    (h : 0 ≤ (k.semaphore s).value) : 0 ≤ (k'.semaphore s).value ↔ FindsUnit s k a := by
  have hv := hs.value hcur s
  unfold FindsUnit
  by_cases hret : returnsInP s (returning k a) = true
  · have hzero := vCalls_of_returnsInP hret
    have hone : pReturns s k a = 1 := by simp [pReturns, hret]
    simp only [hret, true_implies]
    omega
  · have hunit : pReturns s k a = 0 ∨ 0 < (k.semaphore s).value := by
      simp only [pReturns, hret, Bool.false_eq_true, or_false]
      split
      · rename_i hp
        exact Or.inr hp.2
      · exact Or.inl rfl
    have hle : pReturns s k a ≤ 1 := by
      unfold pReturns
      split <;> omega
    simp only [hret, Bool.false_eq_true, false_implies, iff_true]
    omega

/-- With initial value 0: thread 1 blocks in `P`; the main thread calls `V`, takes
    the unit in a `P` of its own and yields; thread 1 comes back in `P`. -/
def overtaken : List Action :=
  [.newThread 1, .start 1 0, .yield, .semP 0, .dispatch, .semV 0, .semP 0, .yield]

theorem overtaken_run :
    ∃ tr k, Run Kernel.step (Kernel.initialized fun _ => 0) tr k ∧
      pReturned 0 tr = 2 ∧ vMade 0 tr = 1 ∧ (k.semaphore 0).value = -1 := by
  obtain ⟨⟨tr, k⟩, he, hx⟩ := Option.map_eq_some_iff.mp
    (show (exec Kernel.step (Kernel.initialized fun _ => 0) overtaken).map
        (fun x => (pReturned 0 x.1, vMade 0 x.1, (x.2.semaphore 0).value)) =
      some (2, 1, -1) by decide)
  simp only [Prod.mk.injEq] at hx
  exact ⟨tr, k, run_of_exec he, hx.1, hx.2.1, hx.2.2⟩

end Kernel
end Nachos
