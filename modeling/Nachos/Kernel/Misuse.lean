/-
  Nachos.Kernel.Misuse

  System calls that break the rules of their object.  The handlers of
  `kernel/exception.cc` look at the type of the object only, and leave the rest to
  the `ASSERT`s of `kernel/synch.cc`: a program that releases a lock it does not
  hold, or destroys a semaphore or a lock with waiting threads, stops the machine.
  A condition with waiting threads is destroyed without a complaint, because
  `Condition::Wait` never enters them in the queue the destructor looks at; and a
  thread that was woken before its semaphore was destroyed counts down in freed
  memory.
-/

import Nachos.Kernel.StaleIds

namespace Nachos
namespace System

open Kernel Transition

/-- The thread is blocked in `Wait` of the condition. -/
def WaitsFor (s : System) (t : ThreadId) (c : CondId) : Prop :=
  t ≠ s.kernel.currentThread ∧ t ∉ s.kernel.readyList ∧
    ∃ o, s.kernel.resumeOf t = some (.condWait c o)

/-- The call breaks the protocol of the object it finds. -/
def Violates (s : System) : Request → Prop
  | .call (.lockRelease id) => ∃ n, s.search id = some (.lock n) ∧
      (s.kernel.lock n).owner ≠ some s.kernel.currentThread
  | .call (.semDestroy id) => ∃ n, s.search id = some (.semaphore n) ∧
      (s.kernel.semaphore n).queue ≠ []
  | .call (.lockDestroy id) => ∃ n, s.search id = some (.lock n) ∧
      (s.kernel.lock n).sleepqueue ≠ []
  | .call (.condDestroy id) => ∃ n, s.search id = some (.condition n) ∧ ∃ t, s.WaitsFor t n
  | _ => False

/-- The step resumes a thread in `P` of a semaphore that has been deleted. -/
def GoesOnFreed (s : System) (r : Request) : Prop :=
  ∃ x, s.switching r = some x ∧ s.resumesFreed x = true

/-- The identifier a call on a synchronization object is given, and the objects it
    accepts. -/
def target : SystemCall → Option (Int × (Object → Bool))
  | .semP id | .semV id | .semDestroy id => some (id, fun o => o matches .semaphore _)
  | .lockAcquire id | .lockRelease id | .lockDestroy id => some (id, fun o => o matches .lock _)
  | .condWait id | .condSignal id | .condBroadcast id | .condDestroy id =>
      some (id, fun o => o matches .condition _)
  | _ => none

/-- What is promised of a step. -/
structure Obeys (s : System) (r : Request) (s' : System) : Prop where
  /-- No `ASSERT` fails. -/
  noFailure : s'.failed = none
  /-- A call that breaks the protocol returns -1 and changes nothing. -/
  refused : s.Violates r → s' = s.answer (-1)
  /-- So does a call whose identifier stands for no object of the right type. -/
  unknown : ∀ c id accepts, r = .call c → target c = some (id, accepts) →
    (∀ o, s.search id = some o → accepts o = false) → s' = s.answer (-1)

/-- The last step of a history, up to the state it leads to, is as promised. -/
def LastObeys (tr : List (System × Request)) (s' : System) : Prop :=
  ∀ s r, tr.getLast? = some (s, r) → Obeys s r s'

variable {s s' : System} {o : Object} {a : Addr} {id : Int} {x : Action} {r : Request}

/-! ## Nobody is in the queue of a condition -/

theorem act_noneQueued (h : NoneQueued s.kernel) (ha : s.act x = some s') :
    NoneQueued s'.kernel := by
  obtain ⟨k, hk, rfl⟩ := Option.map_eq_some_iff.mp ha
  exact h.step (step_cases hk)

theorem create_kernel (hc : s.create a o = some s') : s'.kernel = s.kernel := by
  obtain ⟨s₁, hb, rfl⟩ := Option.map_eq_some_iff.mp hc
  obtain ⟨-, rfl⟩ := build_cases hb
  rfl

theorem applyTo_noneQueued {operation : Object → Option Action} (h : NoneQueued s.kernel)
    (hc : s.applyTo id operation = some s') : NoneQueued s'.kernel := by
  unfold applyTo at hc
  split at hc
  · exact act_noneQueued (s := s.answer 0) h hc
  · obtain rfl := Option.some.inj hc
    exact h

theorem destroy_kernel {queue : Object → Option (List ThreadId)} {f : Failure} :
    (s.destroy id queue f).kernel = s.kernel := by
  unfold destroy
  split
  · rfl
  · split <;> rfl

theorem startThread_noneQueued {p : ProcessId} (h : NoneQueued s.kernel)
    (hc : s.startThread p a = some s') : NoneQueued s'.kernel := by
  obtain ⟨s₁, hb, hrest⟩ := Option.bind_eq_some_iff.mp hc
  obtain ⟨s₂, hnew, hstart⟩ := Option.bind_eq_some_iff.mp hrest
  have h₁ : NoneQueued s₁.kernel := by
    obtain ⟨-, rfl⟩ := build_cases hb
    exact h
  have h₂ := act_noneQueued h₁ hnew
  exact act_noneQueued (s := s₂.register a _) h₂ hstart

theorem systemCall_noneQueued {c : SystemCall} (h : NoneQueued s.kernel)
    (hc : s.systemCall c = some s') : NoneQueued s'.kernel := by
  cases c with
  | semCreate v a =>
      simp only [systemCall, semCreate] at hc
      split at hc
      · rw [create_kernel hc]
        exact h
      · cases hc
  | lockCreate a =>
      simp only [systemCall, lockCreate] at hc
      split at hc
      · rw [create_kernel hc]
        exact h
      · cases hc
  | condCreate a =>
      simp only [systemCall, condCreate] at hc
      split at hc
      · rw [create_kernel hc]
        intro c
        -- The new condition has nobody in its queue.
        show (Function.update s.kernel.condition s.numObjects ⟨[]⟩ c).waitqueue = []
        by_cases hcn : c = s.numObjects
        · rw [hcn, Function.update_self]
        · rw [Function.update_of_ne hcn]
          exact h c
      · cases hc
  | openFile a =>
      rw [create_kernel hc]
      exact h
  | exec a =>
      obtain ⟨s₁, hnew, hc⟩ := Option.bind_eq_some_iff.mp hc
      exact startThread_noneQueued (act_noneQueued h hnew) hc
  | newThread a =>
      obtain ⟨p, -, hc⟩ := Option.bind_eq_some_iff.mp hc
      exact startThread_noneQueued h hc
  | semDestroy id =>
      obtain rfl := Option.some.inj hc
      exact destroy_kernel (s := s) ▸ h
  | lockDestroy id =>
      obtain rfl := Option.some.inj hc
      exact destroy_kernel (s := s) ▸ h
  | condDestroy id =>
      obtain rfl := Option.some.inj hc
      exact destroy_kernel (s := s) ▸ h
  | lockRelease id =>
      simp only [systemCall, lockRelease] at hc
      split at hc
      · split at hc
        · exact act_noneQueued (s := s.answer 0) h hc
        · obtain rfl := Option.some.inj hc
          exact h
      · obtain rfl := Option.some.inj hc
        exact h
  | close id =>
      obtain rfl := Option.some.inj hc
      unfold close
      split
      · exact h
      · exact h
  | join id =>
      obtain rfl := Option.some.inj hc
      unfold join
      split
      · exact h
      · exact h
  | yield => exact act_noneQueued h hc
  | exit => exact act_noneQueued h hc
  | device n =>
      simp only [systemCall] at hc
      split at hc
      · exact act_noneQueued h hc
      · cases hc
  | _ => exact applyTo_noneQueued h hc

theorem step_noneQueued (h : NoneQueued s.kernel) (hs : s.step r = some s') :
    NoneQueued s'.kernel := by
  unfold step at hs
  split at hs
  · exact nomatch hs
  · cases r with
    | call c =>
        simp only at hs
        split at hs
        · exact nomatch hs
        · exact systemCall_noneQueued h hs
    | joinLoop =>
        simp only [joinLoop] at hs
        split at hs
        · exact nomatch hs
        · split at hs
          · exact nomatch hs
          · split at hs
            · exact act_noneQueued h hs
            · obtain rfl := Option.some.inj hs
              exact h
    | interrupt vs =>
        simp only at hs
        split at hs
        · exact act_noneQueued h hs
        · exact nomatch hs
    | idle vs =>
        simp only at hs
        split at hs
        · exact act_noneQueued h hs
        · exact nomatch hs
    | dispatch => exact act_noneQueued h hs

/-! ## Failures -/

theorem act_failed (hx : s.resumesFreed x = false) (ha : s.act x = some s') :
    s'.failed = s.failed := by
  obtain ⟨k, -, rfl⟩ := Option.map_eq_some_iff.mp ha
  show (if s.resumesFreed x then some Failure.freedMemory else s.failed) = s.failed
  rw [hx]
  rfl

/-- Only a switch resumes a thread. -/
theorem resumesFreed_eq_false (hyield : x ≠ .yield) (hdispatch : x ≠ .dispatch) :
    s.resumesFreed x = false := by
  cases x <;> first | rfl | exact absurd rfl hyield | exact absurd rfl hdispatch

/-- An action other than a switch does not fail. -/
theorem call_failed (hyield : x ≠ .yield) (hdispatch : x ≠ .dispatch) (ha : s.act x = some s') :
    s'.failed = s.failed :=
  act_failed (resumesFreed_eq_false hyield hdispatch) ha

theorem switch_failed (hr : s.switching r = some x) (hgo : ¬ s.GoesOnFreed r)
    (ha : s.act x = some s') : s'.failed = s.failed :=
  act_failed (Bool.eq_false_of_not_eq_true fun hfreed => hgo ⟨x, hr, hfreed⟩) ha

theorem create_failed (hc : s.create a o = some s') : s'.failed = s.failed := by
  obtain ⟨s₁, hb, rfl⟩ := Option.map_eq_some_iff.mp hc
  obtain ⟨-, rfl⟩ := build_cases hb
  rfl

theorem startThread_failed {p : ProcessId} (hc : s.startThread p a = some s') :
    s'.failed = s.failed := by
  obtain ⟨s₁, hb, hrest⟩ := Option.bind_eq_some_iff.mp hc
  obtain ⟨s₂, hnew, hstart⟩ := Option.bind_eq_some_iff.mp hrest
  have h₁ : s₁.failed = s.failed := by
    obtain ⟨-, rfl⟩ := build_cases hb
    rfl
  have h₂ : s₂.failed = s₁.failed := call_failed (by simp) (by simp) hnew
  have h₃ : s'.failed = s₂.failed :=
    call_failed (s := s₂.register a _) (by simp) (by simp) hstart
  exact h₃.trans (h₂.trans h₁)

theorem applyTo_failed {operation : Object → Option Action}
    (hop : ∀ o x, operation o = some x → x ≠ .yield ∧ x ≠ .dispatch)
    (hc : s.applyTo id operation = some s') : s'.failed = s.failed := by
  unfold applyTo at hc
  split at hc
  · rename_i y hy
    obtain ⟨o, -, hy⟩ := Option.bind_eq_some_iff.mp hy
    obtain ⟨hyield, hdispatch⟩ := hop o y hy
    exact call_failed (s := s.answer 0) hyield hdispatch hc
  · obtain rfl := Option.some.inj hc
    rfl

/-- A destructor's `ASSERT` fails only where the queue is not empty. -/
theorem destroy_failed {queue : Object → Option (List ThreadId)} {f : Failure}
    (hq : ∀ o l, s.search id = some o → queue o = some l → l = []) :
    (s.destroy id queue f).failed = s.failed := by
  unfold destroy
  split
  · rfl
  · rename_i o ho
    split
    · rfl
    · rfl
    · rename_i hcons
      exact nomatch hq o _ ho hcons

/-- A call that breaks no protocol does not fail. -/
theorem systemCall_failed {c : SystemCall} (hnone : NoneQueued s.kernel)
    (hv : ¬ s.Violates (.call c)) (hgo : ¬ s.GoesOnFreed (.call c))
    (hc : s.systemCall c = some s') : s'.failed = s.failed := by
  cases c with
  | semCreate v a =>
      simp only [systemCall, semCreate] at hc
      split at hc
      · have hf := create_failed hc
        exact hf
      · cases hc
  | lockCreate a =>
      simp only [systemCall, lockCreate] at hc
      split at hc
      · have hf := create_failed hc
        exact hf
      · cases hc
  | condCreate a =>
      simp only [systemCall, condCreate] at hc
      split at hc
      · have hf := create_failed hc
        exact hf
      · cases hc
  | openFile a => exact create_failed hc
  | exec a =>
      obtain ⟨s₁, hnew, hstart⟩ := Option.bind_eq_some_iff.mp hc
      exact (startThread_failed hstart).trans (call_failed (by simp) (by simp) hnew)
  | newThread a =>
      obtain ⟨p, -, hstart⟩ := Option.bind_eq_some_iff.mp hc
      exact startThread_failed hstart
  | semDestroy id =>
      obtain rfl := Option.some.inj hc
      refine destroy_failed fun o l ho hl => not_not.mp fun hne => hv ?_
      cases o with
      | semaphore n =>
          obtain rfl := Option.some.inj hl
          exact ⟨n, ho, hne⟩
      | _ => cases hl
  | lockDestroy id =>
      obtain rfl := Option.some.inj hc
      refine destroy_failed fun o l ho hl => not_not.mp fun hne => hv ?_
      cases o with
      | lock n =>
          obtain rfl := Option.some.inj hl
          exact ⟨n, ho, hne⟩
      | _ => cases hl
  | condDestroy id =>
      obtain rfl := Option.some.inj hc
      -- The queue of a condition is always empty.
      refine destroy_failed fun o l _ hl => ?_
      cases o with
      | condition n =>
          obtain rfl := Option.some.inj hl
          exact hnone n
      | _ => cases hl
  | lockRelease id =>
      simp only [systemCall, lockRelease] at hc
      split at hc
      · rename_i n hn
        split at hc
        · exact call_failed (s := s.answer 0) (by simp) (by simp) hc
        · rename_i hne
          exact absurd ⟨n, hn, hne⟩ hv
      · obtain rfl := Option.some.inj hc
        rfl
  | close id =>
      obtain rfl := Option.some.inj hc
      unfold close
      split <;> rfl
  | join id =>
      obtain rfl := Option.some.inj hc
      unfold join
      split <;> rfl
  | yield => exact switch_failed rfl hgo hc
  | exit => exact call_failed (by simp) (by simp) hc
  | device n =>
      simp only [systemCall] at hc
      split at hc
      · exact call_failed (by simp) (by simp) hc
      · cases hc
  | _ =>
      refine applyTo_failed (fun o x hx => ?_) hc
      split at hx
      · obtain rfl := Option.some.inj hx
        exact ⟨by simp, by simp⟩
      · cases hx

theorem step_failed (hnone : NoneQueued s.kernel) (hv : ¬ s.Violates r) (hgo : ¬ s.GoesOnFreed r)
    (hs : s.step r = some s') : s'.failed = none := by
  unfold step at hs
  split at hs
  · exact nomatch hs
  · rename_i hlive
    refine Eq.trans ?_ (not_not.mp hlive)
    cases r with
    | call c =>
        simp only at hs
        split at hs
        · exact nomatch hs
        · exact systemCall_failed hnone hv hgo hs
    | joinLoop =>
        simp only [joinLoop] at hs
        split at hs
        · exact nomatch hs
        · split at hs
          · exact nomatch hs
          · rename_i a ha
            split at hs
            · rename_i hwait
              exact switch_failed (by simp [switching, ha, hwait]) hgo hs
            · obtain rfl := Option.some.inj hs
              rfl
    | interrupt vs =>
        simp only at hs
        split at hs
        · exact call_failed (by simp) (by simp) hs
        · exact nomatch hs
    | idle vs =>
        simp only at hs
        split at hs
        · exact call_failed (by simp) (by simp) hs
        · exact nomatch hs
    | dispatch => exact switch_failed rfl hgo hs

/-! ## Unknown identifiers -/

theorem applyTo_unknown {operation : Object → Option Action}
    (hop : ∀ o, s.search id = some o → operation o = none) :
    s.applyTo id operation = some (s.answer (-1)) := by
  unfold applyTo
  cases hs : s.search id with
  | none => rfl
  | some o => rw [Option.bind_some, hop o hs]

theorem destroy_unknown {queue : Object → Option (List ThreadId)} {f : Failure}
    (hq : ∀ o, s.search id = some o → queue o = none) :
    s.destroy id queue f = s.answer (-1) := by
  unfold destroy
  cases hs : s.search id with
  | none => rfl
  | some o => simp only [hq o hs]

/-- A call whose identifier stands for no object of the right type returns -1. -/
theorem systemCall_unknown {c : SystemCall} {accepts : Object → Bool}
    (ht : target c = some (id, accepts))
    (hno : ∀ o, s.search id = some o → accepts o = false) :
    s.systemCall c = some (s.answer (-1)) := by
  cases c with
  | semP i | semV i | lockAcquire i | condWait i | condSignal i | condBroadcast i =>
      obtain ⟨rfl, rfl⟩ := Prod.mk.inj (Option.some.inj ht)
      refine applyTo_unknown fun o ho => ?_
      have hacc := hno o ho
      cases o <;> first | rfl | cases hacc
  | semDestroy i | lockDestroy i | condDestroy i =>
      obtain ⟨rfl, rfl⟩ := Prod.mk.inj (Option.some.inj ht)
      refine congrArg some (destroy_unknown fun o ho => ?_)
      have hacc := hno o ho
      cases o <;> first | rfl | cases hacc
  | lockRelease i =>
      obtain ⟨rfl, rfl⟩ := Prod.mk.inj (Option.some.inj ht)
      simp only [systemCall, lockRelease]
      split
      · rename_i n hn
        cases hno _ hn
      · rfl
  | _ => cases ht

/-! ## Violations -/

/-- Destroying an object with a queue that is not empty stops the machine. -/
theorem destroy_fails (queue : Object → Option (List ThreadId)) (f : Failure)
    {l : List ThreadId} (hs : s.search id = some o) (hq : queue o = some l) (hne : l ≠ []) :
    (s.destroy id queue f).failed = some f := by
  obtain ⟨t, l', rfl⟩ := List.exists_cons_of_ne_nil hne
  simp only [destroy, hs, hq]
  rfl

theorem answer_ne {m n : Int} (hne : m ≠ n) {t : System} (ht : t.kernel = s.kernel) :
    t.answer m ≠ s.answer n := by
  intro he
  have hreply := congrFun (congrArg reply he) s.kernel.currentThread
  rw [answer, answer, ht] at hreply
  simp only [Function.update_self] at hreply
  exact hne (Option.some.inj hreply)

/-- A call that breaks a protocol is not answered as promised. -/
theorem not_obeys_of_violates (hnone : NoneQueued s.kernel) (hv : s.Violates r)
    (hs : s.step r = some s') : ¬ Obeys s r s' := by
  intro ho
  unfold step at hs
  split at hs
  · cases hs
  · cases r with
    | call c =>
        simp only at hs
        split at hs
        · cases hs
        · cases c with
          | lockRelease id =>
              obtain ⟨n, hn, hne⟩ := hv
              simp only [systemCall, lockRelease, hn, if_neg hne] at hs
              obtain rfl := Option.some.inj hs
              cases ho.noFailure
          | semDestroy id =>
              obtain ⟨n, hn, hne⟩ := hv
              obtain rfl := Option.some.inj hs
              have hfail := destroy_fails s.semaphoreQueue .semaphoreQueue hn rfl hne
              cases hfail.symm.trans ho.noFailure
          | lockDestroy id =>
              obtain ⟨n, hn, hne⟩ := hv
              obtain rfl := Option.some.inj hs
              have hfail := destroy_fails s.lockSleepqueue .lockSleepqueue hn rfl hne
              cases hfail.symm.trans ho.noFailure
          | condDestroy id =>
              -- The call succeeds.
              have hrefused := ho.refused hv
              obtain ⟨n, hn, -⟩ := hv
              obtain rfl := Option.some.inj hs
              have hdone : s.condDestroy id = (s.delete (.condition n)).answer 0 := by
                simp only [condDestroy, destroy, hn, conditionWaitqueue, hnone n]
              rw [hdone] at hrefused
              exact answer_ne (s := s) (t := s.delete (.condition n)) (by decide) rfl hrefused
          | _ => exact hv
    | _ => exact hv

theorem not_obeys_of_goesOnFreed (hgo : s.GoesOnFreed r) (hs : s.step r = some s') :
    ¬ Obeys s r s' := by
  intro ho
  obtain ⟨x, hx, hfreed⟩ := hgo
  -- The kernel step itself would be the failure.
  have hact : s.act x = some s' → False := by
    intro ha
    obtain ⟨k, -, rfl⟩ := Option.map_eq_some_iff.mp ha
    have hfail := ho.noFailure
    simp [hfreed] at hfail
  unfold step at hs
  split at hs
  · cases hs
  · cases r with
    | call c =>
        cases c with
        | yield =>
            obtain rfl := Option.some.inj hx
            simp only at hs
            split at hs
            · cases hs
            · exact hact hs
        | _ => cases hx
    | joinLoop =>
        simp only [switching] at hx
        split at hx
        · rename_i hwait
          obtain rfl := Option.some.inj hx
          cases ha : s.joining s.kernel.currentThread with
          | none => simp [ha] at hwait
          | some a =>
              rw [ha, Option.any_some] at hwait
              simp only [joinLoop, ha, hwait, if_true] at hs
              split at hs
              · cases hs
              · exact hact hs
        · cases hx
    | dispatch =>
        obtain rfl := Option.some.inj hx
        exact hact hs
    | _ => cases hx

/-- What one step is worth. -/
theorem obeys_iff (hnone : NoneQueued s.kernel) (hs : s.step r = some s') :
    Obeys s r s' ↔ ¬ s.Violates r ∧ ¬ s.GoesOnFreed r := by
  constructor
  · exact fun ho => ⟨fun hv => not_obeys_of_violates hnone hv hs ho,
      fun hgo => not_obeys_of_goesOnFreed hgo hs ho⟩
  · rintro ⟨hv, hgo⟩
    refine ⟨step_failed hnone hv hgo hs, fun h => absurd h hv, ?_⟩
    rintro c id accepts rfl ht hno
    unfold step at hs
    split at hs
    · exact nomatch hs
    · simp only at hs
      split at hs
      · exact nomatch hs
      · rw [systemCall_unknown ht hno] at hs
        exact (Option.some.inj hs).symm

/-! ## Over whole runs -/

variable {initialValue : SemId → Int} {drivers : Nat} {tr : List (System × Request)}

theorem noneQueued_of_run (hr : Run step (booted initialValue drivers) tr s) :
    NoneQueued s.kernel :=
  hr.invariant (I := fun s => NoneQueued s.kernel) (fun _ => rfl)
    fun _ _ _ h hs => step_noneQueued h hs

theorem lastObeys_snoc : LastObeys (tr ++ [(s, r)]) s' ↔ Obeys s r s' := by
  constructor
  · intro h
    exact h s r List.getLast?_concat
  · intro h s₁ r₁ hlast
    rw [List.getLast?_concat] at hlast
    obtain ⟨rfl, rfl⟩ := Prod.mk.inj (Option.some.inj hlast)
    exact h

/-- In a run, every step is as promised if and only if no step breaks a protocol (releases a
    lock that the caller does not hold, destroys a semaphore or a lock with threads in its
    queue, or a condition on which threads wait) and no step resumes a thread in `P` of a
    semaphore that has been deleted. -/
theorem always_obeys_iff (hr : Run step (booted initialValue drivers) tr s) :
    Run.Always step (booted initialValue drivers) LastObeys tr ↔
      ∀ x ∈ tr, ¬ x.1.Violates x.2 ∧ ¬ x.1.GoesOnFreed x.2 := by
  induction hr with
  | nil =>
      rw [Run.always_nil]
      exact ⟨fun _ x hx => (nomatch hx), fun _ s r hlast => (nomatch hlast)⟩
  | @snoc tr s s' r hr hs ih =>
      rw [Run.always_snoc hr hs, ih, lastObeys_snoc, obeys_iff (noneQueued_of_run hr) hs]
      simp only [List.mem_append, List.mem_singleton, or_imp, forall_and, forall_eq]
      constructor
      · rintro ⟨⟨hv, hgo⟩, hv', hgo'⟩
        exact ⟨⟨hv, hv'⟩, hgo, hgo'⟩
      · rintro ⟨⟨hv, hv'⟩, hgo, hgo'⟩
        exact ⟨⟨hv, hgo⟩, hv', hgo'⟩

/-- A test for the steps that break nothing; it takes the destruction of a condition
    for a violation. -/
private def harmless (x : System × Request) : Bool :=
  (match x.2 with
    | .call (.lockRelease id) =>
        match x.1.search id with
        | some (.lock n) => (x.1.kernel.lock n).owner = some x.1.kernel.currentThread
        | _ => true
    | .call (.semDestroy id) => ((x.1.search id).bind x.1.semaphoreQueue).all (· = [])
    | .call (.lockDestroy id) => ((x.1.search id).bind x.1.lockSleepqueue).all (· = [])
    | .call (.condDestroy _) => false
    | _ => true) &&
  !(x.1.switching x.2).any x.1.resumesFreed

private theorem of_harmless (h : harmless (s, r) = true) : ¬ s.Violates r ∧ ¬ s.GoesOnFreed r := by
  obtain ⟨hv, hgo⟩ := Bool.and_eq_true_iff.mp h
  constructor
  · cases r with
    | call c =>
        cases c with
        | lockRelease id =>
            rintro ⟨n, hn, hne⟩
            simp only [hn, decide_eq_true_eq] at hv
            exact hne hv
        | semDestroy id =>
            rintro ⟨n, hn, hne⟩
            simp only [hn, Option.bind_some, semaphoreQueue, Option.all_some,
              decide_eq_true_eq] at hv
            exact hne hv
        | lockDestroy id =>
            rintro ⟨n, hn, hne⟩
            simp only [hn, Option.bind_some, lockSleepqueue, Option.all_some,
              decide_eq_true_eq] at hv
            exact hne hv
        | condDestroy id => exact nomatch hv
        | _ => exact id
    | _ => exact id
  · rintro ⟨x, hx, hfreed⟩
    simp [hx, hfreed] at hgo

/-- Two threads share a lock; the second one waits for it while the first one holds it,
    destroys it in the end and uses its identifier once more. -/
private def sharedLock : List Request :=
  [.call (.lockCreate 0), .call (.lockAcquire 3), .call (.newThread 1), .call .yield,
    .call (.lockAcquire 3), .dispatch, .call (.lockRelease 3), .call .yield,
    .call (.lockRelease 3), .call (.lockDestroy 3), .call (.lockAcquire 3)]

theorem always_obeys_sharedLock :
    ∃ (tr : List (System × Request)) (s : System),
      Run step (booted (fun _ => 0) 0) tr s ∧ s.reply 2 = some (-1) ∧
      Run.Always step (booted (fun _ => 0) 0) LastObeys tr := by
  obtain ⟨⟨tr, s⟩, he, hx⟩ := Option.map_eq_some_iff.mp
    (show (Transition.exec step (booted (fun _ => 0) 0) sharedLock).map
        (fun x => (x.1.all harmless, x.2.reply 2)) = some (true, some (-1)) by decide +kernel)
  obtain ⟨hall, hreply⟩ := Prod.mk.inj hx
  have hr := run_of_exec he
  exact ⟨tr, s, hr, hreply, (always_obeys_iff hr).mpr
    fun x hmem => of_harmless (List.all_eq_true.mp hall x hmem)⟩

/-- A thread releases a lock that nobody holds. -/
theorem always_obeys_fails :
    ¬ ∀ (initialValue : SemId → Int) (drivers : Nat) (tr : List (System × Request)) (s : System),
      Run step (booted initialValue drivers) tr s → LastObeys tr s := by
  intro h
  obtain ⟨⟨tr, s⟩, he, hx⟩ := Option.map_eq_some_iff.mp
    (show (Transition.exec step (booted (fun _ => 0) 0)
        [.call (.lockCreate 0), .call (.lockRelease 3)]).map
        (fun x => (x.1.getLast?.map Prod.snd, x.2.failed)) =
      some (some (.call (.lockRelease 3)), some .isHeldByCurrentThread) by decide +kernel)
  obtain ⟨hlast, hfailed⟩ := Prod.mk.inj hx
  obtain ⟨⟨s₁, r⟩, hlast, -⟩ := Option.map_eq_some_iff.mp hlast
  have ho := h _ _ tr s (run_of_exec he) s₁ r hlast
  exact nomatch hfailed.symm.trans ho.noFailure

end System
end Nachos
