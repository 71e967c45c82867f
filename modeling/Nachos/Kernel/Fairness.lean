/-
  Nachos.Kernel.Fairness

  The ready list, the queues of the semaphores and those of the locks are served in order:
  a thread at index `i` gets its turn after `i` others, whatever the threads do.  So nobody
  that waits in `P` or in `Acquire` starves: as many `V` or `Release` calls as there are
  waiters in front of it make it ready, and as many switches as there are ready threads let
  it return.
-/

import Nachos.Kernel.Waiting
import Nachos.Lib.Fifo

namespace Nachos
namespace Kernel

open Transition

/-! ## The ready list -/

/-- The threads that the handlers wake, one after the other, from these queues. -/
def wokenBy : (SemId → List ThreadId) → List SemId → List ThreadId
  | _, [] => []
  | q, s :: vs => (q s).head?.toList ++ wokenBy (Function.update q s (q s).tail) vs

/-- The threads that a step puts on the ready list. -/
def readied (k : Kernel) : Action → List ThreadId
  | .start t _ => [t]
  | .yield => if k.readyList = [] then [] else [k.currentThread]
  | .semV s => (k.semaphore s).queue.head?.toList
  | .lockRelease l => (k.lock l).sleepqueue.head?.toList
  | .condSignal c => (k.condition c).waitqueue.head?.toList
  | .condBroadcast c => (k.condition c).waitqueue
  | .interrupt vs => wokenBy (fun s => (k.semaphore s).queue) vs
  | .idle vs => wokenBy (fun s => (k.semaphore s).queue) vs
  | _ => []

/-- The threads that are switched to, in order. -/
def dispatched (tr : History) : List ThreadId :=
  collected (fun k a => (switched k a).toList) tr

theorem handlers_readyList (k : Kernel) (vs : List SemId) :
    (k.handlers vs).readyList =
      k.readyList ++ wokenBy (fun s => (k.semaphore s).queue) vs := by
  induction vs generalizing k with
  | nil => simp [handlers, wokenBy]
  | cons s vs ih =>
      have hqueue : (fun s' => ((k.semV s).semaphore s').queue) =
          Function.update (fun s' => (k.semaphore s').queue) s (k.semaphore s).queue.tail := by
        funext s'
        rw [semV_eq]
        by_cases hs : s' = s
        · subst hs
          simp [setSemaphore]
        · simp [setSemaphore, hs]
      show ((k.semV s).handlers vs).readyList = _
      rw [ih, hqueue, wokenBy, semV_eq, List.append_assoc]

theorem ready_fifo :
    Fifo Kernel.step (fun k => k.readyList) readied fun k a => (switched k a).toList := by
  refine ⟨fun k a k' hs => ?_⟩
  cases step_cases hs with
  | call hrun hc =>
      cases hc with
      | yieldAlone h => simp [readied, switched, h]
      | yieldTo h hsw =>
          obtain ⟨r, hsw⟩ := switchTo_switched hsw
          simp [readied, switched, h, hsw.readyList]
      | semV =>
          rw [semV_eq]
          simp [readied, switched]
      | lockFree ho hq => simp [readied, switched, hq, setLock]
      | lockPass ho hq => simp [readied, switched, hq, setLock, readyToRun]
      | condSignalNone h => simp [readied, switched, h]
      | condSignal h => simp [readied, switched, h, setCondition, readyToRun]
      | _ =>
          simp [readied, switched, setThread, setProcess, setStatus, setSemaphore, setLock,
            asleep, saveResume]
  | @interrupt vs hrun hon =>
      show k.readyList ++ wokenBy _ vs = ((k.setStatus .off).handlers vs).readyList
      rw [handlers_readyList]
      rfl
  | @idle vs hsleep hready =>
      show k.readyList ++ wokenBy _ vs = (k.handlers vs).readyList
      rw [handlers_readyList]
  | dispatch hsleep hready hsw =>
      obtain ⟨r, hsw⟩ := switchTo_switched hsw
      simp [readied, switched, hready, hsw.readyList]

/-! ## The queues of the semaphores and of the locks -/

/-- The thread that a step puts into the queue of a semaphore. -/
def blocksInP (s : SemId) (k : Kernel) (a : Action) : List ThreadId :=
  if a = .semP s ∧ (k.semaphore s).value ≤ 0 then [k.currentThread] else []

/-- The threads that a step takes off it. -/
def wakes (s : SemId) (k : Kernel) (a : Action) : List ThreadId :=
  (k.semaphore s).queue.take (vCalls s a)

theorem semaphore_fifo (s : SemId) :
    Fifo Kernel.step (fun k => (k.semaphore s).queue) (blocksInP s) (wakes s) := by
  refine ⟨fun k a k' hs => ?_⟩
  -- the handlers take as many as they make `V` calls, and put nobody in
  have handled : ∀ vs : List SemId, blocksInP s k a = [] → vCalls s a = vs.count s →
      (k'.semaphore s).queue = (k.semaphore s).queue.drop (vs.count s) →
      (k.semaphore s).queue ++ blocksInP s k a = wakes s k a ++ (k'.semaphore s).queue := by
    intro vs hb hv hq
    rw [hb, wakes, hv, hq, List.append_nil, List.take_append_drop]
  cases step_cases hs with
  | call hrun hc =>
      cases hc with
      | yieldTo h hsw =>
          obtain ⟨r, hsw⟩ := switchTo_switched hsw
          rw [hsw.semaphore, semaphoreAfter_queue]
          simp [blocksInP, wakes, vCalls, saveResume]
      | @semPTake s' h =>
          by_cases hs : s' = s
          · subst hs
            have hpos : ¬ (k.semaphore s').value ≤ 0 := by omega
            simp [blocksInP, wakes, vCalls, setSemaphore, hpos]
          · simp [blocksInP, wakes, vCalls, setSemaphore, hs, Ne.symm hs]
      | @semPBlock s' h =>
          by_cases hs : s' = s
          · subst hs
            simp [blocksInP, wakes, vCalls, setSemaphore, asleep, saveResume, h]
          · simp [blocksInP, wakes, vCalls, setSemaphore, asleep, saveResume, hs, Ne.symm hs]
      | @semV s' => exact handled [s'] (by simp [blocksInP]) rfl (handlers_queue k [s'] s)
      | _ =>
          simp [blocksInP, wakes, vCalls, setThread, setProcess, setStatus, setLock,
            setCondition, asleep, saveResume, readyToRun]
  | @interrupt vs hrun hon =>
      exact handled vs (by simp [blocksInP]) rfl (handlers_queue (k.setStatus .off) vs s)
  | @idle vs hsleep hready => exact handled vs (by simp [blocksInP]) rfl (handlers_queue k vs s)
  | dispatch hsleep hready hsw =>
      obtain ⟨r, hsw⟩ := switchTo_switched hsw
      rw [hsw.semaphore, semaphoreAfter_queue]
      simp [blocksInP, wakes, vCalls]

theorem lock_fifo (l : LockId) :
    Fifo Kernel.step (fun k => (k.lock l).sleepqueue) (fun k a => (blocksIn l k a).toList)
      fun k a => (passedTo l k a).toList := by
  refine ⟨fun k a k' hs => ?_⟩
  -- a step that is no call on a lock
  have same : (∀ l', a ≠ .lockAcquire l' ∧ a ≠ .lockRelease l') → k'.lock l = k.lock l →
      (k.lock l).sleepqueue ++ (blocksIn l k a).toList =
        (passedTo l k a).toList ++ (k'.lock l).sleepqueue := by
    intro hne hlock
    simp [blocksIn, passedTo, (hne l).1, (hne l).2, hlock]
  cases step_cases hs with
  | call hrun hc =>
      cases hc with
      | yieldTo h hsw =>
          obtain ⟨r, hsw⟩ := switchTo_switched hsw
          exact same (by simp) (congrFun hsw.lock l)
      | @lockTake l' h =>
          by_cases hl : l' = l
          · subst hl
            simp [blocksIn, passedTo, setLock, h]
          · simp [blocksIn, passedTo, setLock, hl, Ne.symm hl]
      | @lockBlock l' h =>
          by_cases hl : l' = l
          · subst hl
            simp [blocksIn, passedTo, setLock, asleep, saveResume, h]
          · simp [blocksIn, passedTo, setLock, asleep, saveResume, hl, Ne.symm hl]
      | @lockFree l' ho hq =>
          by_cases hl : l' = l
          · subst hl
            simp [blocksIn, passedTo, setLock, hq]
          · simp [blocksIn, passedTo, setLock, hl, Ne.symm hl]
      | @lockPass l' t rest ho hq =>
          by_cases hl : l' = l
          · subst hl
            simp [blocksIn, passedTo, setLock, readyToRun, hq]
          · simp [blocksIn, passedTo, setLock, readyToRun, hl, Ne.symm hl]
      | semV => exact same (by simp) (congrFun (semV_onlyWakes _ _).lock l)
      | _ => exact same (by simp) rfl
  | interrupt hrun hon =>
      exact same (by simp) (congrFun (handlers_onlyWakes (k.setStatus .off) _).lock l)
  | idle hsleep hready => exact same (by simp) (congrFun (handlers_onlyWakes _ _).lock l)
  | dispatch hsleep hready hsw =>
      obtain ⟨r, hsw⟩ := switchTo_switched hsw
      exact same (by simp) (congrFun hsw.lock l)

/-! ## The waiters are served in turn -/

/-- Every thread is in one place, and nobody in the queue of a condition. -/
def Settled (k : Kernel) : Prop := NoneQueued k ∧ ∃ loc, PlacedAt k loc

theorem settled_of_run {initialValue : SemId → Int} {tr : History} {k : Kernel}
    (hr : Run Kernel.step (Kernel.initialized initialValue) tr k) : Settled k := by
  have hsched := scheduled_of_run hr
  obtain ⟨loc, hp, -⟩ := hsched.placed
  exact ⟨hsched.noneQueued, loc, hp⟩

theorem Settled.step {k k' : Kernel} {a : Action} (h : Settled k) (hs : k.step a = some k') :
    Settled k' := by
  obtain ⟨hw, loc, hp⟩ := h
  obtain ⟨loc', hm, -⟩ := hp.step hw (step_cases hs)
  exact ⟨hw.step (step_cases hs), loc', hm.placed⟩

theorem PlacedAt.nodup_ready {k : Kernel} {loc : ThreadId → Option Place} (hp : PlacedAt k loc)
    {p : Place} (hne : p ≠ .ready) : (k.readyList ++ k.members p).Nodup := by
  refine List.nodup_append.mpr ⟨hp.located.nodup .ready, hp.located.nodup p, ?_⟩
  rintro t ht u hu rfl
  exact hne (hp.located.place_unique hu (show t ∈ k.members .ready from ht))

/-- A thread that is switched to was the first that was ready. -/
theorem switched_front (k : Kernel) (a : Action) : (switched k a).toList <+: k.readyList := by
  have hhead : k.readyList.head?.toList <+: k.readyList := by
    cases k.readyList with
    | nil => exact List.prefix_refl _
    | cons t rest => exact ⟨rest, rfl⟩
  cases a with
  | yield => exact hhead
  | dispatch => exact hhead
  | _ => exact List.nil_prefix

theorem take_sublist_wokenBy (q : SemId → List ThreadId) (vs : List SemId) (s : SemId) :
    ((q s).take (vs.count s)).Sublist (wokenBy q vs) := by
  induction vs generalizing q with
  | nil => simp
  | cons s' vs ih =>
      have htail := ih (Function.update q s' (q s').tail)
      by_cases hs : s' = s
      · subst hs
        rw [Function.update_self] at htail
        rw [List.count_cons_self, wokenBy]
        cases hq : q s' with
        | nil => simp
        | cons t rest =>
            rw [hq, List.tail_cons] at htail
            exact htail.cons_cons t
      · rw [Function.update_of_ne (Ne.symm hs)] at htail
        rw [List.count_cons_of_ne hs, wokenBy]
        exact htail.trans (List.sublist_append_right _ _)

theorem semaphore_relay (s : SemId) :
    Relay Kernel.step Settled (fun k => (k.semaphore s).queue) (fun k => k.readyList)
      (InP s) (blocksInP s) (wakes s) readied (fun k a => (switched k a).toList)
      fun k a => (pReturner s k a).toList where
  queueFifo := semaphore_fifo s
  readyFifo := ready_fifo
  keeps _ _ _ hs h := h.step hs
  nodup k h := by
    obtain ⟨-, loc, hp⟩ := h
    exact hp.nodup_ready (p := .semQueue s) (by simp)
  waits k t ht := Or.inl ht
  waiting k t ht := ht.imp_right And.left
  stays k a k' t hs h ht hne := by
    obtain ⟨hw, loc, hp⟩ := h
    refine ((step_cases hs).inP hp hw).mpr ⟨Or.inl ht, fun hret => hne ?_⟩
    simp [hret]
  returns k a k' t hs h ht := by
    obtain ⟨hw, loc, hp⟩ := h
    rw [Option.mem_toList, Option.mem_toList]
    have hcall : a ≠ .semP s ∨ pReturner s k a ≠ some t := by
      by_cases ha : a = .semP s
      · subst ha
        right
        intro hret
        cases step_cases hs with
        | call hrun hc =>
            have hcur : k.currentThread = t := by
              unfold pReturner at hret
              split at hret
              · exact Option.some.inj hret
              · simp [switched] at hret
            exact (hp.current_not_in (l := 0) hrun).1 (hcur ▸ ht)
      · exact Or.inl ha
    constructor
    · intro hret
      exact (switched_of_pReturner (hcall.resolve_right fun hne => hne hret) hret).1
    · intro hsw
      -- it was ready, so it goes on inside `P`
      have hready := ready_of_switched hsw
      rcases ht with hq | ⟨-, o, hres⟩
      · have hmem : t ∈ k.members (.semQueue s) := hq
        have hrd : t ∈ k.members .ready := hready
        exact absurd (hp.located.place_unique hmem hrd) (by simp)
      · have ha : a ≠ .semP s := by
          rintro rfl
          cases hsw
        rw [pReturner, if_neg fun hc => ha hc.1, if_pos, hsw]
        rw [returning, hsw]
        exact returnsInP_iff.mpr ⟨o, hres⟩
  fresh k a k' t hs h ht hput := by
    obtain ⟨hw, loc, hp⟩ := h
    unfold blocksInP at hput
    split at hput
    · rename_i hc
      obtain rfl := List.mem_singleton.mp hput
      obtain ⟨rfl, -⟩ := hc
      cases step_cases hs with
      | call hrun hc => exact (hp.current_not_in (l := 0) hrun).1 ht
    · cases hput
  wakes k a k' hs := by
    have hwoken : ∀ vs : List SemId, vCalls s a = vs.count s →
        readied k a = wokenBy (fun s => (k.semaphore s).queue) vs →
        (wakes s k a).Sublist (readied k a) := by
      intro vs hv hw
      rw [wakes, hv, hw]
      exact take_sublist_wokenBy (fun s => (k.semaphore s).queue) vs s
    cases a with
    | semV s' => exact hwoken [s'] rfl (by simp [readied, wokenBy])
    | interrupt vs => exact hwoken vs rfl rfl
    | idle vs => exact hwoken vs rfl rfl
    | _ => exact List.nil_sublist _
  front k a _ _ := switched_front k a

/-- A thread that waits in `P` with `i` others in front of it returns: `i + 1` calls of `V`
    make it ready, and after as many switches as there are ready threads then it is back.
    Those in front of it return before it does. -/
theorem semaphore_fair (initialValue : SemId → Int) (s : SemId) {tr : History} {k : Kernel}
    (hr : Run Kernel.step (Kernel.initialized initialValue) tr k) {i : Nat} {t : ThreadId}
    (ht : (k.semaphore s).queue[i]? = some t) {tr' : History} {k' : Kernel}
    (hr' : Run Kernel.step k tr' k') :
    (∀ j u, i < j → (k.semaphore s).queue[j]? = some u → u ∈ pReturners s tr' →
        t ∈ pReturners s tr') ∧
      (i < vMade s tr' → ∀ tr'' k'', Run Kernel.step k' tr'' k'' →
        k'.readyList.length ≤ (dispatched tr'').length → t ∈ pReturners s (tr' ++ tr'')) := by
  have hrelay := semaphore_relay s
  have hset := settled_of_run hr
  constructor
  · intro j u hij hu hret
    rw [pReturners, ← collected_toList] at hret ⊢
    exact hrelay.no_overtaking hr' hset ht hu hij hret
  · intro hv tr'' k'' hr'' hturns
    rw [pReturners, ← collected_toList]
    exact hrelay.served_in_turn (fun _ _ => rfl) hr' hr'' hset ht hv hturns

/-- Threads 1 and 2 block in `P`; the main thread makes two `V` calls and yields, and thread 1
    yields in its turn: `P` has returned to thread 2, which was second in the queue. -/
theorem semaphore_fair_second :
    ∃ tr k tr' k' tr'' k'', Run Kernel.step (Kernel.initialized fun _ => 0) tr k ∧
      Run Kernel.step k tr' k' ∧ Run Kernel.step k' tr'' k'' ∧
      (k.semaphore 0).queue = [1, 2] ∧ 2 ∈ pReturners 0 (tr' ++ tr'') := by
  have hexec : ((exec Kernel.step (Kernel.initialized fun _ => 0)
        [.newThread 1, .start 1 0, .newThread 2, .start 2 0, .yield, .semP 0, .dispatch, .semP 0,
          .dispatch]).bind fun x =>
      (exec Kernel.step x.2 [.semV 0, .semV 0]).bind fun y =>
      (exec Kernel.step y.2 [.yield, .yield]).map fun z =>
        ((x.2.semaphore 0).queue, vMade 0 y.1, y.2.readyList, dispatched z.1)) =
      some ([1, 2], 2, [1, 2], [1, 2]) := by decide
  obtain ⟨⟨tr, k⟩, htr, hrest⟩ := Option.bind_eq_some_iff.mp hexec
  obtain ⟨⟨tr', k'⟩, htr', hrest⟩ := Option.bind_eq_some_iff.mp hrest
  obtain ⟨⟨tr'', k''⟩, htr'', hx⟩ := Option.map_eq_some_iff.mp hrest
  simp only [Prod.mk.injEq] at hx
  obtain ⟨hqueue, hv, hready, hdisp⟩ := hx
  have hfair := (semaphore_fair (fun _ => 0) 0 (i := 1) (t := 2) (run_of_exec htr)
    (by rw [hqueue]; rfl) (run_of_exec htr')).2
  refine ⟨tr, k, tr', k', tr'', k'', run_of_exec htr, run_of_exec htr', run_of_exec htr'',
    hqueue, hfair (by omega) tr'' k'' (run_of_exec htr'') ?_⟩
  rw [hready, hdisp]

/-- The threads that have returned from `Acquire` on `l`, in order. -/
def acquirers (l : LockId) (tr : History) : List ThreadId :=
  tr.filterMap fun x => acquires l x.1 x.2

/-- The `Release` calls on `l` in a step. -/
def releaseCalls (l : LockId) (a : Action) : Nat := if a = .lockRelease l then 1 else 0

/-- The `Release` calls made on `l`. -/
def releases (l : LockId) (tr : History) : Nat := (tr.map fun x => releaseCalls l x.2).sum

theorem passedTo_eq_take (l : LockId) (k : Kernel) (a : Action) :
    (passedTo l k a).toList = (k.lock l).sleepqueue.take (releaseCalls l a) := by
  unfold passedTo releaseCalls
  split
  · cases (k.lock l).sleepqueue <;> simp
  · simp

theorem lock_relay (l : LockId) :
    Relay Kernel.step Settled (fun k => (k.lock l).sleepqueue) (fun k => k.readyList)
      (InAcquire l) (fun k a => (blocksIn l k a).toList) (fun k a => (passedTo l k a).toList)
      readied (fun k a => (switched k a).toList) fun k a => (acquires l k a).toList where
  queueFifo := lock_fifo l
  readyFifo := ready_fifo
  keeps _ _ _ hs h := h.step hs
  nodup k h := by
    obtain ⟨-, loc, hp⟩ := h
    exact hp.nodup_ready (p := .lockQueue l) (by simp)
  waits k t ht := Or.inl ht
  waiting k t ht := ht.imp_right And.left
  stays k a k' t hs h ht hne := by
    obtain ⟨hw, loc, hp⟩ := h
    refine ((step_cases hs).inAcquire hp hw).mpr ⟨Or.inl ht, fun hret => hne ?_⟩
    simp [hret]
  returns k a k' t hs h ht := by
    obtain ⟨hw, loc, hp⟩ := h
    rw [Option.mem_toList, Option.mem_toList]
    constructor
    · intro hret
      by_cases ha : a = .lockAcquire l
      · subst ha
        cases step_cases hs with
        | call hrun hc =>
            have hcur := (acquires_call hret).2
            exact absurd (hcur ▸ ht) (hp.current_not_in (s := 0) hrun).2
      · exact (acquires_of_ne ha hret).1
    · intro hsw
      have hready := ready_of_switched hsw
      rcases ht with hq | ⟨-, o, hres⟩
      · have hmem : t ∈ k.members (.lockQueue l) := hq
        have hrd : t ∈ k.members .ready := hready
        exact absurd (hp.located.place_unique hmem hrd) (by simp)
      · have ha : a ≠ .lockAcquire l := by
          rintro rfl
          cases hsw
        rw [acquires, if_neg fun hc => ha hc.1, resumedIn, if_pos, hsw]
        rw [returning, hsw]
        exact returnsInAcquire_iff.mpr ⟨o, hres⟩
  fresh k a k' t hs h ht hput := by
    obtain ⟨hw, loc, hp⟩ := h
    rw [Option.mem_toList] at hput
    unfold blocksIn at hput
    split at hput
    · rename_i hc
      obtain rfl := Option.some.inj hput
      obtain ⟨rfl, -⟩ := hc
      cases step_cases hs with
      | call hrun hc => exact (hp.current_not_in (s := 0) hrun).2 ht
    · cases hput
  wakes k a k' hs := by
    by_cases ha : a = .lockRelease l
    · subst ha
      simp [passedTo, readied]
    · simp [passedTo, ha]
  front k a _ _ := switched_front k a

end Kernel
end Nachos
