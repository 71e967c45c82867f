/-
  Nachos.Kernel.Schedule

  Every step moves the threads between the places and keeps `PlacedAt`; so does
  every run from the state `Initialize` leaves.  The started and unfinished
  threads of a run, read off its history, are the threads on the list `alive`,
  and in a run without `Condition::Wait` each of them is in exactly one place.
-/

import Nachos.Kernel.Place

namespace Nachos
namespace Kernel

open Placement Transition

/-! ## What the handlers leave alone -/

theorem semV_thread (k : Kernel) (s : SemId) : (k.semV s).thread = k.thread := by
  rw [semV_eq]
  rfl

/-- The fields that a list of `V` calls leaves alone. -/
structure OnlyWakes (k k' : Kernel) : Prop where
  currentThread : k'.currentThread = k.currentThread
  sleeping : k'.sleeping = k.sleeping
  threadToBeDestroyed : k'.threadToBeDestroyed = k.threadToBeDestroyed
  alive : k'.alive = k.alive
  level : k'.level = k.level
  thread : k'.thread = k.thread
  process : k'.process = k.process
  lock : k'.lock = k.lock
  condition : k'.condition = k.condition

theorem semV_onlyWakes (k : Kernel) (s : SemId) : OnlyWakes k (k.semV s) := by
  rw [semV_eq]
  exact ⟨rfl, rfl, rfl, rfl, rfl, rfl, rfl, rfl, rfl⟩

theorem handlers_onlyWakes (k : Kernel) (vs : List SemId) : OnlyWakes k (k.handlers vs) := by
  induction vs generalizing k with
  | nil => exact ⟨rfl, rfl, rfl, rfl, rfl, rfl, rfl, rfl, rfl⟩
  | cons s vs ih =>
      have h₁ := semV_onlyWakes k s
      have h₂ := ih (k.semV s)
      exact ⟨h₂.currentThread.trans h₁.currentThread, h₂.sleeping.trans h₁.sleeping,
        h₂.threadToBeDestroyed.trans h₁.threadToBeDestroyed, h₂.alive.trans h₁.alive,
        h₂.level.trans h₁.level, h₂.thread.trans h₁.thread, h₂.process.trans h₁.process,
        h₂.lock.trans h₁.lock, h₂.condition.trans h₁.condition⟩

/-! ## Nobody is in the queue of a condition -/

/-- No thread is in a `waitqueue`: `Wait` never puts one there. -/
def NoneQueued (k : Kernel) : Prop := ∀ c, (k.condition c).waitqueue = []

theorem NoneQueued.step {k k' : Kernel} {a : Action} (h : NoneQueued k) (hs : Step k a k') :
    NoneQueued k' := by
  cases hs with
  | call hrun hc =>
      cases hc with
      | yieldTo hr hsw =>
          obtain ⟨r, hsw⟩ := switchTo_switched hsw
          intro c
          rw [hsw.condition]
          exact h c
      | @condSignal c t rest hq => exact absurd (hq.symm.trans (h c)) (by simp)
      | @condBroadcast c =>
          intro c'
          by_cases hc : c' = c
          · simp [setCondition, hc]
          · simpa [setCondition, hc] using h c'
      | semV =>
          intro c
          rw [(semV_onlyWakes _ _).condition]
          exact h c
      | _ => exact h
  | interrupt hrun hon =>
      intro c
      show (((k.setStatus .off).handlers _).condition c).waitqueue = []
      rw [(handlers_onlyWakes _ _).condition]
      exact h c
  | idle hsleep hready =>
      intro c
      rw [(handlers_onlyWakes _ _).condition]
      exact h c
  | dispatch hsleep hready hsw =>
      obtain ⟨r, hsw⟩ := switchTo_switched hsw
      intro c
      rw [hsw.condition]
      exact h c

/-! ## Every step keeps the places -/

theorem PlacedAt.keep {k k' : Kernel} {loc : ThreadId → Option Place} (h : PlacedAt k loc)
    (hm : k'.members = k.members) (ha : k'.alive = k.alive)
    (hr : ∀ t ∈ k.alive, k'.resumeOf t = k.resumeOf t)
    (hp : ∀ t ∈ k.alive, k'.processOf t = k.processOf t) :
    ∃ loc', Moved k k' loc loc' ∧ Kept k k' loc loc' :=
  ⟨loc, h.stay hm ha hr hp, fun _ ht hn => ⟨ha ▸ ht, hn⟩⟩

/-- Changing the object of a thread that is not alive does not move anybody. -/
theorem PlacedAt.newThread {k : Kernel} {loc : ThreadId → Option Place} (h : PlacedAt k loc)
    {t : ThreadId} (ht : k.thread t = none) :
    ∃ loc', Moved k (k.setThread t Thread.create) loc loc' ∧
      Kept k (k.setThread t Thread.create) loc loc' := by
  have hnot : ∀ u ∈ k.alive, u ≠ t := by
    intro u hu hut
    have hp := h.process u hu
    rw [hut] at hp
    simp [processOf, ht] at hp
  refine h.keep ?_ rfl ?_ ?_
  · exact members_congr rfl rfl rfl (fun _ => rfl) (fun _ => rfl) (fun _ => rfl)
  · intro u hu
    simp [resumeOf, setThread, Function.update_of_ne (hnot u hu)]
  · intro u hu
    simp [processOf, setThread, Function.update_of_ne (hnot u hu)]

/-- The running thread yields to the head of the ready list. -/
theorem PlacedAt.yieldTo {k k' : Kernel} {loc : ThreadId → Option Place} (h : PlacedAt k loc)
    (hrun : k.sleeping = false) {t : ThreadId} {rest : List ThreadId}
    (hready : k.readyList = t :: rest)
    (hs : { k.saveResume k.currentThread (.yield k.level) with
          readyList := rest ++ [k.currentThread], level := .off }.switchTo t = some k') :
    ∃ loc', Moved k k' loc loc' ∧ Kept k k' loc loc' := by
  obtain ⟨r, hsw⟩ := switchTo_switched hs
  -- Put the running thread behind the others first, then dispatch the head.
  have h₁ := h.yieldReady hrun (.yield k.level)
  have hready₁ : (asleep { k with readyList := k.readyList ++ [k.currentThread] }
      (.yield k.level)).readyList = t :: (rest ++ [k.currentThread]) := by
    simp [asleep, saveResume, hready]
  have h₂ := h₁.placed.dispatch rfl hready₁ (r := r)
    ⟨hsw.resume, hsw.currentThread, hsw.sleeping, hsw.readyList, hsw.alive, hsw.semaphore,
      hsw.lock, hsw.condition, hsw.resumeOf, hsw.processOf⟩
  have hk₁ : Kept k (asleep { k with readyList := k.readyList ++ [k.currentThread] }
      (.yield k.level)) loc (Function.update loc k.currentThread (some .ready)) := Kept.update rfl
  exact ⟨_, h₁.trans h₂, hk₁.trans (Kept.update hsw.alive)⟩

/-- A called operation keeps the places, and loses no thread unless it is
    `Wait`. -/
theorem PlacedAt.call {k k' : Kernel} {loc : ThreadId → Option Place} {a : Action}
    (h : PlacedAt k loc) (hw : NoneQueued k) (hrun : k.sleeping = false) (hc : Call k a k') :
    ∃ loc', Moved k k' loc loc' ∧ ((∀ c, a ≠ .condWait c) → Kept k k' loc loc') := by
  -- All but `Wait` keep every thread in a place.
  have keep : ∀ {k' : Kernel}, (∃ loc', Moved k k' loc loc' ∧ Kept k k' loc loc') →
      ∃ loc', Moved k k' loc loc' ∧ ((∀ c, a ≠ .condWait c) → Kept k k' loc loc') :=
    fun ⟨loc', hm, hk⟩ => ⟨loc', hm, fun _ => hk⟩
  cases hc with
  | newThread ht => exact keep (h.newThread ht)
  | newProcess _ => exact keep (h.keep rfl rfl (fun _ _ => rfl) (fun _ _ => rfl))
  | @start t p th pr ht hp hnone hid hlive =>
      have hnot : t ∉ k.alive := by
        intro hmem
        have := h.process t hmem
        simp [processOf, ht, hnone] at this
      refine keep ⟨_, h.start hnot ?_ rfl ?_ ?_ ?_, ?_⟩
      · rw [← members_readyList]
        exact members_congr rfl rfl rfl (fun _ => rfl) (fun _ => rfl) (fun _ => rfl)
      · simp [processOf, setThread]
      · intro u hu
        simp [resumeOf, setThread, setProcess, Function.update_of_ne hu]
      · intro u hu
        simp [processOf, setThread, setProcess, Function.update_of_ne hu]
      -- A thread in no place is another one, and had no place before.
      · intro u hu hn
        have hut : u ≠ t := fun he => by simp [he] at hn
        rw [Function.update_of_ne hut] at hn
        refine ⟨?_, hn⟩
        rcases List.mem_append.mp hu with hu | hu
        · exact hu
        · exact absurd (List.mem_singleton.mp hu) hut
  | @finish alive hrem =>
      obtain ⟨hnd, hmem⟩ := removeItem_nodup h.nodup hrem
      refine keep ⟨_, h.leave hrun (r := .finish k.level) ?_ hnd ?_ ?_ rfl, ?_⟩
      · exact members_asleep _ _
      · exact fun t ht => ((hmem t).mp ht).1
      · exact fun t ht hne => (hmem t).mpr ⟨ht, hne⟩
      · intro u hu hn
        obtain ⟨hu, hne⟩ := (hmem u).mp hu
        exact ⟨hu, by rwa [Function.update_of_ne hne] at hn⟩
  | yieldAlone _ => exact keep (h.keep rfl rfl (fun _ _ => rfl) (fun _ _ => rfl))
  | yieldTo hr hs => exact keep (h.yieldTo hrun hr hs)
  | setStatus => exact keep (h.keep rfl rfl (fun _ _ => rfl) (fun _ _ => rfl))
  | @semPTake s _ =>
      refine keep (h.keep ?_ rfl (fun _ _ => rfl) (fun _ _ => rfl))
      rw [members_setSemaphore]
      exact Function.update_eq_self _ _
  | @semPBlock s _ =>
      refine keep ⟨_, h.block hrun (p := .semQueue s) (r := .semP s k.level) (by simp)
        ⟨_, rfl⟩ ?_ rfl rfl, Kept.update rfl⟩
      rw [members_asleep, members_setSemaphore, Function.update_comm (by simp)]
      rfl
  | @semV s => exact keep (h.semV s)
  | @lockTake l _ =>
      refine keep (h.keep ?_ rfl (fun _ _ => rfl) (fun _ _ => rfl))
      rw [members_setLock]
      exact Function.update_eq_self _ _
  | @lockBlock l _ =>
      refine keep ⟨_, h.block hrun (p := .lockQueue l) (r := .lockAcquire l k.level) (by simp)
        ⟨_, rfl⟩ ?_ rfl rfl, Kept.update rfl⟩
      rw [members_asleep, members_setLock, Function.update_comm (by simp)]
      rfl
  | @lockFree l _ hq =>
      refine keep (h.keep ?_ rfl (fun _ _ => rfl) (fun _ _ => rfl))
      rw [members_setLock]
      exact Function.update_eq_self_iff.mpr hq.symm
  | @lockPass l t rest _ hq =>
      refine keep ⟨_, h.wake (p := .lockQueue l) (by simp) hq ?_ rfl rfl, Kept.update rfl⟩
      rw [readyToRun, members_readyList, members_setLock]
      rfl
  | @condWait c =>
      refine ⟨_, h.leave hrun (r := .condWait c k.level) (members_asleep _ _) h.nodup
        (fun _ ht => ht) (fun _ ht _ => ht) rfl, fun hne => absurd rfl (hne c)⟩
  | condSignalNone _ => exact keep (h.keep rfl rfl (fun _ _ => rfl) (fun _ _ => rfl))
  -- No condition has a thread in its queue.
  | @condSignal c t rest hq => exact absurd (hq.symm.trans (hw c)) (by simp)
  | @condBroadcast c =>
      refine keep (h.keep ?_ rfl (fun _ _ => rfl) (fun _ _ => rfl))
      rw [hw c, List.append_nil]
      exact (members_setCondition k c ⟨[]⟩).trans (Function.update_eq_self_iff.mpr (hw c).symm)

theorem PlacedAt.step {k k' : Kernel} {loc : ThreadId → Option Place} {a : Action}
    (h : PlacedAt k loc) (hw : NoneQueued k) (hs : Step k a k') :
    ∃ loc', Moved k k' loc loc' ∧ ((∀ c, a ≠ .condWait c) → Kept k k' loc loc') := by
  cases hs with
  | call hrun hc => exact h.call hw hrun hc
  | interrupt hrun hon =>
      obtain ⟨loc', ⟨hp, hl⟩, hk⟩ := (h.setStatus .off).handlers _
      exact ⟨loc', ⟨hp.setStatus .on, hl⟩, fun _ => hk⟩
  | idle hsleep hready =>
      obtain ⟨loc', hm, hk⟩ := h.handlers _
      exact ⟨loc', hm, fun _ => hk⟩
  | dispatch hsleep hready hsw =>
      obtain ⟨r, hsw⟩ := switchTo_switched hsw
      exact ⟨_, h.dispatch hsleep hready hsw, fun _ => Kept.update hsw.alive⟩

/-! ## The ready list -/

/-- The thread that a step switches to. -/
def switched (k : Kernel) : Action → Option ThreadId
  | .yield => k.readyList.head?
  | .dispatch => k.readyList.head?
  | _ => none

/-- Where the thread a step switches to goes on. -/
def returning (k : Kernel) (a : Action) : Option Resume := (switched k a).bind k.resumeOf

/-- How a thread that is on the ready list after a step came there. -/
inductive Readied (k : Kernel) (a : Action) (k' : Kernel) (t : ThreadId) : Prop where
  | stayed (h : t ∈ k.readyList) (hsw : switched k a ≠ some t)
      (hr : k'.resumeOf t = k.resumeOf t)
  | started (p : ProcessId) (ha : a = .start t p)
      (hr : k'.resumeOf t = some .startThreadExecution)
  | yielded (o : IntStatus) (ha : a = .yield) (hr : k'.resumeOf t = some (.yield o))
  | woken (s : SemId) (o : IntStatus) (hr : k'.resumeOf t = some (.semP s o))
  | passed (l : LockId) (rest : List ThreadId) (o : IntStatus) (ha : a = .lockRelease l)
      (hq : (k.lock l).sleepqueue = t :: rest) (hr : k'.resumeOf t = some (.lockAcquire l o))

namespace PlacedAt

variable {k : Kernel} {loc : ThreadId → Option Place}

/-- A thread that is elsewhere is not the running thread. -/
theorem not_current (h : PlacedAt k loc) {p : Place} {t : ThreadId} (ht : t ∈ k.members p)
    (hp : p ≠ .cpu) (hrun : k.sleeping = false) : t ≠ k.currentThread := by
  rintro rfl
  have hloc := h.located.loc_of_mem ht
  rw [h.loc_current hrun] at hloc
  exact hp (Option.some.inj hloc).symm

/-- The running thread is not on the ready list. -/
theorem current_not_ready (h : PlacedAt k loc) (hrun : k.sleeping = false) :
    k.currentThread ∉ k.readyList :=
  fun hmem => h.not_current (p := .ready) hmem (by simp) hrun rfl

/-- The thread a step switches to goes off the ready list. -/
theorem head_not_mem (h : PlacedAt k loc) {t : ThreadId} {rest : List ThreadId}
    (hr : k.readyList = t :: rest) : t ∉ rest := by
  have hnd : k.readyList.Nodup := h.located.nodup .ready
  rw [hr] at hnd
  exact (List.nodup_cons.mp hnd).1

/-- A thread in a queue has a place to go on, in the operation of that queue. -/
theorem resume_of_mem (h : PlacedAt k loc) {p : Place} {t : ThreadId} (ht : t ∈ k.members p) :
    ∃ r, k.resumeOf t = some r ∧ p.Fits r := by
  have hloc := h.located.loc_of_mem ht
  have hproc := h.process t (h.alive t p hloc)
  cases hth : k.thread t with
  | none => simp [processOf, hth] at hproc
  | some th =>
      have hr : k.resumeOf t = some th.resume := by simp [resumeOf, hth]
      exact ⟨th.resume, hr, h.fits t p _ hloc hr⟩

/-- The handlers only add threads that wait in `P`. -/
theorem handlers_ready (h : PlacedAt k loc) (vs : List SemId) :
    ∃ ts, (k.handlers vs).readyList = k.readyList ++ ts ∧
      ∀ t ∈ ts, ∃ s, t ∈ k.members (.semQueue s) := by
  induction vs generalizing k loc with
  | nil => exact ⟨[], by simp [Kernel.handlers], by simp⟩
  | cons s vs ih =>
      obtain ⟨loc₁, hm₁, -⟩ := h.semV s
      obtain ⟨ts, hts, hres⟩ := ih hm₁.placed
      have hready : (k.semV s).readyList = k.readyList ++ (k.semaphore s).queue.head?.toList := by
        rw [semV_eq]
      refine ⟨(k.semaphore s).queue.head?.toList ++ ts, ?_, fun t ht => ?_⟩
      · show ((k.semV s).handlers vs).readyList = _
        rw [hts, hready, List.append_assoc]
      · rcases List.mem_append.mp ht with ht | ht
        · exact ⟨s, List.mem_of_mem_head? (Option.mem_toList.mp ht)⟩
        · obtain ⟨s', hmem⟩ := hres t ht
          refine ⟨s', ?_⟩
          change t ∈ ((k.semV s).semaphore s').queue at hmem
          rw [semV_eq] at hmem
          by_cases hs : s' = s
          · subst hs
            simp only [setSemaphore, Function.update_self] at hmem
            exact List.mem_of_mem_tail hmem
          · simpa [setSemaphore, hs, members] using hmem

end PlacedAt

/-- A step changes where a thread goes on only if that thread runs it. -/
theorem Step.resumeOf_same {k k' : Kernel} {a : Action} {loc : ThreadId → Option Place}
    (hs : Step k a k') (h : PlacedAt k loc) {t : ThreadId} (ht : t ∈ k.alive)
    (hcur : k.sleeping = false → t ≠ k.currentThread) : k'.resumeOf t = k.resumeOf t := by
  have hproc := h.process t ht
  have hasleep : ∀ (k₁ : Kernel) (r : Resume), k₁.thread = k.thread →
      k₁.currentThread = k.currentThread → k.sleeping = false →
      (k₁.asleep r).resumeOf t = k.resumeOf t := by
    intro k₁ r hth hc hrun
    show (k₁.saveResume k₁.currentThread r).resumeOf t = _
    rw [resumeOf_saveResume, hc, if_neg (hcur hrun)]
    simp only [resumeOf, hth]
  cases hs with
  | call hrun hc =>
      cases hc with
      | @start t' p th pr ht' hp hnone hid hlive =>
          have hne : t ≠ t' := by
            rintro rfl
            simp [processOf, ht', hnone] at hproc
          simp [resumeOf, setThread, setProcess, hne]
      | @newThread t' ht' =>
          have hne : t ≠ t' := by
            rintro rfl
            simp [processOf, ht'] at hproc
          simp [resumeOf, setThread, hne]
      | yieldTo hr hsw =>
          obtain ⟨r, hsw⟩ := switchTo_switched hsw
          rw [hsw.resumeOf]
          show (k.saveResume k.currentThread _).resumeOf t = _
          rw [resumeOf_saveResume, if_neg (hcur hrun)]
      | finish hrem => exact hasleep _ _ rfl rfl hrun
      | semPBlock hv => exact hasleep _ _ rfl rfl hrun
      | lockBlock hf => exact hasleep _ _ rfl rfl hrun
      | condWait => exact hasleep _ _ rfl rfl hrun
      | semV => simp only [resumeOf, semV_thread]
      | _ => rfl
  | interrupt hrun hon =>
      exact congrArg (fun th => (th t).map Thread.resume)
        (handlers_onlyWakes (k.setStatus .off) _).thread
  | idle hsleep hready =>
      exact congrArg (fun th => (th t).map Thread.resume) (handlers_onlyWakes k _).thread
  | dispatch hsleep hr hsw =>
      obtain ⟨r, hsw⟩ := switchTo_switched hsw
      exact hsw.resumeOf t

theorem Step.readied {k k' : Kernel} {a : Action} {loc : ThreadId → Option Place}
    (hs : Step k a k') (h : PlacedAt k loc) (hw : NoneQueued k) {t : ThreadId}
    (ht : t ∈ k'.readyList) : Readied k a k' t := by
  -- A thread that does not run keeps the point where it goes on.
  have same : ∀ {p : Place}, t ∈ k.members p → p ≠ .cpu → k'.resumeOf t = k.resumeOf t :=
    fun hm hp => hs.resumeOf_same h (h.alive t _ (h.located.loc_of_mem hm)) (h.not_current hm hp)
  have stayed : t ∈ k.readyList → switched k a ≠ some t → Readied k a k' t :=
    fun hm hsw => .stayed hm hsw (same (p := .ready) hm (by simp))
  have woken : ∀ s, t ∈ k.members (.semQueue s) → Readied k a k' t := by
    intro s hm
    obtain ⟨r, hr, o, rfl⟩ := h.resume_of_mem hm
    exact .woken s o ((same hm (by simp)).trans hr)
  cases id hs with
  | call hrun hc =>
      cases hc with
      | @start t' p th pr ht' hp hnone hid hlive =>
          rcases List.mem_append.mp ht with hm | hm
          · exact stayed hm (by simp [switched])
          · obtain rfl := List.mem_singleton.mp hm
            exact .started p rfl (by simp [resumeOf, setThread])
      | yieldAlone hr => exact absurd ht (by simp [hr])
      | @yieldTo t' rest _ hr hsw =>
          obtain ⟨r, hsw⟩ := switchTo_switched hsw
          rw [hsw.readyList] at ht
          rcases List.mem_append.mp ht with hm | hm
          · refine stayed (by rw [hr]; exact List.mem_cons_of_mem _ hm) ?_
            simp only [switched, hr, List.head?_cons, ne_eq, Option.some.injEq]
            exact fun he => h.head_not_mem hr (he ▸ hm)
          · obtain rfl := List.mem_singleton.mp hm
            -- The running thread has put itself at the end.
            obtain ⟨q, hq, -⟩ := h.resume_of_mem (p := .cpu) (t := k.currentThread)
              (by simp [members, hrun])
            refine .yielded k.level rfl ?_
            rw [hsw.resumeOf]
            show (k.saveResume k.currentThread _).resumeOf k.currentThread = _
            rw [resumeOf_saveResume, if_pos rfl, hq]
            rfl
      | @semV s =>
          rw [semV_eq] at ht
          rcases List.mem_append.mp ht with hm | hm
          · exact stayed hm (by simp [switched])
          · exact woken s (List.mem_of_mem_head? (Option.mem_toList.mp hm))
      | @lockPass l t' rest ho hq =>
          rcases List.mem_append.mp ht with hm | hm
          · exact stayed hm (by simp [switched])
          · obtain rfl := List.mem_singleton.mp hm
            have hmem : t ∈ k.members (.lockQueue l) := by simp [members, hq]
            obtain ⟨r, hr, o, rfl⟩ := h.resume_of_mem hmem
            exact .passed l rest o rfl hq hr
      | @condSignal c t' rest hq => exact absurd (hq.symm.trans (hw c)) (by simp)
      | @condBroadcast c =>
          rw [hw c] at ht
          exact stayed (by simpa using ht) (by simp [switched])
      | _ => exact stayed ht (by simp [switched])
  | @interrupt vs hrun hon =>
      -- The handlers wake threads only.
      obtain ⟨ts, hts, hmem⟩ := (h.setStatus .off).handlers_ready vs
      change t ∈ ((k.setStatus .off).handlers vs).readyList at ht
      rw [hts] at ht
      rcases List.mem_append.mp ht with hm | hm
      · exact stayed hm (by simp [switched])
      · obtain ⟨s, hm⟩ := hmem t hm
        exact woken s hm
  | @idle vs hsleep hready =>
      obtain ⟨ts, hts, hmem⟩ := h.handlers_ready vs
      rw [hts, hready, List.nil_append] at ht
      obtain ⟨s, hm⟩ := hmem t ht
      exact woken s hm
  | @dispatch t' rest _ hsleep hr hsw =>
      obtain ⟨r, hsw⟩ := switchTo_switched hsw
      rw [hsw.readyList] at ht
      refine stayed (by rw [hr]; exact List.mem_cons_of_mem _ ht) ?_
      simp only [switched, hr, List.head?_cons, ne_eq, Option.some.injEq]
      exact fun he => h.head_not_mem hr (he ▸ ht)

theorem handlers_mem_ready (k : Kernel) (vs : List SemId) {t : ThreadId}
    (ht : t ∈ k.readyList) : t ∈ (k.handlers vs).readyList := by
  induction vs generalizing k with
  | nil => exact ht
  | cons s vs ih =>
      apply ih (k.semV s)
      rw [semV_eq]
      exact List.mem_append_left _ ht

/-- A ready thread stays ready until a step switches to it. -/
theorem Step.stays_ready {k k' : Kernel} {a : Action} (hs : Step k a k') {t : ThreadId}
    (ht : t ∈ k.readyList) (hsw : switched k a ≠ some t) : t ∈ k'.readyList := by
  cases hs with
  | call hrun hc =>
      cases hc with
      | yieldTo hr hs =>
          obtain ⟨r, hs⟩ := switchTo_switched hs
          rw [hs.readyList]
          rw [hr] at ht
          simp only [switched, hr, List.head?_cons, ne_eq, Option.some.injEq] at hsw
          rcases List.mem_cons.mp ht with rfl | ht
          · exact absurd rfl hsw
          · exact List.mem_append_left _ ht
      | semV =>
          rw [semV_eq]
          exact List.mem_append_left _ ht
      | start _ _ _ _ _ => exact List.mem_append_left _ ht
      | lockPass _ _ => exact List.mem_append_left _ ht
      | condSignal _ => exact List.mem_append_left _ ht
      | condBroadcast => exact List.mem_append_left _ ht
      | _ => exact ht
  | @interrupt vs hrun hon => exact handlers_mem_ready (k.setStatus .off) vs ht
  | idle hsleep hready => exact absurd ht (by simp [hready])
  | dispatch hsleep hr hs =>
      obtain ⟨r, hs⟩ := switchTo_switched hs
      rw [hs.readyList]
      rw [hr] at ht
      simp only [switched, hr, List.head?_cons, ne_eq, Option.some.injEq] at hsw
      exact (List.mem_cons.mp ht).resolve_left fun he => hsw he.symm

/-! ## Started and finished, by the history -/

abbrev History := List (Kernel × Action)

/-- Thread `t` has been started: by a `Start`, or by `Initialize`. -/
def started (tr : History) (t : ThreadId) : Prop := t = 0 ∨ ∃ x ∈ tr, ∃ p, x.2 = .start t p

/-- Thread `t` has called `Finish`. -/
def finished (tr : History) (t : ThreadId) : Prop :=
  ∃ x ∈ tr, x.2 = .finish ∧ x.1.currentThread = t

theorem started_snoc {tr : History} {k : Kernel} {a : Action} {t : ThreadId} :
    started (tr ++ [(k, a)]) t ↔ started tr t ∨ ∃ p, a = .start t p := by
  simp only [started, List.mem_append, List.mem_singleton, or_and_right, exists_or,
    exists_eq_left, or_assoc]

theorem finished_snoc {tr : History} {k : Kernel} {a : Action} {t : ThreadId} :
    finished (tr ++ [(k, a)]) t ↔ finished tr t ∨ (a = .finish ∧ k.currentThread = t) := by
  simp only [finished, List.mem_append, List.mem_singleton, or_and_right, exists_or,
    exists_eq_left]

/-- What a step does to the list of threads and to their processes. -/
theorem Step.threads {k k' : Kernel} {a : Action} (hs : Step k a k') :
    (∃ t p, a = .start t p ∧ k.processOf t = none ∧ k'.alive = k.alive ++ [t] ∧
      ∀ u, k'.processOf u = if u = t then some p else k.processOf u) ∨
    (a = .finish ∧ k.sleeping = false ∧ removeItem k.currentThread [] k.alive = some k'.alive ∧
      ∀ u, k'.processOf u = k.processOf u) ∨
    ((∀ t p, a ≠ .start t p) ∧ a ≠ .finish ∧ k'.alive = k.alive ∧
      ∀ u, k'.processOf u = k.processOf u) := by
  -- Only `Start` and `Finish` change the list; an interrupt, the idle loop and a switch do not.
  cases hs with
  | call hrun hc =>
      cases hc with
      | @start t p th pr ht hp hnone hid hlive =>
          refine Or.inl ⟨t, p, rfl, by simp [processOf, ht, hnone], rfl, fun u => ?_⟩
          by_cases hu : u = t
          · simp [processOf, setThread, hu]
          · simp [processOf, setThread, setProcess, hu]
      | finish hrem =>
          refine Or.inr (Or.inl ⟨rfl, hrun, hrem, fun u => ?_⟩)
          exact processOf_saveResume k k.currentThread u _
      | @newThread t ht =>
          refine Or.inr (Or.inr ⟨by simp, by simp, rfl, fun u => ?_⟩)
          by_cases hu : u = t
          · simp [processOf, setThread, hu, ht, Thread.create]
          · simp [processOf, setThread, hu]
      | yieldTo hr hsw =>
          obtain ⟨r, hsw⟩ := switchTo_switched hsw
          refine Or.inr (Or.inr ⟨by simp, by simp, hsw.alive, fun u => ?_⟩)
          rw [hsw.processOf]
          exact processOf_saveResume k k.currentThread u _
      | semV =>
          have hv := semV_onlyWakes k
          exact Or.inr (Or.inr ⟨by simp, by simp, (hv _).alive,
            fun u => by simp only [processOf, (hv _).thread]⟩)
      | semPBlock _ | lockBlock _ | condWait =>
          refine Or.inr (Or.inr ⟨by simp, by simp, rfl, fun u => ?_⟩)
          exact processOf_saveResume k k.currentThread u _
      | _ => exact Or.inr (Or.inr ⟨by simp, by simp, rfl, fun _ => rfl⟩)
  | @interrupt vs hrun hon =>
      have hv := handlers_onlyWakes (k.setStatus .off) vs
      exact Or.inr (Or.inr ⟨by simp, by simp, hv.alive,
        fun u => congrArg (fun th => (th u).bind Thread.process) hv.thread⟩)
  | idle hsleep hready =>
      have hv := handlers_onlyWakes k
      exact Or.inr (Or.inr ⟨by simp, by simp, (hv _).alive,
        fun u => by simp only [processOf, (hv _).thread]⟩)
  | dispatch hsleep hready hsw =>
      obtain ⟨r, hsw⟩ := switchTo_switched hsw
      exact Or.inr (Or.inr ⟨by simp, by simp, hsw.alive, fun u => hsw.processOf u⟩)

/-! ## Every run keeps the places -/

/-- The invariant of runs: the places, the condition queues, and the list
    `alive` against the history. -/
structure Scheduled (tr : History) (k : Kernel) : Prop where
  placed : ∃ loc, PlacedAt k loc ∧
    ((∀ x ∈ tr, ∀ c, x.2 ≠ .condWait c) → ∀ t ∈ k.alive, loc t ≠ none)
  noneQueued : NoneQueued k
  hasProcess : ∀ t, started tr t ↔ k.processOf t ≠ none
  isAlive : ∀ t, t ∈ k.alive ↔ started tr t ∧ ¬ finished tr t
  wasStarted : ∀ t, finished tr t → started tr t

theorem initialized_placedAt (initialValue : SemId → Int) :
    PlacedAt (Kernel.initialized initialValue)
      (Function.update (fun _ => none) 0 (some Place.cpu)) := by
  have hloc : ∀ (t : ThreadId) (p : Place),
      Function.update (fun _ => none) 0 (some Place.cpu) t = some p ↔ t = 0 ∧ p = .cpu := by
    intro t p
    by_cases ht : t = 0
    · simp [ht, eq_comm]
    · simp [ht]
  refine ⟨fun p => ?_, ?_, List.nodup_singleton 0, ?_, ?_⟩
  · cases p <;> simp [members, Kernel.initialized, hloc]
  · intro t p ht
    simp [Kernel.initialized, ((hloc t p).mp ht).1]
  · intro t ht
    obtain rfl : t = 0 := by simpa [Kernel.initialized] using ht
    simp [processOf, Kernel.initialized]
  · intro t p r ht _
    rw [((hloc t p).mp ht).2]
    trivial

theorem initialized_scheduled (initialValue : SemId → Int) :
    Scheduled [] (Kernel.initialized initialValue) := by
  refine ⟨⟨_, initialized_placedAt initialValue, fun _ t ht => ?_⟩, fun _ => rfl, fun t => ?_,
    fun t => ?_, fun t ht => ?_⟩
  · obtain rfl : t = 0 := by simpa [Kernel.initialized] using ht
    simp
  · by_cases ht : t = 0 <;> simp [started, processOf, Kernel.initialized, ht]
  · simp [started, finished, Kernel.initialized]
  · simp [finished] at ht

theorem Scheduled.step {tr : History} {k k' : Kernel} {a : Action} (h : Scheduled tr k)
    (hs : Step k a k') : Scheduled (tr ++ [(k, a)]) k' := by
  obtain ⟨loc, hp, hsome⟩ := h.placed
  obtain ⟨loc', hm, hkept⟩ := hp.step h.noneQueued hs
  refine ⟨⟨loc', hm.placed, fun hno t ht hn => ?_⟩, h.noneQueued.step hs, fun t => ?_,
    fun t => ?_, fun t ht => ?_⟩
  · have hlast : ∀ c, a ≠ .condWait c := hno (k, a) (by simp)
    obtain ⟨ht', hn'⟩ := hkept hlast t ht hn
    exact hsome (fun x hx => hno x (List.mem_append_left _ hx)) t ht' hn'
  · rw [started_snoc, h.hasProcess]
    obtain ⟨u, p, rfl, -, -, hproc⟩ | ⟨rfl, -, -, hproc⟩ | ⟨hns, -, -, hproc⟩ := hs.threads
    · rw [hproc]
      by_cases htu : t = u
      · simp [htu]
      · simp [htu, Ne.symm htu]
    · simp [hproc]
    · simp [hproc, hns]
  · rw [started_snoc, finished_snoc]
    have ha := h.isAlive t
    obtain ⟨u, p, rfl, hnone, halive, -⟩ | ⟨rfl, hrun, hrem, -⟩ | ⟨hns, hnf, halive, -⟩ :=
      hs.threads
    · -- A thread is started only once: before its start it has no process.
      have hu : ¬ started tr u := fun hst => (h.hasProcess u).mp hst hnone
      have hfin : ¬ finished tr u := fun hf => hu (h.wasStarted u hf)
      rw [halive, List.mem_append, List.mem_singleton, ha]
      by_cases htu : t = u
      · simp [htu, hfin]
      · simp [htu, Ne.symm htu]
    · obtain ⟨-, hmem⟩ := removeItem_nodup hp.nodup hrem
      rw [hmem, ha]
      simp only [reduceCtorEq, exists_false, or_false, true_and, not_or]
      constructor
      · rintro ⟨⟨hst, hfin⟩, hne⟩
        exact ⟨hst, hfin, fun he => hne he.symm⟩
      · rintro ⟨hst, hfin, hne⟩
        exact ⟨⟨hst, hfin⟩, fun he => hne he.symm⟩
    · rw [halive, ha]
      simp [hns, hnf]
  · rw [started_snoc]
    rcases finished_snoc.mp ht with hf | ⟨rfl, rfl⟩
    · exact Or.inl (h.wasStarted t hf)
    · obtain ⟨u, p, he, -⟩ | ⟨-, hrun, -⟩ | ⟨-, hne, -⟩ := hs.threads
      · exact absurd he (by simp)
      · exact Or.inl ((h.isAlive _).mp (hp.current_alive hrun)).1
      · exact absurd rfl hne

theorem scheduled_of_run {initialValue : SemId → Int} {tr : History} {k : Kernel}
    (hr : Run Kernel.step (Kernel.initialized initialValue) tr k) : Scheduled tr k := by
  induction hr with
  | nil => exact initialized_scheduled initialValue
  | snoc _ hs ih => exact ih.step (step_cases hs)

/-- The places of the thread system without the queues of conditions. -/
def Place.isCondQueue : Place → Bool
  | .condQueue _ => true
  | _ => false

/-- A run without `Wait` loses no thread and duplicates none: every started and
    unfinished thread is on the processor, on the ready list, in the queue of one
    semaphore or in the queue of one lock, once there and in no other of these
    places. -/
theorem threads_conserved (initialValue : SemId → Int) (tr : History) (k : Kernel)
    (hr : Run Kernel.step (Kernel.initialized initialValue) tr k)
    (hwait : ∀ x ∈ tr, ∀ c, x.2 ≠ .condWait c) (t : ThreadId)
    (hst : started tr t) (hfin : ¬ finished tr t) :
    ∃ p : Place, p.isCondQueue = false ∧ (k.members p).count t = 1 ∧
      ∀ q : Place, q ≠ p → (k.members q).count t = 0 := by
  have hsched := scheduled_of_run hr
  obtain ⟨loc, hp, hsome⟩ := hsched.placed
  obtain ⟨p, hlp⟩ := Option.ne_none_iff_exists'.mp
    (hsome hwait t ((hsched.isAlive t).mpr ⟨hst, hfin⟩))
  have hmem : t ∈ k.members p := hp.located.mem_of_loc hlp
  refine ⟨p, ?_, List.count_eq_one_of_mem (hp.located.nodup p) hmem, fun q hq => ?_⟩
  · cases p with
    | condQueue c => exact absurd hmem (by simp [members, hsched.noneQueued c])
    | _ => rfl
  · exact List.count_eq_zero.mpr fun hmq => hq (hp.located.place_unique hmq hmem)

/-- The main thread starts thread 1 and yields to it, and thread 1 blocks in
    `P`: thread 1 is in one place then. -/
theorem threads_conserved_blocked :
    ∃ tr k, Run Kernel.step (Kernel.initialized fun _ => 0) tr k ∧
      k.members (.semQueue 0) = [1] ∧
      ∃ p : Place, p.isCondQueue = false ∧ (k.members p).count 1 = 1 ∧
        ∀ q : Place, q ≠ p → (k.members q).count 1 = 0 := by
  obtain ⟨⟨tr, k⟩, he, hx⟩ := Option.map_eq_some_iff.mp
    (show (exec Kernel.step (Kernel.initialized fun _ => 0)
        [.newThread 1, .start 1 0, .yield, .semP 0]).map
          (fun x => (x.2.members (.semQueue 0),
            x.1.map fun y => (y.2, y.1.currentThread))) =
        some ([1], [(.newThread 1, 0), (.start 1 0, 0), (.yield, 0), (.semP 0, 1)]) by decide)
  obtain ⟨hq, htr⟩ := Prod.mk.inj hx
  have hact : ∀ x ∈ tr, (x.2, x.1.currentThread) ∈
      [(Action.newThread 1, 0), (.start 1 0, 0), (.yield, 0), (.semP 0, 1)] := by
    intro x hx
    rw [← htr]
    exact List.mem_map_of_mem (f := fun y : Kernel × Action => (y.2, y.1.currentThread)) hx
  have hr := run_of_exec he
  refine ⟨tr, k, hr, hq, threads_conserved _ tr k hr ?_ 1 ?_ ?_⟩
  · rintro x hx c hc
    simpa [hc] using hact x hx
  · obtain ⟨x, hx, hx'⟩ := List.mem_map.mp
      (show (Action.start 1 0, 0) ∈ tr.map fun y => (y.2, y.1.currentThread) by rw [htr]; simp)
    exact Or.inr ⟨x, hx, 0, (Prod.mk.inj hx').1⟩
  · rintro ⟨x, hx, hf, -⟩
    simpa [hf] using hact x hx

end Kernel
end Nachos
