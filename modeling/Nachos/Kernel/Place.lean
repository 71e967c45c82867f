/-
  Nachos.Kernel.Place

  Where the threads are.  A started thread sits on the processor, on the ready
  list, or in the queue of one synchronization object, and every operation moves
  threads between these places.  `PlacedAt k loc` is the invariant: `loc` says
  where each thread is, the lists agree with it, and a thread in the queue of an
  object goes on inside the operation it called on that object.

  A thread that calls `Condition::Wait` leaves the processor and goes nowhere;
  in a run without `Wait` every started and unfinished thread is somewhere.
-/

import Nachos.Kernel.Step
import Nachos.Lib.Placement

namespace Nachos
namespace Kernel

open Placement Transition

/-- The places of a thread.  While the current thread is in the loop of
    `Thread::Sleep`, nobody is on the processor. -/
inductive Place where
  | cpu
  | ready
  | semQueue (s : SemId)
  | lockQueue (l : LockId)
  | condQueue (c : CondId)
deriving DecidableEq, Repr

def members (k : Kernel) : Place → List ThreadId
  | .cpu => if k.sleeping then [] else [k.currentThread]
  | .ready => k.readyList
  | .semQueue s => (k.semaphore s).queue
  | .lockQueue l => (k.lock l).sleepqueue
  | .condQueue c => (k.condition c).waitqueue

/-- A thread in the queue of an object goes on in the operation that put it
    there. -/
def Place.Fits : Place → Resume → Prop
  | .semQueue s, r => ∃ o, r = .semP s o
  | .lockQueue l, r => ∃ o, r = .lockAcquire l o
  | .condQueue c, r => ∃ o, r = .condWait c o
  | _, _ => True

/-- `loc` says where the started and unfinished threads are. -/
structure PlacedAt (k : Kernel) (loc : ThreadId → Option Place) : Prop where
  located : Located k.members loc
  alive : ∀ t p, loc t = some p → t ∈ k.alive
  nodup : k.alive.Nodup
  process : ∀ t ∈ k.alive, k.processOf t ≠ none
  fits : ∀ t p r, loc t = some p → k.resumeOf t = some r → p.Fits r

/-! ## Members after an update -/

theorem members_congr {k k' : Kernel} (hsl : k'.sleeping = k.sleeping)
    (hcur : k'.currentThread = k.currentThread) (hready : k'.readyList = k.readyList)
    (hsem : ∀ s, (k'.semaphore s).queue = (k.semaphore s).queue)
    (hlock : ∀ l, (k'.lock l).sleepqueue = (k.lock l).sleepqueue)
    (hcond : ∀ c, (k'.condition c).waitqueue = (k.condition c).waitqueue) :
    k'.members = k.members := by
  funext p
  cases p with
  | cpu => simp [members, hsl, hcur]
  | ready => exact hready
  | semQueue s => exact hsem s
  | lockQueue l => exact hlock l
  | condQueue c => exact hcond c

@[simp] theorem members_setSemaphore (k : Kernel) (s : SemId) (x : Semaphore) :
    (k.setSemaphore s x).members = Function.update k.members (.semQueue s) x.queue := by
  funext p
  cases p with
  | semQueue s' =>
      by_cases hs : s' = s
      · subst hs
        simp [members, setSemaphore]
      · simp [members, setSemaphore, hs]
  | _ => rfl

@[simp] theorem members_setLock (k : Kernel) (l : LockId) (x : Lock) :
    (k.setLock l x).members = Function.update k.members (.lockQueue l) x.sleepqueue := by
  funext p
  cases p with
  | lockQueue l' =>
      by_cases hl : l' = l
      · subst hl
        simp [members, setLock]
      · simp [members, setLock, hl]
  | _ => rfl

@[simp] theorem members_setCondition (k : Kernel) (c : CondId) (x : Condition) :
    (k.setCondition c x).members = Function.update k.members (.condQueue c) x.waitqueue := by
  funext p
  cases p with
  | condQueue c' =>
      by_cases hc : c' = c
      · subst hc
        simp [members, setCondition]
      · simp [members, setCondition, hc]
  | _ => rfl

/-- Replacing the ready list. -/
theorem members_readyList (k : Kernel) (ts : List ThreadId) :
    { k with readyList := ts }.members = Function.update k.members .ready ts := by
  funext p
  cases p <;> rfl

theorem members_asleep (k : Kernel) (r : Resume) :
    (k.asleep r).members = Function.update k.members .cpu [] := by
  funext p
  cases p <;> rfl

/-- A switch puts the next thread on the processor. -/
theorem Switched.members {k k' : Kernel} {t : ThreadId} {r : Resume} (h : Switched k t r k') :
    k'.members = Function.update k.members .cpu [t] := by
  funext p
  cases p with
  | cpu => simp [Kernel.members, h.sleeping, h.currentThread]
  | ready => exact h.readyList
  | semQueue s => simp [Kernel.members, h.semaphore]
  | lockQueue l => simp [Kernel.members, h.lock]
  | condQueue c => simp [Kernel.members, h.condition]

/-! ## Taking an item off the list of existing threads -/

theorem removeItem_perm {x : ThreadId} {seen l l' : List ThreadId}
    (h : removeItem x seen l = some l') : (seen ++ l).Perm (x :: l') := by
  induction l generalizing seen with
  | nil => simp [removeItem] at h
  | cons y rest ih =>
      rw [removeItem] at h
      split at h
      · rename_i hy
        obtain rfl := Option.some.inj h
        subst hy
        exact List.perm_middle.trans (List.Perm.cons y List.perm_append_comm)
      · have := ih h
        rwa [List.append_assoc, List.singleton_append] at this

/-- A thread taken off the list once is not on it any more. -/
theorem removeItem_nodup {x : ThreadId} {l l' : List ThreadId} (hl : l.Nodup)
    (h : removeItem x [] l = some l') : l'.Nodup ∧ ∀ t, t ∈ l' ↔ t ∈ l ∧ t ≠ x := by
  have hp : l.Perm (x :: l') := by simpa using removeItem_perm h
  have hn : (x :: l').Nodup := hp.nodup_iff.mp hl
  obtain ⟨hx, hl'⟩ := List.nodup_cons.mp hn
  refine ⟨hl', fun t => ?_⟩
  rw [hp.mem_iff, List.mem_cons]
  constructor
  · intro ht
    exact ⟨Or.inr ht, fun he => hx (he ▸ ht)⟩
  · rintro ⟨rfl | ht, hne⟩
    · exact absurd rfl hne
    · exact ht

/-! ## Moves -/

/-- What a step does to the places: the invariant is kept, and a thread that is
    nowhere stays there, unchanged. -/
structure Moved (k k' : Kernel) (loc loc' : ThreadId → Option Place) : Prop where
  placed : PlacedAt k' loc'
  lost : ∀ t ∈ k.alive, loc t = none →
    t ∈ k'.alive ∧ loc' t = none ∧ k'.resumeOf t = k.resumeOf t

/-- No thread gets lost in the step. -/
def Kept (k k' : Kernel) (loc loc' : ThreadId → Option Place) : Prop :=
  ∀ t ∈ k'.alive, loc' t = none → t ∈ k.alive ∧ loc t = none

theorem Moved.trans {k₁ k₂ k₃ : Kernel} {loc₁ loc₂ loc₃ : ThreadId → Option Place}
    (h : Moved k₁ k₂ loc₁ loc₂) (h' : Moved k₂ k₃ loc₂ loc₃) : Moved k₁ k₃ loc₁ loc₃ := by
  refine ⟨h'.placed, fun t ht hn => ?_⟩
  obtain ⟨ht₂, hn₂, hr₂⟩ := h.lost t ht hn
  obtain ⟨ht₃, hn₃, hr₃⟩ := h'.lost t ht₂ hn₂
  exact ⟨ht₃, hn₃, hr₃.trans hr₂⟩

theorem Kept.trans {k₁ k₂ k₃ : Kernel} {loc₁ loc₂ loc₃ : ThreadId → Option Place}
    (h : Kept k₁ k₂ loc₁ loc₂) (h' : Kept k₂ k₃ loc₂ loc₃) : Kept k₁ k₃ loc₁ loc₃ := by
  intro t ht hn
  obtain ⟨ht₂, hn₂⟩ := h' t ht hn
  exact h t ht₂ hn₂

/-- A step that leaves the existing threads alone and moves `t` somewhere keeps
    the others. -/
theorem Kept.update {k k' : Kernel} {loc : ThreadId → Option Place} {t : ThreadId} {p : Place}
    (ha : k'.alive = k.alive) : Kept k k' loc (Function.update loc t (some p)) := by
  intro u hu hnone
  by_cases hut : u = t
  · subst hut
    simp at hnone
  · rw [Function.update_of_ne hut] at hnone
    exact ⟨ha ▸ hu, hnone⟩

namespace PlacedAt

variable {k k' : Kernel} {loc : ThreadId → Option Place}

/-- The running thread is alive, and the only one on the processor. -/
theorem loc_current (h : PlacedAt k loc) (hrun : k.sleeping = false) :
    loc k.currentThread = some .cpu :=
  h.located.loc_of_mem (by simp [members, hrun])

theorem current_alive (h : PlacedAt k loc) (hrun : k.sleeping = false) :
    k.currentThread ∈ k.alive :=
  h.alive _ _ (h.loc_current hrun)

/-- Nothing moves. -/
theorem stay (h : PlacedAt k loc) (hm : k'.members = k.members) (ha : k'.alive = k.alive)
    (hr : ∀ t ∈ k.alive, k'.resumeOf t = k.resumeOf t)
    (hp : ∀ t ∈ k.alive, k'.processOf t = k.processOf t) : Moved k k' loc loc := by
  refine ⟨⟨hm ▸ h.located, fun t p ht => ha ▸ h.alive t p ht, ha ▸ h.nodup, ?_, ?_⟩, ?_⟩
  · intro t ht
    rw [ha] at ht
    rw [hp t ht]
    exact h.process t ht
  · intro t p r ht hres
    rw [hr t (h.alive t p ht)] at hres
    exact h.fits t p r ht hres
  · intro t ht hl
    exact ⟨ha ▸ ht, hl, hr t ht⟩

theorem setStatus (h : PlacedAt k loc) (now : IntStatus) : PlacedAt (k.setStatus now) loc := by
  have hm : Moved k (k.setStatus now) loc loc :=
    h.stay rfl rfl (fun _ _ => rfl) (fun _ _ => rfl)
  exact hm.placed

/-- The first thread of the queue `p` goes to the end of the ready list. -/
theorem wake (h : PlacedAt k loc) {p : Place} {t : ThreadId} {rest : List ThreadId}
    (hpr : p ≠ .ready) (hq : k.members p = t :: rest)
    (hm : k'.members =
      Function.update (Function.update k.members p rest) .ready (k.readyList ++ [t]))
    (ha : k'.alive = k.alive) (hth : k'.thread = k.thread) :
    Moved k k' loc (Function.update loc t (some .ready)) := by
  have hloc : loc t = some p := h.located.loc_of_mem (by rw [hq]; exact List.mem_cons_self)
  have hres : ∀ u, k'.resumeOf u = k.resumeOf u := fun u => by simp [resumeOf, hth]
  have hpush := (h.located.pop hq).push (t := t) Place.ready (by simp)
  rw [Function.update_of_ne (Ne.symm hpr), Function.update_idem] at hpush
  refine ⟨⟨?_, ?_, ha ▸ h.nodup, ?_, ?_⟩, ?_⟩
  · rw [hm]
    exact hpush
  · intro u q hu
    rw [ha]
    by_cases hut : u = t
    · exact hut ▸ h.alive t p hloc
    · rw [Function.update_of_ne hut] at hu
      exact h.alive u q hu
  · intro u hu
    rw [ha] at hu
    have := h.process u hu
    simpa [processOf, hth] using this
  · intro u q r hu hr
    rw [hres] at hr
    by_cases hut : u = t
    · subst hut
      rw [Function.update_self] at hu
      obtain rfl := Option.some.inj hu
      trivial
    · rw [Function.update_of_ne hut] at hu
      exact h.fits u q r hu hr
  · intro u hu hnone
    have hut : u ≠ t := fun he => by simp [he, hloc] at hnone
    exact ⟨ha ▸ hu, by rw [Function.update_of_ne hut]; exact hnone, hres u⟩

/-- The running thread goes to sleep at the end of the queue `p`. -/
theorem block (h : PlacedAt k loc) (hrun : k.sleeping = false) {p : Place} {r : Resume}
    (hpc : p ≠ .cpu) (hfit : p.Fits r)
    (hm : k'.members = Function.update (Function.update k.members .cpu []) p
      (k.members p ++ [k.currentThread]))
    (ha : k'.alive = k.alive)
    (hth : k'.thread = (k.saveResume k.currentThread r).thread) :
    Moved k k' loc (Function.update loc k.currentThread (some p)) := by
  have hloc := h.loc_current hrun
  have hcpu : k.members .cpu = [k.currentThread] := by simp [members, hrun]
  have hres : ∀ u, k'.resumeOf u = (k.saveResume k.currentThread r).resumeOf u :=
    fun u => by simp only [resumeOf, hth]
  have hpush := (h.located.pop hcpu).push (t := k.currentThread) p (by simp)
  rw [Function.update_of_ne hpc, Function.update_idem] at hpush
  refine ⟨⟨?_, ?_, ha ▸ h.nodup, ?_, ?_⟩, ?_⟩
  · rw [hm]
    exact hpush
  · intro u q hu
    rw [ha]
    by_cases hut : u = k.currentThread
    · exact hut ▸ h.current_alive hrun
    · rw [Function.update_of_ne hut] at hu
      exact h.alive u q hu
  · intro u hu
    rw [ha] at hu
    have hp := processOf_saveResume k k.currentThread u r
    rw [show k'.processOf u = (k.saveResume k.currentThread r).processOf u by
      simp only [processOf, hth], hp]
    exact h.process u hu
  · intro u q r' hu hr
    rw [hres, resumeOf_saveResume] at hr
    by_cases hut : u = k.currentThread
    · subst hut
      rw [Function.update_self] at hu
      obtain rfl := Option.some.inj hu
      rw [if_pos rfl] at hr
      obtain ⟨_, _, rfl⟩ := Option.map_eq_some_iff.mp hr
      exact hfit
    · rw [Function.update_of_ne hut] at hu
      rw [if_neg hut] at hr
      exact h.fits u q r' hu hr
  · intro u hu hnone
    have hut : u ≠ k.currentThread := fun he => by simp [he, hloc] at hnone
    refine ⟨ha ▸ hu, by rw [Function.update_of_ne hut]; exact hnone, ?_⟩
    rw [hres, resumeOf_saveResume, if_neg hut]

/-- The running thread goes to sleep in no queue, as `Wait` and `Finish` do; the
    other threads stay alive. -/
theorem leave (h : PlacedAt k loc) (hrun : k.sleeping = false) {r : Resume}
    (hm : k'.members = Function.update k.members .cpu [])
    (hnd : k'.alive.Nodup) (hsub : ∀ t, t ∈ k'.alive → t ∈ k.alive)
    (hrest : ∀ t ∈ k.alive, t ≠ k.currentThread → t ∈ k'.alive)
    (hth : k'.thread = (k.saveResume k.currentThread r).thread) :
    Moved k k' loc (Function.update loc k.currentThread none) := by
  have hloc := h.loc_current hrun
  have hcpu : k.members .cpu = [k.currentThread] := by simp [members, hrun]
  have hres : ∀ u, k'.resumeOf u = (k.saveResume k.currentThread r).resumeOf u :=
    fun u => by simp only [resumeOf, hth]
  refine ⟨⟨?_, ?_, hnd, ?_, ?_⟩, ?_⟩
  · rw [hm]
    exact h.located.pop hcpu
  · intro u q hu
    by_cases hut : u = k.currentThread
    · simp [hut] at hu
    · rw [Function.update_of_ne hut] at hu
      exact hrest u (h.alive u q hu) hut
  · intro u hu
    rw [show k'.processOf u = (k.saveResume k.currentThread r).processOf u by
      simp only [processOf, hth], processOf_saveResume]
    exact h.process u (hsub u hu)
  · intro u q r' hu hr
    by_cases hut : u = k.currentThread
    · simp [hut] at hu
    · rw [Function.update_of_ne hut] at hu
      rw [hres, resumeOf_saveResume, if_neg hut] at hr
      exact h.fits u q r' hu hr
  · intro u hu hnone
    have hut : u ≠ k.currentThread := fun he => by simp [he, hloc] at hnone
    refine ⟨hrest u hu hut, by rw [Function.update_of_ne hut]; exact hnone, ?_⟩
    rw [hres, resumeOf_saveResume, if_neg hut]

/-- The loop of `Sleep` hands the processor to the head of the ready list. -/
theorem dispatch (h : PlacedAt k loc) (hsleep : k.sleeping = true) {t : ThreadId}
    {rest : List ThreadId} (hready : k.readyList = t :: rest) {r : Resume}
    (hs : Switched { k with readyList := rest } t r k') :
    Moved k k' loc (Function.update loc t (some .cpu)) := by
  have hloc : loc t = some .ready :=
    h.located.loc_of_mem (show t ∈ k.readyList by rw [hready]; exact List.mem_cons_self)
  have hpush := (h.located.pop (p := Place.ready) hready).push (t := t) .cpu (by simp)
  have hcpu : k.members .cpu = [] := by simp [members, hsleep]
  rw [Function.update_of_ne (by simp), hcpu, Function.update_idem, List.nil_append] at hpush
  refine ⟨⟨?_, ?_, ?_, ?_, ?_⟩, ?_⟩
  · rw [hs.members, members_readyList]
    exact hpush
  · intro u q hu
    rw [hs.alive]
    by_cases hut : u = t
    · exact hut ▸ h.alive t .ready hloc
    · rw [Function.update_of_ne hut] at hu
      exact h.alive u q hu
  · rw [hs.alive]
    exact h.nodup
  · intro u hu
    rw [hs.alive] at hu
    rw [hs.processOf]
    exact h.process u hu
  · intro u q r' hu hr
    rw [hs.resumeOf] at hr
    by_cases hut : u = t
    · subst hut
      rw [Function.update_self] at hu
      obtain rfl := Option.some.inj hu
      trivial
    · rw [Function.update_of_ne hut] at hu
      exact h.fits u q r' hu hr
  · intro u hu hnone
    have hut : u ≠ t := fun he => by simp [he, hloc] at hnone
    exact ⟨hs.alive ▸ hu, by rw [Function.update_of_ne hut]; exact hnone, hs.resumeOf u⟩

/-- `Yield` puts the running thread behind the others that are ready. -/
theorem yieldReady (h : PlacedAt k loc) (hrun : k.sleeping = false) (r : Resume) :
    Moved k (asleep { k with readyList := k.readyList ++ [k.currentThread] } r) loc
      (Function.update loc k.currentThread (some .ready)) := by
  refine h.block (r := r) hrun (by simp) trivial ?_ rfl rfl
  rw [members_asleep, members_readyList, Function.update_comm (by simp)]
  simp [members]

/-- A thread starts. -/
theorem start (h : PlacedAt k loc) {t : ThreadId} (hnot : t ∉ k.alive)
    (hm : k'.members = Function.update k.members .ready (k.readyList ++ [t]))
    (ha : k'.alive = k.alive ++ [t]) (hp : k'.processOf t ≠ none)
    (hres : ∀ u, u ≠ t → k'.resumeOf u = k.resumeOf u)
    (hproc : ∀ u, u ≠ t → k'.processOf u = k.processOf u) :
    Moved k k' loc (Function.update loc t (some .ready)) := by
  have hloc : loc t = none := by
    cases hl : loc t with
    | none => rfl
    | some p => exact absurd (h.alive t p hl) hnot
  refine ⟨⟨?_, ?_, ?_, ?_, ?_⟩, ?_⟩
  · rw [hm]
    exact h.located.push .ready hloc
  · intro u q hu
    rw [ha, List.mem_append, List.mem_singleton]
    by_cases hut : u = t
    · exact Or.inr hut
    · rw [Function.update_of_ne hut] at hu
      exact Or.inl (h.alive u q hu)
  · rw [ha, List.nodup_append]
    refine ⟨h.nodup, List.nodup_singleton t, fun a hat b hb hab => ?_⟩
    exact hnot (List.mem_singleton.mp hb ▸ hab ▸ hat)
  · intro u hu
    by_cases hut : u = t
    · exact hut ▸ hp
    · rw [ha, List.mem_append, List.mem_singleton] at hu
      rw [hproc u hut]
      exact h.process u (hu.resolve_right hut)
  · intro u q r hu hr
    by_cases hut : u = t
    · subst hut
      rw [Function.update_self] at hu
      obtain rfl := Option.some.inj hu
      trivial
    · rw [Function.update_of_ne hut] at hu
      rw [hres u hut] at hr
      exact h.fits u q r hu hr
  · intro u hu hnone
    have hut : u ≠ t := fun he => hnot (he ▸ hu)
    refine ⟨?_, by rw [Function.update_of_ne hut]; exact hnone, hres u hut⟩
    rw [ha]
    exact List.mem_append_left _ hu

/-- `V` wakes the first waiter, if there is one. -/
theorem semV (h : PlacedAt k loc) (s : SemId) :
    ∃ loc', Moved k (k.semV s) loc loc' ∧ Kept k (k.semV s) loc loc' := by
  rw [semV_eq]
  cases hq : (k.semaphore s).queue with
  | nil =>
      refine ⟨loc, h.stay ?_ rfl (fun _ _ => rfl) (fun _ _ => rfl), fun t ht hn => ⟨ht, hn⟩⟩
      rw [List.head?_nil, Option.toList_none, List.append_nil, List.tail_nil]
      change (k.setSemaphore s ⟨_, []⟩).members = _
      rw [members_setSemaphore]
      exact Function.update_eq_self_iff.mpr hq.symm
  | cons t rest =>
      refine ⟨_, h.wake (p := .semQueue s) (by simp) hq ?_ rfl rfl, Kept.update rfl⟩
      simp only [List.head?_cons, Option.toList_some, List.tail_cons]
      rw [members_readyList, members_setSemaphore]

theorem handlers (h : PlacedAt k loc) (vs : List SemId) :
    ∃ loc', Moved k (k.handlers vs) loc loc' ∧ Kept k (k.handlers vs) loc loc' := by
  induction vs generalizing k loc with
  | nil => exact ⟨loc, h.stay rfl rfl (fun _ _ => rfl) (fun _ _ => rfl), fun t ht hn => ⟨ht, hn⟩⟩
  | cons s vs ih =>
      obtain ⟨loc₁, hm₁, hk₁⟩ := h.semV s
      obtain ⟨loc₂, hm₂, hk₂⟩ := ih hm₁.placed
      exact ⟨loc₂, hm₁.trans hm₂, hk₁.trans hk₂⟩

end PlacedAt

end Kernel
end Nachos
