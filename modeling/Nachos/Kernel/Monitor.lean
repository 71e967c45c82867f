/-
  Nachos.Kernel.Monitor

  The rule of the monitor.  A critical section protects some data: an invariant of the data
  holds while nobody is in the section, the thread that comes in finds it, may break it there,
  and restores it before it calls `Release`.  What holds at each place of the section is an
  assertion about the data, and it is enough to check the instructions one by one, as if the
  thread were alone.

  The second half is about threads that cannot go on: a thread in the routines runs, or is
  ready, or waits for an object of the driver, and who waits for a lock waits for a thread in
  the section.
-/

import Mathlib.Algebra.Order.BigOperators.Group.Finset
import Nachos.Kernel.Critical

namespace Nachos
namespace Kernel

open Transition

variable {δ π ε : Type} {inside : π → Prop} {lock : LockId} {m m' m₀ : Driven δ π}
  {x : Move π ε} {tr : List (Driven δ π × Move π ε)} {t : ThreadId}

/-! ## Assertions about the data of a section -/

/-- `view` is the data of a section, read off the run so far; `inv` is its invariant, and
    `assert` what holds when the thread in the section comes to a place. -/
structure Monitor {β : Type} (D : Driver δ π ε) (lock : LockId) (inside first : π → Prop)
    (m₀ : Driven δ π) (view : List (Driven δ π × Move π ε) → Driven δ π → β)
    (inv : β → Prop) (assert : π → β → Prop) : Prop where
  /-- `Acquire` comes back to the first place. -/
  arrives : ∀ {t p d d' q}, D.next t p d = some (some (.lockAcquire lock), d', q) →
    ∃ p', q = some p' ∧ first p'
  initial : inv (view [] m₀)
  /-- Nobody else touches the data. -/
  frame : ∀ {tr m x m'}, Run D.step m₀ tr m → D.step m x = some m' →
    ¬ (x = .advance ∧ Inside inside m m.kernel.currentThread) →
      view (tr ++ [(m, x)]) m' = view tr m
  enters : ∀ {p v}, first p → inv v → assert p v
  /-- An instruction in the section. -/
  goes : ∀ {tr m m' p a d q}, D.step m .advance = some m' →
    m.pc m.kernel.currentThread = some p → inside p →
    D.next m.kernel.currentThread p m.device = some (a, d, some q) → inside q →
    D.kernelAction m .advance = a → m'.device = d →
    assert p (view tr m) → assert q (view (tr ++ [(m, .advance)]) m')
  leaves : ∀ {tr m m' p d q}, D.step m .advance = some m' →
    m.pc m.kernel.currentThread = some p →
    D.next m.kernel.currentThread p m.device = some (some (.lockRelease lock), d, q) →
    D.kernelAction m .advance = some (.lockRelease lock) → m'.device = d →
    assert p (view tr m) → inv (view (tr ++ [(m, .advance)]) m')

namespace Monitor

variable {β : Type} {D : Driver δ π ε} {first : π → Prop}
  {view : List (Driven δ π × Move π ε) → Driven δ π → β} {inv : β → Prop}
  {assert : π → β → Prop}

/-- The assertion holds where the thread in the section is; the invariant, when nobody is. -/
structure Law (lock : LockId) (inside : π → Prop) (inv : β → Prop) (assert : π → β → Prop)
    (m : Driven δ π) (v : β) : Prop where
  owner : ∀ t p, Critical inside lock m t → m.pc t = some p → assert p v
  nobody : (∀ t, ¬ Critical inside lock m t) → inv v

variable (M : Monitor D lock inside first m₀ view inv assert) (B : Brackets D lock inside)
  {initialValue : SemId → Int} (hk : m₀.kernel = initialized initialValue)
  (hpc : ∀ t, m₀.pc t = none)

include M B hk hpc

omit hpc in
/-- A thread that comes into the section is at its first place. -/
theorem first_of_enters (hr : Run D.step m₀ tr m) (hs : D.step m x = some m')
    (hout : ¬ Critical inside lock m t) (hin : Critical inside lock m' t) :
    Inside first m' t := by
  obtain ⟨loc, hplaced, -⟩ := (scheduled_of_run (hk ▸ D.kernel_run hr)).placed
  obtain ⟨⟨p', hp', hpin⟩, -⟩ := hin
  rcases Driver.pc_of_step hs t with hsame | ⟨hrun, hcur, ⟨p, -, -, hentry, hp, -⟩ |
    ⟨p, a, d, q, -, hp, hn, hq, -⟩⟩
  · -- it was on its way
    have hacq : InAcquire lock m.kernel t := by
      by_contra hnot
      exact hout ⟨⟨p', hsame.symm.trans hp', hpin⟩, hnot⟩
    obtain ⟨p, hp, hfirst⟩ := Driver.place_of_inAcquire B.mem M.arrives hk hr t hacq
    exact ⟨p, hsame.trans hp, hfirst⟩
  · obtain rfl := Option.some.inj (hp.symm.trans hp')
    exact absurd hpin (B.entry _ hentry)
  · by_cases hpin₀ : inside p
    · -- a thread that runs is not in `Acquire`
      exfalso
      refine hout ⟨⟨p, hp, hpin₀⟩, ?_⟩
      rw [hcur]
      exact (hplaced.current_not_in (s := 0) hrun).2
    · rw [hq.symm.trans hp'] at hn
      obtain rfl := B.enters hn hpin₀ hpin
      obtain ⟨p'', he, hfirst⟩ := M.arrives hn
      obtain rfl := Option.some.inj he
      exact ⟨p', hp', hfirst⟩

theorem Law.step (h : Law lock inside inv assert m (view tr m)) (hr : Run D.step m₀ tr m)
    (hs : D.step m x = some m') :
    Law lock inside inv assert m' (view (tr ++ [(m, x)]) m') := by
  by_cases hout : x = .advance ∧ Inside inside m m.kernel.currentThread
  · -- the running thread goes on in the section
    obtain ⟨rfl, p, hp, hin⟩ := hout
    obtain ⟨-, a, heff, hka, -⟩ := D.step_eq hs
    obtain ⟨hrun, p', b, d, q, hp', hn, he⟩ := Driver.effect_advance heff
    obtain rfl := Option.some.inj (hp.symm.trans hp')
    obtain ⟨rfl, hx⟩ := Prod.mk.inj he
    obtain ⟨hd, hpc'⟩ := Prod.mk.inj hx
    have hcrit : Critical inside lock m m.kernel.currentThread :=
      Brackets.current hk hr hrun ⟨p, hp, hin⟩
    have hassert := h.owner _ p hcrit hp
    have hcur : m'.pc m.kernel.currentThread = q := by
      rw [hpc', Function.update_self]
    rcases B.step_cases hk hpc hr hs with hsame | ⟨t, hnone, -⟩ | ⟨hrel, -, hnone⟩
    · obtain ⟨⟨q', hq', hqin⟩, -⟩ := (hsame _).mpr hcrit
      obtain rfl := hcur.symm.trans hq'
      refine ⟨fun t p' ht hpt => ?_, fun hnone => absurd ((hsame _).mpr hcrit) (hnone _)⟩
      obtain rfl := B.unique hk hpc hr ((hsame t).mp ht) hcrit
      obtain rfl := Option.some.inj (hq'.symm.trans hpt)
      exact M.goes hs hp hin hn hqin hka hd hassert
    · exact absurd hcrit (hnone _)
    · obtain rfl : a = some (.lockRelease lock) := hka.symm.trans hrel
      exact ⟨fun t _ ht => absurd ht (hnone t), fun _ => M.leaves hs hp hn hka hd hassert⟩
  · rw [M.frame hr hs hout]
    rcases B.step_cases hk hpc hr hs with hsame | ⟨t, hnone, hnew⟩ | ⟨hrel, ⟨hin, -⟩, -⟩
    · refine ⟨fun t p ht hp => ?_, fun hnone => h.nobody fun t hc => hnone t ((hsame t).mpr hc)⟩
      have hbefore := (hsame t).mp ht
      obtain ⟨p', hp', hpin'⟩ := hbefore.1
      rcases Driver.pc_of_step hs t with hstay | ⟨-, hcur, ⟨-, -, hnone, -⟩ |
        ⟨-, -, -, -, hx, -⟩⟩
      · exact h.owner t p hbefore (hstay.symm.trans hp)
      · rw [hp'] at hnone
        cases hnone
      · exact absurd ⟨hx, hcur ▸ hbefore.1⟩ hout
    · -- a thread comes in, and finds the invariant
      refine ⟨fun u p hu hp => ?_, fun hnone' => absurd ((hnew t).mpr rfl) (hnone' t)⟩
      obtain ⟨p', hp', hfirst⟩ := M.first_of_enters B hk hr hs (hnone u) hu
      obtain rfl := Option.some.inj (hp'.symm.trans hp)
      exact M.enters hfirst (h.nobody hnone)
    · obtain ⟨-, p, d, q, hp, hn, -, hx⟩ :=
        Driver.kernelAction_inside hs hrel (Or.inl ⟨lock, B.mem, Or.inr rfl⟩)
      exact absurd ⟨hx, hin⟩ hout

/-- The rule: the law holds in every state of every run. -/
theorem of_run (hr : Run D.step m₀ tr m) : Law lock inside inv assert m (view tr m) := by
  induction hr with
  | nil =>
      refine ⟨fun t p ht _ => ?_, fun _ => M.initial⟩
      obtain ⟨⟨p', hp', -⟩, -⟩ := ht
      rw [hpc t] at hp'
      cases hp'
  | snoc hr hs ih => exact Law.step M B hk hpc ih hr hs

end Monitor

/-! ## Who has the lock -/

/-- What a step does to the owner of a lock and to its queue. -/
theorem Step.owner_cases {k k' : Kernel} {a : Action} (hs : Step k a k') (l : LockId) :
    a ≠ .lockRelease l ∧ k'.lock l = k.lock l ∨
      a = .lockAcquire l ∧ ((k.lock l).free = true ∧
          (k'.lock l).owner = some k.currentThread ∧
          (k'.lock l).sleepqueue = (k.lock l).sleepqueue ∨
        (k'.lock l).owner = (k.lock l).owner ∧
          (k'.lock l).sleepqueue = (k.lock l).sleepqueue ++ [k.currentThread]) ∨
      a = .lockRelease l ∧ (k'.lock l).owner = (k.lock l).sleepqueue.head? ∧
        (k'.lock l).sleepqueue = (k.lock l).sleepqueue.tail := by
  by_cases hrel : a = .lockRelease l
  · subst hrel
    refine Or.inr (Or.inr ⟨rfl, ?_⟩)
    cases hs with
    | call hrun hc =>
        cases hc with
        | lockFree ho hq => simp [setLock, hq]
        | lockPass ho hq => simp [setLock, readyToRun, hq]
  · by_cases hacq : a = .lockAcquire l
    · subst hacq
      refine Or.inr (Or.inl ⟨rfl, ?_⟩)
      cases hs with
      | call hrun hc =>
          cases hc with
          | lockTake hf => exact Or.inl ⟨hf, by simp [setLock], by simp [setLock]⟩
          | lockBlock hf =>
              exact Or.inr ⟨by simp [setLock, asleep, saveResume],
                by simp [setLock, asleep, saveResume]⟩
    · refine Or.inl ⟨hrel, ?_⟩
      by_cases hret : returnsInAcquire l (returning k a) = true
      · -- a thread that comes back has the lock already
        cases hs with
        | call hrun hc =>
            cases hc with
            | yieldTo hr hsw =>
                obtain ⟨r, hsw⟩ := switchTo_switched hsw
                exact congrFun hsw.lock l
            | yieldAlone hr => rfl
            | _ => simp [returning, switched, returnsInAcquire] at hret
        | dispatch hsleep hready hsw =>
            obtain ⟨r, hsw⟩ := switchTo_switched hsw
            exact congrFun hsw.lock l
        | _ => simp [returning, switched, returnsInAcquire] at hret
      · exact hs.lock_apart ⟨hacq, hrel, by simpa using hret⟩

namespace Brackets

variable {D : Driver δ π ε}

/-- Only `Release` takes a thread out of the section. -/
theorem stays_inside (B : Brackets D lock inside) (hs : D.step m x = some m')
    (hin : Inside inside m t)
    (hne : ¬ (D.kernelAction m x = some (.lockRelease lock) ∧ t = m.kernel.currentThread)) :
    Inside inside m' t := by
  obtain ⟨p, hp, hpin⟩ := hin
  rcases Driver.pc_of_step hs t with hsame | ⟨-, hcur, ⟨-, -, hnone, -⟩ |
    ⟨p', a, d, q, -, hp', hn, hq, hka⟩⟩
  · exact ⟨p, hsame.trans hp, hpin⟩
  · rw [hp] at hnone
    cases hnone
  · obtain rfl := Option.some.inj (hp'.symm.trans hp)
    by_contra hout
    refine hne ⟨hka.trans (B.leaves hn hpin fun q' hq' hin' => hout ⟨q', ?_, hin'⟩), hcur⟩
    exact hq.trans hq'

/-- The owner of the lock is in the section, and does not wait for the lock. -/
theorem owner_of_run {first : π → Prop} (B : Brackets D lock inside)
    (harrives : ∀ {t p d d' q}, D.next t p d = some (some (.lockAcquire lock), d', q) →
      ∃ p', q = some p' ∧ first p')
    (hfirst : ∀ p, first p → inside p) {initialValue : SemId → Int}
    (hk : m₀.kernel = initialized initialValue) (hr : Run D.step m₀ tr m) :
    ∀ t, (m.kernel.lock lock).owner = some t →
      Inside inside m t ∧ t ∉ (m.kernel.lock lock).sleepqueue := by
  induction hr with
  | nil =>
      intro t ht
      rw [hk] at ht
      cases ht
  | @snoc tr m m' x hr hs ih =>
      have hrunk := hk ▸ D.kernel_run hr
      obtain ⟨loc, hplaced, -⟩ := (scheduled_of_run hrunk).placed
      obtain ⟨pend, hlock⟩ := lockInv_of_run hrunk lock
      obtain ⟨-, oa, -, hka, hkern⟩ := D.step_eq hs
      intro t ht
      rcases hkern with ⟨rfl, hsame⟩ | ⟨b, rfl, hstep⟩
      · rw [hsame] at ht ⊢
        obtain ⟨hin, hq⟩ := ih t ht
        exact ⟨B.stays_inside hs hin (by simp [hka]), hq⟩
      · rcases hstep.owner_cases lock with ⟨hrel, hsame⟩ |
          ⟨rfl, ⟨hfree, howner, hqueue⟩ | ⟨howner, hqueue⟩⟩ | ⟨rfl, howner, hqueue⟩
        · -- the lock is as it was
          rw [hsame] at ht ⊢
          obtain ⟨hin, hq⟩ := ih t ht
          refine ⟨B.stays_inside hs hin ?_, hq⟩
          rw [hka]
          exact fun hc => hrel (Option.some.inj hc.1)
        · -- the running thread takes it
          obtain rfl := Option.some.inj (howner.symm.trans ht)
          obtain ⟨-, p, d, q, -, hn, hq, -⟩ :=
            Driver.kernelAction_inside hs hka (Or.inl ⟨lock, B.mem, Or.inl rfl⟩)
          obtain ⟨p', rfl, hp'⟩ := harrives hn
          refine ⟨⟨p', hq, hfirst p' hp'⟩, ?_⟩
          rw [hqueue, hlock.free_empty hfree]
          exact List.not_mem_nil
        · -- it waits behind the others
          obtain ⟨-, p, d, q, hp, hn, -⟩ :=
            Driver.kernelAction_inside hs hka (Or.inl ⟨lock, B.mem, Or.inl rfl⟩)
          obtain ⟨hin, hq⟩ := ih t (howner.symm.trans ht)
          refine ⟨B.stays_inside hs hin (by simp [hka]), ?_⟩
          rw [hqueue, List.mem_append, List.mem_singleton]
          rintro (hmem | rfl)
          · exact hq hmem
          · obtain ⟨p', hp', hpin⟩ := hin
            obtain rfl := Option.some.inj (hp.symm.trans hp')
            exact B.acquirer hn hpin
        · -- the first of the queue has it now
          have hmem : t ∈ (m.kernel.lock lock).sleepqueue :=
            List.mem_of_mem_head? (howner.symm.trans ht)
          have hne : t ≠ m.kernel.currentThread := by
            rintro rfl
            obtain ⟨hrun, -⟩ :=
              Driver.kernelAction_inside hs hka (Or.inl ⟨lock, B.mem, Or.inr rfl⟩)
            exact (hplaced.current_not_in (s := 0) hrun).2 (Or.inl hmem)
          obtain ⟨p, hp, hpf⟩ :=
            Driver.place_of_inAcquire B.mem harrives hk hr t (Or.inl hmem)
          refine ⟨B.stays_inside hs ⟨p, hp, hfirst p hpf⟩ fun hc => hne hc.2, ?_⟩
          have hnodup : (m.kernel.lock lock).sleepqueue.Nodup :=
            hplaced.located.nodup (.lockQueue lock)
          rw [hqueue]
          rw [howner] at ht
          obtain ⟨rest, hrest⟩ := List.head?_eq_some_iff.mp ht
          rw [hrest] at hnodup ⊢
          exact (List.nodup_cons.mp hnodup).1

end Brackets

/-! ## Threads that can go on -/

/-- The thread runs, or is ready to. -/
def Active (k : Kernel) (t : ThreadId) : Prop :=
  k.sleeping = false ∧ t = k.currentThread ∨ t ∈ k.readyList

/-- The thread waits for one of the objects. -/
def Blocked (sems : List SemId) (locks : List LockId) (k : Kernel) (t : ThreadId) : Prop :=
  (∃ s ∈ sems, t ∈ (k.semaphore s).queue) ∨ ∃ l ∈ locks, t ∈ (k.lock l).sleepqueue

section Active

variable {k k' : Kernel} {a : Action} {sems : List SemId} {locks : List LockId}

/-- A thread that is switched to runs. -/
theorem Step.runs_of_switched (hs : Step k a k') (h : switched k a = some t) : Active k' t := by
  cases hs with
  | call hrun hc =>
      cases hc with
      | yieldTo hr hsw =>
          obtain ⟨r, hsw⟩ := switchTo_switched hsw
          simp only [switched, hr, List.head?_cons, Option.some.injEq] at h
          exact Or.inl ⟨hsw.sleeping, h ▸ hsw.currentThread.symm⟩
      | yieldAlone hr => simp [switched, hr] at h
      | _ => simp [switched] at h
  | dispatch hsleep hr hsw =>
      obtain ⟨r, hsw⟩ := switchTo_switched hsw
      simp only [switched, hr, List.head?_cons, Option.some.injEq] at h
      exact Or.inl ⟨hsw.sleeping, h ▸ hsw.currentThread.symm⟩
  | _ => simp [switched] at h

/-- The calls that keep the running thread running, or ready, or waiting for one of the
    objects. -/
def Harmless (sems : List SemId) (locks : List LockId) : Action → Prop
  | .semP s => s ∈ sems
  | .lockAcquire l => l ∈ locks
  | .condWait _ => False
  | .finish => False
  | _ => True

/-- Nobody gets lost in a step. -/
theorem Step.active_or_blocked (hs : Step k a k')
    (hcall : k.sleeping = false → t = k.currentThread → Harmless sems locks a)
    (h : Active k t ∨ Blocked sems locks k t) :
    Active k' t ∨ Blocked sems locks k' t := by
  rcases h with (⟨hrun, rfl⟩ | hready) | ⟨s, hmem, hq⟩ | ⟨l, hmem, hq⟩
  · have hcall := hcall hrun rfl
    cases hs with
    | call _ hc =>
        cases hc with
        | semPBlock h =>
            exact Or.inr (Or.inl ⟨_, hcall, by simp [asleep, saveResume, setSemaphore]⟩)
        | lockBlock h => exact Or.inr (Or.inr ⟨_, hcall, by simp [asleep, saveResume, setLock]⟩)
        | yieldTo hr hsw =>
            obtain ⟨r, hsw⟩ := switchTo_switched hsw
            refine Or.inl (Or.inr ?_)
            rw [hsw.readyList]
            simp
        | semV =>
            rw [semV_eq]
            exact Or.inl (Or.inl ⟨hrun, rfl⟩)
        | condWait => exact hcall.elim
        | finish _ => exact hcall.elim
        | _ => exact Or.inl (Or.inl ⟨hrun, rfl⟩)
    | @interrupt vs _ hon =>
        have hw := handlers_onlyWakes (k.setStatus .off) vs
        exact Or.inl (Or.inl ⟨hw.sleeping.trans hrun, hw.currentThread.symm⟩)
    | idle hsleep hready =>
        rw [hrun] at hsleep
        cases hsleep
    | dispatch hsleep hready hsw =>
        rw [hrun] at hsleep
        cases hsleep
  · by_cases hsw : switched k a = some t
    · exact Or.inl (hs.runs_of_switched hsw)
    · exact Or.inl (Or.inr (hs.stays_ready hready hsw))
  · rcases hs.queued hq with hq' | hready
    · exact Or.inr (Or.inl ⟨s, hmem, hq'⟩)
    · exact Or.inl (Or.inr hready)
  · rcases hs.lock_queued hq with hq' | hready
    · exact Or.inr (Or.inr ⟨l, hmem, hq'⟩)
    · exact Or.inl (Or.inr hready)

end Active

/-- A thread in the routines runs, is ready, or waits for an object of the driver. -/
theorem Driver.active_or_blocked {D : Driver δ π ε}
    (hown : ∀ {t p d a d' q}, D.next t p d = some (some a, d', q) → Harmless D.sems D.locks a)
    (hpc : ∀ t, m₀.pc t = none) (hr : Run D.step m₀ tr m) :
    ∀ t, (m.pc t).isSome → Active m.kernel t ∨ Blocked D.sems D.locks m.kernel t := by
  induction hr with
  | nil =>
      intro t ht
      rw [hpc t] at ht
      cases ht
  | @snoc tr m m' x hr hs ih =>
      obtain ⟨-, a, heff, hka, hkern⟩ := D.step_eq hs
      intro t ht
      -- where it was, unless it has just come
      have hbefore : (m.pc t).isSome = true ∨
          m.kernel.sleeping = false ∧ t = m.kernel.currentThread ∧ a = none := by
        rcases Driver.pc_of_step hs t with hsame | ⟨hrun, hcur, ⟨-, -, -, -, -, hnone⟩ |
          ⟨p, -, -, -, -, hp, -⟩⟩
        · exact Or.inl (hsame ▸ ht)
        · exact Or.inr ⟨hrun, hcur, hka.symm.trans hnone⟩
        · exact Or.inl (by rw [hp]; rfl)
      rcases hkern with ⟨rfl, hsame⟩ | ⟨b, rfl, hstep⟩
      · rw [hsame]
        rcases hbefore with hb | ⟨hrun, hcur, -⟩
        · exact ih t hb
        · exact Or.inl (Or.inl ⟨hrun, hcur⟩)
      · have hb := hbefore.resolve_right fun hc => by cases hc.2.2
        refine hstep.active_or_blocked (fun hrun hcur => ?_) (ih t hb)
        subst hcur
        cases x with
        | call p =>
            obtain ⟨-, -, -, he⟩ := Driver.effect_call heff
            cases (Prod.mk.inj he).1
        | advance =>
            obtain ⟨-, p, a', d, q, -, hn, he⟩ := Driver.effect_advance heff
            obtain ⟨rfl, -⟩ := Prod.mk.inj he
            exact hown hn
        | other c =>
            -- a thread in the routines may only yield
            obtain ⟨-, hc, he⟩ := Driver.effect_other heff
            obtain rfl : b = c := Option.some.inj (Prod.mk.inj he).1
            rcases hc with hsleep | hnone | rfl
            · rw [hrun] at hsleep
              cases hsleep
            · rw [hnone] at hb
              cases hb
            · trivial
        | interrupt es =>
            obtain ⟨vs, -, hka', -⟩ := Driver.step_events .interrupt rfl hs
            obtain rfl := Option.some.inj (hka.symm.trans hka')
            trivial
        | idle es =>
            obtain ⟨vs, -, hka', -⟩ := Driver.step_events .idle rfl hs
            obtain rfl := Option.some.inj (hka.symm.trans hka')
            trivial

/-! ## The work of the threads in the routines -/

/-- What the instructions taken have cost, `cost` for each place. -/
def spent (cost : π → Nat) (tr : List (Driven δ π × Move π ε)) : Nat :=
  (tr.map fun x => match x.2 with
    | .advance => (x.1.pc x.1.kernel.currentThread).elim 0 cost
    | _ => 0).sum

/-- The work that the calls have brought. -/
def brought (work : π → Nat) (tr : List (Driven δ π × Move π ε)) : Nat :=
  (tr.map fun x => match x.2 with
    | .call p => work p
    | _ => 0).sum

section Snoc

variable (x : Driven δ π × Move π ε) (tr : List (Driven δ π × Move π ε))

theorem spent_snoc (cost : π → Nat) : spent cost (tr ++ [x]) = spent cost tr + spent cost [x] := by
  simp [spent]

theorem brought_snoc (work : π → Nat) :
    brought work (tr ++ [x]) = brought work tr + brought work [x] := by
  simp [brought]

end Snoc

/-- A step brings the work of a call, or takes the cost of an instruction off. -/
theorem Driver.work_of_step {D : Driver δ π ε} (work cost : π → Nat)
    (hnext : ∀ {p a d q}, m.pc m.kernel.currentThread = some p →
      D.next m.kernel.currentThread p m.device = some (a, d, q) →
        work p = q.elim 0 work + cost p)
    (hs : D.step m x = some m') :
    (∀ u, u ≠ m.kernel.currentThread → m'.pc u = m.pc u) ∧
      (m'.pc m.kernel.currentThread).elim 0 work + spent cost [(m, x)] =
        (m.pc m.kernel.currentThread).elim 0 work + brought work [(m, x)] := by
  refine ⟨fun u hu => (Driver.pc_of_step hs u).resolve_right fun hc => hu hc.2.1, ?_⟩
  obtain ⟨-, a, heff, -⟩ := D.step_eq hs
  cases x with
  | call p =>
      obtain ⟨-, hnone, -, he⟩ := Driver.effect_call heff
      obtain ⟨-, hx⟩ := Prod.mk.inj he
      rw [(Prod.mk.inj hx).2, Function.update_self, hnone]
      simp [spent, brought]
  | advance =>
      obtain ⟨-, p, b, d, q, hp, hn, he⟩ := Driver.effect_advance heff
      obtain ⟨-, hx⟩ := Prod.mk.inj he
      rw [(Prod.mk.inj hx).2, Function.update_self, hp]
      simp [spent, brought, hp, hnext hp hn]
  | other b =>
      obtain ⟨-, -, he⟩ := Driver.effect_other heff
      obtain ⟨-, hx⟩ := Prod.mk.inj he
      rw [(Prod.mk.inj hx).2]
      rfl
  | interrupt es =>
      obtain ⟨-, -, -, -, hpc⟩ := Driver.step_events .interrupt rfl hs
      rw [hpc]
      rfl
  | idle es =>
      obtain ⟨-, -, -, -, hpc⟩ := Driver.step_events .idle rfl hs
      rw [hpc]
      rfl

/-- The work of the calls is what has been spent, and what the threads in the routines have
    before them. -/
theorem Driver.work_of_run {D : Driver δ π ε} {I : π → Prop} (work cost : π → Nat)
    (hI : ∀ {tr m}, Run D.step m₀ tr m → ∀ t p, m.pc t = some p → I p)
    (hnext : ∀ {t p d a d' q}, D.next t p d = some (a, d', q) → I p →
      work p = q.elim 0 work + cost p)
    (hpc : ∀ t, m₀.pc t = none) (hr : Run D.step m₀ tr m) (T : Finset ThreadId)
    (hT : ∀ t, (m.pc t).isSome → t ∈ T) :
    ∑ t ∈ T, (m.pc t).elim 0 work + spent cost tr = brought work tr := by
  induction hr generalizing T with
  | nil => simp [hpc, spent, brought]
  | @snoc tr m m' x hr hs ih =>
      obtain ⟨hothers, hmine⟩ :=
        Driver.work_of_step work cost (fun hp hn => hnext hn (hI hr _ _ hp)) hs
      set c := m.kernel.currentThread
      -- with the running thread among them
      have hins : ∀ u, (m.pc u).isSome → u ∈ insert c T := by
        intro u hu
        by_cases huc : u = c
        · exact huc ▸ Finset.mem_insert_self c T
        · exact Finset.mem_insert_of_mem (hT u ((hothers u huc).symm ▸ hu))
      have hall := ih (insert c T) hins
      have hsum : ∑ t ∈ T, (m'.pc t).elim 0 work = ∑ t ∈ insert c T, (m'.pc t).elim 0 work := by
        refine Finset.sum_subset (Finset.subset_insert c T) fun u _ hu => ?_
        rw [Option.not_isSome_iff_eq_none.mp fun h => hu (hT u h)]
        rfl
      have hrest : ∀ u ∈ (insert c T).erase c, (m'.pc u).elim 0 work = (m.pc u).elim 0 work :=
        fun u hu => by rw [hothers u (Finset.ne_of_mem_erase hu)]
      have hcT : c ∈ insert c T := Finset.mem_insert_self c T
      rw [← Finset.add_sum_erase _ _ hcT] at hall
      rw [hsum, ← Finset.add_sum_erase _ _ hcT, Finset.sum_congr rfl hrest, spent_snoc,
        brought_snoc, ← hall]
      omega

/-- The threads in the routines are among those that have run. -/
theorem Driver.threads_of_run {D : Driver δ π ε} (hpc : ∀ t, m₀.pc t = none)
    (hr : Run D.step m₀ tr m) :
    ∀ t, (m.pc t).isSome → t ∈ (tr.map fun x => x.1.kernel.currentThread).toFinset := by
  induction hr with
  | nil =>
      intro t ht
      rw [hpc t] at ht
      cases ht
  | snoc hr hs ih =>
      intro t ht
      rw [List.map_append, List.toFinset_append, Finset.mem_union]
      rcases Driver.pc_of_step hs t with hsame | ⟨-, hcur, -⟩
      · exact Or.inl (ih t (hsame ▸ ht))
      · exact Or.inr (by simp [hcur])

end Kernel
end Nachos
