/-
  Nachos.Kernel.Critical

  Critical sections of a driver: the places of its routines between `Acquire` and
  `Release` of one of its locks.  One thread at a time is in such a section, whatever the
  driver does there, and a semaphore on which only that thread calls `P` keeps a value
  that is not negative, since nobody comes between a thread that is woken and its unit.
-/

import Nachos.Kernel.Driver

namespace Nachos
namespace Kernel

open Transition

/-! ## A semaphore for one thread at a time -/

/-- One thread at most is in `P` on the semaphore; once it is woken, its unit is there. -/
structure Serial (s : SemId) (k : Kernel) : Prop where
  nonneg : 0 ≤ (k.semaphore s).value
  alone : ∀ t u, InP s k t → InP s k u → t = u
  woken : ∀ t ∈ k.readyList, ∀ o, k.resumeOf t = some (.semP s o) → 0 < (k.semaphore s).value
  asleep : ∀ t ∈ (k.semaphore s).queue, (k.semaphore s).value = 0

section Serial

variable {k k' : Kernel} {a : Action} {loc : ThreadId → Option Place} {s : SemId} {t : ThreadId}

theorem initialized_serial {initialValue : SemId → Int} (h : 0 ≤ initialValue s) :
    Serial s (initialized initialValue) where
  nonneg := h
  alone t _ ht _ := by
    rcases ht with ht | ⟨ht, -⟩
    · exact absurd ht List.not_mem_nil
    · exact absurd ht List.not_mem_nil
  woken t ht := absurd ht List.not_mem_nil
  asleep t ht := absurd ht List.not_mem_nil

/-- A `V` takes a waiter off the queue. -/
theorem Step.queue_drop (hs : Step k a k') (hv : vCalls s a ≠ 0) :
    (k'.semaphore s).queue = (k.semaphore s).queue.drop (vCalls s a) := by
  cases hs with
  | call hrun hc =>
      cases hc with
      | @semV s' => exact handlers_queue k [s'] s
      | _ => exact absurd rfl hv
  | interrupt hrun hon => exact handlers_queue (k.setStatus .off) _ s
  | idle hsleep hready => exact handlers_queue k _ s
  | dispatch hsleep hready hsw => exact absurd rfl hv

/-- The calls of `P` on the semaphore. -/
def pCalled (s : SemId) (tr : History) : Nat := tr.countP fun x => x.2 = .semP s

@[simp] theorem pCalled_snoc (s : SemId) (tr : History) (k : Kernel) (a : Action) :
    pCalled s (tr ++ [(k, a)]) = pCalled s tr + if a = .semP s then 1 else 0 := by
  by_cases ha : a = .semP s <;> simp [pCalled, ha]

/-- Who comes back in `P` makes no `V` call, and was ready. -/
theorem returner_cases (ha : a ≠ .semP s) (h : pReturner s k a = some t) :
    vCalls s a = 0 ∧ t ∈ k.readyList ∧ ∃ o, k.resumeOf t = some (.semP s o) := by
  obtain ⟨hsw, o, ho⟩ := switched_of_pReturner ha h
  have hret : returnsInP s (returning k a) = true := by
    rw [returning, hsw]
    exact returnsInP_iff.mpr ⟨o, ho⟩
  exact ⟨vCalls_of_returnsInP hret, ready_of_switched hsw, o, ho⟩

/-- Nobody is in `P` when the running thread calls it. -/
theorem Serial.call (h : Serial s k) (hs : Step k (.semP s) k') (hp : PlacedAt k loc)
    (hw : NoneQueued k) (hnone : ∀ t, ¬ InP s k t) : Serial s k' := by
  have hval := hs.value hp.current_not_ready s
  have hin : ∀ t, InP s k' t → t = k.currentThread ∧ ¬ 0 < (k.semaphore s).value := by
    intro t ht
    obtain ⟨hbefore, hne⟩ := (hs.inP hp hw).mp ht
    obtain rfl : t = k.currentThread := (hbefore.resolve_left (hnone t)).2
    refine ⟨rfl, fun hpos => hne ?_⟩
    rw [pReturner, if_pos ⟨rfl, hpos⟩]
  have hret : pReturns s k (.semP s) = if 0 < (k.semaphore s).value then 1 else 0 := by
    simp [pReturns, returning, switched, returnsInP]
  have hnonneg := h.nonneg
  have hvalue : (k'.semaphore s).value =
      if 0 < (k.semaphore s).value then (k.semaphore s).value - 1 else (k.semaphore s).value := by
    rw [hval, hret]
    split <;> simp [vCalls]
  refine ⟨?_, fun t u ht hu => (hin t ht).1.trans (hin u hu).1.symm, fun t ht o ho => ?_,
    fun t ht => ?_⟩
  · rw [hvalue]
    split <;> omega
  · -- nobody is made ready in `P` by the call
    obtain ⟨hm, -, hr⟩ := hs.woken_before hp hw rfl ht ho
    exact absurd (Or.inr ⟨hm, o, hr⟩) (hnone t)
  · have hzero := (hin t (Or.inl ht)).2
    rw [hvalue, if_neg hzero]
    omega

/-- A step other than a call of `P`. -/
theorem Serial.other (h : Serial s k) (hs : Step k a k') (hp : PlacedAt k loc)
    (hw : NoneQueued k) (ha : a ≠ .semP s) : Serial s k' := by
  have hval := hs.value hp.current_not_ready s
  rw [pReturns_eq] at hval
  have hin : ∀ t, InP s k' t → InP s k t ∧ pReturner s k a ≠ some t := by
    intro t ht
    obtain ⟨hbefore, hne⟩ := (hs.inP hp hw).mp ht
    exact ⟨hbefore.resolve_right fun hc => ha hc.1, hne⟩
  have hnonneg := h.nonneg
  have halone : ∀ t u, InP s k' t → InP s k' u → t = u :=
    fun t u ht hu => h.alone t u (hin t ht).1 (hin u hu).1
  cases hret : pReturner s k a with
  | some u =>
      -- the one thread in `P` comes back: it takes its unit, and nobody is left
      obtain ⟨hv, hready, o, ho⟩ := returner_cases ha hret
      have hpos := h.woken u hready o ho
      have hnone : ∀ t, ¬ InP s k' t := by
        intro t ht
        obtain rfl := h.alone t u (hin t ht).1 (Or.inr ⟨hready, o, ho⟩)
        exact (hin t ht).2 hret
      rw [hret, hv] at hval
      refine ⟨?_, halone, fun t ht o ho => absurd (Or.inr ⟨ht, o, ho⟩) (hnone t),
        fun t ht => absurd (Or.inl ht) (hnone t)⟩
      simp at hval
      omega
  | none =>
      rw [hret] at hval
      simp at hval
      refine ⟨by omega, halone, fun t ht o ho => ?_, fun t ht => ?_⟩
      · by_cases hv : vCalls s a = 0
        · obtain ⟨hm, -, hr⟩ := hs.woken_before hp hw hv ht ho
          have := h.woken t hm o hr
          omega
        · omega
      · by_cases hv : vCalls s a = 0
        · rcases hs.queued_before ht with hm | ⟨hc, -⟩
          · rw [hval, h.asleep t hm, hv]
            rfl
          · exact absurd hc ha
        · -- the queue has one member at most, which the `V` has taken off
          exfalso
          rw [hs.queue_drop hv] at ht
          have hnodup : (k.semaphore s).queue.Nodup := hp.located.nodup (.semQueue s)
          have hlen : (k.semaphore s).queue.length ≤ 1 := by
            by_contra hlong
            have h0 : 0 < (k.semaphore s).queue.length := by omega
            have h1 : 1 < (k.semaphore s).queue.length := by omega
            have heq := h.alone _ _ (Or.inl (List.getElem_mem h0)) (Or.inl (List.getElem_mem h1))
            have := (List.Nodup.getElem_inj_iff hnodup).mp heq
            omega
          rw [List.drop_eq_nil_of_le (by omega)] at ht
          exact absurd ht List.not_mem_nil

theorem Serial.step (h : Serial s k) (hs : Step k a k') (hp : PlacedAt k loc)
    (hw : NoneQueued k) (hcall : a = .semP s → ∀ t, ¬ InP s k t) : Serial s k' := by
  by_cases ha : a = .semP s
  · subst ha
    exact h.call hs hp hw (hcall rfl)
  · exact h.other hs hp hw ha

end Serial

/-! ## The lock of a section -/

section Brackets

variable {δ π ε : Type} {inside : π → Prop} {lock : LockId} {m m' m₀ : Driven δ π}
  {x : Move π ε} {tr : List (Driven δ π × Move π ε)} {t : ThreadId}

/-- Thread `t` is at a place of the section, or on its way to the first one. -/
def Inside (inside : π → Prop) (m : Driven δ π) (t : ThreadId) : Prop :=
  ∃ p, m.pc t = some p ∧ inside p

/-- Thread `t` is in the section. -/
def Critical (inside : π → Prop) (lock : LockId) (m : Driven δ π) (t : ThreadId) : Prop :=
  Inside inside m t ∧ ¬ InAcquire lock m.kernel t

/-- The section is entered by `Acquire` of the lock, and left by `Release`. -/
structure Brackets (D : Driver δ π ε) (lock : LockId) (inside : π → Prop) : Prop where
  mem : lock ∈ D.locks
  entry : ∀ p, D.entry p = true → ¬ inside p
  enters : ∀ {t p d a d' q}, D.next t p d = some (a, d', some q) → ¬ inside p → inside q →
    a = some (.lockAcquire lock)
  acquirer : ∀ {t p d d' q}, D.next t p d = some (some (.lockAcquire lock), d', q) → ¬ inside p
  leaves : ∀ {t p d a d' q}, D.next t p d = some (a, d', q) → inside p →
    (∀ q', q = some q' → ¬ inside q') → a = some (.lockRelease lock)
  releases : ∀ {t p d d' q}, D.next t p d = some (some (.lockRelease lock), d', q) →
    inside p ∧ ∀ q', q = some q' → ¬ inside q'

/-- What a step takes the running thread from, and to. -/
theorem Driver.pc_of_step {D : Driver δ π ε} (hs : D.step m x = some m') (t : ThreadId) :
    m'.pc t = m.pc t ∨ m.kernel.sleeping = false ∧ t = m.kernel.currentThread ∧
      ((∃ p, x = .call p ∧ m.pc t = none ∧ D.entry p = true ∧ m'.pc t = some p ∧
          D.kernelAction m x = none) ∨
        ∃ p a d q, x = .advance ∧ m.pc t = some p ∧ D.next t p m.device = some (a, d, q) ∧
          m'.pc t = q ∧ D.kernelAction m x = a) := by
  obtain ⟨-, a, heff, hka, -⟩ := D.step_eq hs
  cases x with
  | call p =>
      rw [Driver.effect] at heff
      split at heff
      · rename_i hc
        obtain ⟨hrun, hout, hentry⟩ := hc
        obtain ⟨rfl, hx⟩ := Prod.mk.inj (Option.some.inj heff)
        obtain ⟨-, hpc⟩ := Prod.mk.inj hx
        by_cases ht : t = m.kernel.currentThread
        · subst ht
          refine Or.inr ⟨hrun, rfl, Or.inl ⟨p, rfl, by simpa using hout, hentry, ?_, hka⟩⟩
          rw [← hpc, Function.update_self]
        · rw [← hpc, Function.update_of_ne ht]
          exact Or.inl rfl
      · cases heff
  | advance =>
      obtain ⟨hrun, p, a, d, q, hp, hn, he⟩ := Driver.effect_advance heff
      obtain ⟨rfl, hx⟩ := Prod.mk.inj he
      obtain ⟨rfl, hpc⟩ := Prod.mk.inj hx
      by_cases ht : t = m.kernel.currentThread
      · subst ht
        refine Or.inr ⟨hrun, rfl, Or.inr ⟨p, a, m'.device, q, rfl, hp, hn, ?_, hka⟩⟩
        rw [hpc, Function.update_self]
      · rw [hpc, Function.update_of_ne ht]
        exact Or.inl rfl
  | other b =>
      rw [Driver.effect] at heff
      split at heff
      · exact Or.inl (congrFun (Prod.mk.inj (Prod.mk.inj (Option.some.inj heff)).2).2.symm t)
      · cases heff
  | interrupt es =>
      obtain ⟨-, -, -, -, hpc⟩ := Driver.step_events .interrupt rfl hs
      exact Or.inl (congrFun hpc t)
  | idle es =>
      obtain ⟨-, -, -, -, hpc⟩ := Driver.step_events .idle rfl hs
      exact Or.inl (congrFun hpc t)

/-- What holds where the routines begin, and after each instruction, holds of all places. -/
theorem Driver.place_of_run {D : Driver δ π ε} {I : π → Prop} (hpc : ∀ t, m₀.pc t = none)
    (hentry : ∀ p, D.entry p = true → I p)
    (hnext : ∀ {t p d a d' q}, D.next t p d = some (a, d', some q) → I p → I q)
    (hr : Run D.step m₀ tr m) : ∀ t p, m.pc t = some p → I p := by
  induction hr with
  | nil =>
      intro t p hp
      rw [hpc t] at hp
      cases hp
  | snoc hr hs ih =>
      intro t p hp
      rcases Driver.pc_of_step hs t with hsame | ⟨-, -, ⟨p', -, -, he, hp', -⟩ |
        ⟨p', a, d, q, -, hp', hn, hq, -⟩⟩
      · exact ih t p (hsame.symm.trans hp)
      · obtain rfl := Option.some.inj (hp'.symm.trans hp)
        exact hentry _ he
      · rw [hq.symm.trans hp] at hn
        exact hnext hn (ih t p' hp')

/-- The operations on the objects of the driver are made by its routines. -/
theorem Driver.kernelAction_inside {D : Driver δ π ε} (hs : D.step m x = some m') {a : Action}
    (hka : D.kernelAction m x = some a)
    (ha : (∃ l ∈ D.locks, a = .lockAcquire l ∨ a = .lockRelease l) ∨ ∃ s ∈ D.sems, a = .semP s) :
    m.kernel.sleeping = false ∧ ∃ p d q, m.pc m.kernel.currentThread = some p ∧
      D.next m.kernel.currentThread p m.device = some (some a, d, q) ∧
      m'.pc m.kernel.currentThread = q ∧ x = .advance := by
  obtain ⟨-, a', heff, hka', -⟩ := D.step_eq hs
  obtain rfl : a' = some a := hka'.symm.trans hka
  cases x with
  | call p =>
      rw [Driver.effect] at heff
      split at heff
      · exact absurd (Prod.mk.inj (Option.some.inj heff)).1 (by simp)
      · cases heff
  | advance =>
      obtain ⟨hrun, p, a', d, q, hp, hn, he⟩ := Driver.effect_advance heff
      obtain ⟨rfl, hx⟩ := Prod.mk.inj he
      obtain ⟨-, hpc⟩ := Prod.mk.inj hx
      refine ⟨hrun, p, d, q, hp, hn, ?_, rfl⟩
      rw [hpc, Function.update_self]
  | other b =>
      -- nobody else has the objects of the driver
      rw [Driver.effect] at heff
      split at heff
      · rename_i hc
        obtain rfl : b = a := Option.some.inj (Prod.mk.inj (Option.some.inj heff)).1
        obtain ⟨hsem, hlock⟩ := Driver.outside_ne hc.1
        rcases ha with ⟨l, hl, rfl | rfl⟩ | ⟨s, hmem, rfl⟩
        · exact absurd rfl (hlock l hl).1
        · exact absurd rfl (hlock l hl).2
        · exact absurd rfl (hsem s hmem).1
      · cases heff
  | interrupt es =>
      obtain ⟨vs, -, hka', -⟩ := Driver.step_events .interrupt rfl hs
      obtain rfl := Option.some.inj (hka'.symm.trans hka)
      rcases ha with ⟨l, -, h | h⟩ | ⟨s, -, h⟩ <;> exact absurd h (by simp)
  | idle es =>
      obtain ⟨vs, -, hka', -⟩ := Driver.step_events .idle rfl hs
      obtain rfl := Option.some.inj (hka'.symm.trans hka)
      rcases ha with ⟨l, -, h | h⟩ | ⟨s, -, h⟩ <;> exact absurd h (by simp)

namespace Brackets

variable {D : Driver δ π ε}

/-- Who is inside has the lock, or is on its way to it. -/
theorem held_of_run (B : Brackets D lock inside) {initialValue : SemId → Int}
    (hk : m₀.kernel = initialized initialValue) (hpc : ∀ t, m₀.pc t = none)
    (hr : Run D.step m₀ tr m) :
    ∀ t, Inside inside m t →
      holds lock (D.kernelHistory tr) t = true ∨ InAcquire lock m.kernel t := by
  induction hr with
  | nil =>
      rintro t ⟨p, hp, -⟩
      rw [hpc t] at hp
      cases hp
  | @snoc tr m m' x hr hs ih =>
      have hsched := scheduled_of_run (hk ▸ D.kernel_run hr)
      obtain ⟨loc, hplaced, -⟩ := hsched.placed
      obtain ⟨-, oa, -, hka, hkern⟩ := D.step_eq hs
      rintro t ⟨p', hp', hin'⟩
      -- either it was inside before, or it calls `Acquire` now
      have hbefore : Inside inside m t ∨ t = m.kernel.currentThread ∧
          D.kernelAction m x = some (.lockAcquire lock) := by
        rcases Driver.pc_of_step hs t with hsame | ⟨-, ht, ⟨p, -, -, hentry, hp, -⟩ |
          ⟨p, a, d, q, -, hp, hn, hq, hka'⟩⟩
        · exact Or.inl ⟨p', hsame.symm.trans hp', hin'⟩
        · obtain rfl := Option.some.inj (hp.symm.trans hp')
          exact absurd hin' (B.entry _ hentry)
        · by_cases hpin : inside p
          · exact Or.inl ⟨p, hp, hpin⟩
          · rw [hq.symm.trans hp'] at hn
            exact Or.inr ⟨ht, hka'.trans (B.enters hn hpin hin')⟩
      rw [Driver.kernelHistory_snoc, hka]
      rcases hkern with ⟨rfl, hsame⟩ | ⟨b, rfl, hstep⟩
      · -- no step of the kernel
        rw [hsame]
        simp only [Option.map_none, Option.toList_none, List.append_nil]
        rcases hbefore with hb | ⟨-, hacq⟩
        · exact ih t hb
        · exact absurd (hka.symm.trans hacq) (by simp)
      · simp only [Option.map_some, Option.toList_some]
        rw [holds_snoc, holdsAfter]
        by_cases hacq : acquires lock m.kernel b = some t
        · exact Or.inl (if_pos hacq)
        · rw [if_neg hacq]
          rcases hbefore with hb | ⟨ht, hcall⟩
          · -- it does not call `Release`, for then it would be outside
            have hne : ¬ (b = .lockRelease lock ∧ m.kernel.currentThread = t) := by
              rintro ⟨rfl, rfl⟩
              obtain ⟨-, p, d, q, hp, hn, hq, -⟩ :=
                Driver.kernelAction_inside hs hka (Or.inl ⟨lock, B.mem, Or.inr rfl⟩)
              exact (B.releases hn).2 p' (hq.symm.trans hp') hin'
            rw [if_neg hne]
            rcases ih t hb with hh | hi
            · exact Or.inl hh
            · exact Or.inr ((hstep.inAcquire hplaced hsched.noneQueued).mpr ⟨Or.inl hi, hacq⟩)
          · obtain rfl := Option.some.inj (hka.symm.trans hcall)
            exact Or.inr ((hstep.inAcquire hplaced hsched.noneQueued).mpr
              ⟨Or.inr ⟨rfl, ht⟩, hacq⟩)

variable (B : Brackets D lock inside) {initialValue : SemId → Int}
  (hk : m₀.kernel = initialized initialValue) (hpc : ∀ t, m₀.pc t = none)
  (hr : Run D.step m₀ tr m)

include B hk hpc hr

/-- One thread at a time is in the section. -/
theorem unique {u : ThreadId} (ht : Critical inside lock m t) (hu : Critical inside lock m u) :
    t = u := by
  obtain ⟨pend, hlock⟩ := lockInv_of_run (hk ▸ D.kernel_run hr) lock
  have hold : ∀ v, Critical inside lock m v → (m.kernel.lock lock).owner = some v := by
    rintro v ⟨hin, hout⟩
    exact hlock.owner v ((B.held_of_run hk hpc hr v hin).resolve_right hout)
  exact Option.some.inj ((hold t ht).symm.trans (hold u hu))

omit B hpc in
/-- The running thread is in the section when it is at a place of it. -/
theorem current (hrun : m.kernel.sleeping = false) (hin : Inside inside m m.kernel.currentThread) :
    Critical inside lock m m.kernel.currentThread := by
  obtain ⟨loc, hplaced, -⟩ := (scheduled_of_run (hk ▸ D.kernel_run hr)).placed
  exact ⟨hin, (hplaced.current_not_in (s := 0) hrun).2⟩

/-- What a step does to the section: nothing, or a thread comes into it while nobody is
    there, or the running thread leaves it. -/
theorem step_cases (hs : D.step m x = some m') :
    (∀ t, Critical inside lock m' t ↔ Critical inside lock m t) ∨
      (∃ t, (∀ u, ¬ Critical inside lock m u) ∧ ∀ u, Critical inside lock m' u ↔ u = t) ∨
      D.kernelAction m x = some (.lockRelease lock) ∧
        Critical inside lock m m.kernel.currentThread ∧ ∀ u, ¬ Critical inside lock m' u := by
  have hsched := scheduled_of_run (hk ▸ D.kernel_run hr)
  obtain ⟨loc, hplaced, -⟩ := hsched.placed
  obtain ⟨-, oa, -, hka, hkern⟩ := D.step_eq hs
  have hunique' := fun t u => B.unique (t := t) (u := u) hk hpc (hr.snoc hs)
  -- who stays inside stays in the section
  have hstays : ∀ t, Critical inside lock m t → Inside inside m' t →
      Critical inside lock m' t := by
    rintro t ⟨hin, hout⟩ hin'
    refine ⟨hin', ?_⟩
    rcases hkern with ⟨-, hsame⟩ | ⟨b, rfl, hstep⟩
    · rwa [hsame]
    · rw [hstep.inAcquire hplaced hsched.noneQueued]
      rintro ⟨hi | ⟨rfl, rfl⟩, -⟩
      · exact hout hi
      · obtain ⟨-, p, d, q, hp, hn, -⟩ :=
          Driver.kernelAction_inside hs hka (Or.inl ⟨lock, B.mem, Or.inl rfl⟩)
        obtain ⟨p', hp', hpin⟩ := hin
        obtain rfl := Option.some.inj (hp.symm.trans hp')
        exact B.acquirer hn hpin
  -- who is in the section and not inside afterwards calls `Release`
  have hleaves : ∀ t, Critical inside lock m t → ¬ Inside inside m' t →
      D.kernelAction m x = some (.lockRelease lock) ∧ t = m.kernel.currentThread := by
    rintro t ⟨⟨p, hp, hpin⟩, -⟩ hnot
    rcases Driver.pc_of_step hs t with hsame | ⟨-, ht, ⟨-, -, hnone, -⟩ |
      ⟨p', a, d, q, -, hp', hn, hq, hka'⟩⟩
    · exact absurd ⟨p, hsame.trans hp, hpin⟩ hnot
    · rw [hp] at hnone
      cases hnone
    · obtain rfl := Option.some.inj (hp.symm.trans hp')
      refine ⟨hka'.trans (B.leaves hn hpin ?_), ht⟩
      rintro q' rfl hq'
      exact hnot ⟨q', hq, hq'⟩
  -- who comes into it comes back from `Acquire`
  have hcomes : ∀ t, Critical inside lock m' t → ¬ Critical inside lock m t →
      D.kernelAction m x ≠ some (.lockRelease lock) := by
    rintro t ⟨⟨p, hp, hpin⟩, hout⟩ hnot hrel
    obtain ⟨b, rfl, hstep⟩ := hkern.resolve_left fun hc => by
      rw [hka, hc.1] at hrel
      cases hrel
    obtain rfl := Option.some.inj (hka.symm.trans hrel)
    obtain ⟨-, p', d, q, hp', hn, hq, -⟩ :=
      Driver.kernelAction_inside hs hka (Or.inl ⟨lock, B.mem, Or.inr rfl⟩)
    have hne : t ≠ m.kernel.currentThread := by
      rintro rfl
      exact (B.releases hn).2 p (hq.symm.trans hp) hpin
    have hsame : m'.pc t = m.pc t :=
      (Driver.pc_of_step hs t).resolve_right fun hc => hne hc.2.1
    refine hnot ⟨⟨p, hsame.symm.trans hp, hpin⟩, fun hi => hout ?_⟩
    refine (hstep.inAcquire hplaced hsched.noneQueued).mpr ⟨Or.inl hi, ?_⟩
    simp [acquires, resumedIn, returnsInAcquire, returning, switched]
  by_cases hnew : ∃ t, Critical inside lock m' t ∧ ¬ Critical inside lock m t
  · obtain ⟨t, ht', ht⟩ := hnew
    refine Or.inr (Or.inl ⟨t, fun u hu => ?_, fun u => ⟨fun hu => hunique' u t hu ht', ?_⟩⟩)
    · by_cases hin : Inside inside m' u
      · obtain rfl := hunique' u t (hstays u hu hin) ht'
        exact ht hu
      · exact hcomes t ht' ht (hleaves u hu hin).1
    · rintro rfl
      exact ht'
  · have hold : ∀ t, Critical inside lock m' t → Critical inside lock m t := by
      intro t ht'
      by_contra ht
      exact hnew ⟨t, ht', ht⟩
    by_cases hgone : ∃ t, Critical inside lock m t ∧ ¬ Inside inside m' t
    · obtain ⟨t, ht, hnot⟩ := hgone
      obtain ⟨hrel, rfl⟩ := hleaves t ht hnot
      refine Or.inr (Or.inr ⟨hrel, ht, fun u hu => ?_⟩)
      obtain rfl := B.unique hk hpc hr (hold u hu) ht
      exact hnot hu.1
    · refine Or.inl fun t => ⟨hold t, fun ht => hstays t ht ?_⟩
      by_contra hnot
      exact hgone ⟨t, ht, hnot⟩

end Brackets

/-! ## Waiting in the section -/

/-- A thread in an operation on an object of the driver is at the place after the call of it;
    `Waits` says who is in the operation. -/
theorem Driver.place_of_waiting {D : Driver δ π ε} {Waits : Kernel → ThreadId → Prop}
    {call : Action} {after : π → Prop} {initialValue : SemId → Int}
    (hcall : (∃ l ∈ D.locks, call = .lockAcquire l ∨ call = .lockRelease l) ∨
      ∃ s ∈ D.sems, call = .semP s)
    (h₀ : ∀ t, ¬ Waits (initialized initialValue) t)
    (hwaits : ∀ {k k' : Kernel} {b : Action} {loc : ThreadId → Option Place} {t : ThreadId},
      Step k b k' → PlacedAt k loc → NoneQueued k → Waits k' t →
        Waits k t ∨ b = call ∧ t = k.currentThread)
    (hcurrent : ∀ {k : Kernel} {loc : ThreadId → Option Place}, PlacedAt k loc →
      k.sleeping = false → ¬ Waits k k.currentThread)
    (hafter : ∀ {t p d d' q}, D.next t p d = some (some call, d', q) →
      ∃ p', q = some p' ∧ after p')
    (hk : m₀.kernel = initialized initialValue) (hr : Run D.step m₀ tr m) :
    ∀ t, Waits m.kernel t → Inside after m t := by
  induction hr with
  | nil =>
      intro t ht
      rw [hk] at ht
      exact absurd ht (h₀ t)
  | @snoc tr m m' x hr hs ih =>
      have hsched := scheduled_of_run (hk ▸ D.kernel_run hr)
      obtain ⟨loc, hplaced, -⟩ := hsched.placed
      obtain ⟨-, oa, -, hka, hkern⟩ := D.step_eq hs
      intro t ht
      -- who was in the operation does not run
      have hold : Waits m.kernel t → Inside after m' t := by
        intro hin
        obtain ⟨p, hp, hafter⟩ := ih t hin
        rcases Driver.pc_of_step hs t with hsame | ⟨hrun, rfl, -⟩
        · exact ⟨p, hsame.trans hp, hafter⟩
        · exact absurd hin (hcurrent hplaced hrun)
      rcases hkern with ⟨-, hsame⟩ | ⟨b, rfl, hstep⟩
      · rw [hsame] at ht
        exact hold ht
      · rcases hwaits hstep hplaced hsched.noneQueued ht with hin | ⟨rfl, rfl⟩
        · exact hold hin
        · obtain ⟨-, p, d, q, -, hn, hq, -⟩ := Driver.kernelAction_inside hs hka hcall
          obtain ⟨p', rfl, hp'⟩ := hafter hn
          exact ⟨p', hq, hp'⟩

theorem Driver.place_of_inP {D : Driver δ π ε} {s : SemId} {after : π → Prop} (hmem : s ∈ D.sems)
    (hafter : ∀ {t p d d' q}, D.next t p d = some (some (.semP s), d', q) →
      ∃ p', q = some p' ∧ after p') {initialValue : SemId → Int}
    (hk : m₀.kernel = initialized initialValue) (hr : Run D.step m₀ tr m) :
    ∀ t, InP s m.kernel t → Inside after m t := by
  refine Driver.place_of_waiting (Or.inr ⟨s, hmem, rfl⟩) ?_
    (fun hs hp hw ht => ((hs.inP hp hw).mp ht).1)
    (fun hp hrun => (hp.current_not_in (l := 0) hrun).1) hafter hk hr
  rintro t (ht | ⟨ht, -⟩) <;> exact absurd ht List.not_mem_nil

theorem Driver.place_of_inAcquire {D : Driver δ π ε} {after : π → Prop} (hmem : lock ∈ D.locks)
    (hafter : ∀ {t p d d' q}, D.next t p d = some (some (.lockAcquire lock), d', q) →
      ∃ p', q = some p' ∧ after p') {initialValue : SemId → Int}
    (hk : m₀.kernel = initialized initialValue) (hr : Run D.step m₀ tr m) :
    ∀ t, InAcquire lock m.kernel t → Inside after m t := by
  refine Driver.place_of_waiting (Or.inl ⟨lock, hmem, Or.inl rfl⟩) ?_
    (fun hs hp hw ht => ((hs.inAcquire hp hw).mp ht).1)
    (fun hp hrun => (hp.current_not_in (s := 0) hrun).2) hafter hk hr
  rintro t (ht | ⟨ht, -⟩) <;> exact absurd ht List.not_mem_nil

/-- `P` on the semaphore is called in the section only, and comes back to a place that is not
    the first one. -/
structure Guards (D : Driver δ π ε) (lock : LockId) (s : SemId) (inside first : π → Prop) :
    Prop where
  mem : s ∈ D.sems
  calls : ∀ {t p d d' q}, D.next t p d = some (some (.semP s), d', q) →
    inside p ∧ ∃ p', q = some p' ∧ inside p' ∧ ¬ first p'
  arrives : ∀ {t p d d' q}, D.next t p d = some (some (.lockAcquire lock), d', q) →
    ∃ p', q = some p' ∧ first p'

namespace Guards

variable {D : Driver δ π ε} {s : SemId} {first : π → Prop} (G : Guards D lock s inside first)
  (B : Brackets D lock inside) {initialValue : SemId → Int}
  (hk : m₀.kernel = initialized initialValue) (hpc : ∀ t, m₀.pc t = none)
  (hr : Run D.step m₀ tr m)

include G B hk hr

/-- A thread beyond the first place is in the section. -/
theorem critical {p : π} (hp : m.pc t = some p) (hin : inside p) (hfirst : ¬ first p) :
    Critical inside lock m t := by
  refine ⟨⟨p, hp, hin⟩, fun hacq => ?_⟩
  obtain ⟨p', hp', hfirst'⟩ := Driver.place_of_inAcquire B.mem G.arrives hk hr t hacq
  obtain rfl := Option.some.inj (hp.symm.trans hp')
  exact hfirst hfirst'

/-- Who waits on the semaphore is in the section. -/
theorem critical_of_inP (hin : InP s m.kernel t) : Critical inside lock m t := by
  obtain ⟨p, hp, hin, hfirst⟩ : Inside (fun p => inside p ∧ ¬ first p) m t :=
    Driver.place_of_inP G.mem (fun hn => (G.calls hn).2) hk hr t hin
  exact G.critical B hk hr hp hin hfirst

include hpc

/-- Nobody is in `P` while the running thread is in the section. -/
theorem nobody_inP (hrun : m.kernel.sleeping = false)
    (hin : Inside inside m m.kernel.currentThread) (t : ThreadId) : ¬ InP s m.kernel t := by
  intro ht
  obtain ⟨loc, hplaced, -⟩ := (scheduled_of_run (hk ▸ D.kernel_run hr)).placed
  obtain rfl := B.unique hk hpc hr (G.critical_of_inP B hk hr ht)
    (Brackets.current hk hr hrun hin)
  exact (hplaced.current_not_in (l := 0) hrun).1 ht

omit hr in
/-- One thread at a time waits on the semaphore. -/
theorem serial_of_run (h₀ : 0 ≤ initialValue s) {tr : List (Driven δ π × Move π ε)}
    {m : Driven δ π} (hr : Run D.step m₀ tr m) : Serial s m.kernel := by
  induction hr with
  | nil => exact hk ▸ initialized_serial h₀
  | @snoc tr m m' x hr hs ih =>
      have hsched := scheduled_of_run (hk ▸ D.kernel_run hr)
      obtain ⟨loc, hplaced, -⟩ := hsched.placed
      obtain ⟨-, oa, -, hka, hkern⟩ := D.step_eq hs
      rcases hkern with ⟨-, hsame⟩ | ⟨b, rfl, hstep⟩
      · rwa [hsame]
      · refine ih.step hstep hplaced hsched.noneQueued ?_
        rintro rfl
        obtain ⟨hrun, p, d, q, hp, hn, -⟩ :=
          Driver.kernelAction_inside hs hka (Or.inr ⟨s, G.mem, rfl⟩)
        exact G.nobody_inP B hk hpc hr hrun ⟨p, hp, (G.calls hn).1⟩

/-- `P` returns at most as often as there is a unit. -/
theorem pReturned_le (h₀ : 0 ≤ initialValue s) :
    (pReturned s (D.kernelHistory tr) : Int) ≤ initialValue s + vMade s (D.kernelHistory tr) := by
  have hv := value_of_run (hk ▸ D.kernel_run hr) s
  have := (G.serial_of_run B hk hpc h₀ hr).nonneg
  omega

/-- A thread sleeps in `P` only when all units are used up. -/
theorem pReturned_eq_of_queued (h₀ : 0 ≤ initialValue s)
    (hq : t ∈ (m.kernel.semaphore s).queue) :
    (pReturned s (D.kernelHistory tr) : Int) = initialValue s + vMade s (D.kernelHistory tr) := by
  have hv := value_of_run (hk ▸ D.kernel_run hr) s
  have := (G.serial_of_run B hk hpc h₀ hr).asleep t hq
  omega

/-- The calls of `P` that have been made: those that have returned, and the one that the thread
    in the section waits in. -/
theorem pCalled_of_run (h₀ : 0 ≤ initialValue s) :
    (∃ t, InP s m.kernel t) ∧
        pCalled s (D.kernelHistory tr) = pReturned s (D.kernelHistory tr) + 1 ∨
      (∀ t, ¬ InP s m.kernel t) ∧
        pCalled s (D.kernelHistory tr) = pReturned s (D.kernelHistory tr) := by
  induction hr with
  | nil =>
      refine Or.inr ⟨fun t ht => ?_, rfl⟩
      rw [hk] at ht
      rcases ht with ht | ⟨ht, -⟩ <;> exact absurd ht List.not_mem_nil
  | @snoc tr m m' x hr hs ih =>
      have hsched := scheduled_of_run (hk ▸ D.kernel_run hr)
      obtain ⟨loc, hplaced, -⟩ := hsched.placed
      have hserial := G.serial_of_run B hk hpc h₀ hr
      obtain ⟨-, oa, -, hka, hkern⟩ := D.step_eq hs
      rw [Driver.kernelHistory_snoc, hka]
      rcases hkern with ⟨rfl, hsame⟩ | ⟨b, rfl, hstep⟩
      · rw [hsame]
        simpa using ih
      · have hin : ∀ t, InP s m'.kernel t ↔
            (InP s m.kernel t ∨ b = .semP s ∧ t = m.kernel.currentThread) ∧
              pReturner s m.kernel b ≠ some t := fun t => hstep.inP hplaced hsched.noneQueued
        simp only [Option.map_some, Option.toList_some, pCalled_snoc, pReturned_snoc, pReturns_eq]
        by_cases hb : b = .semP s
        · -- nobody is in `P` before the call
          subst hb
          obtain ⟨hrun, p, d, q, hp, hn, -⟩ :=
            Driver.kernelAction_inside hs hka (Or.inr ⟨s, G.mem, rfl⟩)
          have hnone := G.nobody_inP B hk hpc hr hrun ⟨p, hp, (G.calls hn).1⟩
          have hcount := (ih.resolve_left fun hc => hc.1.elim hnone).2
          have hcases : pReturner s m.kernel (.semP s) = some m.kernel.currentThread ∨
              pReturner s m.kernel (.semP s) = none := by
            unfold pReturner
            split
            · exact Or.inl rfl
            · exact Or.inr (by simp [switched])
          rcases hcases with hret | hret
          · refine Or.inr ⟨fun t ht => ?_, by simp [hret, hcount]⟩
            obtain ⟨hbefore, hne⟩ := (hin t).mp ht
            rcases hbefore with hbefore | ⟨-, rfl⟩
            · exact hnone t hbefore
            · exact hne hret
          · refine Or.inl ⟨⟨m.kernel.currentThread, (hin _).mpr ⟨Or.inr ⟨rfl, rfl⟩, ?_⟩⟩,
              by simp [hret, hcount]⟩
            simp [hret]
        · rw [if_neg hb]
          cases hret : pReturner s m.kernel b with
          | some u =>
              -- the thread in `P` returns
              obtain ⟨-, hready, o, ho⟩ := returner_cases hb hret
              have hu : InP s m.kernel u := Or.inr ⟨hready, o, ho⟩
              have hcount := (ih.resolve_right fun hc => hc.1 u hu).2
              refine Or.inr ⟨fun t ht => ?_, by simp [hcount]⟩
              obtain ⟨hbefore, hne⟩ := (hin t).mp ht
              obtain rfl := hserial.alone t u (hbefore.resolve_right fun hc => hb hc.1) hu
              exact hne hret
          | none =>
              have hsame : ∀ t, InP s m'.kernel t ↔ InP s m.kernel t := by
                intro t
                rw [hin]
                simp [hb, hret]
              simpa [hsame] using ih

end Guards

end Brackets

end Kernel
end Nachos
