/-
  Nachos.Machine.Firing

  The order in which interrupts are fired.  Whatever `CheckIfDue` puts back it puts
  back in the first place, so a scheduled interrupt is pending or was fired, and
  which of the two is never lost; no handler is called before its due time.  The
  order of the due times is kept as long as no sum of times reaches `2 ^ 64`: past
  that the due time of a new interrupt may lie before those already fired.
-/

import Nachos.Machine.Simulator

namespace Nachos

namespace Clock

variable {c : Clock}

/-- What holds in every run. -/
structure Conserved (c : Clock) : Prop where
  sorted : Sorted c.pending
  /-- Every interrupt scheduled is pending once or was fired once. -/
  once : (c.pending ++ c.fired.map Prod.fst).Perm c.scheduled
  ids : c.scheduled.map PendingInterrupt.id = List.range c.scheduled.length
  /-- No interrupt was fired before its time. -/
  due : ∀ x ∈ c.fired, x.1.when ≤ x.2

/-- What holds besides while the clock does not overflow. -/
structure Ordered (c : Clock) : Prop where
  past : ∀ x ∈ c.fired, x.1.when ≤ c.totalTicks
  before : ∀ x ∈ c.fired, ∀ e ∈ c.pending, x.1.when ≤ e.when
  order : (c.fired.map fun x => x.1.when).Pairwise (· ≤ ·)

theorem conserved_initial : Conserved initial :=
  ⟨List.Pairwise.nil, List.Perm.refl _, rfl, by simp [initial]⟩

theorem ordered_initial : Ordered initial :=
  ⟨by simp [initial], by simp [initial], List.Pairwise.nil⟩

theorem Conserved.schedule {n : Nat} {ty : IntType} (h : c.Conserved) :
    (c.schedule n ty).Conserved := by
  refine ⟨h.sorted.insert, ?_, ?_, h.due⟩
  · show (sortedInsert _ c.pending ++ c.fired.map Prod.fst).Perm (c.scheduled ++ [_])
    exact ((sortedInsert_perm _ _).append_right _).trans
      ((h.once.cons _).trans (List.perm_append_singleton _ _).symm)
  · show (c.scheduled ++ [_]).map PendingInterrupt.id = List.range (c.scheduled ++ [_]).length
    rw [List.map_append, h.ids, List.length_append]
    exact List.range_succ.symm

theorem Ordered.schedule {n : Nat} {ty : IntType} (h : c.Ordered)
    (hsum : c.totalTicks + n < timeRange) : (c.schedule n ty).Ordered := by
  refine ⟨h.past, fun x hx e he => ?_, h.order⟩
  rcases mem_sortedInsert.mp he with rfl | he
  · -- A new interrupt is not due before now.
    have hnow := h.past x hx
    show x.1.when ≤ (c.totalTicks + n) % timeRange
    rw [Nat.mod_eq_of_lt hsum]
    omega
  · exact h.before x hx e he

theorem Ordered.incrTotalTicks {n : Nat} (h : c.Ordered) (hsum : c.totalTicks + n < timeRange) :
    (c.incrTotalTicks n).Ordered := by
  refine ⟨fun x hx => ?_, h.before, h.order⟩
  have hnow := h.past x hx
  show x.1.when ≤ (c.totalTicks + n) % timeRange
  rw [Nat.mod_eq_of_lt hsum]
  omega

/-- What `CheckIfDue` can do. -/
inductive Checked (c : Clock) : Clock × Bool → Prop where
  | none (hnil : c.pending = []) : Checked c (c, false)
  | putBack {e : PendingInterrupt} {rest : List PendingInterrupt} {now : Nat}
      (hpending : c.pending = e :: rest) (hnow : c.totalTicks ≤ now) :
      Checked c ({ c with totalTicks := now, pending := sortedInsert e rest }, false)
  | fire {e : PendingInterrupt} {rest : List PendingInterrupt} {now : Nat}
      (hpending : c.pending = e :: rest) (hnow : c.totalTicks ≤ now) (hdue : e.when ≤ now) :
      Checked c ({ c with totalTicks := now, pending := rest, fired := c.fired ++ [(e, now)] }, true)

theorem checkIfDue_cases (c : Clock) (advanceClock idle : Bool) :
    c.Checked (c.checkIfDue advanceClock idle) := by
  unfold checkIfDue
  split
  · exact .none ‹_›
  · rename_i e rest hpending
    split
    · exact .putBack hpending (Nat.le_refl _)
    · have hnow : c.totalTicks ≤ max c.totalTicks e.when := Nat.le_max_left _ _
      dsimp only
      split
      · exact .putBack hpending hnow
      · exact .fire hpending hnow (Nat.le_max_right _ _)

theorem Conserved.checkIfDue {advanceClock idle : Bool} (h : c.Conserved) :
    (c.checkIfDue advanceClock idle).1.Conserved := by
  have hc := checkIfDue_cases c advanceClock idle
  generalize c.checkIfDue advanceClock idle = r at hc
  cases hc with
  | none _ => exact h
  | putBack hpending _ =>
      obtain ⟨hperm, hsorted⟩ := (hpending ▸ h.sorted).insert_head
      refine ⟨hsorted, (hperm.append_right _).trans ?_, h.ids, h.due⟩
      exact hpending ▸ h.once
  | @fire e rest now hpending _ hdue =>
      refine ⟨(List.pairwise_cons.mp (hpending ▸ h.sorted)).2, ?_, h.ids, fun x hx => ?_⟩
      · show (rest ++ (c.fired ++ [(e, now)]).map Prod.fst).Perm c.scheduled
        have hold : (e :: rest ++ c.fired.map Prod.fst).Perm c.scheduled := hpending ▸ h.once
        rw [List.map_append, ← List.append_assoc]
        exact (List.perm_append_singleton _ _).trans hold
      · rcases List.mem_append.mp hx with hx | hx
        · exact h.due x hx
        · obtain rfl := List.mem_singleton.mp hx
          exact hdue

theorem Ordered.checkIfDue {advanceClock idle : Bool} (hc : c.Conserved) (h : c.Ordered) :
    (c.checkIfDue advanceClock idle).1.Ordered := by
  have hcases := checkIfDue_cases c advanceClock idle
  generalize c.checkIfDue advanceClock idle = r at hcases
  cases hcases with
  | none _ => exact h
  | putBack hpending hnow =>
      refine ⟨fun x hx => Nat.le_trans (h.past x hx) hnow, fun x hx y hy => ?_, h.order⟩
      exact h.before x hx y (hpending ▸ (List.mem_cons.mpr (mem_sortedInsert.mp hy)))
  | @fire e rest now hpending hnow hdue =>
      have hhead : ∀ y ∈ rest, e.when ≤ y.when :=
        (List.pairwise_cons.mp (hpending ▸ hc.sorted)).1
      have hfirst : ∀ x ∈ c.fired, x.1.when ≤ e.when := fun x hx =>
        h.before x hx e (hpending ▸ List.mem_cons_self)
      refine ⟨fun x hx => ?_, fun x hx y hy => ?_, ?_⟩
      · rcases List.mem_append.mp hx with hx | hx
        · exact Nat.le_trans (h.past x hx) hnow
        · obtain rfl := List.mem_singleton.mp hx
          exact hdue
      · rcases List.mem_append.mp hx with hx | hx
        · exact h.before x hx y (hpending ▸ List.mem_cons_of_mem _ hy)
        · obtain rfl := List.mem_singleton.mp hx
          exact hhead y hy
      · show ((c.fired ++ [(e, now)]).map fun x => x.1.when).Pairwise (· ≤ ·)
        rw [List.map_append]
        refine List.pairwise_append.mpr ⟨h.order, List.pairwise_singleton _ _, fun w hw v hv => ?_⟩
        obtain ⟨x, hx, rfl⟩ := List.mem_map.mp hw
        obtain rfl := List.mem_singleton.mp hv
        exact hfirst x hx

end Clock

namespace Simulator

variable {m m' : Simulator} {f g : Frame} {rest : List Frame} {i : Instr} {mv : Move}

/-! ## The clock in a step -/

@[simp] theorem clock_setStatus (m : Simulator) (now : IntStatus) (g : Frame) (rest : List Frame) :
    (m.setStatus now g rest).clock = m.clock := by
  unfold setStatus
  split
  · dsimp only
    split <;> rfl
  · rfl

@[simp] theorem clock_semPost (m : Simulator) (s : SemId) : (m.semPost s).clock = m.clock := by
  unfold semPost
  dsimp only
  split <;> rfl

@[simp] theorem clock_lockPass (m : Simulator) (l : LockId) : (m.lockPass l).clock = m.clock := by
  unfold lockPass
  dsimp only
  split <;> rfl

@[simp] theorem clock_condNext (m : Simulator) (c : CondId) : (m.condNext c).clock = m.clock := by
  unfold condNext
  split <;> rfl

theorem clock_foldl_readyToRun (m : Simulator) (l : List ThreadId) :
    (l.foldl readyToRun m).clock = m.clock := by
  induction l generalizing m with
  | nil => rfl
  | cons t l ih => exact ih (m.readyToRun t)

@[simp] theorem clock_condAll (m : Simulator) (c : CondId) : (m.condAll c).clock = m.clock :=
  clock_foldl_readyToRun _ _

@[simp] theorem clock_switchTo (m : Simulator) (t : ThreadId) (g : Frame) (rest : List Frame) :
    (m.switchTo t g rest).clock = m.clock := by
  unfold switchTo
  dsimp only
  split <;> rfl

theorem clock_leaveProcess {t : ThreadId} (he : m.leaveProcess t g rest = some m') :
    m'.clock = m.clock := by
  obtain ⟨p, -, he⟩ := Option.bind_eq_some_iff.mp he
  obtain rfl := Option.some.inj he
  split <;> rfl

/-- What a step can do to the clock. -/
inductive Clocked (m : Simulator) (mv : Move) : Clock → Prop where
  | same : Clocked m mv m.clock
  | schedule {n : Int} {ty : IntType} (hmv : mv = .schedule n ty) :
      Clocked m mv (m.clock.schedule n.toNat ty)
  | tick {n : Nat} (htop : m.top = some (.incrTicks n)) :
      Clocked m mv (m.clock.incrTotalTicks n)
  | check {b idle : Bool} : Clocked m mv (m.clock.checkIfDue b idle).1

/-- Only two statements touch the clock. -/
theorem clock_exec (he : m.exec g rest i = some m') :
    m'.clock = m.clock ∨ (∃ n, i = .incrTicks n ∧ m'.clock = m.clock.incrTotalTicks n) ∨
      ∃ b idle, m'.clock = (m.clock.checkIfDue b idle).1 := by
  cases i
  case incrTicks n =>
    obtain rfl := Option.some.inj he
    exact Or.inr (Or.inl ⟨n, rfl, rfl⟩)
  case takeDue b =>
    refine Or.inr (Or.inr ⟨b, decide (m.status = .idle), ?_⟩)
    simp only [exec] at he
    split at he
    · obtain rfl := Option.some.inj he
      rfl
    · obtain rfl := Option.some.inj he
      rfl
  case leaveProcess t => exact Or.inl (clock_leaveProcess he)
  case markFinished =>
    obtain ⟨alive, -, he⟩ := Option.bind_eq_some_iff.mp he
    obtain rfl := Option.some.inj he
    exact Or.inl rfl
  all_goals
    left
    simp only [exec] at he
    first
    | obtain rfl := Option.some.inj he
      simp [goOn, enter, setSemaphore]
    | split at he <;>
      · obtain rfl := Option.some.inj he
        simp [goOn, enter, fail, readyToRun, setSemaphore, setLock, start]
    | exact nomatch he

theorem clocked_schedule {n : Int} {ty : IntType} (m : Simulator) :
    Clocked m (.schedule n ty) (m.schedule n ty).clock := by
  unfold Simulator.schedule
  split
  · exact .schedule rfl
  · exact .same

/-- A step does one of these. -/
theorem step_clocked (h : m.step mv = some m') : Clocked m mv m'.clock := by
  obtain ⟨-, -, f, rest, hs, hcase⟩ := step_cases h
  rcases hcase with ⟨-, rfl⟩ | ⟨i, code, hcode, hchoose | hexec⟩
  · exact .same
  · unfold choose at hchoose
    split at hchoose
    all_goals
      first
      | obtain rfl := Option.some.inj hchoose
        first
        | exact .same
        | exact clocked_schedule m
      | exact nomatch hchoose
  · rcases clock_exec hexec with heq | ⟨n, rfl, heq⟩ | ⟨b, idle, heq⟩
    · exact heq ▸ .same
    · have htop : m.top = some (.incrTicks n) := by simp [top, hs, hcode]
      exact heq ▸ .tick htop
    · exact heq ▸ .check

/-- The additions a step makes to the clock stay below `2 ^ 64`. -/
def InRange (m : Simulator) (mv : Move) : Prop :=
  (∀ n ty, mv = .schedule n ty → m.clock.totalTicks + n.toNat < timeRange) ∧
    ∀ n, m.top = some (.incrTicks n) → m.clock.totalTicks + n < timeRange

/-! ## Over whole runs -/

theorem step_conserved (hc : m.clock.Conserved) (h : m.step mv = some m') :
    m'.clock.Conserved := by
  have hstep := step_clocked h
  generalize m'.clock = c at hstep
  cases hstep with
  | same => exact hc
  | schedule _ => exact hc.schedule
  | tick _ => exact ⟨hc.sorted, hc.once, hc.ids, hc.due⟩
  | check => exact hc.checkIfDue

theorem step_ordered (hc : m.clock.Conserved) (ho : m.clock.Ordered) (hrange : InRange m mv)
    (h : m.step mv = some m') : m'.clock.Ordered := by
  have hstep := step_clocked h
  generalize m'.clock = c at hstep
  cases hstep with
  | same => exact ho
  | schedule hmv => exact ho.schedule (hrange.1 _ _ hmv)
  | tick htop => exact ho.incrTotalTicks (hrange.2 _ htop)
  | check => exact ho.checkIfDue hc

variable {initialValue : SemId → Int} {tr : List (Simulator × Move)}

theorem conserved_of_run (hr : Transition.Run step (initialized initialValue) tr m) :
    m.clock.Conserved :=
  hr.invariant (I := fun m => m.clock.Conserved) Clock.conserved_initial
    fun _ _ _ hc h => step_conserved hc h

theorem ordered_of_run (hr : Transition.Run step (initialized initialValue) tr m)
    (hrange : ∀ x ∈ tr, InRange x.1 x.2) : m.clock.Ordered := by
  have hboth : m.clock.Conserved ∧ m.clock.Ordered :=
    hr.invariant_of_steps (I := fun _ m => m.clock.Conserved ∧ m.clock.Ordered) (C := InRange)
      ⟨Clock.conserved_initial, Clock.ordered_initial⟩
      (fun _ _ _ _ hi hx h => ⟨step_conserved hi.1 h, step_ordered hi.1 hi.2 hx h⟩) hrange
  exact hboth.2

/-- In every run, no handler is called before the time its interrupt is due, and every
    interrupt scheduled is either pending, once, or was fired, once; in every run that keeps
    the clock below `2 ^ 64` the handlers are called in the order of their due times. -/
theorem firing_order (hr : Transition.Run step (initialized initialValue) tr m) :
    (∀ x ∈ m.clock.fired, x.1.when ≤ x.2) ∧
      (m.clock.pending ++ m.clock.fired.map Prod.fst).Perm m.clock.scheduled ∧
      m.clock.scheduled.Nodup ∧
      ((∀ x ∈ tr, InRange x.1 x.2) →
        (m.clock.fired.map fun x => x.1.when).Pairwise (· ≤ ·)) := by
  have hc := conserved_of_run hr
  refine ⟨hc.due, hc.once, ?_, fun hrange => (ordered_of_run hr hrange).order⟩
  refine List.Nodup.of_map PendingInterrupt.id ?_
  rw [hc.ids]
  exact List.nodup_range

/-- `InRange`, as a test. -/
private def inRangeAt (x : Simulator × Move) : Bool :=
  (match x.2 with
    | .schedule n _ => x.1.clock.totalTicks + n.toNat < timeRange
    | _ => true) &&
  match x.1.top with
    | some (.incrTicks n) => x.1.clock.totalTicks + n < timeRange
    | _ => true

private theorem inRange_of_inRangeAt (h : inRangeAt (m, mv) = true) : InRange m mv := by
  obtain ⟨hschedule, htick⟩ := Bool.and_eq_true_iff.mp h
  constructor
  · intro n ty hmv
    rw [hmv] at hschedule
    simpa using hschedule
  · intro n htop
    rw [htop] at htick
    simpa using htick

/-- Of two interrupts the one that was scheduled later is due first. -/
private def later : List Move :=
  List.flatten
    [List.replicate 14 .next, [.schedule 2 .disk, .schedule 1 .disk, .call (.condSignal 0)],
      List.replicate 29 .next, [.call (.condSignal 0)], List.replicate 29 .next]

theorem firing_order_later :
    ∃ (tr : List (Simulator × Move)) (m : Simulator),
      Transition.Run step (initialized fun _ => 0) tr m ∧
      m.clock.fired.map (fun x => x.1.id) = [1, 0] ∧
      (m.clock.fired.map fun x => x.1.when).Pairwise (· ≤ ·) := by
  obtain ⟨⟨tr, m⟩, he, hx⟩ := Option.map_eq_some_iff.mp
    (show (Transition.exec step (initialized fun _ => 0) later).map
        (fun x => (x.1.all inRangeAt, x.2.clock.fired.map fun y => y.1.id)) =
      some (true, [1, 0]) by decide +kernel)
  obtain ⟨hall, hids⟩ := Prod.mk.inj hx
  have hr := Transition.run_of_exec he
  exact ⟨tr, m, hr, hids, (firing_order hr).2.2.2
    fun x hmem => inRange_of_inRangeAt (List.all_eq_true.mp hall x hmem)⟩

/-! ## A clock that overflows -/

/-- The first thread in `main`, with interrupts on and nothing pending, after `n`
    cycles. -/
private def started (n : Nat) : Simulator :=
  { initialized fun _ => 0 with
    level := .on
    clock := { Clock.initial with totalTicks := n }
    stack := [⟨[.kernel, .call .finish], .off, .system, ⟨.off, false⟩⟩] }

/-- An operation that does nothing but turn interrupts off and on again. -/
private def signalNobody : List Move := .call (.condSignal 0) :: List.replicate 18 .next

private theorem exec_signalNobody (n : Nat) :
    (Transition.exec step (started n) signalNobody).map Prod.snd =
      some (started ((n + 1) % timeRange)) := rfl

/-- The clock reaches every value. -/
private theorem run_started {n : Nat} (hpos : 0 < n) (hn : n < timeRange) :
    ∃ tr, Transition.Run step (initialized fun _ => 0) tr (started n) := by
  induction n with
  | zero => exact absurd hpos (Nat.lt_irrefl 0)
  | succ n ih =>
      cases n with
      | zero =>
          -- `Initialize` turns interrupts on.
          obtain ⟨⟨tr, m⟩, he, hm⟩ := Option.map_eq_some_iff.mp
            (show (Transition.exec step (initialized fun _ => 0) (List.replicate 14 .next)).map
              Prod.snd = some (started 1) from rfl)
          exact ⟨tr, hm ▸ Transition.run_of_exec he⟩
      | succ n =>
          obtain ⟨tr, hr⟩ := ih (by omega) (by omega)
          obtain ⟨⟨tr', m⟩, he, hm⟩ := Option.map_eq_some_iff.mp (exec_signalNobody (n + 1))
          rw [Nat.mod_eq_of_lt hn] at hm
          exact ⟨tr ++ tr', hr.append (hm ▸ Transition.run_of_exec he)⟩

/-- Two interrupts, each scheduled one cycle ahead and fired. -/
private def twice : List Move :=
  List.flatten
    [[.schedule 1 .disk, .call (.condSignal 0)], List.replicate 29 .next,
      [.schedule 1 .disk, .call (.condSignal 0)], List.replicate 29 .next]

/-- An interrupt that is due at the last time there is is fired before one that is due at 0. -/
theorem firing_order_fails :
    ¬ ∀ (initialValue : SemId → Int) (tr : List (Simulator × Move)) (m : Simulator),
      Transition.Run step (initialized initialValue) tr m →
        (∀ x ∈ m.clock.fired, x.1.when ≤ x.2) ∧
          (m.clock.pending ++ m.clock.fired.map Prod.fst).Perm m.clock.scheduled ∧
          m.clock.scheduled.Nodup ∧ (m.clock.fired.map fun x => x.1.when).Pairwise (· ≤ ·) := by
  intro h
  obtain ⟨tr, hr⟩ := run_started (show 0 < timeRange - 2 by decide) (by decide)
  obtain ⟨⟨tr', m⟩, he, hfired⟩ := Option.map_eq_some_iff.mp
    (show (Transition.exec step (started (timeRange - 2)) twice).map
        (fun x => x.2.clock.fired.map fun y => y.1.when) = some [timeRange - 1, 0] by
      decide +kernel)
  obtain ⟨-, -, -, horder⟩ := h _ _ m (hr.append (Transition.run_of_exec he))
  dsimp only at hfired
  rw [hfired] at horder
  exact absurd horder (by decide)

end Simulator

end Nachos
