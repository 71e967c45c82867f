/-
  Nachos.Kernel.Driver

  A device and its driver on top of the kernel.  Any number of threads are in the
  routines of the driver, each at a place of its own; a thread takes the next
  instruction of the routine when it runs, and that instruction may be an operation
  on one of the semaphores and locks of the driver, which nobody else touches.  The
  handlers of the device run with those of the other devices, in a tick or while
  the processor idles.

  Whatever the driver does, the kernel below it goes through a run of its own
  (`kernelHistory`), so all that holds in every run of the kernel holds here.
-/

import Nachos.Kernel.Waiting

namespace Nachos
namespace Kernel

open Transition

/-- A driver: `δ` is the state of the device and of the driver's variables, `π` the
    places in its routines, `ε` the interrupts of the device. -/
structure Driver (δ π ε : Type) where
  sems : List SemId
  locks : List LockId
  /-- A thread may enter the driver here. -/
  entry : π → Bool
  /-- The next instruction of a thread: the operation it calls, if any, and where
      it is afterwards (`none`: it has left the driver). -/
  next : ThreadId → π → δ → Option (Option Action × δ × Option π)
  /-- The handler of an interrupt, with the semaphores it calls `V` on. -/
  serve : δ → ε → Option (δ × List SemId)
  /-- The driver has ended the program. -/
  halted : δ → Bool

/-- The kernel with a driver. -/
structure Driven (δ π : Type) where
  kernel : Kernel
  device : δ
  pc : ThreadId → Option π

/-- An interrupt that is due: one of the device, or one of another device. -/
inductive Event (ε : Type) where
  | device (e : ε)
  | other (s : SemId)

/-- A step of the kernel with a driver. -/
inductive Move (π ε : Type) where
  /-- The running thread calls a routine of the driver. -/
  | call (p : π)
  /-- It takes the next instruction of the routine. -/
  | advance
  /-- A step that is not about the driver. -/
  | other (a : Action)
  | interrupt (es : List (Event ε))
  | idle (es : List (Event ε))

namespace Driver

variable {δ π ε : Type} (D : Driver δ π ε)

/-- The action is not on an object of the driver.  The steps with interrupts are
    moves of their own. -/
def outside : Action → Bool
  | .semP s => s ∉ D.sems
  | .semV s => s ∉ D.sems
  | .lockAcquire l => l ∉ D.locks
  | .lockRelease l => l ∉ D.locks
  | .interrupt _ => false
  | .idle _ => false
  | _ => true

/-- The handlers of the interrupts that are due, one after the other. -/
def serveAll (d : δ) : List (Event ε) → Option (δ × List SemId)
  | [] => some (d, [])
  | .device e :: es => do
      let (d, vs) ← D.serve d e
      let (d, vs') ← serveAll d es
      return (d, vs ++ vs')
  | .other s :: es =>
      if s ∈ D.sems then none else do
        let (d, vs) ← serveAll d es
        return (d, s :: vs)

/-- What a move does to the driver, and the step of the kernel that goes with it. -/
def effect (m : Driven δ π) : Move π ε → Option (Option Action × δ × (ThreadId → Option π))
  | .call p =>
      if m.kernel.sleeping = false ∧ (m.pc m.kernel.currentThread).isNone ∧ D.entry p then
        some (none, m.device, Function.update m.pc m.kernel.currentThread (some p))
      else none
  | .advance =>
      if m.kernel.sleeping then none else do
        let p ← m.pc m.kernel.currentThread
        let (a, d, p) ← D.next m.kernel.currentThread p m.device
        return (a, d, Function.update m.pc m.kernel.currentThread p)
  | .other a =>
      if D.outside a ∧
          (m.kernel.sleeping ∨ (m.pc m.kernel.currentThread).isNone ∨ a = .yield) then
        some (some a, m.device, m.pc)
      else none
  | .interrupt es => (D.serveAll m.device es).map fun r => (some (.interrupt r.2), r.1, m.pc)
  | .idle es => (D.serveAll m.device es).map fun r => (some (.idle r.2), r.1, m.pc)

/-- The step of the kernel that goes with a move, if there is one. -/
def kernelStep (k : Kernel) : Option Action → Option Kernel
  | none => some k
  | some a => k.step a

/-- A step of the kernel with the driver. -/
def step (m : Driven δ π) (x : Move π ε) : Option (Driven δ π) :=
  if D.halted m.device then none else
    (D.effect m x).bind fun r =>
      (kernelStep m.kernel r.1).map fun k => ⟨k, r.2.1, r.2.2⟩

/-- The step of the kernel in a move. -/
def kernelAction (m : Driven δ π) (x : Move π ε) : Option Action :=
  (D.effect m x).bind fun r => r.1

/-- The run of the kernel in a run with the driver. -/
def kernelHistory (tr : List (Driven δ π × Move π ε)) : History :=
  tr.filterMap fun x => (D.kernelAction x.1 x.2).map fun a => (x.1.kernel, a)

@[simp] theorem kernelHistory_snoc (tr : List (Driven δ π × Move π ε)) (m : Driven δ π)
    (x : Move π ε) : D.kernelHistory (tr ++ [(m, x)]) =
      D.kernelHistory tr ++ ((D.kernelAction m x).map fun a => (m.kernel, a)).toList := by
  cases h : D.kernelAction m x <;> simp [kernelHistory, h]

variable {D} in
/-- A move that takes no step of the kernel. -/
theorem kernelHistory_none {tr : List (Driven δ π × Move π ε)} {m : Driven δ π} {x : Move π ε}
    (h : D.kernelAction m x = none) : D.kernelHistory (tr ++ [(m, x)]) = D.kernelHistory tr := by
  rw [kernelHistory_snoc, h]
  simp

/-- What a step consists of. -/
theorem step_eq {m m' : Driven δ π} {x : Move π ε} (h : D.step m x = some m') :
    D.halted m.device = false ∧ ∃ a, D.effect m x = some (a, m'.device, m'.pc) ∧
      D.kernelAction m x = a ∧
      ((a = none ∧ m'.kernel = m.kernel) ∨
        ∃ b, a = some b ∧ Step m.kernel b m'.kernel) := by
  rw [step] at h
  split at h
  · cases h
  · rename_i hh
    rw [Option.bind_eq_some_iff] at h
    obtain ⟨⟨a, d, pc⟩, he, hmap⟩ := h
    obtain ⟨k, hk, rfl⟩ := Option.map_eq_some_iff.mp hmap
    refine ⟨by simpa using hh, a, he, by rw [kernelAction, he, Option.bind_some], ?_⟩
    cases a with
    | none => exact Or.inl ⟨rfl, (Option.some.inj hk).symm⟩
    | some b => exact Or.inr ⟨b, rfl, step_cases hk⟩

/-- The kernel goes through a run of its own. -/
theorem kernel_run {m₀ m : Driven δ π} {tr : List (Driven δ π × Move π ε)}
    (h : Run D.step m₀ tr m) : Run Kernel.step m₀.kernel (D.kernelHistory tr) m.kernel := by
  induction h with
  | nil => exact Run.nil
  | @snoc tr m m' x _ hs ih =>
      rw [step] at hs
      split at hs
      · cases hs
      · rw [Option.bind_eq_some_iff] at hs
        obtain ⟨⟨a, d, pc⟩, he, hmap⟩ := hs
        obtain ⟨k, hk, rfl⟩ := Option.map_eq_some_iff.mp hmap
        rw [kernelHistory_snoc, kernelAction, he, Option.bind_some]
        cases a with
        | none =>
            obtain rfl := Option.some.inj hk
            simpa using ih
        | some b => exact Run.snoc ih hk

/-! ## The moves -/

variable {D} {m m' : Driven δ π} {es : List (Event ε)}

theorem effect_advance {r : Option Action × δ × (ThreadId → Option π)}
    (h : D.effect m .advance = some r) :
    m.kernel.sleeping = false ∧ ∃ p a d q, m.pc m.kernel.currentThread = some p ∧
      D.next m.kernel.currentThread p m.device = some (a, d, q) ∧
      r = (a, d, Function.update m.pc m.kernel.currentThread q) := by
  rw [effect] at h
  split at h
  · cases h
  · rename_i hrun
    simp only [Option.bind_eq_bind, Option.bind_eq_some_iff] at h
    obtain ⟨p, hp, ⟨a, d, q⟩, hn, hr⟩ := h
    exact ⟨by simpa using hrun, p, a, d, q, hp, hn, (Option.some.inj hr).symm⟩

theorem effect_call {p : π} {r : Option Action × δ × (ThreadId → Option π)}
    (h : D.effect m (.call p) = some r) :
    m.kernel.sleeping = false ∧ m.pc m.kernel.currentThread = none ∧ D.entry p = true ∧
      r = (none, m.device, Function.update m.pc m.kernel.currentThread (some p)) := by
  rw [effect] at h
  split at h
  · rename_i hc
    exact ⟨hc.1, Option.isNone_iff_eq_none.mp hc.2.1, hc.2.2, (Option.some.inj h).symm⟩
  · cases h

theorem effect_other {a : Action} {r : Option Action × δ × (ThreadId → Option π)}
    (h : D.effect m (.other a) = some r) :
    D.outside a ∧
      (m.kernel.sleeping = true ∨ m.pc m.kernel.currentThread = none ∨ a = .yield) ∧
      r = (some a, m.device, m.pc) := by
  rw [effect] at h
  split at h
  · rename_i hc
    rw [Option.isNone_iff_eq_none] at hc
    exact ⟨hc.1, hc.2, (Option.some.inj h).symm⟩
  · cases h

/-- The two moves that serve interrupts, with the step of the kernel that each is. -/
theorem step_events {x : Move π ε} (f : List SemId → Action)
    (hx : D.effect m x = (D.serveAll m.device es).map fun r => (some (f r.2), r.1, m.pc))
    (h : D.step m x = some m') :
    ∃ vs, D.serveAll m.device es = some (m'.device, vs) ∧ D.kernelAction m x = some (f vs) ∧
      Step m.kernel (f vs) m'.kernel ∧ m'.pc = m.pc := by
  obtain ⟨-, a, heff, hka, hk⟩ := D.step_eq h
  obtain ⟨⟨d, vs⟩, hserve, he⟩ := Option.map_eq_some_iff.mp (hx.symm.trans heff)
  obtain ⟨rfl, he'⟩ := Prod.mk.inj he
  obtain ⟨rfl, hpc⟩ := Prod.mk.inj he'
  obtain ⟨b, hb, hstep⟩ := hk.resolve_left (by simp)
  obtain rfl := Option.some.inj hb
  exact ⟨vs, hserve, hka, hstep, hpc.symm⟩

/-- An action outside the driver is not on its objects. -/
theorem outside_ne {a : Action} (h : D.outside a = true) :
    (∀ s ∈ D.sems, a ≠ .semP s ∧ vCalls s a = 0) ∧
      (∀ l ∈ D.locks, a ≠ .lockAcquire l ∧ a ≠ .lockRelease l) := by
  constructor
  · intro s hs
    constructor
    · rintro rfl
      simp [outside, hs] at h
    · cases a with
      | semV s' =>
          have hne : s' ≠ s := by
            rintro rfl
            simp [outside, hs] at h
          simp [vCalls, hne]
      | interrupt vs => simp [outside] at h
      | idle vs => simp [outside] at h
      | _ => rfl
  · intro l hl
    constructor
    · rintro rfl
      simp [outside, hl] at h
    · rintro rfl
      simp [outside, hl] at h

/-- What the handlers keep, one after the other; the lists are of the events served
    and of the `V` calls made so far. -/
theorem serveAll_induction {I : List (Event ε) → δ → List SemId → Prop} {d₀ d : δ}
    {vs : List SemId} (h : D.serveAll d₀ es = some (d, vs)) (h₀ : I [] d₀ [])
    (hother : ∀ xs d vs s, s ∉ D.sems → I xs d vs → I (xs ++ [.other s]) d (vs ++ [s]))
    (hserve : ∀ xs d vs e d' vs', D.serve d e = some (d', vs') → I xs d vs →
      I (xs ++ [.device e]) d' (vs ++ vs')) : I es d vs := by
  have hall : ∀ (es xs : List (Event ε)) d₁ us d₂ vs, D.serveAll d₁ es = some (d₂, vs) →
      I xs d₁ us → I (xs ++ es) d₂ (us ++ vs) := by
    intro es
    induction es with
    | nil =>
        intro xs d₁ us d₂ vs he hi
        obtain ⟨rfl, rfl⟩ := Prod.mk.inj (Option.some.inj he)
        rwa [List.append_nil, List.append_nil]
    | cons x es ih =>
        intro xs d₁ us d₂ vs he hi
        rw [List.append_cons xs]
        cases x with
        | device e =>
            simp only [serveAll, Option.bind_eq_bind, Option.bind_eq_some_iff] at he
            obtain ⟨⟨d', vs'⟩, hs, ⟨d'', vs''⟩, hr, hv⟩ := he
            obtain ⟨rfl, rfl⟩ := Prod.mk.inj (Option.some.inj hv)
            rw [← List.append_assoc us]
            exact ih _ d' _ _ _ hr (hserve _ _ _ _ _ _ hs hi)
        | other s =>
            rw [serveAll] at he
            split at he
            · cases he
            · rename_i hs
              simp only [Option.bind_eq_bind, Option.bind_eq_some_iff] at he
              obtain ⟨⟨d', vs'⟩, hr, hv⟩ := he
              obtain ⟨rfl, rfl⟩ := Prod.mk.inj (Option.some.inj hv)
              rw [List.append_cons us]
              exact ih _ d₁ _ _ _ hr (hother _ _ _ s hs hi)
  exact hall es [] d₀ [] d vs h h₀

end Driver
end Kernel
end Nachos
