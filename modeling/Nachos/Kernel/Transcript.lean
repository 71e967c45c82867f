/-
  Nachos.Kernel.Transcript

  What the threads put out in a critical section of a driver.  Since one thread at a time is
  there, it is the output of whole calls, one after the other, and then that of the call in
  the section so far.
-/

import Nachos.Kernel.Critical

namespace Nachos
namespace Kernel

open Transition

variable {δ π ε : Type} {inside : π → Prop} {lock : LockId} {m m' m₀ : Driven δ π}
  {x : Move π ε} {tr : List (Driven δ π × Move π ε)} {t : ThreadId}

/-- What the instructions taken put out, `emit` for each place. -/
def emission {α : Type} (emit : π → δ → List α) (m : Driven δ π) : Move π ε → List α
  | .advance => (m.pc m.kernel.currentThread).elim [] fun p => emit p m.device
  | _ => []

def emitted {α : Type} (emit : π → δ → List α) (tr : List (Driven δ π × Move π ε)) : List α :=
  (tr.map fun x => emission emit x.1 x.2).flatten

/-- The call that leaves the section in a step. -/
def leaving (D : Driver δ π ε) (lock : LockId) (m : Driven δ π) (x : Move π ε) : Option π :=
  if D.kernelAction m x = some (.lockRelease lock) then m.pc m.kernel.currentThread else none

/-- The calls that have left the section, with the places they left it from. -/
def finishedCalls (D : Driver δ π ε) (lock : LockId) (tr : List (Driven δ π × Move π ε)) :
    List π :=
  tr.filterMap fun x => leaving D lock x.1 x.2

@[simp] theorem emitted_snoc {α : Type} (emit : π → δ → List α)
    (tr : List (Driven δ π × Move π ε)) (m : Driven δ π) (x : Move π ε) :
    emitted emit (tr ++ [(m, x)]) = emitted emit tr ++ emission emit m x := by
  simp [emitted]

@[simp] theorem finishedCalls_snoc (D : Driver δ π ε) (lock : LockId)
    (tr : List (Driven δ π × Move π ε)) (m : Driven δ π) (x : Move π ε) :
    finishedCalls D lock (tr ++ [(m, x)]) =
      finishedCalls D lock tr ++ (leaving D lock m x).toList := by
  cases h : leaving D lock m x <;> simp [finishedCalls, h]

/-- `text` is what a call has put out when it comes to a place. -/
structure Transcript {α : Type} (D : Driver δ π ε) (lock : LockId) (inside : π → Prop)
    (text : π → List α) (emit : π → δ → List α) : Prop where
  outside : ∀ {p}, ¬ inside p → text p = []
  silent : ∀ {t p d a d' q}, D.next t p d = some (a, d', q) → ¬ inside p → emit p d = []
  starts : ∀ {t p d a d' q}, D.next t p d = some (a, d', some q) → ¬ inside p → text q = []
  continues : ∀ {t p d a d' q}, D.next t p d = some (a, d', some q) → inside p → inside q →
    text q = text p ++ emit p d
  ends : ∀ {t p d d' q}, D.next t p d = some (some (.lockRelease lock), d', q) → emit p d = []

namespace Transcript

variable {α : Type} {D : Driver δ π ε} {text : π → List α} {emit : π → δ → List α}

/-- What the call of a thread has put out. -/
def textOf (text : π → List α) (m : Driven δ π) (t : ThreadId) : List α := (m.pc t).elim [] text

/-- What has been put out is what the finished calls have, one after the other, and then the
    call in the section. -/
structure Law (D : Driver δ π ε) (lock : LockId) (inside : π → Prop) (text : π → List α)
    (emit : π → δ → List α) (tr : List (Driven δ π × Move π ε)) (m : Driven δ π)
    (part : List α) : Prop where
  out : emitted emit tr = ((finishedCalls D lock tr).map text).flatten ++ part
  owner : ∀ t, Critical inside lock m t → textOf text m t = part
  others : ∀ t, ¬ Critical inside lock m t → textOf text m t = []
  nobody : (∀ t, ¬ Critical inside lock m t) → part = []

variable (T : Transcript D lock inside text emit) (B : Brackets D lock inside)

include T B

/-- A step that is not the running thread's in the section puts nothing out. -/
theorem unchanged (hs : D.step m x = some m')
    (hout : ¬ (x = .advance ∧ Inside inside m m.kernel.currentThread)) :
    emission emit m x = [] ∧ leaving D lock m x = none ∧
      ∀ t, textOf text m' t = textOf text m t := by
  refine ⟨?_, ?_, fun t => ?_⟩
  · cases x with
    | advance =>
        obtain ⟨-, a, heff, -⟩ := D.step_eq hs
        obtain ⟨-, p, b, d, q, hp, hn, -⟩ := Driver.effect_advance heff
        rw [emission, hp]
        exact T.silent hn fun hin => hout ⟨rfl, p, hp, hin⟩
    | _ => rfl
  · unfold leaving
    split
    · rename_i hrel
      obtain ⟨-, p, d, q, hp, hn, -, hx⟩ :=
        Driver.kernelAction_inside hs hrel (Or.inl ⟨lock, B.mem, Or.inr rfl⟩)
      exact absurd ⟨hx, p, hp, (B.releases hn).1⟩ hout
    · rfl
  · rcases Driver.pc_of_step hs t with hsame | ⟨-, ht, ⟨p, -, hnone, hentry, hp, -⟩ |
      ⟨p, a, d, q, hx, hp, hn, hq, -⟩⟩
    · rw [textOf, textOf, hsame]
    · rw [textOf, textOf, hp, hnone]
      exact T.outside (B.entry p hentry)
    · subst ht
      have hpout : ¬ inside p := fun hin => hout ⟨hx, p, hp, hin⟩
      rw [textOf, textOf, hp, hq]
      show Option.elim q [] text = text p
      rw [T.outside hpout]
      cases q with
      | none => rfl
      | some q => exact T.starts hn hpout

variable {initialValue : SemId → Int} (hk : m₀.kernel = initialized initialValue)
  (hpc : ∀ t, m₀.pc t = none)

include hk hpc

theorem Law.step {part : List α} (h : Law D lock inside text emit tr m part)
    (hr : Run D.step m₀ tr m) (hs : D.step m x = some m') :
    ∃ part', Law D lock inside text emit (tr ++ [(m, x)]) m' part' := by
  by_cases hout : x = .advance ∧ Inside inside m m.kernel.currentThread
  · -- the running thread goes on in the section
    obtain ⟨rfl, p, hp, hin⟩ := hout
    obtain ⟨-, a, heff, hka, -⟩ := D.step_eq hs
    obtain ⟨hrun, p', b, d, q, hp', hn, he⟩ := Driver.effect_advance heff
    obtain rfl := Option.some.inj (hp.symm.trans hp')
    obtain ⟨rfl, hx⟩ := Prod.mk.inj he
    obtain ⟨rfl, hpc'⟩ := Prod.mk.inj hx
    have hcrit : Critical inside lock m m.kernel.currentThread :=
      Brackets.current hk hr hrun ⟨p, hp, hin⟩
    have hpart : part = text p := by
      rw [← h.owner _ hcrit, textOf, hp]
      rfl
    have hemit : emission emit m (.advance : Move π ε) = emit p m.device := by
      rw [emission, hp]
      rfl
    have hcur : m'.pc m.kernel.currentThread = q := by
      rw [hpc', Function.update_self]
    have hothers : ∀ t, t ≠ m.kernel.currentThread → textOf text m' t = [] := by
      intro t ht
      rw [textOf, hpc', Function.update_of_ne ht]
      exact h.others t fun hc => ht (B.unique hk hpc hr hc hcrit)
    rcases B.step_cases hk hpc hr hs with hsame | ⟨t, hnone, -⟩ | ⟨hrel, -, hnone⟩
    · -- it stays there
      obtain ⟨⟨q', hq', hqin⟩, -⟩ := (hsame _).mpr hcrit
      obtain rfl := hcur.symm.trans hq'
      have hleave : leaving D lock m (.advance : Move π ε) = none := by
        unfold leaving
        rw [hka]
        split
        · rename_i hrel
          rw [hrel] at hn
          exact absurd hqin ((B.releases hn).2 q' rfl)
        · rfl
      refine ⟨part ++ emit p m.device, ?_, fun t ht => ?_, fun t ht => ?_, fun hnone => ?_⟩
      · rw [emitted_snoc, finishedCalls_snoc, hleave, hemit, h.out]
        simp
      · obtain rfl := B.unique hk hpc hr ((hsame t).mp ht) hcrit
        rw [textOf, hq', hpart]
        exact T.continues hn hin hqin
      · refine hothers t ?_
        rintro rfl
        exact ht ((hsame _).mpr hcrit)
      · exact absurd ((hsame _).mpr hcrit) (hnone _)
    · exact absurd hcrit (hnone _)
    · -- it leaves
      obtain rfl : a = some (.lockRelease lock) := hka.symm.trans hrel
      have hleave : leaving D lock m (.advance : Move π ε) = some p := by
        rw [leaving, if_pos hrel, hp]
      refine ⟨[], ?_, fun t ht => absurd ht (hnone t), fun t ht => ?_, fun _ => rfl⟩
      · rw [emitted_snoc, finishedCalls_snoc, hleave, hemit, T.ends hn, h.out, hpart]
        simp
      · by_cases htc : t = m.kernel.currentThread
        · subst htc
          rw [textOf, hcur]
          cases q with
          | none => rfl
          | some q => exact T.outside ((B.releases hn).2 q rfl)
        · exact hothers t htc
  · obtain ⟨hemit, hleave, htext⟩ := T.unchanged B hs hout
    have hout' : ∀ part', part' = part →
        emitted emit (tr ++ [(m, x)]) =
          ((finishedCalls D lock (tr ++ [(m, x)])).map text).flatten ++ part' := by
      rintro _ rfl
      rw [emitted_snoc, finishedCalls_snoc, hleave, hemit, h.out]
      simp
    rcases B.step_cases hk hpc hr hs with hsame | ⟨t, hnone, hnew⟩ | ⟨hrel, ⟨hin, -⟩, -⟩
    · refine ⟨part, hout' _ rfl, fun t ht => ?_, fun t ht => ?_, fun hnone => ?_⟩
      · rw [htext]
        exact h.owner t ((hsame t).mp ht)
      · rw [htext]
        exact h.others t fun hc => ht ((hsame t).mpr hc)
      · exact h.nobody fun t hc => hnone t ((hsame t).mpr hc)
    · -- a thread comes in, and nobody was there
      have hpart := h.nobody hnone
      have hnil : ∀ u, textOf text m' u = [] := by
        intro u
        rw [htext]
        exact h.others u (hnone u)
      exact ⟨[], hout' _ hpart.symm, fun u _ => hnil u, fun u _ => hnil u, fun _ => rfl⟩
    · obtain ⟨-, p, d, q, hp, hn, -, hx⟩ :=
        Driver.kernelAction_inside hs hrel (Or.inl ⟨lock, B.mem, Or.inr rfl⟩)
      exact absurd ⟨hx, hin⟩ hout

theorem of_run (hr : Run D.step m₀ tr m) : ∃ part, Law D lock inside text emit tr m part := by
  induction hr with
  | nil =>
      have hnone : ∀ t, ¬ Critical inside lock m₀ t := by
        rintro t ⟨⟨p, hp, -⟩, -⟩
        rw [hpc t] at hp
        cases hp
      refine ⟨[], rfl, fun t ht => absurd ht (hnone t), fun t _ => ?_, fun _ => rfl⟩
      rw [textOf, hpc t]
      rfl
  | snoc hr hs ih =>
      obtain ⟨part, h⟩ := ih
      exact Law.step T B hk hpc h hr hs

/-- Two things that each call puts out: where the finished calls have put out as much of the
    one as of the other, the difference is that of the call in the section. -/
theorem emitted_length {β : Type} {text' : π → List β} {emit' : π → δ → List β}
    (T' : Transcript D lock inside text' emit') (hr : Run D.step m₀ tr m)
    (hfinished : ∀ p ∈ finishedCalls D lock tr, (text p).length = (text' p).length) {p : π}
    (ht : Critical inside lock m t) (hp : m.pc t = some p) :
    (emitted emit tr).length + (text' p).length =
      (emitted emit' tr).length + (text p).length := by
  obtain ⟨part, h⟩ := T.of_run B hk hpc hr
  obtain ⟨part', h'⟩ := T'.of_run B hk hpc hr
  have hpart : part = text p := by
    rw [← h.owner t ht, textOf, hp]
    rfl
  have hpart' : part' = text' p := by
    rw [← h'.owner t ht, textOf, hp]
    rfl
  have hlen : (((finishedCalls D lock tr).map text).flatten).length =
      (((finishedCalls D lock tr).map text').flatten).length := by
    rw [List.length_flatten, List.length_flatten, List.map_map, List.map_map]
    congr 1
    exact List.map_congr_left hfinished
  rw [h.out, h'.out, hpart, hpart', List.length_append, List.length_append, hlen]
  omega

end Transcript

/-! ## The device -/

/-- An invariant of the device against the `V` calls of its handlers on a semaphore. -/
theorem Driver.device_of_run {D : Driver δ π ε} {s : SemId}
    {I : List (Driven δ π × Move π ε) → δ → Nat → Prop} (hmem : s ∈ D.sems)
    (h₀ : I [] m₀.device 0)
    (hnext : ∀ {tr} {m : Driven δ π} {p a d q v}, m.pc m.kernel.currentThread = some p →
      D.next m.kernel.currentThread p m.device = some (a, d, q) → I tr m.device v →
      (∀ b, a = some b → vCalls s b = 0) ∧ I (tr ++ [(m, .advance)]) d v)
    (hserve : ∀ {tr d e d' vs v}, D.serve d e = some (d', vs) → I tr d v →
      I tr d' (v + vs.count s))
    (hother : ∀ {tr} {m : Driven δ π} {x : Move π ε} {d v}, x ≠ .advance → I tr d v →
      I (tr ++ [(m, x)]) d v)
    (hr : Run D.step m₀ tr m) : I tr m.device (vMade s (D.kernelHistory tr)) := by
  induction hr with
  | nil => exact h₀
  | @snoc tr m m' x hr hs ih =>
      have hall : ∀ {es d vs}, D.serveAll m.device es = some (d, vs) →
          I tr d (vMade s (D.kernelHistory tr) + vs.count s) := by
        intro es d vs hserveAll
        refine Driver.serveAll_induction
          (I := fun _ d vs => I tr d (vMade s (D.kernelHistory tr) + vs.count s)) hserveAll
          (by simpa using ih) (fun xs d vs s' hs' hi => ?_) fun xs d vs e d' vs' he hi => ?_
        · have hne : s' ≠ s := fun heq => hs' (heq ▸ hmem)
          simpa [List.count_append, hne] using hi
        · rw [List.count_append, ← Nat.add_assoc]
          exact hserve he hi
      obtain ⟨-, a, heff, hka, hkern⟩ := D.step_eq hs
      rw [Driver.kernelHistory_snoc, hka]
      cases x with
      | call p =>
          rw [Driver.effect] at heff
          split at heff
          · obtain ⟨rfl, hx⟩ := Prod.mk.inj (Option.some.inj heff)
            rw [← (Prod.mk.inj hx).1]
            simpa using hother (by simp) ih
          · cases heff
      | advance =>
          obtain ⟨-, p, b, d, q, hp, hn, he⟩ := Driver.effect_advance heff
          obtain ⟨rfl, hx⟩ := Prod.mk.inj he
          obtain ⟨rfl, -⟩ := Prod.mk.inj hx
          obtain ⟨hv, hi⟩ := hnext hp hn ih
          cases a with
          | none => simpa using hi
          | some b => simpa [hv b rfl] using hi
      | other b =>
          rw [Driver.effect] at heff
          split at heff
          · rename_i hc
            obtain ⟨rfl, hx⟩ := Prod.mk.inj (Option.some.inj heff)
            rw [← (Prod.mk.inj hx).1]
            have hv := ((Driver.outside_ne hc.1).1 s hmem).2
            simpa [hv] using hother (by simp) ih
          · cases heff
      | interrupt es =>
          obtain ⟨vs, hserveAll, hka', -⟩ := Driver.step_events .interrupt rfl hs
          obtain rfl := hka.symm.trans hka'
          simpa [vCalls] using hother (by simp) (hall hserveAll)
      | idle es =>
          obtain ⟨vs, hserveAll, hka', -⟩ := Driver.step_events .idle rfl hs
          obtain rfl := hka.symm.trans hka'
          simpa [vCalls] using hother (by simp) (hall hserveAll)

/-- The calls of `P`, as something that is put out. -/
theorem Driver.emitted_pCalled {D : Driver δ π ε} {s : SemId} {emit : π → δ → List Unit}
    (hmem : s ∈ D.sems)
    (hemit : ∀ {t p d a d' q}, D.next t p d = some (a, d', q) →
      (emit p d).length = if a = some (.semP s) then 1 else 0)
    (hr : Run D.step m₀ tr m) : (emitted emit tr).length = pCalled s (D.kernelHistory tr) := by
  induction hr with
  | nil => rfl
  | @snoc tr m m' x hr hs ih =>
      obtain ⟨-, a, heff, hka, -⟩ := D.step_eq hs
      have hlen : (emission emit m x).length = if a = some (.semP s) then 1 else 0 := by
        by_cases hx : x = .advance
        · subst hx
          obtain ⟨-, p, b, d, q, hp, hn, he⟩ := Driver.effect_advance heff
          obtain ⟨rfl, -⟩ := Prod.mk.inj he
          rw [emission, hp]
          exact hemit hn
        · have hne : a ≠ some (.semP s) := by
            rintro rfl
            obtain ⟨-, -, -, -, -, -, -, hadv⟩ :=
              Driver.kernelAction_inside hs hka (Or.inr ⟨s, hmem, rfl⟩)
            exact hx hadv
          rw [if_neg hne]
          cases x with
          | advance => exact absurd rfl hx
          | _ => rfl
      rw [emitted_snoc, List.length_append, hlen, ih, Driver.kernelHistory_snoc, hka]
      cases a with
      | none => simp
      | some b => simp

end Kernel
end Nachos
