/-
  Nachos.Lib.Fifo

  A queue inside a state machine.  Each step takes members off its front and puts new ones at
  its end; over a run the members are taken in the order in which they stand in the queue, so
  that a member at index `i` is the one that is taken after `i` others.  A `Relay` is two such
queues in a row: what waits in the first goes to the end of the second, and is back when it is
served there.  Nobody that waits is passed over, and nobody overtakes.
-/

import Mathlib.Algebra.GroupWithZero.Nat
import Nachos.Lib.Run

namespace Transition

variable {σ α τ : Type*} {step : σ → α → Option σ} {s s' : σ} {tr tr' : List (σ × α)}

/-- What the steps of a history contribute, one after the other. -/
def collected (f : σ → α → List τ) (tr : List (σ × α)) : List τ :=
  (tr.map fun x => f x.1 x.2).flatten

@[simp] theorem collected_nil (f : σ → α → List τ) : collected f ([] : List (σ × α)) = [] := rfl

@[simp] theorem collected_append (f : σ → α → List τ) :
    collected f (tr ++ tr') = collected f tr ++ collected f tr' := by
  simp [collected]

theorem mem_collected {f : σ → α → List τ} {t : τ} :
    t ∈ collected f tr ↔ ∃ x ∈ tr, t ∈ f x.1 x.2 := by
  simp [collected, List.mem_flatten]

theorem collected_toList (f : σ → α → Option τ) (tr : List (σ × α)) :
    collected (fun s a => (f s a).toList) tr = tr.filterMap fun x => f x.1 x.2 := by
  induction tr with
  | nil => rfl
  | cons x tr ih =>
      have hcons : collected (fun s a => (f s a).toList) (x :: tr) =
          (f x.1 x.2).toList ++ collected (fun s a => (f s a).toList) tr := rfl
      rw [hcons, ih]
      cases h : f x.1 x.2 <;> simp [h]

/-- Each step takes `takes` off the front of the queue and puts `puts` at its end. -/
structure Fifo (step : σ → α → Option σ) (queue : σ → List τ) (puts takes : σ → α → List τ) :
    Prop where
  law : ∀ s a s', step s a = some s' → queue s ++ puts s a = takes s a ++ queue s'

namespace Fifo

variable {queue : σ → List τ} {puts takes : σ → α → List τ}

theorem run (h : Fifo step queue puts takes) (hr : Run step s tr s') :
    queue s ++ collected puts tr = collected takes tr ++ queue s' := by
  induction hr with
  | nil => simp
  | @snoc tr s₁ s₂ a hr hs ih =>
      have hstep := h.law _ _ _ hs
      have hone : ∀ f : σ → α → List τ, collected f (tr ++ [(s₁, a)]) =
          collected f tr ++ f s₁ a := by
        intro f
        simp [collected]
      rw [hone, hone, ← List.append_assoc, ih, List.append_assoc, hstep, List.append_assoc]

/-- The member at index `i` is the `i`-th to be taken. -/
theorem served (h : Fifo step queue puts takes) (hr : Run step s tr s') {i : Nat} {t : τ}
    (ht : (queue s)[i]? = some t) (hi : i < (collected takes tr).length) :
    (collected takes tr)[i]? = some t := by
  have hlaw := h.run hr
  have hlt : i < (queue s).length := (List.getElem?_eq_some_iff.mp ht).1
  have hget : (queue s ++ collected puts tr)[i]? = some t := by
    rw [List.getElem?_append_left hlt]
    exact ht
  rwa [hlaw, List.getElem?_append_left hi] at hget

theorem served_mem (h : Fifo step queue puts takes) (hr : Run step s tr s') {t : τ}
    (ht : t ∈ queue s) (hlen : (queue s).length ≤ (collected takes tr).length) :
    t ∈ collected takes tr := by
  obtain ⟨i, hi⟩ := List.mem_iff_getElem?.mp ht
  have hlt : i < (queue s).length := (List.getElem?_eq_some_iff.mp hi).1
  exact List.mem_iff_getElem?.mpr ⟨i, h.served hr hi (Nat.lt_of_lt_of_le hlt hlen)⟩

/-- A member at index `i` has been taken after `i + 1` calls that take a member each. -/
theorem passed {calls : σ → α → Nat} (h : Fifo step queue puts takes) (hr : Run step s tr s')
    (hcalls : ∀ x ∈ tr, takes x.1 x.2 = (queue x.1).take (calls x.1 x.2))
    (hnd : ∀ x ∈ tr, (queue x.1).Nodup) {t : τ} (hfresh : t ∉ collected puts tr) {i : Nat}
    (ht : (queue s)[i]? = some t) (hi : i < (tr.map fun x => calls x.1 x.2).sum) :
    t ∉ queue s' := by
  -- until then each call moves it one place to the front
  have moved : t ∉ queue s' ∨ ∃ j, i = (tr.map fun x => calls x.1 x.2).sum + j ∧
      (queue s')[j]? = some t := by
    clear hi
    induction hr with
    | nil => exact Or.inr ⟨i, by simp, ht⟩
    | @snoc tr s₁ s₂ a hr hs ih =>
        have hlast : (s₁, a) ∈ tr ++ [(s₁, a)] := by simp
        have htake := hcalls _ hlast
        have hnodup := hnd _ hlast
        rw [collected_append, List.mem_append, not_or] at hfresh
        obtain ⟨hold, hput⟩ := hfresh
        have hput : t ∉ puts s₁ a := by simpa [collected] using hput
        have hqueue : queue s₂ = (queue s₁).drop (calls s₁ a) ++ puts s₁ a := by
          have hlaw := h.law _ _ _ hs
          have hsplit : queue s₁ ++ puts s₁ a = (queue s₁).take (calls s₁ a) ++
              ((queue s₁).drop (calls s₁ a) ++ puts s₁ a) := by
            rw [← List.append_assoc, List.take_append_drop]
          rw [htake, hsplit] at hlaw
          exact (List.append_cancel_left hlaw).symm
        have hbefore := ih (fun x hx => hcalls x (List.mem_append_left _ hx))
          (fun x hx => hnd x (List.mem_append_left _ hx)) hold
        rcases hbefore with hout | ⟨j, hij, hj⟩
        · left
          rw [hqueue, List.mem_append, not_or]
          exact ⟨fun hm => hout (List.mem_of_mem_drop hm), hput⟩
        · by_cases hn : calls s₁ a ≤ j
          · right
            refine ⟨j - calls s₁ a, ?_, ?_⟩
            · simp only [List.map_append, List.map_cons, List.map_nil, List.sum_append,
                List.sum_cons, List.sum_nil]
              omega
            · have hlt : j < (queue s₁).length := (List.getElem?_eq_some_iff.mp hj).1
              rw [hqueue, List.getElem?_append_left (by rw [List.length_drop]; omega),
                List.getElem?_drop, Nat.add_sub_cancel' hn]
              exact hj
          · -- it is among those that are taken, and stands nowhere else
            left
            have hmem : t ∈ (queue s₁).take (calls s₁ a) := by
              refine List.mem_iff_getElem?.mpr ⟨j, ?_⟩
              rw [List.getElem?_take_of_lt (by omega)]
              exact hj
            rw [← List.take_append_drop (calls s₁ a) (queue s₁)] at hnodup
            have hdisj := (List.nodup_append.mp hnodup).2.2
            rw [hqueue, List.mem_append, not_or]
            exact ⟨fun hm => hdisj t hmem t hm rfl, hput⟩
  rcases moved with hout | ⟨j, hij, -⟩
  · exact hout
  · omega

end Fifo

/-! ## Two queues in a row -/

/-- Members wait in `queue`, go from there to the end of `ready`, and return when they are
    served there.  `Waits` holds of a member from the wait to the return. -/
structure Relay (step : σ → α → Option σ) (I : σ → Prop) (queue ready : σ → List τ)
    (Waits : σ → τ → Prop) (puts takes readied served returned : σ → α → List τ) : Prop where
  queueFifo : Fifo step queue puts takes
  readyFifo : Fifo step ready readied served
  keeps : ∀ s a s', step s a = some s' → I s → I s'
  nodup : ∀ s, I s → (ready s ++ queue s).Nodup
  waits : ∀ s t, t ∈ queue s → Waits s t
  waiting : ∀ s t, Waits s t → t ∈ queue s ∨ t ∈ ready s
  stays : ∀ s a s' t, step s a = some s' → I s → Waits s t → t ∉ returned s a → Waits s' t
  returns : ∀ s a s' t, step s a = some s' → I s → Waits s t →
    (t ∈ returned s a ↔ t ∈ served s a)
  fresh : ∀ s a s' t, step s a = some s' → I s → Waits s t → t ∉ puts s a
  wakes : ∀ s a s', step s a = some s' → (takes s a).Sublist (readied s a)
  front : ∀ s a s', step s a = some s' → served s a <+: ready s

namespace Relay

variable {I : σ → Prop} {queue ready : σ → List τ} {Waits : σ → τ → Prop}
  {puts takes readied served returned : σ → α → List τ}

/-- A member that has not returned waits, and has been neither served nor put back. -/
theorem still_waits (h : Relay step I queue ready Waits puts takes readied served returned)
    (hr : Run step s tr s') (hI : I s) {t : τ} (hw : Waits s t) (ht : t ∉ collected returned tr) :
    I s' ∧ Waits s' t ∧ t ∉ collected puts tr ∧ t ∉ collected served tr := by
  induction hr with
  | nil => exact ⟨hI, hw, by simp, by simp⟩
  | @snoc tr s₁ s₂ a hr hs ih =>
      rw [collected_append, List.mem_append, not_or] at ht
      obtain ⟨hold, hlast⟩ := ht
      have hlast : t ∉ returned s₁ a := by simpa [collected] using hlast
      obtain ⟨hI₁, hw₁, hputs, hserved⟩ := ih hold
      have hput := h.fresh _ _ _ _ hs hI₁ hw₁
      have hserve := fun hm => hlast ((h.returns _ _ _ _ hs hI₁ hw₁).mpr hm)
      refine ⟨h.keeps _ _ _ hs hI₁, h.stays _ _ _ _ hs hI₁ hw₁ hlast, ?_, ?_⟩
      · rw [collected_append, List.mem_append, not_or]
        exact ⟨hputs, by simpa [collected] using hput⟩
      · rw [collected_append, List.mem_append, not_or]
        exact ⟨hserved, by simpa [collected] using hserve⟩

theorem invariant_of_mem (h : Relay step I queue ready Waits puts takes readied served returned)
    (hr : Run step s tr s') (hI : I s) : ∀ x ∈ tr, I x.1 := by
  intro x hx
  obtain ⟨tr', -, hr'⟩ := hr.of_mem hx
  exact hr'.invariant hI fun s₁ a s₂ h₁ hs => h.keeps _ _ _ hs h₁

/-- Nobody starves: with `i` others in front of it in the queue a member returns once there
    have been more than `i` calls, and then as many turns as there are ready members. -/
theorem served_in_turn (h : Relay step I queue ready Waits puts takes readied served returned)
    {calls : σ → α → Nat}
    (hcalls : ∀ s a, takes s a = (queue s).take (calls s a))
    {s'' : σ} (hr : Run step s tr s') (hr' : Run step s' tr' s'') (hI : I s) {i : Nat} {t : τ}
    (ht : (queue s)[i]? = some t) (hi : i < (tr.map fun x => calls x.1 x.2).sum)
    (hturns : (ready s').length ≤ (collected served tr').length) :
    t ∈ collected returned (tr ++ tr') := by
  by_contra hnot
  rw [collected_append, List.mem_append, not_or] at hnot
  have hw := h.waits s t (List.mem_iff_getElem?.mpr ⟨i, ht⟩)
  obtain ⟨hI', hw', hputs, -⟩ := h.still_waits hr hI hw hnot.1
  obtain ⟨-, -, -, hserved⟩ := h.still_waits hr' hI' hw' hnot.2
  -- the calls have taken it off the queue, so it is ready
  have hout : t ∉ queue s' := by
    refine h.queueFifo.passed hr (fun x _ => hcalls x.1 x.2) (fun x hx => ?_) hputs ht hi
    exact (List.nodup_append.mp (h.nodup _ (h.invariant_of_mem hr hI x hx))).2.1
  have hready : t ∈ ready s' := (h.waiting s' t hw').resolve_left hout
  exact hserved (h.readyFifo.served_mem hr' hready hturns)

/-- `a` stands in front of `b`. -/
def Ahead (queue ready : σ → List τ) (s : σ) (a b : τ) : Prop := [a, b].Sublist (ready s ++ queue s)

/-- As long as the one in front has not returned it stays in front. -/
theorem stays_ahead (h : Relay step I queue ready Waits puts takes readied served returned)
    (hr : Run step s tr s') (hI : I s) {t u : τ} (ht : Waits s t) (hu : Waits s u)
    (hab : Ahead queue ready s t u) (hnot : t ∉ collected returned tr) :
    u ∉ collected returned tr ∧ Ahead queue ready s' t u := by
  induction hr with
  | nil => exact ⟨by simp, hab⟩
  | @snoc tr s₁ s₂ a hr hs ih =>
      rw [collected_append, List.mem_append, not_or] at hnot
      obtain ⟨hold, hlast⟩ := hnot
      have hlast : t ∉ returned s₁ a := by simpa [collected] using hlast
      obtain ⟨hnu, hab₁⟩ := ih hold
      obtain ⟨hI₁, ht₁, -, -⟩ := h.still_waits hr hI ht hold
      obtain ⟨-, hu₁, -, -⟩ := h.still_waits hr hI hu hnu
      have htserved : t ∉ served s₁ a := fun hm => hlast ((h.returns _ _ _ _ hs hI₁ ht₁).mpr hm)
      -- those that are served stand before both
      obtain ⟨rest, hrest⟩ := h.front _ _ _ hs
      have hsplit : ready s₁ ++ queue s₁ = served s₁ a ++ (rest ++ queue s₁) := by
        rw [← hrest, List.append_assoc]
      have hnd := h.nodup s₁ hI₁
      have hab₁ : [t, u].Sublist (ready s₁ ++ queue s₁) := hab₁
      rw [hsplit] at hab₁ hnd
      have htail : [t, u].Sublist (rest ++ queue s₁) := by
        obtain ⟨l₁, l₂, hl, hl₁, hl₂⟩ := List.sublist_append_iff.mp hab₁
        cases l₁ with
        | nil =>
            obtain rfl : [t, u] = l₂ := hl
            exact hl₂
        | cons x l₁ =>
            obtain rfl : t = x := (List.cons.inj hl).1
            exact absurd (hl₁.subset List.mem_cons_self) htserved
      have huserved : u ∉ served s₁ a := fun hm =>
        (List.nodup_append.mp hnd).2.2 u hm u (htail.subset (by simp)) rfl
      have hureturned : u ∉ returned s₁ a :=
        fun hm => huserved ((h.returns _ _ _ _ hs hI₁ hu₁).mp hm)
      refine ⟨?_, ?_⟩
      · rw [collected_append, List.mem_append, not_or]
        exact ⟨hnu, by simpa [collected] using hureturned⟩
      · have hready : ready s₂ = rest ++ readied s₁ a := by
          have hlaw := h.readyFifo.law _ _ _ hs
          rw [← hrest, List.append_assoc] at hlaw
          exact (List.append_cancel_left hlaw).symm
        have hqueue := h.queueFifo.law _ _ _ hs
        have hmoved : (queue s₁).Sublist (readied s₁ a ++ queue s₂) := by
          have hsub := (List.sublist_append_left (queue s₁) (puts s₁ a))
          rw [hqueue] at hsub
          exact hsub.trans ((h.wakes _ _ _ hs).append_right (queue s₂))
        show [t, u].Sublist (ready s₂ ++ queue s₂)
        rw [hready, List.append_assoc]
        exact htail.trans (hmoved.append_left rest)

/-- Members return in the order in which they wait. -/
theorem no_overtaking (h : Relay step I queue ready Waits puts takes readied served returned)
    (hr : Run step s tr s') (hI : I s) {i j : Nat} {t u : τ} (hi : (queue s)[i]? = some t)
    (hj : (queue s)[j]? = some u) (hij : i < j) (hu : u ∈ collected returned tr) :
    t ∈ collected returned tr := by
  by_contra hnot
  have ht := h.waits s t (List.mem_iff_getElem?.mpr ⟨i, hi⟩)
  have hw := h.waits s u (List.mem_iff_getElem?.mpr ⟨j, hj⟩)
  have hab : Ahead queue ready s t u := by
    have hpair : [t, u].Sublist (queue s) := by
      have hfront : [t].Sublist ((queue s).take j) := by
        rw [List.singleton_sublist, List.mem_iff_getElem?]
        exact ⟨i, by rwa [List.getElem?_take_of_lt hij]⟩
      have hback : [u].Sublist ((queue s).drop j) := by
        rw [List.singleton_sublist, List.mem_iff_getElem?]
        exact ⟨0, by rwa [List.getElem?_drop]⟩
      have hboth := hfront.append hback
      rwa [List.take_append_drop] at hboth
    exact hpair.trans (List.sublist_append_right (ready s) (queue s))
  exact (h.stays_ahead hr hI ht hw hab hnot).1 hu

end Relay

end Transition
