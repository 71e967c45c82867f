/-
  Nachos.Drivers.TtyReceive

  What the readers get.  The reception interrupt gathers one message at a time: at
  its `'\0'` it disables itself and calls `V`, and the reader that is let in by this
  `V` takes the message and enables it again.  This rests on two things the code does
  not look after: that a message fits in the buffer, and that no reader comes back
  in `P` when another one has taken its unit.
-/

import Nachos.Drivers.TtySend

namespace Nachos
namespace DriverACIA

open Kernel Transition Words

/-- The messages of a stream of characters, each ended by a `'\0'`, and what comes
    after the last `'\0'`. -/
def messages (stream : List Byte) : List (List Byte) × List Byte :=
  stream.foldl (fun s c => if c = 0 then (s.1 ++ [s.2], []) else (s.1, s.2 ++ [c])) ([], [])

theorem messages_snoc (stream : List Byte) (c : Byte) :
    messages (stream ++ [c]) =
      if c = 0 then ((messages stream).1 ++ [(messages stream).2], [])
      else ((messages stream).1, (messages stream).2 ++ [c]) := by
  simp [messages]

theorem messages_noNul (stream : List Byte) : ∀ c ∈ (messages stream).2, c ≠ 0 := by
  induction stream using List.reverseRecOn with
  | nil => simp [messages]
  | append_singleton stream c ih =>
      rw [messages_snoc]
      split
      · simp
      · rename_i hc
        intro x hx
        rcases List.mem_append.mp hx with hx | hx
        · exact ih x hx
        · rwa [List.mem_singleton.mp hx]

/-- `receive_buffer` is written and read inside its bounds, the `k`-th result of
    `TtyReceive` is the `k`-th message as far as it fits, and a reader that is past
    `P` does not call `exit`. -/
structure ReceiveLaw (m : Driven State Pc) : Prop where
  index : m.device.receive_overrun = false
  results : ∀ (k : Nat) (r : Nat × List Byte), m.device.record.received[k]? = some r →
    ∃ chars, (messages m.device.record.delivered).1[k]? = some chars ∧ r.2 = cut r.1 chars
  stays : m.kernel.sleeping = false → ∀ lg, m.pc m.kernel.currentThread = some (.receive lg) →
    m.device.acia.mode = SEND_INTERRUPT

/-- The interrupt delivers a character while reception interrupts are enabled. -/
def delivers (d : State) : Interrupt → Bool
  | .reception (some _) => d.acia.mode &&& REC_INTERRUPT ≠ 0
  | _ => false

/-- Every character that is delivered has fewer than `BUFFER_SIZE` characters before
    it since the last `'\0'`. -/
def Fits (send_sema receive_sema : SemId) (d : State) : List (Event Interrupt) → Prop
  | [] => True
  | .device e :: es =>
      (delivers d e → (messages d.record.delivered).2.length < BUFFER_SIZE) ∧
      ∀ r ∈ (driver send_sema receive_sema).serve d e, Fits send_sema receive_sema r.1 es
  | .other _ :: es => Fits send_sema receive_sema d es

/-- The messages fit in the buffer, and a reader that comes back in `P` finds a unit. -/
def FitsAndFindsUnit (send_sema receive_sema : SemId) (m : Driven State Pc)
    (x : Move Pc Interrupt) : Prop :=
  (match x with
    | .interrupt es => Fits send_sema receive_sema m.device es
    | .idle es => Fits send_sema receive_sema m.device es
    | _ => True) ∧
  ∀ a ∈ (driver send_sema receive_sema).kernelAction m x, FindsUnit receive_sema m.kernel a

instance decidableFits (send_sema receive_sema : SemId) (d : State) :
    (es : List (Event Interrupt)) → Decidable (Fits send_sema receive_sema d es)
  | [] => isTrue trivial
  | .device e :: es =>
      let _ (r : State × List SemId) := decidableFits send_sema receive_sema r.1 es
      inferInstanceAs (Decidable ((delivers d e →
        (messages d.record.delivered).2.length < BUFFER_SIZE) ∧
          ∀ r ∈ (driver send_sema receive_sema).serve d e, Fits send_sema receive_sema r.1 es))
  | .other _ :: es => decidableFits send_sema receive_sema d es

instance (s : SemId) (k : Kernel) (a : Action) : Decidable (FindsUnit s k a) :=
  inferInstanceAs (Decidable (returnsInP s (returning k a) = true → 0 < (k.semaphore s).value))

instance (send_sema receive_sema : SemId) (m : Driven State Pc) (x : Move Pc Interrupt) :
    Decidable (FitsAndFindsUnit send_sema receive_sema m x) :=
  match x with
  | .interrupt es => inferInstanceAs (Decidable (Fits send_sema receive_sema m.device es ∧ _))
  | .idle es => inferInstanceAs (Decidable (Fits send_sema receive_sema m.device es ∧ _))
  | .call _ => inferInstanceAs (Decidable (True ∧ _))
  | .advance => inferInstanceAs (Decidable (True ∧ _))
  | .other _ => inferInstanceAs (Decidable (True ∧ _))

/-! ## The buffer -/

/-- A message is being gathered. -/
structure Gathering (d : State) : Prop where
  mode : d.acia.mode = REC_INTERRUPT ||| SEND_INTERRUPT
  read : d.record.received.length = (messages d.record.delivered).1.length
  ind_rec : d.ind_rec = (messages d.record.delivered).2.length
  buffer : ∀ j < d.ind_rec, d.receive_buffer j = (messages d.record.delivered).2.getD j 0

/-- A message waits for its reader. -/
structure Waiting (d : State) (chars : List Byte) : Prop where
  mode : d.acia.mode = SEND_INTERRUPT
  last : ∃ ms, messages d.record.delivered = (ms ++ [chars], []) ∧
    d.record.received.length = ms.length
  noNul : ∀ c ∈ chars, c ≠ 0
  fits : chars.length < BUFFER_SIZE
  buffer : ∀ j ≤ chars.length, d.receive_buffer j = chars.getD j 0

/-- The receiving half of the driver is in order. -/
structure Receives (d : State) : Prop where
  index : d.receive_overrun = false
  results : ∀ (k : Nat) (r : Nat × List Byte), d.record.received[k]? = some r →
    ∃ chars, (messages d.record.delivered).1[k]? = some chars ∧ r.2 = cut r.1 chars
  stage : Gathering d ∨ ∃ chars, Waiting d chars

/-- What the receiving half of the driver uses is as it was. -/
structure SameReceive (d d' : State) : Prop where
  delivered : d'.record.delivered = d.record.delivered
  received : d'.record.received = d.record.received
  receive_buffer : d'.receive_buffer = d.receive_buffer
  ind_rec : d'.ind_rec = d.ind_rec
  overrun : d'.receive_overrun = d.receive_overrun
  mode : d'.acia.mode = d.acia.mode

theorem SameReceive.receives {d d' : State} (h : SameReceive d d') (hr : Receives d) :
    Receives d' := by
  refine ⟨by rw [h.overrun, hr.index], ?_, ?_⟩
  · rw [h.received, h.delivered]
    exact hr.results
  · rcases hr.stage with hg | ⟨chars, hw⟩
    · left
      exact {
        mode := by rw [h.mode, hg.mode]
        read := by rw [h.received, h.delivered, hg.read]
        ind_rec := by rw [h.ind_rec, h.delivered, hg.ind_rec]
        buffer := by
          rw [h.ind_rec, h.receive_buffer, h.delivered]
          exact hg.buffer }
    · right
      exact ⟨chars, {
        mode := by rw [h.mode, hw.mode]
        last := by
          rw [h.received, h.delivered]
          exact hw.last
        noNul := hw.noNul
        fits := hw.fits
        buffer := by
          rw [h.receive_buffer]
          exact hw.buffer }⟩

theorem ttySend_sameReceive (d : State) (buff : Message) : SameReceive d (ttySend d buff) := by
  unfold ttySend
  dsimp only
  split
  · exact ⟨rfl, rfl, rfl, rfl, rfl, rfl⟩
  · exact ⟨rfl, rfl, rfl, rfl, rfl, rfl⟩

section Events

variable {send_sema receive_sema : SemId}

theorem InterruptEm_sameReceive {d : State} {r : State × List SemId}
    (hr : InterruptEm send_sema d = some r) :
    SameReceive d r.1 ∧ ∀ s ∈ r.2, s = send_sema := by
  unfold InterruptEm at hr
  split at hr
  · dsimp only at hr
    obtain rfl := Option.some.inj hr
    split
    · unfold InterruptSend
      dsimp only
      split
      · refine ⟨⟨rfl, rfl, rfl, rfl, rfl, rfl⟩, ?_⟩
        intro s hs
        dsimp only at hs
        split at hs
        · exact List.mem_singleton.mp hs
        · cases hs
      · exact ⟨⟨rfl, rfl, rfl, rfl, rfl, rfl⟩, by simp⟩
    · exact ⟨⟨rfl, rfl, rfl, rfl, rfl, rfl⟩, by simp⟩
  · cases hr

/-- A character that comes while reception interrupts are enabled. -/
theorem Receives.interruptReceive {d : State} (h : Receives d) (hg : Gathering d)
    (hfits : (messages d.record.delivered).2.length < BUFFER_SIZE) :
    Receives (InterruptReceive receive_sema d).1 ∧
      (InterruptReceive receive_sema d).1.record.received = d.record.received ∧
      (InterruptReceive receive_sema d).2.count receive_sema +
        (messages d.record.delivered).1.length =
          (messages (InterruptReceive receive_sema d).1.record.delivered).1.length := by
  have hind : d.ind_rec < BUFFER_SIZE := by rw [hg.ind_rec]; exact hfits
  have hsnoc := messages_snoc d.record.delivered d.acia.inputRegister
  unfold InterruptReceive
  dsimp only
  rw [if_pos hind]
  by_cases hc : d.acia.inputRegister = 0
  · -- The message is complete.
    rw [if_pos hc] at hsnoc
    rw [if_pos hc]
    refine ⟨⟨h.index, ?_, Or.inr ⟨(messages d.record.delivered).2, ?_⟩⟩, rfl, ?_⟩
    · intro k r hk
      obtain ⟨chars, hget, hr⟩ := h.results k r hk
      refine ⟨chars, ?_, hr⟩
      show (messages (d.record.delivered ++ [d.acia.inputRegister])).1[k]? = some chars
      rw [hsnoc]
      have hlt := (List.getElem?_eq_some_iff.mp hget).1
      rwa [List.getElem?_append_left hlt]
    · exact {
        mode := by
          show d.acia.mode ^^^ REC_INTERRUPT = SEND_INTERRUPT
          rw [hg.mode]
          rfl
        last := ⟨(messages d.record.delivered).1, hsnoc, hg.read⟩
        noNul := messages_noNul _
        fits := hfits
        buffer := by
          intro j hj
          show Function.update d.receive_buffer d.ind_rec d.acia.inputRegister j = _
          -- Behind the characters stands the zero.
          by_cases hjr : j = d.ind_rec
          · rw [hjr, Function.update_self, hc,
              List.getD_eq_default _ _ (Nat.le_of_eq hg.ind_rec.symm)]
          · rw [Function.update_of_ne hjr]
            apply hg.buffer
            have := hg.ind_rec
            omega }
    · show List.count receive_sema [receive_sema] + _ =
        (messages (d.record.delivered ++ [d.acia.inputRegister])).1.length
      rw [hsnoc, List.length_append, List.count_singleton_self]
      exact Nat.add_comm _ _
  -- The character is added to the message that is coming.
  · rw [if_neg hc] at hsnoc
    rw [if_neg hc]
    refine ⟨⟨h.index, ?_, Or.inl ?_⟩, rfl, ?_⟩
    · intro k r hk
      obtain ⟨chars, hget, hr⟩ := h.results k r hk
      refine ⟨chars, ?_, hr⟩
      show (messages (d.record.delivered ++ [d.acia.inputRegister])).1[k]? = some chars
      rwa [hsnoc]
    · exact {
        mode := hg.mode
        read := by
          show d.record.received.length =
            (messages (d.record.delivered ++ [d.acia.inputRegister])).1.length
          rw [hsnoc]
          exact hg.read
        ind_rec := by
          show d.ind_rec + 1 = (messages (d.record.delivered ++ [d.acia.inputRegister])).2.length
          rw [hsnoc, List.length_append, hg.ind_rec]
          rfl
        buffer := by
          intro j hj
          show Function.update d.receive_buffer d.ind_rec d.acia.inputRegister j =
            (messages (d.record.delivered ++ [d.acia.inputRegister])).2.getD j 0
          rw [hsnoc]
          have hlt : j < d.ind_rec + 1 := hj
          by_cases hjr : j = d.ind_rec
          · rw [hjr, Function.update_self,
              List.getD_append_right _ _ _ _ (Nat.le_of_eq hg.ind_rec.symm), hg.ind_rec,
              Nat.sub_self]
            rfl
          · have hlt' : j < (messages d.record.delivered).2.length := by
              have := hg.ind_rec
              omega
            rw [Function.update_of_ne hjr, List.getD_append _ _ _ _ hlt']
            exact hg.buffer j (by omega) }
    · show List.count receive_sema [] + _ =
        (messages (d.record.delivered ++ [d.acia.inputRegister])).1.length
      rw [hsnoc]
      simp

/-- A reception interrupt: there is one call of `V` for each message that is
    complete. -/
theorem Receives.reception {d : State} (h : Receives d) (received : Option Byte)
    (hfits : ∀ c, received = some c → d.acia.mode &&& REC_INTERRUPT ≠ 0 →
      (messages d.record.delivered).2.length < BUFFER_SIZE) :
    Receives (InterruptRec receive_sema d received).1 ∧
      (InterruptRec receive_sema d received).1.record.received = d.record.received ∧
      (InterruptRec receive_sema d received).2.count receive_sema +
        (messages d.record.delivered).1.length =
          (messages (InterruptRec receive_sema d received).1.record.delivered).1.length := by
  cases received with
  | none => exact ⟨h, rfl, by simp [InterruptRec]⟩
  | some c =>
      have hfull : SameReceive d { d with
          acia := { d.acia with inputRegister := c, inputStateRegister := .FULL } } :=
        ⟨rfl, rfl, rfl, rfl, rfl, rfl⟩
      have hfull' := hfull.receives h
      unfold InterruptRec
      dsimp only
      split
      · rename_i hmode
        have hg : Gathering { d with
            acia := { d.acia with inputRegister := c, inputStateRegister := .FULL } } := by
          rcases hfull'.stage with hg | ⟨chars, hw⟩
          · exact hg
          · -- While a message waits, reception interrupts are disabled.
            rw [hw.mode] at hmode
            exact absurd rfl hmode
        exact hfull'.interruptReceive hg (hfits c rfl hmode)
      · exact ⟨hfull', rfl, by simp⟩

/-- The interrupts that are served together. -/
theorem Receives.serveAll (hne : send_sema ≠ receive_sema) {d d' : State} (h : Receives d)
    {es : List (Event Interrupt)} {vs : List SemId}
    (hr : (driver send_sema receive_sema).serveAll d es = some (d', vs))
    (hfits : Fits send_sema receive_sema d es) :
    Receives d' ∧ d'.record.received = d.record.received ∧
      vs.count receive_sema + (messages d.record.delivered).1.length =
        (messages d'.record.delivered).1.length := by
  induction es generalizing d vs with
  | nil =>
      obtain ⟨rfl, rfl⟩ := Prod.mk.inj (Option.some.inj hr)
      exact ⟨h, rfl, by simp⟩
  | cons x es ih =>
      cases x with
      -- `V` on a semaphore of somebody else.
      | other s =>
          rw [Driver.serveAll] at hr
          split at hr
          · cases hr
          · rename_i hs
            simp only [Option.bind_eq_bind, Option.bind_eq_some_iff] at hr
            obtain ⟨⟨d₁, vs₁⟩, hr, hv⟩ := hr
            obtain ⟨rfl, rfl⟩ := Prod.mk.inj (Option.some.inj hv)
            have hsr : s ≠ receive_sema := fun he => hs (by simp [driver, he])
            rw [List.count_cons_of_ne hsr]
            exact ih h hr hfits
      | device e =>
          simp only [Driver.serveAll, Option.bind_eq_bind, Option.bind_eq_some_iff] at hr
          obtain ⟨⟨d₁, vs₁⟩, hs, ⟨d₂, vs₂⟩, hr, hv⟩ := hr
          obtain ⟨rfl, rfl⟩ := Prod.mk.inj (Option.some.inj hv)
          obtain ⟨hchar, hrest⟩ := hfits
          -- The first interrupt; an emission has nothing to do with the receiver.
          have hone : Receives d₁ ∧ d₁.record.received = d.record.received ∧
              vs₁.count receive_sema + (messages d.record.delivered).1.length =
                (messages d₁.record.delivered).1.length := by
            cases e with
            | emission =>
                obtain ⟨hsame, hsend⟩ := InterruptEm_sameReceive hs
                refine ⟨hsame.receives h, hsame.received, ?_⟩
                have hzero : vs₁.count receive_sema = 0 :=
                  List.count_eq_zero.mpr fun hm => hne (hsend _ hm).symm
                rw [hzero, Nat.zero_add, hsame.delivered]
            | reception received =>
                obtain ⟨rfl, rfl⟩ := Prod.mk.inj (Option.some.inj hs)
                apply h.reception received
                intro c hc hmode
                apply hchar
                rw [hc]
                simpa [delivers] using hmode
          obtain ⟨hd₁, hreceived, hcount⟩ := hone
          obtain ⟨hd', hreceived', hcount'⟩ := ih hd₁ hr (hrest _ hs)
          refine ⟨hd', hreceived'.trans hreceived, ?_⟩
          show (vs₁ ++ vs₂).count receive_sema + (messages d.record.delivered).1.length =
            (messages d₂.record.delivered).1.length
          dsimp only at hcount'
          rw [List.count_append]
          omega

end Events

/-- The reader takes the message that waits. -/
theorem Receives.take {d : State} (h : Receives d) {chars : List Byte} (hw : Waiting d chars)
    {lg : Nat} (hlg : 0 < lg) :
    Receives (ttyReceive d lg) ∧ (ttyReceive d lg).record.delivered = d.record.delivered ∧
      (ttyReceive d lg).record.received.length = d.record.received.length + 1 := by
  obtain ⟨hlen, hget⟩ := copyLoop_start hw.noNul (fun _ => 0) hw.buffer hlg
  obtain ⟨ms, hms, hread⟩ := hw.last
  have hfits : (copyLoop d.receive_buffer lg 0 fun _ => 0).2 ≤ BUFFER_SIZE := by
    have := hw.fits
    rw [hlen]
    simp [cut]
    omega
  -- What the loop copies is the message, cut to the length.
  have hcopy : (List.range (copyLoop d.receive_buffer lg 0 fun _ => 0).2).map
      (copyLoop d.receive_buffer lg 0 fun _ => 0).1 = cut lg chars := by
    rw [hlen]
    apply List.ext_getElem
    · simp
    · intro j hj hj'
      rw [List.getElem_map, List.getElem_range, hget j, List.getD_eq_getElem _ _ hj']
  unfold ttyReceive
  rw [if_pos hw.mode]
  dsimp only
  rw [if_pos hfits, hcopy]
  refine ⟨⟨h.index, ?_, Or.inl ?_⟩, rfl, by simp⟩
  · intro k r hk
    change (d.record.received ++ [(lg, cut lg chars)])[k]? = some r at hk
    -- The result is the new one or an old one.
    by_cases hlast : k < d.record.received.length
    · rw [List.getElem?_append_left hlast] at hk
      exact h.results k r hk
    · rw [List.getElem?_append_right (Nat.le_of_not_lt hlast)] at hk
      obtain ⟨hzero, hr⟩ := List.getElem?_eq_some_iff.mp hk
      simp only [List.length_singleton] at hzero
      have hk' : k = ms.length := by omega
      refine ⟨chars, ?_, ?_⟩
      · show (messages d.record.delivered).1[k]? = some chars
        rw [hms, hk']
        simp
      · rw [← hr]
        simp
  · exact {
      mode := rfl
      read := by
        show (d.record.received ++ [(lg, cut lg chars)]).length =
          (messages d.record.delivered).1.length
        rw [hms, List.length_append, List.length_append, hread]
        rfl
      ind_rec := by
        show 0 = (messages d.record.delivered).2.length
        rw [hms]
        rfl
      buffer := by
        intro j hj
        exact absurd hj (Nat.not_lt_zero j) }

/-! ## Runs -/

section Runs

variable {send_sema receive_sema : SemId} {tr : Moves} {m m' : Driven State Pc}
  {x : Move Pc Interrupt}

/-- Thread `t` has returned from `P` in `TtyReceive` and has not taken its message. -/
def LetIn (receive_sema : SemId) (m : Driven State Pc) (t : ThreadId) : Prop :=
  (∃ lg, m.pc t = some (.receive lg)) ∧ ¬ InP receive_sema m.kernel t

/-- The readers that are let in have a unit of the semaphore each, and there is a
    unit for each message that is complete. -/
structure ReceiveInv (send_sema receive_sema : SemId) (tr : Moves) (m : Driven State Pc) :
    Prop where
  receives : Receives m.device
  length : ∀ t lg, m.pc t = some (.receive lg) → 0 < lg
  vs : vMade receive_sema ((driver send_sema receive_sema).kernelHistory tr) =
    (messages m.device.record.delivered).1.length
  unit : 0 ≤ (m.kernel.semaphore receive_sema).value
  letIn : ∃ G : List ThreadId, (∀ t, LetIn receive_sema m t → t ∈ G) ∧
    pReturned receive_sema ((driver send_sema receive_sema).kernelHistory tr) =
      m.device.record.received.length + G.length

namespace ReceiveInv

/-- A reader that is let in and runs has a message waiting for it. -/
theorem waits {initialValue : SemId → Int} {send_buffer receive_buffer : Nat → Byte}
    {ind_send : Nat} (h : ReceiveInv send_sema receive_sema tr m)
    (hr : Run (driver send_sema receive_sema).step
      (initial initialValue send_sema receive_sema send_buffer receive_buffer ind_send) tr m)
    (hrun : m.kernel.sleeping = false) {lg : Nat}
    (hp : m.pc m.kernel.currentThread = some (.receive lg)) : ∃ chars, Waiting m.device chars := by
  have hkr := (driver send_sema receive_sema).kernel_run hr
  obtain ⟨loc, hplaced, -⟩ := (scheduled_of_run hkr).placed
  obtain ⟨G, hG, hcount⟩ := h.letIn
  have hmem : m.kernel.currentThread ∈ G :=
    hG _ ⟨⟨lg, hp⟩, (hplaced.current_not_in (l := 0) hrun).1⟩
  have hpos : 0 < G.length := List.length_pos_of_mem hmem
  have hv := value_of_run hkr receive_sema
  rw [Function.update_self, h.vs] at hv
  have hunit := h.unit
  rcases h.receives.stage with hg | hw
  · have := hg.read
    omega
  · exact hw

/-- A step of the kernel: `v` messages are complete in it. -/
theorem kernelStep (h : ReceiveInv send_sema receive_sema tr m) {a : Action}
    {loc : ThreadId → Option Place} (hs : Step m.kernel a m'.kernel)
    (hka : (driver send_sema receive_sema).kernelAction m x = some a)
    (hplaced : PlacedAt m.kernel loc) (hw : NoneQueued m.kernel)
    (hunit : FindsUnit receive_sema m.kernel a)
    (hreceives : Receives m'.device)
    (hreceived : m'.device.record.received = m.device.record.received)
    (hvs : vCalls receive_sema a + (messages m.device.record.delivered).1.length =
      (messages m'.device.record.delivered).1.length)
    (hpc : ∀ t lg, m'.pc t = some (.receive lg) → m.pc t = some (.receive lg) ∨
      0 < lg ∧ a = .semP receive_sema ∧ t = m.kernel.currentThread) :
    ReceiveInv send_sema receive_sema (tr ++ [(m, x)]) m' := by
  have hhist : (driver send_sema receive_sema).kernelHistory (tr ++ [(m, x)]) =
      (driver send_sema receive_sema).kernelHistory tr ++ [(m.kernel, a)] := by
    rw [Driver.kernelHistory_snoc, hka]
    rfl
  refine ⟨hreceives, ?_, ?_, ?_, ?_⟩
  · intro t lg ht
    rcases hpc t lg ht with ht | ⟨hlg, -⟩
    · exact h.length t lg ht
    · exact hlg
  · rw [hhist, vMade_snoc, h.vs, ← hvs]
    exact Nat.add_comm _ _
  · exact (hs.value_nonneg_iff (fun hrun => hplaced.current_not_ready hrun) receive_sema
      h.unit).mpr hunit
  · obtain ⟨G, hG, hcount⟩ := h.letIn
    refine ⟨(pReturner receive_sema m.kernel a).toList ++ G, ?_, ?_⟩
    · -- Who is let in was let in before, or comes back from `P` in this step.
      rintro t ⟨⟨lg, ht⟩, hin⟩
      rw [hs.inP hplaced hw] at hin
      rw [List.mem_append, Option.mem_toList]
      by_cases hret : pReturner receive_sema m.kernel a = some t
      · exact Or.inl hret
      · right
        rcases hpc t lg ht with ht | ⟨-, hcall⟩
        · apply hG
          refine ⟨⟨lg, ht⟩, fun hi => hin ⟨Or.inl hi, hret⟩⟩
        · exact absurd ⟨Or.inr hcall, hret⟩ hin
    · rw [hhist, pReturned_snoc, pReturns_eq, hcount, hreceived, List.length_append]
      omega

/-- A step without the kernel that is no result of `TtyReceive`. -/
theorem quiet (h : ReceiveInv send_sema receive_sema tr m)
    (hka : (driver send_sema receive_sema).kernelAction m x = none) (hk : m'.kernel = m.kernel)
    (hsame : SameReceive m.device m'.device)
    (hpc : ∀ t lg, m'.pc t = some (.receive lg) → m.pc t = some (.receive lg)) :
    ReceiveInv send_sema receive_sema (tr ++ [(m, x)]) m' := by
  have hhist : (driver send_sema receive_sema).kernelHistory (tr ++ [(m, x)]) =
      (driver send_sema receive_sema).kernelHistory tr :=
    Driver.kernelHistory_none hka
  obtain ⟨G, hG, hcount⟩ := h.letIn
  refine ⟨hsame.receives h.receives, fun t lg ht => h.length t lg (hpc t lg ht), ?_, ?_, G, ?_, ?_⟩
  · rw [hhist, hsame.delivered, h.vs]
  · rw [hk]
    exact h.unit
  · rintro t ⟨⟨lg, ht⟩, hin⟩
    rw [hk] at hin
    exact hG t ⟨⟨lg, hpc t lg ht⟩, hin⟩
  · rw [hhist, hsame.received, hcount]

/-- A reader takes its message and returns. -/
theorem take {initialValue : SemId → Int} {send_buffer receive_buffer : Nat → Byte}
    {ind_send : Nat} (h : ReceiveInv send_sema receive_sema tr m)
    (hr : Run (driver send_sema receive_sema).step
      (initial initialValue send_sema receive_sema send_buffer receive_buffer ind_send) tr m)
    (hka : (driver send_sema receive_sema).kernelAction m x = none) (hk : m'.kernel = m.kernel)
    (hrun : m.kernel.sleeping = false) {lg : Nat}
    (hp : m.pc m.kernel.currentThread = some (.receive lg))
    (hdev : m'.device = ttyReceive m.device lg)
    (hpc : m'.pc = Function.update m.pc m.kernel.currentThread none) :
    ReceiveInv send_sema receive_sema (tr ++ [(m, x)]) m' := by
  have hhist : (driver send_sema receive_sema).kernelHistory (tr ++ [(m, x)]) =
      (driver send_sema receive_sema).kernelHistory tr :=
    Driver.kernelHistory_none hka
  have hkr := (driver send_sema receive_sema).kernel_run hr
  obtain ⟨loc, hplaced, -⟩ := (scheduled_of_run hkr).placed
  obtain ⟨chars, hw⟩ := h.waits hr hrun hp
  obtain ⟨hreceives, hdelivered, hreceived⟩ := h.receives.take hw (h.length _ lg hp)
  obtain ⟨G, hG, hcount⟩ := h.letIn
  have hmem : m.kernel.currentThread ∈ G :=
    hG _ ⟨⟨lg, hp⟩, (hplaced.current_not_in (l := 0) hrun).1⟩
  -- The thread has returned; the others are where they were.
  have hpc' : ∀ t lg', m'.pc t = some (.receive lg') →
      t ≠ m.kernel.currentThread ∧ m.pc t = some (.receive lg') := by
    intro t lg' ht
    rw [hpc] at ht
    by_cases htc : t = m.kernel.currentThread
    · rw [htc, Function.update_self] at ht
      cases ht
    · rw [Function.update_of_ne htc] at ht
      exact ⟨htc, ht⟩
  -- It leaves the threads that are let in.
  refine ⟨hdev ▸ hreceives, fun t lg' ht => h.length t lg' (hpc' t lg' ht).2, ?_, ?_,
    G.erase m.kernel.currentThread, ?_, ?_⟩
  · rw [hhist, hdev, hdelivered, h.vs]
  · rw [hk]
    exact h.unit
  · rintro t ⟨⟨lg', ht⟩, hin⟩
    rw [hk] at hin
    obtain ⟨htc, ht⟩ := hpc' t lg' ht
    exact (List.mem_erase_of_ne htc).mpr (hG t ⟨⟨lg', ht⟩, hin⟩)
  · have hpos : 0 < G.length := List.length_pos_of_mem hmem
    rw [hhist, hdev, hreceived, hcount, List.length_erase_of_mem hmem]
    omega

/-- The kernel's step in a move with interrupts. -/
theorem events (hne : send_sema ≠ receive_sema) (h : ReceiveInv send_sema receive_sema tr m)
    {es : List (Event Interrupt)} {vs : List SemId} {a : Action} {loc : ThreadId → Option Place}
    (hs : Step m.kernel a m'.kernel)
    (hka : (driver send_sema receive_sema).kernelAction m x = some a)
    (hplaced : PlacedAt m.kernel loc) (hw : NoneQueued m.kernel)
    (hunit : FindsUnit receive_sema m.kernel a)
    (hserve : (driver send_sema receive_sema).serveAll m.device es = some (m'.device, vs))
    (hfits : Fits send_sema receive_sema m.device es) (ha : a = .interrupt vs ∨ a = .idle vs)
    (hpc : m'.pc = m.pc) : ReceiveInv send_sema receive_sema (tr ++ [(m, x)]) m' := by
  obtain ⟨hreceives, hreceived, hcount⟩ := h.receives.serveAll hne hserve hfits
  have hvs : vCalls receive_sema a = vs.count receive_sema := by
    rcases ha with rfl | rfl
    · rfl
    · rfl
  apply h.kernelStep hs hka hplaced hw hunit hreceives hreceived
  · rw [hvs, hcount]
  · intro t lg ht
    rw [hpc] at ht
    exact Or.inl ht

theorem step {initialValue : SemId → Int} {send_buffer receive_buffer : Nat → Byte}
    {ind_send : Nat} (hne : send_sema ≠ receive_sema) (h : ReceiveInv send_sema receive_sema tr m)
    (hr : Run (driver send_sema receive_sema).step
      (initial initialValue send_sema receive_sema send_buffer receive_buffer ind_send) tr m)
    (hc : FitsAndFindsUnit send_sema receive_sema m x)
    (hs : (driver send_sema receive_sema).step m x = some m') :
    ReceiveInv send_sema receive_sema (tr ++ [(m, x)]) m' := by
  have hsched := scheduled_of_run ((driver send_sema receive_sema).kernel_run hr)
  have hw := hsched.noneQueued
  obtain ⟨loc, hplaced, -⟩ := hsched.placed
  obtain ⟨-, oa, heff, hka, hk⟩ := Driver.step_eq _ hs
  obtain ⟨hfits, hunit⟩ := hc
  -- A call only enters the thread in the driver; the other moves take the kernel a step on.
  cases x with
  | call p =>
      rw [Driver.effect] at heff
      split at heff
      · rename_i hcall
        obtain ⟨-, -, hentry⟩ := hcall
        obtain ⟨rfl, hx⟩ := Prod.mk.inj (Option.some.inj heff)
        obtain ⟨hdev, hpc⟩ := Prod.mk.inj hx
        obtain ⟨-, hkk⟩ := hk.resolve_right (by simp)
        apply h.quiet hka hkk
        · rw [← hdev]
          exact ⟨rfl, rfl, rfl, rfl, rfl, rfl⟩
        · intro t lg ht
          rw [← hpc] at ht
          by_cases htc : t = m.kernel.currentThread
          · rw [htc, Function.update_self] at ht
            obtain rfl := Option.some.inj ht
            cases hentry
          · rwa [Function.update_of_ne htc] at ht
      · cases heff
  | advance =>
      obtain ⟨hrun, p, a, d, q, hp, hn, he⟩ := Driver.effect_advance heff
      obtain ⟨rfl, hx⟩ := Prod.mk.inj he
      obtain ⟨rfl, hpc⟩ := Prod.mk.inj hx
      -- Whoever waits after a part of another operation has waited before it.
      have hleft : (∀ lg, q ≠ some (.receive lg)) → ∀ t lg, m'.pc t = some (.receive lg) →
          m.pc t = some (.receive lg) := by
        intro hq t lg ht
        rw [hpc] at ht
        by_cases htc : t = m.kernel.currentThread
        · rw [htc, Function.update_self] at ht
          exact absurd ht (hq lg)
        · rwa [Function.update_of_ne htc] at ht
      cases p with
      -- `P` on the other semaphore.
      | TtySend buff =>
          obtain ⟨rfl, hx⟩ := Prod.mk.inj (Option.some.inj hn)
          obtain ⟨hdev, rfl⟩ := Prod.mk.inj hx
          obtain ⟨b, hb, hstep⟩ := hk.resolve_left (by simp)
          obtain rfl := Option.some.inj hb
          apply h.kernelStep hstep hka hplaced hw (hunit _ hka)
          · rw [← hdev]
            exact h.receives
          · rw [← hdev]
          · rw [← hdev]
            exact Nat.zero_add _
          · intro t lg ht
            exact Or.inl (hleft (by simp) t lg ht)
      | send buff =>
          obtain ⟨rfl, hx⟩ := Prod.mk.inj (Option.some.inj hn)
          obtain ⟨hdev, rfl⟩ := Prod.mk.inj hx
          obtain ⟨-, hkk⟩ := hk.resolve_right (by simp)
          apply h.quiet hka hkk _ (hleft (by simp))
          rw [← hdev]
          exact ttySend_sameReceive m.device buff
      | TtyReceive lg =>
          change (if lg ≤ 0 then _ else _) = _ at hn
          split at hn
          -- A length that is not positive is answered at once.
          · obtain ⟨rfl, hx⟩ := Prod.mk.inj (Option.some.inj hn)
            obtain ⟨hdev, rfl⟩ := Prod.mk.inj hx
            obtain ⟨-, hkk⟩ := hk.resolve_right (by simp)
            apply h.quiet hka hkk _ (hleft (by simp))
            rw [← hdev]
            exact ⟨rfl, rfl, rfl, rfl, rfl, rfl⟩
          -- `P` on the semaphore of the receiver: the thread waits from here on.
          · obtain ⟨rfl, hx⟩ := Prod.mk.inj (Option.some.inj hn)
            obtain ⟨hdev, rfl⟩ := Prod.mk.inj hx
            obtain ⟨b, hb, hstep⟩ := hk.resolve_left (by simp)
            obtain rfl := Option.some.inj hb
            apply h.kernelStep hstep hka hplaced hw (hunit _ hka)
            · rw [← hdev]
              exact h.receives
            · rw [← hdev]
            · rw [← hdev]
              exact Nat.zero_add _
            · intro t lg' ht
              rw [hpc] at ht
              by_cases htc : t = m.kernel.currentThread
              · rw [htc, Function.update_self] at ht
                have hlg := Pc.receive.inj (Option.some.inj ht)
                exact Or.inr ⟨by omega, rfl, htc⟩
              · rw [Function.update_of_ne htc] at ht
                exact Or.inl ht
      | receive lg =>
          obtain ⟨rfl, hx⟩ := Prod.mk.inj (Option.some.inj hn)
          obtain ⟨hdev, rfl⟩ := Prod.mk.inj hx
          obtain ⟨-, hkk⟩ := hk.resolve_right (by simp)
          exact h.take hr hka hkk hrun hp hdev.symm hpc
  | other a =>
      rw [Driver.effect] at heff
      split at heff
      · rename_i hout
        -- From outside nobody calls `V` on the semaphores of the driver.
        obtain ⟨hsem, -⟩ := Driver.outside_ne hout.1
        obtain ⟨-, hv⟩ := hsem receive_sema (by simp [driver])
        obtain ⟨rfl, hx⟩ := Prod.mk.inj (Option.some.inj heff)
        obtain ⟨hdev, hpc⟩ := Prod.mk.inj hx
        obtain ⟨b, hb, hstep⟩ := hk.resolve_left (by simp)
        obtain rfl := Option.some.inj hb
        apply h.kernelStep hstep hka hplaced hw (hunit _ hka)
        · rw [← hdev]
          exact h.receives
        · rw [← hdev]
        · rw [← hdev, hv]
          exact Nat.zero_add _
        · intro t lg ht
          rw [← hpc] at ht
          exact Or.inl ht
      · cases heff
  | interrupt es =>
      obtain ⟨vs, hserve, hka, hstep, hpc⟩ := Driver.step_events .interrupt rfl hs
      exact h.events hne hstep hka hplaced hw (hunit _ hka) hserve hfits (Or.inl rfl) hpc
  | idle es =>
      obtain ⟨vs, hserve, hka, hstep, hpc⟩ := Driver.step_events .idle rfl hs
      exact h.events hne hstep hka hplaced hw (hunit _ hka) hserve hfits (Or.inr rfl) hpc

end ReceiveInv

end Runs

/-- In every run in which the messages fit in the buffer and no reader comes back in
    `P` without a unit, the readers get the messages of the stream one after the
    other, and none of them ends the program. -/
theorem receives_in_order (initialValue : SemId → Int) (send_sema receive_sema : SemId)
    (hne : send_sema ≠ receive_sema) (send_buffer receive_buffer : Nat → Byte) (ind_send : Nat)
    (tr : Moves) (m : Driven State Pc)
    (hr : Run (driver send_sema receive_sema).step
      (initial initialValue send_sema receive_sema send_buffer receive_buffer ind_send) tr m)
    (hc : ∀ x ∈ tr, FitsAndFindsUnit send_sema receive_sema x.1 x.2) : ReceiveLaw m := by
  have hinv : ReceiveInv send_sema receive_sema tr m := by
    induction hr with
    | nil =>
        refine ⟨⟨rfl, ?_, Or.inl ⟨rfl, rfl, rfl, ?_⟩⟩, ?_, rfl, ?_, [], ?_, rfl⟩
        · intro k r hk
          cases hk
        · intro j hj
          cases hj
        · intro t lg ht
          cases ht
        · exact Int.le_of_eq (Function.update_self receive_sema (0 : Int)
            (Function.update initialValue send_sema 1)).symm
        · rintro t ⟨⟨lg, ht⟩, -⟩
          cases ht
    | snoc hr hs ih =>
        have hinv := ih fun y hy => hc y (List.mem_append_left _ hy)
        exact hinv.step hne hr (hc (_, _) (by simp)) hs
  refine ⟨hinv.receives.index, hinv.receives.results, fun hrun lg hp => ?_⟩
  obtain ⟨chars, hw⟩ := hinv.waits hr hrun hp
  exact hw.mode

/-- Thread 1 waits for a message; the message `"a"` comes; the main thread takes it
    in a `TtyReceive` of its own and yields; thread 1 comes back in `P`. -/
def overtaken : List (Move Pc Interrupt) :=
  [.other (.newThread 1), .other (.start 1 0), .other .yield, .call (.TtyReceive 5), .advance,
    .other .dispatch,
    .interrupt [.device (.reception (some 97)), .device (.reception (some 0))],
    .call (.TtyReceive 5), .advance, .advance, .other .yield]

/-- The thread waits in a call `TtyReceive` of length `lg`. -/
def waitsFor (lg : Nat) : Option Pc → Bool
  | some (.receive l) => l == lg
  | _ => false

theorem eq_of_waitsFor {lg : Nat} {pc : Option Pc} (h : waitsFor lg pc = true) :
    pc = some (.receive lg) := by
  unfold waitsFor at h
  split at h
  · rw [beq_iff_eq.mp h]
  · cases h

theorem receives_in_order_fails :
    ¬ ∀ (initialValue : SemId → Int) (send_sema receive_sema : SemId)
      (send_buffer receive_buffer : Nat → Byte) (ind_send : Nat) (tr : Moves)
      (m : Driven State Pc), send_sema ≠ receive_sema →
      Run (driver send_sema receive_sema).step
        (initial initialValue send_sema receive_sema send_buffer receive_buffer ind_send) tr m →
      ReceiveLaw m := by
  intro h
  obtain ⟨⟨tr, m⟩, he, hx⟩ := Option.map_eq_some_iff.mp
    (show (exec (driver 0 1).step (initial (fun _ => 0) 0 1 (fun _ => 0) (fun _ => 0) 0)
        overtaken).map (fun x => (x.2.kernel.sleeping, waitsFor 5 (x.2.pc x.2.kernel.currentThread),
        x.2.device.acia.mode)) = some (false, true, 3) by decide)
  obtain ⟨hrun, hx⟩ := Prod.mk.inj hx
  obtain ⟨hp, hmode⟩ := Prod.mk.inj hx
  have hlaw := h _ 0 1 _ _ 0 tr m (by decide) (run_of_exec he)
  rw [hlaw.stays hrun 5 (eq_of_waitsFor hp)] at hmode
  cases hmode

/-- A reader waits, and gets the message `"ab"` cut to one character. -/
theorem receives_in_order_ab :
    ∃ tr m, Run (driver 0 1).step (initial (fun _ => 0) 0 1 (fun _ => 0) (fun _ => 0) 0) tr m ∧
      m.device.record.received = [(2, [97, 0])] ∧ ReceiveLaw m := by
  obtain ⟨⟨tr, m⟩, he, hx⟩ := Option.map_eq_some_iff.mp
    (show (exec (driver 0 1).step (initial (fun _ => 0) 0 1 (fun _ => 0) (fun _ => 0) 0)
        [.interrupt [.device (.reception (some 97)), .device (.reception (some 98)),
          .device (.reception (some 0))], .call (.TtyReceive 2), .advance, .advance]).map
            (fun x => (x.2.device.record.received,
              decide (∀ y ∈ x.1, FitsAndFindsUnit 0 1 y.1 y.2))) =
          some ([(2, [97, 0])], true) by decide)
  obtain ⟨hreceived, hc⟩ := Prod.mk.inj hx
  exact ⟨tr, m, run_of_exec he, hreceived,
    receives_in_order _ 0 1 (by decide) _ _ 0 tr m (run_of_exec he) (of_decide_eq_true hc)⟩

end DriverACIA
end Nachos
