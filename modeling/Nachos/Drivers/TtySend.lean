/-
  Nachos.Drivers.TtySend

  What reaches the line.  `InterruptSend` hands over the next character whether or
  not the last one ended the message: after the `'\0'` of a message it goes on with
  what follows in the buffer, and the sender that comes next finds the output
  register full.
-/

import Nachos.Drivers.DrvACIA
import Mathlib.Data.List.GetD

namespace Nachos
namespace DriverACIA

open Kernel Transition Words

/-- The characters handed to `PutChar`. -/
def handedChars (d : State) : List Byte := d.record.handed.map Prod.fst

/-- What the messages should put on the line. -/
def texts (ms : List Message) : List Byte := (ms.map fun m => cut BUFFER_SIZE m.chars).flatten

/-- The characters handed to `PutChar` are those of the messages, in order: all of
    every message but the last, at least one of the last, and all of them when no
    emission interrupt is to come.  `PutChar` is called with an empty output register
    and `send_buffer` is read inside its bounds. -/
structure SendLaw (d : State) : Prop where
  order : handedChars d <+: texts d.record.sent
  last : ∀ ms m, d.record.sent = ms ++ [m] → (texts ms).length < (handedChars d).length
  idle : d.acia.emissions = 0 → handedChars d = texts d.record.sent
  empty : ∀ x ∈ d.record.handed, x.2 = .EMPTY
  index : d.send_overrun = false

/-- The emission interrupts among those that are served find a character other than
    `'\0'` in the output register. -/
def BeforeEnd (send_sema receive_sema : SemId) (d : State) : List (Event Interrupt) → Prop
  | [] => True
  | .device e :: es =>
      (e = .emission → d.acia.outputRegister ≠ 0) ∧
        ∀ r, (driver send_sema receive_sema).serve d e = some r →
          BeforeEnd send_sema receive_sema r.1 es
  | .other _ :: es => BeforeEnd send_sema receive_sema d es

/-- The message is the first one, it finds no received message waiting, and the
    emission interrupt of its `'\0'` is not served. -/
def FirstMessage (send_sema receive_sema : SemId) (m : Driven State Pc) :
    Move Pc Interrupt → Prop
  | .advance =>
      ∀ buff, m.pc m.kernel.currentThread = some (.send buff) →
        m.device.record.sent = [] ∧ m.device.acia.mode = REC_INTERRUPT ||| SEND_INTERRUPT
  | .interrupt es => BeforeEnd send_sema receive_sema m.device es
  | .idle es => BeforeEnd send_sema receive_sema m.device es
  | _ => True

/-! ## One message on its way -/

/-- Reception interrupts may be disabled, emission interrupts never are. -/
def ModeOk (d : State) : Prop :=
  d.acia.mode = REC_INTERRUPT ||| SEND_INTERRUPT ∨ d.acia.mode = SEND_INTERRUPT

/-- Nothing has been sent. -/
structure Idle (d : State) : Prop where
  sent : d.record.sent = []
  handed : d.record.handed = []
  emissions : d.acia.emissions = 0
  register : d.acia.outputStateRegister = .EMPTY

/-- `ind_send` characters of the message have been handed over, and the interrupt for
    the last of them is to come. -/
structure Sending (d : State) (m : Message) : Prop where
  sent : d.record.sent = [m]
  handed : handedChars d = (cut BUFFER_SIZE m.chars).take d.ind_send
  buffer : ∀ j < (cut BUFFER_SIZE m.chars).length,
    d.send_buffer j = (cut BUFFER_SIZE m.chars).getD j 0
  pos : 0 < d.ind_send
  le : d.ind_send ≤ (cut BUFFER_SIZE m.chars).length
  emissions : d.acia.emissions = 1
  register : d.acia.outputStateRegister = .FULL
  output : d.acia.outputRegister = (cut BUFFER_SIZE m.chars).getD (d.ind_send - 1) 0
  empty : ∀ x ∈ d.record.handed, x.2 = .EMPTY

structure Good (d : State) : Prop where
  mode : ModeOk d
  index : d.send_overrun = false
  stage : Idle d ∨ ∃ m, Sending d m

/-- More has been handed over than the messages have. -/
def Excess (d : State) : Prop :=
  (texts d.record.sent).length < (handedChars d).length ∨ d.send_overrun = true

theorem not_sendLaw_of_excess {d : State} (h : Excess d) : ¬ SendLaw d := by
  intro hl
  rcases h with h | h
  · have := hl.order.length_le
    omega
  · rw [hl.index] at h
    cases h

theorem texts_singleton (m : Message) : texts [m] = cut BUFFER_SIZE m.chars := by
  simp [texts]

/-- A character of the cut message is `'\0'` only at its end. -/
theorem cut_eq_zero {n : Nat} {chars : List Byte} (hne : ∀ c ∈ chars, c ≠ 0) {j : Nat}
    (hj : j < (cut n chars).length) (h : (cut n chars).getD j 0 = 0) :
    j + 1 = (cut n chars).length := by
  by_contra hlt
  have hlen : (cut n chars).length = (chars.take (n - 1)).length + 1 := by simp [cut]
  have hj' : j < (chars.take (n - 1)).length := by omega
  have hget : (cut n chars).getD j 0 = (chars.take (n - 1))[j] := by
    rw [cut, List.getD_append _ _ _ _ hj', List.getD_eq_getElem _ _ hj']
  apply hne ((chars.take (n - 1))[j])
  · exact List.mem_of_mem_take (List.getElem_mem hj')
  · rw [← hget, h]

theorem cut_getD_last (n : Nat) (chars : List Byte) :
    (cut n chars).getD ((cut n chars).length - 1) 0 = 0 := by
  have hlen : (cut n chars).length - 1 = (chars.take (n - 1)).length := by simp [cut]
  rw [hlen, cut, List.getD_append_right _ _ _ _ (Nat.le_refl _), Nat.sub_self]
  rfl

theorem cut_length_le {n : Nat} (hn : 0 < n) (chars : List Byte) : (cut n chars).length ≤ n := by
  simp [cut]
  omega

theorem Good.sendLaw {d : State} (h : Good d) : SendLaw d := by
  rcases h.stage with hi | ⟨m, hs⟩
  · have hnone : handedChars d = [] := by simp [handedChars, hi.handed]
    exact {
      order := by rw [hnone]; exact List.nil_prefix
      last := by
        intro ms m hm
        rw [hi.sent] at hm
        simp at hm
      idle := fun _ => by rw [hnone, hi.sent]; rfl
      empty := by simp [hi.handed]
      index := h.index }
  · have hlen : (handedChars d).length = d.ind_send := by
      rw [hs.handed, List.length_take]
      exact Nat.min_eq_left hs.le
    exact {
      order := by
        rw [hs.sent, texts_singleton, hs.handed]
        exact List.take_prefix _ _
      last := by
        intro ms m' hm
        rw [hs.sent] at hm
        have hlast : [] ++ [m] = ms ++ [m'] := hm
        obtain ⟨rfl, -⟩ := List.append_inj' hlast rfl
        rw [hlen]
        exact hs.pos
      idle := fun h0 => by
        rw [hs.emissions] at h0
        cases h0
      empty := hs.empty
      index := h.index }

/-! ## The receiving half -/

/-- What the sending half of the driver uses is as it was. -/
structure SameSend (d d' : State) : Prop where
  sent : d'.record.sent = d.record.sent
  handed : d'.record.handed = d.record.handed
  send_buffer : d'.send_buffer = d.send_buffer
  ind_send : d'.ind_send = d.ind_send
  overrun : d'.send_overrun = d.send_overrun
  emissions : d'.acia.emissions = d.acia.emissions
  output : d'.acia.outputRegister = d.acia.outputRegister
  register : d'.acia.outputStateRegister = d.acia.outputStateRegister
  mode : ModeOk d → ModeOk d'

theorem SameSend.trans {d d' d'' : State} (h : SameSend d d') (h' : SameSend d' d'') :
    SameSend d d'' where
  sent := h'.sent.trans h.sent
  handed := h'.handed.trans h.handed
  send_buffer := h'.send_buffer.trans h.send_buffer
  ind_send := h'.ind_send.trans h.ind_send
  overrun := h'.overrun.trans h.overrun
  emissions := h'.emissions.trans h.emissions
  output := h'.output.trans h.output
  register := h'.register.trans h.register
  mode := h'.mode ∘ h.mode

theorem SameSend.good {d d' : State} (h : SameSend d d') (hg : Good d) : Good d' := by
  have hchars : handedChars d' = handedChars d := by rw [handedChars, h.handed, handedChars]
  refine ⟨h.mode hg.mode, by rw [h.overrun, hg.index], ?_⟩
  rcases hg.stage with hi | ⟨m, hs⟩
  · left
    exact {
      sent := by rw [h.sent, hi.sent]
      handed := by rw [h.handed, hi.handed]
      emissions := by rw [h.emissions, hi.emissions]
      register := by rw [h.register, hi.register] }
  · right
    exact ⟨m, {
      sent := by rw [h.sent, hs.sent]
      handed := by rw [hchars, h.ind_send, hs.handed]
      buffer := by rw [h.send_buffer]; exact hs.buffer
      pos := by rw [h.ind_send]; exact hs.pos
      le := by rw [h.ind_send]; exact hs.le
      emissions := by rw [h.emissions, hs.emissions]
      register := by rw [h.register, hs.register]
      output := by rw [h.output, h.ind_send, hs.output]
      empty := by rw [h.handed]; exact hs.empty }⟩

theorem SameSend.excess {d d' : State} (h : SameSend d d') (he : Excess d) : Excess d' := by
  unfold Excess handedChars at he ⊢
  rwa [h.sent, h.handed, h.overrun]

theorem InterruptReceive_sameSend (receive_sema : SemId) (d : State) :
    SameSend d (InterruptReceive receive_sema d).1 := by
  unfold InterruptReceive
  dsimp only
  split
  · split
    · -- The mode loses the bit of the reception interrupts, or gets it back.
      refine ⟨rfl, rfl, rfl, rfl, rfl, rfl, rfl, rfl, ?_⟩
      rintro (h | h)
      · right
        show d.acia.mode ^^^ REC_INTERRUPT = SEND_INTERRUPT
        rw [h]
        rfl
      · left
        show d.acia.mode ^^^ REC_INTERRUPT = REC_INTERRUPT ||| SEND_INTERRUPT
        rw [h]
        rfl
    · exact ⟨rfl, rfl, rfl, rfl, rfl, rfl, rfl, rfl, id⟩
  · exact ⟨rfl, rfl, rfl, rfl, rfl, rfl, rfl, rfl, id⟩

theorem InterruptRec_sameSend (receive_sema : SemId) (d : State) (received : Option Byte) :
    SameSend d (InterruptRec receive_sema d received).1 := by
  cases received with
  | none => exact ⟨rfl, rfl, rfl, rfl, rfl, rfl, rfl, rfl, id⟩
  | some c =>
      have hfull : SameSend d { d with
          acia := { d.acia with inputRegister := c, inputStateRegister := .FULL } } :=
        ⟨rfl, rfl, rfl, rfl, rfl, rfl, rfl, rfl, id⟩
      unfold InterruptRec
      dsimp only
      split
      · exact hfull.trans (InterruptReceive_sameSend receive_sema _)
      · exact hfull

theorem ttyReceive_sameSend (d : State) (lg : Nat) : SameSend d (ttyReceive d lg) := by
  unfold ttyReceive
  split
  · dsimp only
    split
    · exact ⟨rfl, rfl, rfl, rfl, rfl, rfl, rfl, rfl, fun _ => Or.inl rfl⟩
    · exact ⟨rfl, rfl, rfl, rfl, rfl, rfl, rfl, rfl, id⟩
  · exact ⟨rfl, rfl, rfl, rfl, rfl, rfl, rfl, rfl, id⟩

/-! ## The sending half -/

/-- An emission interrupt hands over the next character of the message; after the
    `'\0'` there is none, and it hands over what comes next. -/
theorem Good.emission {send_sema : SemId} {d : State} (h : Good d) {r : State × List SemId}
    (hr : InterruptEm send_sema d = some r) :
    (d.acia.outputRegister ≠ 0 → Good r.1) ∧ (d.acia.outputRegister = 0 → Excess r.1) := by
  unfold InterruptEm at hr
  split at hr
  · rename_i hem
    rcases h.stage with hi | ⟨m, hs⟩
    · rw [hi.emissions] at hem
      omega
    · have hmode : d.acia.mode &&& SEND_INTERRUPT ≠ 0 := by
        rcases h.mode with hm | hm
        · rw [hm]
          decide
        · rw [hm]
          decide
      dsimp only at hr
      rw [if_pos hmode] at hr
      obtain rfl := Option.some.inj hr
      have hlen := cut_length_le (n := BUFFER_SIZE) (by decide) m.chars
      have hpos := hs.pos
      have hle := hs.le
      -- So many characters have been handed over as the index says.
      have hcount : (handedChars d).length = d.ind_send := by
        rw [hs.handed, List.length_take]
        exact Nat.min_eq_left hle
      unfold InterruptSend
      dsimp only
      constructor
      -- The next character of the message.
      · intro hne
        have hlt : d.ind_send < (cut BUFFER_SIZE m.chars).length := by
          apply Nat.lt_of_le_of_ne hle
          intro heq
          apply hne
          rw [hs.output, heq]
          exact cut_getD_last _ _
        rw [if_pos (Nat.lt_of_lt_of_le hlt hlen)]
        refine ⟨h.mode, h.index, Or.inr ⟨m, ?_⟩⟩
        have hchar := hs.buffer _ hlt
        exact {
          sent := hs.sent
          handed := by
            show List.map Prod.fst (d.record.handed ++ [(d.send_buffer d.ind_send, .EMPTY)]) =
              (cut BUFFER_SIZE m.chars).take (d.ind_send + 1)
            rw [List.map_append, List.map_singleton, hchar, List.getD_eq_getElem _ _ hlt,
              List.take_succ_eq_append_getElem hlt, ← hs.handed]
            rfl
          buffer := hs.buffer
          pos := Nat.succ_pos _
          le := hlt
          emissions := by
            show d.acia.emissions - 1 + 1 = 1
            rw [hs.emissions]
          register := rfl
          output := hchar
          empty := by
            show ∀ x ∈ d.record.handed ++ [(d.send_buffer d.ind_send, RegStatus.EMPTY)],
              x.2 = RegStatus.EMPTY
            intro x hx
            rcases List.mem_append.mp hx with hx | hx
            · exact hs.empty x hx
            · rw [List.mem_singleton.mp hx] }
      · -- The interrupt of the `'\0'`.
        intro hzero
        have hlast : d.ind_send = (cut BUFFER_SIZE m.chars).length := by
          have hlt : d.ind_send - 1 < (cut BUFFER_SIZE m.chars).length := by omega
          have := cut_eq_zero m.noNul hlt (by rw [← hs.output, hzero])
          omega
        split
        · left
          show (texts d.record.sent).length <
            (List.map Prod.fst (d.record.handed ++ [(d.send_buffer d.ind_send, .EMPTY)])).length
          rw [hs.sent, texts_singleton, ← hlast, ← hcount, handedChars]
          simp
        · right
          rfl
  · cases hr

theorem Excess.emission {send_sema : SemId} {d : State} (h : Excess d) {r : State × List SemId}
    (hr : InterruptEm send_sema d = some r) : Excess r.1 := by
  unfold InterruptEm at hr
  split at hr
  · dsimp only at hr
    obtain rfl := Option.some.inj hr
    split
    · unfold InterruptSend
      dsimp only
      split
      · rcases h with h | h
        · left
          show (texts d.record.sent).length <
            (List.map Prod.fst (d.record.handed ++ [(d.send_buffer d.ind_send, .EMPTY)])).length
          rw [handedChars] at h
          simp at h ⊢
          omega
        · exact Or.inr h
      · exact Or.inr rfl
    · exact h
  · cases hr

section Events

variable {send_sema receive_sema : SemId}

theorem Excess.serve {d : State} (h : Excess d) {e : Interrupt} {r : State × List SemId}
    (hr : (driver send_sema receive_sema).serve d e = some r) : Excess r.1 := by
  cases e with
  | emission => exact h.emission hr
  | reception received =>
      obtain rfl := Option.some.inj hr
      exact (InterruptRec_sameSend receive_sema d received).excess h

theorem Excess.serveAll {d d' : State} (h : Excess d) {es : List (Event Interrupt)}
    {vs : List SemId} (hr : (driver send_sema receive_sema).serveAll d es = some (d', vs)) :
    Excess d' :=
  Driver.serveAll_induction (I := fun _ d' _ => Excess d') hr h
    (fun _ _ _ _ _ hi => hi) fun _ _ _ _ _ _ hs hi => hi.serve hs

/-- Whether the line is in order after the interrupts depends on whether one of them
    is that of the `'\0'`. -/
theorem Good.serveAll {d d' : State} (h : Good d) {es : List (Event Interrupt)}
    {vs : List SemId} (hr : (driver send_sema receive_sema).serveAll d es = some (d', vs)) :
    (BeforeEnd send_sema receive_sema d es → Good d') ∧
      (¬ BeforeEnd send_sema receive_sema d es → Excess d') := by
  induction es generalizing d vs with
  | nil =>
      obtain ⟨rfl, -⟩ := Prod.mk.inj (Option.some.inj hr)
      exact ⟨fun _ => h, fun hn => absurd trivial hn⟩
  | cons x es ih =>
      cases x with
      | other s =>
          rw [Driver.serveAll] at hr
          split at hr
          · cases hr
          · simp only [Option.bind_eq_bind, Option.bind_eq_some_iff] at hr
            obtain ⟨⟨d₁, vs₁⟩, hr, hv⟩ := hr
            obtain ⟨rfl, -⟩ := Prod.mk.inj (Option.some.inj hv)
            exact ih h hr
      | device e =>
          simp only [Driver.serveAll, Option.bind_eq_bind, Option.bind_eq_some_iff] at hr
          obtain ⟨⟨d₁, vs₁⟩, hs, ⟨d₂, vs₂⟩, hr, hv⟩ := hr
          obtain ⟨rfl, -⟩ := Prod.mk.inj (Option.some.inj hv)
          have hiff : (∀ r, (driver send_sema receive_sema).serve d e = some r →
              BeforeEnd send_sema receive_sema r.1 es) ↔
              BeforeEnd send_sema receive_sema d₁ es := by
            constructor
            · intro hall
              exact hall _ hs
            · intro hb r hr'
              obtain rfl := Option.some.inj (hs.symm.trans hr')
              exact hb
          have hone : ((e = .emission → d.acia.outputRegister ≠ 0) → Good d₁) ∧
              (¬ (e = .emission → d.acia.outputRegister ≠ 0) → Excess d₁) := by
            cases e with
            | emission =>
                obtain ⟨hgood, hexc⟩ := h.emission hs
                exact ⟨fun hne => hgood (hne rfl), fun hn => hexc (by simpa using hn)⟩
            | reception received =>
                obtain ⟨rfl, -⟩ := Prod.mk.inj (Option.some.inj hs)
                have hsame := InterruptRec_sameSend receive_sema d received
                exact ⟨fun _ => hsame.good h, fun hn => absurd (by simp) hn⟩
          rw [BeforeEnd, hiff]
          constructor
          · rintro ⟨hne, hb⟩
            exact (ih (hone.1 hne) hr).1 hb
          · intro hn
            by_cases hne : e = .emission → d.acia.outputRegister ≠ 0
            · exact (ih (hone.1 hne) hr).2 fun hb => hn ⟨hne, hb⟩
            · exact (hone.2 hne).serveAll hr

end Events

/-- The first message is started in order. -/
theorem Good.start {d : State} (h : Good d) (buff : Message) (hsent : d.record.sent = [])
    (hmode : d.acia.mode = REC_INTERRUPT ||| SEND_INTERRUPT) : Good (ttySend d buff) := by
  -- Nothing has been sent, so that no message is on its way.
  have hi : Idle d := by
    rcases h.stage with hi | ⟨m, hs⟩
    · exact hi
    · rw [hs.sent] at hsent
      cases hsent
  have hsrc : ∀ j ≤ buff.chars.length, buff.bytes j = buff.chars.getD j 0 := fun _ _ => rfl
  obtain ⟨-, hcopy⟩ := copyLoop_start buff.noNul d.send_buffer hsrc
    (show 0 < BUFFER_SIZE by decide)
  have hpos : 0 < (cut BUFFER_SIZE buff.chars).length := by simp [cut]
  -- The buffer has the message as far as there is room.
  have hbuf : ∀ j < (cut BUFFER_SIZE buff.chars).length,
      (copyLoop buff.bytes BUFFER_SIZE 0 d.send_buffer).1 j =
        (cut BUFFER_SIZE buff.chars).getD j 0 := by
    intro j hj
    rw [hcopy j, List.getD_eq_getElem _ _ hj, List.getD_eq_getElem _ _ hj]
  unfold DriverACIA.ttySend
  dsimp only
  rw [if_pos hmode]
  refine ⟨h.mode, h.index, Or.inr ⟨buff, ?_⟩⟩
  have hreg : d.acia.outputStateRegister = .EMPTY := hi.register
  exact {
    sent := by
      show d.record.sent ++ [buff] = [buff]
      rw [hsent, List.nil_append]
    handed := by
      show List.map Prod.fst (d.record.handed ++
          [((copyLoop buff.bytes BUFFER_SIZE 0 d.send_buffer).1 0, _)]) =
        (cut BUFFER_SIZE buff.chars).take (0 + 1)
      rw [hi.handed, hbuf 0 hpos, List.take_succ_eq_append_getElem hpos,
        List.getD_eq_getElem _ _ hpos]
      rfl
    buffer := hbuf
    pos := Nat.succ_pos _
    le := hpos
    emissions := by
      show d.acia.emissions + 1 = 1
      rw [hi.emissions]
    register := rfl
    output := hbuf 0 hpos
    empty := by
      show ∀ x ∈ d.record.handed ++ [(_, d.acia.outputStateRegister)], x.2 = RegStatus.EMPTY
      intro x hx
      rw [hi.handed, List.nil_append, List.mem_singleton] at hx
      rw [hx, hreg] }

/-- A message that is not the first one, or that comes while a received message
    waits, is not sent as it should. -/
theorem Good.not_start {d : State} (h : Good d) (buff : Message)
    (hl : SendLaw (DriverACIA.ttySend d buff)) :
    d.record.sent = [] ∧ d.acia.mode = REC_INTERRUPT ||| SEND_INTERRUPT := by
  unfold DriverACIA.ttySend at hl
  dsimp only at hl
  split at hl
  · rename_i hmode
    refine ⟨?_, hmode⟩
    rcases h.stage with hi | ⟨m, hs⟩
    · exact hi.sent
    · -- The last character of the message before is still in the output register.
      have hfull := hl.empty (_, d.acia.outputStateRegister)
        (List.mem_append_right d.record.handed (List.mem_singleton.mpr rfl))
      rw [hs.register] at hfull
      cases hfull
  · -- The program ends, and nothing of the message has been handed over.
    exfalso
    have hlast := hl.last d.record.sent buff rfl
    have hle := h.sendLaw.order.length_le
    have hsame : handedChars d = List.map Prod.fst d.record.handed := rfl
    rw [hsame] at hle
    exact absurd hlast (Nat.not_lt.mpr hle)

/-! ## Runs -/

section Runs

variable {send_sema receive_sema : SemId} {m m' : Driven State Pc} {x : Move Pc Interrupt}

theorem Good.events {d d' : State} (h : Good d) {es : List (Event Interrupt)} {vs : List SemId}
    (hr : (driver send_sema receive_sema).serveAll d es = some (d', vs)) :
    (BeforeEnd send_sema receive_sema d es → Good d') ∧
      (SendLaw d' → BeforeEnd send_sema receive_sema d es) := by
  obtain ⟨hgood, hexc⟩ := h.serveAll hr
  refine ⟨hgood, fun hl => ?_⟩
  by_contra hn
  exact not_sendLaw_of_excess (hexc hn) hl

/-- A step from a state that is in order leads to one in order exactly when it is a
    step with the first message. -/
theorem Good.step (h : Good m.device) (hs : (driver send_sema receive_sema).step m x = some m') :
    (FirstMessage send_sema receive_sema m x → Good m'.device) ∧
      (SendLaw m'.device → FirstMessage send_sema receive_sema m x) := by
  obtain ⟨-, oa, heff, -, -⟩ := Driver.step_eq _ hs
  cases x with
  | call p =>
      rw [Driver.effect] at heff
      split at heff
      · obtain ⟨-, hx⟩ := Prod.mk.inj (Option.some.inj heff)
        obtain ⟨hdev, -⟩ := Prod.mk.inj hx
        rw [← hdev]
        exact ⟨fun _ => h, fun _ => trivial⟩
      · cases heff
  | advance =>
      obtain ⟨-, p, a, d, q, hp, hn, he⟩ := Driver.effect_advance heff
      obtain ⟨-, hx⟩ := Prod.mk.inj he
      obtain ⟨hdev, -⟩ := Prod.mk.inj hx
      rw [hdev]
      -- Only the start of a message is restricted.
      have hother : (∀ buff, p ≠ .send buff) → FirstMessage send_sema receive_sema m .advance := by
        intro hne buff hb
        exact absurd (Option.some.inj (hp.symm.trans hb)) (hne buff)
      cases p with
      | TtySend buff =>
          obtain ⟨-, hx⟩ := Prod.mk.inj (Option.some.inj hn)
          obtain ⟨rfl, -⟩ := Prod.mk.inj hx
          exact ⟨fun _ => h, fun _ => hother (by simp)⟩
      | send buff =>
          obtain ⟨-, hx⟩ := Prod.mk.inj (Option.some.inj hn)
          obtain ⟨rfl, -⟩ := Prod.mk.inj hx
          constructor
          · intro hf
            obtain ⟨hsent, hmode⟩ := hf buff hp
            exact h.start buff hsent hmode
          · intro hl buff' hb
            obtain rfl := Pc.send.inj (Option.some.inj (hp.symm.trans hb))
            exact h.not_start buff hl
      | TtyReceive lg =>
          -- Whatever the length, nothing happens to the device yet.
          have hd : d = m.device := by
            change (if lg ≤ 0 then _ else _) = some (a, d, q) at hn
            split at hn
            · obtain ⟨-, hx⟩ := Prod.mk.inj (Option.some.inj hn)
              exact (Prod.mk.inj hx).1.symm
            · obtain ⟨-, hx⟩ := Prod.mk.inj (Option.some.inj hn)
              exact (Prod.mk.inj hx).1.symm
          rw [hd]
          exact ⟨fun _ => h, fun _ => hother (by simp)⟩
      | receive lg =>
          obtain ⟨-, hx⟩ := Prod.mk.inj (Option.some.inj hn)
          obtain ⟨rfl, -⟩ := Prod.mk.inj hx
          exact ⟨fun _ => (ttyReceive_sameSend m.device lg).good h, fun _ => hother (by simp)⟩
  | other a =>
      rw [Driver.effect] at heff
      split at heff
      · obtain ⟨-, hx⟩ := Prod.mk.inj (Option.some.inj heff)
        obtain ⟨hdev, -⟩ := Prod.mk.inj hx
        rw [← hdev]
        exact ⟨fun _ => h, fun _ => trivial⟩
      · cases heff
  | interrupt es =>
      obtain ⟨vs, hserve, -, -, -⟩ := Driver.step_events .interrupt rfl hs
      exact h.events hserve
  | idle es =>
      obtain ⟨vs, hserve, -, -, -⟩ := Driver.step_events .idle rfl hs
      exact h.events hserve

theorem good_of_run {initialValue : SemId → Int} {send_buffer receive_buffer : Nat → Byte}
    {ind_send : Nat} {tr : Moves}
    (hr : Run (driver send_sema receive_sema).step
      (initial initialValue send_sema receive_sema send_buffer receive_buffer ind_send) tr m)
    (hc : ∀ x ∈ tr, FirstMessage send_sema receive_sema x.1 x.2) : Good m.device := by
  apply Run.invariant_of_steps (I := fun _ m => Good m.device) _ _ hr hc
  · exact ⟨Or.inl rfl, rfl, Or.inl ⟨rfl, rfl, rfl, rfl⟩⟩
  · intro tr m x m' h hf hs
    exact (h.step hs).1 hf

end Runs

/-- The line is in order in every state of a run exactly when no message but the
    first is started, with reception interrupts enabled, and no emission interrupt
    is served for a `'\0'`. -/
theorem sends_in_order_iff (initialValue : SemId → Int) (send_sema receive_sema : SemId)
    (send_buffer receive_buffer : Nat → Byte) (ind_send : Nat) (tr : Moves)
    (m : Driven State Pc)
    (hr : Run (driver send_sema receive_sema).step
      (initial initialValue send_sema receive_sema send_buffer receive_buffer ind_send) tr m) :
    Run.Always (driver send_sema receive_sema).step
        (initial initialValue send_sema receive_sema send_buffer receive_buffer ind_send)
        (fun _ m => SendLaw m.device) tr ↔
      ∀ x ∈ tr, FirstMessage send_sema receive_sema x.1 x.2 := by
  induction hr with
  | nil =>
      rw [Run.always_nil]
      exact ⟨fun _ => by simp, fun _ => (good_of_run Run.nil (by simp)).sendLaw⟩
  | @snoc tr m m' x hr hs ih =>
      rw [Run.always_snoc hr hs, ih]
      simp only [List.forall_mem_append, List.forall_mem_singleton]
      refine and_congr_right fun hall => ?_
      obtain ⟨hgood, hlaw⟩ := (good_of_run hr hall).step hs
      exact ⟨hlaw, fun hf => (hgood hf).sendLaw⟩

/-- A thread sends `"a"`. -/
def sendA : List (Move Pc Interrupt) :=
  [.call (.TtySend ⟨[97], by decide⟩), .advance, .advance]

/-- The message `"a"`, and the interrupts of its two bytes: a third character is
    handed over. -/
theorem sends_in_order_fails :
    ¬ ∀ (initialValue : SemId → Int) (send_sema receive_sema : SemId)
      (send_buffer receive_buffer : Nat → Byte) (ind_send : Nat) (tr : Moves)
      (m : Driven State Pc), send_sema ≠ receive_sema →
      Run (driver send_sema receive_sema).step
        (initial initialValue send_sema receive_sema send_buffer receive_buffer ind_send) tr m →
      SendLaw m.device := by
  intro h
  obtain ⟨⟨tr, m⟩, he, hx⟩ := Option.map_eq_some_iff.mp
    (show (exec (driver 0 1).step (initial (fun _ => 0) 0 1 (fun _ => 0) (fun _ => 0) 0)
        (sendA ++ [.interrupt [.device .emission], .interrupt [.device .emission]])).map
          (fun x => (handedChars x.2.device, x.2.device.record.sent.map Message.chars)) =
      some ([97, 0, 0], [[97]]) by decide)
  obtain ⟨hchars, hsent⟩ := Prod.mk.inj hx
  have hlen := (h _ 0 1 _ _ 0 tr m (by decide) (run_of_exec he)).order.length_le
  have htexts : texts m.device.record.sent =
      ((m.device.record.sent.map Message.chars).map (cut BUFFER_SIZE)).flatten := by
    rw [texts, List.map_map]
    rfl
  rw [hchars, htexts, hsent] at hlen
  exact absurd hlen (by decide)

theorem sends_in_order_iff_sendA :
    ∃ tr m, Run (driver 0 1).step (initial (fun _ => 0) 0 1 (fun _ => 0) (fun _ => 0) 0) tr m ∧
      handedChars m.device = [97] ∧
      (Run.Always (driver 0 1).step (initial (fun _ => 0) 0 1 (fun _ => 0) (fun _ => 0) 0)
          (fun _ m => SendLaw m.device) tr ↔ ∀ x ∈ tr, FirstMessage 0 1 x.1 x.2) := by
  obtain ⟨⟨tr, m⟩, he, hx⟩ := Option.map_eq_some_iff.mp
    (show (exec (driver 0 1).step (initial (fun _ => 0) 0 1 (fun _ => 0) (fun _ => 0) 0)
        sendA).map (fun x => handedChars x.2.device) = some [97] by decide)
  exact ⟨tr, m, run_of_exec he, hx, sends_in_order_iff _ 0 1 _ _ 0 tr m (run_of_exec he)⟩

end DriverACIA
end Nachos
