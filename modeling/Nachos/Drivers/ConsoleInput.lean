/-
  Nachos.Drivers.ConsoleInput

  The keyboard: the characters go to the readers in the order in which they are typed, none
  of them twice and none left out, and every call of `GetString` gets what it would get if it
  were alone.  The character `0xFF` is `EOF` for the console, which takes its buffer for empty
  when it is there; what is said of single calls is said of a keyboard without it.
-/

import Nachos.Drivers.Console

namespace Nachos
namespace DriverConsole

open Kernel Transition Words

/-- The places of `GetString` with the lock. -/
def Reads : Pc → Prop
  | .enable _ => True
  | .getLoop _ _ _ _ => True
  | .take _ _ _ => True
  | .getRelease _ _ _ => True
  | _ => False

/-- The first of them. -/
def StartsReading : Pc → Prop
  | .enable _ => True
  | _ => False

/-- The characters of a buffer before index `i`. -/
def Buffer.upTo (buffer : Buffer) (i : Nat) : List Byte := (List.range i).map buffer.bytes

/-- What a call of `GetString` has read. -/
def obtained : Pc → List Byte
  | .getLoop _ i _ buffer => buffer.upTo i
  | .take _ i buffer => buffer.upTo i
  | .getRelease _ i buffer => buffer.upTo i
  | _ => []

/-- What an instruction of `GetString` gets from the console. -/
def obtains : Pc → Console → List Byte
  | .take _ _ _, d => [d.incoming]
  | _, _ => []

/-- The calls of `P` that a call of `GetString` has made. -/
def awaited : Pc → List Unit
  | .getLoop _ i _ _ => List.replicate i ()
  | .take _ i _ => List.replicate (i + 1) ()
  | .getRelease _ i _ => List.replicate i ()
  | _ => []

def awaits : Pc → Console → List Unit
  | .getLoop call i c _, _ => if i < call.nbcar ∧ c ≠ newline then [()] else []
  | _, _ => []

/-- How often a call of `GetString` has enabled and disabled the interrupt. -/
def toggled : Pc → List Bool
  | .getLoop _ _ _ _ => [true]
  | .take _ _ _ => [true]
  | .getRelease _ _ _ => [true, false]
  | _ => []

def toggles : Pc → Console → List Bool
  | .enable _, _ => [true]
  | .getLoop call i c _, _ => if i < call.nbcar ∧ c ≠ newline then [] else [false]
  | _, _ => []

/-- The places of the calls of `GetString` that have released the lock, in order. -/
def finishedReads (get put : SemId) (mutexget mutexput : LockId) (tr : Moves) : List Pc :=
  finishedCalls (driver get put mutexget mutexput) mutexget tr

theorem Buffer.upTo_succ (buffer : Buffer) (i : Nat) (c : Byte) :
    (buffer.set i c).upTo (i + 1) = buffer.upTo i ++ [c] := by
  have hsame : (List.range i).map (buffer.set i c).bytes = (List.range i).map buffer.bytes := by
    refine List.map_congr_left fun j hj => ?_
    have hne : j ≠ i := Nat.ne_of_lt (List.mem_range.mp hj)
    exact Function.update_of_ne hne _ _
  rw [upTo, upTo, List.range_succ, List.map_append, hsame]
  simp [set]

theorem Buffer.upTo_set (buffer : Buffer) (i : Nat) (c : Byte) :
    (buffer.set i c).upTo i = buffer.upTo i := by
  refine List.map_congr_left fun j hj => ?_
  have hne : j ≠ i := Nat.ne_of_lt (List.mem_range.mp hj)
  exact Function.update_of_ne hne _ _

theorem Buffer.upTo_zero (buffer : Buffer) : buffer.upTo 0 = [] := rfl

@[simp] theorem Buffer.upTo_length (buffer : Buffer) (i : Nat) : (buffer.upTo i).length = i := by
  simp [upTo]

/-- The characters of a text, as the console sees them. -/
def characters (text : List Byte) : List Byte := text.filter (· ≠ EOF)

/-- An empty buffer between what is read and what is to come. -/
theorem characters_empty (read rest : List Byte) :
    characters (read ++ EOF :: rest) = characters (read ++ rest) := by
  simp [characters]

theorem characters_append (a b : List Byte) :
    characters (a ++ b) = characters a ++ characters b := List.filter_append _ _

theorem characters_eq_self {text : List Byte} (h : ∀ c ∈ text, c ≠ EOF) :
    characters text = text := List.filter_eq_self.mpr (by simpa using h)

/-! ## One call -/

theorem line_isPrefix (typed : List Byte) : line typed <+: typed := by
  induction typed with
  | nil => exact List.prefix_refl _
  | cons c typed ih =>
      rw [line]
      split
      · exact ⟨typed, rfl⟩
      · exact List.prefix_cons_inj c |>.mpr ih

/-- The loop of a call has come to index `i` with what it has read. -/
def Reached (call : Reading) (i : Nat) (c : Byte) (buffer : Buffer) : Prop :=
  ∀ rest, getLoop call.nbcar.toNat (buffer.upTo i ++ rest) 0 0 call.buffer =
    getLoop call.nbcar.toNat rest i c buffer

/-- A call has read its line, and put it into its buffer. -/
def Answers (call : Reading) (i : Nat) (buffer : Buffer) : Prop :=
  ∀ rest, (line (buffer.upTo i ++ rest)).take call.nbcar.toNat = buffer.upTo i ∧
    GetString call.buffer call.nbcar.toNat (buffer.upTo i ++ rest) = (buffer, true)

/-- What is known at a place of `GetString`. -/
def InLine : Pc → Prop
  | .getLoop call i c buffer => Reached call i c buffer
  | .take call i buffer => ∃ c, Reached call i c buffer ∧ i < call.nbcar ∧ c ≠ newline
  | .getRelease call i buffer => Answers call i buffer
  | _ => True

theorem Reached.next {call : Reading} {i : Nat} {c : Byte} {buffer : Buffer}
    (h : Reached call i c buffer) (hi : i < call.nbcar) (hc : c ≠ newline) (c' : Byte) :
    Reached call (i + 1) c' (buffer.set i c') := by
  intro rest
  have hlt : i < call.nbcar.toNat := by omega
  have hstep := h (c' :: rest)
  rw [getLoop, if_pos ⟨hlt, hc⟩] at hstep
  rw [Buffer.upTo_succ, List.append_assoc]
  exact hstep

theorem Reached.answers {call : Reading} {i : Nat} {c : Byte} {buffer : Buffer}
    (h : Reached call i c buffer) (hend : ¬ (i < call.nbcar ∧ c ≠ newline)) :
    Answers call i (buffer.set i 0) := by
  intro rest
  rw [Buffer.upTo_set]
  have hstop : call.nbcar.toNat ≤ i ∨ c = newline := by
    by_cases hc : c = newline
    · exact Or.inr hc
    · left
      by_contra hlt
      exact hend ⟨by omega, hc⟩
  have hloop := h rest
  rw [getLoop_stop hstop] at hloop
  refine ⟨?_, ?_⟩
  · -- the loop has stopped at the end of the line, or of the buffer
    have heq := hloop
    rw [getLoop_eq (Nat.zero_le _) (by decide), Nat.sub_zero] at heq
    have hlen : ((line (buffer.upTo i ++ rest)).take call.nbcar.toNat).length = i := by
      have hsome := congrArg Prod.snd heq
      simp only at hsome
      split at hsome
      · rw [Nat.zero_add] at hsome
        exact Option.some.inj hsome
      · cases hsome
    have hprefix : (line (buffer.upTo i ++ rest)).take call.nbcar.toNat <+:
        buffer.upTo i ++ rest := (List.take_prefix _ _).trans (line_isPrefix _)
    exact (List.prefix_of_prefix_length_le hprefix (List.prefix_append _ _)
      (by simp [hlen])).eq_of_length (by simp [hlen])
  · rw [GetString, hloop]

/-! ## The section -/

section Section

variable {get put : SemId} {mutexget mutexput : LockId}

theorem input_brackets (hlock : mutexget ≠ mutexput) :
    Brackets (driver get put mutexget mutexput) mutexget Reads where
  mem := by simp [driver]
  entry p hp := by cases p <;> simp_all [driver, Reads]
  enters hn hp hq := by cases next_cases hn <;> simp_all [Reads]
  acquirer hn := by cases next_cases hn <;> simp_all [Reads]
  leaves hn hp hq := by cases next_cases hn <;> simp_all [Reads]
  releases hn := by cases next_cases hn <;> simp_all [Reads]

theorem input_guards (hsem : get ≠ put) (hlock : mutexget ≠ mutexput) :
    Guards (driver get put mutexget mutexput) mutexget get Reads StartsReading where
  mem := by simp [driver]
  calls hn := by cases next_cases hn <;> simp_all [Reads, StartsReading]
  arrives hn := by cases next_cases hn <;> simp_all [StartsReading]

theorem input_transcript (hlock : mutexget ≠ mutexput) :
    Transcript (driver get put mutexget mutexput) mutexget Reads obtained obtains where
  outside {p} hp := by cases p <;> simp_all [Reads, obtained]
  silent hn hp := by cases next_cases hn <;> simp_all [Reads, obtains]
  starts hn hp := by cases next_cases hn <;> simp_all [Reads, obtained]
  continues hn hp hq := by
    cases next_cases hn <;> simp_all [Reads, obtained, obtains, Buffer.upTo_set,
      Buffer.upTo_succ, Buffer.upTo_zero, Console.GetChar]
  ends hn := by cases next_cases hn <;> simp_all [obtains]

theorem awaits_transcript (hlock : mutexget ≠ mutexput) :
    Transcript (driver get put mutexget mutexput) mutexget Reads awaited awaits where
  outside {p} hp := by cases p <;> simp_all [Reads, awaited]
  silent hn hp := by cases next_cases hn <;> simp_all [Reads, awaits]
  starts hn hp := by cases next_cases hn <;> simp_all [Reads, awaited]
  continues hn hp hq := by
    cases next_cases hn <;> simp_all [Reads, awaited, awaits, List.replicate_succ']
  ends hn := by cases next_cases hn <;> simp_all [awaits]

theorem toggles_transcript (hlock : mutexget ≠ mutexput) :
    Transcript (driver get put mutexget mutexput) mutexget Reads toggled toggles where
  outside {p} hp := by cases p <;> simp_all [Reads, toggled]
  silent hn hp := by cases next_cases hn <;> simp_all [Reads, toggles]
  starts hn hp := by cases next_cases hn <;> simp_all [Reads, toggled]
  continues hn hp hq := by cases next_cases hn <;> simp_all [Reads, toggled, toggles]
  ends hn := by cases next_cases hn <;> simp_all [toggles]

variable {initialValue : SemId → Int} {keyboard : List Byte} {tr : Moves}
  {m : Driven Console Pc} {t : ThreadId}

section Run

variable (hsem : get ≠ put) (hlock : mutexget ≠ mutexput)
  (hr : Run (driver get put mutexget mutexput).step (initial initialValue get put keyboard) tr m)

include hr

/-- Every call reads its line. -/
theorem inLine_of_run : ∀ t p, m.pc t = some p → InLine p := by
  refine Driver.place_of_run (fun _ => rfl)
    (fun p hp => by cases p <;> simp_all [driver, InLine]) (fun hn hp => ?_) hr
  cases next_cases hn with
  | enable => exact fun rest => rfl
  | getWait hi => exact ⟨_, hp, hi⟩
  | getEnd hi => exact Reached.answers hp hi
  | take =>
      obtain ⟨c, hreached, hi, hc⟩ := hp
      exact hreached.next hi hc _
  | _ => trivial

include hlock

/-- A call leaves the section when it has read its line. -/
theorem finishedReads_answers : ∀ p ∈ finishedReads get put mutexget mutexput tr,
    ∃ call i buffer, p = .getRelease call i buffer ∧ Answers call i buffer := by
  induction hr with
  | nil => exact fun p hp => absurd hp List.not_mem_nil
  | @snoc tr m m' x hr hs ih =>
      intro p hp
      rw [finishedReads, finishedCalls_snoc] at hp
      rcases List.mem_append.mp hp with hp | hp
      · exact ih p hp
      · have hleave := Option.mem_toList.mp hp
        unfold leaving at hleave
        split at hleave
        · rename_i hrel
          obtain ⟨-, p', d, q, hp', hn, -⟩ :=
            Driver.kernelAction_inside hs hrel (Or.inl ⟨mutexget, by simp [driver], Or.inr rfl⟩)
          obtain rfl := Option.some.inj (hp'.symm.trans hleave)
          have hline := inLine_of_run hr _ _ hp'
          cases next_cases hn with
          | putRelease => exact absurd rfl hlock
          | getRelease => exact ⟨_, _, _, rfl, hline⟩
        · cases hleave

omit hr hlock

/-- The device: each character that has been read in has made a unit, and is with a reader or in
    the buffer; a look at the keyboard is scheduled while the interrupt is enabled. -/
structure KeyboardInv (keyboard : List Byte) (tr : Moves) (d : Console) (v : Nat) : Prop where
  units : v + d.keyboard.length = keyboard.length
  rest : d.keyboard <:+ keyboard
  order : characters (emitted obtains tr ++ d.incoming :: d.keyboard) = characters keyboard
  enabled : d.intState = (emitted toggles tr).getLastD false
  scheduled : d.intState = true → 0 < d.polls

theorem KeyboardInv.next {p : Pc} {a : Option Action} {d : Console} {q : Option Pc} {v : Nat}
    (hp : m.pc m.kernel.currentThread = some p)
    (hn : (driver get put mutexget mutexput).next m.kernel.currentThread p m.device =
      some (a, d, q)) (h : KeyboardInv keyboard tr m.device v) :
    (∀ b, a = some b → vCalls get b = 0) ∧ KeyboardInv keyboard (tr ++ [(m, .advance)]) d v := by
  obtain ⟨hunits, hrest, horder, henabled, hscheduled⟩ := h
  have hobtain : emitted obtains (tr ++ [(m, .advance)]) =
      emitted obtains tr ++ obtains p m.device := by
    rw [emitted_snoc, emission, hp]
    rfl
  have htoggle : emitted toggles (tr ++ [(m, .advance)]) =
      emitted toggles tr ++ toggles p m.device := by
    rw [emitted_snoc, emission, hp]
    rfl
  have hturn := next_cases hn
  refine ⟨by cases hturn <;> simp [vCalls], ?_⟩
  suffices hinv : d.keyboard = m.device.keyboard ∧
      characters ((emitted obtains tr ++ obtains p m.device) ++ d.incoming :: d.keyboard) =
        characters keyboard ∧
      d.intState = (emitted toggles tr ++ toggles p m.device).getLastD false ∧
      (d.intState = true → 0 < d.polls) by
    obtain ⟨hk, ho, he, hp⟩ := hinv
    exact ⟨hk ▸ hunits, hk ▸ hrest, hobtain ▸ ho, htoggle ▸ he, hp⟩
  generalize m.device = d₀ at hturn horder henabled hscheduled
  cases hturn with
  | putChar hi hput =>
      unfold Console.PutChar at hput
      split at hput
      · cases hput
      · obtain rfl := Option.some.inj hput
        simp only [obtains, toggles, List.append_nil]
        exact ⟨trivial, horder, henabled, hscheduled⟩
  | enable =>
      refine ⟨rfl, ?_, ?_, fun _ => Nat.succ_pos _⟩
      · simp only [obtains, List.append_nil]
        exact horder
      · simp [toggles, Console.EnableInterrupt]
  | getWait hi =>
      simp only [obtains, toggles, List.append_nil, if_pos hi]
      exact ⟨trivial, horder, henabled, hscheduled⟩
  | getEnd hi =>
      refine ⟨rfl, ?_, ?_, fun hint => ?_⟩
      · simp only [obtains, List.append_nil]
        exact horder
      · simp [toggles, Console.DisableInterrupt, hi]
      · simp [Console.DisableInterrupt] at hint
  | take =>
      -- the character goes from the buffer to the reader
      refine ⟨rfl, ?_, ?_, hscheduled⟩
      · simp only [obtains, Console.GetChar]
        rw [characters_empty, List.append_assoc]
        exact horder
      · simp only [toggles, List.append_nil]
        exact henabled
  | _ =>
      simp only [obtains, toggles, List.append_nil]
      exact ⟨trivial, horder, henabled, hscheduled⟩

theorem KeyboardInv.serve (hsem : get ≠ put) {d d' : Console} {e : Interrupt} {vs : List SemId}
    {v : Nat} (hserve : (driver get put mutexget mutexput).serve d e = some (d', vs))
    (h : KeyboardInv keyboard tr d v) : KeyboardInv keyboard tr d' (v + vs.count get) := by
  cases e with
  | writeDone =>
      change d.WriteDone put = _ at hserve
      unfold Console.WriteDone at hserve
      split at hserve
      · obtain ⟨rfl, rfl⟩ := Prod.mk.inj (Option.some.inj hserve)
        have hzero : [put].count get = 0 := by simp [Ne.symm hsem]
        rw [hzero]
        exact ⟨h.units, h.rest, h.order, h.enabled, h.scheduled⟩
      · cases hserve
  | checkCharAvail ready =>
      obtain ⟨hpolls, ⟨rfl, rfl⟩ | ⟨c, rest, hempty, hkeyboard, rfl, rfl⟩⟩ :=
        CheckCharAvail_cases hserve
      · refine ⟨h.units, h.rest, h.order, h.enabled, fun hint => ?_⟩
        change d.intState = true at hint
        simp [Console.reschedule, hint]
      · -- the buffer is empty: the character comes into it
        refine ⟨?_, ?_, ?_, h.enabled, fun hint => ?_⟩
        · have := h.units
          rw [hkeyboard, List.length_cons] at this
          simpa [Nat.add_assoc, Nat.add_comm 1] using this
        · exact (List.suffix_cons c rest).trans (hkeyboard ▸ h.rest)
        · have horder := h.order
          rw [hempty, hkeyboard, characters_empty] at horder
          exact horder
        · change d.intState = true at hint
          simp [Console.reschedule, hint]

include hr

theorem keyboard_of_run (hsem : get ≠ put) : KeyboardInv keyboard tr m.device
    (vMade get ((driver get put mutexget mutexput).kernelHistory tr)) := by
  refine Driver.device_of_run (I := KeyboardInv keyboard) (by simp [driver]) ?_ KeyboardInv.next
    (KeyboardInv.serve hsem) (fun {tr m x d v} hx hi => ?_) hr
  · exact ⟨Nat.zero_add _, List.suffix_refl _, characters_empty [] _, rfl, fun h => by cases h⟩
  · have hsame : ∀ {α : Type} (emit : Pc → Console → List α),
        emitted emit (tr ++ [(m, x)]) = emitted emit tr := by
      intro α emit
      cases x with
      | advance => exact absurd rfl hx
      | _ => simp [emission]
    obtain ⟨hunits, hrest, horder, henabled, hscheduled⟩ := hi
    exact ⟨hunits, hrest, (hsame obtains) ▸ horder, (hsame toggles) ▸ henabled, hscheduled⟩

include hsem hlock

/-- The characters that the readers have are those whose `P` has been called, less the one that
    the thread in the section has not taken yet. -/
theorem obtained_length {p : Pc} (ht : Critical Reads mutexget m t) (hp : m.pc t = some p) :
    (emitted obtains tr).length + (awaited p).length =
      pCalled get ((driver get put mutexget mutexput).kernelHistory tr) + (obtained p).length := by
  have hcalls : (emitted awaits tr).length =
      pCalled get ((driver get put mutexget mutexput).kernelHistory tr) := by
    refine Driver.emitted_pCalled (by simp [driver]) (fun hn => ?_) hr
    cases next_cases hn <;> simp_all [awaits, Ne.symm hsem]
  rw [← hcalls]
  refine (input_transcript hlock).emitted_length (input_brackets hlock) rfl (fun _ => rfl)
    (awaits_transcript hlock) hr (fun p hp => ?_) ht hp
  obtain ⟨call, i, buffer, rfl, -⟩ := finishedReads_answers hlock hr p hp
  simp [obtained, awaited]

/-- Where the keyboard has no `EOF`, a thread that takes a character finds one. -/
theorem incoming_of_take (hkeyboard : ∀ c ∈ keyboard, c ≠ EOF)
    (hobtained : ∀ c ∈ emitted obtains tr, c ≠ EOF) (hrun : m.kernel.sleeping = false)
    {call : Reading} {i : Nat} {buffer : Buffer}
    (hp : m.pc m.kernel.currentThread = some (.take call i buffer)) :
    m.device.incoming ≠ EOF := by
  have G := input_guards hsem hlock
  have B : Brackets (driver get put mutexget mutexput) mutexget Reads := input_brackets hlock
  have h₀ : 0 ≤ Function.update (Function.update initialValue get 0) put 0 get := by
    rw [Function.update_of_ne hsem, Function.update_self]
  have hcrit : Critical Reads mutexget m m.kernel.currentThread :=
    Brackets.current rfl hr hrun ⟨_, hp, trivial⟩
  -- it has come back from `P` once more than it has taken a character
  have hlen := obtained_length hsem hlock hr hcrit hp
  simp only [awaited, obtained, List.length_replicate, Buffer.upTo_length] at hlen
  have hnone := G.nobody_inP B rfl (fun _ => rfl) hr hrun ⟨_, hp, trivial⟩
  have hreturned := ((G.pCalled_of_run B rfl (fun _ => rfl) hr h₀).resolve_left
    fun hc => hc.1.elim hnone).2
  have hle := G.pReturned_le B rfl (fun _ => rfl) hr h₀
  rw [Function.update_of_ne hsem, Function.update_self] at hle
  have hinv := keyboard_of_run hr hsem
  have hunits := hinv.units
  intro hempty
  -- with an empty buffer there would be one character too few
  have horder := hinv.order
  rw [hempty, characters_empty, characters_eq_self hkeyboard, characters_eq_self] at horder
  · have := congrArg List.length horder
    rw [List.length_append] at this
    omega
  · intro c hc
    rcases List.mem_append.mp hc with hc | hc
    · exact hobtained c hc
    · exact hkeyboard c (hinv.rest.subset hc)

omit hr in
theorem obtained_of_run (hkeyboard : ∀ c ∈ keyboard, c ≠ EOF)
    (hr : Run (driver get put mutexget mutexput).step (initial initialValue get put keyboard)
      tr m) : ∀ c ∈ emitted obtains tr, c ≠ EOF := by
  induction hr with
  | nil => exact fun c hc => absurd hc List.not_mem_nil
  | @snoc tr m m' x hr hs ih =>
      intro c hc
      rw [emitted_snoc] at hc
      rcases List.mem_append.mp hc with hc | hc
      · exact ih c hc
      · cases x with
        | advance =>
            obtain ⟨-, a, heff, -⟩ := Driver.step_eq _ hs
            obtain ⟨hrun, p, b, d, q, hp, -⟩ := Driver.effect_advance heff
            rw [emission, hp] at hc
            cases p with
            | take call i buffer =>
                obtain rfl := List.mem_singleton.mp hc
                exact incoming_of_take hsem hlock hr hkeyboard ih hrun hp
            | _ => exact absurd hc List.not_mem_nil
        | _ => exact absurd hc List.not_mem_nil

/-- Who sleeps in `P` waits for a character: the buffer is empty, and a look at the keyboard is
    scheduled. -/
theorem awaiting_of_asleep (hkeyboard : ∀ c ∈ keyboard, c ≠ EOF)
    (hq : t ∈ (m.kernel.semaphore get).queue) :
    m.device.incoming = EOF ∧ m.device.intState = true ∧ 0 < m.device.polls := by
  have G := input_guards hsem hlock
  have B : Brackets (driver get put mutexget mutexput) mutexget Reads := input_brackets hlock
  have h₀ : 0 ≤ Function.update (Function.update initialValue get 0) put 0 get := by
    rw [Function.update_of_ne hsem, Function.update_self]
  have hin : InP get m.kernel t := Or.inl hq
  obtain ⟨p, hp, call, i, buffer, rfl⟩ :
      Inside (fun p => ∃ call i buffer, p = .take call i buffer) m t :=
    Driver.place_of_inP (D := driver get put mutexget mutexput) G.mem
      (fun hn => by cases next_cases hn <;> simp_all) rfl hr t hin
  have hcrit := G.critical_of_inP B rfl hr hin
  have hinv := keyboard_of_run hr hsem
  have henabled : m.device.intState = true := by
    obtain ⟨part, hlaw⟩ := (toggles_transcript hlock).of_run B rfl (fun _ => rfl) hr
    have hpart : part = [true] := by
      rw [← hlaw.owner t hcrit, Transcript.textOf, hp]
      rfl
    rw [hinv.enabled, hlaw.out, hpart]
    simp
  refine ⟨?_, henabled, hinv.scheduled henabled⟩
  have hlen := obtained_length hsem hlock hr hcrit hp
  simp only [awaited, obtained, List.length_replicate, Buffer.upTo_length] at hlen
  have hreturned := ((G.pCalled_of_run B rfl (fun _ => rfl) hr h₀).resolve_right
    fun hc => hc.1 t hin).2
  have heq := G.pReturned_eq_of_queued B rfl (fun _ => rfl) hr h₀ hq
  rw [Function.update_of_ne hsem, Function.update_self] at heq
  have hunits := hinv.units
  by_contra hfull
  have horder := hinv.order
  rw [characters_eq_self hkeyboard, characters_eq_self] at horder
  · have := congrArg List.length horder
    rw [List.length_append, List.length_cons] at this
    omega
  · intro c hc
    rcases List.mem_append.mp hc with hc | hc
    · exact obtained_of_run hsem hlock hkeyboard hr c hc
    · rcases List.mem_cons.mp hc with rfl | hc
      · exact hfull
      · exact hkeyboard c (hinv.rest.subset hc)

end Run

/-- In every run, whatever is typed: the characters other than `EOF` are with the readers, in
    the buffer, or to come, each once and in the order in which they are typed; what the readers
    have is what the finished calls have, one after the other, and then the call in the section;
    and every finished call has what it would have if it were alone with the characters that it
    has read.  When no `EOF` is typed, this is the whole text, a thread that takes a character
    finds one, and who sleeps in `P` waits with an empty buffer for a look at the keyboard that
    is scheduled. -/
theorem input_serialized (initialValue : SemId → Int) (get put : SemId)
    (mutexget mutexput : LockId) (hsem : get ≠ put) (hlock : mutexget ≠ mutexput)
    (keyboard : List Byte) (tr : Moves) (m : Driven Console Pc)
    (hr : Run (driver get put mutexget mutexput).step (initial initialValue get put keyboard)
      tr m) :
    (∀ t u, Critical Reads mutexget m t → Critical Reads mutexget m u → t = u) ∧
    (∀ p ∈ finishedReads get put mutexget mutexput tr,
      ∃ call i buffer, p = .getRelease call i buffer ∧ Answers call i buffer) ∧
    ∃ part,
      (∀ t, Critical Reads mutexget m t → ∃ p, m.pc t = some p ∧ part = obtained p) ∧
      ((∀ t, ¬ Critical Reads mutexget m t) → part = []) ∧
      characters (((finishedReads get put mutexget mutexput tr).map obtained).flatten ++ part ++
        m.device.incoming :: m.device.keyboard) = characters keyboard ∧
      ((∀ c ∈ keyboard, c ≠ EOF) →
        ((finishedReads get put mutexget mutexput tr).map obtained).flatten ++ part ++
          characters [m.device.incoming] ++ m.device.keyboard = keyboard ∧
        (∀ call i buffer, m.kernel.sleeping = false →
          m.pc m.kernel.currentThread = some (.take call i buffer) → m.device.incoming ≠ EOF) ∧
        ∀ t ∈ (m.kernel.semaphore get).queue,
          m.device.incoming = EOF ∧ m.device.intState = true ∧ 0 < m.device.polls) := by
  have B : Brackets (driver get put mutexget mutexput) mutexget Reads := input_brackets hlock
  obtain ⟨part, hlaw⟩ := (input_transcript hlock).of_run B rfl (fun _ => rfl) hr
  have hout : emitted obtains tr =
      ((finishedReads get put mutexget mutexput tr).map obtained).flatten ++ part := hlaw.out
  have hinv := keyboard_of_run hr hsem
  refine ⟨fun t u ht hu => B.unique rfl (fun _ => rfl) hr ht hu, finishedReads_answers hlock hr,
    part, fun t ht => ?_, hlaw.nobody, ?_, fun hkeyboard => ⟨?_, fun call i buffer hrun hp => ?_,
      fun t ht => awaiting_of_asleep hsem hlock hr hkeyboard ht⟩⟩
  · obtain ⟨⟨p, hp, -⟩, -⟩ := id ht
    refine ⟨p, hp, ?_⟩
    rw [← hlaw.owner t ht, Transcript.textOf, hp]
    rfl
  · rw [← hout]
    exact hinv.order
  · -- without `EOF` only the buffer may be empty
    have hrest := characters_eq_self fun c hc => hkeyboard c (hinv.rest.subset hc)
    have hread := characters_eq_self (obtained_of_run hsem hlock hkeyboard hr)
    have horder := hinv.order
    rw [characters_eq_self hkeyboard, ← List.singleton_append, characters_append,
      characters_append, hread, hrest, hout, ← List.append_assoc] at horder
    exact horder
  · exact incoming_of_take hsem hlock hr hkeyboard (obtained_of_run hsem hlock hkeyboard hr)
      hrun hp

/-- The main thread reads a line: it waits for each of its two characters. -/
theorem input_serialized_line : ∃ tr m,
    Run (driver 0 1 0 1).step (initial (fun _ => 0) 0 1 [0x41, 0x0a, 0x42]) tr m ∧
      (finishedReads 0 1 0 1 tr).map obtained = [[0x41, 0x0a]] ∧
      ∀ p ∈ finishedReads 0 1 0 1 tr,
        ∃ call i buffer, p = .getRelease call i buffer ∧ Answers call i buffer := by
  obtain ⟨⟨tr, m⟩, he, hx⟩ := Option.map_eq_some_iff.mp
    (show (exec (driver 0 1 0 1).step (initial (fun _ => 0) 0 1 [0x41, 0x0a, 0x42])
        [.call (.getString ⟨Buffer.uninitialised fun _ => 0, 10⟩), .advance, .advance, .advance,
          .idle [.device (.checkCharAvail true)], .other .dispatch, .advance, .advance,
          .idle [.device (.checkCharAvail true)], .other .dispatch, .advance, .advance,
          .advance]).map
            (fun x => (finishedReads 0 1 0 1 x.1).map obtained) = some [[0x41, 0x0a]] by decide)
  exact ⟨tr, m, run_of_exec he, hx,
    (input_serialized _ 0 1 0 1 (by decide) (by decide) _ tr m (run_of_exec he)).2.1⟩

end Section

end DriverConsole
end Nachos
