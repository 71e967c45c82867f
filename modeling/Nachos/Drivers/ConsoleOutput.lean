/-
  Nachos.Drivers.ConsoleOutput

  The display: whatever the threads, the kernel and the other devices do, `PutChar` is
  never called before the last character has gone, and the display shows the strings of the
  calls of `PutString` one after the other, none of them broken by another one.
-/

import Nachos.Drivers.Console

namespace Nachos
namespace DriverConsole

open Kernel Transition Words

/-- The places of `PutString` with the lock. -/
def Writing : Pc → Prop
  | .putLoop _ _ _ => True
  | .putWait _ _ _ => True
  | _ => False

/-- The first of them. -/
def StartsWriting : Pc → Prop
  | .putLoop _ _ i => i = 0
  | _ => False

/-- The string of a call of `PutString`. -/
def string (buffer : Nat → Byte) (nbcar : Int) : List Byte := (List.range nbcar.toNat).map buffer

/-- What a call of `PutString` has written. -/
def shown : Pc → List Byte
  | .putLoop buffer _ i => (List.range i).map buffer
  | .putWait buffer _ i => (List.range (i + 1)).map buffer
  | _ => []

/-- What an instruction of `PutString` writes. -/
def shows : Pc → Console → List Byte
  | .putLoop buffer nbcar i, _ => if i < nbcar then [buffer i] else []
  | _, _ => []

theorem shown_prefix (buffer : Nat → Byte) {i n : Nat} (h : i ≤ n) :
    (List.range i).map buffer <+: (List.range n).map buffer := by
  have hprefix := List.take_prefix i (List.range n)
  rw [List.take_range, Nat.min_eq_left h] at hprefix
  exact hprefix.map buffer

/-- The string of the call that is at a place. -/
def stringOf : Pc → List Byte
  | .putLoop buffer nbcar _ => string buffer nbcar
  | .putWait buffer nbcar _ => string buffer nbcar
  | _ => []

/-- The strings of the calls of `PutString` that have released the lock, in order. -/
def written (get put : SemId) (mutexget mutexput : LockId) (tr : Moves) : List (List Byte) :=
  (finishedCalls (driver get put mutexget mutexput) mutexput tr).map stringOf

/-- The loop has not gone beyond the string. -/
def InString : Pc → Prop
  | .putLoop _ nbcar i => i ≤ nbcar.toNat
  | .putWait _ nbcar i => i < nbcar.toNat
  | _ => True

/-! ## The section -/

section Section

variable {get put : SemId} {mutexget mutexput : LockId}

theorem output_brackets (hlock : mutexget ≠ mutexput) :
    Brackets (driver get put mutexget mutexput) mutexput Writing where
  mem := by simp [driver]
  entry p hp := by cases p <;> simp_all [driver, Writing]
  enters hn hp hq := by cases next_cases hn <;> simp_all [Writing]
  acquirer hn := by cases next_cases hn <;> simp_all [Writing]
  leaves hn hp hq := by cases next_cases hn <;> simp_all [Writing]
  releases hn := by cases next_cases hn <;> simp_all [Writing]

theorem output_guards (hsem : get ≠ put) (hlock : mutexget ≠ mutexput) :
    Guards (driver get put mutexget mutexput) mutexput put Writing StartsWriting where
  mem := by simp [driver]
  calls hn := by cases next_cases hn <;> simp_all [Writing, StartsWriting]
  arrives hn := by cases next_cases hn <;> simp_all [StartsWriting]

theorem output_transcript (hlock : mutexget ≠ mutexput) :
    Transcript (driver get put mutexget mutexput) mutexput Writing shown shows where
  outside {p} hp := by cases p <;> simp_all [Writing, shown]
  silent hn hp := by cases next_cases hn <;> simp_all [Writing, shows]
  starts hn hp := by cases next_cases hn <;> simp_all [Writing, shown]
  continues hn hp hq := by
    cases next_cases hn <;> simp_all [Writing, shown, shows, List.range_succ]
  ends hn := by cases next_cases hn <;> simp_all [shows]

/-- The calls of `P` that a call of `PutString` has made. -/
def waited : Pc → List Unit
  | .putLoop _ _ i => List.replicate i ()
  | .putWait _ _ i => List.replicate i ()
  | _ => []

def waits : Pc → Console → List Unit
  | .putWait _ _ _, _ => [()]
  | _, _ => []

theorem waits_transcript (hlock : mutexget ≠ mutexput) :
    Transcript (driver get put mutexget mutexput) mutexput Writing waited waits where
  outside {p} hp := by cases p <;> simp_all [Writing, waited]
  silent hn hp := by cases next_cases hn <;> simp_all [Writing, waits]
  starts hn hp := by cases next_cases hn <;> simp_all [Writing, waited]
  continues hn hp hq := by
    cases next_cases hn <;> simp_all [Writing, waited, waits, List.replicate_succ']
  ends hn := by cases next_cases hn <;> simp_all [waits]

variable {initialValue : SemId → Int} {keyboard : List Byte} {tr : Moves}
  {m : Driven Console Pc} {t : ThreadId}

section Run

variable (hsem : get ≠ put) (hlock : mutexget ≠ mutexput)
  (hr : Run (driver get put mutexget mutexput).step (initial initialValue get put keyboard) tr m)

include hr

/-- The loop stays in the string. -/
theorem inString_of_run : ∀ t p, m.pc t = some p → InString p := by
  refine Driver.place_of_run (fun _ => rfl)
    (fun p hp => by cases p <;> simp_all [driver, InString]) (fun hn hp => ?_) hr
  cases next_cases hn with
  | putString => exact Nat.zero_le _
  | putChar hi => exact Int.lt_toNat.mpr hi
  | putWait => exact Nat.succ_le_of_lt hp
  | _ => trivial

include hlock

/-- A call leaves the section with its whole string. -/
theorem finishedCalls_shown :
    ∀ p ∈ finishedCalls (driver get put mutexget mutexput) mutexput tr,
      shown p = stringOf p ∧ (waited p).length = (shown p).length := by
  induction hr with
  | nil => exact fun p hp => absurd hp List.not_mem_nil
  | @snoc tr m m' x hr hs ih =>
      intro p hp
      rw [finishedCalls_snoc] at hp
      rcases List.mem_append.mp hp with hp | hp
      · exact ih p hp
      · have hleave := Option.mem_toList.mp hp
        unfold leaving at hleave
        split at hleave
        · rename_i hrel
          obtain ⟨-, p', d, q, hp', hn, -⟩ :=
            Driver.kernelAction_inside hs hrel (Or.inl ⟨mutexput, by simp [driver], Or.inr rfl⟩)
          obtain rfl := Option.some.inj (hp'.symm.trans hleave)
          have hstring := inString_of_run hr _ _ hp'
          cases next_cases hn with
          | @putRelease buffer nbcar i d hi =>
              have hlen : i = nbcar.toNat := by
                change i ≤ nbcar.toNat at hstring
                omega
              subst hlen
              simp [shown, stringOf, string, waited]
          | getRelease => exact absurd rfl hlock
        · cases hleave

/-- The device: the display has one character more than there were interrupts while a
    character is under way. -/
def DisplayInv (tr : Moves) (d : Console) (v : Nat) : Prop :=
  d.display = emitted shows tr ∧ v + (if d.putBusy then 1 else 0) = d.display.length

omit hr hlock in
theorem DisplayInv.next {p : Pc} {a : Option Action} {d : Console} {q : Option Pc} {v : Nat}
    (hp : m.pc m.kernel.currentThread = some p)
    (hn : (driver get put mutexget mutexput).next m.kernel.currentThread p m.device =
      some (a, d, q)) (h : DisplayInv tr m.device v) :
    (∀ b, a = some b → vCalls put b = 0) ∧ DisplayInv (tr ++ [(m, .advance)]) d v := by
  obtain ⟨hdisplay, hcount⟩ := h
  have hemit : emitted shows (tr ++ [(m, .advance)]) = emitted shows tr ++ shows p m.device := by
    rw [emitted_snoc, emission, hp]
    rfl
  unfold DisplayInv
  rw [hemit]
  have hturn := next_cases hn
  generalize m.device = d₀ at hturn hdisplay hcount
  cases hturn with
  | putChar hi hput =>
      -- the display is written to when nothing is under way
      unfold Console.PutChar at hput
      split at hput
      · cases hput
      · rename_i hidle
        obtain rfl := Option.some.inj hput
        simp [shows, hi, hdisplay] at hcount ⊢
        simpa [hidle] using hcount
  | putRelease hi => exact ⟨by simp [vCalls], by simpa [shows, hi] using hdisplay, hcount⟩
  | _ =>
      refine ⟨by simp [vCalls], ?_, ?_⟩
      · simpa [shows, Console.EnableInterrupt, Console.DisableInterrupt, Console.GetChar]
          using hdisplay
      · exact hcount

omit hr hlock in
theorem DisplayInv.serve (hsem : get ≠ put) {d d' : Console} {e : Interrupt} {vs : List SemId}
    {v : Nat} (hserve : (driver get put mutexget mutexput).serve d e = some (d', vs))
    (h : DisplayInv tr d v) : DisplayInv tr d' (v + vs.count put) := by
  obtain ⟨hdisplay, hcount⟩ := h
  cases e with
  | writeDone =>
      change d.WriteDone put = _ at hserve
      unfold Console.WriteDone at hserve
      split at hserve
      · rename_i hbusy
        obtain ⟨rfl, rfl⟩ := Prod.mk.inj (Option.some.inj hserve)
        rw [if_pos hbusy] at hcount
        exact ⟨hdisplay, by simpa using hcount⟩
      · cases hserve
  | checkCharAvail ready =>
      -- the keyboard has its own semaphore
      obtain ⟨-, ⟨rfl, rfl⟩ | ⟨c, rest, -, -, rfl, rfl⟩⟩ := CheckCharAvail_cases hserve
      · exact ⟨hdisplay, hcount⟩
      · have hzero : [get].count put = 0 := by simp [hsem]
        rw [hzero]
        exact ⟨hdisplay, hcount⟩

include hsem

omit hlock in
theorem display_of_run : DisplayInv tr m.device
    (vMade put ((driver get put mutexget mutexput).kernelHistory tr)) := by
  refine Driver.device_of_run (I := DisplayInv) (by simp [driver]) ⟨rfl, rfl⟩ DisplayInv.next
    (DisplayInv.serve hsem) (fun {tr m x d v} hx hi => ?_) hr
  have hemit : emitted shows (tr ++ [(m, x)]) = emitted shows tr := by
    cases x with
    | advance => exact absurd rfl hx
    | _ => simp [emission]
  rwa [DisplayInv, hemit]

/-- The characters on the display are those whose `P` has been called, and the one that the
    thread in the section has written last, when it has not called `P` yet. -/
theorem display_length {p : Pc} (ht : Critical Writing mutexput m t) (hp : m.pc t = some p) :
    m.device.display.length + (waited p).length =
      pCalled put ((driver get put mutexget mutexput).kernelHistory tr) + (shown p).length := by
  have hcalls : (emitted waits tr).length =
      pCalled put ((driver get put mutexget mutexput).kernelHistory tr) := by
    refine Driver.emitted_pCalled (by simp [driver]) (fun hn => ?_) hr
    cases next_cases hn <;> simp [waits, hsem]
  rw [(display_of_run hsem hr).1, ← hcalls]
  exact (output_transcript hlock).emitted_length (output_brackets hlock) rfl (fun _ => rfl)
    (waits_transcript hlock) hr (fun p hp => ((finishedCalls_shown hlock hr p hp).2).symm) ht hp

/-- When the running thread is in the section, the interrupts for all characters that it has
    waited for have come. -/
theorem idle_of_running {p : Pc} (hrun : m.kernel.sleeping = false)
    (hp : m.pc m.kernel.currentThread = some p) (hin : Writing p)
    (hlen : (waited p).length = (shown p).length) : m.device.putBusy = false := by
  have G := output_guards hsem hlock
  have B : Brackets (driver get put mutexget mutexput) mutexput Writing := output_brackets hlock
  have h₀ : 0 ≤ Function.update (Function.update initialValue get 0) put 0 put := by simp
  have hcrit : Critical Writing mutexput m m.kernel.currentThread :=
    Brackets.current rfl hr hrun ⟨p, hp, hin⟩
  have hdisplay := display_length hsem hlock hr hcrit hp
  have hnone := G.nobody_inP B rfl (fun _ => rfl) hr hrun ⟨p, hp, hin⟩
  have hreturned := ((G.pCalled_of_run B rfl (fun _ => rfl) hr h₀).resolve_left
    fun hc => hc.1.elim hnone).2
  have hle := G.pReturned_le B rfl (fun _ => rfl) hr h₀
  have hcount := (display_of_run hsem hr).2
  rw [Function.update_self] at hle
  by_contra hbusy
  rw [if_pos (by simpa using hbusy)] at hcount
  omega

/-- Who sleeps in `P` waits for an interrupt that is to come. -/
theorem busy_of_asleep (hq : t ∈ (m.kernel.semaphore put).queue) : m.device.putBusy = true := by
  have G := output_guards hsem hlock
  have B : Brackets (driver get put mutexget mutexput) mutexput Writing := output_brackets hlock
  have h₀ : 0 ≤ Function.update (Function.update initialValue get 0) put 0 put := by simp
  have hin : InP put m.kernel t := Or.inl hq
  obtain ⟨p, hp, buffer, nbcar, i, rfl⟩ :
      Inside (fun p => ∃ buffer nbcar i, p = .putLoop buffer nbcar i) m t :=
    Driver.place_of_inP (D := driver get put mutexget mutexput) G.mem
      (fun hn => by cases next_cases hn <;> simp_all) rfl hr t hin
  have hdisplay := display_length hsem hlock hr (G.critical_of_inP B rfl hr hin) hp
  have hreturned := ((G.pCalled_of_run B rfl (fun _ => rfl) hr h₀).resolve_right
    fun hc => hc.1 t hin).2
  have heq := G.pReturned_eq_of_queued B rfl (fun _ => rfl) hr h₀ hq
  have hcount := (display_of_run hsem hr).2
  rw [Function.update_self] at heq
  simp only [shown, waited, List.length_map, List.length_range, List.length_replicate] at hdisplay
  by_contra hbusy
  rw [if_neg hbusy] at hcount
  omega

end Run

/-- In every run: `PutChar` finds no character under way, so that its `ASSERT` holds; the
    display shows the strings of the calls that have released the lock, whole and in this order,
    and then what the one call in the section has written; before a call releases the lock its
    whole string is there, and the last interrupt has come; and who sleeps in `P` waits for an
    interrupt that is to come. -/
theorem output_serialized (initialValue : SemId → Int) (get put : SemId)
    (mutexget mutexput : LockId) (hsem : get ≠ put) (hlock : mutexget ≠ mutexput)
    (keyboard : List Byte) (tr : Moves) (m : Driven Console Pc)
    (hr : Run (driver get put mutexget mutexput).step (initial initialValue get put keyboard)
      tr m) :
    (∀ buffer nbcar i, m.kernel.sleeping = false →
      m.pc m.kernel.currentThread = some (.putLoop buffer nbcar i) →
      m.device.putBusy = false ∧
        (nbcar ≤ i → m.device.display =
          (written get put mutexget mutexput tr).flatten ++ string buffer nbcar)) ∧
    (∃ part, m.device.display = (written get put mutexget mutexput tr).flatten ++ part ∧
      (∀ t, Critical Writing mutexput m t →
        ∃ p, m.pc t = some p ∧ part = shown p ∧ part <+: stringOf p) ∧
      ((∀ t, ¬ Critical Writing mutexput m t) → part = [])) ∧
    (∀ t u, Critical Writing mutexput m t → Critical Writing mutexput m u → t = u) ∧
    ∀ t ∈ (m.kernel.semaphore put).queue, m.device.putBusy = true := by
  have B : Brackets (driver get put mutexget mutexput) mutexput Writing := output_brackets hlock
  obtain ⟨part, hlaw⟩ := (output_transcript hlock).of_run B rfl (fun _ => rfl) hr
  have hwritten : (finishedCalls (driver get put mutexget mutexput) mutexput tr).map shown =
      written get put mutexget mutexput tr :=
    List.map_congr_left fun p hp => (finishedCalls_shown hlock hr p hp).1
  have hout : m.device.display = (written get put mutexget mutexput tr).flatten ++ part := by
    rw [(display_of_run hsem hr).1, hlaw.out, hwritten]
  have hpart : ∀ t p, Critical Writing mutexput m t → m.pc t = some p → part = shown p := by
    intro t p ht hp
    rw [← hlaw.owner t ht, Transcript.textOf, hp]
    rfl
  refine ⟨fun buffer nbcar i hrun hp => ⟨?_, fun hi => ?_⟩, ⟨part, hout, fun t ht => ?_,
    hlaw.nobody⟩, fun t u ht hu => B.unique rfl (fun _ => rfl) hr ht hu,
    fun t ht => busy_of_asleep hsem hlock hr ht⟩
  · exact idle_of_running hsem hlock hr hrun hp trivial (by simp [waited, shown])
  · -- the loop is at the end of the string
    have hcrit : Critical Writing mutexput m m.kernel.currentThread :=
      Brackets.current rfl hr hrun ⟨_, hp, trivial⟩
    have hstring : i ≤ nbcar.toNat := inString_of_run hr _ _ hp
    have hlen : i = nbcar.toNat := by omega
    rw [hout, hpart _ _ hcrit hp, hlen]
    rfl
  · obtain ⟨⟨p, hp, hin⟩, -⟩ := id ht
    refine ⟨p, hp, hpart t p ht hp, ?_⟩
    have hstring := inString_of_run hr t p hp
    rw [hpart t p ht hp]
    cases p with
    | putLoop buffer nbcar i =>
        exact shown_prefix buffer hstring
    | putWait buffer nbcar i =>
        exact shown_prefix buffer hstring
    | _ => exact absurd hin (by simp [Writing])

/-- The main thread writes `A` and waits; it goes on when the interrupt has come, and is about
    to release the lock. -/
theorem output_serialized_a : ∃ tr m,
    Run (driver 0 1 0 1).step (initial (fun _ => 0) 0 1 []) tr m ∧
      (m.kernel.sleeping = false ∧ m.device.display = [0x41] ∧ written 0 1 0 1 tr = []) ∧
      ∀ buffer nbcar i, m.kernel.sleeping = false →
        m.pc m.kernel.currentThread = some (.putLoop buffer nbcar i) →
        m.device.putBusy = false ∧
          (nbcar ≤ i → m.device.display =
            (written 0 1 0 1 tr).flatten ++ string buffer nbcar) := by
  obtain ⟨⟨tr, m⟩, he, hx⟩ := Option.map_eq_some_iff.mp
    (show (exec (driver 0 1 0 1).step (initial (fun _ => 0) 0 1 [])
        [.call (.putString (fun _ => 0x41) 1), .advance, .advance, .advance,
          .idle [.device .writeDone], .other .dispatch]).map
            (fun x => (x.2.kernel.sleeping, x.2.device.display, written 0 1 0 1 x.1)) =
        some (false, [0x41], []) by decide)
  simp only [Prod.mk.injEq] at hx
  exact ⟨tr, m, run_of_exec he, hx,
    (output_serialized _ 0 1 0 1 (by decide) (by decide) [] tr m (run_of_exec he)).1⟩

end Section

end DriverConsole
end Nachos
