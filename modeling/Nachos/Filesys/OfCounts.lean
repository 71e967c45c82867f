/-
  Nachos.Filesys.OfCounts

  Threads that open, close and remove files, and switch at every access to the
  disk.  The history keeps, for every name, the handles that are open under it: a
  handle counts from the moment its `Open` is bound to return it, until its
  `Close` begins.  `Open` looks the table up and tests for a free slot before it
  reads the disk, and enters the file afterwards without a second look: two
  threads that open the same file for the first time enter it twice, and a thread
  that finds the last slot taken meanwhile stores its entry before the array.
-/

import Nachos.Filesys.OfEffects
import Nachos.Lib.Ledger
import Nachos.Lib.Run

namespace Nachos

open Words Program Config World
open Transition (Run)

inductive TableCall
  | openFile (name : List Byte)
  | closeFile (name : List Byte)
  | removeFile (name : List Byte)

inductive Reply
  | handle (file : Option OpenFile)
  | closed
  | removed (result : MsgError)

namespace TableCall

def name : TableCall → List Byte
  | openFile name => name
  | closeFile name => name
  | removeFile name => name

variable [Config]

def prog : TableCall → Prog World Reply
  | openFile name => Reply.handle <$> OpenFileTable.open name
  | closeFile name => (fun _ => Reply.closed) <$> OpenFileTable.close name
  | removeFile name => Reply.removed <$> OpenFileTable.remove name

end TableCall

/-- A call that has begun. -/
structure Activity where
  call : TableCall
  /-- Where `findl` has found the name at the beginning. -/
  found : Option Nat
  rest : Prog World Reply

/-- The threads that are in one of the calls, and the handles that are open under
    each name. -/
structure OpenFiles where
  world : World
  running : Nat → Option Activity
  handles : List Byte → Nat

/-- What happens next: a thread begins a call, or goes on with it. -/
inductive Turn
  | start (t : Nat) (c : TableCall)
  | resume (t : Nat)

/-- The reply is a handle. -/
def Reply.isHandle : Reply → Bool
  | handle (some _) => true
  | _ => false

namespace OpenFiles

/-- The entry of a name. -/
def entry (s : OpenFiles) (name : List Byte) : Option OpenFileTableEntry :=
  (s.world.findl name).bind s.world.table

/-- The handles once a call has looked the table up. -/
def register (s : OpenFiles) : TableCall → List Byte → Nat
  | .openFile name =>
      if (s.entry name).any fun e => !e.ToBeDeleted then
        Function.update s.handles name (s.handles name + 1)
      else s.handles
  | .closeFile name => Function.update s.handles name (s.handles name - 1)
  | .removeFile _ => s.handles

/-- Run thread `t`, which is in the call `a`, to its next switch. -/
def advance (s : OpenFiles) (t : Nat) (a : Activity) : Option OpenFiles :=
  match a.rest.segment s.world with
  | some (.paused p, w) =>
      some { s with world := w, running := Function.update s.running t (some { a with rest := p }) }
  | some (.done r, w) =>
      some
        { world := w
          running := Function.update s.running t none
          handles :=
            if a.found.isNone && r.isHandle then
              Function.update s.handles a.call.name (s.handles a.call.name + 1)
            else s.handles }
  | none => none

variable [Config]

/-- The call that the turn goes on with. -/
def acting (s : OpenFiles) : Turn → Option Activity
  | .start t c => if (s.running t).isNone then some ⟨c, s.world.findl c.name, c.prog⟩ else none
  | .resume t => s.running t

def step (s : OpenFiles) (x : Turn) : Option OpenFiles :=
  (s.acting x).bind fun a =>
    match x with
    | .start t c => { s with handles := s.register c }.advance t a
    | .resume t => s.advance t a

/-- The system after the boot: nothing is open. -/
structure Booted (s : OpenFiles) : Prop where
  mapStored : s.world.MapStored
  table : s.world.table = fun _ => none
  nbentry : s.world.nbentry = 0
  running : s.running = fun _ => none
  handles : s.handles = fun _ => 0

/-! ## What is claimed and what goes wrong -/

/-- In this turn an `Open` of the name enters the file in the table. -/
def Inserts (s : OpenFiles) (x : Turn) (name : List Byte) : Prop :=
  ∃ a f w, s.acting x = some a ∧ a.call = .openFile name ∧ a.found = none ∧
    a.rest.segment s.world = some (.done (.handle (some f)), w)

/-- The entry that a `Close` which begins in this turn counts down. -/
def closes (s : OpenFiles) : Turn → Option OpenFileTableEntry
  | .start _ (.closeFile name) => s.entry name
  | _ => none

/-- Each name has one entry, which counts its open handles. -/
structure Agrees (s : OpenFiles) : Prop where
  unique : ∀ i j e e', s.world.table i = some e → s.world.table j = some e' →
    e.name = e'.name → i = j
  counted : ∀ i e, s.world.table i = some e → e.numthread = s.handles e.name

/-- The last turn has entered a file in a free slot, if it has entered one. -/
def LastFree (tr : List (OpenFiles × Turn)) : Prop :=
  ∀ s x, tr.getLast? = some (s, x) → ∀ name, s.Inserts x name → s.world.FreeSlot s.world.nbentry

/-- What the turn relies on holds: a file that is entered is still not in the table, which
    still has a free slot; and no other `Close` is taking out the entry that is counted
    down. -/
structure Careful (s : OpenFiles) (x : Turn) : Prop where
  inserts : ∀ name, s.Inserts x name → s.world.findl name = none ∧ s.world.nbentry ≠ -1
  closes : ∀ e, s.closes x = some e → 0 < e.numthread

/-! ## What a call that has begun still does -/

/-- What the last segment of a call does. -/
def Promise : TableCall → Option Nat → World → Reply → World → Prop
  | .openFile name, none => fun w r w' =>
      ∃ f, r = .handle f ∧ OpenFileTable.Entered name w f w'
  | .openFile _, some _ => fun w r w' => (∃ f, r = .handle (some f)) ∧ SameTable w w'
  | .closeFile _, some num => fun w r w' =>
      r = .closed ∧ ∃ w₁, SameTable w w₁ ∧ w' = w₁.setEntry num none
  | .closeFile _, none => fun _ _ _ => False
  | .removeFile _, _ => fun w r w' => (∃ e, r = .removed e) ∧ Marks w w'

/-- From any state, the rest of the call keeps its promise. -/
def Follows (a : Activity) : Prop :=
  ∀ w : World, w.MapStored → a.rest.Meets MapStored Marks (Promise a.call a.found) w w

/-- The slot that a `Close` in progress is going to free. -/
def slot : Option Activity → Option Nat
  | some ⟨.closeFile _, found, _⟩ => found
  | _ => none

abbrev Books (table : Nat → Option OpenFileTableEntry) (handles : List Byte → Nat) : Prop :=
  Ledger.Sound OpenFileTableEntry.name OpenFileTableEntry.numthread table handles

/-- The part of the invariant that is about the table. -/
structure TableInv (w : World) (handles : List Byte → Nat) : Prop where
  mapStored : w.MapStored
  bound : ∀ i e, w.table i = some e → i < NBOFTENTRY
  nbentry : w.nbentry = -1 ∨ w.FreeSlot w.nbentry
  books : Books w.table handles
  /-- An entry that counts no handle is being taken out. -/
  live : ∀ i e, w.table i = some e → e.numthread = 0 → e.ToBeDeleted = true

/-- The slot has an entry that is being taken out. -/
def Dying (w : World) (num : Nat) : Prop :=
  ∃ e, w.table num = some e ∧ e.numthread = 0 ∧ e.ToBeDeleted = true

/-- The invariant of careful runs. -/
structure Inv (s : OpenFiles) : Prop extends TableInv s.world s.handles where
  follows : ∀ t a, s.running t = some a → Follows a
  closing : ∀ t num, slot (s.running t) = some num → Dying s.world num
  apart : ∀ t t' num, slot (s.running t) = some num → slot (s.running t') = some num → t = t'

variable {s s' : OpenFiles} {x : Turn} {t : Nat} {a : Activity}

/-- What one turn does to the table, the handles and the calls in progress. -/
inductive Effect (s : OpenFiles) (x : Turn) : OpenFiles → Prop where
  /-- Nothing but a mark. -/
  | quiet {t : Nat} {w : World} {r : Option Activity} :
      (∀ name, ¬ s.Inserts x name) → s.closes x = none → Marks s.world w →
      (∀ a, r = some a → Follows a) → slot r = slot (s.running t) →
      Effect s x ⟨w, Function.update s.running t r, s.handles⟩
  /-- `Open` finds the name. -/
  | count {t num : Nat} {e : OpenFileTableEntry} {w : World} {r : Option Activity} :
      (∀ name, ¬ s.Inserts x name) → s.closes x = none → s.running t = none →
      s.world.table num = some e → e.ToBeDeleted = false →
      SameTable (s.world.setEntry num (some { e with numthread := e.numthread + 1 })) w →
      (∀ a, r = some a → Follows a) → slot r = none →
      Effect s x ⟨w, Function.update s.running t r,
        Function.update s.handles e.name (s.handles e.name + 1)⟩
  /-- `Open` enters the file. -/
  | insert {t : Nat} {e : OpenFileTableEntry} {w : World} :
      s.Inserts x e.name → (∀ name, s.Inserts x name → name = e.name) → s.closes x = none →
      slot (s.running t) = none → e.numthread = 1 → e.ToBeDeleted = false →
      SameTable s.world w →
      Effect s x ⟨w.insert e, Function.update s.running t none,
        Function.update s.handles e.name (s.handles e.name + 1)⟩
  /-- `Close`, while other handles are open. -/
  | uncount {t num : Nat} {e : OpenFileTableEntry} :
      (∀ name, ¬ s.Inserts x name) → s.closes x = some e → s.running t = none →
      s.world.table num = some e → 1 < e.numthread →
      Effect s x ⟨s.world.setEntry num (some { e with numthread := e.numthread - 1 }),
        Function.update s.running t none,
        Function.update s.handles e.name (s.handles e.name - 1)⟩
  /-- The last `Close` of a file that has been removed frees it. -/
  | last {t num : Nat} {e : OpenFileTableEntry} {w : World} {p : Prog World Reply} :
      (∀ name, ¬ s.Inserts x name) → s.closes x = some e → s.running t = none →
      s.world.table num = some e → e.numthread ≤ 1 → e.ToBeDeleted = true →
      SameTable (s.world.setEntry num (some { e with numthread := e.numthread - 1 })) w →
      Follows ⟨.closeFile e.name, some num, p⟩ →
      Effect s x ⟨w, Function.update s.running t (some ⟨.closeFile e.name, some num, p⟩),
        Function.update s.handles e.name (s.handles e.name - 1)⟩
  /-- The last `Close` of any other file. -/
  | drop {t num : Nat} {e : OpenFileTableEntry} {w : World} :
      (∀ name, ¬ s.Inserts x name) → s.closes x = some e → s.running t = none →
      s.world.table num = some e → e.numthread ≤ 1 → e.ToBeDeleted = false →
      SameTable (s.world.setEntry num (some { e with numthread := e.numthread - 1 })) w →
      Effect s x ⟨w.setEntry num none, Function.update s.running t none,
        Function.update s.handles e.name (s.handles e.name - 1)⟩
  /-- The file has been freed. -/
  | takeOut {t num : Nat} {w : World} :
      (∀ name, ¬ s.Inserts x name) → s.closes x = none → slot (s.running t) = some num →
      SameTable s.world w →
      Effect s x ⟨w.setEntry num none, Function.update s.running t none, s.handles⟩

/-! ## Every turn has one of the effects -/

omit [Config] in
theorem advance_done {r : Reply} {w : World} (h : s.advance t a = some s')
    (hs : a.rest.segment s.world = some (.done r, w)) :
    s' = ⟨w, Function.update s.running t none,
      if a.found.isNone && r.isHandle then
        Function.update s.handles a.call.name (s.handles a.call.name + 1)
      else s.handles⟩ := by
  rw [advance, hs] at h
  exact (Option.some.inj h).symm

omit [Config] in
theorem advance_paused {p : Prog World Reply} {w : World} (h : s.advance t a = some s')
    (hs : a.rest.segment s.world = some (.paused p, w)) :
    s' = ⟨w, Function.update s.running t (some { a with rest := p }), s.handles⟩ := by
  rw [advance, hs] at h
  exact (Option.some.inj h).symm

omit [Config] in
/-- The turn is a segment of the call. -/
theorem advance_segment (h : s.advance t a = some s') :
    (∃ r w, a.rest.segment s.world = some (.done r, w)) ∨
      ∃ p w, a.rest.segment s.world = some (.paused p, w) := by
  unfold advance at h
  split at h
  · rename_i p w hs
    exact Or.inr ⟨p, w, hs⟩
  · rename_i r w hs
    exact Or.inl ⟨r, w, hs⟩
  · exact nomatch h

/-- A segment that does not return a handle enters nothing. -/
theorem not_inserts (ha : s.acting x = some a)
    (h : ∀ f w, a.rest.segment s.world ≠ some (.done (.handle (some f)), w)) (name : List Byte) :
    ¬ s.Inserts x name := by
  rintro ⟨a', f, w, ha', -, -, hs⟩
  obtain rfl := Option.some.inj (ha.symm.trans ha')
  exact h f w hs

omit [Config] in
theorem slot_rest (a : Activity) (p : Prog World Reply) :
    slot (some { a with rest := p }) = slot (some a) := by
  obtain ⟨call, found, rest⟩ := a
  cases call <;> rfl

/-- A call that goes on. -/
theorem resume_effect (hI : s.Inv) (ha : s.running t = some a) (hs : s.advance t a = some s') :
    Effect s (.resume t) s' := by
  have hf := hI.follows t a ha s.world hI.mapStored
  rcases advance_segment hs with ⟨r, w, hseg⟩ | ⟨p, w, hseg⟩
  · obtain rfl := advance_done hs hseg
    have hpost := hf.done hseg
    obtain ⟨call, found, rest⟩ := a
    have hno : found ≠ none → ∀ name, ¬ s.Inserts (.resume t) name := by
      rintro hne name ⟨a', f, w, ha', -, hnone, -⟩
      obtain rfl := Option.some.inj (ha.symm.trans ha')
      exact hne hnone
    cases call with
    | openFile name =>
        cases found with
        | some num =>
            obtain ⟨-, hsame⟩ := hpost
            exact .quiet (hno nofun) rfl hsame.marks nofun (by rw [ha]; rfl)
        | none =>
            obtain ⟨f, rfl, ⟨rfl, hsame⟩ | ⟨hsome, e, w₁, rfl, hone, hnot, hsame, rfl⟩⟩ := hpost
            · refine .quiet (not_inserts ha fun f w h => ?_) rfl hsame.marks nofun (by rw [ha]; rfl)
              exact nomatch hseg.symm.trans h
            · obtain ⟨f, rfl⟩ := Option.isSome_iff_exists.mp hsome
              refine .insert ⟨_, f, _, ha, rfl, rfl, hseg⟩ ?_ rfl (by rw [ha]; rfl) hone hnot hsame
              rintro name' ⟨a', f', w', ha', hcall, -, -⟩
              obtain rfl := Option.some.inj (ha.symm.trans ha')
              injection hcall with hcall
              exact hcall.symm
    | closeFile name =>
        cases found with
        | some num =>
            obtain ⟨rfl, w₁, hsame, rfl⟩ := hpost
            exact .takeOut (hno nofun) rfl (by rw [ha]; rfl) hsame
        | none => exact hpost.elim
    | removeFile name =>
        obtain ⟨⟨e, rfl⟩, hmarks⟩ := hpost
        simp only [Reply.isHandle, Bool.and_false, Bool.false_eq_true, if_false]
        refine .quiet (not_inserts ha fun f w h => ?_) rfl hmarks nofun (by rw [ha]; rfl)
        exact nomatch hseg.symm.trans h
  · obtain rfl := advance_paused hs hseg
    obtain ⟨hmarks, hrest⟩ := hf.paused hseg
    refine .quiet (not_inserts ha fun f w h => ?_) rfl hmarks ?_ (by rw [ha, slot_rest])
    · exact nomatch hseg.symm.trans h
    · intro b hb
      obtain rfl := Option.some.inj hb
      exact hrest

omit [Config] in
/-- A call that begins, when its first segment is that of `q` in `w`. -/
theorem start_segment {β : Type} {G : World → World → Prop} {Q : World → β → World → Prop}
    {call : TableCall} {found : Option Nat} {p q : Prog World β} {g : β → Reply} {w : World}
    (hs : s.advance t ⟨call, found, g <$> p⟩ = some s')
    (hpq : p.segment s.world = q.segment w) (hq : q.Meets MapStored G Q w w)
    (hG : ∀ w w', G w w' → Marks w w')
    (hpost : ∀ w b w', Q w b w' → Promise call found w (g b) w') :
    (∃ b w', Q w b w' ∧ (g <$> p).segment s.world = some (.done (g b), w') ∧
      s' = ⟨w', Function.update s.running t none,
        if found.isNone && (g b).isHandle then
          Function.update s.handles call.name (s.handles call.name + 1)
        else s.handles⟩) ∨
    ∃ r w', G w w' ∧ (∃ r', (g <$> p).segment s.world = some (.paused r', w')) ∧
      Follows ⟨call, found, r⟩ ∧
      s' = ⟨w', Function.update s.running t (some ⟨call, found, r⟩), s.handles⟩ := by
  rcases advance_segment hs with ⟨r, w', hseg⟩ | ⟨r, w', hseg⟩
  · obtain ⟨b, hb, rfl⟩ := Prog.segment_map_done hseg
    exact Or.inl ⟨b, w', hq.done (hpq ▸ hb), hseg, advance_done hs hseg⟩
  · obtain ⟨p', hp', rfl⟩ := Prog.segment_map_paused hseg
    obtain ⟨hg, hrest⟩ := hq.paused (hpq ▸ hp')
    refine Or.inr ⟨_, w', hg, ⟨_, hseg⟩, fun v hv => ?_, advance_paused hs hseg⟩
    exact Prog.meets_map.mpr ((hrest v hv).mono hG hpost)

section Start

variable {name : List Byte} {num : Nat} {e : OpenFileTableEntry}

theorem acting_start {c : TableCall} (hrun : s.running t = none) :
    s.acting (.start t c) = some ⟨c, s.world.findl c.name, c.prog⟩ := by
  simp only [acting, hrun, Option.isNone_none, if_true]

/-- A call that finds its name enters nothing. -/
theorem not_inserts_known {c : TableCall} (hrun : s.running t = none)
    (hf : s.world.findl c.name = some num) (name : List Byte) :
    ¬ s.Inserts (.start t c) name := by
  rintro ⟨a', f, w, ha', -, hnone, -⟩
  obtain rfl := Option.some.inj ((acting_start hrun).symm.trans ha')
  exact nomatch hf.symm.trans hnone

omit [Config] in
theorem mapStored_setEntry (hI : s.Inv) (n : Nat) (e : Option OpenFileTableEntry) :
    (s.world.setEntry n e).MapStored := by
  simpa only [MapStored, setEntry_freeMapFile] using hI.mapStored

/-- `Open` of a name that is in the table. -/
theorem open_known_effect (hI : s.Inv) (hrun : s.running t = none)
    (hf : s.world.findl name = some num) (he : s.world.table num = some e) (hname : e.name = name)
    (hs : { s with handles := s.register (.openFile name) }.advance t
      ⟨.openFile name, some num, (TableCall.openFile name).prog⟩ = some s') :
    Effect s (.start t (.openFile name)) s' := by
  have hno := not_inserts_known (c := .openFile name) hrun hf
  cases hd : e.ToBeDeleted with
  | true =>
      have hreg : s.register (.openFile name) = s.handles := by
        simp [register, entry, hf, he, hd]
      rw [hreg] at hs
      obtain rfl := advance_done hs (Prog.segment_map _ (OpenFileTable.open_removed hf he hd))
      exact .quiet hno rfl (SameTable.refl _).marks nofun (by rw [hrun])
  | false =>
      have hreg : s.register (.openFile name) =
          Function.update s.handles e.name (s.handles e.name + 1) := by
        simp [register, entry, hf, he, hd, hname]
      rw [hreg] at hs
      have hmeets := OpenFileTable.meets_handle name e.sector
        (mapStored_setEntry hI num (some { e with numthread := e.numthread + 1 }))
        (SameTable.refl _)
      have hpost : ∀ w b w', (b.isSome ∧ SameTable w w') →
          Promise (.openFile name) (some num) w (.handle b) w' := by
        rintro w b w' ⟨hb, hsame⟩
        obtain ⟨f, rfl⟩ := Option.isSome_iff_exists.mp hb
        exact ⟨⟨f, rfl⟩, hsame⟩
      rcases start_segment hs (OpenFileTable.open_known hf he hd) hmeets
        (fun _ _ => SameTable.marks) hpost with
        ⟨b, w, ⟨-, hsame⟩, -, rfl⟩ | ⟨r, w, hsame, -, hfol, rfl⟩
      · exact .count hno rfl hrun he hd hsame nofun rfl
      · refine .count hno rfl hrun he hd hsame (fun a ha => ?_) rfl
        exact Option.some.inj ha ▸ hfol

/-- `Open` of a name that is not. -/
theorem open_new_effect (hI : s.Inv) (hrun : s.running t = none) (hf : s.world.findl name = none)
    (hs : { s with handles := s.register (.openFile name) }.advance t
      ⟨.openFile name, none, (TableCall.openFile name).prog⟩ = some s') :
    Effect s (.start t (.openFile name)) s' := by
  have hact := acting_start (s := s) (c := .openFile name) hrun
  have hreg : s.register (.openFile name) = s.handles := by
    simp [register, entry, hf]
  rw [hreg] at hs
  by_cases hn : s.world.nbentry = -1
  · have hseg := Prog.segment_map Reply.handle (OpenFileTable.open_full hf hn)
    obtain rfl := advance_done hs hseg
    refine .quiet (not_inserts hact fun f w h => ?_) rfl (SameTable.refl _).marks nofun
      (by rw [hrun])
    exact nomatch hseg.symm.trans h
  · have hmeets := OpenFileTable.meets_enter name hI.mapStored (SameTable.refl s.world)
    rcases start_segment hs (OpenFileTable.open_new hf hn) hmeets (fun _ _ => SameTable.marks)
      (fun w b w' h => ⟨b, rfl, h⟩) with
      ⟨b, w, hpost, hseg, rfl⟩ | ⟨r, w, hsame, ⟨r', hseg⟩, hfol, rfl⟩
    · rcases hpost with ⟨rfl, hsame⟩ | ⟨hsome, e, w₁, rfl, hone, hnot, hsame, rfl⟩
      · refine .quiet (not_inserts hact fun f w h => ?_) rfl hsame.marks nofun (by rw [hrun])
        exact nomatch hseg.symm.trans h
      · obtain ⟨f, rfl⟩ := Option.isSome_iff_exists.mp hsome
        refine .insert ⟨_, f, _, hact, rfl, hf, hseg⟩ ?_ rfl (by rw [hrun]; rfl) hone hnot hsame
        rintro name' ⟨a', f', w', ha', hcall, -, -⟩
        obtain rfl := Option.some.inj (hact.symm.trans ha')
        injection hcall with hcall
        exact hcall.symm
    · refine .quiet (not_inserts hact fun f w h => ?_) rfl hsame.marks (fun a ha => ?_)
        (by rw [hrun]; rfl)
      · exact nomatch hseg.symm.trans h
      · exact Option.some.inj ha ▸ hfol

theorem close_effect (hI : s.Inv) (hrun : s.running t = none)
    (hs : { s with handles := s.register (.closeFile name) }.advance t
      ⟨.closeFile name, s.world.findl name, (TableCall.closeFile name).prog⟩ = some s') :
    Effect s (.start t (.closeFile name)) s' := by
  have hact := acting_start (s := s) (c := .closeFile name) hrun
  have hno : ∀ name', ¬ s.Inserts (.start t (.closeFile name)) name' := by
    rintro name' ⟨a', f, w, ha', hcall, -, -⟩
    obtain rfl := Option.some.inj (hact.symm.trans ha')
    exact nomatch hcall
  cases hf : s.world.findl name with
  | none =>
      rw [hf] at hs
      have hzero : s.handles name = 0 :=
        hI.books.unused fun i e he => findl_none hf (hI.bound i e he) he
      have hreg : s.register (.closeFile name) = s.handles := by
        simp only [register, hzero, Nat.zero_sub]
        rw [← hzero, Function.update_eq_self]
      rw [hreg] at hs
      obtain rfl := advance_done hs (Prog.segment_map _ (OpenFileTable.close_unknown hf))
      exact .quiet hno (by simp [closes, entry, hf]) (SameTable.refl _).marks nofun (by rw [hrun])
  | some num =>
      rw [hf] at hs
      obtain ⟨hlt, e, he, rfl⟩ := findl_some hf
      have hcl : s.closes (.start t (.closeFile e.name)) = some e := by
        simp [closes, entry, hf, he]
      by_cases hn : 1 < e.numthread
      · obtain rfl := advance_done hs
          (Prog.segment_map _ (OpenFileTable.close_counted hf he (by omega)))
        exact .uncount hno hcl hrun he hn
      · have hle : e.numthread ≤ 1 := Int.not_lt.mp hn
        have hstored := mapStored_setEntry hI num (some { e with numthread := e.numthread - 1 })
        have hlast := OpenFileTable.close_last hf he (by omega)
        cases hd : e.ToBeDeleted with
        | false =>
            obtain rfl := advance_done hs
              (Prog.segment_map _ (hlast.trans (OpenFileTable.takeOut_kept hd)))
            exact .drop hno hcl hrun he hle hd (SameTable.refl _)
        | true =>
            have hmeets := OpenFileTable.meets_takeOut num
              { e with numthread := e.numthread - 1 } hstored (SameTable.refl _)
            rcases start_segment hs hlast hmeets (fun _ _ => SameTable.marks)
              (fun w b w' h => ⟨rfl, h⟩) with ⟨b, w, -, hseg, -⟩ | ⟨r, w, hsame, -, hfol, rfl⟩
            · -- The destructor reads the disk.
              obtain ⟨b', hb', -⟩ := Prog.segment_map_done hseg
              exact absurd (hlast ▸ hb') (OpenFileTable.waits_takeOut hd hstored b' _)
            · exact .last hno hcl hrun he hle hd hsame hfol

theorem remove_effect (hI : s.Inv) (hrun : s.running t = none)
    (hs : { s with handles := s.register (.removeFile name) }.advance t
      ⟨.removeFile name, s.world.findl name, (TableCall.removeFile name).prog⟩ = some s') :
    Effect s (.start t (.removeFile name)) s' := by
  have hact := acting_start (s := s) (c := .removeFile name) hrun
  have hno : ∀ name', ¬ s.Inserts (.start t (.removeFile name)) name' := by
    rintro name' ⟨a', f, w, ha', hcall, -, -⟩
    obtain rfl := Option.some.inj (hact.symm.trans ha')
    exact nomatch hcall
  have hmeets := (OpenFileTable.keeps_remove name).meets s.world s.world hI.mapStored
    (SameTable.refl _).marks
  rcases start_segment hs rfl hmeets (fun _ _ h => h) (fun w b w' h => ⟨⟨b, rfl⟩, h.2⟩) with
    ⟨b, w, ⟨-, hmarks⟩, -, rfl⟩ | ⟨r, w, hmarks, -, hfol, rfl⟩
  · simp only [Reply.isHandle, Bool.and_false, Bool.false_eq_true, if_false]
    exact .quiet hno rfl hmarks nofun (by rw [hrun])
  · refine .quiet hno rfl hmarks (fun a ha => ?_) (by rw [hrun]; rfl)
    exact Option.some.inj ha ▸ hfol

end Start

/-- Every turn has one of the effects. -/
theorem step_effect (hI : s.Inv) (hs : s.step x = some s') : Effect s x s' := by
  obtain ⟨a, ha, hs⟩ := Option.bind_eq_some_iff.mp hs
  cases x with
  | resume t => exact resume_effect hI ha hs
  | start t c =>
      have hrun : s.running t = none := by
        by_contra hne
        obtain ⟨b, hb⟩ := Option.ne_none_iff_exists'.mp hne
        simp [acting, hb] at ha
      obtain rfl := Option.some.inj ((acting_start hrun).symm.trans ha)
      cases c with
      | openFile name =>
          cases hf : s.world.findl name with
          | none => exact open_new_effect hI hrun hf (by simpa only [TableCall.name, hf] using hs)
          | some num =>
              obtain ⟨-, e, he, hname⟩ := findl_some hf
              exact open_known_effect hI hrun hf he hname
                (by simpa only [TableCall.name, hf] using hs)
      | closeFile name => exact close_effect hI hrun hs
      | removeFile name => exact remove_effect hI hrun hs

end OpenFiles

end Nachos
