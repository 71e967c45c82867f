/-
  Nachos.Filesys.OfAgree

  The table of open files agrees with the open handles in every state of a run if
  and only if each turn finds what it relies on.  Each of the effects of a turn
  keeps the invariant when the turn is careful, and breaks the agreement when it
  is not.
-/

import Nachos.Filesys.OfCounts

namespace Nachos

open Words Program Config World
open Transition (Run)

namespace OpenFiles

/-! ## The table -/

theorem findl_congr {w w' : World} (h : w'.table = w.table) (name : List Byte) :
    w'.findl name = w.findl name := by
  simp only [findl, h]

/-- Entries that have been marked at most. -/
theorem books_marks {w w' : World} {handles : List Byte → Nat} (h : Books w.table handles)
    (hm : Marks w w') : Books w'.table handles := by
  refine h.replace (fun i e he => ?_) fun i e' he' => ?_
  · rcases hm.table i with hi | ⟨f, hf, hi⟩
    · exact ⟨e, hi.trans he, rfl⟩
    · obtain rfl := Option.some.inj (he.symm.trans hf)
      exact ⟨_, hi, rfl⟩
  · rcases hm.table i with hi | ⟨f, hf, hi⟩
    · exact ⟨e', hi.symm.trans he', rfl, rfl⟩
    · obtain rfl := Option.some.inj (hi.symm.trans he')
      exact ⟨f, hf, rfl, rfl⟩

theorem freeSlot_marks {w w' : World} (h : w.nbentry = -1 ∨ w.FreeSlot w.nbentry)
    (hm : Marks w w') : w'.nbentry = -1 ∨ w'.FreeSlot w'.nbentry := by
  rw [hm.nbentry]
  refine h.imp_right ?_
  rintro ⟨i, hi, hn, hfree⟩
  refine ⟨i, hi, hn, ?_⟩
  rcases hm.table i with heq | ⟨e, he, -⟩
  · exact heq.trans hfree
  · exact nomatch hfree.symm.trans he

/-- The free slot that `nbentry` names stays free when an entry changes or goes. -/
theorem freeSlot_setEntry {w : World} {num : Nat} {e : OpenFileTableEntry}
    {f : Option OpenFileTableEntry} (h : w.nbentry = -1 ∨ w.FreeSlot w.nbentry)
    (hlt : num < NBOFTENTRY) (he : w.table num = some e) :
    (w.setEntry num f).nbentry = -1 ∨ (w.setEntry num f).FreeSlot (w.setEntry num f).nbentry := by
  rw [setEntry_nbentry]
  refine h.imp_right ?_
  rintro ⟨i, hi, hn, hfree⟩
  refine ⟨i, hi, hn, ?_⟩
  have hne : i ≠ num := by
    rintro rfl
    exact nomatch hfree.symm.trans he
  rw [setEntry_table _ _ hlt, Function.update_of_ne hne]
  exact hfree

theorem TableInv.marks {w w' : World} {handles : List Byte → Nat} (h : TableInv w handles)
    (hm : Marks w w') : TableInv w' handles where
  mapStored := hm.mapStored h.mapStored
  bound := by
    intro i e he
    rcases hm.table i with heq | ⟨f, hf, -⟩
    · exact h.bound i e (heq ▸ he)
    · exact h.bound i f hf
  nbentry := freeSlot_marks h.nbentry hm
  books := books_marks h.books hm
  live := by
    intro i e he hzero
    rcases hm.table i with heq | ⟨f, -, hi⟩
    · exact h.live i e (heq ▸ he) hzero
    · obtain rfl := Option.some.inj (hi.symm.trans he)
      rfl

/-- The count of an entry changes with the handles. -/
theorem TableInv.recount {w : World} {handles : List Byte → Nat} {num k : Nat} {n : Int}
    {e : OpenFileTableEntry} (h : TableInv w handles) (he : w.table num = some e) (hn : n = k)
    (hlive : n = 0 → e.ToBeDeleted = true) :
    TableInv (w.setEntry num (some { e with numthread := n }))
      (Function.update handles e.name k) := by
  have hlt := h.bound num e he
  refine ⟨by simpa only [MapStored, setEntry_freeMapFile] using h.mapStored, ?_,
    freeSlot_setEntry h.nbentry hlt he, ?_, ?_⟩
  · intro i f hf
    rw [setEntry_table _ _ hlt] at hf
    by_cases hi : i = num
    · exact hi ▸ hlt
    · exact h.bound i f (by rwa [Function.update_of_ne hi] at hf)
  · rw [setEntry_table _ _ hlt]
    exact h.books.recount he rfl hn
  · intro i f hf hzero
    rw [setEntry_table _ _ hlt] at hf
    by_cases hi : i = num
    · rw [hi, Function.update_self] at hf
      obtain rfl := Option.some.inj hf
      exact hlive hzero
    · exact h.live i f (by rwa [Function.update_of_ne hi] at hf) hzero

/-- An entry goes, once the rest of the table agrees with the handles. -/
theorem TableInv.takeOut {w : World} {handles handles' : List Byte → Nat} {num : Nat}
    {e : OpenFileTableEntry} (h : TableInv w handles) (he : w.table num = some e)
    (hb : Books (Function.update w.table num none) handles') :
    TableInv (w.setEntry num none) handles' := by
  have hlt := h.bound num e he
  have hof : ∀ {i f}, (w.setEntry num none).table i = some f → w.table i = some f := by
    intro i f hf
    rw [setEntry_table _ _ hlt] at hf
    by_cases hi : i = num
    · rw [hi, Function.update_self] at hf
      exact nomatch hf
    · rwa [Function.update_of_ne hi] at hf
  refine ⟨by simpa only [MapStored, setEntry_freeMapFile] using h.mapStored, ?_,
    freeSlot_setEntry h.nbentry hlt he, setEntry_table w none hlt ▸ hb, ?_⟩
  · exact fun i f hf => h.bound i f (hof hf)
  · exact fun i f hf => h.live i f (hof hf)

/-- A new entry in the free slot. -/
theorem TableInv.insert {w : World} {handles : List Byte → Nat} {e : OpenFileTableEntry}
    (h : TableInv w handles) (hf : w.findl e.name = none) (hn : w.nbentry ≠ -1)
    (hone : e.numthread = 1) :
    TableInv (w.insert e) (Function.update handles e.name (handles e.name + 1)) := by
  obtain ⟨i, hlt, hi, hfree⟩ := h.nbentry.resolve_left hn
  have htable : (w.insert e).table = Function.update w.table i (some e) := by
    show (w.setEntry w.nbentry (some e)).table = _
    rw [hi, setEntry_table _ _ hlt]
  refine ⟨?_, ?_, nextEntry_spec _, ?_, ?_⟩
  · show 0 < (w.setEntry w.nbentry (some e)).freeMapFile.hdr.numBytes
    rw [setEntry_freeMapFile]
    exact h.mapStored
  · intro j f hj
    rw [htable] at hj
    by_cases hji : j = i
    · exact hji ▸ hlt
    · exact h.bound j f (by rwa [Function.update_of_ne hji] at hj)
  · rw [htable]
    exact h.books.enter hfree (fun j f hj => findl_none hf (h.bound j f hj) hj) hone
  · intro j f hj hzero
    rw [htable] at hj
    by_cases hji : j = i
    · rw [hji, Function.update_self] at hj
      obtain rfl := Option.some.inj hj
      rw [hone] at hzero
      exact absurd hzero (by decide)
    · exact h.live j f (by rwa [Function.update_of_ne hji] at hj) hzero

/-- The last handle of a file that stays is closed. -/
theorem TableInv.drop {w w' : World} {handles : List Byte → Nat} {num : Nat}
    {e : OpenFileTableEntry} (h : TableInv w handles) (he : w.table num = some e)
    (hone : e.numthread = 1)
    (hw : SameTable (w.setEntry num (some { e with numthread := e.numthread - 1 })) w') :
    TableInv (w'.setEntry num none) (Function.update handles e.name (handles e.name - 1)) := by
  have hlt := h.bound num e he
  have hcount : ((handles e.name - 1 : Nat) : Int) = 0 := by
    have := h.books.counted he
    omega
  have hbooks : Books (Function.update w.table num none)
      (Function.update handles e.name (handles e.name - 1)) := by
    have hzero := h.books.recount he (f := { e with numthread := 0 }) rfl hcount.symm
    have hout := hzero.takeOut (Function.update_self _ _ _) rfl
    rwa [Function.update_idem] at hout
  refine (h.takeOut he hbooks).marks (SameTable.marks ⟨?_, ?_, ?_⟩)
  · rw [setEntry_table _ _ hlt, setEntry_table _ _ hlt, hw.table, setEntry_table _ _ hlt,
      Function.update_idem]
  · simpa only [setEntry_nbentry] using hw.nbentry
  · have hm := hw.mapStored
    simpa only [MapStored, setEntry_freeMapFile] using hm

theorem Dying.marks {w w' : World} {num : Nat} (h : Dying w num) (hm : Marks w w') :
    Dying w' num := by
  obtain ⟨e, he, hzero, hd⟩ := h
  rcases hm.table num with heq | ⟨f, hf, heq⟩
  · exact ⟨e, heq.trans he, hzero, hd⟩
  · obtain rfl := Option.some.inj (he.symm.trans hf)
    exact ⟨_, heq, hzero, rfl⟩

theorem Dying.setEntry {w : World} {num i : Nat} {e : Option OpenFileTableEntry}
    (h : Dying w num) (hlt : i < NBOFTENTRY) (hne : num ≠ i) : Dying (w.setEntry i e) num := by
  obtain ⟨f, hf, hrest⟩ := h
  exact ⟨f, by rwa [setEntry_table _ _ hlt, Function.update_of_ne hne], hrest⟩

variable {s s' : OpenFiles} {x : Turn} {t : Nat}

/-! ## What one turn is worth -/

/-- A turn of thread `t`: the entries that the other threads take out stay. -/
theorem Inv.next [Config] {w : World} {handles : List Byte → Nat} {r : Option Activity} (hI : s.Inv)
    (htable : TableInv w handles) (hr : ∀ a, r = some a → Follows a)
    (hkeep : ∀ t' num, t' ≠ t → slot (s.running t') = some num → Dying s.world num → Dying w num)
    (hslot : ∀ num, slot r = some num →
      Dying w num ∧ ∀ t', t' ≠ t → slot (s.running t') ≠ some num) :
    Inv ⟨w, Function.update s.running t r, handles⟩ where
  toTableInv := htable
  follows := by
    intro t' a ha
    by_cases ht : t' = t
    · rw [ht] at ha
      exact hr a ((Function.update_self t r s.running).symm.trans ha)
    · exact hI.follows t' a ((Function.update_of_ne ht r s.running).symm.trans ha)
  closing := by
    intro t' num ha
    by_cases ht : t' = t
    · simp only [ht, Function.update_self] at ha
      exact (hslot num ha).1
    · simp only [Function.update_of_ne ht] at ha
      exact hkeep t' num ht ha (hI.closing t' num ha)
  apart := by
    intro t₁ t₂ num h₁ h₂
    by_cases ht₁ : t₁ = t
    · by_cases ht₂ : t₂ = t
      · exact ht₁.trans ht₂.symm
      · simp only [ht₁, Function.update_self] at h₁
        simp only [Function.update_of_ne ht₂] at h₂
        exact absurd h₂ ((hslot num h₁).2 t₂ ht₂)
    · simp only [Function.update_of_ne ht₁] at h₁
      by_cases ht₂ : t₂ = t
      · simp only [ht₂, Function.update_self] at h₂
        exact absurd h₁ ((hslot num h₂).2 t₁ ht₁)
      · simp only [Function.update_of_ne ht₂] at h₂
        exact hI.apart t₁ t₂ num h₁ h₂

section

variable [Config]

omit [Config] in
/-- Nobody takes out an entry that counts handles. -/
theorem Inv.not_slot {num : Nat} {e : OpenFileTableEntry} (hI : s.Inv)
    (he : s.world.table num = some e) (hn : e.numthread ≠ 0 ∨ e.ToBeDeleted = false) (t : Nat) :
    slot (s.running t) ≠ some num := by
  intro hs
  obtain ⟨f, hf, hzero, hd⟩ := hI.closing t num hs
  obtain rfl := Option.some.inj (he.symm.trans hf)
  rcases hn with hn | hn
  · exact hn hzero
  · exact nomatch hd.symm.trans hn

/-- A careful turn keeps the invariant. -/
theorem Effect.inv (h : Effect s x s') (hI : s.Inv) (hc : s.Careful x) : s'.Inv := by
  cases h with
  | @quiet t w r hno hcl hm hr hslot =>
      refine hI.next (hI.toTableInv.marks hm) hr (fun _ _ _ _ hd => hd.marks hm) fun num hs => ?_
      rw [hslot] at hs
      exact ⟨(hI.closing t num hs).marks hm, fun t' hne hs' => hne (hI.apart t' t num hs' hs)⟩
  | @count t num e w r hno hcl hrun he hd hsame hr hslot =>
      have hlt := hI.bound num e he
      have hcount := hI.books.counted he
      have htable := (hI.toTableInv.recount (n := e.numthread + 1) he
        (k := s.handles e.name + 1) (by omega) (by omega)).marks hsame.marks
      refine hI.next htable hr (fun t' i _ hs hdy => ?_) fun i hs => nomatch hslot.symm.trans hs
      refine (hdy.setEntry hlt ?_).marks hsame.marks
      rintro rfl
      exact hI.not_slot he (Or.inr hd) t' hs
  | @insert t e w hins hname hcl hslot hone hnot hsame =>
      obtain ⟨hf, hn⟩ := hc.inserts e.name hins
      have htable := (hI.toTableInv.marks hsame.marks).insert (e := e)
        (findl_congr hsame.table e.name ▸ hf) (hsame.nbentry ▸ hn) hone
      refine hI.next htable nofun (fun t' i _ hs hdy => ?_) nofun
      obtain ⟨f, hf, hrest⟩ := hdy.marks hsame.marks
      -- The new entry goes to a free slot, and not over an entry that is being closed.
      obtain ⟨j, hlt, hj, hfree⟩ :=
        (hI.toTableInv.marks hsame.marks).nbentry.resolve_left (hsame.nbentry ▸ hn)
      refine ⟨f, ?_, hrest⟩
      show (w.setEntry w.nbentry (some e)).table i = some f
      have hne : i ≠ j := by
        rintro rfl
        exact nomatch hfree.symm.trans hf
      rw [hj, setEntry_table _ _ hlt, Function.update_of_ne hne]
      exact hf
  | @uncount t num e hno hcl hrun he hn =>
      have hlt := hI.bound num e he
      have hcount := hI.books.counted he
      refine hI.next (hI.toTableInv.recount he (by omega) (by omega)) nofun
        (fun t' i _ hs hdy => hdy.setEntry hlt ?_) nofun
      rintro rfl
      exact hI.not_slot he (Or.inl (by omega)) t' hs
  | @last t num e w p hno hcl hrun he hle hd hsame hfol =>
      have hlt := hI.bound num e he
      have hcount := hI.books.counted he
      -- The last user: nobody else is closing this entry.
      have hpos := hc.closes e hcl
      have hother : ∀ t', slot (s.running t') ≠ some num :=
        hI.not_slot he (Or.inl (by omega))
      have htable := (hI.toTableInv.recount he (n := e.numthread - 1)
        (k := s.handles e.name - 1) (by omega) fun _ => hd).marks hsame.marks
      refine hI.next htable (fun a ha => Option.some.inj ha ▸ hfol) (fun t' i _ hs hdy => ?_)
        fun i hs => ?_
      · refine (hdy.setEntry hlt ?_).marks hsame.marks
        rintro rfl
        exact hother t' hs
      · obtain rfl := Option.some.inj hs
        refine ⟨⟨{ e with numthread := e.numthread - 1 }, ?_, ?_, hd⟩, fun t' _ => hother t'⟩
        · rw [hsame.table, setEntry_table _ _ hlt, Function.update_self]
        · show e.numthread - 1 = 0
          omega
  | @drop t num e w hno hcl hrun he hle hd hsame =>
      have hlt := hI.bound num e he
      have hcount := hI.books.counted he
      -- An entry without users has been marked, so that this one has some.
      have hne : e.numthread ≠ 0 := fun hzero => nomatch (hI.live num e he hzero).symm.trans hd
      refine hI.next (hI.toTableInv.drop he (by omega) hsame) nofun (fun t' i _ hs hdy => ?_) nofun
      have hi : i ≠ num := by
        rintro rfl
        exact hI.not_slot he (Or.inr hd) t' hs
      exact ((hdy.setEntry hlt hi).marks hsame.marks).setEntry hlt hi
  | @takeOut t num w hno hcl hs hsame =>
      obtain ⟨e, he, hzero, hd⟩ := hI.closing t num hs
      have hlt := hI.bound num e he
      have he' : w.table num = some e := (congrFun hsame.table num).trans he
      have hI' := hI.toTableInv.marks hsame.marks
      refine hI.next (hI'.takeOut he' (hI'.books.takeOut he' hzero)) nofun
        (fun t' i hne hs' hdy => (hdy.marks hsame.marks).setEntry hlt ?_) nofun
      rintro rfl
      exact hne (hI.apart t' t i hs' hs)

omit [Config] in
theorem Inv.agrees (hI : s.Inv) : s.Agrees :=
  ⟨fun _ _ _ _ => hI.books.unique, fun _ _ => hI.books.counted⟩

/-- A turn after which the table agrees, and which has used a free slot, was careful. -/
theorem Effect.careful (h : Effect s x s') (hI : s.Inv) (ha : s'.Agrees)
    (hfree : ∀ name, s.Inserts x name → s.world.FreeSlot s.world.nbentry) : s.Careful x := by
  have hquiet : (∀ name, ¬ s.Inserts x name) → s.closes x = none → s.Careful x :=
    fun hno hcl => ⟨fun name hins => absurd hins (hno name), fun e he => nomatch hcl.symm.trans he⟩
  have hcloses : ∀ {e}, (∀ name, ¬ s.Inserts x name) → s.closes x = some e → 0 < e.numthread →
      s.Careful x := fun hno hcl hpos =>
    ⟨fun name hins => absurd hins (hno name),
      fun e he => Option.some.inj (hcl.symm.trans he) ▸ hpos⟩
  cases h with
  | quiet hno hcl => exact hquiet hno hcl
  | count hno hcl => exact hquiet hno hcl
  | @insert t e w hins hname hcl hslot hone hnot hsame =>
      obtain ⟨j, hlt, hj, hnone⟩ := hfree e.name hins
      refine ⟨fun name hn => ?_, fun e he => nomatch hcl.symm.trans he⟩
      obtain rfl := hname name hn
      refine ⟨?_, by omega⟩
      -- Otherwise the name has two entries now.
      by_contra hf
      obtain ⟨i, hi⟩ := Option.ne_none_iff_exists'.mp hf
      obtain ⟨-, f, hf, hsame'⟩ := findl_some hi
      have htable : (w.insert e).table = Function.update s.world.table j (some e) := by
        show (w.setEntry w.nbentry (some e)).table = _
        rw [hsame.nbentry, hj, setEntry_table _ _ hlt, hsame.table]
      have hne : i ≠ j := by
        rintro rfl
        exact nomatch hnone.symm.trans hf
      refine hne (ha.unique i j f e ?_ ?_ hsame')
      · rw [htable, Function.update_of_ne hne]
        exact hf
      · rw [htable, Function.update_self]
  | uncount hno hcl hrun he hn => exact hcloses hno hcl (by omega)
  | @last t num e w p hno hcl hrun he hle hd hsame =>
      refine hcloses hno hcl ?_
      have hentry : w.table num = some { e with numthread := e.numthread - 1 } := by
        rw [hsame.table, setEntry_table _ _ (hI.bound num e he), Function.update_self]
      have hcount : e.numthread - 1 = _ := ha.counted num _ hentry
      omega
  | @drop t num e w hno hcl hrun he hle hd hsame =>
      refine hcloses hno hcl ?_
      have hne : e.numthread ≠ 0 := fun hzero => nomatch (hI.live num e he hzero).symm.trans hd
      have hcount := hI.books.counted he
      omega
  | takeOut hno hcl => exact hquiet hno hcl

/-! ## Over whole runs -/

variable {s₀ : OpenFiles} {tr : List (OpenFiles × Turn)}

omit [Config] in
theorem Booted.inv (h : Booted s₀) : s₀.Inv where
  mapStored := h.mapStored
  bound := fun i e he => by simp [h.table] at he
  nbentry := Or.inr ⟨0, by decide, h.nbentry, by rw [h.table]⟩
  books := by
    rw [h.table, h.handles]
    exact Ledger.Sound.empty
  live := fun i e he => by simp [h.table] at he
  follows := fun t a ha => by simp [h.running] at ha
  closing := fun t num ha => by simp [h.running, slot] at ha
  apart := fun t t' num ha => by simp [h.running, slot] at ha

theorem inv_of_run (hb : Booted s₀) (hr : Run step s₀ tr s) (hc : ∀ x ∈ tr, x.1.Careful x.2) :
    s.Inv :=
  Run.invariant_of_steps (I := fun _ s => s.Inv) (C := Careful) hb.inv
    (fun _ _ _ _ hI hc hs => (step_effect hI hs).inv hI hc) hr hc

theorem lastFree_snoc :
    LastFree (tr ++ [(s, x)]) ↔ ∀ name, s.Inserts x name → s.world.FreeSlot s.world.nbentry := by
  constructor
  · intro h
    exact h s x List.getLast?_concat
  · intro h s₁ x₁ hlast
    rw [List.getLast?_concat] at hlast
    obtain ⟨rfl, rfl⟩ := Prod.mk.inj (Option.some.inj hlast)
    exact h

/-- In a run from the boot, every entry has been entered in a free slot, each name has one
    entry at most and each entry counts the open handles of its name, in every state, if and
    only if every turn is careful: a file that is entered is not in the table at that moment
    either, and the table is not full; and no `Close` begins on an entry that another one is
    taking out. -/
theorem always_agrees_iff (hb : Booted s₀) (hr : Run step s₀ tr s) :
    Run.Always step s₀ (fun tr s => LastFree tr ∧ s.Agrees) tr ↔
      ∀ x ∈ tr, x.1.Careful x.2 := by
  induction hr with
  | nil =>
      rw [Run.always_nil]
      exact ⟨fun _ x hx => (nomatch hx), fun _ => ⟨fun s x hlast => (nomatch hlast), hb.inv.agrees⟩⟩
  | @snoc tr s s' x hr hs ih =>
      rw [Run.always_snoc hr hs, ih, lastFree_snoc]
      simp only [List.mem_append, List.mem_singleton, or_imp, forall_and, forall_eq]
      refine and_congr_right fun hc => ?_
      have hI := inv_of_run hb hr hc
      have heff := step_effect hI hs
      constructor
      · rintro ⟨hfree, ha⟩
        exact heff.careful hI ha hfree
      · intro hx
        refine ⟨fun name hins => ?_, (heff.inv hI hx).agrees⟩
        exact hI.nbentry.resolve_left (hx.inserts name hins).2

/-- A test for careful turns. -/
private def looksCareful (y : OpenFiles × Turn) : Bool :=
  (match y.1.acting y.2 with
    | some a =>
        a.found.isSome ||
        (match a.rest.segment y.1.world with
          | some (.done (.handle (some _)), _) =>
              (y.1.world.findl a.call.name).isNone && y.1.world.nbentry != -1
          | _ => true)
    | none => true) &&
  (y.1.closes y.2).all fun e => 0 < e.numthread

private theorem careful_of_looks (h : looksCareful (s, x) = true) : s.Careful x := by
  obtain ⟨hins, hcl⟩ := Bool.and_eq_true_iff.mp h
  constructor
  · rintro name ⟨a, f, w, ha, hcall, hnone, hseg⟩
    simp only [ha, hnone, Option.isSome_none, Bool.false_or, hseg, hcall, TableCall.name,
      Bool.and_eq_true, Option.isNone_iff_eq_none, bne_iff_ne, ne_eq] at hins
    exact hins
  · intro e he
    simp only [he, Option.all_some, decide_eq_true_eq] at hcl
    exact hcl

end

/-- Directories of one entry. -/
@[reducible] private def smallDirectory : Config where
  SectorSize := 128
  NumDirEntries := 1
  MaxFileNameSize := 256
  powerOfTwo := Config.defaults.powerOfTwo

/-- A disk with the file `a`, whose header is in sector 3. -/
private def oneFile : OpenFiles where
  world :=
    { disk := fun s =>
        if s = 0 then ofInts fun i => [0, 256, 2, 0, 4, 5].getD i 0
        else if s = 1 then ofInts fun i => [1, 92, 1, 0, 2].getD i 0
        else if s = 2 then fun i => if i = 0 then 1 else if i = 4 then 3 else if i = 8 then 97 else 0
        else if s = 4 then fun i => if i = 0 then 63 else 0
        else fun _ => 0
      heap := fun _ _ => 0
      allocs := 0
      freeMapFile := ⟨[], ⟨0, 256, 2, fun i => 4 + i, 0, fun _ => 0⟩, 0, 0⟩
      directoryFile := ⟨[], ⟨1, 92, 1, fun _ => 2, 0, fun _ => 0⟩, 0, 1⟩
      createLock := false
      table := fun _ => none
      nbentry := 0 }
  running := fun _ => none
  handles := fun _ => 0

private theorem oneFile_booted : oneFile.Booted := 
  ⟨show (0 : Int) < 256 by decide, rfl, rfl, rfl, rfl⟩

/-- One thread opens the file, then another one; both close it. -/
private def oneAfterTheOther : List Turn :=
  .start 0 (.openFile [97]) :: List.replicate 10 (.resume 0) ++
    [.start 1 (.openFile [97]), .resume 1, .resume 1, .start 0 (.closeFile [97]),
      .start 1 (.closeFile [97])]

theorem always_agrees_oneAfterTheOther :
    let _ := smallDirectory
    ∃ tr s, tr.length = 16 ∧ Run step oneFile tr s ∧
      Run.Always step oneFile (fun tr s => LastFree tr ∧ s.Agrees) tr := by
  intro inst
  have hrun : (Transition.exec step oneFile oneAfterTheOther).map (fun y =>
      (y.1.length, y.1.all looksCareful)) = some (16, true) := by decide +kernel
  obtain ⟨⟨tr, s⟩, hexec, hy⟩ := Option.map_eq_some_iff.mp hrun
  obtain ⟨hlen, hall⟩ := Prod.mk.inj hy
  have hr := Transition.run_of_exec hexec
  refine ⟨tr, s, hlen, hr, (always_agrees_iff oneFile_booted hr).mpr fun y hy => ?_⟩
  exact careful_of_looks (List.all_eq_true.mp hall y hy)

/-- Two threads open the file for the first time; both have looked it up before one of them
    enters it. -/
private def bothAtOnce : List Turn :=
  [.start 0 (.openFile [97]), .start 1 (.openFile [97])] ++
    List.replicate 10 (.resume 0) ++ List.replicate 10 (.resume 1)

/-- The table then has two entries of the name, with one handle each. -/
theorem always_agrees_fails :
    ¬ ∀ (_ : Config) (s₀ : OpenFiles) (tr : List (OpenFiles × Turn)) (s : OpenFiles),
      Booted s₀ → Run step s₀ tr s → LastFree tr ∧ s.Agrees := by
  intro hclaim
  let _ := smallDirectory
  have hrun : (Transition.exec step oneFile bothAtOnce).map (fun y =>
      ((y.2.world.table 0).map OpenFileTableEntry.name,
        (y.2.world.table 1).map OpenFileTableEntry.name)) = some (some [97], some [97]) := by
    decide +kernel
  obtain ⟨⟨tr, s⟩, hexec, hy⟩ := Option.map_eq_some_iff.mp hrun
  obtain ⟨h₀, h₁⟩ := Prod.mk.inj hy
  obtain ⟨e, he, hname⟩ := Option.map_eq_some_iff.mp h₀
  obtain ⟨e', he', hname'⟩ := Option.map_eq_some_iff.mp h₁
  obtain ⟨-, ha⟩ := hclaim _ oneFile tr s oneFile_booted (Transition.run_of_exec hexec)
  exact absurd (ha.unique 0 1 e e' he he' (hname.trans hname'.symm)) (by decide)

end OpenFiles

end Nachos
