/-
  Nachos.Filesys.OfRuns

  Sequential runs over the table of open files.  Each entry has the sector of a file that
  is there or that has been removed while open.  Two things keep `Open` from finding a file:
  the number of the next free slot is computed only where an entry is added, so that it
  stays -1 when an entry of a full table is taken out; and an entry that waits for its
  removal hides a new file of the same name.
-/

import Nachos.Filesys.Deferred
import Nachos.Filesys.InitialSize

namespace Nachos

open Words Program Config
open Transition (Run)

variable [Config]

/-- The components of a name, by their keys. -/
abbrev keysOf (name : List Byte) : List (List Byte) := dirKeys name ++ [lastKey name]

namespace World

/-- Slot `i` of the table has this entry. -/
def Has (w : World) (i : Nat) (e : OpenFileTableEntry) : Prop :=
  i < NBOFTENTRY ∧ w.table i = some e

/-- The files that have been removed while they were open. -/
def Pending (w : World) (s : Nat) : Prop :=
  ∃ i e, w.Has i e ∧ e.ToBeDeleted = true ∧ e.sector = (s : Int)

/-- The table has a free slot. -/
def HasRoom (w : World) : Prop := ∃ i < NBOFTENTRY, w.table i = none

omit [Config] in
theorem setEntry_eq {w : World} {i : Nat} (hi : i < NBOFTENTRY) (o : Option OpenFileTableEntry) :
    w.setEntry i o = { w with table := Function.update w.table i o } := by
  rw [setEntry, if_pos (by omega), Int.toNat_natCast]

omit [Config] in
theorem has_setEntry {w : World} {i j : Nat} {o : Option OpenFileTableEntry}
    {e : OpenFileTableEntry} (hi : i < NBOFTENTRY) :
    (w.setEntry i o).Has j e ↔ (j = i ∧ o = some e) ∨ (j ≠ i ∧ w.Has j e) := by
  unfold Has
  rw [setEntry_table _ _ hi]
  by_cases hj : j = i
  · subst hj
    rw [Function.update_self]
    simp [hi]
  · rw [Function.update_of_ne hj]
    simp [hj]

omit [Config] in
/-- Where an entry takes the place of another one no slot becomes free. -/
theorem Has.update_eq_none {w : World} {i : Nat} {e : OpenFileTableEntry} (he : w.Has i e)
    (f : OpenFileTableEntry) (j : Nat) :
    Function.update w.table i (some f) j = none ↔ w.table j = none := by
  rw [Function.update_apply]
  split
  · rename_i hj
    subst hj
    rw [he.2]
    simp
  · rfl

omit [Config] in
/-- The next free slot is searched from the first one on. -/
theorem nextEntry_slot (w : World) :
    if w.nextEntry = -1 then ¬ w.HasRoom else w.FreeSlot w.nextEntry := by
  unfold nextEntry
  cases h : (List.range NBOFTENTRY).find? fun i => (w.table i).isNone with
  | none =>
      rw [if_pos rfl]
      rintro ⟨i, hi, hnone⟩
      have hnot := List.find?_eq_none.mp h i (List.mem_range.mpr hi)
      simp [hnone] at hnot
  | some i =>
      dsimp only
      rw [if_neg (by omega)]
      exact ⟨i, List.mem_range.mp (List.mem_of_find?_eq_some h), rfl, by
        simpa using List.find?_some h⟩

/-- The entries of `w'` are entries of `w`, with other counts. -/
def SameEntries (w w' : World) : Prop :=
  ∀ i e, w'.Has i e → ∃ g, w.Has i g ∧ e.name = g.name ∧ e.file = g.file ∧ e.sector = g.sector ∧
    e.ToBeDeleted = g.ToBeDeleted

omit [Config] in
/-- `findl` finds the entry, when the names are distinct. -/
theorem findl_has {w : World} {name : List Byte} {i : Nat} (h : w.findl name = some i) :
    ∃ e, w.Has i e ∧ e.name = name := by
  obtain ⟨hi, e, he, hname⟩ := findl_some h
  exact ⟨e, ⟨hi, he⟩, hname⟩

end World

open World

/-- The table agrees with the disk. -/
structure Tabled (w : World) : Prop where
  volume : Volume w w.Pending
  unlocked : w.createLock = false
  names : ∀ i j e e', w.Has i e → w.Has j e' → e.name = e'.name → i = j
  /-- Each entry has the header of the file at its sector. -/
  handles : ∀ i e, w.Has i e → ∃ s : Nat, e.sector = s ∧ Loaded w.disk s e.file.hdr
  /-- The file of an entry is there, if it has not been removed. -/
  present : ∀ i e, w.Has i e → e.ToBeDeleted = false →
    Walk.walk (child w.disk) DirectorySector (keysOf e.name) = some e.sector.toNat ∧
      intAt w.disk e.sector.toNat 0 ≠ 1
  gone : ∀ i e, w.Has i e → e.ToBeDeleted = true → treeOf w.disk (keysOf e.name) = none
  /-- No other entry has the file of a marked one. -/
  alone : ∀ i j e e', w.Has i e → w.Has j e' → e.ToBeDeleted = true → e'.sector = e.sector → j = i
  /-- `nbentry` is -1 exactly when the table is full. -/
  slot : if w.nbentry = -1 then ¬ w.HasRoom else w.FreeSlot w.nbentry

namespace Tabled

variable {w w' : World} {i : Nat} {e e' : OpenFileTableEntry}

/-- Allocating memory changes nothing. -/
theorem allocs (h : Tabled w) (hw : OnlyAllocs w w') : Tabled w' := by
  obtain ⟨n, rfl⟩ := hw
  exact ⟨h.volume.allocs ⟨n, rfl⟩, h.unlocked, h.names, h.handles, h.present, h.gone, h.alone,
    h.slot⟩

/-- What an entry says of the disk. -/
theorem live (h : Tabled w) (he : w.Has i e) (hmark : e.ToBeDeleted = false) :
    Reach w.disk e.sector.toNat :=
  ⟨_, (h.present i e he hmark).1⟩

theorem allocated (h : Tabled w) (k : Nat) : Tabled { w with allocs := k } := h.allocs ⟨k, rfl⟩

/-- The file of an entry has its sectors. -/
theorem liveSector (h : Tabled w) (he : w.Has i e) {s : Nat} (hs : e.sector = s) :
    Live w.disk w.Pending s := by
  cases hmark : e.ToBeDeleted with
  | false =>
      refine Or.inr (Or.inl ⟨keysOf e.name, ?_⟩)
      rw [(h.present i e he hmark).1, hs, Int.toNat_natCast]
  | true => exact Or.inr (Or.inr ⟨i, e, he, hmark, hs⟩)

/-- The table has no new entries, and the files of the entries are where they were. -/
theorem moved (h : Tabled w) (hs : SameEntries w w') (hV : Volume w' w'.Pending)
    (hunlocked : w'.createLock = false)
    (hh : ∀ t, Live w.disk w.Pending t → SameHeader w.disk w'.disk t)
    (hwalk : ∀ i e, w'.Has i e → Walk.walk (child w'.disk) DirectorySector (keysOf e.name) =
      Walk.walk (child w.disk) DirectorySector (keysOf e.name))
    (hslot : if w'.nbentry = -1 then ¬ w'.HasRoom else w'.FreeSlot w'.nbentry) : Tabled w' := by
  refine ⟨hV, hunlocked, fun i j e f he hf hn => ?_, fun i e he => ?_, fun i e he hmark => ?_,
    fun i e he hmark => ?_, fun i j e f he hf hmark hsec => ?_, hslot⟩
  · obtain ⟨g, hg, hname, -⟩ := hs i e he
    obtain ⟨g', hg', hname', -⟩ := hs j f hf
    exact h.names i j g g' hg hg' (by rw [← hname, ← hname', hn])
  · obtain ⟨g, hg, -, hfile, hsec, -⟩ := hs i e he
    obtain ⟨s, hgs, hl⟩ := h.handles i g hg
    rw [hfile]
    exact ⟨s, hsec.trans hgs, (hh s (h.liveSector hg hgs)).loaded hl⟩
  · obtain ⟨g, hg, hname, -, hsec, hm⟩ := hs i e he
    obtain ⟨hw, hfile⟩ := h.present i g hg (hm ▸ hmark)
    obtain ⟨s, hgs, -⟩ := h.handles i g hg
    rw [hwalk i e he, hname, hsec]
    refine ⟨hw, ?_⟩
    rw [hgs, Int.toNat_natCast] at hfile ⊢
    rw [(hh s (h.liveSector hg hgs)).intAt]
    exact hfile
  · obtain ⟨g, hg, hname, -, -, hm⟩ := hs i e he
    have hgone := h.gone i g hg (hm ▸ hmark)
    rw [treeOf, Option.map_eq_none_iff] at hgone ⊢
    rw [hwalk i e he, hname]
    exact hgone
  · obtain ⟨g, hg, -, -, hsec₁, hm⟩ := hs i e he
    obtain ⟨g', hg', -, -, hsec₂, -⟩ := hs j f hf
    exact h.alone i j g g' hg hg' (hm ▸ hmark) (by rw [← hsec₁, ← hsec₂, hsec])

/-- The count of an entry has changed. -/
theorem recount (h : Tabled w) (he : w.Has i e) (n : Int) :
    Tabled (w.setEntry i (some { e with numthread := n })) := by
  have hi := he.1
  have hs : SameEntries w (w.setEntry i (some { e with numthread := n })) := by
    intro j f hf
    rcases (has_setEntry hi).mp hf with ⟨rfl, hnew⟩ | ⟨-, hold⟩
    · obtain rfl := Option.some.inj hnew
      exact ⟨e, he, rfl, rfl, rfl, rfl⟩
    · exact ⟨f, hold, rfl, rfl, rfl, rfl⟩
  have hpending : ∀ s, (w.setEntry i (some { e with numthread := n })).Pending s ↔ w.Pending s := by
    intro s
    constructor
    · rintro ⟨j, f, hf, hmark, hsec⟩
      obtain ⟨g, hg, -, -, hsec', hm⟩ := hs j f hf
      exact ⟨j, g, hg, hm ▸ hmark, hsec' ▸ hsec⟩
    · rintro ⟨j, f, hf, hmark, hsec⟩
      by_cases hj : j = i
      · subst hj
        obtain rfl : e = f := Option.some.inj (he.2.symm.trans hf.2)
        exact ⟨j, { e with numthread := n }, (has_setEntry hi).mpr (Or.inl ⟨rfl, rfl⟩), hmark, hsec⟩
      · exact ⟨j, f, (has_setEntry hi).mpr (Or.inr ⟨hj, hf⟩), hmark, hsec⟩
  have hV := h.volume.congr hpending
  have hslot := h.slot
  have hd : (w.setEntry i (some { e with numthread := n })).disk = w.disk := by
    rw [setEntry_eq hi]
  refine h.moved hs ?_ ?_ (fun t _ => ?_) (fun j f _ => ?_) ?_
  · rw [setEntry_eq hi] at hV ⊢
    exact hV.of_eq rfl rfl rfl
  · rw [setEntry_eq hi]
    exact h.unlocked
  · rw [hd]
    exact SameHeader.refl _ t
  · rw [hd]
  · -- The next free slot is still free.
    rw [setEntry_nbentry]
    simp only [HasRoom, FreeSlot, setEntry_table _ _ hi, he.update_eq_none] at hslot ⊢
    exact hslot

/-- An entry has been taken out of a table that was not full. -/
theorem takenOut {w₁ : World} (h : Tabled w) (he : w.Has i e) (hroom : w.HasRoom)
    (hw : OnlyDisk w w₁) (hV : Volume w₁ (w.setEntry i none).Pending)
    (hh : ∀ t, Live w.disk w.Pending t → SameHeader w.disk w₁.disk t)
    (hwalk : ∀ p, Walk.walk (child w₁.disk) DirectorySector p =
      Walk.walk (child w.disk) DirectorySector p) : Tabled (w₁.setEntry i none) := by
  have hi := he.1
  obtain ⟨d, k, rfl⟩ := hw
  have hs : SameEntries w (World.setEntry { w with disk := d, allocs := k } i none) := by
    intro j f hf
    rcases (has_setEntry hi).mp hf with ⟨-, hnew⟩ | ⟨-, hold⟩
    · cases hnew
    · exact ⟨f, hold, rfl, rfl, rfl, rfl⟩
  rw [setEntry_eq hi] at hV
  rw [setEntry_eq hi] at hs ⊢
  refine h.moved hs (hV.of_eq rfl rfl rfl) h.unlocked hh (fun j f _ => hwalk _) ?_
  have hslot := h.slot
  dsimp only
  split at hslot
  · exact absurd hroom hslot
  · rename_i hfull
    obtain ⟨j, hj, hn, hnone⟩ := hslot
    rw [if_neg hfull]
    refine ⟨j, hj, hn, ?_⟩
    dsimp only
    rw [Function.update_apply, hnone, ite_self]

/-- A new entry for a file that is there. -/
theorem insert (h : Tabled w) (hname : w.findl e.name = none) (hslot : w.nbentry ≠ -1)
    (hmark : e.ToBeDeleted = false) {s : Nat} (hs : e.sector = s) (hl : Loaded w.disk s e.file.hdr)
    (hwalk : Walk.walk (child w.disk) DirectorySector (keysOf e.name) = some s)
    (hfile : intAt w.disk s 0 ≠ 1) : Tabled (w.insert e) := by
  have hfree := h.slot
  rw [if_neg hslot] at hfree
  obtain ⟨i, hi, hn, hnone⟩ := hfree
  have heq : w.insert e = { w with
      table := Function.update w.table i (some e)
      nbentry := (w.setEntry i (some e)).nextEntry } := by
    unfold World.insert
    rw [hn, setEntry_eq hi]
  have hhas : ∀ j f, (w.insert e).Has j f ↔ (j = i ∧ some e = some f) ∨ (j ≠ i ∧ w.Has j f) := by
    intro j f
    rw [← has_setEntry hi, heq, setEntry_eq hi]
    rfl
  -- The new entry is not marked.
  have hpending : ∀ t, (w.insert e).Pending t ↔ w.Pending t := by
    intro t
    constructor
    · rintro ⟨j, f, hf, hm, ht⟩
      rcases (hhas j f).mp hf with ⟨-, hnew⟩ | ⟨-, hold⟩
      · rw [← Option.some.inj hnew, hmark] at hm
        cases hm
      · exact ⟨j, f, hold, hm, ht⟩
    · rintro ⟨j, f, hf, hm, ht⟩
      refine ⟨j, f, (hhas j f).mpr (Or.inr ⟨?_, hf⟩), hm, ht⟩
      rintro rfl
      rw [hf.2] at hnone
      cases hnone
  have hV := h.volume.congr hpending
  have hd : (w.insert e).disk = w.disk := by rw [heq]
  refine ⟨?_, by rw [heq]; exact h.unlocked, fun j k f g hf hg hfg => ?_, fun j f hf => ?_,
    fun j f hf hm => ?_, fun j f hf hm => ?_, fun j k f g hf hg hm hsec => ?_, ?_⟩
  · exact hV.of_eq hd (by rw [heq]) (by rw [heq])
  · rcases (hhas j f).mp hf with ⟨rfl, hnew⟩ | ⟨-, hold⟩
    · rcases (hhas k g).mp hg with ⟨rfl, -⟩ | ⟨-, hold'⟩
      · rfl
      · obtain rfl := Option.some.inj hnew
        exact absurd hfg.symm (findl_none hname hold'.1 hold'.2)
    · rcases (hhas k g).mp hg with ⟨rfl, hnew⟩ | ⟨-, hold'⟩
      · obtain rfl := Option.some.inj hnew
        exact absurd hfg (findl_none hname hold.1 hold.2)
      · exact h.names j k f g hold hold' hfg
  · rw [hd]
    rcases (hhas j f).mp hf with ⟨-, hnew⟩ | ⟨-, hold⟩
    · obtain rfl := Option.some.inj hnew
      exact ⟨s, hs, hl⟩
    · exact h.handles j f hold
  · rw [hd]
    rcases (hhas j f).mp hf with ⟨-, hnew⟩ | ⟨-, hold⟩
    · obtain rfl := Option.some.inj hnew
      rw [hs, Int.toNat_natCast]
      exact ⟨hwalk, hfile⟩
    · exact h.present j f hold hm
  · rw [hd]
    rcases (hhas j f).mp hf with ⟨-, hnew⟩ | ⟨-, hold⟩
    · rw [← Option.some.inj hnew, hmark] at hm
      cases hm
    · exact h.gone j f hold hm
  · rcases (hhas j f).mp hf with ⟨-, hnew⟩ | ⟨hji, hold⟩
    · rw [← Option.some.inj hnew, hmark] at hm
      cases hm
    · rcases (hhas k g).mp hg with ⟨-, hnew⟩ | ⟨-, hold'⟩
      · -- The file of a marked entry is not reached.
        obtain rfl := Option.some.inj hnew
        have hp : w.Pending s := ⟨j, f, hold, hm, hsec.symm.trans hs⟩
        exact absurd ⟨_, hwalk⟩ (h.volume.removed s hp).2
      · exact h.alone j k f g hold hold' hm hsec
  · have hnext := nextEntry_slot (w.setEntry i (some e))
    rw [setEntry_eq hi] at hnext
    rw [heq, setEntry_eq hi]
    exact hnext

/-- The file of an entry has been removed from its directory, and the entry marked. -/
theorem marked {w₁ : World} (h : Tabled w) (he : w.Has i e) (hmark : e.ToBeDeleted = false)
    (halone : ∀ j f, w.Has j f → f.ToBeDeleted = false → keysOf f.name = keysOf e.name → j = i)
    {x : Nat} (hx : e.sector = x)
    (hu : Volume.Unlinked (w.setEntry i (some { e with ToBeDeleted := true })) w₁ w.Pending x
      (keysOf e.name))
    (hV : Volume w₁ fun s => w.Pending s ∨ s = x) : Tabled w₁ := by
  have hi := he.1
  have hfile := h.present i e he hmark
  rw [hx, Int.toNat_natCast] at hfile
  have hnot : ¬ w.Pending x := fun hp => (h.volume.removed x hp).2 ⟨_, hfile.1⟩
  obtain ⟨⟨d, k, rfl⟩, hheader, -, -, -, htree, hwalks⟩ := hu
  have hhas : ∀ j f, (({ w.setEntry i (some { e with ToBeDeleted := true }) with
      disk := d, allocs := k } : World).Has j f) ↔
      (j = i ∧ some { e with ToBeDeleted := true } = some f) ∨ (j ≠ i ∧ w.Has j f) := fun j f =>
    has_setEntry hi
  rw [setEntry_eq hi] at hheader htree hwalks hV hhas ⊢
  have hpending : ∀ s, ({ w with
      disk := d
      allocs := k
      table := Function.update w.table i (some { e with ToBeDeleted := true }) } : World).Pending s ↔
      w.Pending s ∨ s = x := by
    intro s
    constructor
    · rintro ⟨j, f, hf, hm, hs⟩
      rcases (hhas j f).mp hf with ⟨-, hnew⟩ | ⟨-, hold⟩
      · obtain rfl := Option.some.inj hnew
        exact Or.inr (by exact_mod_cast hs.symm.trans hx)
      · exact Or.inl ⟨j, f, hold, hm, hs⟩
    · rintro (⟨j, f, hf, hm, hs⟩ | rfl)
      · refine ⟨j, f, (hhas j f).mpr (Or.inr ⟨?_, hf⟩), hm, hs⟩
        rintro rfl
        rw [← Option.some.inj (he.2.symm.trans hf.2), hmark] at hm
        cases hm
      · exact ⟨i, _, (hhas i _).mpr (Or.inl ⟨rfl, rfl⟩), rfl, hx⟩
  refine ⟨hV.congr hpending, h.unlocked, fun j l f g hf hg hfg => ?_, fun j f hf => ?_,
    fun j f hf hm => ?_, fun j f hf hm => ?_, fun j l f g hf hg hm hsec => ?_, ?_⟩
  · rcases (hhas j f).mp hf with ⟨rfl, hnew⟩ | ⟨-, hold⟩
    · rcases (hhas l g).mp hg with ⟨rfl, -⟩ | ⟨-, hold'⟩
      · rfl
      · obtain rfl := Option.some.inj hnew
        exact h.names j l e g he hold' hfg
    · rcases (hhas l g).mp hg with ⟨rfl, hnew⟩ | ⟨-, hold'⟩
      · obtain rfl := Option.some.inj hnew
        exact h.names j l f e hold he hfg
      · exact h.names j l f g hold hold' hfg
  · rcases (hhas j f).mp hf with ⟨-, hnew⟩ | ⟨-, hold⟩
    · obtain rfl := Option.some.inj hnew
      obtain ⟨s, hs, hl⟩ := h.handles i e he
      exact ⟨s, hs, (hheader s (h.liveSector he hs)).loaded hl⟩
    · obtain ⟨s, hs, hl⟩ := h.handles j f hold
      exact ⟨s, hs, (hheader s (h.liveSector hold hs)).loaded hl⟩
  · rcases (hhas j f).mp hf with ⟨-, hnew⟩ | ⟨hji, hold⟩
    · rw [← Option.some.inj hnew] at hm
      cases hm
    · obtain ⟨hw, hreg⟩ := h.present j f hold hm
      obtain ⟨s, hs, -⟩ := h.handles j f hold
      rw [hs, Int.toNat_natCast] at hw hreg ⊢
      refine ⟨(hwalks _ fun hkeys => hji (halone j f hold hm hkeys)).trans hw, ?_⟩
      rw [(hheader s (h.liveSector hold hs)).intAt]
      exact hreg
  · rcases (hhas j f).mp hf with ⟨-, hnew⟩ | ⟨-, hold⟩
    · obtain rfl := Option.some.inj hnew
      rw [htree, Function.update_self]
    · rw [htree, Function.update_apply, h.gone j f hold hm, ite_self]
  · rcases (hhas j f).mp hf with ⟨hji, hnew⟩ | ⟨-, hold⟩
    · obtain rfl := Option.some.inj hnew
      rcases (hhas l g).mp hg with ⟨hli, -⟩ | ⟨-, hold'⟩
      · rw [hli, hji]
      · have hgx : g.sector = x := hsec.trans hx
        cases hgm : g.ToBeDeleted with
        | true => exact absurd ⟨l, g, hold', hgm, hgx⟩ hnot
        | false =>
            -- Two paths to one file are the same path.
            obtain ⟨hw, -⟩ := h.present l g hold' hgm
            rw [hgx, Int.toNat_natCast] at hw
            have hkeys := h.volume.names.tree.path_unique hw hfile.1
            rw [hji]
            exact halone l g hold' hgm hkeys
    · rcases (hhas l g).mp hg with ⟨-, hnew⟩ | ⟨-, hold'⟩
      · obtain rfl := Option.some.inj hnew
        exact absurd ⟨j, f, hold, hm, hsec.symm.trans hx⟩ hnot
      · exact h.alone j l f g hold hold' hm hsec
  · have hslot := h.slot
    dsimp only
    simp only [HasRoom, FreeSlot, he.update_eq_none] at hslot ⊢
    exact hslot

end Tabled

/-! ## The calls -/

namespace OpenFileTable

variable {w : World} {name : List Byte}

/-- The destructor of an entry that is taken out, and the empty slot. -/
theorem wp_takeOut {i : Nat} {e : OpenFileTableEntry} (h : Tabled w) (he : w.Has i e)
    (hroom : w.HasRoom) : Prog.wp (takeOut i e) (fun _ w' => Tabled w') w := by
  have hi := he.1
  unfold takeOut
  simp only [Prog.wp_bind, Prog.wp_modify]
  cases hmark : e.ToBeDeleted with
  | false =>
      unfold OpenFileTableEntry.delete
      rw [if_neg (by rw [hmark]; decide), Prog.wp_pure]
      refine h.takenOut he hroom ⟨w.disk, w.allocs, rfl⟩ (h.volume.congr fun s => ?_)
        (fun t _ => SameHeader.refl _ t) fun _ => rfl
      constructor
      · rintro ⟨j, f, hf, hm, hs⟩
        rcases (has_setEntry hi).mp hf with ⟨-, hnew⟩ | ⟨-, hold⟩
        · cases hnew
        · exact ⟨j, f, hold, hm, hs⟩
      · rintro ⟨j, f, hf, hm, hs⟩
        refine ⟨j, f, (has_setEntry hi).mpr (Or.inr ⟨?_, hf⟩), hm, hs⟩
        rintro rfl
        rw [← Option.some.inj (he.2.symm.trans hf.2), hmark] at hm
        cases hm
  | true =>
      obtain ⟨x, hx, hl⟩ := h.handles i e he
      refine OpenFileTableEntry.wp_delete h.volume hmark hx ⟨i, e, he, hmark, hx⟩ hl fun w₁ hf => ?_
      refine h.takenOut he hroom hf.onlyDisk (hf.volume.congr fun s => ?_)
        (fun t ht => (hf.keeps t ht).1) hf.walk
      constructor
      · rintro ⟨j, f, hf, hm, hs⟩
        rcases (has_setEntry hi).mp hf with ⟨-, hnew⟩ | ⟨hji, hold⟩
        · cases hnew
        · refine ⟨⟨j, f, hold, hm, hs⟩, ?_⟩
          rintro rfl
          exact hji (h.alone i j e f he hold hmark (hs.trans hx.symm))
      · rintro ⟨⟨j, f, hf, hm, hs⟩, hsx⟩
        refine ⟨j, f, (has_setEntry hi).mpr (Or.inr ⟨?_, hf⟩), hm, hs⟩
        rintro rfl
        obtain rfl := Option.some.inj (he.2.symm.trans hf.2)
        exact hsx (by exact_mod_cast hs.symm.trans hx)

theorem wp_close (h : Tabled w)
    (hroom : ∀ i e, w.findl name = some i → w.Has i e → e.numthread ≤ 1 → w.HasRoom) :
    Prog.wp (close name) (fun _ w' => Tabled w') w := by
  unfold close
  simp only [Prog.wp_bind, Prog.wp_read]
  cases hfind : w.findl name with
  | none =>
      dsimp only
      rw [Prog.wp_pure]
      exact h
  | some i =>
      obtain ⟨e, he, -⟩ := findl_has hfind
      dsimp only
      simp only [Prog.wp_bind, Prog.wp_ofOption, Prog.wp_modify]
      refine ⟨e, he.2, ?_⟩
      have h₁ := h.recount he (e.numthread - 1)
      rw [Prog.wp_ite]
      refine ⟨fun hlast => ?_, fun _ => ?_⟩
      · refine wp_takeOut h₁ ((has_setEntry he.1).mpr (Or.inl ⟨rfl, rfl⟩)) ?_
        obtain ⟨j, hj, hnone⟩ := hroom i e hfind he (by omega)
        refine ⟨j, hj, ?_⟩
        have hji : j ≠ i := by
          rintro rfl
          rw [he.2] at hnone
          cases hnone
        rw [setEntry_table _ _ he.1, Function.update_of_ne hji, hnone]
      · rw [Prog.wp_pure]
        exact h₁

/-- What `Open` finds on the disk: the new entry has the header of the file at `s`. -/
structure Finds (d : Disk) (name : List Byte) (e : OpenFileTableEntry) (s : Nat) : Prop where
  named : e.name = name
  numthread : e.numthread = 1
  unmarked : e.ToBeDeleted = false
  sector : e.sector = s
  handle : Loaded d s e.file.hdr
  walk : Walk.walk (child d) DirectorySector (keysOf name) = some s
  file : intAt d s 0 ≠ 1

theorem wp_lookUp {E : Nat → Prop} {Q : Option (OpenFileTableEntry × OpenFile) → World → Prop}
    (hV : Volume w E) (hname : name.length < MaxFileNameSize)
    (hnone : ∀ k, (∀ n, treeOf w.disk (keysOf name) ≠ some (.file n)) →
      Q none { w with allocs := k })
    (hsome : ∀ e s newfile k, Finds w.disk name e s →
      Q (some (e, newfile)) { w with allocs := k }) :
    Prog.wp (lookUp name) Q w := by
  unfold lookUp FileSystem.copyName
  simp only [Prog.wp_bind, Prog.wp_assert, Prog.wp_pure]
  refine Directory.wp_create fun dir w₁ hsize _ hw₁ => ?_
  obtain ⟨k₁, rfl⟩ := hw₁
  refine ⟨hname, FileSystem.wp_findDir (hV.allocated k₁) (fun a w₂ hw₂ hwalk hdir => ?_)
    fun n w₂ hw₂ htree => ?_⟩
  · obtain ⟨k₂, rfl⟩ := hw₂
    have ha : Reach w.disk a := ⟨_, hwalk⟩
    dsimp only
    rw [if_neg (by omega)]
    simp only [Prog.wp_bind]
    refine FileSystem.wp_openDir (hV.allocated k₂) hsize ha hdir fun dirfile dir' k₄ hl hd => ?_
    have hnode := treeOf_concat (lastKey name) hwalk
    rcases hd.find (hV.names.dirs a ha hdir) hdir (components name).2 with
      ⟨hchild, hfind, -⟩ | ⟨x, hchild, hfind, -⟩
    -- The last element is not in its directory.
    · rw [hfind, if_neg (by decide), Prog.wp_pure]
      refine hnone k₄ fun n hn => ?_
      rw [hnode, lastKey, hchild] at hn
      cases hn
    · have hx : Reach w.disk x := ha.child hchild
      have hwalkx : Walk.walk (child w.disk) DirectorySector (keysOf name) = some x := by
        rw [Walk.walk_concat, hwalk, Option.bind_some, lastKey, hchild]
      rw [hfind, if_pos (by omega)]
      simp only [Prog.wp_bind]
      refine OpenFile.wp_create (hV.inode hx) fun openfile w₅ _ _ hlx hw₅ => ?_
      obtain ⟨k₅, rfl⟩ := hw₅
      have hisdir : openfile.isDir = (intAt w.disk x 0 == 1) := hlx.isDir
      -- A directory is not opened.
      by_cases hxdir : intAt w.disk x 0 = 1
      · rw [if_pos (by rw [hisdir]; simpa using hxdir), Prog.wp_pure]
        refine hnone k₅ fun n hn => ?_
        rw [treeOf_of_walk hwalkx, nodeAt_eq_dir.mpr hxdir] at hn
        cases hn
      · rw [if_neg (by rw [hisdir]; simpa using hxdir)]
        simp only [Prog.wp_bind]
        refine OpenFile.wp_create (hV.inode hx) fun newfile w₆ _ _ _ hw₆ => ?_
        obtain ⟨k₆, rfl⟩ := hw₆
        rw [Prog.wp_pure]
        exact hsome _ x _ k₆ ⟨rfl, rfl, rfl, rfl, hlx, hwalkx, hxdir⟩
  · obtain ⟨k₂, rfl⟩ := hw₂
    dsimp only
    rw [if_pos rfl, Prog.wp_pure]
    refine hnone k₂ fun n hn => htree (treeOf_parent (k := lastKey name) ?_)
    rw [hn]
    simp

/-- What `Open` does: nothing, when the entry waits for its removal or there is no such file or
    no slot; another handle for the file of an entry; or a new entry. -/
theorem wp_open {Q : Option OpenFile → World → Prop} (h : Tabled w)
    (hname : w.findl name = none → w.nbentry ≠ -1 → name.length < MaxFileNameSize)
    (hremoved : ∀ i e, w.findl name = some i → w.Has i e → e.ToBeDeleted = true → Q none w)
    (hagain : ∀ i e k file, w.findl name = some i → w.Has i e → e.ToBeDeleted = false →
      Q (some file) { w.setEntry i (some { e with numthread := e.numthread + 1 }) with allocs := k })
    (hfull : w.findl name = none → w.nbentry = -1 → Q none w)
    (hnone : ∀ k, w.findl name = none → (∀ n, treeOf w.disk (keysOf name) ≠ some (.file n)) →
      Q none { w with allocs := k })
    (hnew : ∀ e s file k, w.findl name = none → w.nbentry ≠ -1 → Finds w.disk name e s →
      Q (some file) (World.insert { w with allocs := k } e)) :
    Prog.wp (OpenFileTable.open name) Q w := by
  unfold OpenFileTable.open
  rw [Prog.wp_bind, Prog.wp_read]
  cases hfind : w.findl name with
  | some i =>
      obtain ⟨e, he, -⟩ := findl_has hfind
      dsimp only
      rw [Prog.wp_bind, Prog.wp_ofOption]
      refine ⟨e, he.2, ?_⟩
      rw [Prog.wp_ite]
      refine ⟨fun hmark => ?_, fun hmark => ?_⟩
      · unfold handle
        simp only [Prog.wp_bind, Prog.wp_modify, Prog.wp_pure]
        obtain ⟨s, hs, -⟩ := h.handles i e he
        have hd : (w.setEntry i (some { e with numthread := e.numthread + 1 })).disk = w.disk := by
          rw [setEntry_eq he.1]
        have hinode := h.volume.owned.inode s (h.liveSector he hs)
        rw [← hd] at hinode
        have hcreate : Prog.wp (OpenFile.create (s : Int))
            (fun file w' => Q (some { file with name := name }) w')
            (w.setEntry i (some { e with numthread := e.numthread + 1 })) := by
          refine OpenFile.wp_create hinode fun file w₁ _ _ _ hw₁ => ?_
          obtain ⟨k, rfl⟩ := hw₁
          exact hagain i e k _ hfind he hmark
        rw [← hs] at hcreate
        exact hcreate
      · rw [Prog.wp_pure]
        exact hremoved i e hfind he (by simpa using hmark)
  | none =>
      dsimp only
      rw [Prog.wp_ite]
      refine ⟨fun hslot => ?_, fun hslot => ?_⟩
      · unfold enter
        rw [Prog.wp_bind]
        refine wp_lookUp h.volume (hname hfind hslot) (fun k hn => ?_) fun e s newfile k hf => ?_
        · rw [Prog.wp_pure]
          exact hnone k hfind hn
        · simp only [Prog.wp_bind, Prog.wp_modify, Prog.wp_pure]
          exact hnew e s newfile k hfind hslot hf
      · rw [Prog.wp_pure]
        exact hfull hfind (not_not.mp hslot)

/-- `Open` keeps the table in agreement with the disk. -/
theorem wp_open_tabled (h : Tabled w)
    (hname : w.findl name = none → w.nbentry ≠ -1 → name.length < MaxFileNameSize) :
    Prog.wp (OpenFileTable.open name) (fun _ w' => Tabled w') w := by
  refine wp_open h hname (fun _ _ _ _ _ => h) (fun i e k file _ he _ => ?_) (fun _ _ => h)
    (fun k _ _ => h.allocs ⟨k, rfl⟩) fun e s file k hfind hslot hf => ?_
  · exact (h.recount he (e.numthread + 1)).allocs ⟨k, rfl⟩
  · exact (h.allocated k).insert (hf.named ▸ hfind) hslot hf.unmarked hf.sector hf.handle
      (hf.named ▸ hf.walk) hf.file

/-- The entry of an open file is marked, and the file goes from its directory. -/
theorem wp_mark {i a x : Nat} {e : OpenFileTableEntry} {dirfile : OpenFile} {dir : Directory}
    (h : Tabled w) (he : w.Has i e) (hmark : e.ToBeDeleted = false)
    (hspell : ∀ j f, w.Has j f → f.ToBeDeleted = false → keysOf f.name = keysOf e.name →
      f.name = e.name)
    (hx : e.sector = x)
    (hwalk : Walk.walk (child w.disk) DirectorySector (dirKeys e.name) = some a)
    (hdir : intAt w.disk a 0 = 1) (hl : Loaded w.disk a dirfile.hdr) (hd : dir.Holds w.disk a)
    (hlook : Slots.lookup dir.tableSize dir.slot (lastKey e.name) = some (x : Int)) :
    Prog.wp ((dir.remove (components e.name).2).2.writeBack dirfile) (fun _ w' => Tabled w')
      (w.setEntry i (some { e with ToBeDeleted := true })) := by
  have ha : Reach w.disk a := ⟨_, hwalk⟩
  have haL : Live w.disk w.Pending a := Volume.live ha
  have ha0 : a ≠ FreeMapSector := fun he => h.volume.names.notMap (he ▸ ha)
  have hdis : Slots.Distinct dir.tableSize dir.slot := by
    rw [hd.tableSize]
    exact (h.volume.names.dirs a ha hdir).distinct.congr hd.slot
  obtain ⟨hwx, hfile⟩ := h.present i e he hmark
  rw [hx, Int.toNat_natCast] at hwx hfile
  obtain ⟨j, hj, dir', hremove, hfull, hsz, hslot⟩ := Directory.remove_spec hdis hlook
  have heq := setEntry_eq (w := w) he.1 (some { e with ToBeDeleted := true })
  have hV : Volume (w.setEntry i (some { e with ToBeDeleted := true })) w.Pending := by
    rw [heq]
    exact h.volume.of_eq rfl rfl rfl
  have hdisk : (w.setEntry i (some { e with ToBeDeleted := true })).disk = w.disk := by rw [heq]
  rw [hremove]
  rw [← hdisk] at hwalk hdir hl hd haL hfile
  have hi := hV.owned.inode a haL
  refine Directory.wp_writeBack (hsz.trans hd.tableSize) hi hl ?_ fun d k ho hd' => ?_
  · exact (hV.names.dirs a ⟨_, hwalk⟩ hdir).length
  · have hk := hV.owned.keeps haL ho
    have hu := hV.unlinks ⟨d, k, rfl⟩ (hk.mono (fun t ht => ht) fun t ht => Or.inl ht) hwalk hdir hd
      hd' hj hfull hslot fun l => by rw [child, if_neg hfile]
    refine h.marked he hmark (fun l f hf hm hkeys => ?_) hx hu (hV.unlinked hu fun s hs => ?_)
    · exact h.names l i f e hf he (hspell l f hf hm hkeys)
    · -- The map is in other sectors than the directory.
      have h0 := hk _ hV.owned.map
      exact mapBit_congr (hV.owned.inode _ hV.owned.map) hV.owned.mapLength h0.1
        (h0.2 fun he => ha0 he.symm) hs

/-- A file that is not open is removed. -/
theorem wp_removeClosed (h : Tabled w) (hname : name.length < MaxFileNameSize)
    (hfind : w.findl name = none)
    (hspell : ∀ i e, w.Has i e → e.ToBeDeleted = false → keysOf e.name = keysOf name →
      e.name = name) :
    Prog.wp (FileSystem.remove name) (fun _ w' => Tabled w') w := by
  refine FileSystem.wp_remove h.volume hname (fun _ w' _ _ hw => h.allocs hw)
    fun w' hcan hr hwalks => ?_
  obtain ⟨⟨d, k, rfl⟩, hV, -, hkeeps, -⟩ := hr
  refine h.moved (fun i e he => ⟨e, he, rfl, rfl, rfl, rfl⟩) hV h.unlocked
    (fun t ht => (hkeeps t ht).1) (fun i e he => hwalks _ fun hkeys => ?_) h.slot
  cases hmark : e.ToBeDeleted with
  | false => exact findl_none hfind he.1 he.2 (hspell i e he hmark hkeys)
  | true =>
      obtain ⟨n, hn⟩ := hcan
      have hgone := h.gone i e he hmark
      rw [hkeys, hn] at hgone
      cases hgone

theorem wp_remove (h : Tabled w) (hname : name.length < MaxFileNameSize)
    (hspell : ∀ i e, w.Has i e → e.ToBeDeleted = false → keysOf e.name = keysOf name →
      e.name = name) :
    Prog.wp (remove name) (fun _ w' => Tabled w') w := by
  have hV := h.volume
  unfold remove FileSystem.copyName
  simp only [Prog.wp_bind, Prog.wp_assert, Prog.wp_pure]
  refine Directory.wp_create fun dir w₁ hsize _ hw₁ => ?_
  obtain ⟨k₁, rfl⟩ := hw₁
  refine ⟨hname, FileSystem.wp_findDir (hV.allocated k₁) (fun a w₂ hw₂ hwalk hdir => ?_)
    fun n w₂ hw₂ htree => ?_⟩
  · obtain ⟨k₂, rfl⟩ := hw₂
    have ha : Reach w.disk a := ⟨_, hwalk⟩
    dsimp only
    rw [if_neg (by omega)]
    simp only [Prog.wp_bind]
    refine FileSystem.wp_openDir (hV.allocated k₂) hsize ha hdir fun dirfile dir' k₄ hl hd => ?_
    rcases hd.find (hV.names.dirs a ha hdir) hdir (components name).2 with
      ⟨hchild, hfind, -⟩ | ⟨x, hchild, hfind, hlook⟩
    -- There is no such file.
    · rw [hfind, if_pos rfl, Prog.wp_pure]
      exact h.allocs ⟨k₄, rfl⟩
    · have h₄ := h.allocated k₄
      have hwalkx : Walk.walk (child w.disk) DirectorySector (keysOf name) = some x := by
        rw [Walk.walk_concat, hwalk, Option.bind_some, lastKey, hchild]
      rw [hfind, if_neg (by omega)]
      simp only [Prog.wp_bind, Prog.wp_read]
      cases hopen : World.findl { w with allocs := k₄ } name with
      | none => exact wp_removeClosed h₄ hname hopen hspell
      | some i =>
          obtain ⟨e, he, rfl⟩ := findl_has hopen
          -- The file is there, so that its entry has not been marked; and the entry is its own.
          have hmark : e.ToBeDeleted = false := by
            by_contra hm
            have hgone := h.gone i e he (by simpa using hm)
            rw [treeOf_of_walk hwalkx] at hgone
            cases hgone
          have hx : e.sector = x := by
            obtain ⟨s, hs, -⟩ := h.handles i e he
            have hw := (h.present i e he hmark).1
            rw [hwalkx, hs, Int.toNat_natCast] at hw
            rw [hs, Option.some.inj hw]
          dsimp only
          simp only [Prog.wp_bind, Prog.wp_ofOption, Prog.wp_modify]
          refine ⟨e, he.2, ?_⟩
          refine Prog.wp_mono (wp_mark h₄ he hmark hspell hx hwalk hdir hl hd hlook)
            fun file w' h' => ?_
          rw [Prog.wp_pure]
          exact h'
  · obtain ⟨k₂, rfl⟩ := hw₂
    dsimp only
    rw [if_pos rfl, Prog.wp_pure]
    exact h.allocs ⟨k₂, rfl⟩

theorem wp_create (h : Tabled w) {size : Int} (hname : name.length < MaxFileNameSize)
    (hsize : InInt size) (hmax : CanEnter w.disk name → size ≤ MAX_FILE_LENGTH)
    (hmarked : CanAdd w.disk name size → ∀ i e, w.Has i e → e.ToBeDeleted = true →
      keysOf e.name ≠ keysOf name) :
    Prog.wp (FileSystem.create name size) (fun _ w' => Tabled w') w := by
  by_cases hc : CanEnter w.disk name
  · refine FileSystem.wp_create h.volume h.unlocked hname hsize.1 (hmax hc)
      (fun _ w' _ _ hw => h.allocs hw) fun w' hcan hadd hwalks => ?_
    obtain ⟨⟨d, k, rfl⟩, hV, -, hkeeps⟩ := hadd
    refine h.moved (fun i e he => ⟨e, he, rfl, rfl, rfl, rfl⟩) hV h.unlocked
      (fun t ht => (hkeeps t ht).1) (fun i e he => hwalks _ fun hkeys => ?_) h.slot
    cases hmark : e.ToBeDeleted with
    | false =>
        have hpresent := treeOf_of_walk (h.present i e he hmark).1
        rw [hkeys, hcan.absent] at hpresent
        cases hpresent
    | true => exact hmarked hcan i e he hmark hkeys
  · exact FileSystem.wp_create_refused h.volume h.unlocked hname hc fun _ w' _ hw => h.allocs hw

/-! ## Names that do not fit their array -/

theorem open_fits {Q : Option OpenFile → World → Prop}
    (h : Prog.wp (OpenFileTable.open name) Q w) (hfind : w.findl name = none)
    (hslot : w.nbentry ≠ -1) : name.length < MaxFileNameSize := by
  unfold OpenFileTable.open at h
  rw [Prog.wp_bind, Prog.wp_read, hfind] at h
  dsimp only at h
  rw [if_pos hslot] at h
  unfold enter lookUp FileSystem.copyName at h
  simp only [Prog.wp_bind, Prog.wp_assert] at h
  obtain ⟨dir, w', -, hname, -⟩ := h
  exact hname

theorem remove_fits {Q : MsgError → World → Prop} (h : Prog.wp (remove name) Q w) :
    name.length < MaxFileNameSize := by
  unfold remove FileSystem.copyName at h
  simp only [Prog.wp_bind, Prog.wp_assert] at h
  obtain ⟨dir, w', -, hname, -⟩ := h
  exact hname

/-! ## Runs -/

/-- A call on the table, or `Create`; a size is what a register holds. -/
inductive Op
  | openFile (name : List Byte)
  | closeFile (name : List Byte)
  | removeFile (name : List Byte)
  | createFile (name : List Byte) (initialSize : BitVec 32)

/-- One call, when it returns. -/
def opStep (w : World) : Op → Option World
  | .openFile name => ((OpenFileTable.open name).run w).map fun r => r.2
  | .closeFile name => ((close name).run w).map fun r => r.2
  | .removeFile name => ((remove name).run w).map fun r => r.2
  | .createFile name initialSize =>
      ((FileSystem.create name initialSize.toInt).run w).map fun r => r.2

/-- The state of a table of open files that has just been made. -/
structure Fresh (w : World) : Prop where
  volume : Volume w noneRemoved
  unlocked : w.createLock = false
  table : ∀ i, w.table i = none
  nbentry : w.nbentry = 0

/-- The step leads to none of the two states in which `Open` overlooks a file: no entry is taken
    out of a full table, and no file is created under the path of an entry that waits for its
    removal; and an open file is removed under the name it is open by. -/
def Undisturbed (w : World) : Op → Prop
  | .openFile _ => True
  | .closeFile name => ∀ i e, w.findl name = some i → w.Has i e → e.numthread ≤ 1 → w.HasRoom
  | .removeFile name => ∀ i e, w.Has i e → e.ToBeDeleted = false → keysOf e.name = keysOf name →
      e.name = name
  | .createFile name initialSize => CanAdd w.disk name initialSize.toInt → ∀ i e, w.Has i e →
      e.ToBeDeleted = true → keysOf e.name ≠ keysOf name

/-- What `Open` is meant to do: it returns a handle for every file that is there, as long as the
    table has a free slot. -/
def OpensAll (w : World) : Prop :=
  ∀ name n, name.length < MaxFileNameSize → treeOf w.disk (keysOf name) = some (.file n) →
    w.HasRoom → Prog.wp (OpenFileTable.open name) (fun r _ => r ≠ none) w

theorem Fresh.tabled (h : Fresh w) : Tabled w := by
  have hnone : ∀ i e, ¬ w.Has i e := by
    rintro i e ⟨-, he⟩
    rw [h.table i] at he
    cases he
  refine ⟨h.volume.congr fun s => ?_, h.unlocked, fun i j e e' he => absurd he (hnone i e),
    fun i e he => absurd he (hnone i e), fun i e he => absurd he (hnone i e),
    fun i e he => absurd he (hnone i e), fun i j e e' he => absurd he (hnone i e), ?_⟩
  · constructor
    · rintro ⟨i, e, he, -⟩
      exact hnone i e he
    · exact False.elim
  · rw [h.nbentry, if_neg (by decide)]
    exact ⟨0, by decide, rfl, h.table 0⟩

theorem tabled_opStep {op : Op} {w' : World} (h : Tabled w) (hu : Undisturbed w op)
    (hstep : opStep w op = some w') : Tabled w' := by
  cases op with
  | openFile name =>
      obtain ⟨⟨r, w₁⟩, hrun, rfl⟩ := Option.map_eq_some_iff.mp hstep
      have hret : Prog.wp (OpenFileTable.open name) (fun _ _ => True) w := ⟨r, w₁, hrun, trivial⟩
      have hafter := Prog.wp_run (wp_open_tabled h (open_fits hret)) hrun
      exact hafter
  | closeFile name =>
      obtain ⟨⟨r, w₁⟩, hrun, rfl⟩ := Option.map_eq_some_iff.mp hstep
      have hafter := Prog.wp_run (wp_close h hu) hrun
      exact hafter
  | removeFile name =>
      obtain ⟨⟨r, w₁⟩, hrun, rfl⟩ := Option.map_eq_some_iff.mp hstep
      have hret : Prog.wp (remove name) (fun _ _ => True) w := ⟨r, w₁, hrun, trivial⟩
      have hafter := Prog.wp_run (wp_remove h (remove_fits hret) hu) hrun
      exact hafter
  | createFile name size =>
      obtain ⟨⟨r, w₁⟩, hrun, rfl⟩ := Option.map_eq_some_iff.mp hstep
      have hret : Prog.wp (FileSystem.create name size.toInt) (fun _ _ => True) w :=
        ⟨r, w₁, hrun, trivial⟩
      have hsize : InInt size.toInt := by
        have hlo := BitVec.le_toInt size
        have hhi := BitVec.toInt_lt (x := size)
        exact ⟨hlo, hhi⟩
      have hafter := Prog.wp_run (wp_create h (FileSystem.create_fits hret) hsize
        (fun hc => FileSystem.create_size h.volume h.unlocked hc hret) hu) hrun
      exact hafter

/-- With the table in agreement with the disk `Open` overlooks no file. -/
theorem opensAll_of_tabled (h : Tabled w) : OpensAll w := by
  intro name n hname hfile hroom
  refine wp_open h (fun _ _ => hname) (fun i e hfind he hmark => ?_) (fun _ _ _ _ _ _ _ => nofun)
    (fun _ hfull => ?_) (fun k _ hnone => ?_) fun _ _ _ _ _ _ _ => nofun
  · obtain ⟨e', he', rfl⟩ := findl_has hfind
    obtain rfl := Option.some.inj (he.2.symm.trans he'.2)
    rw [h.gone i e he hmark] at hfile
    cases hfile
  · have hslot := h.slot
    rw [if_pos hfull] at hslot
    exact absurd hroom hslot
  · exact absurd hfile (hnone n)

omit [Config] in
theorem exists_fresh : ∃ w, @Fresh Config.defaults w ∧
    @CanEnter Config.defaults w.disk [slash, 97] := by
  let _ := Config.defaults
  obtain ⟨w, h⟩ := exists_formatted
  have hs := h.steady.1
  exact ⟨{ w with table := fun _ => none, nbentry := 0 },
    ⟨hs.volume.of_eq rfl rfl rfl, hs.unlocked, fun _ => rfl, rfl⟩,
    h.canEnter (by decide) (by decide +kernel) (by decide)⟩

/-- An empty file is created. -/
theorem opStep_create (h : Fresh w) (hname : name.length < MaxFileNameSize)
    (hc : CanEnter w.disk name) :
    ∃ w', opStep w (.createFile name 0) = some w' ∧ (∀ i, w'.table i = none) ∧
      treeOf w'.disk (keysOf name) = some (.file 0) := by
  have hneed := FileHeader.need_of_nonpos (Int.le_refl 0)
  have hcan : CanAdd w.disk name 0 := hc.canAdd (hneed ▸ hc.space)
  have hcreate : Prog.wp (FileSystem.create name 0) (fun _ w' => (∀ i, w'.table i = none) ∧
      treeOf w'.disk (keysOf name) = some (.file 0)) w := by
    refine FileSystem.wp_create h.volume h.unlocked hname (by decide) (Int.natCast_nonneg _)
      (fun _ _ _ hnot _ => absurd hcan hnot) fun w' _ hadd _ => ?_
    obtain ⟨⟨d, k, rfl⟩, -, htree, -⟩ := hadd
    refine ⟨h.table, ?_⟩
    rw [htree, Function.update_self]
  obtain ⟨e, w', hrun, hdone⟩ := hcreate
  refine ⟨w', ?_, hdone⟩
  rw [opStep, show (0 : BitVec 32).toInt = 0 from rfl, hrun, Option.map_some]

/-- Spellings of the path `/a`. -/
def spelled (k : Nat) : List Byte := List.replicate (k + 1) slash ++ [97]

omit [Config] in
theorem spelled_inj {j k : Nat} (h : spelled j = spelled k) : j = k := by
  have hlen := congrArg List.length h
  simpa [spelled] using hlen

omit [Config] in
theorem keysOf_spelled (k : Nat) : keysOf (spelled k) = keysOf [slash, 97] := by
  induction k with
  | zero => rfl
  | succ k ih =>
      rw [← ih]
      have hcons : spelled (k + 1) = slash :: spelled k := by
        rw [spelled, List.replicate_succ]
        rfl
      rw [keysOf, hcons, dirKeys, lastKey, components_slash, keysOf, dirKeys, lastKey]

/-- The slots in use. -/
def used (w : World) : Finset Nat := (Finset.range NBOFTENTRY).filter fun i => (w.table i).isSome

/-- The file has been opened under the first `k` spellings. -/
structure OpenedTimes (k : Nat) (w : World) : Prop where
  tabled : Tabled w
  file : treeOf w.disk (keysOf [slash, 97]) = some (.file 0)
  entries : ∀ i e, w.Has i e → ∃ j < k, e.name = spelled j ∧ e.numthread = 1 ∧ e.ToBeDeleted = false
  count : (used w).card = k

/-- The next spelling takes another slot. -/
theorem OpenedTimes.next {k : Nat} (h : OpenedTimes k w) (hk : k < NBOFTENTRY)
    (hname : (spelled k).length < MaxFileNameSize) :
    ∃ w', opStep w (.openFile (spelled k)) = some w' ∧ OpenedTimes (k + 1) w' := by
  have hT := h.tabled
  -- No entry has this spelling, and one slot at least is empty.
  have hfind : ∀ i, w.findl (spelled k) ≠ some i := by
    intro i hi
    obtain ⟨e, he, hn⟩ := findl_has hi
    obtain ⟨j, hj, hnj, -⟩ := h.entries i e he
    exact absurd (spelled_inj (hn.symm.trans hnj)) (by omega)
  have hroom : w.HasRoom := by
    by_contra hnot
    have hall : used w = Finset.range NBOFTENTRY := by
      refine Finset.filter_true_of_mem fun i hi => ?_
      rw [Option.isSome_iff_ne_none]
      exact fun hnone => hnot ⟨i, Finset.mem_range.mp hi, hnone⟩
    have hcount := h.count
    rw [hall, Finset.card_range] at hcount
    omega
  have hfile : treeOf w.disk (keysOf (spelled k)) = some (.file 0) := by
    rw [keysOf_spelled, h.file]
  have hopen : Prog.wp (OpenFileTable.open (spelled k)) (fun _ w' => OpenedTimes (k + 1) w') w := by
    refine wp_open hT (fun _ _ => hname) (fun i _ hi _ _ => absurd hi (hfind i))
      (fun i _ _ _ hi _ _ => absurd hi (hfind i)) (fun _ hfull => ?_)
      (fun _ _ hnone => absurd hfile (hnone 0)) fun e s file n hnone hslot hf => ?_
    · have hs := hT.slot
      rw [if_pos hfull] at hs
      exact absurd hroom hs
    · have hT' := (hT.allocated n).insert (hf.named ▸ hnone) hslot hf.unmarked hf.sector
        hf.handle (hf.named ▸ hf.walk) hf.file
      have hs := hT.slot
      rw [if_neg hslot] at hs
      obtain ⟨i, hi, hn, hempty⟩ := hs
      have htable : (World.insert { w with allocs := n } e).table =
          Function.update w.table i (some e) := by
        unfold World.insert
        dsimp only
        rw [hn, setEntry_table _ _ hi]
      have hdisk : (World.insert { w with allocs := n } e).disk = w.disk := by
        unfold World.insert
        dsimp only
        rw [hn, setEntry_eq hi]
      refine ⟨hT', by rw [hdisk]; exact h.file, fun j f hjf => ?_, ?_⟩
      · obtain ⟨hj, hf'⟩ := hjf
        rw [htable, Function.update_apply] at hf'
        split at hf'
        · obtain rfl := Option.some.inj hf'
          exact ⟨k, by omega, hf.named, hf.numthread, hf.unmarked⟩
        · obtain ⟨l, hl, hrest⟩ := h.entries j f ⟨hj, hf'⟩
          exact ⟨l, by omega, hrest⟩
      -- One slot more is in use.
      · have hused : used (World.insert { w with allocs := n } e) = insert i (used w) := by
          ext j
          simp only [used, htable, Finset.mem_filter, Finset.mem_range, Finset.mem_insert,
            Function.update_apply]
          by_cases hji : j = i
          · simp [hji, hi]
          · simp [hji]
        rw [hused, Finset.card_insert_of_notMem, h.count]
        simp [used, hempty]
  obtain ⟨r, w', hrun, hnext⟩ := hopen
  exact ⟨w', by rw [opStep, hrun, Option.map_some], hnext⟩

/-- The file is opened under one spelling after the other. -/
theorem OpenedTimes.run {w₀ : World} {tr : List (World × Op)} (h : OpenedTimes 0 w)
    (hr : Run opStep w₀ tr w) (n : Nat) (hn : n ≤ NBOFTENTRY)
    (hname : ∀ k < NBOFTENTRY, (spelled k).length < MaxFileNameSize) :
    ∃ tr' w', Run opStep w₀ tr' w' ∧ OpenedTimes n w' := by
  induction n with
  | zero => exact ⟨tr, w, hr, h⟩
  | succ n ih =>
      obtain ⟨tr', w', hr', h'⟩ := ih (by omega)
      obtain ⟨w'', hstep, h''⟩ := h'.next (by omega) (hname n (by omega))
      exact ⟨_, w'', Run.snoc hr' hstep, h''⟩

/-- The last `Close` of a file that has not been removed. -/
theorem wp_closeLast {i : Nat} {e : OpenFileTableEntry} {Q : Unit → World → Prop}
    (hfind : w.findl name = some i) (he : w.Has i e) (hlast : e.numthread = 1)
    (hmark : e.ToBeDeleted = false)
    (hQ : Q () ((w.setEntry i (some { e with numthread := e.numthread - 1 })).setEntry i none)) :
    Prog.wp (close name) Q w := by
  unfold close
  rw [Prog.wp_bind, Prog.wp_read, hfind]
  dsimp only
  simp only [Prog.wp_bind, Prog.wp_ofOption, Prog.wp_modify]
  refine ⟨e, he.2, ?_⟩
  rw [if_pos (by omega)]
  unfold takeOut OpenFileTableEntry.delete
  rw [if_neg (by rw [hmark]; decide)]
  simp only [Prog.wp_bind, Prog.wp_modify, Prog.wp_pure]
  exact hQ

/-- After the first entry of the full table has been closed, its file is not found again. -/
theorem OpenedTimes.overlooked (h : OpenedTimes NBOFTENTRY w) :
    ∃ j < NBOFTENTRY, ∃ w', opStep w (.closeFile (spelled j)) = some w' ∧ w'.HasRoom ∧
      treeOf w'.disk (keysOf (spelled j)) = some (.file 0) ∧ w'.findl (spelled j) = none ∧
      w'.nbentry = -1 := by
  have hfull : ¬ w.HasRoom := by
    rintro ⟨i, hi, hnone⟩
    have hlt : (used w).card < (Finset.range NBOFTENTRY).card := by
      refine Finset.card_lt_card ⟨Finset.filter_subset _ _, fun hsub => ?_⟩
      have hmem := hsub (Finset.mem_range.mpr hi)
      simp [used, hnone] at hmem
    rw [h.count, Finset.card_range] at hlt
    omega
  have hnb : w.nbentry = -1 := by
    by_contra hne
    have hs := h.tabled.slot
    rw [if_neg hne] at hs
    obtain ⟨i, hi, -, hnone⟩ := hs
    exact hfull ⟨i, hi, hnone⟩
  obtain ⟨e, he⟩ : ∃ e, w.Has 0 e := by
    cases h0 : w.table 0 with
    | none => exact absurd ⟨0, by decide, h0⟩ hfull
    | some e => exact ⟨e, by decide, h0⟩
  obtain ⟨j, hj, hname, hlast, hmark⟩ := h.entries 0 e he
  have hfind : w.findl e.name = some 0 := by
    cases hf : w.findl e.name with
    | none => exact absurd rfl (findl_none hf he.1 he.2)
    | some i =>
        obtain ⟨g, hg, hgn⟩ := findl_has hf
        rw [h.tabled.names i 0 g e hg he hgn]
  have hclose := wp_closeLast (Q := fun _ w' => w'.HasRoom ∧
    treeOf w'.disk (keysOf e.name) = some (.file 0) ∧ w'.findl e.name = none ∧ w'.nbentry = -1)
    hfind he hlast hmark
  obtain ⟨r, w', hrun, hdone⟩ := hclose (by
    have hi := he.1
    refine ⟨⟨0, hi, ?_⟩, ?_, ?_, ?_⟩
    · rw [setEntry_table _ _ hi, Function.update_self]
    · rw [setEntry_eq hi, setEntry_eq hi, hname, keysOf_spelled]
      exact h.file
    · cases hf : World.findl _ e.name with
      | none => rfl
      | some i =>
          -- An entry of the name would be another entry of the table before.
          obtain ⟨g, hg, hgn⟩ := findl_has hf
          rcases (has_setEntry hi).mp hg with ⟨-, hnew⟩ | ⟨hne, hold⟩
          · cases hnew
          · rcases (has_setEntry hi).mp hold with ⟨hi0, -⟩ | ⟨-, hold⟩
            · exact absurd hi0 hne
            · exact absurd (h.tabled.names i 0 g e hold he hgn) hne
    · rw [setEntry_nbentry, setEntry_nbentry, hnb])
  rw [hname] at hrun hdone
  exact ⟨j, hj, w', by rw [opStep, hrun, Option.map_some], hdone⟩

end OpenFileTable

end Nachos
