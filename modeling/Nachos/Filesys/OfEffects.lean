/-
  Nachos.Filesys.OfEffects

  What the segments of `Open`, `Close` and `Remove` do to the table of open files.
  Their accesses to the disk leave it alone (`SameTable`); `Remove` marks at most
  one entry in a segment (`Marks`).  The first segment of a call is described by
  what is left to run after the table has been looked up, the last one by the
  table it leaves.
-/

import Nachos.Filesys.OfTable
import Nachos.Filesys.Interference

namespace Nachos

open Words Program Config

namespace World

/-- The free-map file is not empty. -/
def MapStored (w : World) : Prop := 0 < w.freeMapFile.hdr.numBytes

structure SameTable (w w' : World) : Prop where
  table : w'.table = w.table
  nbentry : w'.nbentry = w.nbentry
  mapStored : w.MapStored → w'.MapStored

/-- Entries may have been marked for deletion. -/
structure Marks (w w' : World) : Prop where
  table : ∀ i, w'.table i = w.table i ∨
    ∃ e, w.table i = some e ∧ w'.table i = some { e with ToBeDeleted := true }
  nbentry : w'.nbentry = w.nbentry
  mapStored : w.MapStored → w'.MapStored

theorem SameTable.refl (w : World) : SameTable w w := ⟨rfl, rfl, id⟩

theorem SameTable.trans {w₁ w₂ w₃ : World} (h : SameTable w₁ w₂) (h' : SameTable w₂ w₃) :
    SameTable w₁ w₃ :=
  ⟨h'.table.trans h.table, h'.nbentry.trans h.nbentry, h'.mapStored ∘ h.mapStored⟩

theorem SameTable.marks {w w' : World} (h : SameTable w w') : Marks w w' :=
  ⟨fun i => Or.inl (congrFun h.table i), h.nbentry, h.mapStored⟩

/-- A mark stays. -/
theorem Marks.trans {w₁ w₂ w₃ : World} (h : Marks w₁ w₂) (h' : Marks w₂ w₃) : Marks w₁ w₃ := by
  refine ⟨fun i => ?_, h'.nbentry.trans h.nbentry, h'.mapStored ∘ h.mapStored⟩
  rcases h.table i with h₁ | ⟨e, he, h₁⟩
  · rcases h'.table i with h₂ | ⟨e, he, h₂⟩
    · exact Or.inl (h₂.trans h₁)
    · exact Or.inr ⟨e, h₁ ▸ he, h₂⟩
  · rcases h'.table i with h₂ | ⟨e', he', h₂⟩
    · exact Or.inr ⟨e, he, h₂.trans h₁⟩
    · obtain rfl := Option.some.inj (h₁.symm.trans he')
      exact Or.inr ⟨e, he, h₂⟩

theorem benign_sameTable : Benign MapStored SameTable where
  refl := SameTable.refl
  trans := fun _ _ _ => SameTable.trans
  inv := fun _ _ hi h => h.mapStored hi
  allocs := fun _ _ => ⟨rfl, rfl, id⟩
  disk := fun _ _ => ⟨rfl, rfl, id⟩

theorem benign_marks : Benign MapStored Marks where
  refl := fun w => (SameTable.refl w).marks
  trans := fun _ _ _ => Marks.trans
  inv := fun _ _ hi h => h.mapStored hi
  allocs := fun w n => (benign_sameTable.allocs w n).marks
  disk := fun w d => (benign_sameTable.disk w d).marks

theorem setEntry_marks {w : World} {i : Nat} {e : OpenFileTableEntry} (hi : i < NBOFTENTRY)
    (he : w.table i = some e) : Marks w (w.setEntry i (some { e with ToBeDeleted := true })) := by
  refine ⟨fun j => ?_, setEntry_nbentry _ _ _, ?_⟩
  · rw [setEntry_table _ _ hi]
    by_cases hj : j = i
    · rw [hj, Function.update_self]
      exact Or.inr ⟨e, he, rfl⟩
    · exact Or.inl (Function.update_of_ne hj _ _)
  · intro hm
    simpa only [MapStored, setEntry_freeMapFile] using hm

end World

open World

variable [Config] {w w₀ : World} {name : List Byte}

theorem BitMap.sameTable_writeBack (m : BitMap) : Prog.Keeps MapStored SameTable m.writeBack :=
  keeps_writeBack benign_sameTable (fun _ h => h) (fun _ _ h _ => ⟨rfl, rfl, fun _ => h⟩) m

theorem BitMap.marks_writeBack (m : BitMap) : Prog.Keeps MapStored Marks m.writeBack :=
  keeps_writeBack benign_marks (fun _ h => h)
    (fun _ _ h _ => SameTable.marks ⟨rfl, rfl, fun _ => h⟩) m

theorem OpenFileTableEntry.keeps_delete (e : OpenFileTableEntry) :
    Prog.Keeps MapStored SameTable e.delete :=
  Prog.Keeps.ite ((BitMap.keeps_fetchFreeMap benign_sameTable).bind fun _ =>
    Prog.Keeps.ofOption.bind fun _ => Prog.Keeps.ofOption.bind fun m =>
      m.sameTable_writeBack) Prog.Keeps.pure

/-- A file that is not empty is read from the disk. -/
theorem OpenFile.waits_readAt {file : OpenFile} {n : Int} (hn : 0 < n)
    (hlen : 0 < file.hdr.numBytes) : Prog.Waits (file.readAt n 0) w := by
  unfold OpenFile.readAt
  dsimp only
  rw [if_neg (by simp only [FileHeader.fileLength]; omega)]
  refine Prog.Waits.bind_right fun _ w₁ _ => Prog.Waits.bind_right fun buf w₂ _ =>
    Prog.Waits.bind ?_ _
  refine Prog.Waits.forRange ?_ fun i buf w => Prog.Waits.bind_right fun sector w' _ =>
    Prog.Waits.bind (Prog.Waits.bind Prog.Waits.yield _) _
  -- At least the first sector is read.
  have hnum : ∀ m : Int, 0 < m → 0 < (1 + divRoundDown (0 + m - 1) SectorSize -
      divRoundDown 0 SectorSize).toNat := by
    intro m hm
    have hge := Int.tdiv_nonneg (show 0 ≤ 0 + m - 1 by omega) (Int.natCast_nonneg SectorSize)
    have hzero := Int.zero_tdiv (SectorSize : Int)
    simp only [divRoundDown]
    omega
  refine hnum _ ?_
  split
  · simpa only [FileHeader.fileLength, Int.sub_zero] using hlen
  · exact hn

omit [Config] in
theorem BitMap.meets_new (hi : w.MapStored) :
    BitMap.new.Meets MapStored SameTable
      (fun w m w' => m.numBits = NUM_SECTORS ∧ SameTable w w') w w :=
  (keeps_newArray benign_sameTable).next hi (SameTable.refl w) fun words _ _ _ hs =>
    ⟨(create_spec NUM_SECTORS (word words)).1, hs⟩

/-- So is the free map. -/
theorem BitMap.waits_fetchFreeMap (h : w.MapStored) : Prog.Waits BitMap.fetchFreeMap w := by
  unfold fetchFreeMap
  refine Prog.Waits.bind_right fun m w₁ hm => ?_
  obtain ⟨hbits, hsame⟩ := (meets_new h).done hm
  refine Prog.Waits.bind_right fun w₂ w₃ hw => ?_
  obtain ⟨rfl, rfl⟩ : w₁ = w₂ ∧ w₁ = w₃ := by
    cases hw
    exact ⟨rfl, rfl⟩
  refine Prog.Waits.bind (OpenFile.waits_readAt ?_ (hsame.mapStored h)) _
  rw [hbits]
  decide

namespace OpenFileTable

/-! ## What is left after the first segment -/

/-- `Open` has returned no handle, or one of a file that it has entered. -/
def Entered (name : List Byte) (w : World) (r : Option OpenFile) (w' : World) : Prop :=
  (r = none ∧ SameTable w w') ∨
    r.isSome ∧ ∃ e w₁, e.name = name ∧ e.numthread = 1 ∧ e.ToBeDeleted = false ∧
      SameTable w w₁ ∧ w' = w₁.insert e

theorem meets_lookUp (hi : w₀.MapStored) (hs : SameTable w₀ w) :
    (lookUp name).Meets MapStored SameTable (fun w₀ r w => (MapStored w₀ ∧ SameTable w₀ w) ∧
      ∀ x, r = some x → x.1.name = name ∧ x.1.numthread = 1 ∧ x.1.ToBeDeleted = false) w₀ w := by
  unfold lookUp
  refine (Directory.keeps_create benign_sameTable).next hi hs fun _ w₀ w hi hs => ?_
  refine (FileSystem.keeps_copyName _).next hi hs fun _ w₀ w hi hs => ?_
  refine (FileSystem.keeps_findDir benign_sameTable _).next hi hs fun r w₀ w hi hs => ?_
  obtain ⟨dirsector, filename⟩ := r
  dsimp only
  split
  · exact ⟨⟨hi, hs⟩, fun x h => nomatch h⟩
  · refine (OpenFile.keeps_create benign_sameTable _).next hi hs fun _ w₀ w hi hs => ?_
    refine (Directory.keeps_fetchFrom benign_sameTable _ _).next hi hs fun d w₀ w hi hs => ?_
    split
    · refine (OpenFile.keeps_create benign_sameTable _).next hi hs fun f w₀ w hi hs => ?_
      split
      · exact ⟨⟨hi, hs⟩, fun x h => nomatch h⟩
      · refine (OpenFile.keeps_create benign_sameTable _).next hi hs fun f' w₀ w hi hs => ?_
        refine ⟨⟨hi, hs⟩, fun x h => ?_⟩
        obtain rfl := Option.some.inj h
        exact ⟨rfl, rfl, rfl⟩
    · exact ⟨⟨hi, hs⟩, fun x h => nomatch h⟩

theorem meets_enter (name : List Byte) (hi : w₀.MapStored) (hs : SameTable w₀ w) :
    (enter name).Meets MapStored SameTable (Entered name) w₀ w := by
  refine Prog.meets_bind.mpr ((meets_lookUp hi hs).mono (fun _ _ h => h) fun w₀ r w h => ?_)
  obtain ⟨⟨hi, hs⟩, hr⟩ := h
  cases r with
  | none => exact Or.inl ⟨rfl, hs⟩
  | some x =>
      obtain ⟨hname, hone, hnot⟩ := hr x rfl
      exact Or.inr ⟨rfl, x.1, w, hname, hone, hnot, hs, rfl⟩

theorem meets_handle (name : List Byte) (sector : Int) (hi : w₀.MapStored) (hs : SameTable w₀ w) :
    (handle name sector).Meets MapStored SameTable
      (fun w r w' => r.isSome ∧ SameTable w w') w₀ w :=
  (OpenFile.keeps_create benign_sameTable _).next hi hs fun _ _ _ _ hs => ⟨rfl, hs⟩

theorem meets_takeOut (num : Nat) (e : OpenFileTableEntry) (hi : w₀.MapStored)
    (hs : SameTable w₀ w) :
    (takeOut num e).Meets MapStored SameTable
      (fun w _ w' => ∃ w₁, SameTable w w₁ ∧ w' = w₁.setEntry num none) w₀ w :=
  e.keeps_delete.next hi hs fun _ _ w _ hs => ⟨w, hs, rfl⟩

/-- A file that stays is not touched. -/
theorem takeOut_kept {num : Nat} {e : OpenFileTableEntry} (h : e.ToBeDeleted = false) :
    (takeOut num e).segment w = some (.done (), w.setEntry num none) := by
  rw [takeOut, OpenFileTableEntry.delete, if_neg (by simp only [h, Bool.false_eq_true,
    not_false_eq_true])]
  rfl

theorem waits_takeOut {num : Nat} {e : OpenFileTableEntry} (h : e.ToBeDeleted = true)
    (hi : w.MapStored) : Prog.Waits (takeOut num e) w := by
  refine Prog.Waits.bind ?_ _
  rw [OpenFileTableEntry.delete, if_pos h]
  exact Prog.Waits.bind (BitMap.waits_fetchFreeMap hi) _

theorem keeps_remove (name : List Byte) : Prog.Keeps MapStored Marks (remove name) := by
  unfold remove
  refine (Directory.keeps_create benign_marks).bind fun _ => ?_
  refine (FileSystem.keeps_copyName _).bind fun _ => ?_
  refine (FileSystem.keeps_findDir benign_marks _).bind fun r => Prog.Keeps.ite Prog.Keeps.pure ?_
  refine (OpenFile.keeps_create benign_marks _).bind fun dirfile => ?_
  refine (Directory.keeps_fetchFrom benign_marks _ _).bind fun d =>
    Prog.Keeps.ite Prog.Keeps.pure ?_
  -- The entry is found and marked in one segment.
  refine ⟨fun w₀ w hi hs => ?_⟩
  rw [Prog.meets_bind, Prog.meets_read]
  split
  · rename_i num hnum
    obtain ⟨hlt, e, he, -⟩ := findl_some hnum
    rw [Prog.meets_bind, Prog.meets_ofOption]
    intro e' he'
    obtain rfl := Option.some.inj (he.symm.trans he')
    rw [Prog.meets_bind, Prog.meets_modify]
    refine (Directory.keeps_writeBack benign_marks BitMap.marks_writeBack _ _).next hi
      (hs.trans (setEntry_marks hlt he)) fun _ _ _ hi hs => ⟨hi, hs⟩
  · exact (FileSystem.keeps_remove benign_marks BitMap.marks_writeBack name).meets w₀ w hi hs

/-! ## The first segment -/

section

variable {num : Nat} {e : OpenFileTableEntry}

theorem open_segment : (OpenFileTable.open name).segment w =
    (match w.findl name with
      | some num => Prog.ofOption (w.table num) >>= fun e =>
          if e.ToBeDeleted = false then
            Prog.modify (fun w =>
              w.setEntry num (some { e with numthread := e.numthread + 1 })) >>= fun _ =>
                handle name e.sector
          else pure none
      | none => if w.nbentry ≠ -1 then enter name else pure none : Prog World _).segment w := rfl

theorem open_known (hf : w.findl name = some num) (he : w.table num = some e)
    (hd : e.ToBeDeleted = false) :
    (OpenFileTable.open name).segment w = (handle name e.sector).segment
      (w.setEntry num (some { e with numthread := e.numthread + 1 })) := by
  rw [open_segment, hf]
  simp only [he]
  show Prog.segment (if e.ToBeDeleted = false then _ else _) w = _
  rw [if_pos hd]
  rfl

theorem open_removed (hf : w.findl name = some num) (he : w.table num = some e)
    (hd : e.ToBeDeleted = true) :
    (OpenFileTable.open name).segment w = some (.done none, w) := by
  rw [open_segment, hf]
  simp only [he]
  show Prog.segment (if e.ToBeDeleted = false then _ else _) w = _
  rw [if_neg (by simp only [hd, Bool.true_eq_false, not_false_eq_true])]
  rfl

theorem open_new (hf : w.findl name = none) (hn : w.nbentry ≠ -1) :
    (OpenFileTable.open name).segment w = (enter name).segment w := by
  rw [open_segment, hf]
  simp only
  rw [if_pos hn]

theorem open_full (hf : w.findl name = none) (hn : w.nbentry = -1) :
    (OpenFileTable.open name).segment w = some (.done none, w) := by
  rw [open_segment, hf]
  simp only
  rw [if_neg (not_not.mpr hn)]
  rfl

theorem close_segment : (OpenFileTable.close name).segment w =
    (match w.findl name with
      | some num => Prog.ofOption (w.table num) >>= fun e =>
          Prog.modify (fun w =>
            w.setEntry num (some { e with numthread := e.numthread - 1 })) >>= fun _ =>
              if e.numthread - 1 ≤ 0 then
                takeOut num { e with numthread := e.numthread - 1 } else pure ()
      | none => pure () : Prog World _).segment w := rfl

theorem close_unknown (hf : w.findl name = none) :
    (OpenFileTable.close name).segment w = some (.done (), w) := by
  rw [close_segment, hf]
  rfl

theorem close_counted (hf : w.findl name = some num) (he : w.table num = some e)
    (hn : 0 < e.numthread - 1) :
    (OpenFileTable.close name).segment w = some (.done (),
      w.setEntry num (some { e with numthread := e.numthread - 1 })) := by
  rw [close_segment, hf]
  simp only [he]
  show Prog.segment (if e.numthread - 1 ≤ 0 then _ else _) (w.setEntry _ _) = _
  rw [if_neg (Int.not_le.mpr hn)]
  rfl

theorem close_last (hf : w.findl name = some num) (he : w.table num = some e)
    (hn : e.numthread - 1 ≤ 0) :
    (OpenFileTable.close name).segment w =
      (takeOut num { e with numthread := e.numthread - 1 }).segment
        (w.setEntry num (some { e with numthread := e.numthread - 1 })) := by
  rw [close_segment, hf]
  simp only [he]
  show Prog.segment (if e.numthread - 1 ≤ 0 then _ else _) (w.setEntry _ _) = _
  rw [if_pos hn]

end

end OpenFileTable

end Nachos
