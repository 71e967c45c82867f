/-
  Nachos.Filesys.OfTable

  `filesys/oftable.cc`: the table of the files that are open.  `Open` gives each
  caller a handle of its own and counts it in the entry of the file's name; the
  last `Close` takes the entry out again, and frees the file if it has been
  removed meanwhile.  None of the functions holds a lock: the table is looked up
  before the accesses to the disk and changed after them.
-/

import Nachos.Filesys.FileSys
import Nachos.Lib.Interleave
import Mathlib.Logic.Function.Basic

namespace Nachos

open Words Program Config

/-- The number of slots of the table. -/
abbrev NBOFTENTRY : Nat := 15

namespace World

/-- `table[i] = e`.  What lies outside the array is not the table. -/
def setEntry (w : World) (i : Int) (e : Option OpenFileTableEntry) : World :=
  if 0 ≤ i ∧ i < NBOFTENTRY then { w with table := Function.update w.table i.toNat e } else w

/-- `OpenFileTable::findl`; `none` for -1. -/
def findl (w : World) (name : List Byte) : Option Nat :=
  (List.range NBOFTENTRY).find? fun i => (w.table i).any fun e => e.name == name

/-- `OpenFileTable::next_entry`. -/
def nextEntry (w : World) : Int :=
  match (List.range NBOFTENTRY).find? fun i => (w.table i).isNone with
  | some i => i
  | none => -1

/-- `table[nbentry] = entry; nbentry = next_entry();` -/
def insert (w : World) (entry : OpenFileTableEntry) : World :=
  let w := w.setEntry w.nbentry (some entry)
  { w with nbentry := w.nextEntry }

section

variable {w : World} {name : List Byte} {i : Nat}

theorem findl_some (h : w.findl name = some i) :
    i < NBOFTENTRY ∧ ∃ e, w.table i = some e ∧ e.name = name := by
  refine ⟨List.mem_range.mp (List.mem_of_find?_eq_some h), ?_⟩
  have hany := List.find?_some h
  simpa only [Option.any_eq_true, beq_iff_eq] using hany

theorem findl_none (h : w.findl name = none) (hi : i < NBOFTENTRY) {e : OpenFileTableEntry}
    (he : w.table i = some e) : e.name ≠ name := by
  have hnot := List.find?_eq_none.mp h i (List.mem_range.mpr hi)
  simpa only [he, Option.any_some, beq_iff_eq] using hnot

/-- `nbentry` is -1 or the number of a free slot. -/
def FreeSlot (w : World) (n : Int) : Prop := ∃ i, i < NBOFTENTRY ∧ n = (i : Nat) ∧ w.table i = none

theorem nextEntry_spec (w : World) : w.nextEntry = -1 ∨ w.FreeSlot w.nextEntry := by
  unfold nextEntry
  split
  · rename_i i h
    refine Or.inr ⟨i, List.mem_range.mp (List.mem_of_find?_eq_some h), rfl, ?_⟩
    simpa only [Option.isNone_iff_eq_none] using List.find?_some h
  · exact Or.inl rfl

theorem setEntry_table (w : World) (e : Option OpenFileTableEntry) (hi : i < NBOFTENTRY) :
    (w.setEntry i e).table = Function.update w.table i e := by
  rw [setEntry, if_pos (by omega), Int.toNat_natCast]

@[simp] theorem setEntry_nbentry (w : World) (n : Int) (e : Option OpenFileTableEntry) :
    (w.setEntry n e).nbentry = w.nbentry := by
  unfold setEntry
  split <;> rfl

@[simp] theorem setEntry_freeMapFile (w : World) (n : Int) (e : Option OpenFileTableEntry) :
    (w.setEntry n e).freeMapFile = w.freeMapFile := by
  unfold setEntry
  split <;> rfl

end

end World

variable [Config]

/-- `OpenFileTableEntry::~OpenFileTableEntry`. -/
def OpenFileTableEntry.delete (e : OpenFileTableEntry) : Prog World Unit :=
  if e.ToBeDeleted then do
    let freeMap ← BitMap.fetchFreeMap
    let freeMap ← Prog.ofOption (e.file.hdr.deallocate freeMap)
    let freeMap ← Prog.ofOption (freeMap.clear e.sector)
    freeMap.writeBack
  else pure ()

namespace OpenFileTable

/-- `Open` of a name that is not in the table, as far as the disk is read: the new
    entry, with a handle of its own, and the handle for the caller. -/
def lookUp (name : List Byte) : Prog World (Option (OpenFileTableEntry × OpenFile)) := do
  let directory ← Directory.create
  let filename ← FileSystem.copyName name
  let (dirsector, filename) ← FileSystem.findDir filename
  if dirsector = -1 then return none
  else
  let dirfile ← OpenFile.create dirsector
  let directory ← directory.fetchFrom dirfile
  let sector := directory.find filename
  if sector ≥ 0 then
    let openfile ← OpenFile.create sector
    if openfile.isDir then return none
    else
    let newfile ← OpenFile.create sector
    return some (⟨name, { openfile with name := name }, 1, false, sector⟩,
      { newfile with name := name })
  else return none

/-- `Open` of a name that is not in the table, once there has been a free slot. -/
def enter (name : List Byte) : Prog World (Option OpenFile) := do
  let r ← lookUp name
  match r with
  | some (entry, newfile) => do
      Prog.modify fun w => w.insert entry
      return some newfile
  | none => return none

/-- Another handle of the file at `sector`. -/
def handle (name : List Byte) (sector : Int) : Prog World (Option OpenFile) := do
  let newfile ← OpenFile.create sector
  return some { newfile with name := name }

end OpenFileTable

open OpenFileTable in
/-- `OpenFileTable::Open`. -/
def OpenFileTable.open (name : List Byte) : Prog World (Option OpenFile) := do
  let w ← Prog.read
  match w.findl name with
  | some num => do
      let e ← Prog.ofOption (w.table num)
      if e.ToBeDeleted = false then do
        Prog.modify fun w => w.setEntry num (some { e with numthread := e.numthread + 1 })
        handle name e.sector
      else return none
  | none =>
      if w.nbentry ≠ -1 then enter name else return none

/-- `delete table[num]; table[num] = NULL;` -/
def OpenFileTable.takeOut (num : Nat) (e : OpenFileTableEntry) : Prog World Unit := do
  e.delete
  Prog.modify fun w => w.setEntry num none

open OpenFileTable in
/-- `OpenFileTable::Close`. -/
def OpenFileTable.close (name : List Byte) : Prog World Unit := do
  let w ← Prog.read
  match w.findl name with
  | some num => do
      let e ← Prog.ofOption (w.table num)
      let e := { e with numthread := e.numthread - 1 }
      Prog.modify fun w => w.setEntry num (some e)
      if e.numthread ≤ 0 then takeOut num e else return ()
  | none => return ()

/-- `OpenFileTable::Remove`. -/
def OpenFileTable.remove (name : List Byte) : Prog World MsgError := do
  let directory ← Directory.create
  let filename ← FileSystem.copyName name
  let (dirsector, filename) ← FileSystem.findDir filename
  if dirsector = -1 then return .InexistFileError
  else
  let dirfile ← OpenFile.create dirsector
  let directory ← directory.fetchFrom dirfile
  let sector := directory.find filename
  if sector = -1 then return .InexistFileError
  else
  let w ← Prog.read
  match w.findl name with
  | some num => do
      let e ← Prog.ofOption (w.table num)
      Prog.modify fun w => w.setEntry num (some { e with ToBeDeleted := true })
      let (_, directory) := directory.remove filename
      let _ ← directory.writeBack dirfile
      return .NoError
  | none => FileSystem.remove name

end Nachos
