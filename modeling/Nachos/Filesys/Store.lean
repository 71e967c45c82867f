/-
  Nachos.Filesys.Store

  What the file system is for: a finite tree of names whose leaves hold bytes, and which
  outlives the machine.  A request changes the node under its own path and no other.  The
  answers follow from the tree alone; only the bytes of a new file are left open, because
  nothing has been written to them yet.
-/

import Nachos.Lib.ArrayFile
import Nachos.Filesys.Growth
import Nachos.Filesys.Space

namespace Nachos

open Words Program Config
open ArrayFile (overwrite)

/-- A directory, or the bytes of a file. -/
inductive Item
  | dir
  | file (bytes : List Byte)
  deriving DecidableEq

/-- The node without its bytes. -/
def Item.node : Item → Node
  | dir => .dir
  | file bytes => .file bytes.length

/-- A finite tree of names with the bytes of the files. -/
abbrev Store := NameTree (List Byte) Item .dir

/-- The place of a path in the tree. -/
abbrev placeOf (name : List Byte) : List (List Byte) := dirKeys name ++ [lastKey name]

/-- What can be asked of the file system.  A read and a write open the file and close it again;
    a reboot keeps the disk, and the memory holds anything afterwards. -/
inductive Demand
  | call (c : Call)
  | write (name data : List Byte) (position : Nat)
  | read (name : List Byte) (numBytes position : Nat)
  | reboot (heap : Nat → Nat → Byte)

inductive Answer
  | result (e : MsgError)
  | noFile
  | count (n : Int)
  | data (bytes : List Byte)
  | ready
  deriving DecidableEq

variable [Config]

/-- What the disk keeps of a write to a file with the bytes `a`: a growth that fits in the last
    sector of the file is in the memory of the handle alone. -/
def written (a data : List Byte) (p : Nat) : List Byte :=
  if p ≤ a.length then
    if sectorCount a.length * SectorSize < p + data.length then overwrite a data p
    else (overwrite a data p).take a.length
  else a

namespace Store

/-- The tree of names, without the bytes. -/
def names (t : Store) : FileTree := NameTree.map t Item.node

/-- The clear sectors of a disk that holds the tree. -/
noncomputable def free (t : Store) : Nat :=
  NUM_SECTORS - (cells FreeMapFileSize +
    ∑ p ∈ t.finite.toFinset, ((t.node p).map fun i => cells i.node.length).getD 0)

/-- The path leads to a file with these bytes. -/
def Has (t : Store) (name bytes : List Byte) : Prop := t.node (placeOf name) = some (.file bytes)

omit [Config] in
theorem Has.ne_none {t : Store} {name bytes : List Byte} (h : t.Has name bytes) :
    t.node (placeOf name) ≠ none := fun hn => by
  cases h.symm.trans hn

omit [Config] in
theorem Has.ne_dir {t : Store} {name bytes : List Byte} (h : t.Has name bytes) :
    t.node (placeOf name) ≠ some .dir := fun hn => by
  cases h.symm.trans hn

omit [Config] in
theorem Has.unique {t : Store} {name bytes bytes' : List Byte} (h : t.Has name bytes)
    (h' : t.Has name bytes') : bytes' = bytes := Item.file.inj (Option.some.inj (h'.symm.trans h))

/-- A path is a string that fits its array, and a size is that of a file.  A file grows within
    `MAX_FILE_LENGTH`, when there are the sectors, and in the chain that its header has; the end
    of what is read is an `int`. -/
def Legal (t : Store) : Demand → Prop
  | .call c => c.Legal ∧ ∀ name size, c = .create name size → 0 ≤ size
  | .write name data p => name.length < MaxFileNameSize ∧
      ∀ bytes, t.Has name bytes → p ≤ bytes.length → p + data.length ≤ MAX_FILE_LENGTH ∧
        (sectorCount bytes.length * SectorSize < p + data.length →
          sectorCount (p + data.length) - sectorCount bytes.length ≤ t.free ∧
          chainLength (sectorCount (p + data.length)) = chainLength (sectorCount bytes.length))
  | .read name n p => name.length < MaxFileNameSize ∧
      ∀ bytes, t.Has name bytes → p < bytes.length → InInt ((p : Int) + n)
  | .reboot _ => True

/-- What a request may answer and leave. -/
inductive Serves (t : Store) : Demand → Answer → Store → Prop
  | done {c : Call} {item : Option Item} {t' : Store} (h : t.names.Allowed t.free c)
      (hnode : item.map Item.node = c.node)
      (ht : t'.node = Function.update t.node (placeOf c.path) item) :
      Serves t (.call c) (.result .NoError) t'
  | refused {c : Call} {e : MsgError} (h : ¬ t.names.Allowed t.free c) (he : e ≠ .NoError) :
      Serves t (.call c) (.result e) t
  | write {name data bytes : List Byte} {p : Nat} (h : t.Has name bytes) :
      Serves t (.write name data p) (.count (if p ≤ bytes.length then data.length else 0))
        (t.replace (placeOf name) (.file (written bytes data p)) h.ne_none h.ne_dir)
  | read {name bytes : List Byte} {n p : Nat} (h : t.Has name bytes) :
      Serves t (.read name n p) (.data ((bytes.drop p).take n)) t
  | writeNothing {name data : List Byte} {p : Nat} (h : ∀ bytes, ¬ t.Has name bytes) :
      Serves t (.write name data p) .noFile t
  | readNothing {name : List Byte} {n p : Nat} (h : ∀ bytes, ¬ t.Has name bytes) :
      Serves t (.read name n p) .noFile t
  | reboot {heap : Nat → Nat → Byte} : Serves t (.reboot heap) .ready t

namespace Serves

variable {t t' : Store} {a : Answer} {name bytes : List Byte}

/-- A call that is allowed succeeds. -/
theorem call {c : Call} (h : t.Serves (.call c) a t') (ha : t.names.Allowed t.free c) :
    a = .result .NoError ∧ ∃ item, Option.map Item.node item = c.node ∧
      t'.node = Function.update t.node (placeOf c.path) item := by
  cases h with
  | done _ hnode ht => exact ⟨rfl, _, hnode, ht⟩
  | refused hnot _ => exact absurd ha hnot

/-- A write to a file that is there. -/
theorem write_has {data : List Byte} {p : Nat} (h : t.Serves (.write name data p) a t')
    (hb : t.Has name bytes) :
    a = .count (if p ≤ bytes.length then data.length else 0) ∧
      t'.Has name (written bytes data p) := by
  cases h with
  | write hb' =>
      obtain rfl := hb.unique hb'
      exact ⟨rfl, Function.update_self _ _ _⟩
  | writeNothing hnot => exact absurd hb (hnot _)

/-- A read of a file that is there. -/
theorem read_has {n p : Nat} (h : t.Serves (.read name n p) a t') (hb : t.Has name bytes) :
    a = .data ((bytes.drop p).take n) ∧ t' = t := by
  cases h with
  | read hb' =>
      obtain rfl := hb.unique hb'
      exact ⟨rfl, rfl⟩
  | readNothing hnot => exact absurd hb (hnot _)

theorem ready {heap : Nat → Nat → Byte} (h : t.Serves (.reboot heap) a t') :
    a = .ready ∧ t' = t := by
  cases h
  exact ⟨rfl, rfl⟩

end Serves

/-- A sequence of requests with its answers, from the tree with the root alone. -/
inductive Served : List Demand → List Answer → Store → Prop
  | nil : Served [] [] (NameTree.empty (List Byte) Item.dir)
  | snoc {requests : List Demand} {answers : List Answer} {t t' : Store} {q : Demand}
      {a : Answer} (h : Served requests answers t) (hs : t.Serves q a t') :
      Served (requests ++ [q]) (answers ++ [a]) t'

end Store

end Nachos
