/-
  Nachos.Filesys.Directory

  `filesys/directory.cc`: a table of entries, kept as the bytes of the array so
  that it can be read from a file and written to one as it is.  A string of the
  code is the list of its characters before the terminating zero.

  An entry takes 92 bytes: the flag `inUse` at 0, the word `sector` at 4 and the
  81 characters of `name` from 8 on.
-/

import Nachos.Filesys.OpenFile

namespace Nachos

open Words Program Config

abbrev FILENAMEMAXLEN : Nat := 80

/-- `sizeof(DirectoryEntry)`. -/
abbrev sizeofDirectoryEntry : Nat := 92

/-- The error codes of `msgerror.h` that the file system returns. -/
inductive MsgError
  | NoError
  | OutOfDisk
  | AlreadyInDirectory
  | InexistFileError
  | InexistDirectoryError
  | NoSpaceInDirectory
  | NotAFile
  | NotADirectory
  | DirectoryNotEmpty
  deriving DecidableEq, Repr

/-- `strncmp(a, b, n) == 0`; past the end of a list there are zeros. -/
def strncmpEq : Nat → List Byte → List Byte → Bool
  | 0, _, _ => true
  | n + 1, a, b =>
      if a.headD 0 ≠ b.headD 0 then false
      else if a.headD 0 = 0 then true
      else strncmpEq n a.tail b.tail

/-- `strncpy`: `n` bytes from `base` on, padded with zeros. -/
def strncpy (dst : Nat → Byte) (base n : Nat) (src : List Byte) : Nat → Byte :=
  copyInto dst base n fun j => src.getD j 0

structure Directory where
  tableSize : Nat
  table : Nat → Byte

namespace Directory

/-- `table[i].inUse`. -/
def inUse (dir : Directory) (i : Nat) : Bool := dir.table (92 * i) != 0

/-- `table[i].sector`. -/
def sector (dir : Directory) (i : Nat) : Int := int dir.table (23 * i + 1)

/-- `table[i].name`. -/
def name (dir : Directory) (i : Nat) : List Byte :=
  (List.range (FILENAMEMAXLEN + 1)).map fun j => dir.table (92 * i + 8 + j)

/-- `table[i].inUse = b`. -/
def setInUse (dir : Directory) (i : Nat) (b : Bool) : Directory :=
  { dir with
    table := copyInto dir.table (92 * i) 1 fun _ => if b then 1 else 0 }

/-- `table[i].sector = newSector`. -/
def setSector (dir : Directory) (i : Nat) (newSector : Int) : Directory :=
  { dir with
    table := copyInto dir.table (92 * i + 4) 4 (ofInts fun _ => newSector) }

/-- `strncpy(table[i].name, name, FILENAMEMAXLEN)`. -/
def setName (dir : Directory) (i : Nat) (name : List Byte) : Directory :=
  { dir with table := strncpy dir.table (92 * i + 8) FILENAMEMAXLEN name }

/-- The loop of `Directory::Directory`. -/
def clearFirst (dir : Directory) : Nat → Directory
  | 0 => dir
  | n + 1 => (dir.clearFirst n).setInUse n false

/-- `Directory::FindIndex`; `none` for -1. -/
def findIndex (dir : Directory) (name : List Byte) : Option Nat :=
  (List.range dir.tableSize).find? fun i =>
    dir.inUse i && strncmpEq FILENAMEMAXLEN (dir.name i) name

/-- `Directory::Find`. -/
def find (dir : Directory) (name : List Byte) : Int :=
  match dir.findIndex name with
  | some i => dir.sector i
  | none => -1

/-- `Directory::Add`. -/
def add (dir : Directory) (name : List Byte) (newSector : Int) : MsgError × Directory :=
  if (dir.findIndex name).isSome then (.AlreadyInDirectory, dir)
  else match (List.range dir.tableSize).find? fun i => !dir.inUse i with
    | some i => (.NoError, ((dir.setInUse i true).setName i name).setSector i newSector)
    | none => (.NoSpaceInDirectory, dir)

/-- `Directory::Remove`. -/
def remove (dir : Directory) (name : List Byte) : MsgError × Directory :=
  match dir.findIndex name with
  | none => (.InexistDirectoryError, dir)
  | some i => (.NoError, dir.setInUse i false)

/-- `Directory::empty`. -/
def empty (dir : Directory) : Bool := (List.range dir.tableSize).all fun i => !dir.inUse i

section

variable [Config]

/-- `g_cfg->DirectoryFileSize`. -/
def DirectoryFileSize : Nat := sizeofDirectoryEntry * NumDirEntries

/-- `Directory::Directory`, for `g_cfg->NumDirEntries` entries. -/
def create : Prog World Directory := do
  let table ← newArray
  return (Directory.mk NumDirEntries table).clearFirst NumDirEntries

/-- `Directory::FetchFrom`. -/
def fetchFrom (dir : Directory) (file : OpenFile) : Prog World Directory := do
  let bytes ← file.readAt (dir.tableSize * sizeofDirectoryEntry) 0
  return { dir with table := OpenFile.putBytes dir.table 0 bytes }

/-- `Directory::WriteBack`. -/
def writeBack (dir : Directory) (file : OpenFile) : Prog World OpenFile := do
  let (_, file) ← file.writeAt dir.table (dir.tableSize * sizeofDirectoryEntry) 0
  return file

end

end Directory

end Nachos
