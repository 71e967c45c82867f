/-
  Nachos.Filesys.FileSys

  `filesys/filesys.cc`: resolving a path, formatting the disk, and the calls that
  create and remove files and directories.  A path is a string; it must fit in an
  array of `MaxFileNameSize` characters with its terminating zero.
-/

import Nachos.Filesys.Directory

namespace Nachos

open Words Program Config

/-- The character `/`. -/
abbrev slash : Byte := 47

/-- `decompname`: the first element of the path and the remainder, `false` when
    there is no remainder; the path without its leading `/` is then left. -/
def decompname (path : List Byte) : Bool × List Byte × List Byte :=
  let path := path.dropWhile (· == slash)
  let head := path.takeWhile (· != slash)
  let tail := path.dropWhile (· != slash)
  if tail = [] then (false, head, path) else (true, head, tail)

theorem decompname_slash (s : List Byte) : decompname (slash :: s) = decompname s := by
  simp [decompname]

theorem decompname_cons {c : Byte} (hc : c ≠ slash) (s : List Byte) :
    decompname (c :: s) =
      if s.dropWhile (· != slash) = [] then (false, c :: s.takeWhile (· != slash), c :: s)
      else (true, c :: s.takeWhile (· != slash), s.dropWhile (· != slash)) := by
  have heq : (c == slash) = false := beq_false_of_ne hc
  have hne : (c != slash) = true := bne_iff_ne.mpr hc
  simp only [decompname, List.dropWhile_cons, List.takeWhile_cons, heq, hne, if_true,
    Bool.false_eq_true, if_false]

/-- The remainder is shorter: the first element is not empty. -/
theorem decompname_lt {path head tail : List Byte} (h : decompname path = (true, head, tail)) :
    tail.length < path.length := by
  induction path with
  | nil => cases h
  | cons c s ih =>
      by_cases hc : c = slash
      · rw [hc, decompname_slash] at h
        exact Nat.lt_succ_of_lt (ih h)
      · rw [decompname_cons hc] at h
        split at h
        · cases h
        · obtain rfl : s.dropWhile (· != slash) = tail := by
            simpa using congrArg (fun x => x.2.2) h
          have hle := (List.dropWhile_sublist (· != slash) (l := s)).length_le
          rw [List.length_cons]
          omega

variable [Config]

namespace FileSystem

/-- The loop of `FindDir`, with the directory that has been fetched last. -/
def findDirFrom (directory : Directory) (sector : Int) (name : List Byte) :
    Prog World (Int × List Byte) :=
  match h : decompname name with
  | (false, _, name) => pure (sector, name)
  | (true, dirname, tail) =>
      have := decompname_lt h
      let sector := directory.find dirname
      if sector < 0 then pure (-1, tail)
      else do
        let file ← OpenFile.create sector
        if file.hdr.isDir then
          let directory ← directory.fetchFrom file
          findDirFrom directory sector tail
        else pure (-1, tail)
termination_by name.length

/-- `FindDir`: the sector of the directory that contains the file, or -1; what is
    left in `name` is the last element of the path. -/
def findDir (name : List Byte) : Prog World (Int × List Byte) := do
  let directory ← Directory.create
  let w ← Prog.read
  let directory ← directory.fetchFrom w.directoryFile
  findDirFrom directory DirectorySector name

/-- `strcpy` of a path to an array of `MaxFileNameSize` characters. -/
def copyName (name : List Byte) : Prog World (List Byte) := do
  Prog.assert (name.length < MaxFileNameSize)
  return name

/-- The handle and the contents of the directory with the header at `sector`. -/
def fetchDir (sector : Int) : Prog World (OpenFile × Directory) := do
  let dirfile ← OpenFile.create sector
  let directory ← Directory.create
  let directory ← directory.fetchFrom dirfile
  return (dirfile, directory)

/-- `createLock->Acquire()`: alone, a thread that waits for a held lock never
    returns. -/
def acquire : Prog World Unit := do
  let w ← Prog.read
  Prog.assert (w.createLock = false)
  Prog.modify fun w => { w with createLock := true }

/-- `createLock->Release()`. -/
def release : Prog World Unit := Prog.modify fun w => { w with createLock := false }

/-- The second half of `FileSystem::FileSystem(true)`: the two headers, then the two
    files, are stored. -/
def storeRoot (mapHdr dirHdr : FileHeader) (freeMap : BitMap) (directory : Directory) :
    Prog World Unit := do
  mapHdr.writeBack FreeMapSector
  dirHdr.writeBack DirectorySector
  let freeMapFile ← OpenFile.create FreeMapSector
  let directoryFile ← OpenFile.create DirectorySector
  Prog.modify fun w => { w with freeMapFile := freeMapFile }
  freeMap.writeBack
  let directoryFile ← directory.writeBack directoryFile
  Prog.modify fun w => { w with directoryFile := directoryFile }

/-- `FileSystem::FileSystem(true)`. -/
def format : Prog World Unit := do
  let freeMap ← BitMap.new
  let directory ← Directory.create
  let mapHdr ← FileHeader.create
  let dirHdr ← FileHeader.create
  let freeMap ← Prog.ofOption (freeMap.mark FreeMapSector)
  let freeMap ← Prog.ofOption (freeMap.mark DirectorySector)
  let (ok, mapHdr, freeMap) ← mapHdr.allocate freeMap FreeMapFileSize
  Prog.assert (ok = true)
  let (ok, dirHdr, freeMap) ← dirHdr.allocate freeMap Directory.DirectoryFileSize
  Prog.assert (ok = true)
  storeRoot mapHdr dirHdr.setDir freeMap directory

/-- `FileSystem::FileSystem(false)`. -/
def mount : Prog World Unit := do
  let freeMapFile ← OpenFile.create FreeMapSector
  Prog.modify fun w => { w with freeMapFile := freeMapFile }
  let directoryFile ← OpenFile.create DirectorySector
  Prog.modify fun w => { w with directoryFile := directoryFile }

/-- `FileSystem::Create`. -/
def create (name : List Byte) (initialSize : Int) : Prog World MsgError := do
  acquire
  let dirname ← copyName name
  let (dirsector, dirname) ← findDir dirname
  if dirsector = -1 then do
    release
    return .InexistFileError
  else
  let (dirfile, directory) ← fetchDir dirsector
  if directory.find dirname ≠ -1 then do
    release
    return .AlreadyInDirectory
  else
  let freeMap ← BitMap.fetchFreeMap
  let (sector, freeMap) := freeMap.find
  if sector = -1 then do
    release
    return .OutOfDisk
  else
  let (addResult, directory) := directory.add dirname sector
  if addResult ≠ .NoError then do
    release
    return addResult
  else
  let hdr ← FileHeader.create
  let hdr := hdr.setFile
  let (ok, hdr, freeMap) ← hdr.allocate freeMap initialSize
  if ok = false then do
    release
    return .OutOfDisk
  else
  hdr.writeBack sector
  let _ ← directory.writeBack dirfile
  freeMap.writeBack
  release
  return .NoError

/-- The last part of `Remove` and of `Rmdir`: the sectors of the file are freed, and
    its entry is removed from the directory. -/
def erase (hdr : FileHeader) (sector : Int) (directory : Directory) (name : List Byte)
    (dirfile : OpenFile) : Prog World MsgError := do
  let freeMap ← BitMap.fetchFreeMap
  let freeMap ← Prog.ofOption (hdr.deallocate freeMap)
  let freeMap ← Prog.ofOption (freeMap.clear sector)
  let (_, directory) := directory.remove name
  freeMap.writeBack
  let _ ← directory.writeBack dirfile
  return .NoError

/-- `FileSystem::Remove`. -/
def remove (name : List Byte) : Prog World MsgError := do
  let dirname ← copyName name
  let (dirsector, dirname) ← findDir dirname
  if dirsector = -1 then return .InexistDirectoryError
  else
  let (dirfile, directory) ← fetchDir dirsector
  let sector := directory.find dirname
  if sector = -1 then return .InexistFileError
  else
  let fileHdr ← FileHeader.create
  let fileHdr ← fileHdr.fetchFrom sector
  if fileHdr.isDir = true then return .NotAFile
  else
  erase fileHdr sector directory dirname dirfile

/-- `FileSystem::Mkdir`. -/
def mkdir (dirname : List Byte) : Prog World MsgError := do
  let name ← copyName dirname
  let (parentsect, name) ← findDir name
  if parentsect < 0 then return .InexistDirectoryError
  else
  let (parentdirfile, parentdir) ← fetchDir parentsect
  if parentdir.find name ≥ 0 then return .AlreadyInDirectory
  else
  let freeMap ← BitMap.fetchFreeMap
  let (hdrSect, freeMap) := freeMap.find
  if hdrSect < 0 then return .OutOfDisk
  else
  let hdr ← FileHeader.create
  let (ok, hdr, freeMap) ← hdr.allocate freeMap Directory.DirectoryFileSize
  if ok = false then return .OutOfDisk
  else
  let (addResult, parentdir) := parentdir.add name hdrSect
  if addResult ≠ .NoError then return addResult
  else
  let hdr := hdr.setDir
  hdr.writeBack hdrSect
  let newdirfile ← OpenFile.create hdrSect
  let newdir ← Directory.create
  let _ ← newdir.writeBack newdirfile
  let _ ← parentdir.writeBack parentdirfile
  freeMap.writeBack
  return .NoError

/-- `FileSystem::Rmdir`. -/
def rmdir (dirname : List Byte) : Prog World MsgError := do
  let name ← copyName dirname
  let (parentsect, name) ← findDir name
  if parentsect < 0 then return .InexistDirectoryError
  else
  let (parentdirfile, parentdir) ← fetchDir parentsect
  let thedirsect := parentdir.find name
  if thedirsect < 0 then return .InexistDirectoryError
  else
  let thedirheader ← FileHeader.create
  let thedirheader ← thedirheader.fetchFrom thedirsect
  if thedirheader.isDir = false then return .NotADirectory
  else
  let (_, thedir) ← fetchDir thedirsect
  if thedir.empty = false then return .DirectoryNotEmpty
  else
  erase thedirheader thedirsect parentdir name parentdirfile

end FileSystem

end Nachos
