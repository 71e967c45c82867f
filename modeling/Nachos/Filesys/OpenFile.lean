/-
  Nachos.Filesys.OpenFile

  `filesys/openfile.cc`: reading and writing the bytes of a file through a handle,
  which has its own copy of the file's header; and the free map in the file that
  holds it.  A read returns the bytes it copies, a write the number of bytes
  written and the handle, whose header may have changed.
-/

import Nachos.Filesys.FileHdr

namespace Nachos

open Words Program Config

variable [Config]

namespace OpenFile

/-- `OpenFile::OpenFile`. -/
def create (sector : Int) : Prog World OpenFile := do
  let hdr ← FileHeader.create
  let hdr ← hdr.fetchFrom sector
  return ⟨[], hdr, 0, sector⟩

/-- The sectors `firstSector` to `firstSector + n` of the file, one after the
    other. -/
def readSectors (file : OpenFile) (firstSector n : Nat) (buf : Nat → Byte) :
    Prog World (Nat → Byte) :=
  Prog.forRange n buf fun i buf => do
    let sector ← Prog.ofOption (file.hdr.byteToSector ((firstSector + i) * SectorSize))
    let data ← readSector sector
    return copyInto buf (i * SectorSize) SectorSize data

/-- Write them back. -/
def writeSectors (file : OpenFile) (firstSector n : Nat) (buf : Nat → Byte) : Prog World Unit :=
  Prog.forRange n () fun i _ => do
    let sector ← Prog.ofOption (file.hdr.byteToSector ((firstSector + i) * SectorSize))
    writeSector sector fun j => buf (i * SectorSize + j)

/-- `OpenFile::ReadAt`.  The copy from the buffer is undefined when the position
    is negative. -/
def readAt (file : OpenFile) (numBytes position : Int) : Prog World (List Byte) := do
  let fileLength := file.hdr.fileLength
  if numBytes ≤ 0 ∨ position ≥ fileLength then return []
  else
    let numBytes := if position + numBytes > fileLength then fileLength - position else numBytes
    Prog.assert (0 ≤ position)
    let firstSector := divRoundDown position SectorSize
    let lastSector := divRoundDown (position + numBytes - 1) SectorSize
    let numSectors := 1 + lastSector - firstSector
    let buf ← newArray
    let buf ← file.readSectors firstSector.toNat numSectors.toNat buf
    let off := position - firstSector * SectorSize
    return (List.range numBytes.toNat).map fun j => buf (off.toNat + j)

/-- The bytes a read returned, copied into an array. -/
def putBytes (dst : Nat → Byte) (base : Nat) (bytes : List Byte) : Nat → Byte :=
  copyInto dst base bytes.length fun i => bytes.getD i 0

/-- Read the sector at `position` into an array. -/
def readInto (file : OpenFile) (buf : Nat → Byte) (base : Nat) (position : Int) :
    Prog World (Nat → Byte) := do
  let bytes ← file.readAt SectorSize position
  return putBytes buf base bytes

/-- The last part of `WriteAt`, once the file is long enough. -/
def writeData (file : OpenFile) (source : Nat → Byte) (numBytes position : Int) :
    Prog World Unit := do
  Prog.assert (0 ≤ position)
  let firstSector := divRoundDown position SectorSize
  let lastSector := divRoundDown (position + numBytes - 1) SectorSize
  let numSectors := 1 + lastSector - firstSector
  let buf ← newArray
  let firstAligned := position = firstSector * SectorSize
  let lastAligned := position + numBytes = (lastSector + 1) * SectorSize
  -- Read in the first and the last sector, if they are partially modified.
  let buf ← (if ¬ firstAligned then file.readInto buf 0 (firstSector * SectorSize) else pure buf)
  let buf ← (if ¬ lastAligned ∧ (firstSector ≠ lastSector ∨ firstAligned) then
    file.readInto buf ((lastSector - firstSector) * SectorSize).toNat (lastSector * SectorSize)
    else pure buf)
  let off := position - firstSector * SectorSize
  let buf := copyInto buf off.toNat numBytes.toNat source
  file.writeSectors firstSector.toNat numSectors.toNat buf

/-- `OpenFile::WriteAt`, over the functions that fetch the free map and write it
    back. -/
def writeAtWith (fetchMap : Prog World BitMap) (writeMap : BitMap → Prog World Unit)
    (file : OpenFile) (source : Nat → Byte) (numBytes position : Int) :
    Prog World (Int × OpenFile) := do
  let fileLength := file.hdr.fileLength
  let maxFileLength := file.hdr.maxFileLength
  if numBytes ≤ 0 ∨ position > fileLength then return (0, file)
  else if position + numBytes > maxFileLength then
    let freeMap ← fetchMap
    let (ok, hdr, freeMap) ← file.hdr.reAllocate freeMap (position + numBytes)
    let file := { file with hdr := hdr }
    if ok then
      hdr.writeBack file.fSector
      writeMap freeMap
      file.writeData source numBytes position
      return (numBytes, file)
    else
      let numBytes := fileLength - position
      file.writeData source numBytes position
      return (numBytes, file)
  else if position + numBytes > fileLength then
    let hdr ← Prog.ofOption (file.hdr.changeFileLength (position + numBytes))
    let file := { file with hdr := hdr }
    file.writeData source numBytes position
    return (numBytes, file)
  else
    file.writeData source numBytes position
    return (numBytes, file)

end OpenFile

namespace BitMap

/-- `new BitMap(NUM_SECTORS)`. -/
def new : Prog World BitMap := do
  let words ← newArray
  return create NUM_SECTORS (word words)

/-- `BitMap::FetchFrom`. -/
def fetchFrom (m : BitMap) (file : OpenFile) : Prog World BitMap := do
  let numWords := divRoundUp m.numBits 32
  let bytes ← file.readAt (numWords * 4) 0
  return { m with map := word (OpenFile.putBytes (byte m.map) 0 bytes) }

/-- The free map, in a `BitMap` of its own. -/
def fetchFreeMap : Prog World BitMap := do
  let m ← new
  let w ← Prog.read
  m.fetchFrom w.freeMapFile

/-- `BitMap::WriteBack` to the free-map file.  That file has its full size from
    the format on, so a write to it never looks for more sectors. -/
def writeBack (m : BitMap) : Prog World Unit := do
  let w ← Prog.read
  let (_, file) ← OpenFile.writeAtWith Prog.abort (fun _ => Prog.abort) w.freeMapFile
    (byte m.map) (divRoundUp m.numBits 32 * 4) 0
  Prog.modify fun w => { w with freeMapFile := file }

end BitMap

namespace OpenFile

/-- `OpenFile::WriteAt`. -/
def writeAt (file : OpenFile) (source : Nat → Byte) (numBytes position : Int) :
    Prog World (Int × OpenFile) :=
  writeAtWith BitMap.fetchFreeMap BitMap.writeBack file source numBytes position

/-- `OpenFile::Seek`. -/
def seek (file : OpenFile) (position : Int) : OpenFile := { file with seekPosition := position }

/-- `OpenFile::Read`. -/
def read (file : OpenFile) (numBytes : Int) : Prog World (List Byte × OpenFile) := do
  let bytes ← file.readAt numBytes file.seekPosition
  return (bytes, { file with seekPosition := file.seekPosition + bytes.length })

/-- `OpenFile::Write`. -/
def write (file : OpenFile) (source : Nat → Byte) (numBytes : Int) :
    Prog World (Int × OpenFile) := do
  let (result, file) ← file.writeAt source numBytes file.seekPosition
  return (result, { file with seekPosition := file.seekPosition + result })

/-- `OpenFile::Length`. -/
def length (file : OpenFile) : Int := file.hdr.fileLength

/-- `OpenFile::IsDir`. -/
def isDir (file : OpenFile) : Bool := file.hdr.isDir

end OpenFile

end Nachos
