/-
  Nachos.Filesys.FileHdr

  `filesys/filehdr.cc`.  A header is a first sector and a chain of continuation
  sectors, each with the number of the next one in its last word; together they
  list the data sectors.  The functions `intAt`, `contAt` and `dataAt` read the
  fields and the two lists off a disk; `WriteBack` is described by what they read
  afterwards, `FetchFrom` by what they read before.
-/

import Nachos.Filesys.BitMap

namespace Nachos

open Words Program

/-- `memcpy`: the elements `base` to `base + n` of an array come from `src`. -/
def copyInto {α : Type} (dst : Nat → α) (base n : Nat) (src : Nat → α) : Nat → α :=
  fun k => if base ≤ k ∧ k < base + n then src (k - base) else dst k

theorem copyInto_of_mem {α : Type} {d f : Nat → α} {b n k : Nat} (h : k < n) :
    copyInto d b n f (b + k) = f k := by
  have hm : b ≤ b + k ∧ b + k < b + n := by omega
  simp [copyInto, hm.2]

theorem copyInto_of_lt {α : Type} {dst src : Nat → α} {base n k : Nat} (h : k < base) :
    copyInto dst base n src k = dst k := by
  have hm : ¬ (base ≤ k ∧ k < base + n) := by omega
  simp only [copyInto, hm, if_false]

section

variable [Config]

open Config

/-- The data sectors listed in the first sector of a header. -/
def datasInFirstSector : Nat := (SectorSize - 5 * 4) / 4

/-- The data sectors listed in a continuation sector. -/
def datasInSector : Nat := (SectorSize - 1 * 4) / 4

/-- The word that holds the number of the next header sector. -/
def nextHeaderSector : Nat := SectorSize / 4 - 1

def MAX_HEADER_SECTORS : Nat := 32

def MAX_DATA_SECTORS : Nat := (MAX_HEADER_SECTORS - 1) * datasInSector + datasInFirstSector

def MAX_FILE_LENGTH : Nat := MAX_DATA_SECTORS * SectorSize

/-- The sizes in terms of the words of a sector. -/
theorem sizes :
    SectorSize = 4 * datasInSector + 4 ∧ datasInFirstSector + 4 = datasInSector ∧
      nextHeaderSector = datasInSector ∧ 7 ≤ datasInSector ∧ datasInSector ≤ 2047 := by
  obtain ⟨k, hlo, hhi, hk⟩ := powerOfTwo
  have h32 : ∃ m, SectorSize = 32 * m := ⟨2 ^ (k - 5), by
    rw [hk, show (32 : Nat) = 2 ^ 5 from rfl, ← Nat.pow_add, Nat.add_sub_cancel' hlo]⟩
  have hle : SectorSize ≤ 8192 := by
    rw [hk, show (8192 : Nat) = 2 ^ 13 from rfl]
    exact Nat.pow_le_pow_right (by decide) hhi
  have hpos : 32 ≤ SectorSize := by
    rw [hk, show (32 : Nat) = 2 ^ 5 from rfl]
    exact Nat.pow_le_pow_right (by decide) hlo
  obtain ⟨m, hm⟩ := h32
  unfold datasInFirstSector datasInSector nextHeaderSector
  omega

theorem SectorSize_pos : 0 < SectorSize := by
  have := sizes
  omega

theorem SectorSize_pos_int : (0 : Int) < SectorSize := Int.natCast_pos.mpr SectorSize_pos

theorem datasInSector_pos : 0 < datasInSector := by
  have := sizes
  omega

theorem MAX_DATA_SECTORS_eq :
    MAX_DATA_SECTORS = datasInFirstSector + 31 * datasInSector := by
  unfold MAX_DATA_SECTORS MAX_HEADER_SECTORS
  omega

theorem MAX_FILE_LENGTH_le : MAX_FILE_LENGTH ≤ 65500 * 8192 := by
  obtain ⟨hss, hf, -, -, hd⟩ := sizes
  have h1 : MAX_DATA_SECTORS ≤ 65500 := by
    rw [MAX_DATA_SECTORS_eq]
    omega
  exact Nat.mul_le_mul h1 (by omega)

/-- A file length is an `int`. -/
theorem MAX_FILE_LENGTH_lt : MAX_FILE_LENGTH < 2147483648 := by
  have := MAX_FILE_LENGTH_le
  omega

namespace FileHeader

/-- The fields of a new header hold what the memory holds. -/
def create : Prog World FileHeader := do
  let m ← newArray
  return ⟨int m 0, int m 1, int m 2, fun _ => 0, int m 3, fun i => int m (4 + i)⟩

/-- The loops that fill a table of sectors: `sectors[base + i] = freeMap->Find()`
    for `i < n`. -/
def allocSectors (base : Nat) : Nat → (Nat → Int) → BitMap → (Nat → Int) × BitMap
  | 0, sectors, freeMap => (sectors, freeMap)
  | n + 1, sectors, freeMap =>
      let r := allocSectors base n sectors freeMap
      let f := r.2.find
      (Function.update r.1 (base + n) f.1, f.2)

/-- `FileHeader::Allocate`. -/
def allocate (hdr : FileHeader) (freeMap : BitMap) (fileSize : Int) :
    Prog World (Bool × FileHeader × BitMap) := do
  Prog.assert (fileSize ≤ MAX_FILE_LENGTH)
  let numSectors := divRoundUp fileSize SectorSize
  let numHeaderSectors := divRoundUp (numSectors - datasInFirstSector) datasInSector
  let hdr := { hdr with
    numBytes := fileSize, numSectors := numSectors, numHeaderSectors := numHeaderSectors }
  if (freeMap.numClear : Int) < numSectors + numHeaderSectors then
    return (false, hdr, freeMap)
  else
    let (headerSectors, freeMap) :=
      allocSectors 0 numHeaderSectors.toNat hdr.headerSectors freeMap
    let table ← newArray
    let (dataSectors, freeMap) := allocSectors 0 numSectors.toNat (int table) freeMap
    return (true, { hdr with headerSectors := headerSectors, dataSectors := dataSectors }, freeMap)

/-- `FileHeader::reAllocate`.  The number of continuation sectors is computed from
    `numSectors` before the new data sectors are added to it. -/
def reAllocate (hdr : FileHeader) (freeMap : BitMap) (newFileSize : Int) :
    Prog World (Bool × FileHeader × BitMap) := do
  let newnumSectors := divRoundUp newFileSize SectorSize - hdr.numSectors
  let hdr := { hdr with numBytes := newFileSize }
  let newnumHeaderSectors :=
    divRoundUp (hdr.numSectors - datasInFirstSector) datasInSector - hdr.numHeaderSectors
  Prog.assert (newFileSize ≤ MAX_FILE_LENGTH)
  if (freeMap.numClear : Int) < newnumSectors + newnumHeaderSectors then
    return (false, hdr, freeMap)
  else
    let (headerSectors, freeMap) := allocSectors hdr.numHeaderSectors.toNat
      newnumHeaderSectors.toNat hdr.headerSectors freeMap
    let (dataSectors, freeMap) := allocSectors hdr.numSectors.toNat
      newnumSectors.toNat hdr.dataSectors freeMap
    return (true,
      { hdr with
        headerSectors := headerSectors
        dataSectors := dataSectors
        numSectors := hdr.numSectors + newnumSectors
        numHeaderSectors := hdr.numHeaderSectors + newnumHeaderSectors }, freeMap)

/-- The loops of `Deallocate`: each of the first `n` sectors ought to be marked. -/
def clearSectors (sectors : Nat → Int) : Nat → BitMap → Option BitMap
  | 0, freeMap => some freeMap
  | n + 1, freeMap =>
      (clearSectors sectors n freeMap).bind fun freeMap =>
        if freeMap.test (sectors n) = some true then freeMap.clear (sectors n) else none

/-- `FileHeader::Deallocate`. -/
def deallocate (hdr : FileHeader) (freeMap : BitMap) : Option BitMap :=
  (clearSectors hdr.dataSectors hdr.numSectors.toNat freeMap).bind
    (clearSectors hdr.headerSectors hdr.numHeaderSectors.toNat)

/-- `FileHeader::FetchFrom`. -/
def fetchFrom (hdr : FileHeader) (sector : Int) : Prog World FileHeader := do
  let img ← readSector sector
  let table ← newArray
  let numHeaderSectors := int img 3
  Prog.assert (numHeaderSectors ≤ MAX_HEADER_SECTORS)
  let hdr : FileHeader :=
    { isdir := int img 0
      numBytes := int img 1
      numSectors := int img 2
      numHeaderSectors := numHeaderSectors
      headerSectors := Function.update hdr.headerSectors 0 (int img nextHeaderSector)
      dataSectors := copyInto (int table) 0 (datasInSector - 4) fun i => int img (4 + i) }
  Prog.forRange numHeaderSectors.toNat hdr fun i hdr => do
    let img ← readSector (hdr.headerSectors i)
    return { hdr with
      dataSectors := copyInto hdr.dataSectors (datasInFirstSector + i * datasInSector)
        datasInSector (int img)
      headerSectors := if (i : Int) + 1 < numHeaderSectors
        then Function.update hdr.headerSectors (i + 1) (int img nextHeaderSector)
        else hdr.headerSectors }

/-- The words of the first sector of a header. -/
def firstImage (hdr : FileHeader) (i : Nat) : Int :=
  if i = 0 then hdr.isdir
  else if i = 1 then hdr.numBytes
  else if i = 2 then hdr.numSectors
  else if i = 3 then hdr.numHeaderSectors
  else if i < datasInSector then hdr.dataSectors (i - 4)
  else if i = nextHeaderSector then hdr.headerSectors 0
  else 0

/-- The words of continuation sector `i`. -/
def image (hdr : FileHeader) (i : Nat) (j : Nat) : Int :=
  if j < datasInSector then hdr.dataSectors (j + datasInFirstSector + i * datasInSector)
  else if j = nextHeaderSector then
    if (i : Int) + 1 < hdr.numHeaderSectors then hdr.headerSectors (i + 1) else 0
  else 0

/-- `FileHeader::WriteBack`. -/
def writeBack (hdr : FileHeader) (sector : Int) : Prog World Unit := do
  writeSector sector (ofInts hdr.firstImage)
  Prog.forRange hdr.numHeaderSectors.toNat () fun i _ =>
    writeSector (hdr.headerSectors i) (ofInts (hdr.image i))

/-- `FileHeader::ByteToSector`; the table has `MAX_DATA_SECTORS` elements. -/
def byteToSector (hdr : FileHeader) (offset : Int) : Option Int :=
  let i := offset.tdiv SectorSize
  if 0 ≤ i ∧ i < MAX_DATA_SECTORS then some (hdr.dataSectors i.toNat) else none

/-- `FileHeader::FileLength`. -/
def fileLength (hdr : FileHeader) : Int := hdr.numBytes

/-- `FileHeader::ChangeFileLength`. -/
def changeFileLength (hdr : FileHeader) (newsize : Int) : Option FileHeader :=
  if newsize ≤ MAX_FILE_LENGTH then some { hdr with numBytes := newsize } else none

/-- `FileHeader::MaxFileLength`. -/
def maxFileLength (hdr : FileHeader) : Int := hdr.numSectors * SectorSize

/-- `FileHeader::IsDir`. -/
def isDir (hdr : FileHeader) : Bool := hdr.isdir == 1

/-- `FileHeader::SetFile`. -/
def setFile (hdr : FileHeader) : FileHeader := { hdr with isdir := 0 }

/-- `FileHeader::SetDir`. -/
def setDir (hdr : FileHeader) : FileHeader := { hdr with isdir := 1 }

end FileHeader

/-! ## Reading a header off a disk -/

/-- Word `i` of sector `s`. -/
def intAt (d : Disk) (s i : Nat) : Int := int (d s) i

/-- The number of continuation sector `j` of the header at `s`. -/
def contAt (d : Disk) (s : Nat) : Nat → Int
  | 0 => intAt d s nextHeaderSector
  | j + 1 => intAt d (contAt d s j).toNat nextHeaderSector

/-- The number of data sector `i` of the header at `s`. -/
def dataAt (d : Disk) (s i : Nat) : Int :=
  if i < datasInFirstSector then intAt d s (4 + i)
  else intAt d (contAt d s ((i - datasInFirstSector) / datasInSector)).toNat
    ((i - datasInFirstSector) % datasInSector)

/-- The data sectors the header chain at `s` has room for. -/
def chainRoom (d : Disk) (s : Nat) : Nat := datasInFirstSector + (intAt d s 3).toNat * datasInSector

/-- A header in memory agrees with the one on disk at `s`, in its fields, its
    continuation sectors and the data sectors that the chain lists. -/
structure Loaded (d : Disk) (s : Nat) (hdr : FileHeader) : Prop where
  isdir : hdr.isdir = intAt d s 0
  numBytes : hdr.numBytes = intAt d s 1
  numSectors : hdr.numSectors = intAt d s 2
  numHeaderSectors : hdr.numHeaderSectors = intAt d s 3
  headerSectors : ∀ j < (intAt d s 3).toNat, hdr.headerSectors j = contAt d s j
  dataSectors : ∀ i < (intAt d s 2).toNat, i < chainRoom d s → hdr.dataSectors i = dataAt d s i

end

end Nachos
