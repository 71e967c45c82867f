/-
  Nachos.Filesys.Disk

  The state the file system code works on, and the two accesses to the disk.

  A sector is an array of `SectorSize` bytes, given as a function of the index;
  what the function says past the end means nothing.  An `int` of the code is an
  `Int`; it is cut to 32 bits where it is stored in a sector.  Memory that the
  code allocates and does not initialize holds arbitrary bytes, `heap n` for the
  `n`-th allocation.
-/

import Mathlib.Algebra.Group.Nat.Defs
import Nachos.Lib.Prog
import Nachos.Lib.Words

namespace Nachos

open Words Program

abbrev Sector := Nat → Byte
abbrev Disk := Nat → Sector

/-- The part of the configuration `g_cfg` that the file system reads.  The code
    demands a power of two for the sector size; the bounds are those for which a
    header fits in a sector and a file length in an `int`. -/
class Config where
  SectorSize : Nat
  NumDirEntries : Nat
  MaxFileNameSize : Nat
  powerOfTwo : ∃ k, 5 ≤ k ∧ k ≤ 13 ∧ SectorSize = 2 ^ k

/-- The values that `Config::Config` starts from. -/
@[reducible] def Config.defaults : Config where
  SectorSize := 128
  NumDirEntries := 10
  MaxFileNameSize := 256
  powerOfTwo := ⟨7, by decide, by decide, rfl⟩

abbrev NUM_SECTORS : Nat := 2048

/-- The header of the file that holds the map of free sectors. -/
abbrev FreeMapSector : Nat := 0

/-- The header of the root directory. -/
abbrev DirectorySector : Nat := 1

/-- A bit for each sector. -/
abbrev FreeMapFileSize : Nat := NUM_SECTORS / 8

/-- `divRoundDown`, with the truncating division of the code. -/
def divRoundDown (n s : Int) : Int := n.tdiv s

def divRoundUp (n s : Int) : Int := n.tdiv s + if n.tmod s > 0 then 1 else 0

/-- Rounding up covers. -/
theorem le_divRoundUp_mul (x : Int) {s : Int} (hs : 0 < s) : x ≤ divRoundUp x s * s := by
  have hdiv := Int.mul_tdiv_add_tmod x s
  have hlt := Int.tmod_lt_of_pos x hs
  unfold divRoundUp
  rw [Int.mul_comm] at hdiv
  split
  · rw [Int.add_mul, Int.one_mul]
    omega
  · rw [Int.add_zero]
    omega

/-- Rounding up is the least number that covers. -/
theorem divRoundUp_le {x s k : Int} (hs : 0 < s) (hk : 0 ≤ k) (h : x ≤ k * s) :
    divRoundUp x s ≤ k := by
  have hdiv := Int.mul_tdiv_add_tmod x s
  rw [Int.mul_comm] at hdiv
  unfold divRoundUp
  split
  · rename_i hpos
    have hlt : x.tdiv s * s < k * s := by omega
    have := Int.lt_of_mul_lt_mul_right hlt (Int.le_of_lt hs)
    omega
  · rename_i hneg
    by_cases hx : 0 ≤ x
    · have hle : x.tdiv s * s ≤ k * s := by
        have := Int.tmod_nonneg s hx
        omega
      have := Int.le_of_mul_le_mul_right hle hs
      omega
    · have hle : x.tdiv s ≤ 0 := by
        rw [← Int.neg_neg x, Int.neg_tdiv]
        have := Int.tdiv_nonneg (show 0 ≤ -x by omega) (Int.le_of_lt hs)
        omega
      omega

theorem divRoundUp_nonpos {x s : Int} (hs : 0 < s) (h : x ≤ 0) : divRoundUp x s ≤ 0 :=
  divRoundUp_le hs (Int.le_refl 0) (by omega)

theorem divRoundUp_nonneg {x s : Int} (hs : 0 < s) (h : 0 ≤ x) : 0 ≤ divRoundUp x s := by
  have hle := le_divRoundUp_mul x hs
  by_cases hneg : divRoundUp x s < 0
  · have := Int.mul_neg_of_neg_of_pos hneg hs
    omega
  · omega

structure FileHeader where
  isdir : Int
  numBytes : Int
  numSectors : Int
  dataSectors : Nat → Int
  numHeaderSectors : Int
  headerSectors : Nat → Int

structure OpenFile where
  name : List Byte
  hdr : FileHeader
  seekPosition : Int
  fSector : Int

structure OpenFileTableEntry where
  name : List Byte
  file : OpenFile
  numthread : Int
  ToBeDeleted : Bool
  sector : Int

/-- The disk, the uninitialized memory, and the objects all the code shares. -/
structure World where
  disk : Disk
  heap : Nat → Nat → Byte
  allocs : Nat
  freeMapFile : OpenFile
  directoryFile : OpenFile
  /-- `createLock` is held. -/
  createLock : Bool
  table : Nat → Option OpenFileTableEntry
  nbentry : Int

/-- A machine with an erased disk. -/
def World.blank : World where
  disk := fun _ _ => 0
  heap := fun _ _ => 0
  allocs := 0
  freeMapFile := ⟨[], ⟨0, 0, 0, fun _ => 0, 0, fun _ => 0⟩, 0, 0⟩
  directoryFile := ⟨[], ⟨0, 0, 0, fun _ => 0, 0, fun _ => 0⟩, 0, 0⟩
  createLock := false
  table := fun _ => none
  nbentry := 0

/-- The bytes of a newly allocated array. -/
def newArray : Prog World (Nat → Byte) := do
  let w ← Prog.read
  Prog.modify fun w => { w with allocs := w.allocs + 1 }
  return w.heap w.allocs

/-- `DriverDisk::ReadSector`: other threads run while the request is served. -/
def readSector (sectorNumber : Int) : Prog World Sector := do
  Prog.yield
  Prog.assert (0 ≤ sectorNumber ∧ sectorNumber < NUM_SECTORS)
  let w ← Prog.read
  Prog.yield
  return w.disk sectorNumber.toNat

/-- `DriverDisk::WriteSector`. -/
def writeSector (sectorNumber : Int) (data : Sector) : Prog World Unit := do
  Prog.yield
  Prog.assert (0 ≤ sectorNumber ∧ sectorNumber < NUM_SECTORS)
  Prog.modify fun w =>
    { w with disk := fun s => if s = sectorNumber.toNat then data else w.disk s }
  Prog.yield

/-- Only memory has been allocated. -/
def OnlyAllocs (w w' : World) : Prop := ∃ n, w' = { w with allocs := n }

theorem OnlyAllocs.refl (w : World) : OnlyAllocs w w := ⟨w.allocs, rfl⟩

theorem OnlyAllocs.trans {w₁ w₂ w₃ : World} (h : OnlyAllocs w₁ w₂) (h' : OnlyAllocs w₂ w₃) :
    OnlyAllocs w₁ w₃ := by
  obtain ⟨n, rfl⟩ := h
  obtain ⟨n', rfl⟩ := h'
  exact ⟨n', rfl⟩

@[simp] theorem wp_newArray {Q : (Nat → Byte) → World → Prop} {w : World} :
    Prog.wp newArray Q w ↔ Q (w.heap w.allocs) { w with allocs := w.allocs + 1 } := by
  simp [newArray]

@[simp] theorem wp_readSector {s : Int} {Q : Sector → World → Prop} {w : World} :
    Prog.wp (readSector s) Q w ↔ (0 ≤ s ∧ s < NUM_SECTORS) ∧ Q (w.disk s.toNat) w := by
  simp [readSector]

@[simp] theorem wp_writeSector {s : Int} {data : Sector} {Q : Unit → World → Prop} {w : World} :
    Prog.wp (writeSector s data) Q w ↔ (0 ≤ s ∧ s < NUM_SECTORS) ∧
      Q () { w with disk := fun t => if t = s.toNat then data else w.disk t } := by
  simp [writeSector]

end Nachos
