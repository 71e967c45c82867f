/-
  Nachos.Filesys.FreeMap

  Writing inside the length of a file, through any handle that agrees with the
  disk; then the free map, a file of one bit for each sector whose header is at
  sector 0.
-/

import Nachos.Filesys.Allocation

namespace Nachos

open Words Program Config

variable [Config]

/-- `WriteAt` inside the length keeps the handle and overwrites the bytes. -/
theorem OpenFile.wp_writeAtWith {fetchMap : Prog World BitMap} {writeMap : BitMap → Prog World Unit}
    {file : OpenFile} {source : Nat → Byte} {n p s : Nat} {w : World}
    {Q : Int × OpenFile → World → Prop} (hi : Inode w.disk s) (hl : Loaded w.disk s file.hdr)
    (hlen : ((p + n : Nat) : Int) ≤ intAt w.disk s 1)
    (hQ : ∀ d k, Overwrites w.disk d s source n p →
      Q ((n : Int), file) { w with disk := d, allocs := k }) :
    Prog.wp (writeAtWith fetchMap writeMap file source n p) Q w := by
  by_cases hn : n = 0
  · -- Nothing is written.
    unfold writeAtWith
    rw [if_pos (Or.inl (by omega)), Prog.wp_pure]
    have hq := hQ w.disk w.allocs ⟨fun _ _ => rfl, fun j hj => by omega, fun _ _ _ => rfl⟩
    rw [hn] at hq
    exact hq
  refine wp_writeAtWith_inside (hl.mapped hi) (Nat.pos_of_ne_zero hn)
    (by rw [hl.numBytes]; exact hlen) fun d k hw => ?_
  exact hQ d k (hw.overwrites hl hi hlen)

/-! ## The free map -/

/-- Bit `i` of the free map on disk. -/
def mapBit (d : Disk) (i : Nat) : Bool := (byteAt d FreeMapSector (i / 8)).getLsbD (i % 8)

/-- The free map on disk can be read and written through `freeMapFile`. -/
structure MapFile (d : Disk) (file : OpenFile) : Prop where
  inode : Inode d FreeMapSector
  length : intAt d FreeMapSector 1 = FreeMapFileSize
  loaded : Loaded d FreeMapSector file.hdr

/-- The map in memory has the bits of the one on disk. -/
structure Reads (d : Disk) (m : BitMap) : Prop where
  numBits : m.numBits = NUM_SECTORS
  has : ∀ i < NUM_SECTORS, m.has i = mapBit d i

namespace BitMap

omit [Config] in
theorem has_word (b : Nat → Byte) (n i : Nat) :
    has ⟨n, word b⟩ i = (b (i / 8)).getLsbD (i % 8) := by
  have hq : 4 * (i / 32) + i % 32 / 8 = i / 8 := by omega
  have hr : i % 32 % 8 = i % 8 := by omega
  rw [has, getLsbD_word _ _ _ (Nat.mod_lt _ (by decide)), hq, hr]

omit [Config] in
theorem has_byte (m : BitMap) (i : Nat) : m.has i = (byte m.map (i / 8)).getLsbD (i % 8) := by
  have hq : i / 8 / 4 = i / 32 := by omega
  have hr : 8 * (i / 8 % 4) + i % 8 = i % 32 := by omega
  rw [getLsbD_byte _ _ _ (Nat.mod_lt _ (by decide)), hq, hr, has]

theorem wp_fetchFreeMap {w : World} {Q : BitMap → World → Prop} (h : MapFile w.disk w.freeMapFile)
    (hQ : ∀ m w', Reads w.disk m → OnlyAllocs w w' → Q m w') :
    Prog.wp fetchFreeMap Q w := by
  unfold fetchFreeMap new fetchFrom
  have hwords : divRoundUp (NUM_SECTORS : Int) 32 * 4 = ((FreeMapFileSize : Nat) : Int) := rfl
  have hnum : ∀ f, (create NUM_SECTORS f).numBits = NUM_SECTORS := fun f =>
    (create_spec NUM_SECTORS f).1
  simp only [Prog.wp_bind, wp_newArray, Prog.wp_pure, Prog.wp_read, hnum, hwords]
  have hlen := h.loaded.numBytes.trans h.length
  refine OpenFile.wp_readAt (p := 0) (h.loaded.mapped h.inode) fun w' hw => ?_
  rw [hlen, Int.toNat_natCast, Nat.sub_zero, Nat.min_self]
  refine hQ _ _ ⟨rfl, fun i hi => ?_⟩ (OnlyAllocs.trans ⟨_, rfl⟩ hw)
  have hlt : i / 8 < FreeMapFileSize := by
    show i / 8 < 2048 / 8
    change i < 2048 at hi
    omega
  have hput := OpenFile.putBytes_of_mem (d := byte (create NUM_SECTORS (word (w.heap w.allocs))).map)
    (b := 0) (f := fun j => fileByte w.disk w.freeMapFile.hdr (0 + j)) hlt
  rw [Nat.zero_add] at hput
  rw [has_word, hput, h.loaded.fileByte h.inode (by rw [h.length]; exact_mod_cast hlt)]
  rfl

/-- Writing the map back changes the data sectors of the free-map file only. -/
theorem wp_writeBack {m : BitMap} {w : World} {Q : Unit → World → Prop}
    (h : MapFile w.disk w.freeMapFile) (hn : m.numBits = NUM_SECTORS)
    (hQ : ∀ d k, OnlyData w.disk d FreeMapSector → (∀ i < NUM_SECTORS, mapBit d i = m.has i) →
      Q () { w with disk := d, allocs := k }) :
    Prog.wp (writeBack m) Q w := by
  unfold writeBack
  have hwords : divRoundUp (NUM_SECTORS : Int) 32 * 4 = ((FreeMapFileSize : Nat) : Int) := rfl
  simp only [Prog.wp_bind, Prog.wp_read, Prog.wp_modify, hn, hwords]
  refine OpenFile.wp_writeAtWith (p := 0) h.inode h.loaded
    (Int.le_of_eq (by rw [h.length, Nat.zero_add])) fun d k ho => ?_
  refine hQ d k ho.onlyData fun i hi => ?_
  have hlt : i / 8 < FreeMapFileSize := by
    show i / 8 < 2048 / 8
    change i < 2048 at hi
    omega
  have hnew := ho.new (i / 8) hlt
  rw [Nat.zero_add] at hnew
  rw [mapBit, hnew, ← has_byte]

end BitMap

end Nachos
