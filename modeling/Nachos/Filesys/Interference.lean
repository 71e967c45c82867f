/-
  Nachos.Filesys.Interference

  What the file system code does to the shared objects while other threads run at
  its accesses to the disk.  Between two accesses it allocates memory and moves
  data; so it keeps every relation that allows for allocation and for a new
  content of the disk, and for the free-map handle that `BitMap::WriteBack`
  stores again.
-/

import Nachos.Filesys.FileSys
import Nachos.Lib.Interleave

namespace Nachos

open Words Program Config

/-- A relation between worlds that memory allocation and disk writes keep. -/
structure Benign (I : World → Prop) (G : World → World → Prop) : Prop
    extends Prog.Reliable I G where
  allocs : ∀ w n, G w { w with allocs := n }
  disk : ∀ w d, G w { w with disk := d }

section

variable {I : World → Prop} {G : World → World → Prop} (hG : Benign I G)

include hG

theorem keeps_newArray : Prog.Keeps I G newArray :=
  Prog.Keeps.read.bind fun _ =>
    (Prog.Keeps.modify hG.toReliable fun w => hG.allocs w _).bind fun _ => Prog.Keeps.pure

theorem keeps_readSector (sector : Int) : Prog.Keeps I G (readSector sector) :=
  (Prog.Keeps.yield hG.toReliable).bind fun _ => Prog.Keeps.assert.bind fun _ =>
    Prog.Keeps.read.bind fun _ => (Prog.Keeps.yield hG.toReliable).bind fun _ => Prog.Keeps.pure

theorem keeps_writeSector (sector : Int) (data : Sector) :
    Prog.Keeps I G (writeSector sector data) :=
  (Prog.Keeps.yield hG.toReliable).bind fun _ => Prog.Keeps.assert.bind fun _ =>
    (Prog.Keeps.modify hG.toReliable fun w => hG.disk w _).bind fun _ =>
      Prog.Keeps.yield hG.toReliable

variable [Config]

/-! ## Headers -/

namespace FileHeader

omit [Config] in
theorem keeps_create : Prog.Keeps I G create :=
  (keeps_newArray hG).bind fun _ => Prog.Keeps.pure

theorem keeps_fetchFrom (hdr : FileHeader) (sector : Int) :
    Prog.Keeps I G (hdr.fetchFrom sector) :=
  (keeps_readSector hG _).bind fun _ => (keeps_newArray hG).bind fun _ =>
    Prog.Keeps.assert.bind fun _ => Prog.Keeps.forRange fun _ _ =>
      (keeps_readSector hG _).bind fun _ => Prog.Keeps.pure

theorem keeps_writeBack (hdr : FileHeader) (sector : Int) :
    Prog.Keeps I G (hdr.writeBack sector) :=
  (keeps_writeSector hG _ _).bind fun _ => Prog.Keeps.forRange fun _ _ => keeps_writeSector hG _ _

omit hG in
theorem keeps_reAllocate (hdr : FileHeader) (freeMap : BitMap) (n : Int) :
    Prog.Keeps I G (hdr.reAllocate freeMap n) :=
  Prog.Keeps.assert.bind fun _ => Prog.Keeps.ite Prog.Keeps.pure Prog.Keeps.pure

end FileHeader

/-! ## Files -/

namespace OpenFile

theorem keeps_create (sector : Int) : Prog.Keeps I G (create sector) :=
  (FileHeader.keeps_create hG).bind fun _ => (FileHeader.keeps_fetchFrom hG _ _).bind fun _ =>
    Prog.Keeps.pure

theorem keeps_readSectors (file : OpenFile) (first n : Nat) (buf : Nat → Byte) :
    Prog.Keeps I G (file.readSectors first n buf) :=
  Prog.Keeps.forRange fun _ _ => Prog.Keeps.ofOption.bind fun _ =>
    (keeps_readSector hG _).bind fun _ => Prog.Keeps.pure

theorem keeps_readAt (file : OpenFile) (numBytes position : Int) :
    Prog.Keeps I G (file.readAt numBytes position) :=
  Prog.Keeps.ite Prog.Keeps.pure <| Prog.Keeps.assert.bind fun _ =>
    (keeps_newArray hG).bind fun _ => (keeps_readSectors hG _ _ _ _).bind fun _ => Prog.Keeps.pure

theorem keeps_readInto (file : OpenFile) (buf : Nat → Byte) (base : Nat) (position : Int) :
    Prog.Keeps I G (file.readInto buf base position) :=
  (keeps_readAt hG _ _ _).bind fun _ => Prog.Keeps.pure

theorem keeps_writeData (file : OpenFile) (source : Nat → Byte) (numBytes position : Int) :
    Prog.Keeps I G (file.writeData source numBytes position) :=
  Prog.Keeps.assert.bind fun _ => (keeps_newArray hG).bind fun _ =>
    (Prog.Keeps.ite (keeps_readInto hG _ _ _ _) Prog.Keeps.pure).bind fun _ =>
      (Prog.Keeps.ite (keeps_readInto hG _ _ _ _) Prog.Keeps.pure).bind fun _ =>
        Prog.Keeps.forRange fun _ _ => Prog.Keeps.ofOption.bind fun _ => keeps_writeSector hG _ _

theorem keeps_writeAtWith {fetchMap : Prog World BitMap} {writeMap : BitMap → Prog World Unit}
    (hf : Prog.Keeps I G fetchMap) (hw : ∀ m, Prog.Keeps I G (writeMap m)) (file : OpenFile)
    (source : Nat → Byte) (numBytes position : Int) :
    Prog.Keeps I G (writeAtWith fetchMap writeMap file source numBytes position) := by
  refine Prog.Keeps.ite Prog.Keeps.pure (Prog.Keeps.ite ?_ (Prog.Keeps.ite ?_ ?_))
  · refine hf.bind fun m => (FileHeader.keeps_reAllocate _ _ _).bind fun r => Prog.Keeps.ite ?_ ?_
    · exact (FileHeader.keeps_writeBack hG _ _).bind fun _ => (hw _).bind fun _ =>
        (keeps_writeData hG _ _ _ _).bind fun _ => Prog.Keeps.pure
    · exact (keeps_writeData hG _ _ _ _).bind fun _ => Prog.Keeps.pure
  · exact Prog.Keeps.ofOption.bind fun _ => (keeps_writeData hG _ _ _ _).bind fun _ =>
      Prog.Keeps.pure
  · exact (keeps_writeData hG _ _ _ _).bind fun _ => Prog.Keeps.pure

end OpenFile

namespace BitMap

omit [Config] in
theorem keeps_new : Prog.Keeps I G new :=
  Prog.Keeps.bind (keeps_newArray hG) fun words =>
    Prog.Keeps.pure (a := create NUM_SECTORS (word words))

theorem keeps_fetchFrom (m : BitMap) (file : OpenFile) : Prog.Keeps I G (m.fetchFrom file) :=
  (OpenFile.keeps_readAt hG _ _ _).bind fun _ => Prog.Keeps.pure

theorem keeps_fetchFreeMap : Prog.Keeps I G fetchFreeMap := by
  unfold fetchFreeMap
  exact (keeps_new hG).bind fun m => Prog.Keeps.read.bind fun w =>
    keeps_fetchFrom hG m w.freeMapFile

/-- The free map is written back through a handle that does not become empty. -/
theorem keeps_writeBack (hI : ∀ w, I w → 0 < w.freeMapFile.hdr.numBytes)
    (hfile : ∀ w file, 0 < file.hdr.numBytes → I w → G w { w with freeMapFile := file })
    (m : BitMap) : Prog.Keeps I G m.writeBack := by
  refine ⟨fun s₀ s hi hs => ?_⟩
  have hlen := hI s (hG.inv _ _ hi hs)
  -- `WriteAt` copies the data, or it is the end of the machine.
  have hwrite : (OpenFile.writeAtWith Prog.abort (fun _ => Prog.abort) s.freeMapFile (byte m.map)
      (divRoundUp m.numBits 32 * 4) 0).Meets I G
      (fun t₀ r t => (I t₀ ∧ G t₀ t) ∧ 0 < r.2.hdr.numBytes) s₀ s := by
    unfold OpenFile.writeAtWith
    dsimp only
    split
    · exact ⟨⟨hi, hs⟩, hlen⟩
    · split
      · trivial
      · split
        · rename_i hgrow
          refine Prog.meets_bind.mpr (Prog.meets_ofOption.mpr fun hdr hhdr => ?_)
          obtain ⟨-, rfl⟩ : _ ∧ { s.freeMapFile.hdr with
              numBytes := 0 + divRoundUp m.numBits 32 * 4 } = hdr := by
            simpa only [FileHeader.changeFileLength, Option.ite_none_right_eq_some,
              Option.some.injEq] using hhdr
          refine (OpenFile.keeps_writeData hG _ _ _ _).next hi hs fun _ t₀ t hi ht => ?_
          exact ⟨⟨hi, ht⟩, Int.lt_trans hlen hgrow⟩
        · refine (OpenFile.keeps_writeData hG _ _ _ _).next hi hs fun _ t₀ t hi ht => ?_
          exact ⟨⟨hi, ht⟩, hlen⟩
  unfold writeBack
  rw [Prog.meets_bind, Prog.meets_read, Prog.meets_bind]
  refine hwrite.mono (fun _ _ h => h) ?_
  rintro t₀ r t ⟨⟨hi, ht⟩, hr⟩
  exact ⟨hi, hG.trans _ _ _ ht (hfile t r.2 hr (hG.inv _ _ hi ht))⟩

end BitMap

/-! ## Directories and paths -/

section

variable (hw : ∀ m : BitMap, Prog.Keeps I G m.writeBack)

include hw in
theorem OpenFile.keeps_writeAt (file : OpenFile) (source : Nat → Byte) (numBytes position : Int) :
    Prog.Keeps I G (file.writeAt source numBytes position) :=
  OpenFile.keeps_writeAtWith hG (BitMap.keeps_fetchFreeMap hG) hw file source numBytes position

namespace Directory

theorem keeps_create : Prog.Keeps I G create :=
  (keeps_newArray hG).bind fun _ => Prog.Keeps.pure

theorem keeps_fetchFrom (dir : Directory) (file : OpenFile) :
    Prog.Keeps I G (dir.fetchFrom file) :=
  (OpenFile.keeps_readAt hG _ _ _).bind fun _ => Prog.Keeps.pure

include hw in
theorem keeps_writeBack (dir : Directory) (file : OpenFile) :
    Prog.Keeps I G (dir.writeBack file) :=
  (OpenFile.keeps_writeAt hG hw _ _ _ _).bind fun _ => Prog.Keeps.pure

end Directory

namespace FileSystem

omit hG in
theorem keeps_copyName (name : List Byte) : Prog.Keeps I G (copyName name) :=
  Prog.Keeps.assert.bind fun _ => Prog.Keeps.pure

/-- By induction on the path that is left. -/
theorem keeps_findDirFrom (directory : Directory) (sector : Int) (name : List Byte) :
    Prog.Keeps I G (findDirFrom directory sector name) := by
  induction hn : name.length using Nat.strong_induction_on generalizing directory sector name with
  | _ n ih =>
      rw [findDirFrom]
      split
      · exact Prog.Keeps.pure
      · rename_i dirname tail h
        have hlt := decompname_lt h
        refine Prog.Keeps.ite Prog.Keeps.pure ((OpenFile.keeps_create hG _).bind fun file => ?_)
        refine Prog.Keeps.ite ((Directory.keeps_fetchFrom hG _ _).bind fun d => ?_) Prog.Keeps.pure
        exact ih tail.length (hn ▸ hlt) d _ tail rfl

theorem keeps_findDir (name : List Byte) : Prog.Keeps I G (findDir name) :=
  (Directory.keeps_create hG).bind fun _ => Prog.Keeps.read.bind fun _ =>
    (Directory.keeps_fetchFrom hG _ _).bind fun _ => keeps_findDirFrom hG _ _ _

theorem keeps_fetchDir (sector : Int) : Prog.Keeps I G (fetchDir sector) :=
  (OpenFile.keeps_create hG _).bind fun _ => (Directory.keeps_create hG).bind fun _ =>
    (Directory.keeps_fetchFrom hG _ _).bind fun _ => Prog.Keeps.pure

include hw

theorem keeps_erase (hdr : FileHeader) (sector : Int) (directory : Directory)
    (name : List Byte) (dirfile : OpenFile) :
    Prog.Keeps I G (erase hdr sector directory name dirfile) :=
  (BitMap.keeps_fetchFreeMap hG).bind fun _ => Prog.Keeps.ofOption.bind fun _ =>
    Prog.Keeps.ofOption.bind fun _ => (hw _).bind fun _ =>
      (Directory.keeps_writeBack hG hw _ _).bind fun _ => Prog.Keeps.pure

theorem keeps_remove (name : List Byte) : Prog.Keeps I G (remove name) := by
  unfold remove
  refine (keeps_copyName _).bind fun _ => (keeps_findDir hG _).bind fun r => ?_
  refine Prog.Keeps.ite Prog.Keeps.pure ((keeps_fetchDir hG _).bind fun d => ?_)
  refine Prog.Keeps.ite Prog.Keeps.pure ((FileHeader.keeps_create hG).bind fun _ => ?_)
  refine (FileHeader.keeps_fetchFrom hG _ _).bind fun hdr => Prog.Keeps.ite Prog.Keeps.pure ?_
  exact keeps_erase hG hw _ _ _ _ _

end FileSystem

end

end

end Nachos
