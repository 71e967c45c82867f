/-
  Nachos.Filesys.FsMisc

  `filesys/fsmisc.cc`: `Copy` creates a file of the length of a file of the host, opens it and
  writes the bytes a few at a time.  The sectors are there from the creation on, so that no
  write changes the header, and a new handle reads what was written.
-/

import Nachos.Lib.ArrayFile
import Nachos.Filesys.InitialSize

namespace Nachos

open Words Program Config
open ArrayFile (elems overwrite)

abbrev TransferSize : Nat := 10

variable [Config]

/-! ## The program -/

/-- `FileSystem::Open`; `none` is a null pointer. -/
def FileSystem.open (name : List Byte) : Prog World (Option OpenFile) := do
  let dirname ← copyName name
  let (dirsector, dirname) ← findDir dirname
  if dirsector = -1 then return none
  else
  let (_, directory) ← fetchDir dirsector
  let sector := directory.find dirname
  if sector ≥ 0 then do
    let openFile ← OpenFile.create sector
    if openFile.isDir then return none
    else return some { openFile with name := name }
  else return none

/-- `OpenFile::Write`, where the end of what is written is an `int`. -/
def OpenFile.writeDefined (file : OpenFile) (data : List Byte) : Prog World (Int × OpenFile) := do
  Prog.assert (InInt (file.seekPosition + data.length))
  file.write (fun i => data.getD i 0) data.length

/-- `OpenFile::Read`, where the end of what is read is an `int`; past the end of the file it is
    not computed. -/
def OpenFile.readDefined (file : OpenFile) (numBytes : Nat) :
    Prog World (List Byte × OpenFile) := do
  Prog.assert (file.seekPosition < file.length → InInt (file.seekPosition + numBytes))
  file.read numBytes

/-- The loop of `Copy`, over what the calls of `fread` put into the buffer. -/
def writeAll (openFile : OpenFile) : List (List Byte) → Prog World OpenFile
  | [] => pure openFile
  | buffer :: reads => do
      let (_, openFile) ← openFile.writeDefined buffer
      writeAll openFile reads

/-- `Copy`, of a file of the host that exists.  A failing `Create` ends in `exit`. -/
def Copy (fileLength : Int) (reads : List (List Byte)) (toName : List Byte) :
    Prog World Unit := do
  let error ← FileSystem.create toName fileLength
  Prog.assert (error = .NoError)
  let openFile ← FileSystem.open toName
  let openFile ← Prog.ofOption openFile
  let _ ← writeAll openFile reads
  return ()

/-- The loop of `Print`, for a buffer of any size: what is read until a call reads nothing.
    There is no result when `fuel` calls are not enough. -/
def readAll (numBytes : Nat) : Nat → OpenFile → Prog World (List Byte)
  | 0, _ => Prog.abort
  | fuel + 1, openFile => do
      let (amountRead, openFile) ← openFile.readDefined numBytes
      if amountRead.length > 0 then do
        let rest ← readAll numBytes fuel openFile
        return amountRead ++ rest
      else return []

/-- What `fread` delivers: the bytes in their order, some of them with each call, and not more
    than were asked for. -/
structure Delivers (reads : List (List Byte)) (bytes : List Byte) : Prop where
  some : ∀ r ∈ reads, 0 < r.length
  fits : ∀ r ∈ reads, r.length ≤ TransferSize
  all : reads.flatten = bytes

/-! ## Writing the data of a file -/

section Data

variable {w : World} {E : Nat → Prop} {x k : Nat} {d : Disk}

/-- A file is not a directory, so that no entry depends on its data. -/
theorem Volume.child_data (hV : Volume w E) (hx : Reach w.disk x) (hfile : intAt w.disk x 0 ≠ 1)
    (hd : OnlyData w.disk d x) : ∀ t, Reach w.disk t → child d t = child w.disk t := by
  intro t ht
  obtain ⟨hh, hdata⟩ := hV.owned.keeps (Volume.live hx) hd t (Volume.live ht)
  by_cases htx : t = x
  · subst htx
    funext l
    rw [child, child, hh.intAt, if_neg hfile, if_neg hfile]
  · exact child_congr (hV.inode ht) hh (hdata htx) (hV.names.dirs t ht)

/-- The volume is as sound as it was. -/
theorem Volume.data (hV : Volume w E) (hx : Reach w.disk x) (hfile : intAt w.disk x 0 ≠ 1)
    (hd : OnlyData w.disk d x) : Volume { w with disk := d, allocs := k } E := by
  have hk := hV.owned.keeps (Volume.live hx) hd
  have hchild := hV.child_data hx hfile hd
  have hreach : ∀ t, Reach d t ↔ Reach w.disk t := fun t => exists_congr fun p => by
    rw [Walk.walk_congr hchild]
  have hlive : ∀ t, Live d E t ↔ Live w.disk E t := fun t => by rw [Live, Live, hreach]
  have hmapx : FreeMapSector ≠ x := fun he => hV.names.notMap (he ▸ hx)
  obtain ⟨hmap, hbits⟩ := hk _ hV.owned.map
  refine ⟨(hV.owned.keep fun t ht => (hk t ht).1).congr hlive, ⟨?_, ?_, fun t ht hdir => ?_, ?_⟩,
    ?_, fun t ht => ⟨(hV.removed t ht).1, fun h => (hV.removed t ht).2 ((hreach t).mp h)⟩,
    hmap.loaded hV.freeMapFile, (hk _ (Volume.live Walk.Reach.root)).1.loaded hV.directoryFile⟩
  · show intAt d DirectorySector 0 = 1
    rw [(hk _ (Volume.live Walk.Reach.root)).1.intAt]
    exact hV.names.root
  · exact hV.names.tree.congr hchild
  · have ht' := (hreach t).mp ht
    obtain ⟨hh, hdata⟩ := hk t (Volume.live ht')
    have hdir' : intAt w.disk t 0 = 1 := hh.intAt 0 ▸ hdir
    have htx : t ≠ x := fun he => hfile (he ▸ hdir')
    exact (hV.names.dirs t ht' hdir').keep (hV.inode ht') hh (hdata htx)
  · exact fun h => hV.names.notMap ((hreach _).mp h)
  · have hm := (hV.marks.keep hV.owned fun t ht => (hk t ht).1).congr hlive
    intro i hi
    show mapBit d i = true ↔ _
    rw [mapBit_congr (hV.owned.inode _ hV.owned.map) hV.owned.mapLength hmap (hbits hmapx) hi]
    exact hm i hi

end Data

/-! ## A new handle -/

/-- The file at `x` is found under its name. -/
structure FoundAt (d : Disk) (name : List Byte) (x : Nat) : Prop where
  walk : Walk.walk (child d) DirectorySector (dirKeys name ++ [lastKey name]) = some x
  file : intAt d x 0 ≠ 1

theorem FoundAt.reach {d : Disk} {name : List Byte} {x : Nat} (h : FoundAt d name x) :
    Reach d x := ⟨_, h.walk⟩

/-- `Open` gives a handle at the beginning of the file, when the path leads to a file. -/
theorem FileSystem.wp_open_cases {w : World} {E : Nat → Prop} {name : List Byte}
    {Q : Option OpenFile → World → Prop} (hV : Volume w E) (hname : name.length < MaxFileNameSize)
    (hnone : (∀ x, ¬ FoundAt w.disk name x) → ∀ k, Q none { w with allocs := k })
    (hsome : ∀ x file k, FoundAt w.disk name x → file.fSector = (x : Int) → file.seekPosition = 0 →
      Loaded w.disk x file.hdr → Q (some file) { w with allocs := k }) :
    Prog.wp (FileSystem.open name) Q w := by
  unfold FileSystem.open FileSystem.copyName
  simp only [Prog.wp_bind, Prog.wp_assert, Prog.wp_pure]
  refine ⟨hname, FileSystem.wp_findDir hV (fun a w₁ hw₁ hwalk hdir => ?_) fun n w₁ hw₁ htree => ?_⟩
  · obtain ⟨k₁, rfl⟩ := hw₁
    have ha : Reach w.disk a := ⟨_, hwalk⟩
    dsimp only
    rw [if_neg (by omega), Prog.wp_bind]
    refine FileSystem.wp_fetchDir (hV.allocated k₁) ha hdir fun dirfile dir w₂ hw₂ _ hd => ?_
    obtain ⟨k₂, rfl⟩ := hw₂
    have hlast : Walk.walk (child w.disk) DirectorySector (dirKeys name ++ [lastKey name]) =
        child w.disk a (lastKey name) := by rw [Walk.walk_concat, hwalk, Option.bind_some]
    dsimp only
    rcases hd.find (hV.names.dirs a ha hdir) hdir (components name).2 with
      ⟨hchild, hfind, -⟩ | ⟨x, hchild, hfind, -⟩
    · rw [hfind, if_neg (by decide), Prog.wp_pure]
      refine hnone (fun x hx => ?_) k₂
      cases hx.walk.symm.trans (hlast.trans hchild)
    · rw [hfind, if_pos (by omega), Prog.wp_bind]
      refine OpenFile.wp_create (hV.inode ⟨_, hlast.trans hchild⟩)
        fun file w₃ hfs hseek hl hw₃ => ?_
      obtain ⟨k₃, rfl⟩ := hw₃
      have hisdir : file.isDir = (intAt w.disk x 0 == 1) := hl.isDir
      by_cases hxdir : intAt w.disk x 0 = 1
      · -- A directory is not opened.
        rw [if_pos (by rw [hisdir]; simpa using hxdir), Prog.wp_pure]
        refine hnone (fun y hy => ?_) k₃
        obtain rfl : y = x := Option.some.inj (hy.walk.symm.trans (hlast.trans hchild))
        exact hy.file hxdir
      · rw [if_neg (by rw [hisdir]; simpa using hxdir), Prog.wp_pure]
        exact hsome x { file with name := name } k₃ ⟨hlast.trans hchild, hxdir⟩ hfs hseek hl
  · obtain ⟨k₁, rfl⟩ := hw₁
    dsimp only
    rw [if_pos rfl, Prog.wp_pure]
    refine hnone (fun x hx => htree (treeOf_parent (k := lastKey name) ?_)) k₁
    rw [treeOf_of_walk hx.walk]
    exact Option.some_ne_none _

/-- `Open` of a file that is there. -/
theorem FileSystem.wp_open {w : World} {E : Nat → Prop} {name : List Byte} {x : Nat}
    {Q : Option OpenFile → World → Prop} (hV : Volume w E) (hname : name.length < MaxFileNameSize)
    (hx : FoundAt w.disk name x)
    (hQ : ∀ file k, Loaded w.disk x file.hdr → file.seekPosition = 0 →
      Q (some file) { w with allocs := k }) :
    Prog.wp (FileSystem.open name) Q w := by
  refine wp_open_cases hV hname (fun hnot => absurd hx (hnot x)) fun y file k hy _ hseek hl => ?_
  obtain rfl : y = x := Option.some.inj (hy.walk.symm.trans hx.walk)
  exact hQ file k hl hseek

/-! ## The loops -/

/-- The file at `x` has been opened, and begins with the bytes `done`, after which the handle
    stands. -/
structure Filled (w : World) (E : Nat → Prop) (name : List Byte) (x : Nat) (length : Nat)
    (file : OpenFile) (done : List Byte) : Prop where
  volume : Volume w E
  found : FoundAt w.disk name x
  length : intAt w.disk x 1 = length
  handle : Loaded w.disk x file.hdr
  seekPosition : file.seekPosition = done.length
  bytes : elems (byteAt w.disk x) done.length = done

section Loops

variable {w : World} {E : Nat → Prop} {name : List Byte} {x length : Nat} {file : OpenFile}
  {done : List Byte}

/-- One call of `Write`. -/
theorem Filled.write (h : Filled w E name x length file done) {data : List Byte}
    (hfit : done.length + data.length ≤ length) (hmax : length ≤ MAX_FILE_LENGTH) :
    Prog.wp (file.writeDefined data)
      (fun r w' => Filled w' E name x length r.2 (done ++ data)) w := by
  have hi := h.volume.inode h.found.reach
  have hlt := MAX_FILE_LENGTH_lt
  unfold OpenFile.writeDefined OpenFile.write OpenFile.writeAt
  rw [Prog.wp_bind, Prog.wp_assert, h.seekPosition]
  refine ⟨⟨by omega, by omega⟩, ?_⟩
  simp only [Prog.wp_bind, Prog.wp_pure]
  refine OpenFile.wp_writeAtWith hi h.handle (by rw [h.length]; exact_mod_cast hfit)
    fun d k hover => ?_
  have hsame := hover.onlyData.sameHeader hi
  have hchild := h.volume.child_data h.found.reach h.found.file hover.onlyData
  refine ⟨h.volume.data h.found.reach h.found.file hover.onlyData,
    ⟨(Walk.walk_congr hchild _).trans h.found.walk, ?_⟩, ?_, hsame.loaded h.handle, ?_, ?_⟩
  · rw [hsame.intAt]
    exact h.found.file
  · exact (hsame.intAt 1).trans h.length
  · show file.seekPosition + (data.length : Int) = _
    rw [h.seekPosition, List.length_append, Int.natCast_add]
  · -- The bytes before are kept, and the file goes on with the new ones.
    show elems (byteAt d x) (done ++ data).length = done ++ data
    have hnew : elems (byteAt d x) (max done.length (done.length + data.length)) =
        overwrite (elems (byteAt w.disk x) done.length) data done.length := by
      refine ArrayFile.elems_overwrite (Nat.le_refl _) (fun j hj => ?_) fun o ho hout => ?_
      · rw [hover.new j hj]
        simp [hj]
      · exact hover.old o (by rw [h.length]; omega) hout
    rwa [Nat.max_eq_right (Nat.le_add_right _ _), h.bytes, ArrayFile.overwrite_end,
      ← List.length_append] at hnew

/-- The loop of `Copy`. -/
theorem Filled.writeAll (h : Filled w E name x length file done) {reads : List (List Byte)}
    (hfit : done.length + reads.flatten.length ≤ length) (hmax : length ≤ MAX_FILE_LENGTH) :
    Prog.wp (writeAll file reads)
      (fun file' w' => Filled w' E name x length file' (done ++ reads.flatten)) w := by
  induction reads generalizing w file done with
  | nil =>
      rw [Nachos.writeAll, Prog.wp_pure, List.flatten_nil, List.append_nil]
      exact h
  | cons data reads ih =>
      rw [List.flatten_cons, List.length_append] at hfit
      rw [Nachos.writeAll, Prog.wp_bind]
      refine Prog.wp_mono (h.write (by omega) hmax) fun r w₁ h₁ => ?_
      rw [List.flatten_cons, ← List.append_assoc]
      exact ih h₁ (by rw [List.length_append]; omega)

/-- One call of `Read`, from a multiple of the size of the buffer. -/
theorem wp_readDefined {bytes : List Byte} {n p : Nat} (hi : Inode w.disk x)
    (hl : Loaded w.disk x file.hdr) (hlen : intAt w.disk x 1 = bytes.length)
    (hbytes : elems (byteAt w.disk x) bytes.length = bytes) (hp : file.seekPosition = p)
    (hint : p < bytes.length → InInt ((p : Int) + n))
    {Q : List Byte × OpenFile → World → Prop}
    (hQ : ∀ k, Q ((bytes.drop p).take n,
      { file with seekPosition := ((p + ((bytes.drop p).take n).length : Nat) : Int) })
      { w with allocs := k }) :
    Prog.wp (file.readDefined n) Q w := by
  have hlength : file.length = bytes.length := hl.numBytes.trans hlen
  have hdisk : elems (fileByte w.disk file.hdr) file.hdr.numBytes.toNat = bytes := by
    rw [hl.numBytes, hlen, Int.toNat_natCast]
    refine Eq.trans (List.map_congr_left fun o ho => ?_) hbytes
    rw [hl.fileByte hi (by rw [hlen]; exact_mod_cast List.mem_range.mp ho), byteAt]
  unfold OpenFile.readDefined OpenFile.read
  rw [Prog.wp_bind, Prog.wp_assert, hlength, hp]
  refine ⟨fun hlt => hint (by exact_mod_cast hlt), ?_⟩
  simp only [Prog.wp_bind, Prog.wp_pure]
  refine OpenFile.wp_readAt (hl.mapped hi) fun w' hw => ?_
  obtain ⟨k, rfl⟩ := hw
  have hslice := ArrayFile.elems_slice (fileByte w.disk file.hdr) file.hdr.numBytes.toNat n p
  rw [hdisk] at hslice
  have hq := hQ k
  rw [hslice, Int.natCast_add] at hq
  exact hq

/-- A loop of reads comes to the end of the file, and has read what was left of it. -/
theorem wp_readAll {bytes : List Byte} {n p fuel : Nat} (hi : Inode w.disk x)
    (hl : Loaded w.disk x file.hdr) (hlen : intAt w.disk x 1 = bytes.length)
    (hbytes : elems (byteAt w.disk x) bytes.length = bytes) (hmax : bytes.length ≤ MAX_FILE_LENGTH)
    (hn : 0 < n) (hint : InInt n) (hp : file.seekPosition = p)
    (hstart : p < bytes.length → p = 0 ∨ n ≤ p) (hfuel : bytes.length - p < fuel) :
    Prog.wp (readAll n fuel file) (fun got _ => got = bytes.drop p) w := by
  induction fuel generalizing w file p with
  | zero => omega
  | succ fuel ih =>
      have hle := MAX_FILE_LENGTH_le
      have hsum : p < bytes.length → InInt ((p : Int) + n) := by
        intro hlt
        have := hstart hlt
        obtain ⟨hlo, hhi⟩ := hint
        constructor <;> omega
      obtain ⟨got, hgot⟩ : ∃ got, got = (bytes.drop p).take n := ⟨_, rfl⟩
      have hlength : got.length = min n (bytes.length - p) := by
        rw [hgot, List.length_take, List.length_drop]
      have hprefix : (bytes.drop p).take got.length = got :=
        (List.prefix_iff_eq_take.mp (hgot ▸ List.take_prefix n (bytes.drop p))).symm
      have hrest : got ++ bytes.drop (p + got.length) = bytes.drop p := by
        rw [← List.drop_drop]
        nth_rewrite 1 [← hprefix]
        exact List.take_append_drop _ _
      rw [readAll, Prog.wp_bind]
      refine wp_readDefined hi hl hlen hbytes hp hsum fun k => ?_
      rw [← hgot]
      dsimp only
      by_cases hmore : got.length > 0
      · -- Either the end is reached, or `n` bytes have been read.
        rw [if_pos hmore, Prog.wp_bind]
        refine Prog.wp_mono (ih hi hl hlen hbytes rfl (by omega) (by omega)) fun rest _ hr => ?_
        rw [Prog.wp_pure, hr, hrest]
      · rw [if_neg hmore, Prog.wp_pure, List.drop_eq_nil_of_le (by omega)]

end Loops

/-! ## Copying a file -/

end Nachos
