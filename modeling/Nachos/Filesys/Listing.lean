/-
  Nachos.Filesys.Listing

  `Directory::List` and `FileSystem::List` print the tree of names: one line for each file
  and directory, indented by its depth, what a directory contains below it.
-/

import Nachos.Filesys.StoreRuns
import Nachos.Lib.Preorder

namespace Nachos

open Words Program Config
open Directory (slotsAt)
open Transition (Run)

/-- The characters of a text. -/
def text (s : String) : List Byte := s.toList.map fun c => BitVec.ofNat 8 c.toNat

/-- What `%s` prints of an array: the characters before the first zero; `none` when there is
    no zero in the array. -/
def cstring (a : List Byte) : Option (List Byte) :=
  if 0 ∈ a then some (a.takeWhile (· != 0)) else none

/-- The branch of the tree that is printed before a name. -/
def branch (depth : Nat) : List Byte :=
  (List.range depth).flatMap fun j =>
    (if (j : Int) < depth - 3 then text " " else []) ++
      (if (j : Int) = depth - 3 then text "+" else []) ++
      if (j : Int) > depth - 3 then text "-" else []

variable [Config]

/-- `Directory::List`, with what it prints.  At most `fuel` calls are nested.  The array
    `dirname` takes `MaxFileNameSize` characters. -/
def Directory.list : Nat → Directory → List Byte → Nat → Prog World (List Byte)
  | 0, _, _, _ => .abort
  | fuel + 1, this, name, depth => do
      let dir ← Directory.create
      let (out, _) ← Prog.forRange this.tableSize (([], dir) : List Byte × Directory)
        fun i (out, dir) =>
          if this.inUse i then do
            let s ← Prog.ofOption (cstring (this.name i))
            let out := out ++ branch depth ++ s
            let file ← OpenFile.create (this.sector i)
            if file.isDir then do
              Prog.assert (name.length + s.length < MaxFileNameSize)
              let dir ← dir.fetchFrom file
              let inner ← Directory.list fuel dir (name ++ s) (depth + 4)
              return (out ++ text "(D)\n" ++ inner, dir)
            else return (out ++ text "\n", dir)
          else return (out, dir)
      return out

/-- The first lines of `FileSystem::List`. -/
def FileSystem.banner : List Byte :=
  text "\nNachOS File System content :\n----------------------------\n"

/-- `FileSystem::List`: what is printed before the free space, and the number of free
    bytes. -/
def FileSystem.list (fuel : Nat) : Prog World (List Byte × Nat) := do
  let directory ← Directory.create
  let w ← Prog.read
  let directory ← directory.fetchFrom w.directoryFile
  let out ← directory.list fuel (text "/") 0
  let bitmap ← BitMap.fetchFreeMap
  return (FileSystem.banner ++ out, bitmap.numClear * SectorSize)

/-! ## The tree in the order of the entries -/

/-- The entries of the directory at `s`, in the order of its table. -/
def entries (d : Disk) (s : Nat) : List (List Byte × Nat) :=
  if intAt d s 0 = 1 then
    (List.range NumDirEntries).filterMap fun i => (slotsAt d s i).map fun e => (e.1, e.2.toNat)
  else []

/-- The line for a path and the node at its end. -/
def line (d : Disk) (depth : Nat) (x : List (List Byte) × Nat) : List Byte :=
  branch (depth + 4 * (x.1.length - 1)) ++ x.1.getLast?.getD [] ++
    if nodeAt d x.2 = .dir then text "(D)\n" else text "\n"

/-- The lines below the directory at `s`. -/
def lines (d : Disk) (n depth s : Nat) : List Byte :=
  (Walk.below (entries d) n s).flatMap (line d depth)

theorem mem_entries {d : Disk} {s : Nat} (h : DirOk d s) {k : List Byte} {x : Nat}
    (hdir : intAt d s 0 = 1) : (k, x) ∈ entries d s ↔ child d s k = some x := by
  rw [entries, if_pos hdir, child, if_pos hdir, List.mem_filterMap]
  constructor
  · rintro ⟨i, hi, he⟩
    obtain ⟨⟨k', y⟩, hs, he⟩ := Option.map_eq_some_iff.mp he
    obtain ⟨rfl, rfl⟩ := Prod.mk.inj he
    rw [Slots.lookup_of_slot h.distinct (List.mem_range.mp hi) hs, Option.map_some]
  · intro hc
    obtain ⟨y, hl, rfl⟩ := Option.map_eq_some_iff.mp hc
    obtain ⟨i, hi, hs⟩ := Slots.slot_of_lookup hl
    exact ⟨i, List.mem_range.mpr hi, by rw [hs]; rfl⟩

theorem Names.lists {d : Disk} (h : Names d) :
    Walk.Lists (entries d) (child d) DirectorySector := by
  intro s hs k t
  by_cases hdir : intAt d s 0 = 1
  · exact mem_entries (h.dirs s hs hdir) hdir
  · rw [entries, if_neg hdir, child, if_neg hdir]
    simp

theorem Names.nodup_entries {d : Disk} (h : Names d) {s : Nat} (hs : Reach d s) :
    ((entries d s).map Prod.fst).Nodup := by
  by_cases hdir : intAt d s 0 = 1
  · have hdistinct := (h.dirs s hs hdir).distinct
    rw [entries, if_pos hdir]
    rw [List.map_filterMap]
    refine List.pairwise_filterMap.mpr (List.nodup_range.imp_of_mem fun {i j} hi hj hij => ?_)
    intro k hk l hl hkl
    -- a key that two entries have makes them one
    subst hkl
    simp only [Option.map_map, Option.map_eq_some_iff, Function.comp_apply] at hk hl
    obtain ⟨⟨k', x⟩, hx, rfl⟩ := hk
    obtain ⟨⟨l', y⟩, hy, hkl⟩ := hl
    obtain rfl : l' = k' := hkl
    exact hij (hdistinct i (List.mem_range.mp hi) j (List.mem_range.mp hj) _ _ _ hx hy)
  · rw [entries, if_neg hdir]
    exact List.nodup_nil

/-- The tree of a volume is not deeper than the disk has sectors. -/
theorem Volume.depth_lt {w : World} {E : Nat → Prop} (hV : Volume w E) {p : List (List Byte)}
    {s : Nat} (hw : Walk.walk (child w.disk) DirectorySector p = some s) :
    p.length < NUM_SECTORS := by
  have hlt := hV.names.tree.length_lt (S := Finset.range NUM_SECTORS)
    (fun t ht => Finset.mem_range.mpr (hV.inode ht).onDisk) hw
  rwa [Finset.card_range] at hlt

/-! ## The lines of an entry -/

/-- The line of an entry, and those below it. -/
def entryLines (d : Disk) (n depth : Nat) (e : List Byte × Nat) : List Byte :=
  line d depth ([e.1], e.2) ++ lines d n (depth + 4) e.2

omit [Config] in
theorem line_cons (d : Disk) (depth : Nat) (k : List Byte) {x : List (List Byte) × Nat}
    (hx : x.1 ≠ []) : line d depth (k :: x.1, x.2) = line d (depth + 4) x := by
  obtain ⟨⟨q, t⟩, rfl⟩ : ∃ y, y = x := ⟨x, rfl⟩
  obtain ⟨l, q, rfl⟩ := List.exists_cons_of_ne_nil hx
  have hdepth : depth + 4 * ((k :: l :: q).length - 1) = depth + 4 + 4 * ((l :: q).length - 1) := by
    simp only [List.length_cons]
    omega
  simp only [line, hdepth, List.getLast?_cons_cons]

theorem lines_succ (d : Disk) (n depth s : Nat) :
    lines d (n + 1) depth s = (entries d s).flatMap (entryLines d n depth) := by
  rw [lines, Walk.below_succ, List.flatMap_assoc]
  congr 1
  funext e
  rw [List.flatMap_cons, List.flatMap_map, entryLines, lines]
  congr 1
  refine List.flatMap_congr fun x hx => ?_
  exact line_cons d depth e.1 (Walk.path_ne_nil hx)

theorem lines_file {d : Disk} {n depth s : Nat} (h : intAt d s 0 ≠ 1) : lines d n depth s = [] := by
  cases n with
  | zero => rfl
  | succ n => rw [lines_succ, entries, if_neg h, List.flatMap_nil]

theorem entryLines_dir {d : Disk} {n depth x : Nat} {k : List Byte} (h : intAt d x 0 = 1) :
    entryLines d n depth (k, x) =
      branch depth ++ k ++ text "(D)\n" ++ lines d n (depth + 4) x := by
  simp [entryLines, line, nodeAt_eq_dir.mpr h]

theorem entryLines_file {d : Disk} {n depth x : Nat} {k : List Byte} (h : intAt d x 0 ≠ 1) :
    entryLines d n depth (k, x) = branch depth ++ k ++ text "\n" := by
  have hfile : nodeAt d x ≠ .dir := fun hc => h (nodeAt_eq_dir.mp hc)
  simp [entryLines, line, hfile, lines_file h]

omit [Config] in
/-- A key shorter than the part that is compared is what `%s` prints. -/
theorem cstring_of_cut {n : Nat} {a : List Byte} (hlen : n ≤ a.length) (h : (cut n a).length < n) :
    cstring a = some (cut n a) := by
  induction n generalizing a with
  | zero => cases h
  | succ n ih =>
      cases a with
      | nil => cases hlen
      | cons x a =>
          rw [cut] at h ⊢
          by_cases hx : x = 0
          · simp [cstring, hx]
          · rw [if_neg hx] at h ⊢
            have hrest := ih (Nat.le_of_succ_le_succ hlen) (Nat.lt_of_succ_lt_succ h)
            unfold cstring at hrest ⊢
            split at hrest
            · rename_i hz
              have hpos : (x != 0) = true := by simpa using hx
              rw [if_pos (List.mem_cons_of_mem x hz), List.takeWhile_cons, if_pos hpos,
                Option.some.inj hrest]
            · cases hrest

/-- What `List` can print: the names are shorter than the array they stand in, and the path of
    a directory, without its `/`, is shorter than `dirname`. -/
structure Printable (d : Disk) : Prop where
  short : ∀ p k s, Walk.walk (child d) DirectorySector (p ++ [k]) = some s →
    k.length < FILENAMEMAXLEN
  fits : ∀ p k s, Walk.walk (child d) DirectorySector (p ++ [k]) = some s →
    1 + ((p ++ [k]).map List.length).sum < MaxFileNameSize

/-- An entry in use: its name, its sector, and the child it is. -/
theorem Directory.Holds.entry {d : Disk} {s i : Nat} {dir : Directory} (h : dir.Holds d s)
    (hok : DirOk d s) (hdir : intAt d s 0 = 1) (hi : i < NumDirEntries)
    (huse : dir.inUse i = true) :
    ∃ x : Nat, dir.sector i = x ∧ child d s (key (dir.name i)) = some x ∧
      (slotsAt d s i).map (fun e => (e.1, e.2.toNat)) = some (key (dir.name i), x) := by
  have hslot := h.slot i hi
  rw [Directory.slot, if_pos huse] at hslot
  have hnonneg := hok.sectors i hi _ _ hslot.symm
  obtain ⟨x, hx⟩ := Int.eq_ofNat_of_zero_le hnonneg
  have hmap : (slotsAt d s i).map (fun e => (e.1, e.2.toNat)) = some (key (dir.name i), x) := by
    rw [← hslot, hx]
    rfl
  refine ⟨x, hx, (mem_entries hok hdir).mp ?_, hmap⟩
  rw [entries, if_pos hdir]
  exact List.mem_filterMap.mpr ⟨i, List.mem_range.mpr hi, hmap⟩

omit [Config] in
theorem OnlyAllocs.disk {w w' : World} (h : OnlyAllocs w w') : w'.disk = w.disk := by
  obtain ⟨k, rfl⟩ := h
  rfl

theorem Directory.wp_list {fuel s : Nat} (depth : Nat) {w : World} {E : Nat → Prop}
    {dir : Directory} {p : List (List Byte)} {name : List Byte} (hV : Volume w E)
    (hpr : Printable w.disk)
    (hp : Walk.walk (child w.disk) DirectorySector p = some s) (hdir : intAt w.disk s 0 = 1)
    (hd : dir.Holds w.disk s) (hname : name.length = 1 + (p.map List.length).sum)
    (hfuel : NUM_SECTORS ≤ p.length + fuel) :
    Prog.wp (Directory.list fuel dir name depth)
      (fun out w' => OnlyAllocs w w' ∧ out = lines w.disk fuel depth s) w := by
  induction fuel generalizing w dir s p name depth with
  | zero =>
      have hlt := hV.depth_lt hp
      omega
  | succ fuel ih =>
      have hs : Reach w.disk s := ⟨p, hp⟩
      have hok := hV.names.dirs s hs hdir
      -- the lines of the first `i` entries
      let upTo (i : Nat) : List Byte :=
        ((List.range i).filterMap fun j => (slotsAt w.disk s j).map fun e =>
          (e.1, e.2.toNat)).flatMap (entryLines w.disk fuel depth)
      rw [Directory.list]
      simp only [Prog.wp_bind]
      refine Directory.wp_create fun inner w₁ hsize _ hw₁ => ?_
      refine Prog.wp_mono (Prog.wp_forRange (fun i x w' => OnlyAllocs w w' ∧
        x.2.tableSize = NumDirEntries ∧ x.1 = upTo i) ⟨hw₁, hsize, rfl⟩ ?_) fun x w' hx => ?_
      · rintro i hi ⟨out, inner'⟩ w₂ ⟨hw₂, hsize₂, rfl⟩
        have hdisk := hw₂.disk
        have hsucc : upTo (i + 1) = upTo i ++ (((slotsAt w.disk s i).map fun e =>
            (e.1, e.2.toNat)).toList).flatMap (entryLines w.disk fuel depth) := by
          simp only [upTo, List.range_succ, List.filterMap_append, List.flatMap_append,
            List.filterMap_cons, List.filterMap_nil]
          cases slotsAt w.disk s i <;> rfl
        have hi' : i < NumDirEntries := hd.tableSize ▸ hi
        dsimp only
        rw [Prog.wp_ite]
        refine ⟨fun huse => ?_, fun hfree => ?_⟩
        · obtain ⟨x, hsector, hchild, hentry⟩ := hd.entry hok hdir hi' huse
          have hwalk : Walk.walk (child w.disk) DirectorySector (p ++ [key (dir.name i)]) =
              some x := by
            rw [Walk.walk_concat, hp, Option.bind_some, hchild]
          have hprint := cstring_of_cut (a := dir.name i) (n := FILENAMEMAXLEN)
            (by simp [Directory.name]) (hpr.short p _ x hwalk)
          rw [hentry, Option.toList_some, List.flatMap_singleton] at hsucc
          simp only [Prog.wp_bind, Prog.wp_ofOption]
          refine ⟨key (dir.name i), hprint, ?_⟩
          rw [hsector]
          refine OpenFile.wp_create (hdisk ▸ hV.inode (hs.child hchild))
            fun file w₃ _ _ hl hw₃ => ?_
          have htrans := hw₂.trans hw₃
          rw [Prog.wp_ite, OpenFile.isDir, hl.isDir, hdisk]
          refine ⟨fun hisdir => ?_, fun hnot => ?_⟩
          · -- a directory is listed below its line
            have hxdir : intAt w.disk x 0 = 1 := by simpa using hisdir
            have hxok := hV.names.dirs x (hs.child hchild) hxdir
            have hfits := hpr.fits _ _ x hwalk
            rw [List.map_append, List.sum_append, ← Nat.add_assoc, ← hname] at hfits
            simp only [Prog.wp_bind, Prog.wp_assert]
            refine ⟨by simpa using hfits, ?_⟩
            have hdisk₃ := htrans.disk
            refine Directory.wp_fetchFrom hsize₂ (hdisk₃ ▸ hV.inode (hs.child hchild))
              (hdisk₃.trans hdisk.symm ▸ hl) (hdisk₃ ▸ hxok.length) fun dir' w₄ hd₄ hw₄ => ?_
            have htrans₄ := htrans.trans hw₄
            have hdisk₄ := htrans₄.disk
            have hlength : (name ++ key (dir.name i)).length =
                1 + ((p ++ [key (dir.name i)]).map List.length).sum := by
              simp [hname, Nat.add_assoc]
            have hinner := ih (depth + 4) (hV.allocs htrans₄) (hdisk₄ ▸ hpr) (hdisk₄ ▸ hwalk)
              (hdisk₄ ▸ hxdir)
              (hdisk₄.trans hdisk₃.symm ▸ hd₄)
              hlength (by simp only [List.length_append, List.length_singleton]; omega)
            refine Prog.wp_mono hinner fun text₅ w₅ h₅ => ?_
            obtain ⟨hw₅, rfl⟩ := h₅
            rw [Prog.wp_pure]
            refine ⟨htrans₄.trans hw₅, hd₄.tableSize, ?_⟩
            rw [hsucc, entryLines_dir hxdir, hdisk₄]
            simp
          · have hxfile : intAt w.disk x 0 ≠ 1 := by simpa using hnot
            rw [Prog.wp_pure]
            refine ⟨htrans, hsize₂, ?_⟩
            rw [hsucc, entryLines_file hxfile]
            simp
        · -- the entry is not in use
          rw [Prog.wp_pure]
          have hnone : slotsAt w.disk s i = none := by
            rw [← hd.slot i hi', Directory.slot, if_neg hfree]
          rw [hsucc, hnone]
          exact ⟨hw₂, hsize₂, by simp⟩
      · obtain ⟨hw', -, hout⟩ := hx
        rw [Prog.wp_pure]
        refine ⟨hw', ?_⟩
        rw [hout, lines_succ, entries, if_pos hdir, hd.tableSize]

theorem FileSystem.wp_list {fuel : Nat} {w : World} {E : Nat → Prop} (hV : Volume w E)
    (hpr : Printable w.disk) (hfuel : NUM_SECTORS ≤ fuel) :
    Prog.wp (FileSystem.list fuel) (fun r w' => OnlyAllocs w w' ∧
      r = (FileSystem.banner ++ lines w.disk fuel 0 DirectorySector,
        freeSectors w.disk * SectorSize)) w := by
  unfold FileSystem.list
  simp only [Prog.wp_bind]
  refine Directory.wp_create fun dir w₁ hsize _ hw₁ => ?_
  rw [Prog.wp_read]
  obtain ⟨k₁, rfl⟩ := hw₁
  have hroot : Reach w.disk DirectorySector := Walk.Reach.root
  refine Directory.wp_fetchFrom hsize (hV.inode hroot) hV.directoryFile
    (hV.names.dirs _ hroot hV.names.root).length fun dir' w₂ hd hw₂ => ?_
  obtain ⟨k₂, rfl⟩ := hw₂
  have hlist := Directory.wp_list 0 (hV.allocated k₂) hpr (p := []) rfl hV.names.root hd
    (show (text "/").length = 1 + 0 by decide) (by simpa using hfuel)
  refine Prog.wp_mono hlist fun out w₃ h₃ => ?_
  obtain ⟨⟨k₃, rfl⟩, rfl⟩ := h₃
  refine BitMap.wp_fetchFreeMap (hV.allocated k₃).mapFile fun m w₄ hm hw₄ => ?_
  obtain ⟨k₄, rfl⟩ := hw₄
  rw [Prog.wp_pure]
  exact ⟨⟨k₄, rfl⟩, by rw [hm.numClear]⟩

/-! ## Over whole runs -/

/-- An absolute path whose parts are shorter than a name. -/
def Listable (name : List Byte) : Prop :=
  slash ∈ name ∧ ∀ part ∈ name.splitOnP (· == slash), part.length < FILENAMEMAXLEN

/-- What `List` can print of a path. -/
def Shown (p : List (List Byte)) : Prop :=
  (∀ k ∈ p, k.length < FILENAMEMAXLEN) ∧
    (p ≠ [] → 1 + (p.map List.length).sum < MaxFileNameSize)

omit [Config] in
theorem length_cut_le (n : Nat) (s : List Byte) : (cut n s).length ≤ s.length := by
  induction n generalizing s with
  | zero => exact Nat.zero_le _
  | succ n ih =>
      cases s with
      | nil => exact Nat.le_refl _
      | cons x s =>
          have hle := ih s
          rw [cut]
          split
          · exact Nat.zero_le _
          · simp only [List.length_cons]
            omega

omit [Config] in
/-- The parts of a path and the `/` between them make up its length. -/
theorem length_splitOnP (name : List Byte) :
    ((name.splitOnP (· == slash)).map List.length).sum + (name.splitOnP (· == slash)).length =
      name.length + 1 := by
  induction name with
  | nil => rfl
  | cons x name ih =>
      rw [List.splitOnP_cons_eq_if_modifyHead]
      split
      · simp only [List.map_cons, List.sum_cons, List.length_nil, List.length_cons]
        omega
      · obtain ⟨y, L, hL⟩ := List.exists_cons_of_ne_nil (List.splitOnP_ne_nil (· == slash) name)
        rw [hL] at ih ⊢
        simp only [List.modifyHead_cons, List.map_cons, List.sum_cons, List.length_cons] at ih ⊢
        omega

omit [Config] in
theorem two_le_splitOnP {name : List Byte} (h : slash ∈ name) :
    2 ≤ (name.splitOnP (· == slash)).length := by
  induction name with
  | nil => cases h
  | cons x name ih =>
      have hpos := List.length_pos_iff.mpr (List.splitOnP_ne_nil (· == slash) name)
      rw [List.splitOnP_cons_eq_if_modifyHead]
      split
      · rw [List.length_cons]
        omega
      · rename_i hx
        have hne : slash ≠ x := fun he => hx (by simp [he])
        rw [List.length_modifyHead]
        exact ih ((List.mem_cons.mp h).resolve_left hne)

omit [Config] in
theorem sum_keys_le (parts : List (List Byte)) :
    (((parts.filter (· != [])).map key).map List.length).sum ≤ (parts.map List.length).sum := by
  induction parts with
  | nil => exact Nat.le_refl _
  | cons part parts ih =>
      have hle : (key part).length ≤ part.length := length_cut_le FILENAMEMAXLEN part
      rw [List.filter_cons]
      split
      · simp only [List.map_cons, List.sum_cons]
        exact Nat.add_le_add hle ih
      · rw [List.map_cons, List.sum_cons]
        omega

/-- The place of a path that can be listed. -/
theorem Listable.shown {name : List Byte} (h : Listable name)
    (hlen : name.length < MaxFileNameSize) : Shown (placeOf name) := by
  obtain ⟨hslash, hparts⟩ := h
  obtain ⟨init, last, hsplit⟩ : ∃ init last, name.splitOnP (· == slash) = init ++ [last] := by
    refine ⟨_, _, (List.dropLast_append_getLast (List.splitOnP_ne_nil (· == slash) name)).symm⟩
  have hplace : placeOf name = ((init.filter (· != [])).map key) ++ [key last] := by
    show (components name).1.map key ++ [key (components name).2] = _
    unfold components
    rw [hsplit]
    simp
  have htotal := length_splitOnP name
  have htwo := two_le_splitOnP hslash
  rw [hsplit] at hparts htotal htwo
  rw [hplace]
  constructor
  · intro k hk
    obtain ⟨part, hpart, rfl⟩ : ∃ part ∈ init ++ [last], key part = k := by
      rcases List.mem_append.mp hk with hk | hk
      · obtain ⟨part, hpart, rfl⟩ := List.mem_map.mp hk
        exact ⟨part, List.mem_append_left _ (List.mem_filter.mp hpart).1, rfl⟩
      · exact ⟨last, by simp, (List.mem_singleton.mp hk).symm⟩
    exact (length_cut_le _ part).trans_lt (hparts part hpart)
  · intro _
    have hinit := sum_keys_le init
    have hlast := length_cut_le FILENAMEMAXLEN last
    simp only [List.map_append, List.map_cons, List.map_nil, List.sum_append, List.sum_cons,
      List.sum_nil, List.length_append, List.length_cons, List.length_nil, key] at *
    omega

omit [Config] in
theorem Store.empty_node {p : List (List Byte)} (h : p ≠ []) :
    (NameTree.empty (List Byte) Item.dir).node p = none := by
  show Function.update (fun _ => none) [] (some Item.dir) p = none
  rw [Function.update_of_ne h]

/-- In a store that has been asked for such paths only there are no others. -/
theorem Store.Served.shown {requests : List Demand} {answers : List Answer} {t : Store}
    (h : Store.Served requests answers t)
    (hn : ∀ c, Demand.call c ∈ requests → Listable c.path ∧ c.path.length < MaxFileNameSize) :
    ∀ p, t.node p ≠ none → Shown p := by
  induction h with
  | nil =>
      intro p hp
      by_cases hnil : p = []
      · subst hnil
        exact ⟨by simp, fun hne => absurd rfl hne⟩
      · exact absurd (Store.empty_node hnil) hp
  | snoc hserved hs ih =>
      have ih := ih fun c hc => hn c (List.mem_append_left _ hc)
      intro p hp
      cases hs with
      | @done c item t' hallowed hnode ht =>
          by_cases hplace : p = placeOf c.path
          · obtain ⟨hlist, hlen⟩ := hn c (by simp)
            exact hplace ▸ hlist.shown hlen
          · rw [ht, Function.update_of_ne hplace] at hp
            exact ih p hp
      | @write name data bytes q hhas =>
          by_cases hplace : p = placeOf name
          · exact ih p (hplace ▸ hhas.ne_none)
          · exact ih p (by simpa [NameTree.replace, Function.update_of_ne hplace] using hp)
      | _ => exact ih p hp

/-- The line of a path of the store. -/
def Store.line (t : Store) (p : List (List Byte)) : List Byte :=
  branch (4 * (p.length - 1)) ++ p.getLast?.getD [] ++
    if t.node p = some .dir then text "(D)\n" else text "\n"

theorem Sound.line_eq {w : World} (h : Sound w) {p : List (List Byte)} {s : Nat}
    (hp : Walk.walk (child w.disk) DirectorySector p = some s) :
    Nachos.line w.disk 0 (p, s) = h.store.line p := by
  have hnode : h.store.node p = some (itemAt w.disk s) := by
    show storeOf w.disk p = _
    rw [storeOf, hp, Option.map_some]
  have hiff : nodeAt w.disk s = .dir ↔ h.store.node p = some .dir := by
    rw [hnode, nodeAt_eq_dir, itemAt]
    split <;> simp_all
  simp only [Nachos.line, Store.line, Nat.zero_add, hiff]

end Nachos
