/-
  Nachos.Filesys.RemoveSpec

  `Remove` and `Rmdir`: they succeed exactly when the path leads to a regular file,
  to an empty directory; then the node is gone and its sectors are clear.  When
  they fail they have written nothing.
-/

import Nachos.Filesys.CreateSpec

namespace Nachos

open Words Program Config
open Directory (slotsAt)

variable [Config]

/-- The call has removed the node under the path, and its sectors are clear. -/
structure Removed (w w' : World) (E : Nat → Prop) (name : List Byte) : Prop where
  onlyDisk : OnlyDisk w w'
  volume : Volume w' E
  tree : treeOf w'.disk = Function.update (treeOf w.disk) (dirKeys name ++ [lastKey name]) none
  keeps : Keeps w.disk w'.disk (Live w.disk E) (Written w.disk)
  freed : ∃ x, Walk.walk (child w.disk) DirectorySector (dirKeys name ++ [lastKey name]) = some x ∧
    ∀ u ∈ footprint w.disk x, mapBit w'.disk u = false

/-- The path leads to a regular file. -/
def CanRemove (d : Disk) (name : List Byte) : Prop :=
  ∃ n, treeOf d (dirKeys name ++ [lastKey name]) = some (.file n)

/-- The path leads to an empty directory. -/
def CanRmdir (d : Disk) (name : List Byte) : Prop :=
  treeOf d (dirKeys name ++ [lastKey name]) = some .dir ∧
    ∀ k, treeOf d (dirKeys name ++ [lastKey name] ++ [k]) = none

namespace Volume

variable {w : World} {E : Nat → Prop}

section Unlink

variable {w' : World} {a i x : Nat} {p : List (List Byte)} {k : List Byte} {dir dir' : Directory}

/-- The entry of the leaf `x` is gone from the directory at `a`. -/
structure Unlinked (w w' : World) (E : Nat → Prop) (x : Nat) (path : List (List Byte)) : Prop where
  onlyDisk : OnlyDisk w w'
  header : ∀ t, Live w.disk E t → SameHeader w.disk w'.disk t
  names : Names w'.disk
  reached : Reach w.disk x
  reach : ∀ s, Reach w'.disk s ↔ Reach w.disk s ∧ s ≠ x
  tree : treeOf w'.disk = Function.update (treeOf w.disk) path none
  walks : SameWalks w.disk w'.disk path

theorem unlinks (hV : Volume w E) (hw : OnlyDisk w w')
    (hk : Keeps w.disk w'.disk (Live w.disk E) fun t => t = a ∨ t = FreeMapSector)
    (hp : Walk.walk (child w.disk) DirectorySector p = some a) (hdir : intAt w.disk a 0 = 1)
    (hbefore : dir.Holds w.disk a) (hafter : dir'.Holds w'.disk a)
    (hidx : i < dir.tableSize) (hfull : dir.slot i = some (k, (x : Int)))
    (hslot : dir'.slot = Function.update dir.slot i none)
    (hleaf : ∀ l, child w.disk x l = none) : Unlinked w w' E x (p ++ [k]) := by
  have hreach : ∀ s, Reach w.disk s → Live w.disk E s := fun s hs => live hs
  have hr : Rewrites w.disk w'.disk (fun t => Reach w.disk t ∧ t ≠ x) a dir dir' :=
    ⟨fun t ht => (hk t (hreach t ht.1)).1,
      fun t ht hta ht0 => (hk t (hreach t ht.1)).2 (not_or.mpr ⟨hta, ht0⟩), hbefore, hafter,
      by rw [hafter.tableSize, hbefore.tableSize]⟩
  obtain ⟨hnames, hunlink⟩ := hr.unlink hV.names (fun s hs => hV.inode hs) ⟨p, hp⟩ hdir hidx hfull
    hslot hleaf
  exact ⟨hw, fun t ht => (hk t ht).1, hnames, Walk.Reach.child ⟨p, hp⟩ hunlink.present,
    hunlink.reach hV.names.tree ⟨p, hp⟩,
    treeOf_unlink hunlink hV.names hp fun t ht htx => hr.header t ⟨ht, htx⟩,
    fun q hq => by rw [hunlink.walk hV.names.tree hp, Function.update_of_ne hq]⟩

/-- The two handles that are always open are those of files that are kept. -/
theorem handles (hV : Volume w E) (hw : OnlyDisk w w')
    (hh : ∀ t, Live w.disk E t → SameHeader w.disk w'.disk t) :
    Loaded w'.disk FreeMapSector w'.freeMapFile.hdr ∧
      Loaded w'.disk DirectorySector w'.directoryFile.hdr := by
  obtain ⟨d, n, rfl⟩ := hw
  exact ⟨(hh _ hV.owned.map).loaded hV.freeMapFile,
    (hh _ (live Walk.Reach.root)).loaded hV.directoryFile⟩

/-- The bits of its sectors are gone as well. -/
theorem erased (hV : Volume w E) (hu : Unlinked w w' E x (p ++ [k]))
    (hbits : ∀ j < NUM_SECTORS,
      mapBit w'.disk j = (mapBit w.disk j && decide (j ∉ footprint w.disk x))) :
    Volume w' E := by
  have hx := hu.reached
  have hl : ∀ s, Live w'.disk E s ↔ Live w.disk E s ∧ s ≠ x := by
    intro s
    rw [Live, hu.reach, Live]
    constructor
    · rintro (h | h | h)
      · refine ⟨Or.inl h, ?_⟩
        rintro rfl
        exact hV.names.notMap (h ▸ hx)
      · exact ⟨Or.inr (Or.inl h.1), h.2⟩
      · refine ⟨Or.inr (Or.inr h), ?_⟩
        rintro rfl
        exact (hV.removed s h).2 hx
    · rintro ⟨h | h | h, hsx⟩
      · exact Or.inl h
      · exact Or.inr (Or.inl ⟨h, hsx⟩)
      · exact Or.inr (Or.inr h)
  have ho : Owned w'.disk (Live w.disk E) := hV.owned.keep hu.header
  obtain ⟨hmap, hroot⟩ := hV.handles hu.onlyDisk hu.header
  refine ⟨?_, hu.names, ?_, fun s hs => ⟨(hV.removed s hs).1, fun hs' => ?_⟩, hmap, hroot⟩
  · have h0 : Live w'.disk E FreeMapSector := Or.inl rfl
    exact ho.subset (fun s hs => ((hl s).mp hs).1) h0
  · have hm := (hV.marks.erase hV.owned (live hx) hbits).congr hl
    intro j hj
    rw [hm j hj]
    refine exists_congr fun s => and_congr_right fun hs => ?_
    rw [(hu.header s ((hl s).mp hs).1).footprint (hV.owned.inode s ((hl s).mp hs).1)]
  · exact (hV.removed s hs).2 ((hu.reach s).mp hs').1

end Unlink

/-- All the sectors of a file are marked, so `Deallocate` and `Clear` take them out of the map. -/
theorem clears {m : BitMap} {hdr : FileHeader} {x : Nat} (hV : Volume w E) (hx : Live w.disk E x)
    (hm : Reads w.disk m) (hl : Loaded w.disk x hdr) :
    ∃ m₁ m₂, hdr.deallocate m = some m₁ ∧ m₁.clear x = some m₂ ∧ m₂.numBits = NUM_SECTORS ∧
      ∀ j < NUM_SECTORS, m₂.has j = (mapBit w.disk j && decide (j ∉ footprint w.disk x)) := by
  have hi := hV.owned.inode x hx
  have hset : ∀ u ∈ footprint w.disk x, m.has u = true := by
    intro u hu
    rw [hm.has u (hi.lt hu)]
    exact (hV.marks u (hi.lt hu)).mpr ⟨x, hx, hu⟩
  have hrest : ∀ u ∈ conts w.disk x ++ datas w.disk x, u ∈ footprint w.disk x := fun u hu =>
    List.mem_cons_of_mem _ hu
  obtain ⟨m₁, hdealloc, hb₁, hh₁⟩ := FileHeader.deallocate_spec (m := m) (hl.lists hi)
    (List.nodup_cons.mp hi.nodup).2
    (fun u hu => hm.numBits ▸ hi.lt (hrest u hu)) (fun u hu => hset u (hrest u hu))
  have hxlt : x < m₁.numBits := by
    rw [hb₁, hm.numBits]
    exact hi.onDisk
  obtain ⟨m₂, hclear, hb₂, hh₂⟩ := m₁.clear_eq hxlt
  refine ⟨m₁, m₂, hdealloc, hclear, by rw [hb₂, hb₁, hm.numBits], fun j hj => ?_⟩
  rw [hh₂, hh₁, hm.has j hj, Bool.and_assoc]
  congr 1
  rw [footprint]
  by_cases hjx : j = x <;> simp [hjx]

end Volume

namespace FileSystem

variable {w : World} {E : Nat → Prop}

/-- Freeing the sectors of the leaf `x` and removing its entry from the directory
    at `a`. -/
theorem wp_erase {name : List Byte} {a x : Nat} {hdr : FileHeader} {file : OpenFile}
    {dir : Directory} {Q : MsgError → World → Prop} (hV : Volume w E)
    (hwalk : Walk.walk (child w.disk) DirectorySector (dirKeys name) = some a)
    (hdir : intAt w.disk a 0 = 1) (hl : Loaded w.disk a file.hdr) (hd : dir.Holds w.disk a)
    (hlook : Slots.lookup dir.tableSize dir.slot (key (components name).2) = some (x : Int))
    (hlx : Loaded w.disk x hdr) (hleaf : ∀ l, child w.disk x l = none)
    (hok : ∀ w', Removed w w' E name →
      SameWalks w.disk w'.disk (dirKeys name ++ [lastKey name]) → Q .NoError w') :
    Prog.wp (erase hdr x dir (components name).2 file) Q w := by
  have ha : Reach w.disk a := ⟨_, hwalk⟩
  have haL : Live w.disk E a := Volume.live ha
  have ha0 : a ≠ FreeMapSector := fun he => hV.names.notMap (he ▸ ha)
  have hdis : Slots.Distinct dir.tableSize dir.slot := by
    rw [hd.tableSize]
    exact (hV.names.dirs a ha hdir).distinct.congr hd.slot
  have hchild : child w.disk a (lastKey name) = some x := by
    rw [child_of_holds hdir hd, lastKey, hlook, Option.map_some, Int.toNat_natCast]
  have hx : Reach w.disk x := ha.child hchild
  have hix := hV.inode hx
  unfold erase
  rw [Prog.wp_bind]
  refine BitMap.wp_fetchFreeMap hV.mapFile fun m w₁ hm hw₁ => ?_
  obtain ⟨k₁, rfl⟩ := hw₁
  obtain ⟨m₁, m₂, hdealloc, hclear, hnum, hcleared⟩ := hV.clears (Volume.live hx) hm hlx
  obtain ⟨i, hi, dir', hremove, hfull, hsz, hslot⟩ := Directory.remove_spec hdis hlook
  simp only [Prog.wp_bind, Prog.wp_ofOption, hremove, Prog.wp_pure]
  refine ⟨m₁, hdealloc, m₂, hclear, ?_⟩
  refine BitMap.wp_writeBack (w := { w with allocs := k₁ }) hV.mapFile hnum
    fun d₂ k₂ ho₂ hbits => ?_
  have hk₂ := hV.owned.keeps hV.owned.map ho₂
  have own₂ := hV.owned.keep fun s hs => (hk₂ s hs).1
  have hha := (hk₂ a haL).1
  refine Directory.wp_writeBack (hsz.trans hd.tableSize) (own₂.inode a haL) (hha.loaded hl)
    (by rw [hha.intAt]; exact (hV.names.dirs a ha hdir).length) fun d₃ k₃ ho₃ hd₃ => ?_
  have hk₃ := own₂.keeps haL ho₃
  have hk : Keeps w.disk d₃ (Live w.disk E) fun t => t = a ∨ t = FreeMapSector :=
    (hk₂.trans hk₃ hV.owned.inode).mono (fun t ht => ht) fun t h => h.symm
  have hmap₃ : ∀ j < NUM_SECTORS,
      mapBit d₃ j = (mapBit w.disk j && decide (j ∉ footprint w.disk x)) := by
    intro j hj
    have h0 := hk₃ _ hV.owned.map
    rw [mapBit_congr (own₂.inode _ own₂.map) own₂.mapLength h0.1 (h0.2 fun h => ha0 h.symm) hj,
      hbits j hj, hcleared j hj]
  have hw₃ : OnlyDisk w { w with disk := d₃, allocs := k₃ } := ⟨d₃, k₃, rfl⟩
  have hu₃ := hV.unlinks hw₃ hk hwalk hdir hd hd₃ hi hfull hslot hleaf
  refine hok _ ⟨⟨d₃, k₃, rfl⟩, hV.erased hu₃ hmap₃, hu₃.tree, hk.mono (fun t ht => ht) ?_, x, ?_,
    fun u hu => ?_⟩ hu₃.walks
  · rintro t (rfl | rfl)
    · exact Or.inl ⟨ha, hdir⟩
    · exact Or.inr rfl
  · rw [Walk.walk_concat, hwalk, Option.bind_some, hchild]
  · rw [hmap₃ u (hix.lt hu)]
    simp [hu]

theorem wp_remove {name : List Byte} {Q : MsgError → World → Prop} (hV : Volume w E)
    (hname : name.length < MaxFileNameSize)
    (hfail : ∀ e w', e ≠ .NoError → ¬ CanRemove w.disk name → OnlyAllocs w w' → Q e w')
    (hok : ∀ w', CanRemove w.disk name → Removed w w' E name →
      SameWalks w.disk w'.disk (dirKeys name ++ [lastKey name]) → Q .NoError w') :
    Prog.wp (remove name) Q w := by
  unfold remove copyName
  simp only [Prog.wp_bind, Prog.wp_assert, Prog.wp_pure]
  refine ⟨hname, wp_findDir hV (fun a w₁ hw₁ hwalk hdir => ?_) fun n w₁ hw₁ htree => ?_⟩
  · obtain ⟨k₁, rfl⟩ := hw₁
    have ha : Reach w.disk a := ⟨_, hwalk⟩
    have hV₁ : Volume { w with allocs := k₁ } E := hV.allocs ⟨k₁, rfl⟩
    have hnode := treeOf_concat (lastKey name) hwalk
    dsimp only
    rw [if_neg (by omega), Prog.wp_bind]
    refine wp_fetchDir hV₁ ha hdir fun file dir w₂ hw₂ hl hd => ?_
    obtain ⟨k₂, rfl⟩ := hw₂
    dsimp only
    rcases hd.find (hV.names.dirs a ha hdir) hdir (components name).2 with
      ⟨hchild, hfind, -⟩ | ⟨x, hchild, hfind, hlook⟩
    · rw [if_pos hfind, Prog.wp_pure]
      refine hfail _ _ (by decide) ?_ ⟨k₂, rfl⟩
      rintro ⟨n, hn⟩
      rw [hnode, lastKey, hchild] at hn
      cases hn
    · have hx : Reach w.disk x := ha.child hchild
      have hix := hV.inode hx
      simp only [hfind]
      rw [if_neg (by omega)]
      simp only [Prog.wp_bind, FileHeader.create, wp_newArray, Prog.wp_pure]
      refine FileHeader.wp_fetchFrom hix.onDisk (Int.le_trans hix.contCount_le (by decide))
        hix.conts_onDisk fun hdr hlx _ => ?_
      have hnode' : treeOf w.disk (dirKeys name ++ [lastKey name]) = some (nodeAt w.disk x) := by
        rw [hnode, lastKey, hchild, Option.map_some]
      by_cases hxdir : intAt w.disk x 0 = 1
      · rw [if_pos (by rw [hlx.isDir]; simpa using hxdir), Prog.wp_pure]
        refine hfail _ _ (by decide) ?_ ⟨k₂ + 1 + 1, rfl⟩
        rintro ⟨n, hn⟩
        rw [hnode', nodeAt_eq_dir.mpr hxdir] at hn
        cases hn
      · rw [if_neg (by rw [hlx.isDir]; simpa using hxdir)]
        refine wp_erase (hV.allocated (k₂ + 1 + 1)) hwalk hdir hl hd
          hlook hlx (fun l => by rw [child, if_neg hxdir]) fun w' hr hwalks => ?_
        obtain ⟨⟨d, k, rfl⟩, hvol, htree, hkeeps, hfreed⟩ := hr
        refine hok _ ⟨intAt w.disk x 1, ?_⟩ ⟨⟨d, k, rfl⟩, hvol, htree, hkeeps, hfreed⟩ hwalks
        rw [hnode', nodeAt, if_neg hxdir]
  · obtain ⟨k₁, rfl⟩ := hw₁
    dsimp only
    rw [if_pos rfl, Prog.wp_pure]
    refine hfail _ _ (by decide) ?_ ⟨k₁, rfl⟩
    rintro ⟨n, hn⟩
    exact htree (treeOf_parent (by rw [hn]; simp))

theorem wp_rmdir {name : List Byte} {Q : MsgError → World → Prop} (hV : Volume w E)
    (hname : name.length < MaxFileNameSize)
    (hfail : ∀ e w', e ≠ .NoError → ¬ CanRmdir w.disk name → OnlyAllocs w w' → Q e w')
    (hok : ∀ w', CanRmdir w.disk name → Removed w w' E name →
      SameWalks w.disk w'.disk (dirKeys name ++ [lastKey name]) → Q .NoError w') :
    Prog.wp (rmdir name) Q w := by
  unfold rmdir copyName
  simp only [Prog.wp_bind, Prog.wp_assert, Prog.wp_pure]
  refine ⟨hname, wp_findDir hV (fun a w₁ hw₁ hwalk hdir => ?_) fun n w₁ hw₁ htree => ?_⟩
  · obtain ⟨k₁, rfl⟩ := hw₁
    have ha : Reach w.disk a := ⟨_, hwalk⟩
    have hV₁ : Volume { w with allocs := k₁ } E := hV.allocs ⟨k₁, rfl⟩
    have hnode := treeOf_concat (lastKey name) hwalk
    dsimp only
    rw [if_neg (by omega), Prog.wp_bind]
    refine wp_fetchDir hV₁ ha hdir fun file dir w₂ hw₂ hl hd => ?_
    obtain ⟨k₂, rfl⟩ := hw₂
    dsimp only
    rcases hd.find (hV.names.dirs a ha hdir) hdir (components name).2 with
      ⟨hchild, hfind, -⟩ | ⟨x, hchild, hfind, hlook⟩
    · rw [if_pos (by rw [hfind]; decide), Prog.wp_pure]
      refine hfail _ _ (by decide) ?_ ⟨k₂, rfl⟩
      rintro ⟨hn, -⟩
      rw [hnode, lastKey, hchild] at hn
      cases hn
    · have hx : Reach w.disk x := ha.child hchild
      have hix := hV.inode hx
      have hwalkx : Walk.walk (child w.disk) DirectorySector (dirKeys name ++ [lastKey name]) =
          some x := by rw [Walk.walk_concat, hwalk, Option.bind_some, lastKey, hchild]
      simp only [hfind]
      rw [if_neg (by omega)]
      simp only [Prog.wp_bind, FileHeader.create, wp_newArray, Prog.wp_pure]
      refine FileHeader.wp_fetchFrom hix.onDisk (Int.le_trans hix.contCount_le (by decide))
        hix.conts_onDisk fun hdr hlx _ => ?_
      by_cases hxdir : intAt w.disk x 0 = 1
      · rw [if_neg (by rw [hlx.isDir]; simpa using hxdir), Prog.wp_bind]
        refine wp_fetchDir (hV.allocated (k₂ + 1 + 1)) hx hxdir
          fun file₃ thedir w₃ hw₃ _ hthe => ?_
        obtain ⟨k₃, rfl⟩ := hw₃
        dsimp only
        by_cases hempty : thedir.empty = true
        · -- No entry is in use, so the directory is a leaf.
          have hslots := Directory.empty_iff.mp hempty
          have hleaf : ∀ l, child w.disk x l = none := by
            intro l
            rw [child_of_holds hxdir hthe, Option.map_eq_none_iff, Slots.lookup_none]
            intro i hi v hv
            rw [hslots i hi] at hv
            cases hv
          rw [if_neg (by simp [hempty])]
          refine wp_erase (hV.allocated k₃) hwalk hdir hl hd
            hlook hlx hleaf fun w' hr hwalks => ?_
          obtain ⟨⟨d, k, rfl⟩, hvol, htree, hkeeps, hfreed⟩ := hr
          refine hok _ ⟨?_, fun k' => ?_⟩ ⟨⟨d, k, rfl⟩, hvol, htree, hkeeps, hfreed⟩ hwalks
          · rw [treeOf_of_walk hwalkx, nodeAt_eq_dir.mpr hxdir]
          · rw [treeOf_concat k' hwalkx, hleaf, Option.map_none]
        · rw [if_pos (by simpa using hempty), Prog.wp_pure]
          refine hfail _ _ (by decide) ?_ ⟨k₃, rfl⟩
          rintro ⟨-, hnone⟩
          refine hempty (Directory.empty_iff.mpr fun i hi => ?_)
          -- An entry in use would be a node below.
          cases hs : thedir.slot i with
          | none => rfl
          | some e =>
              obtain ⟨l, v⟩ := e
              have hdis : Slots.Distinct thedir.tableSize thedir.slot := by
                rw [hthe.tableSize]
                exact (hV.names.dirs x hx hxdir).distinct.congr hthe.slot
              have hbelow := hnone l
              rw [treeOf_concat l hwalkx, child_of_holds hxdir hthe,
                Slots.lookup_of_slot hdis hi hs] at hbelow
              cases hbelow
      · rw [if_pos (by rw [hlx.isDir]; simpa using hxdir), Prog.wp_pure]
        refine hfail _ _ (by decide) ?_ ⟨k₂ + 1 + 1, rfl⟩
        rintro ⟨hn, -⟩
        rw [treeOf_of_walk hwalkx] at hn
        exact hxdir (nodeAt_eq_dir.mp (Option.some.inj hn))
  · obtain ⟨k₁, rfl⟩ := hw₁
    dsimp only
    rw [if_pos (by decide), Prog.wp_pure]
    refine hfail _ _ (by decide) ?_ ⟨k₁, rfl⟩
    rintro ⟨hn, -⟩
    exact htree (treeOf_parent (by rw [hn]; simp))

end FileSystem

end Nachos
