/-
  Nachos.Filesys.StoreRuns

  The file system serves requests as the store does: the four calls, reads and writes
  through a handle of their own, and reboots, in any order from a formatted disk.
-/

import Nachos.Filesys.Store
import Nachos.Filesys.FsMisc
import Nachos.Filesys.Durable

namespace Nachos

open Words Program Config
open ArrayFile (elems overwrite)
open Transition (Run)

/-- The machine is switched on again with the disk that it had. -/
def World.reboot (w : World) (heap : Nat → Nat → Byte) : World :=
  { World.blank with disk := w.disk, heap := heap }

variable [Config]

/-- The program that serves a request. -/
def Demand.prog : Demand → Prog World Answer
  | call c => do
      let e ← c.prog
      return .result e
  | write name data p => do
      let openFile ← FileSystem.open name
      match openFile with
      | none => return .noFile
      | some file => do
          Prog.assert ((p : Int) ≤ file.length → InInt ((p : Int) + data.length))
          let (n, _) ← file.writeAt (fun i => data.getD i 0) data.length p
          return .count n
  | read name n p => do
      let openFile ← FileSystem.open name
      match openFile with
      | none => return .noFile
      | some file => do
          Prog.assert ((p : Int) < file.length → InInt ((p : Int) + n))
          let bytes ← file.readAt n p
          return .data bytes
  | reboot heap => do
      Prog.modify fun w => w.reboot heap
      FileSystem.mount
      return .ready

/-! ## The store on a disk -/

/-- The bytes of the file with the header at `s`. -/
def bytesAt (d : Disk) (s : Nat) : List Byte := elems (byteAt d s) (intAt d s 1).toNat

def itemAt (d : Disk) (s : Nat) : Item := if intAt d s 0 = 1 then .dir else .file (bytesAt d s)

/-- The tree on the disk, with the bytes of its files. -/
def storeOf (d : Disk) (p : List (List Byte)) : Option Item :=
  (Walk.walk (child d) DirectorySector p).map (itemAt d)

theorem bytesAt_congr {d d' : Disk} {s : Nat} (hi : Inode d s) (hh : SameHeader d d' s)
    (hd : SameData d d' s) : bytesAt d' s = bytesAt d s := by
  unfold bytesAt
  rw [hh.intAt]
  refine List.map_congr_left fun o ho => hh.byteAt hi hd ?_
  have := List.mem_range.mp ho
  omega

theorem itemAt_congr {d d' : Disk} {s : Nat} (hi : Inode d s) (hh : SameHeader d d' s)
    (hd : intAt d s 0 ≠ 1 → SameData d d' s) : itemAt d' s = itemAt d s := by
  unfold itemAt
  rw [hh.intAt]
  split
  · rfl
  · rename_i hfile
    rw [bytesAt_congr hi hh (hd hfile)]

/-- Where a path leads to the same item, the store has the same node. -/
theorem storeOf_congr {d d' : Disk} {p : List (List Byte)}
    (hw : Walk.walk (child d') DirectorySector p = Walk.walk (child d) DirectorySector p)
    (hitem : ∀ s, Walk.walk (child d) DirectorySector p = some s → itemAt d' s = itemAt d s) :
    storeOf d' p = storeOf d p := by
  unfold storeOf
  rw [hw]
  cases h : Walk.walk (child d) DirectorySector p with
  | none => rw [Option.map_none, Option.map_none]
  | some s => rw [Option.map_some, Option.map_some, hitem s h]

/-- The invariant: a sound volume whose headers have the numbers of their lengths. -/
structure Sound (w : World) : Prop where
  steady : Steady w
  tight : Tight w.disk

namespace Sound

variable {w w' : World}

theorem volume (h : Sound w) : Volume w noneRemoved := h.steady.volume

/-- Memory has been allocated. -/
theorem allocs (h : Sound w) (hw : OnlyAllocs w w') : Sound w' := by
  obtain ⟨k, rfl⟩ := hw
  exact ⟨⟨h.volume.allocated k, h.steady.unlocked⟩, h.tight⟩

theorem itemAt_node (h : Sound w) {s : Nat} (hs : Reach w.disk s) :
    (itemAt w.disk s).node = nodeAt w.disk s := by
  unfold itemAt nodeAt
  split
  · rfl
  · rw [Item.node, bytesAt, ArrayFile.length_elems, Int.toNat_of_nonneg (h.tight.node s hs).2]

theorem storeOf_node (h : Sound w) (p : List (List Byte)) :
    (storeOf w.disk p).map Item.node = treeOf w.disk p := by
  unfold storeOf treeOf
  cases hp : Walk.walk (child w.disk) DirectorySector p with
  | none => rfl
  | some s => rw [Option.map_some, Option.map_some, Option.map_some, h.itemAt_node ⟨p, hp⟩]

theorem storeOf_none (h : Sound w) {p : List (List Byte)} :
    storeOf w.disk p = none ↔ treeOf w.disk p = none := by
  rw [← h.storeOf_node p, Option.map_eq_none_iff]

/-- The store that the disk holds. -/
def store (h : Sound w) : Store where
  node := storeOf w.disk
  root := by
    show some (itemAt w.disk DirectorySector) = _
    rw [itemAt, if_pos h.volume.names.root]
  parent p k hk := by
    have hdir := treeOf_parent fun hn => hk (h.storeOf_none.mpr hn)
    obtain ⟨s, hs, hnode⟩ := walk_of_treeOf hdir
    rw [storeOf, hs, Option.map_some, itemAt, if_pos (nodeAt_eq_dir.mp hnode)]
  finite := h.volume.finite_tree.subset fun p hp hn => hp (h.storeOf_none.mpr hn)

theorem store_names (h : Sound w) : h.store.names = h.volume.fileTree :=
  NameTree.ext (funext fun p => h.storeOf_node p)

/-- The sectors of the store. -/
theorem space (h : Sound w) : freeSectors w.disk + cells FreeMapFileSize +
    ∑ p ∈ h.store.finite.toFinset, ((h.store.node p).map fun i => cells i.node.length).getD 0 =
      NUM_SECTORS := by
  have hsum : ∑ p ∈ h.store.finite.toFinset,
      ((h.store.node p).map fun i => cells i.node.length).getD 0 =
      ∑ p ∈ h.volume.finite_tree.toFinset,
        ((treeOf w.disk p).map fun n => cells n.length).getD 0 := by
    refine Finset.sum_congr ?_ fun p hp => ?_
    · ext p
      rw [Set.Finite.mem_toFinset, Set.Finite.mem_toFinset]
      exact not_congr h.storeOf_none
    · rw [← h.storeOf_node p, Option.map_map]
      rfl
  rw [hsum]
  exact h.volume.space h.tight

/-- The clear sectors of the disk are those of the store. -/
theorem store_free (h : Sound w) : h.store.free = freeSectors w.disk := by
  have hspace := h.space
  rw [Nat.add_assoc] at hspace
  exact (Nat.eq_sub_of_add_eq hspace).symm

theorem allowed_iff (h : Sound w) (c : Call) :
    h.store.names.Allowed h.store.free c ↔ c.Succeeds w.disk := by
  rw [h.store_names, h.store_free]
  exact (h.volume.succeeds_iff c).symm

end Sound

/-! ## The four calls -/

/-- What a call that has succeeded leaves: the other paths lead where they led, to headers that
    are the same, and the bytes of the files are. -/
structure Kept (w w' : World) (c : Call) : Prop where
  done : Done w w' c
  walks : SameWalks w.disk w'.disk (placeOf c.path)
  keeps : Keeps w.disk w'.disk (Live w.disk noneRemoved) (Written w.disk)
  sized : ∀ n, c.node = some n → NamesSized w'.disk c.path n.length

theorem wp_call_kept {c : Call} {w : World} {Q : MsgError → World → Prop}
    (hV : Volume w noneRemoved) (hlock : w.createLock = false) (hc : c.Legal)
    (hfail : ∀ e w', e ≠ .NoError → ¬ c.Succeeds w.disk → OnlyAllocs w w' → Q e w')
    (hok : ∀ w', c.Succeeds w.disk → Kept w w' c → Q .NoError w') :
    Prog.wp c.prog Q w := by
  obtain ⟨hlen, -, hsize⟩ := hc
  cases c with
  | create name size =>
      obtain ⟨⟨hlo, -⟩, hhi⟩ := hsize name size rfl
      refine FileSystem.wp_create_sized hV hlock hlen hlo hhi hfail fun w' hs hd hw hsized =>
        hok w' hs ⟨⟨hd.onlyDisk, hd.volume, hd.tree⟩, hw, hd.keeps, fun n hn => ?_⟩
      obtain rfl := Option.some.inj hn
      exact hsized
  | mkdir name =>
      refine FileSystem.wp_mkdir_sized hV hlen hfail fun w' hs hd hw hsized =>
        hok w' hs ⟨⟨hd.onlyDisk, hd.volume, hd.tree⟩, hw, hd.keeps, fun n hn => ?_⟩
      obtain rfl := Option.some.inj hn
      exact hsized
  | remove name =>
      exact FileSystem.wp_remove hV hlen hfail fun w' hs hd hw =>
        hok w' hs ⟨⟨hd.onlyDisk, hd.volume, hd.tree⟩, hw, hd.keeps, fun n hn => by cases hn⟩
  | rmdir name =>
      exact FileSystem.wp_rmdir hV hlen hfail fun w' hs hd hw =>
        hok w' hs ⟨⟨hd.onlyDisk, hd.volume, hd.tree⟩, hw, hd.keeps, fun n hn => by cases hn⟩

namespace Sound

variable {w w' : World}

/-- A path other than that of the call leads to the same item. -/
theorem storeOf_kept (h : Sound w) {c : Call} (hk : Kept w w' c) {p : List (List Byte)}
    (hp : p ≠ placeOf c.path) : storeOf w'.disk p = storeOf w.disk p := by
  refine storeOf_congr (hk.walks p hp) fun s hs => ?_
  have hr : Reach w.disk s := ⟨p, hs⟩
  obtain ⟨hh, hd⟩ := hk.keeps s (Volume.live hr)
  refine itemAt_congr (h.volume.inode hr) hh fun hfile => hd ?_
  -- A regular file is neither a directory nor the map.
  rintro (⟨-, hdir⟩ | hmap)
  · exact hfile hdir
  · exact h.volume.names.notMap (hmap ▸ hr)

/-- The headers have the numbers of their lengths after the call. -/
theorem tight_kept (h : Sound w) {c : Call} (hk : Kept w w' c)
    (hsize : ∀ name size, c = .create name size → 0 ≤ size) : Tight w'.disk := by
  refine ⟨(hk.keeps _ h.volume.owned.map).1.sizedAt h.tight.map, ?_⟩
  rintro s ⟨q, hq⟩
  by_cases hplace : q = placeOf c.path
  · -- The new node.
    subst hplace
    have htree := treeOf_of_walk hq
    rw [hk.done.tree, Function.update_self] at htree
    obtain ⟨x, hx, hsized⟩ := hk.sized _ htree
    obtain rfl : x = s := Option.some.inj (hx.symm.trans hq)
    have hlen := hsized.numBytes
    refine ⟨hlen ▸ hsized, ?_⟩
    rw [hlen]
    cases c with
    | create name size =>
        have hnode : Node.file size = nodeAt w'.disk x := Option.some.inj htree
        rw [← hnode]
        exact hsize name size rfl
    | mkdir name =>
        have hnode : Node.dir = nodeAt w'.disk x := Option.some.inj htree
        rw [← hnode]
        exact Int.natCast_nonneg _
    | remove name => cases htree
    | rmdir name => cases htree
  · rw [hk.walks q hplace] at hq
    have hs := h.tight.node s ⟨q, hq⟩
    have hh := (hk.keeps s (Volume.live ⟨q, hq⟩)).1
    rw [hh.intAt]
    exact ⟨hh.sizedAt hs.1, hs.2⟩

/-- A call does to the disk what it does to the store. -/
theorem serve_call (h : Sound w) {c : Call} (hc : h.store.Legal (.call c)) :
    Prog.wp (Demand.prog (.call c))
      (fun a w' => ∃ h' : Sound w', h.store.Serves (.call c) a h'.store) w := by
  obtain ⟨hlegal, hsize⟩ := hc
  unfold Demand.prog
  simp only [Prog.wp_bind, Prog.wp_pure]
  refine wp_call_kept h.volume h.steady.unlocked hlegal (fun e w' he hs hw => ?_)
    fun w' hs hk => ?_
  · obtain ⟨k, rfl⟩ := hw
    exact ⟨h.allocs ⟨k, rfl⟩, .refused (fun ha => hs ((h.allowed_iff c).mp ha)) he⟩
  · have hlock : w'.createLock = false := by
      obtain ⟨d, k, rfl⟩ := hk.done.onlyDisk
      exact h.steady.unlocked
    have h' : Sound w' := ⟨⟨hk.done.volume, hlock⟩, h.tight_kept hk hsize⟩
    have hnode : (storeOf w'.disk (placeOf c.path)).map Item.node = c.node := by
      rw [h'.storeOf_node, hk.done.tree, Function.update_self]
    refine ⟨h', .done ((h.allowed_iff c).mpr hs) hnode (funext fun p => ?_)⟩
    by_cases hp : p = placeOf c.path
    · rw [hp, Function.update_self]
      rfl
    · rw [Function.update_of_ne hp]
      exact h.storeOf_kept hk hp

end Sound

/-! ## A file that has been opened -/

/-- The bytes of a handle are those on the disk. -/
theorem Loaded.content {w : World} {file : OpenFile} {s : Nat} (hl : Loaded w.disk s file.hdr)
    (h : Inode w.disk s) : OpenFile.content w file = bytesAt w.disk s := by
  unfold OpenFile.content bytesAt
  rw [hl.numBytes]
  refine List.map_congr_left fun o ho => ?_
  have := List.mem_range.mp ho
  exact hl.fileByte h (by omega)

theorem SizedAt.counts {d : Disk} {s : Nat} (h : SizedAt d s (intAt d s 1))
    (hpos : 0 ≤ intAt d s 1) :
    intAt d s 2 = sectorCount (intAt d s 1).toNat ∧
      intAt d s 3 = chainLength (sectorCount (intAt d s 1).toNat) := by
  obtain ⟨n, hn⟩ := Int.eq_ofNat_of_zero_le hpos
  have h2 := h.numSectors
  have h3 := h.numHeaderSectors
  rw [hn, sectorsFor_natCast] at h2 h3
  rw [headersFor_natCast] at h3
  rw [hn, Int.toNat_natCast]
  exact ⟨h2, h3⟩

namespace Sound

variable {w w' : World} {x : Nat} {name : List Byte}

theorem marked (h : Sound w) {s u : Nat} (hs : Live w.disk noneRemoved s)
    (hu : u ∈ footprint w.disk s) : u < NUM_SECTORS ∧ mapBit w.disk u = true := by
  have hlt := (h.volume.owned.inode s hs).lt hu
  exact ⟨hlt, (h.volume.marks u hlt).mpr ⟨s, hs, hu⟩⟩

/-- A file of the tree can be opened and written. -/
theorem soundFile (h : Sound w) (hx : Reach w.disk x) : OpenFile.SoundFile w x := by
  have hxL : Live w.disk noneRemoved x := Volume.live hx
  have hmapL : Live w.disk noneRemoved FreeMapSector := h.volume.owned.map
  obtain ⟨hsized, hpos⟩ := h.tight.node x hx
  obtain ⟨h2, h3⟩ := hsized.counts hpos
  refine ⟨h.volume.inode hx, ?_, hpos, fun u hu => (h.marked hxL hu).2, h.volume.mapFile,
    fun u hu => (h.marked hmapL hu).2, fun u hu hmap => ?_⟩
  · rw [h3, dataCount, h2, Int.toNat_natCast]
  · exact h.volume.names.notMap (h.volume.owned.apart x _ u hxL hmapL hu hmap ▸ hx)

theorem has_iff (h : Sound w) {bytes : List Byte} :
    h.store.Has name bytes ↔ ∃ x, FoundAt w.disk name x ∧ bytesAt w.disk x = bytes := by
  show storeOf w.disk (placeOf name) = _ ↔ _
  unfold storeOf
  constructor
  · intro he
    obtain ⟨x, hx, hitem⟩ := Option.map_eq_some_iff.mp he
    unfold itemAt at hitem
    split at hitem
    · cases hitem
    · rename_i hfile
      exact ⟨x, ⟨hx, hfile⟩, Item.file.inj hitem⟩
  · rintro ⟨x, hx, rfl⟩
    rw [hx.walk, Option.map_some, itemAt, if_neg hx.file]

/-- `Open` gives a handle with the stored header, or there is no such file. -/
theorem wp_open (h : Sound w) {Q : Option OpenFile → World → Prop}
    (hname : name.length < MaxFileNameSize)
    (hnone : (∀ bytes, ¬ h.store.Has name bytes) → ∀ k, Q none { w with allocs := k })
    (hsome : ∀ x file k, FoundAt w.disk name x → OpenFile.Stored { w with allocs := k } file x
      (conts w.disk x) (datas w.disk x) → OpenFile.content w file = bytesAt w.disk x →
        Q (some file) { w with allocs := k }) :
    Prog.wp (FileSystem.open name) Q w := by
  refine FileSystem.wp_open_cases h.volume hname (fun hnot => hnone fun bytes hb => ?_)
    fun x file k hx hfs hseek hl => ?_
  · obtain ⟨x, hx, -⟩ := h.has_iff.mp hb
    exact hnot x hx
  · exact hsome x file k hx (((h.soundFile hx.reach).allocs k).stored hfs
      (Int.le_of_eq hseek.symm) hl) (hl.content (h.volume.inode hx.reach))

/-- A read returns the bytes of the store. -/
theorem serve_read (h : Sound w) {n p : Nat} (hq : h.store.Legal (.read name n p)) :
    Prog.wp (Demand.prog (.read name n p))
      (fun a w' => ∃ h' : Sound w', h.store.Serves (.read name n p) a h'.store) w := by
  obtain ⟨hname, hint⟩ := hq
  unfold Demand.prog
  rw [Prog.wp_bind]
  refine h.wp_open hname (fun hnone k => ?_) fun x file k hx hst hcontent => ?_
  · rw [Prog.wp_pure]
    exact ⟨h.allocs ⟨k, rfl⟩, .readNothing hnone⟩
  · have hhas : h.store.Has name (bytesAt w.disk x) := h.has_iff.mpr ⟨x, hx, rfl⟩
    have hlen : file.length = (bytesAt w.disk x).length := by
      rw [← hcontent]
      exact (hst.handle.length_content (w := { w with allocs := k })).symm
    simp only [Prog.wp_bind, Prog.wp_assert, Prog.wp_pure]
    refine ⟨fun hlt => hint _ hhas (by omega), ?_⟩
    refine Prog.wp_mono (hst.handle.wp_readAt n p) fun bytes w' hr => ?_
    obtain ⟨⟨k', rfl⟩, rfl⟩ := hr
    refine ⟨h.allocs ⟨k', rfl⟩, ?_⟩
    have hserve := Store.Serves.read (n := n) (p := p) hhas
    rwa [← hcontent] at hserve

end Sound

/-! ## A file that grows -/

/-- The file at `x` has got the sectors `L`; the other files are the same. -/
structure Grew (w w' : World) (x : Nat) (L : List Nat) : Prop where
  onlyDisk : OnlyDisk w w'
  others : ∀ t, Live w.disk noneRemoved t → t ≠ x → SameHeader w.disk w'.disk t ∧
    (t ≠ FreeMapSector → SameData w.disk w'.disk t)
  inode : Inode w'.disk x
  isdir : intAt w'.disk x 0 = intAt w.disk x 0
  footprint : ∀ u, u ∈ footprint w'.disk x ↔ u ∈ footprint w.disk x ∨ u ∈ L
  taken : OpenFile.Taken w.disk L (mapBit w'.disk)

namespace Grew

variable {w w' : World} {x : Nat} {L : List Nat}

/-- The file is none, so that no entry depends on its bytes. -/
theorem child (h : Grew w w' x L) (hV : Volume w noneRemoved) (hfile : intAt w.disk x 0 ≠ 1)
    {t : Nat} (ht : Reach w.disk t) : child w'.disk t = Nachos.child w.disk t := by
  by_cases htx : t = x
  · subst htx
    funext l
    rw [Nachos.child, Nachos.child, h.isdir, if_neg hfile, if_neg hfile]
  · obtain ⟨hh, hd⟩ := h.others t (Volume.live ht) htx
    exact child_congr (hV.inode ht) hh (hd fun he => hV.names.notMap (he ▸ ht)) (hV.names.dirs t ht)

theorem walk (h : Grew w w' x L) (hV : Volume w noneRemoved) (hfile : intAt w.disk x 0 ≠ 1)
    (p : List (List Byte)) : Walk.walk (Nachos.child w'.disk) DirectorySector p =
      Walk.walk (Nachos.child w.disk) DirectorySector p :=
  Walk.walk_congr (fun _ ht => h.child hV hfile ht) p

theorem reach (h : Grew w w' x L) (hV : Volume w noneRemoved) (hfile : intAt w.disk x 0 ≠ 1)
    (t : Nat) : Reach w'.disk t ↔ Reach w.disk t := exists_congr fun p => by rw [h.walk hV hfile]

/-- The sectors of another file are the same. -/
theorem footprint_of_ne (h : Grew w w' x L) (hV : Volume w noneRemoved) {t : Nat}
    (ht : Live w.disk noneRemoved t) (htx : t ≠ x) :
    Nachos.footprint w'.disk t = Nachos.footprint w.disk t :=
  (h.others t ht htx).1.footprint (hV.owned.inode t ht)

theorem owned (h : Grew w w' x L) (hV : Volume w noneRemoved) (hx : Reach w.disk x) :
    Owned w'.disk (Live w.disk noneRemoved) := by
  have hxmap : FreeMapSector ≠ x := fun he => hV.names.notMap (he ▸ hx)
  -- A sector that is taken was in no file.
  have hfresh : ∀ t, Live w.disk noneRemoved t → ∀ u ∈ L, u ∉ Nachos.footprint w.disk t := by
    intro t ht u hu hmem
    obtain ⟨hlt, hclear⟩ := h.taken.clear u hu
    have hset := (hV.marks u hlt).mpr ⟨t, ht, hmem⟩
    rw [hclear] at hset
    cases hset
  have hapart : ∀ t u, Live w.disk noneRemoved t → t ≠ x → u ∈ Nachos.footprint w'.disk t →
      u ∉ Nachos.footprint w'.disk x := by
    intro t u ht htx hu hu'
    rw [h.footprint_of_ne hV ht htx] at hu
    rcases (h.footprint u).mp hu' with hu' | hu'
    · exact htx (hV.owned.apart t x u ht (Volume.live hx) hu hu')
    · exact hfresh t ht u hu' hu
  refine ⟨fun t ht => ?_, fun t t' u ht ht' hu hu' => ?_, Or.inl rfl, ?_⟩
  · by_cases htx : t = x
    · exact htx ▸ h.inode
    · exact (h.others t ht htx).1.inode (hV.owned.inode t ht)
  · by_cases htx : t = x
    · by_cases htx' : t' = x
      · exact htx.trans htx'.symm
      · exact absurd (htx ▸ hu) (hapart t' u ht' htx' hu')
    · by_cases htx' : t' = x
      · exact absurd (htx' ▸ hu') (hapart t u ht htx hu)
      · rw [h.footprint_of_ne hV ht htx] at hu
        rw [h.footprint_of_ne hV ht' htx'] at hu'
        exact hV.owned.apart t t' u ht ht' hu hu'
  · rw [(h.others _ hV.owned.map hxmap).1.intAt]
    exact hV.owned.mapLength

/-- The bits are those of the old sectors and of the new ones. -/
theorem marks (h : Grew w w' x L) (hV : Volume w noneRemoved) (hx : Reach w.disk x) :
    Marks (mapBit w'.disk) w'.disk (Live w.disk noneRemoved) := by
  intro i hi
  rw [h.taken.bits i hi, Bool.or_eq_true, decide_eq_true_eq, hV.marks i hi]
  constructor
  · rintro (⟨t, ht, hu⟩ | hu)
    · refine ⟨t, ht, ?_⟩
      by_cases htx : t = x
      · rw [htx] at hu ⊢
        exact (h.footprint i).mpr (Or.inl hu)
      · rwa [h.footprint_of_ne hV ht htx]
    · exact ⟨x, Volume.live hx, (h.footprint i).mpr (Or.inr hu)⟩
  · rintro ⟨t, ht, hu⟩
    by_cases htx : t = x
    · rw [htx] at hu
      exact ((h.footprint i).mp hu).imp_left fun hu => ⟨x, Volume.live hx, hu⟩
    · rw [h.footprint_of_ne hV ht htx] at hu
      exact Or.inl ⟨t, ht, hu⟩

theorem volume (h : Grew w w' x L) (hV : Volume w noneRemoved) (hx : Reach w.disk x)
    (hfile : intAt w.disk x 0 ≠ 1) : Volume w' noneRemoved := by
  have hreach := h.reach hV hfile
  have hlive : ∀ t, Live w'.disk noneRemoved t ↔ Live w.disk noneRemoved t := fun t => by
    rw [Live, Live, hreach]
  have hxmap : FreeMapSector ≠ x := fun he => hV.names.notMap (he ▸ hx)
  have hxroot : DirectorySector ≠ x := fun he => hfile (he ▸ hV.names.root)
  have hroot := (h.others _ (Volume.live Walk.Reach.root) hxroot).1
  refine ⟨(h.owned hV hx).congr hlive, ⟨?_, ?_, fun t ht hdir => ?_, ?_⟩,
    (h.marks hV hx).congr hlive, fun t ht => ht.elim, ?_, ?_⟩
  · rw [hroot.intAt]
    exact hV.names.root
  · exact hV.names.tree.congr fun t ht => h.child hV hfile ht
  · have ht' := (hreach t).mp ht
    have htx : t ≠ x := fun he => hfile (by rw [← h.isdir, ← he]; exact hdir)
    obtain ⟨hh, hd⟩ := h.others t (Volume.live ht') htx
    rw [hh.intAt] at hdir
    exact (hV.names.dirs t ht' hdir).keep (hV.inode ht') hh
      (hd fun he => hV.names.notMap (he ▸ ht'))
  · exact fun ht => hV.names.notMap ((hreach _).mp ht)
  · obtain ⟨d, k, rfl⟩ := h.onlyDisk
    exact (h.others _ hV.owned.map hxmap).1.loaded hV.freeMapFile
  · obtain ⟨d, k, rfl⟩ := h.onlyDisk
    exact hroot.loaded hV.directoryFile

end Grew

namespace Sound

variable {w w' : World} {x : Nat} {name : List Byte} {file : OpenFile} {data : List Byte} {p : Nat}
  {r : Int × OpenFile}

/-- What a write leaves of the volume, and the bytes that the disk keeps of it. -/
structure Wrote (w w' : World) (x : Nat) (data : List Byte) (p : Nat) (L : List Nat) : Prop where
  grew : Grew w w' x L
  sized : SizedAt w'.disk x (intAt w'.disk x 1)
  length_nonneg : 0 ≤ intAt w'.disk x 1
  bytes : bytesAt w'.disk x = written (bytesAt w.disk x) data p

/-- The numbers of a handle that has just been opened. -/
theorem handle_counts (h : Sound w) (hx : Reach w.disk x)
    (hst : OpenFile.Stored w file x (conts w.disk x) (datas w.disk x)) :
    file.hdr.numBytes = ((bytesAt w.disk x).length : Int) ∧
      (datas w.disk x).length = sectorCount (bytesAt w.disk x).length ∧
      (conts w.disk x).length = chainLength (sectorCount (bytesAt w.disk x).length) ∧
      file.hdr.maxFileLength = (sectorCount (bytesAt w.disk x).length * SectorSize : Nat) := by
  obtain ⟨hsized, hpos⟩ := h.tight.node x hx
  obtain ⟨h2, h3⟩ := hsized.counts hpos
  have hlen : (bytesAt w.disk x).length = (intAt w.disk x 1).toNat := ArrayFile.length_elems
  have hds : (datas w.disk x).length = sectorCount (bytesAt w.disk x).length := by
    rw [hlen, datas, List.length_map, List.length_range, dataCount, h2, Int.toNat_natCast]
  refine ⟨?_, hds, ?_, ?_⟩
  · rw [hst.loaded.numBytes, hlen, Int.toNat_of_nonneg hpos]
  · rw [hlen, conts, List.length_map, List.length_range, contCount, h3, Int.toNat_natCast]
  · rw [hst.handle.maxFileLength, hds]

/-- A write in the sectors that the file has. -/
theorem wrote_within (h : Sound w) (hx : Reach w.disk x)
    (hst : OpenFile.Stored w file x (conts w.disk x) (datas w.disk x))
    (hput : OpenFile.Put w file x (conts w.disk x) (datas w.disk x) data p r w')
    (htakes : OpenFile.Takes w file x (conts w.disk x) (datas w.disk x) r.2 w')
    (hp : p ≤ (bytesAt w.disk x).length)
    (hfit : p + data.length ≤ sectorCount (bytesAt w.disk x).length * SectorSize) :
    Wrote w w' x data p [] := by
  obtain ⟨hnum, -, -, hcap⟩ := h.handle_counts hx hst
  have hxL : Live w.disk noneRemoved x := Volume.live hx
  have hi := h.volume.inode hx
  obtain ⟨hhdr, hframe⟩ := hput.within (by rw [hcap]; exact_mod_cast hfit)
  have honly : OnlyData w.disk w'.disk x := hframe
  have hk := h.volume.owned.keeps hxL honly
  have hsame := honly.sameHeader hi
  have hxmap : FreeMapSector ≠ x := fun he => h.volume.names.notMap (he ▸ hx)
  obtain ⟨hhmap, hdmap⟩ := hk _ h.volume.owned.map
  have hlen : (bytesAt w.disk x).length = (intAt w.disk x 1).toNat := ArrayFile.length_elems
  refine ⟨⟨htakes.onlyDisk, fun t ht htx => ⟨(hk t ht).1, fun _ => (hk t ht).2 htx⟩,
    hsame.inode hi, hsame.intAt 0, fun u => ?_, List.nodup_nil,
    fun u hu => absurd hu List.not_mem_nil, fun i hlt => ?_⟩, ?_, ?_, ?_⟩
  · rw [hsame.footprint hi]
    simp
  · rw [mapBit_congr (h.volume.owned.inode _ h.volume.owned.map) h.volume.owned.mapLength hhmap
      (hdmap hxmap) hlt, decide_eq_false List.not_mem_nil, Bool.or_false]
  · rw [hsame.intAt]
    exact hsame.sizedAt (h.tight.node x hx).1
  · rw [hsame.intAt]
    exact (h.tight.node x hx).2
  · -- The handle may have more bytes than the header on the disk.
    have hcontent := hput.content
    rw [hst.loaded.content hi] at hcontent
    have hbyte : ∀ o, o < (intAt w.disk x 1).toNat →
        fileByte w'.disk r.2.hdr o = byteAt w'.disk x o := by
      intro o ho
      have ho' : (o : Int) < intAt w.disk x 1 := by omega
      rw [hhdr]
      show fileByte w'.disk file.hdr o = _
      rw [hst.loaded.fileByte hi ho', byteAt,
        hsame.dataAt (Nat.lt_of_lt_of_le (hi.index_lt ho') hi.room)]
    have hkept : bytesAt w'.disk x = (overwrite (bytesAt w.disk x) data p).take
        (bytesAt w.disk x).length := by
      rw [← hcontent, OpenFile.content, hhdr]
      show _ = ((elems _ (max file.hdr.numBytes.toNat (p + data.length))).take _)
      rw [hnum, Int.toNat_natCast, bytesAt, hsame.intAt, hlen]
      apply List.ext_getElem
      · simp
      · intro o ho ho'
        rw [ArrayFile.length_elems] at ho
        rw [ArrayFile.getElem_elems, List.getElem_take, ArrayFile.getElem_elems, ← hbyte o ho,
          hhdr]
        rfl
    rw [hkept, written, if_pos hp, if_neg (by omega)]

/-- A write that takes new sectors, in the chain that the header has. -/
theorem wrote_beyond (h : Sound w) (hx : Reach w.disk x)
    (hst : OpenFile.Stored w file x (conts w.disk x) (datas w.disk x))
    (hput : OpenFile.Put w file x (conts w.disk x) (datas w.disk x) data p r w')
    (htakes : OpenFile.Takes w file x (conts w.disk x) (datas w.disk x) r.2 w')
    (hp : p ≤ (bytesAt w.disk x).length)
    (hgrow : sectorCount (bytesAt w.disk x).length * SectorSize < p + data.length)
    (hchain : chainLength (sectorCount (p + data.length)) =
      chainLength (sectorCount (bytesAt w.disk x).length)) :
    ∃ L, Wrote w w' x data p L := by
  obtain ⟨hnum, hds, hcs, hcap⟩ := h.handle_counts hx hst
  have hxL : Live w.disk noneRemoved x := Volume.live hx
  have hi := h.volume.inode hx
  obtain ⟨hl, hre⟩ := hput.stored (by rw [hcap]; exact_mod_cast hgrow)
  obtain ⟨honly, hisdir, cs', ds', h', htaken⟩ := htakes
  obtain ⟨_, _, -, hothers⟩ := hput.handle
  -- The numbers of the new header.
  have hnb : intAt w'.disk x 1 = ((p + data.length : Nat) : Int) := hl.numBytes ▸ hre.numBytes
  have hns : intAt w'.disk x 2 = (sectorCount (p + data.length) : Int) := by
    rw [← hl.numSectors, hre.numSectors, sectorsFor_natCast]
  have hnh : intAt w'.disk x 3 = (chainLength (sectorCount (p + data.length)) : Int) := by
    rw [← hl.numHeaderSectors, hre.numHeaderSectors, hst.handle.header.numSectors, hds,
      headersFor_natCast, hchain]
  have hlds : (datas w.disk x ++ ds').length = sectorCount (p + data.length) := by
    have hn := h'.header.numSectors
    rw [hl.numSectors, hns] at hn
    exact_mod_cast hn.symm
  have hlcs : (conts w.disk x ++ cs').length = chainLength (sectorCount (p + data.length)) := by
    have hn := h'.header.numHeaderSectors
    rw [hl.numHeaderSectors, hnh] at hn
    exact_mod_cast hn.symm
  have hroom : (datas w.disk x ++ ds').length ≤
      datasInFirstSector + (conts w.disk x ++ cs').length * datasInSector := by
    have hcover := FileHeader.headersFor_cover (sectorCount (p + data.length) : Int)
    rw [headersFor_natCast, Int.toNat_natCast, Int.toNat_natCast] at hcover
    rw [hlds, hlcs]
    exact hcover
  obtain ⟨hi', hcs', hds'⟩ := h'.inode hl hroom
  -- The sectors of the other files are none of the handle's.
  have hsame : ∀ t, Live w.disk noneRemoved t → t ≠ x → ∀ u ∈ footprint w.disk t,
      u ∉ datas w.disk FreeMapSector → w'.disk u = w.disk u := by
    intro t ht htx u hu hmap
    obtain ⟨hlt, hset⟩ := h.marked ht hu
    exact (hothers u ⟨hlt, hset, fun hown => htx (h.volume.owned.apart t x u ht hxL hu hown),
      hmap⟩).2
  have hnotmap : ∀ t, Live w.disk noneRemoved t → t ≠ FreeMapSector → ∀ u ∈ footprint w.disk t,
      u ∉ datas w.disk FreeMapSector := fun t ht htm u hu hmap =>
    htm (h.volume.owned.apart t _ u ht h.volume.owned.map hu (Owned.data_mem hmap))
  refine ⟨cs' ++ ds', ⟨honly, fun t ht htx => ⟨fun u hu => ?_, fun htm u hu => ?_⟩, hi', ?_,
    fun u => ?_, htaken⟩, ?_, ?_, ?_⟩
  · refine hsame t ht htx u (Owned.header_mem hu) ?_
    by_cases htm : t = FreeMapSector
    · subst htm
      exact (h.volume.owned.inode _ ht).header_not_data hu
    · exact hnotmap t ht htm u (Owned.header_mem hu)
  · exact hsame t ht htx u (Owned.data_mem hu) (hnotmap t ht htm u (Owned.data_mem hu))
  · rw [← hl.isdir, hisdir, hst.loaded.isdir]
  · rw [footprint, hcs', hds', OpenFile.Handle.mem_grown]
    rfl
  · refine ⟨rfl, ?_, ?_⟩
    · rw [hnb, hns, sectorsFor_natCast]
    · rw [hnb, hnh, sectorsFor_natCast, headersFor_natCast]
  · rw [hnb]
    exact Int.natCast_nonneg _
  · rw [← hl.content hi', hput.content, hst.loaded.content hi, written, if_pos hp, if_pos hgrow]

/-- The invariant after a write, and what it has done to the store. -/
theorem wrote (h : Sound w) {L : List Nat} (hx : FoundAt w.disk name x)
    (hw : Wrote w w' x data p L) :
    ∃ h' : Sound w', h'.store.node = Function.update h.store.node (placeOf name)
      (some (.file (written (bytesAt w.disk x) data p))) := by
  have hgrew := hw.grew
  have hV := h.volume
  have hV' := hgrew.volume hV hx.reach hx.file
  have hxmap : FreeMapSector ≠ x := fun he => hV.names.notMap (he ▸ hx.reach)
  have hlock : w'.createLock = false := by
    obtain ⟨d, k, rfl⟩ := hgrew.onlyDisk
    exact h.steady.unlocked
  refine ⟨⟨⟨hV', hlock⟩, (hgrew.others _ hV.owned.map hxmap).1.sizedAt h.tight.map,
    fun t ht => ?_⟩, funext fun q => ?_⟩
  · have ht' := (hgrew.reach hV hx.file t).mp ht
    by_cases htx : t = x
    · exact htx ▸ ⟨hw.sized, hw.length_nonneg⟩
    · have hh := (hgrew.others t (Volume.live ht') htx).1
      rw [hh.intAt]
      exact ⟨hh.sizedAt (h.tight.node t ht').1, (h.tight.node t ht').2⟩
  · show storeOf w'.disk q = _
    have hwalk := hgrew.walk hV hx.file q
    by_cases hq : q = placeOf name
    · rw [hq, Function.update_self, storeOf, ← hq, hwalk, hq, hx.walk, Option.map_some, itemAt,
        hgrew.isdir, if_neg hx.file, hw.bytes]
    · rw [Function.update_of_ne hq]
      refine storeOf_congr hwalk fun t ht => ?_
      have hr : Reach w.disk t := ⟨q, ht⟩
      have htx : t ≠ x := fun he => hq (hV.names.tree.path_unique ht (he ▸ hx.walk))
      obtain ⟨hh, hd⟩ := hgrew.others t (Volume.live hr) htx
      exact itemAt_congr (hV.inode hr) hh fun _ => hd fun he => hV.names.notMap (he ▸ hr)

/-- A write that is none leaves the bytes as they were. -/
theorem written_none {bytes : List Byte} (hnone : data.length = 0 ∨ bytes.length < p) :
    written bytes data p = bytes := by
  unfold written
  split
  · obtain rfl := List.eq_nil_of_length_eq_zero (show data.length = 0 by omega)
    have hcover := OpenFile.le_sectorCount_mul bytes.length
    rw [if_neg (by rw [List.length_nil]; omega), overwrite, List.append_nil, List.length_nil,
      Nat.add_zero, List.take_append_drop, List.take_length]
  · rfl

/-- `WriteAt` through a handle that has just been opened. -/
theorem wp_writeAt (h : Sound w) (hx : FoundAt w.disk name x)
    (hst : OpenFile.Stored w file x (conts w.disk x) (datas w.disk x))
    (hfit : p ≤ (bytesAt w.disk x).length → p + data.length ≤ MAX_FILE_LENGTH ∧
      (sectorCount (bytesAt w.disk x).length * SectorSize < p + data.length →
        sectorCount (p + data.length) - sectorCount (bytesAt w.disk x).length ≤
          freeSectors w.disk ∧
        chainLength (sectorCount (p + data.length)) =
          chainLength (sectorCount (bytesAt w.disk x).length))) :
    Prog.wp (file.writeAt (fun i => data.getD i 0) data.length p)
      (fun r w' => r.1 = (if p ≤ (bytesAt w.disk x).length then (data.length : Int) else 0) ∧
        ∃ h' : Sound w', h'.store.node = Function.update h.store.node (placeOf name)
          (some (.file (written (bytesAt w.disk x) data p)))) w := by
  obtain ⟨hnum, hds, hcs, hcap⟩ := h.handle_counts hx.reach hst
  by_cases hnone : data.length = 0 ∨ (p : Int) > file.hdr.numBytes
  · -- Nothing is written.
    refine Prog.wp_mono (OpenFile.Handle.wp_writeAt_none file _ _ hnone) fun r w' hr => ?_
    obtain ⟨rfl, rfl⟩ := hr
    refine ⟨?_, h, ?_⟩
    · dsimp only
      split <;> omega
    · have hhas : h.store.node (placeOf name) = _ := h.has_iff.mpr ⟨x, hx, rfl⟩
      rw [written_none (by omega), ← hhas, Function.update_eq_self]
  · obtain ⟨hpos, hp⟩ := not_or.mp hnone
    rw [hnum, not_lt, Nat.cast_le] at hp
    obtain ⟨hmax, hgrow⟩ := hfit hp
    refine Prog.wp_mono (hst.handle.wp_writeAt_takes (by omega) (by omega) hmax fun hlt => ?_)
      fun r w' hr => ?_
    · -- The chain is as long as it has to be, so that only data sectors are taken.
      rw [hcap] at hlt
      obtain ⟨hroom, -⟩ := hgrow (by exact_mod_cast hlt)
      rw [OpenFile.growth, sectorsFor_natCast, hst.handle.header.numSectors, hds,
        hst.handle.header.numHeaderSectors, hcs, headersFor_natCast]
      omega
    · obtain ⟨hput, htakes⟩ := hr
      rw [if_pos hp]
      refine ⟨hput.count, ?_⟩
      by_cases hin : sectorCount (bytesAt w.disk x).length * SectorSize < p + data.length
      · obtain ⟨L, hw⟩ := h.wrote_beyond hx.reach hst hput htakes hp hin (hgrow hin).2
        exact h.wrote hx hw
      · exact h.wrote hx (h.wrote_within hx.reach hst hput htakes hp (Nat.not_lt.mp hin))

/-- A write returns, and the disk keeps of it what the store does. -/
theorem serve_write (h : Sound w) (hq : h.store.Legal (.write name data p)) :
    Prog.wp (Demand.prog (.write name data p))
      (fun a w' => ∃ h' : Sound w', h.store.Serves (.write name data p) a h'.store) w := by
  obtain ⟨hname, hfits⟩ := hq
  have hlt := MAX_FILE_LENGTH_lt
  unfold Demand.prog
  rw [Prog.wp_bind]
  refine h.wp_open hname (fun hnone k => ?_) fun x file k hx hst hcontent => ?_
  · rw [Prog.wp_pure]
    exact ⟨h.allocs ⟨k, rfl⟩, .writeNothing hnone⟩
  · have hhas : h.store.Has name (bytesAt w.disk x) := h.has_iff.mpr ⟨x, hx, rfl⟩
    have hfit := hfits _ hhas
    rw [h.store_free] at hfit
    have hlen : file.length = ((bytesAt w.disk x).length : Int) := by
      rw [← hcontent]
      exact (hst.handle.length_content (w := { w with allocs := k })).symm
    simp only [Prog.wp_bind, Prog.wp_assert, Prog.wp_pure]
    refine ⟨fun hp => ?_, ?_⟩
    · rw [hlen] at hp
      have hmax := (hfit (by omega)).1
      constructor <;> omega
    · have h₁ : Sound { w with allocs := k } := h.allocs ⟨k, rfl⟩
      refine Prog.wp_mono (h₁.wp_writeAt hx hst hfit) fun r w' hr => ?_
      obtain ⟨hcount, h', hnode⟩ := hr
      refine ⟨h', ?_⟩
      rw [hcount, NameTree.ext (y := h.store.replace (placeOf name) _ hhas.ne_none hhas.ne_dir)
        hnode]
      exact .write hhas

/-! ## Reboots -/

/-- The two files that are always open are found again. -/
theorem serve_reboot (h : Sound w) (heap : Nat → Nat → Byte) :
    Prog.wp (Demand.prog (.reboot heap))
      (fun a w' => ∃ h' : Sound w', h.store.Serves (.reboot heap) a h'.store) w := by
  unfold Demand.prog FileSystem.mount
  simp only [Prog.wp_bind, Prog.wp_modify, Prog.wp_pure]
  refine OpenFile.wp_create (w := w.reboot heap) (h.volume.owned.inode _ h.volume.owned.map)
    fun freeMapFile w₁ _ _ hmap hw₁ => ?_
  obtain ⟨k₁, rfl⟩ := hw₁
  refine OpenFile.wp_create (h.volume.inode Walk.Reach.root)
    fun directoryFile w₂ _ _ hroot hw₂ => ?_
  obtain ⟨k₂, rfl⟩ := hw₂
  exact ⟨⟨⟨⟨h.volume.owned, h.volume.names, h.volume.marks, h.volume.removed, hmap, hroot⟩, rfl⟩,
    h.tight⟩, .reboot⟩

/-- Every legal request is served as the store serves it. -/
theorem serve (h : Sound w) {q : Demand} (hq : h.store.Legal q) :
    Prog.wp q.prog (fun a w' => ∃ h' : Sound w', h.store.Serves q a h'.store) w := by
  cases q with
  | call c => exact h.serve_call hq
  | write name data p => exact h.serve_write hq
  | read name n p => exact h.serve_read hq
  | reboot heap => exact h.serve_reboot heap

end Sound

/-! ## Runs -/

/-- One request more, with its answer. -/
def serveStep (σ : World × List Answer) (q : Demand) : Option (World × List Answer) :=
  (q.prog.run σ.1).map fun r => (r.2, σ.2 ++ [r.1])

/-- The request is legal in the store that the disk holds. -/
def LegalAt (w : World) (q : Demand) : Prop :=
  ∃ t : Store, storeOf w.disk = t.node ∧ t.Legal q

theorem Formatted.sound {w : World} (h : Formatted w) :
    ∃ hs : Sound w, hs.store = NameTree.empty (List Byte) Item.dir := by
  obtain ⟨w₀, hlock, hrun⟩ := h
  have hspec := FileSystem.wp_format_sized (w := w₀) ⟨(), w, hrun, trivial⟩
  obtain ⟨⟨hV, htree, hl⟩, hmap, hroot⟩ := Prog.wp_run hspec hrun
  have hs : Sound w := by
    refine ⟨⟨hV, hl.trans hlock⟩, hmap, fun s hs => ?_⟩
    obtain ⟨p, hp⟩ := hs
    -- Only the root is reached.
    have hnode := treeOf_of_walk hp
    rw [htree, emptyTree, Function.update_apply] at hnode
    split at hnode
    · rename_i hnil
      subst hnil
      obtain rfl : DirectorySector = s := Option.some.inj hp
      rw [hroot.numBytes]
      exact ⟨hroot, Int.natCast_nonneg _⟩
    · cases hnode
  refine ⟨hs, NameTree.ext (funext fun p => ?_)⟩
  show storeOf w.disk p = Function.update (fun _ => none) [] (some Item.dir) p
  rw [Function.update_apply]
  split
  · rename_i hnil
    subst hnil
    rw [storeOf, Walk.walk, Option.map_some, itemAt, if_pos hV.names.root]
  · rename_i hne
    rw [hs.storeOf_none, htree, emptyTree, Function.update_of_ne hne]

/-- The invariant of a run: what has been answered is what the store that the disk holds has been
    asked for. -/
def Serving (tr : List ((World × List Answer) × Demand)) (σ : World × List Answer) : Prop :=
  ∃ hs : Sound σ.1, Store.Served (tr.map Prod.snd) σ.2 hs.store

theorem Serving.step {tr : List ((World × List Answer) × Demand)} {σ σ' : World × List Answer}
    {q : Demand} (h : Serving tr σ) (hq : LegalAt σ.1 q) (hstep : serveStep σ q = some σ') :
    Serving (tr ++ [(σ, q)]) σ' := by
  obtain ⟨hs, hserved⟩ := h
  obtain ⟨t, ht, hq⟩ := hq
  obtain rfl : hs.store = t := NameTree.ext ht
  unfold serveStep at hstep
  obtain ⟨⟨a, w'⟩, hrun, rfl⟩ := Option.map_eq_some_iff.mp hstep
  obtain ⟨h', hs'⟩ := Prog.wp_run (hs.serve hq) hrun
  refine ⟨h', ?_⟩
  rw [List.map_append]
  exact .snoc hserved hs'

theorem Formatted.serving {w₀ : World} {σ : World × List Answer}
    {tr : List ((World × List Answer) × Demand)} (h₀ : Formatted w₀)
    (h : Run serveStep (w₀, []) tr σ) (hl : ∀ x ∈ tr, LegalAt x.1.1 x.2) : Serving tr σ := by
  refine Run.invariant_of_steps (I := Serving) (C := fun σ q => LegalAt σ.1 q) ?_
    (fun tr σ q σ' hi hq hstep => hi.step hq hstep) h hl
  obtain ⟨hs, hempty⟩ := h₀.sound
  refine ⟨hs, ?_⟩
  rw [hempty]
  exact .nil

/-- The next request of a run. -/
theorem Sound.exists_step {σ : World × List Answer} (h : Sound σ.1) {q : Demand}
    (hq : h.store.Legal q) : ∃ a w', serveStep σ q = some (w', σ.2 ++ [a]) ∧
      LegalAt σ.1 q ∧ ∃ h' : Sound w', h.store.Serves q a h'.store := by
  obtain ⟨a, w', hrun, hserves⟩ := h.serve hq
  exact ⟨a, w', by rw [serveStep, hrun, Option.map_some], ⟨h.store, rfl, hq⟩, hserves⟩

/-- A new file in the root of an empty tree. -/
theorem Store.allowed_empty {name : List Byte} {size : Int} {free : Nat}
    (hdir : dirKeys name = []) (hslots : 0 < NumDirEntries) (hfree : FileHeader.need size < free) :
    (Store.names (NameTree.empty (List Byte) Item.dir)).Allowed free (.create name size) := by
  have hnode : ∀ k, (Store.names (NameTree.empty (List Byte) Item.dir)).node ([] ++ [k]) = none :=
    fun k => by
      show Option.map Item.node (Function.update (fun _ => none) [] (some Item.dir) [k]) = none
      rw [Function.update_of_ne (List.cons_ne_nil _ _), Option.map_none]
  refine ⟨⟨?_, ?_, ?_⟩, hfree⟩
  · rw [hdir]
    exact NameTree.root _
  · rw [hdir]
    exact hnode _
  · have hnone : NameTree.entries (Store.names (NameTree.empty (List Byte) Item.dir)) [] = ∅ :=
      Set.eq_empty_of_forall_notMem fun k hk => hk (hnode k)
    rw [hdir, hnone, Set.ncard_empty]
    exact hslots

end Nachos
