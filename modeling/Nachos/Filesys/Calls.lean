/-
  Nachos.Filesys.Calls

  Sequential runs of the four calls from a formatted disk.  In every state that
  such a run reaches the volume is sound; read sector by sector this says that a
  bit of the free map is set exactly when its sector has one use, and that no
  sector has two.
-/

import Nachos.Filesys.FormatSpec
import Nachos.Lib.Run

namespace Nachos

open Words Program Config
open Directory (slotsAt)
open Transition (Run)

/-- A call on the file system. -/
inductive Call
  | create (name : List Byte) (initialSize : Int)
  | mkdir (name : List Byte)
  | remove (name : List Byte)
  | rmdir (name : List Byte)

variable [Config]

namespace Call

def prog : Call → Prog World MsgError
  | create name initialSize => FileSystem.create name initialSize
  | mkdir name => FileSystem.mkdir name
  | remove name => FileSystem.remove name
  | rmdir name => FileSystem.rmdir name

/-- The path of a call. -/
def path : Call → List Byte
  | create name _ => name
  | mkdir name => name
  | remove name => name
  | rmdir name => name

/-- A path is a string that fits its array; a size is an `int` that a file can
    have. -/
def Legal (c : Call) : Prop :=
  c.path.length < MaxFileNameSize ∧ CString c.path ∧
    ∀ name size, c = create name size → InInt size ∧ size ≤ MAX_FILE_LENGTH

/-- The call succeeds in the state that the disk is in. -/
def Succeeds (d : Disk) : Call → Prop
  | create name size => CanAdd d name size
  | mkdir name => CanAdd d name Directory.DirectoryFileSize
  | remove name => CanRemove d name
  | rmdir name => CanRmdir d name

/-- The node that the call leaves under its path. -/
def node : Call → Option Node
  | create _ size => some (.file size)
  | mkdir _ => some .dir
  | remove _ => none
  | rmdir _ => none

end Call

/-- What a call that has succeeded leaves. -/
structure Done (w w' : World) (c : Call) : Prop where
  onlyDisk : OnlyDisk w w'
  volume : Volume w' noneRemoved
  tree : treeOf w'.disk =
    Function.update (treeOf w.disk) (dirKeys c.path ++ [lastKey c.path]) c.node

/-- A legal call returns: it succeeds, or it has not touched the disk. -/
theorem wp_call {c : Call} {w : World} {Q : MsgError → World → Prop} (hV : Volume w noneRemoved)
    (hlock : w.createLock = false) (hc : c.Legal)
    (hfail : ∀ e w', e ≠ .NoError → ¬ c.Succeeds w.disk → OnlyAllocs w w' → Q e w')
    (hok : ∀ w', c.Succeeds w.disk → Done w w' c → Q .NoError w') :
    Prog.wp c.prog Q w := by
  obtain ⟨hlen, -, hsize⟩ := hc
  cases c with
  | create name size =>
      obtain ⟨⟨hlo, -⟩, hhi⟩ := hsize name size rfl
      exact FileSystem.wp_create hV hlock hlen hlo hhi hfail fun w' hs hd _ =>
        hok w' hs ⟨hd.onlyDisk, hd.volume, hd.tree⟩
  | mkdir name =>
      exact FileSystem.wp_mkdir hV hlen hfail fun w' hs hd =>
        hok w' hs ⟨hd.onlyDisk, hd.volume, hd.tree⟩
  | remove name =>
      exact FileSystem.wp_remove hV hlen hfail fun w' hs hd _ =>
        hok w' hs ⟨hd.onlyDisk, hd.volume, hd.tree⟩
  | rmdir name =>
      exact FileSystem.wp_rmdir hV hlen hfail fun w' hs hd _ =>
        hok w' hs ⟨hd.onlyDisk, hd.volume, hd.tree⟩

/-! ## Runs -/

/-- One call, when it returns. -/
def callStep (w : World) (c : Call) : Option World := (c.prog.run w).map fun r => r.2

/-- The state after a format, with nobody in `Create`. -/
def Formatted (w : World) : Prop :=
  ∃ w₀ : World, w₀.createLock = false ∧ FileSystem.format.run w₀ = some ((), w)

/-- The invariant of a run. -/
structure Steady (w : World) : Prop where
  volume : Volume w noneRemoved
  unlocked : w.createLock = false

theorem Formatted.steady {w : World} (h : Formatted w) :
    Steady w ∧ treeOf w.disk = emptyTree := by
  obtain ⟨w₀, hlock, hrun⟩ := h
  have hspec := FileSystem.wp_format (w := w₀) ⟨(), w, hrun, trivial⟩
  obtain ⟨hV, htree, hl⟩ := Prog.wp_run hspec hrun
  exact ⟨⟨hV, hl.trans hlock⟩, htree⟩

theorem Steady.call {w : World} {c : Call} (h : Steady w) (hc : c.Legal) :
    Prog.wp c.prog (fun _ w' => Steady w') w := by
  refine wp_call h.volume h.unlocked hc (fun e w' _ _ hw => ?_) fun w' _ hd => ?_
  · obtain ⟨k, rfl⟩ := hw
    exact ⟨h.volume.allocs ⟨k, rfl⟩, h.unlocked⟩
  · obtain ⟨⟨d, k, rfl⟩, hV, -⟩ := hd
    exact ⟨hV, h.unlocked⟩

/-- Every state of a run is steady. -/
theorem steady_of_run {w₀ w : World} {tr : List (World × Call)} (h : Run callStep w₀ tr w)
    (h₀ : Steady w₀) (hc : ∀ x ∈ tr, x.2.Legal) : Steady w := by
  refine Run.invariant_of_steps (I := fun _ w => Steady w) (C := fun _ c => c.Legal) h₀
    (fun _ s c s' hs hc hstep => ?_) h hc
  rw [callStep, Option.map_eq_some_iff] at hstep
  obtain ⟨⟨e, t⟩, hrun, rfl⟩ := hstep
  have hafter := Prog.wp_run (hs.call hc) hrun
  exact hafter

omit [Config] in
/-- With the default configuration it can be formatted. -/
theorem exists_formatted : ∃ w, @Formatted Config.defaults w := by
  let _ := Config.defaults
  obtain ⟨_, w, hrun, -⟩ :=
    FileSystem.format_returns World.blank (by decide) (by decide) (by decide)
  exact ⟨w, World.blank, rfl, hrun⟩

/-! ## The uses of a sector -/

/-- What a sector is to the file it belongs to. -/
inductive Role
  | header
  | continuation (j : Nat)
  | data (i : Nat)

/-- Sector `u` plays this role in the file with the header at `s`. -/
def Plays (d : Disk) (s : Nat) : Role → Nat → Prop
  | .header, u => s = u
  | .continuation j, u => j < contCount d s ∧ contAt d s j = u
  | .data i, u => i < dataCount d s ∧ dataAt d s i = u

/-- The root, and what an entry in use of a directory that is reachable points to. -/
inductive Reachable (d : Disk) : Nat → Prop
  | root : Reachable d DirectorySector
  | entry {s x i : Nat} {k : List Byte} : Reachable d s → intAt d s 0 = 1 → i < NumDirEntries →
      slotsAt d s i = some (k, (x : Int)) → Reachable d x

/-- A use of sector `u`: a file that is there, and the role in it. -/
def Uses (d : Disk) (use : Nat × Role) (u : Nat) : Prop :=
  (use.1 = FreeMapSector ∨ Reachable d use.1) ∧ Plays d use.1 use.2 u

/-- The free map has the sectors with exactly one use, and none has two. -/
def OneUse (d : Disk) : Prop :=
  ∀ u < NUM_SECTORS, (mapBit d u = true ↔ ∃! use, Uses d use u) ∧
    ∀ use use', Uses d use u → Uses d use' u → use = use'

theorem Names.reachable {d : Disk} (h : Names d) {s : Nat} : Reachable d s ↔ Reach d s := by
  constructor
  · intro hs
    induction hs with
    | root => exact Walk.Reach.root
    | @entry s x i k hs hdir hi hslot ih =>
        have hchild : child d s k = some x := by
          rw [child, if_pos hdir, Slots.lookup_of_slot (h.dirs _ ih hdir).distinct hi hslot,
            Option.map_some, Int.toNat_natCast]
        exact Walk.Reach.child ih hchild
  · rintro ⟨p, hp⟩
    induction p using List.reverseRecOn generalizing s with
    | nil =>
        obtain rfl : DirectorySector = s := Option.some.inj hp
        exact Reachable.root
    | append_singleton p k ih =>
        rw [Walk.walk_concat, Option.bind_eq_some_iff] at hp
        obtain ⟨t, ht, hs⟩ := hp
        rw [child] at hs
        split at hs
        · rename_i hdir
          obtain ⟨x, hx, rfl⟩ := Option.map_eq_some_iff.mp hs
          obtain ⟨i, hi, hslot⟩ := Slots.slot_of_lookup hx
          have hpos := (h.dirs t ⟨p, ht⟩ hdir).sectors i hi k x hslot
          exact Reachable.entry (ih ht) hdir hi (by rw [hslot, Int.toNat_of_nonneg hpos])
        · cases hs

/-- The sectors of a sound file are those that play a role in it, each one role. -/
theorem Inode.plays_iff {d : Disk} {s u : Nat} (h : Inode d s) :
    u ∈ footprint d s ↔ ∃ r, Plays d s r u := by
  rw [mem_footprint, mem_conts, mem_datas]
  constructor
  · rintro (rfl | ⟨j, hj, rfl⟩ | ⟨i, hi, rfl⟩)
    · exact ⟨.header, rfl⟩
    · exact ⟨.continuation j, hj, (h.cont_cast hj).symm⟩
    · exact ⟨.data i, hi, (h.data_cast hi).symm⟩
  · rintro ⟨r, hr⟩
    cases r with
    | header => exact Or.inl hr.symm
    | continuation j => exact Or.inr (Or.inl ⟨j, hr.1, by rw [hr.2, Int.toNat_natCast]⟩)
    | data i => exact Or.inr (Or.inr ⟨i, hr.1, by rw [hr.2, Int.toNat_natCast]⟩)

theorem Inode.plays_unique {d : Disk} {s u : Nat} (h : Inode d s) {r r' : Role}
    (hr : Plays d s r u) (hr' : Plays d s r' u) : r = r' := by
  have hmem : ∀ {r : Role}, Plays d s r u → r = .header ∧ u = s ∨
      (∃ j, r = .continuation j) ∧ u ∈ conts d s ∨ (∃ i, r = .data i) ∧ u ∈ datas d s := by
    intro r hr
    cases r with
    | header => exact Or.inl ⟨rfl, hr.symm⟩
    | continuation j =>
        exact Or.inr (Or.inl ⟨⟨j, rfl⟩, mem_conts.mpr ⟨j, hr.1, by rw [hr.2, Int.toNat_natCast]⟩⟩)
    | data i =>
        exact Or.inr (Or.inr ⟨⟨i, rfl⟩, mem_datas.mpr ⟨i, hr.1, by rw [hr.2, Int.toNat_natCast]⟩⟩)
  have hself : s ∉ conts d s := fun hs =>
    (List.nodup_cons.mp h.nodup).1 (List.mem_append_left _ hs)
  rcases hmem hr with ⟨rfl, hu⟩ | ⟨⟨j, rfl⟩, hu⟩ | ⟨⟨i, rfl⟩, hu⟩
  · rcases hmem hr' with ⟨rfl, -⟩ | ⟨-, hu'⟩ | ⟨-, hu'⟩
    · rfl
    · exact absurd (hu ▸ hu') hself
    · exact absurd hu' (h.header_not_data (Or.inl hu))
  · rcases hmem hr' with ⟨rfl, hu'⟩ | ⟨⟨j', rfl⟩, -⟩ | ⟨-, hu'⟩
    · exact absurd (hu' ▸ hu) hself
    · rw [h.cont_inj hr.1 hr'.1 (hr.2.trans hr'.2.symm)]
    · exact absurd hu' (h.header_not_data (Or.inr hu))
  · rcases hmem hr' with ⟨rfl, hu'⟩ | ⟨-, hu'⟩ | ⟨⟨i', rfl⟩, -⟩
    · exact absurd hu (h.header_not_data (Or.inl hu'))
    · exact absurd hu (h.header_not_data (Or.inr hu'))
    · rw [h.data_inj hr.1 hr'.1 (hr.2.trans hr'.2.symm)]

/-- A sound volume has one use for every sector in use. -/
theorem Volume.oneUse {w : World} (h : Volume w noneRemoved) : OneUse w.disk := by
  have hlive : ∀ s, Live w.disk noneRemoved s ↔ s = FreeMapSector ∨ Reachable w.disk s := by
    intro s
    rw [Live, h.names.reachable]
    simp
  have huniq : ∀ u, ∀ use use', Uses w.disk use u → Uses w.disk use' u → use = use' := by
    rintro u ⟨s, r⟩ ⟨t, r'⟩ ⟨hs, hr⟩ ⟨ht, hr'⟩
    have hs' := (hlive s).mpr hs
    have ht' := (hlive t).mpr ht
    have hi := h.owned.inode s hs'
    obtain rfl : s = t := h.owned.apart s t u hs' ht' (hi.plays_iff.mpr ⟨r, hr⟩)
      ((h.owned.inode t ht').plays_iff.mpr ⟨r', hr'⟩)
    have hrole : r = r' := hi.plays_unique hr hr'
    rw [hrole]
  refine fun u hu => ⟨?_, huniq u⟩
  rw [h.marks u hu]
  constructor
  · rintro ⟨s, hs, hmem⟩
    obtain ⟨r, hr⟩ := (h.owned.inode s hs).plays_iff.mp hmem
    exact ⟨(s, r), ⟨(hlive s).mp hs, hr⟩, fun use huse => huniq u _ _ huse ⟨(hlive s).mp hs, hr⟩⟩
  · rintro ⟨⟨s, r⟩, ⟨hs, hr⟩, -⟩
    have hs' := (hlive s).mpr hs
    exact ⟨s, hs', (h.owned.inode s hs').plays_iff.mpr ⟨r, hr⟩⟩

end Nachos
