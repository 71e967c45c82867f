/-
  Nachos.Filesys.PathBounds

  `decompname` on the two arrays that `FindDir` gives it, the path and `dirname`.  At the
  last element it moves as many characters as the path had with its leading `/`, from
  behind them, and so reads that many more `/` behind the path: it stays inside the
  arrays when there is room for these, and when the loop does not come there.
-/

import Nachos.Filesys.PathArray

namespace Nachos

open Words Program Config StateTransition
open CharArray (Holds scan strlen memmove strcpy store copyUntil)

/-- `decompname(name, dirname, name)`: the result, and the two arrays after it. -/
def decompnameArrays (name dirname : List Byte) : Option (Bool × List Byte × List Byte) := do
  let origPath ← scan (· != slash) name 0
  let (path, head, dirname) ← copyUntil (fun c => c == 0 || c == slash) name dirname origPath 0
  let dirname ← store dirname head 0
  if name[path]? = some 0 then
    let dirname ← store dirname head 0
    let length ← strlen name
    let name ← memmove name 0 origPath length
    return (false, dirname, name)
  else
    let name ← strcpy name 0 path
    return (true, dirname, name)

section

variable {name dirname s head tail : List Byte} {more : Bool}

/-- `dirname` gets the element, and has room for it. -/
theorem decompnameArrays_eq (h : Holds name s) (hs : CString s)
    (hd : decompname s = (more, head, tail)) (hroom : s.length < dirname.length) :
    ∃ dirname', Holds dirname' head ∧ dirname'.length = dirname.length ∧
      decompnameArrays name dirname =
        (decompnameIn name).map fun r => (r.1, dirname', r.2.2) := by
  obtain ⟨rest, rfl⟩ := h
  obtain ⟨k, post, hparts, -, -, -, hscan₁, hscan₂, hslice⟩ := decompname_scans hs hd rest
  have hlen : head.length < dirname.length := by
    rw [hparts, List.length_append, List.length_append] at hroom
    omega
  have hcopy : copyUntil _ _ ([] ++ dirname) k ([] : List Byte).length = _ :=
    CharArray.copyUntil_scan hscan₂ (by omega)
  rw [hslice, List.nil_append, List.nil_append, List.length_nil, Nat.zero_add,
    Nat.add_sub_cancel_left] at hcopy
  -- The terminating zero goes behind the element.
  have hset : ∀ c, (head ++ c :: dirname.drop (head.length + 1)).set head.length 0 =
      head ++ 0 :: dirname.drop (head.length + 1) := by
    intro c
    simp
  have hzero : ∀ c, store (head ++ c :: dirname.drop (head.length + 1)) head.length 0 =
      some (head ++ 0 :: dirname.drop (head.length + 1)) := by
    intro c
    rw [CharArray.store_of_lt (by simp), hset]
  refine ⟨head ++ 0 :: dirname.drop (head.length + 1), ⟨_, rfl⟩, by simp; omega, ?_⟩
  unfold decompnameArrays decompnameIn
  rw [List.drop_eq_getElem_cons hlen] at hcopy
  simp only [hscan₁, hscan₂, hcopy, hzero, hslice, Option.bind_eq_bind, Option.bind_some]
  split
  · cases strlen (s ++ 0 :: rest) with
    | none => rfl
    | some length =>
        rw [Option.bind_some, Option.bind_some]
        cases memmove (s ++ 0 :: rest) 0 k length <;> rfl
  · cases strcpy (s ++ 0 :: rest) 0 (k + head.length) <;> rfl

/-- At the last element the move stays in the array when there is room for the leading `/` a
    second time. -/
theorem decompnameArrays_last (h : Holds name s) (hs : CString s)
    (hd : decompname s = (false, head, tail)) (hroom : s.length < dirname.length) :
    ((decompnameArrays name dirname).isSome ↔
      2 * lastSlashes s + tail.length ≤ name.length) ∧
    ∀ dirname' name', decompnameArrays name dirname ≠ some (true, dirname', name') := by
  obtain ⟨dirname', -, -, heq⟩ := decompnameArrays_eq h hs hd hroom
  obtain ⟨rest, rfl⟩ := h
  obtain ⟨k, post, hparts, hfalse, -⟩ := decompnameIn_step hs hd rest
  obtain ⟨rfl, rfl, hslashes, hstep⟩ := hfalse rfl
  rw [heq, hstep, hslashes, memmove, Option.map_map]
  constructor
  · rw [Option.isSome_map]
    have hlen : s.length = k + tail.length := by simp [hparts]
    split
    · rename_i hmove
      simp only [Option.isSome_some, true_iff]
      omega
    · rename_i hmove
      simp only [Option.isSome_none, Bool.false_eq_true, false_iff]
      simp only [List.length_append, List.length_cons] at hmove ⊢
      omega
  · intro dirname₁ name₁ hsome
    obtain ⟨_, -, he⟩ := Option.map_eq_some_iff.mp hsome
    cases he

/-- Before the last element the call stays in the arrays. -/
theorem decompnameArrays_more (h : Holds name s) (hs : CString s)
    (hd : decompname s = (true, head, tail)) (hroom : s.length < dirname.length) :
    ∃ dirname' name', decompnameArrays name dirname = some (true, dirname', name') ∧
      Holds dirname' head ∧ dirname'.length = dirname.length ∧
      Holds name' tail ∧ name'.length = name.length := by
  obtain ⟨dirname', hholds, hlen, heq⟩ := decompnameArrays_eq h hs hd hroom
  obtain ⟨name', hin, hholds', hlen'⟩ := decompnameIn_true h hs hd
  exact ⟨dirname', name', by rw [heq, hin, Option.map_some], hholds, hlen, hholds', hlen'⟩

end

variable [Config]

/-! ## The loop of `FindDir` -/

/-- The loop, before a call of `decompname`. -/
structure FindDirLoop where
  directory : Directory
  sector : Int
  name : List Byte
  dirname : List Byte
  world : World

namespace FindDirLoop

/-- The body of the loop: the directory with the name in `dirname`, or nothing when `FindDir`
    returns -1. -/
def enter (directory : Directory) (dirname : List Byte) : Prog World (Option (Int × Directory)) :=
  let sector := directory.find dirname
  if sector < 0 then pure none
  else do
    let file ← OpenFile.create sector
    if file.hdr.isDir then
      let directory ← directory.fetchFrom file
      return some (sector, directory)
    else return none

theorem run_enter_missing {directory : Directory} {dirname : List Byte} {w : World}
    (h : directory.find dirname < 0) : (enter directory dirname).run w = some (none, w) := by
  unfold enter
  rw [if_pos h]
  rfl

theorem run_enter {directory : Directory} {dirname : List Byte} {w w₁ : World} {file : OpenFile}
    (h : ¬ directory.find dirname < 0)
    (hfile : (OpenFile.create (directory.find dirname)).run w = some (file, w₁)) :
    (enter directory dirname).run w =
      if file.hdr.isDir then
        ((directory.fetchFrom file).run w₁).map fun r =>
          (some (directory.find dirname, r.1), r.2)
      else some (none, w₁) := by
  unfold enter
  dsimp only
  rw [if_neg h]
  show (Prog.bind (OpenFile.create _) _).run w = _
  rw [Prog.run_bind, hfile, Option.bind_some]
  split
  · show (Prog.bind (directory.fetchFrom file) _).run w₁ = _
    rw [Prog.run_bind]
    cases (directory.fetchFrom file).run w₁ with
    | none => rfl
    | some r => rfl
  · rfl

/-- A round, when the loop goes on. -/
def next (l : FindDirLoop) : Option FindDirLoop :=
  match decompnameArrays l.name l.dirname with
  | some (true, dirname, name) =>
      match (enter l.directory (CharArray.string dirname)).run l.world with
      | some (some (sector, directory), world) => some ⟨directory, sector, name, dirname, world⟩
      | _ => none
  | _ => none

/-- In every round, `decompname` reads and writes inside the two arrays. -/
def Inside (l : FindDirLoop) : Prop :=
  ∀ l', Reaches next l l' → (decompnameArrays l'.name l'.dirname).isSome

/-- The directories of the path are there, so that the loop comes to its last element. -/
def Leads (directory : Directory) (path : List Byte) (w : World) : Prop :=
  match h : decompname path with
  | (false, _, _) => True
  | (true, dirname, tail) =>
      have := decompname_lt h
      ∃ sector directory' w',
        (enter directory dirname).run w = some (some (sector, directory'), w') ∧
        Leads directory' tail w'
termination_by path.length

theorem leads_last {directory : Directory} {path head tail : List Byte} {w : World}
    (hd : decompname path = (false, head, tail)) : Leads directory path w := by
  rw [Leads]
  split
  · trivial
  · rename_i hd'
    cases hd.symm.trans hd'

theorem leads_more {directory : Directory} {path head tail : List Byte} {w : World}
    (hd : decompname path = (true, head, tail)) : Leads directory path w ↔
      ∃ sector directory' w',
        (enter directory head).run w = some (some (sector, directory'), w') ∧
        Leads directory' tail w' := by
  rw [Leads]
  split
  · rename_i hd'
    cases hd.symm.trans hd'
  · rename_i hd'
    cases hd.symm.trans hd'
    rfl

/-- This call is inside, and those of the next rounds are. -/
theorem inside_iff (l : FindDirLoop) :
    Inside l ↔ (decompnameArrays l.name l.dirname).isSome ∧
      ∀ l', l.next = some l' → Inside l' := by
  constructor
  · intro h
    exact ⟨h l Relation.ReflTransGen.refl, fun l' hl' l₁ hr =>
      h l₁ (Relation.ReflTransGen.head hl' hr)⟩
  · rintro ⟨hnow, hnext⟩ l₁ hr
    rcases Relation.ReflTransGen.cases_head hr with rfl | ⟨l', hl', hr⟩
    · exact hnow
    · exact hnext l' hl' l₁ hr

/-- The calls stay inside when there is room for the last element and twice the `/` before it,
    or when the loop does not come to it. -/
theorem inside_iff_leads {s name dirname : List Byte} (h : Holds name s) (hs : CString s)
    (hname : name.length = MaxFileNameSize) (hdirname : dirname.length = MaxFileNameSize)
    (directory : Directory) (sector : Int) (w : World) :
    Inside ⟨directory, sector, name, dirname, w⟩ ↔
      (Leads directory s w → 2 * lastSlashes s + (components s).2.length ≤ MaxFileNameSize) := by
  -- The remainder of a path is shorter than the path.
  induction hn : s.length using Nat.strong_induction_on
    generalizing s name dirname directory sector w with
  | _ n ih =>
  subst hn
  have hroom : s.length < dirname.length := by
    obtain ⟨rest, rfl⟩ := h
    rw [hdirname, ← hname]
    simp
  rw [inside_iff]
  obtain ⟨more, head, tail, hd⟩ : ∃ more head tail, decompname s = (more, head, tail) :=
    ⟨_, _, _, rfl⟩
  cases more with
  | false =>
      obtain ⟨hin, hmore⟩ := decompnameArrays_last h hs hd hroom
      rw [hin, components_last hd, hname, forall_prop_of_true (leads_last hd)]
      refine and_iff_left fun l' hl' => ?_
      rw [next] at hl'
      split at hl'
      · rename_i dirname' name' hin'
        exact absurd hin' (hmore dirname' name')
      · cases hl'
  | true =>
      obtain ⟨dirname', name', hin, hhead, hlen, hholds, hlen'⟩ :=
        decompnameArrays_more h hs hd hroom
      obtain ⟨k, post, hparts, -, -, htrue⟩ := decompname_parts hd
      have hstring : CharArray.string dirname' = head := hhead.string fun hmem => by
        refine hs 0 ?_ rfl
        rw [hparts]
        exact List.mem_append_left _ (List.mem_append_right _ hmem)
      have htail : CString tail := by
        intro b hb
        refine hs b ?_
        rw [hparts, (htrue rfl).1]
        exact List.mem_append_right _ hb
      rw [lastSlashes_tail hd, components_cons hd, leads_more hd, hin, Option.isSome_some,
        and_iff_right rfl]
      have hnext : next ⟨directory, sector, name, dirname, w⟩ =
          match (enter directory head).run w with
          | some (some (sector, directory), world) =>
              some ⟨directory, sector, name', dirname', world⟩
          | _ => none := by
        rw [next, hin, ← hstring]
      rw [hnext]
      have ih' := fun (directory : Directory) (sector : Int) (w : World) =>
        ih tail.length (decompname_lt hd) hholds htail (hlen'.trans hname) (hlen.trans hdirname)
          directory sector w rfl
      split
      · rename_i sector' directory' w' hrun
        constructor
        · rintro hin ⟨sector₁, directory₁, w₁, hrun₁, hleads⟩
          cases hrun.symm.trans hrun₁
          exact (ih' _ _ _).mp (hin _ rfl) hleads
        · intro hfits l' hl'
          obtain rfl := Option.some.inj hl'
          exact (ih' _ _ _).mpr fun hleads => hfits ⟨_, _, _, hrun, hleads⟩
      · rename_i hrun
        refine iff_of_true (fun l' hl' => nomatch hl') ?_
        rintro ⟨sector₁, directory₁, w₁, hrun₁, -⟩
        exact absurd hrun₁ (hrun _ _ _)

/-- A directory that a program has found is what its run has found. -/
theorem leads_iff_of_wp {directory : Directory} {sector : Int} {path : List Byte} {w : World}
    {Q : Int × List Byte → World → Prop} (hsector : 0 ≤ sector)
    (hwp : Prog.wp (FileSystem.findDirFrom directory sector path) Q w) :
    ∃ r w', Q r w' ∧ (Leads directory path w ↔ 0 ≤ r.1) := by
  induction hn : path.length using Nat.strong_induction_on
    generalizing path directory sector w with
  | _ n ih =>
  subst hn
  rw [FileSystem.findDirFrom] at hwp
  split at hwp
  · rename_i head tail hd
    rw [Prog.wp_pure] at hwp
    exact ⟨_, w, hwp, iff_of_true (leads_last hd) hsector⟩
  · rename_i head tail hd
    rw [leads_more hd]
    -- The lookup says whether the loop goes on.
    have hnot : ∀ {w'}, (enter directory head).run w = some (none, w') →
        ¬ ∃ sector directory' w', (enter directory head).run w =
          some (some (sector, directory'), w') ∧ Leads directory' tail w' := by
      rintro w' hrun ⟨_, _, _, hrun', -⟩
      cases hrun.symm.trans hrun'
    rw [Prog.wp_ite] at hwp
    by_cases hneg : directory.find head < 0
    · have hq := hwp.1 hneg
      rw [Prog.wp_pure] at hq
      exact ⟨_, w, hq, iff_of_false (hnot (run_enter_missing hneg)) (by simp)⟩
    · have hq := hwp.2 hneg
      rw [Prog.wp_bind] at hq
      obtain ⟨file, w₁, hfile, hq⟩ := hq
      have hrun := run_enter hneg hfile
      rw [Prog.wp_ite] at hq
      by_cases hdir : file.hdr.isDir = true
      · have hq := hq.1 hdir
        rw [Prog.wp_bind] at hq
        obtain ⟨directory', w₂, hfetch, hq⟩ := hq
        rw [if_pos hdir, hfetch, Option.map_some] at hrun
        obtain ⟨r, w', hr, hleads⟩ := ih tail.length (decompname_lt hd) (not_lt.mp hneg) hq rfl
        refine ⟨r, w', hr, ?_⟩
        rw [← hleads]
        constructor
        · rintro ⟨_, _, _, hrun', hleads'⟩
          cases hrun.symm.trans hrun'
          exact hleads'
        · intro hleads'
          exact ⟨_, _, _, hrun, hleads'⟩
      · have hq := hq.2 hdir
        rw [Prog.wp_pure] at hq
        rw [if_neg hdir] at hrun
        exact ⟨_, w₁, hq, iff_of_false (hnot hrun) (by simp)⟩

/-- `FindDir` up to its loop. -/
def start (name dirname : List Byte) (w : World) : Option FindDirLoop :=
  let fetched : Prog World Directory := do
    let directory ← Directory.create
    let w ← Prog.read
    directory.fetchFrom w.directoryFile
  (fetched.run w).map fun r => ⟨r.1, DirectorySector, name, dirname, r.2⟩

theorem start_some {name dirname : List Byte} {w : World} {l : FindDirLoop}
    (h : start name dirname w = some l) :
    l = ⟨l.directory, DirectorySector, name, dirname, l.world⟩ := by
  obtain ⟨r, -, rfl⟩ := Option.map_eq_some_iff.mp h
  rfl

/-- On a sound volume the loop comes to the last element when no directory of the path is
    missing. -/
theorem start_leads_iff {w : World} {E : Nat → Prop} (hV : Volume w E)
    (path name dirname : List Byte) :
    ∃ l, start name dirname w = some l ∧
      (Leads l.directory path l.world ↔ ¬ FileSystem.MissingDir w.disk path) := by
  have hfind : Prog.wp (FileSystem.findDir path)
      (fun r _ => 0 ≤ r.1 ↔ treeOf w.disk (dirKeys path) = some .dir) w := by
    refine FileSystem.wp_findDir hV (fun a w' _ hwalk hdir => ?_) fun n w' _ htree => ?_
    · refine iff_of_true (Int.natCast_nonneg a) ?_
      rw [treeOf_of_walk hwalk, nodeAt_eq_dir.mpr hdir]
    · exact iff_of_false (show ¬ (0 : Int) ≤ -1 by decide) htree
  unfold FileSystem.findDir at hfind
  rw [Prog.wp_bind] at hfind
  obtain ⟨dir, w₁, hcreate, hfind⟩ := hfind
  rw [Prog.wp_bind, Prog.wp_read, Prog.wp_bind] at hfind
  obtain ⟨directory, w₂, hfetch, hfind⟩ := hfind
  obtain ⟨r, w', hr, hleads⟩ := leads_iff_of_wp (Int.natCast_nonneg _) hfind
  refine ⟨⟨directory, DirectorySector, name, dirname, w₂⟩, ?_, ?_⟩
  · show (Prog.run (Prog.bind Directory.create _) w).map _ = _
    rw [Prog.run_bind, hcreate, Option.bind_some]
    show (Prog.run (dir.fetchFrom w₁.directoryFile) w₁).map _ = _
    rw [hfetch, Option.map_some]
  · rw [hleads, hr, FileSystem.missingDir_iff hV, not_not]

/-- On a sound volume `FindDir` stays in its arrays just when there is room in them, or a
    directory of the path is missing. -/
theorem start_inside_iff {w : World} {E : Nat → Prop} (hV : Volume w E)
    {path name dirname : List Byte} (h : Holds name path) (hpath : CString path)
    (hname : name.length = MaxFileNameSize) (hdirname : dirname.length = MaxFileNameSize) :
    ∃ l, start name dirname w = some l ∧ (Inside l ↔ FileSystem.MissingDir w.disk path ∨
      2 * lastSlashes path + (components path).2.length ≤ MaxFileNameSize) := by
  obtain ⟨l, hl, hleads⟩ := start_leads_iff hV path name dirname
  refine ⟨l, hl, ?_⟩
  rw [start_some hl, inside_iff_leads h hpath hname hdirname, hleads]
  exact imp_iff_or_not.trans (by rw [not_not, or_comm])

end FindDirLoop

end Nachos
