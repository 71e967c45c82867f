/-
  Nachos.Filesys.PathArray

  `decompname` and `FindDir` work on the array that holds the path, and `decompname`
  writes the remainder over the path it is reading.  At the last element it moves as many
  characters as the old path had, so that the array must have room for the leading `/`
  a second time.
-/

import Mathlib.Data.BitVec
import Nachos.Filesys.Calls
import Nachos.Lib.CharArray

namespace Nachos

open Words Program Config
open CharArray (Holds scan strlen memmove strcpy)

/-- `decompname(name, head, name)`: the first element, and the array with the remainder.  The
    array for `head` has the size of that for the path, so the element fits. -/
def decompnameIn (name : List Byte) : Option (Bool × List Byte × List Byte) := do
  let origPath ← scan (· != slash) name 0
  let path ← scan (fun c => c == 0 || c == slash) name origPath
  let head := (name.drop origPath).take (path - origPath)
  if name[path]? = some 0 then
    let length ← strlen name
    let name ← memmove name 0 origPath length
    return (false, head, name)
  else
    let name ← strcpy name 0 path
    return (true, head, name)

/-! ## A path and its elements -/

/-- The parts of a path: leading `/`, the first element, and what follows it. -/
theorem decompname_parts {s head tail : List Byte} {more : Bool}
    (h : decompname s = (more, head, tail)) :
    ∃ k post, s = List.replicate k slash ++ head ++ post ∧ slash ∉ head ∧
      (more = false → post = [] ∧ tail = head) ∧
      (more = true → post = tail ∧ head ≠ [] ∧ ∃ r, tail = slash :: r) := by
  induction s with
  | nil =>
      cases h
      exact ⟨0, [], rfl, by simp, fun _ => ⟨rfl, rfl⟩, nofun⟩
  | cons c s ih =>
      by_cases hc : c = slash
      · rw [hc, decompname_slash] at h
        obtain ⟨k, post, hs, hrest⟩ := ih h
        exact ⟨k + 1, post, by rw [hc, hs, List.replicate_succ]; simp, hrest⟩
      · rw [decompname_cons hc] at h
        have hnot : slash ∉ c :: s.takeWhile (· != slash) := by
          rw [List.mem_cons, not_or]
          refine ⟨Ne.symm hc, fun hmem => ?_⟩
          have := List.mem_takeWhile_imp hmem
          simp at this
        have hsplit : c :: s =
            c :: s.takeWhile (· != slash) ++ s.dropWhile (· != slash) := by
          rw [List.cons_append, List.takeWhile_append_dropWhile]
        split at h
        · rename_i hnil
          obtain ⟨rfl, rfl, rfl⟩ : more = false ∧ head = c :: s.takeWhile (· != slash) ∧
              tail = c :: s := by
            simpa [eq_comm] using h
          refine ⟨0, [], by rw [hsplit, hnil]; simp, hnot, fun _ => ⟨rfl, ?_⟩, nofun⟩
          rw [hsplit, hnil, List.append_nil]
        · rename_i hne
          obtain ⟨rfl, rfl, rfl⟩ : more = true ∧ head = c :: s.takeWhile (· != slash) ∧
              tail = s.dropWhile (· != slash) := by
            simpa [eq_comm] using h
          refine ⟨0, _, by rw [hsplit]; simp, hnot, nofun, fun _ => ⟨rfl, by simp, ?_⟩⟩
          obtain ⟨x, r, hx⟩ := List.exists_cons_of_ne_nil hne
          have hhead := List.head_dropWhile_not (· != slash) (l := s) hne
          simp only [hx, List.head_cons] at hhead
          obtain rfl : x = slash := by simpa using hhead
          exact ⟨r, hx⟩

/-- The characters of the last component are in the path. -/
theorem components_last_mem {s : List Byte} {b : Byte} (h : b ∈ (components s).2) : b ∈ s := by
  induction hn : s.length using Nat.strong_induction_on generalizing s with
  | _ n ih =>
  subst hn
  obtain ⟨more, head, tail, hd⟩ : ∃ more head tail, decompname s = (more, head, tail) :=
    ⟨_, _, _, rfl⟩
  obtain ⟨k, post, hs, -, hfalse, htrue⟩ := decompname_parts hd
  cases more with
  | false =>
      rw [components_last hd, (hfalse rfl).2] at h
      rw [hs]
      exact List.mem_append_left _ (List.mem_append_right _ h)
  | true =>
      rw [components_cons hd] at h
      have hmem := ih tail.length (decompname_lt hd) h rfl
      rw [hs, (htrue rfl).1]
      exact List.mem_append_right _ hmem

/-- The `/` before the last component. -/
def lastSlashes (path : List Byte) : Nat :=
  ((path.reverse.dropWhile (· != slash)).takeWhile (· == slash)).length

/-- They are found behind the first elements. -/
theorem lastSlashes_append {pre s : List Byte} (hs : slash ∈ s)
    (hpre : ∃ l c, pre = l ++ [c] ∧ c ≠ slash) :
    lastSlashes (pre ++ s) = lastSlashes s := by
  obtain ⟨l, c, rfl, hc⟩ := hpre
  have hne : s.reverse.dropWhile (· != slash) ≠ [] := by
    rw [ne_eq, List.dropWhile_eq_nil_iff]
    intro hall
    have := hall slash (List.mem_reverse.mpr hs)
    simp at this
  unfold lastSlashes
  rw [List.reverse_append, List.dropWhile_append, if_neg (by simpa using hne),
    List.takeWhile_append]
  split
  · rename_i hall
    rw [List.reverse_append, List.reverse_singleton, List.singleton_append,
      List.takeWhile_cons_of_neg (by simpa using hc), List.append_nil, ← hall]
  · rfl

theorem lastSlashes_last {k : Nat} {head : List Byte} (h : slash ∉ head) :
    lastSlashes (List.replicate k slash ++ head) = k := by
  unfold lastSlashes
  rw [List.reverse_append, List.dropWhile_append_of_pos, List.reverse_replicate]
  · cases k with
    | zero => rfl
    | succ k =>
        rw [List.replicate_succ, List.dropWhile_cons_of_neg (by simp), ← List.replicate_succ]
        simp
  · intro c hc
    have hne : c ≠ slash := fun he => h (he ▸ List.mem_reverse.mp hc)
    simpa using hne

/-- The array of this size has room for all that is moved in it. -/
def FitsArray (size : Nat) (path : List Byte) : Prop :=
  path.length < size ∧ 2 * lastSlashes path + (components path).2.length ≤ size

/-- They are the same ones in the remainder. -/
theorem lastSlashes_tail {s head tail : List Byte} (hd : decompname s = (true, head, tail)) :
    lastSlashes s = lastSlashes tail := by
  obtain ⟨k, post, hs, hhead, -, htrue⟩ := decompname_parts hd
  obtain ⟨rfl, hne, r, hr⟩ := htrue rfl
  rw [hs]
  refine lastSlashes_append (by rw [hr]; simp) ?_
  obtain ⟨l, c, rfl⟩ : ∃ l c, head = l ++ [c] :=
    ⟨head.dropLast, head.getLast hne, (List.dropLast_append_getLast hne).symm⟩
  exact ⟨List.replicate k slash ++ l, c, by simp, fun he => hhead (by simp [he])⟩

theorem FitsArray.tail {size : Nat} {s head tail : List Byte} (h : FitsArray size s)
    (hd : decompname s = (true, head, tail)) : FitsArray size tail := by
  have hlt := decompname_lt hd
  obtain ⟨hlen, hroom⟩ := h
  rw [lastSlashes_tail hd, components_cons hd] at hroom
  exact ⟨by omega, hroom⟩

/-! ## `decompname` in the array -/

/-- The two scans find the ends of the leading `/` and of the first element. -/
theorem decompnameIn_scans (k : Nat) {head : List Byte} (post : List Byte) (hhead : slash ∉ head)
    (hzero : (0 : Byte) ∉ head) (hpost : ∃ c r, post = c :: r ∧ (c = 0 ∨ head ≠ [] ∧ c = slash)) :
    let name := List.replicate k slash ++ head ++ post
    scan (· != slash) name 0 = some k ∧
      scan (fun c => c == 0 || c == slash) name k = some (k + head.length) := by
  obtain ⟨c, r, rfl, hc⟩ := hpost
  dsimp only
  constructor
  · obtain ⟨c', r', hfirst, hne⟩ : ∃ c' r', head ++ c :: r = c' :: r' ∧ c' ≠ slash := by
      cases head with
      | nil =>
          rcases hc with rfl | ⟨hne, -⟩
          · exact ⟨0, r, rfl, by decide⟩
          · exact absurd rfl hne
      | cons x head => exact ⟨x, head ++ c :: r, rfl, fun he => hhead (by simp [he])⟩
    have hscan := CharArray.scan_append (c := c') (· != slash) [] (List.replicate k slash) r'
      (fun x hx => by simp [List.eq_of_mem_replicate hx]) (by simpa using hne)
    rw [List.append_assoc, hfirst]
    simpa using hscan
  · have hscan := CharArray.scan_append (c := c) (fun c : Byte => c == 0 || c == slash)
      (List.replicate k slash) head r
      (fun x hx => ?_) ?_
    · simpa using hscan
    · have h0 : x ≠ 0 := fun he => hzero (he ▸ hx)
      have h1 : x ≠ slash := fun he => hhead (he ▸ hx)
      rw [beq_false_of_ne h0, beq_false_of_ne h1, Bool.or_false]
    · rcases hc with rfl | ⟨-, rfl⟩
      · simp
      · simp

/-- The parts of a path are where the scans find them. -/
theorem decompname_scans {s head tail : List Byte} {more : Bool} (hs : CString s)
    (hd : decompname s = (more, head, tail)) (rest : List Byte) :
    ∃ k post, s = List.replicate k slash ++ head ++ post ∧ slash ∉ head ∧
      (more = false → post = [] ∧ tail = head) ∧
      (more = true → post = tail ∧ head ≠ [] ∧ ∃ r, tail = slash :: r) ∧
      scan (· != slash) (s ++ 0 :: rest) 0 = some k ∧
      scan (fun c => c == 0 || c == slash) (s ++ 0 :: rest) k = some (k + head.length) ∧
      ((s ++ 0 :: rest).drop k).take (k + head.length - k) = head := by
  obtain ⟨k, post, rfl, hhead, hfalse, htrue⟩ := decompname_parts hd
  have hzero : (0 : Byte) ∉ head := fun hmem =>
    hs 0 (List.mem_append_left _ (List.mem_append_right _ hmem)) rfl
  obtain ⟨hscan₁, hscan₂⟩ := decompnameIn_scans k (post ++ 0 :: rest) hhead hzero (by
    cases more with
    | false => exact ⟨0, rest, by rw [(hfalse rfl).1, List.nil_append], Or.inl rfl⟩
    | true =>
        obtain ⟨rfl, hne, r, rfl⟩ := htrue rfl
        exact ⟨slash, r ++ 0 :: rest, rfl, Or.inr ⟨hne, rfl⟩⟩)
  rw [← List.append_assoc] at hscan₁ hscan₂
  refine ⟨k, post, rfl, hhead, hfalse, htrue, hscan₁, hscan₂, ?_⟩
  rw [List.append_assoc, List.append_assoc, List.drop_append_of_le_length (by simp)]
  simp

/-- The remainder is copied, or the only element moved, to the start of the array. -/
theorem decompnameIn_step {s head tail : List Byte} {more : Bool} (hs : CString s)
    (hd : decompname s = (more, head, tail)) (rest : List Byte) :
    ∃ k post, s = List.replicate k slash ++ head ++ post ∧
      (more = false → post = [] ∧ tail = head ∧ lastSlashes s = k ∧
        decompnameIn (s ++ 0 :: rest) =
          (memmove (s ++ 0 :: rest) 0 k (k + head.length)).map fun name => (false, head, name)) ∧
      (more = true → post = tail ∧ decompnameIn (s ++ 0 :: rest) =
        (strcpy (s ++ 0 :: rest) 0 (k + head.length)).map fun name => (true, head, name)) := by
  obtain ⟨k, post, rfl, hhead, hfalse, htrue, hscan₁, hscan₂, hslice⟩ := decompname_scans hs hd rest
  refine ⟨k, post, rfl, fun hm => ?_, fun hm => ?_⟩
  · obtain ⟨rfl, rfl⟩ := hfalse hm
    rw [List.append_nil] at hs hscan₁ hscan₂ hslice ⊢
    have hstrlen := CharArray.strlen_append (List.replicate k slash ++ tail) rest fun hmem =>
      hs 0 hmem rfl
    have hcount : (List.replicate k slash ++ tail).length = k + tail.length := by simp
    refine ⟨rfl, rfl, lastSlashes_last hhead, ?_⟩
    unfold decompnameIn
    rw [hscan₁, Option.bind_eq_bind, Option.bind_some, hscan₂, Option.bind_eq_bind,
      Option.bind_some, hslice, if_pos (by simp), hstrlen, hcount, Option.bind_some,
      Option.map_eq_bind]
    rfl
  · obtain ⟨rfl, -, r, rfl⟩ := htrue hm
    refine ⟨rfl, ?_⟩
    unfold decompnameIn
    rw [hscan₁, Option.bind_eq_bind, Option.bind_some, hscan₂, Option.bind_eq_bind,
      Option.bind_some, hslice, if_neg (by simp), Option.map_eq_bind]
    rfl

/-- The remainder is copied down, whatever room there is. -/
theorem decompnameIn_true {name s head tail : List Byte} (h : Holds name s) (hs : CString s)
    (hd : decompname s = (true, head, tail)) :
    ∃ name', decompnameIn name = some (true, head, name') ∧ Holds name' tail ∧
      name'.length = name.length := by
  obtain ⟨rest, rfl⟩ := h
  obtain ⟨k, post, rfl, -, htrue⟩ := decompnameIn_step hs hd rest
  obtain ⟨rfl, hstep⟩ := htrue rfl
  obtain ⟨rest', hcpy, hlen⟩ := CharArray.strcpy_down post [] (List.replicate k slash ++ head) rest
    fun hmem => hs 0 (List.mem_append_right _ hmem) rfl
  have hsrc : ([] : List Byte).length + (List.replicate k slash ++ head).length =
      k + head.length := by
    simp
  rw [hsrc, List.nil_append, List.nil_append, List.length_nil] at hcpy
  refine ⟨_, by rw [hstep, hcpy, Option.map_some], ⟨rest', rfl⟩, ?_⟩
  simp [hlen]
  omega

/-- The only element is moved as far as the leading `/` go. -/
theorem decompnameIn_false {name s head tail : List Byte} (h : Holds name s) (hs : CString s)
    (hfit : FitsArray name.length s) (hd : decompname s = (false, head, tail)) :
    ∃ name', decompnameIn name = some (false, head, name') ∧ Holds name' tail ∧
      name'.length = name.length := by
  obtain ⟨rest, rfl⟩ := h
  obtain ⟨k, post, rfl, hfalse, -⟩ := decompnameIn_step hs hd rest
  obtain ⟨rfl, rfl, hslashes, hstep⟩ := hfalse rfl
  have hroom := hfit.2
  rw [components_last hd, hslashes] at hroom
  obtain ⟨rest', hmove, hlen⟩ := CharArray.memmove_down tail (List.replicate k slash) rest (by
    simp at hroom ⊢
    omega)
  rw [List.length_replicate] at hmove
  rw [List.append_nil] at hstep ⊢
  refine ⟨_, by rw [hstep, hmove, Option.map_some], ⟨rest', rfl⟩, ?_⟩
  simp [hlen]
  omega

/-- An array without a string is read to its end. -/
theorem decompnameIn_none {name : List Byte} (h : (0 : Byte) ∉ name) (head name' : List Byte) :
    decompnameIn name ≠ some (true, head, name') := by
  intro hd
  unfold decompnameIn at hd
  simp only [Option.bind_eq_bind, Option.bind_eq_some_iff] at hd
  obtain ⟨origPath, -, path, -, hd⟩ := hd
  split at hd
  · rename_i hzero
    exact h (List.mem_of_getElem? hzero)
  · rw [CharArray.strcpy_none h] at hd
    cases hd

/-- The string in the array gets shorter, whatever is in it. -/
theorem decompnameIn_lt {name head name' : List Byte}
    (h : decompnameIn name = some (true, head, name')) :
    (CharArray.string name').length < (CharArray.string name).length := by
  by_cases hmem : (0 : Byte) ∈ name
  · obtain ⟨s, hholds, hs⟩ := CharArray.holds_of_mem hmem
    have hc : CString s := fun b hb he => hs (he ▸ hb)
    obtain ⟨more, first, tail, hd⟩ : ∃ more first tail, decompname s = (more, first, tail) :=
      ⟨_, _, _, rfl⟩
    cases more with
    | false =>
        obtain ⟨rest, rfl⟩ := hholds
        obtain ⟨k, post, -, hfalse, -⟩ := decompnameIn_step hc hd rest
        rw [(hfalse rfl).2.2.2, Option.map_eq_some_iff] at h
        obtain ⟨_, -, he⟩ := h
        cases he
    | true =>
        obtain ⟨name'', hin, hholds', -⟩ := decompnameIn_true hholds hc hd
        rw [hin] at h
        cases h
        obtain ⟨k, post, hparts, -, -, htrue⟩ := decompname_parts hd
        have hsuffix : (0 : Byte) ∉ tail := fun hmem => hs (by
          rw [hparts, (htrue rfl).1]
          exact List.mem_append_right _ hmem)
        rw [hholds.string hs, hholds'.string hsuffix]
        exact decompname_lt hd
  · exact absurd h (decompnameIn_none hmem head name')

/-! ## `FindDir` in the array -/

variable [Config]

namespace FileSystem

/-- The loop of `FindDir`, over the array of the path. -/
def findDirFromIn (directory : Directory) (sector : Int) (name : List Byte) :
    Prog World (Int × List Byte) :=
  match h : decompnameIn name with
  | none => Prog.abort
  | some (false, _, name) => pure (sector, name)
  | some (true, dirname, tail) =>
      have := decompnameIn_lt h
      let sector := directory.find dirname
      if sector < 0 then pure (-1, tail)
      else do
        let file ← OpenFile.create sector
        if file.hdr.isDir then
          let directory ← directory.fetchFrom file
          findDirFromIn directory sector tail
        else pure (-1, tail)
termination_by (CharArray.string name).length

/-- `FindDir`, over the array of the path. -/
def findDirIn (name : List Byte) : Prog World (Int × List Byte) := do
  let directory ← Directory.create
  let w ← Prog.read
  let directory ← directory.fetchFrom w.directoryFile
  findDirFromIn directory DirectorySector name

/-- The loop over the array does what the loop over the path does. -/
theorem findDirFromIn_wp {s : List Byte} {name : List Byte} {dir : Directory} {sector : Int}
    {w : World}
    {Q : Int × List Byte → World → Prop} (h : Holds name s) (hs : CString s)
    (hfit : FitsArray name.length s)
    (hwp : Prog.wp (findDirFrom dir sector s)
      (fun r w' => ∀ name', Holds name' r.2 → Q (r.1, name') w') w) :
    Prog.wp (findDirFromIn dir sector name) Q w := by
  induction hn : s.length using Nat.strong_induction_on generalizing s name dir sector w with
  | _ n ih =>
  subst hn
  rw [findDirFrom] at hwp
  rw [findDirFromIn]
  split at hwp
  · rename_i head tail hd
    obtain ⟨name', hin, hholds, -⟩ := decompnameIn_false h hs hfit hd
    rw [Prog.wp_pure] at hwp
    split
    · rename_i hnone
      exact absurd (hin.symm.trans hnone) (by simp)
    · rename_i hlast
      cases hin.symm.trans hlast
      rw [Prog.wp_pure]
      exact hwp name' hholds
    · rename_i hmore
      cases hin.symm.trans hmore
  · rename_i head tail hd
    obtain ⟨name', hin, hholds, hlen⟩ := decompnameIn_true h hs hd
    split
    · rename_i hnone
      exact absurd (hin.symm.trans hnone) (by simp)
    · rename_i hlast
      cases hin.symm.trans hlast
    · rename_i hmore
      cases hin.symm.trans hmore
      have hstail : CString tail := by
        obtain ⟨k, post, hparts, -, -, htrue⟩ := decompname_parts hd
        intro b hb
        refine hs b ?_
        rw [hparts, (htrue rfl).1]
        exact List.mem_append_right _ hb
      rw [Prog.wp_ite] at hwp ⊢
      refine ⟨fun hneg => ?_, fun hnonneg => ?_⟩
      · have hq := hwp.1 hneg
        rw [Prog.wp_pure] at hq ⊢
        exact hq name' hholds
      · have hq := hwp.2 hnonneg
        rw [Prog.wp_bind] at hq ⊢
        refine Prog.wp_mono hq fun file w₁ hq => ?_
        rw [Prog.wp_ite] at hq ⊢
        refine ⟨fun hdir => ?_, fun hfile => ?_⟩
        · have hq := hq.1 hdir
          rw [Prog.wp_bind] at hq ⊢
          refine Prog.wp_mono hq fun dir' w₂ hq => ?_
          exact ih tail.length (decompname_lt hd) hholds hstail (hlen ▸ hfit.tail hd) hq rfl
        · have hq := hq.2 hfile
          rw [Prog.wp_pure] at hq ⊢
          exact hq name' hholds

theorem findDirIn_wp {s : List Byte} {name : List Byte} {w : World}
    {Q : Int × List Byte → World → Prop} (h : Holds name s) (hs : CString s)
    (hfit : FitsArray name.length s)
    (hwp : Prog.wp (findDir s) (fun r w' => ∀ name', Holds name' r.2 → Q (r.1, name') w') w) :
    Prog.wp (findDirIn name) Q w := by
  unfold findDir at hwp
  unfold findDirIn
  rw [Prog.wp_bind] at hwp ⊢
  refine Prog.wp_mono hwp fun dir w₁ hwp => ?_
  rw [Prog.wp_bind, Prog.wp_read, Prog.wp_bind] at hwp ⊢
  refine Prog.wp_mono hwp fun dir w₂ hwp => ?_
  exact findDirFromIn_wp h hs hfit hwp

/-- A prefix of a path that is no directory. -/
def MissingDir (d : Disk) (path : List Byte) : Prop :=
  ∃ p, p ≠ [] ∧ p <+: dirKeys path ∧ treeOf d p ≠ some .dir

theorem missingDir_iff {w : World} {E : Nat → Prop} (hV : Volume w E) {path : List Byte} :
    MissingDir w.disk path ↔ treeOf w.disk (dirKeys path) ≠ some .dir := by
  constructor
  · rintro ⟨p, -, ⟨q, hq⟩, hp⟩ hdir
    refine hp ?_
    -- What is above a directory is a directory.
    rw [← hq] at hdir
    clear hq
    induction q using List.reverseRecOn with
    | nil => rwa [List.append_nil] at hdir
    | append_singleton q k ih =>
        refine ih (treeOf_parent (k := k) ?_)
        rw [List.append_assoc, hdir]
        simp
  · intro hdir
    refine ⟨dirKeys path, fun hnil => hdir ?_, List.prefix_rfl, hdir⟩
    rw [hnil, treeOf_of_walk (s := DirectorySector) rfl, nodeAt_eq_dir.mpr hV.names.root]

end FileSystem

end Nachos
