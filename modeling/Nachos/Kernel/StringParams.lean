/-
  Nachos.Kernel.StringParams

  Where the system calls copy a string of the user.  `GetLengthParam` and
  `GetStringParam` make an array as long as the string; from there it goes, through the
  file system, the table of open files, the statistics and the name of a thread, into
  arrays of `MaxFileNameSize` or `MAXSTRLEN` bytes, and none of these copies looks at
  the size.  The copies into arrays made for the string, and into the entries of a
  directory with `strncpy`, are left out.
-/

import Nachos.Filesys.OfTable
import Nachos.Filesys.PathArray
import Nachos.Utility.Config

namespace Nachos
namespace StringParams

open Words Nachos.Config
open ConfigFile (MAXSTRLEN AciaMode)

/-! ## Copies -/

/-- A copy into an array: the size of the array and the indices that are written. -/
structure Copy where
  size : Nat
  written : List Nat

def Copy.Inside (c : Copy) : Prop := ∀ i ∈ c.written, i < c.size

/-- The first `n` bytes of an array. -/
def fill (size n : Nat) : Copy := ⟨size, List.range n⟩

/-- `strcpy` of a string: its characters and the `'\0'`. -/
def strcpy (size : Nat) (s : List Byte) : Copy := fill size (s.length + 1)

theorem fill_inside {size n : Nat} : (fill size n).Inside ↔ n ≤ size := by
  constructor
  · intro h
    cases n with
    | zero => exact Nat.zero_le _
    | succ n => exact h n (List.mem_range.mpr (Nat.lt_succ_self n))
  · intro h i hi
    exact Nat.lt_of_lt_of_le (List.mem_range.mp hi) h

theorem strcpy_inside {size : Nat} {s : List Byte} : (strcpy size s).Inside ↔ s.length < size :=
  fill_inside

/-- All of the copies stay inside their arrays. -/
def AllInside (cs : List Copy) : Prop := ∀ c ∈ cs, c.Inside

theorem allInside_append {cs ds : List Copy} :
    AllInside (cs ++ ds) ↔ AllInside cs ∧ AllInside ds := List.forall_mem_append

theorem allInside_cons {c : Copy} {cs : List Copy} :
    AllInside (c :: cs) ↔ c.Inside ∧ AllInside cs := List.forall_mem_cons

theorem allInside_nil : AllInside [] := fun _ h => nomatch h

/-- What `decompname` makes of a path is no longer than the path. -/
theorem decompname_le {path head tail : List Byte} {more : Bool}
    (h : decompname path = (more, head, tail)) :
    head.length ≤ path.length ∧ tail.length ≤ path.length := by
  obtain ⟨k, post, rfl, -, hfalse, htrue⟩ := decompname_parts h
  simp only [List.length_append, List.length_replicate]
  cases more with
  | false =>
      rw [(hfalse rfl).2]
      omega
  | true =>
      rw [(htrue rfl).1]
      omega

/-! ## The file system -/

/-- What is found on the disk: `Find` in the directory of a sector, and whether a file is a
    directory. -/
structure Files where
  find : Int → List Byte → Int
  isDir : Int → Bool

variable [Nachos.Config] (files : Files)

/-- The loop of `FindDir` over the array `name`, with the sector that is found and what is
    left in `name`.  Each round fills `dirname` with the first element and puts the
    remainder at the start of `name`. -/
def FindDir (sector : Int) (name : List Byte) : List Copy × Int × List Byte :=
  match h : decompname name with
  | (false, dirname, tail) =>
      -- the remainder is moved with as many bytes as the old path has
      ([strcpy MaxFileNameSize dirname, fill MaxFileNameSize name.length], sector, tail)
  | (true, dirname, tail) =>
      have := decompname_lt h
      let copies := [strcpy MaxFileNameSize dirname, strcpy MaxFileNameSize tail]
      let sector := files.find sector dirname
      if sector < 0 ∨ ¬ files.isDir sector then (copies, -1, tail)
      else
        let (more, r) := FindDir sector tail
        (copies ++ more, r)
termination_by name.length

/-- A path that is copied into an array and searched. -/
def searched (name : List Byte) : List Copy × Int × List Byte :=
  let (copies, r) := FindDir files DirectorySector name
  (strcpy MaxFileNameSize name :: copies, r)

/-- `OpenFile::SetName`. -/
def SetName (name : List Byte) : Copy := strcpy MaxFileNameSize name

namespace FileSystem

/-- `FileSystem::Create`; like the next ones, it looks at the path only once. -/
def Create (name : List Byte) : List Copy := (searched files name).1

def Remove (name : List Byte) : List Copy := (searched files name).1

def Mkdir (dirname : List Byte) : List Copy := (searched files dirname).1

def Rmdir (dirname : List Byte) : List Copy := (searched files dirname).1

/-- `FileSystem::Open`. -/
def Open (name : List Byte) : List Copy :=
  let (copies, dirsector, dirname) := searched files name
  if dirsector = -1 then copies
  else if files.find dirsector dirname ≥ 0 then copies ++ [SetName name]
  else copies

end FileSystem

namespace OpenFileTable

/-- `OpenFileTable::Open`. -/
def Open (w : World) (name : List Byte) : List Copy :=
  match w.findl name with
  | some num =>
      if (w.table num).any (·.ToBeDeleted) then [] else [SetName name]
  | none =>
      if w.nbentry ≠ -1 then
        let (copies, dirsector, filename) := searched files name
        let copies := strcpy MaxFileNameSize name :: copies
        if dirsector = -1 then copies
        else
          let sector := files.find dirsector filename
          if sector ≥ 0 ∧ ¬ files.isDir sector then copies ++ [SetName name, SetName name]
          else copies
      else []

/-- `OpenFileTable::Remove`. -/
def Remove (w : World) (name : List Byte) : List Copy :=
  let (copies, dirsector, filename) := searched files name
  if dirsector = -1 then copies
  else if files.find dirsector filename = -1 then copies
  else
    match w.findl name with
    | some _ => copies
    | none => copies ++ FileSystem.Remove files name

end OpenFileTable

/-! ## The system calls -/

/-- `"master thread of process "`. -/
def masterThread : List Byte :=
  "master thread of process ".toList.map fun c => BitVec.ofNat 8 c.toNat

/-- What the copies depend on. -/
structure State where
  files : Files
  world : World
  ACIA : AciaMode

/-- The system calls with a string. -/
inductive Call where
  | Create | Open | Remove | Mkdir | Rmdir | Exec | TtySend
deriving DecidableEq, Repr

/-- The copies that a call with the string `ch` makes into arrays of a fixed size. -/
def copies (k : State) (ch : List Byte) : Call → List Copy
  | .Create => FileSystem.Create k.files ch
  | .Open => OpenFileTable.Open k.files k.world ch
  | .Remove => OpenFileTable.Remove k.files k.world ch
  | .Mkdir => FileSystem.Mkdir k.files ch
  | .Rmdir => FileSystem.Rmdir k.files ch
  | .Exec =>
      -- `name` of the thread, `ProcessStat::name`, and the executable
      strcpy MAXSTRLEN (masterThread ++ ch) :: strcpy MAXSTRLEN ch :: FileSystem.Open k.files ch
  | .TtySend => if k.ACIA ≠ .ACIA_NONE then [strcpy MAXSTRLEN ch] else []

/-! ## The lengths -/

section

variable {files : Files} {name : List Byte}

/-- The copies of `FindDir` stay inside when the path does. -/
theorem FindDir_inside (h : name.length < MaxFileNameSize) (sector : Int) :
    AllInside (FindDir files sector name).1 := by
  induction hn : name.length using Nat.strong_induction_on generalizing name sector with
  | _ n ih =>
  subst hn
  rw [FindDir]
  split
  · rename_i dirname tail hd
    obtain ⟨hhead, -⟩ := decompname_le hd
    rw [allInside_cons, allInside_cons, strcpy_inside, fill_inside]
    exact ⟨by omega, by omega, allInside_nil⟩
  · rename_i dirname tail hd
    obtain ⟨hhead, htail⟩ := decompname_le hd
    have hcopies : AllInside [strcpy MaxFileNameSize dirname, strcpy MaxFileNameSize tail] := by
      rw [allInside_cons, allInside_cons, strcpy_inside, strcpy_inside]
      exact ⟨by omega, by omega, allInside_nil⟩
    dsimp only
    split
    · exact hcopies
    · -- The remainder is a shorter path in the same array.
      rw [allInside_append]
      exact ⟨hcopies, ih tail.length (decompname_lt hd) (by omega) _ rfl⟩

/-- A path is searched inside the arrays just when it fits in the first one. -/
theorem searched_inside :
    AllInside (searched files name).1 ↔ name.length < MaxFileNameSize := by
  show AllInside (strcpy MaxFileNameSize name :: _) ↔ _
  rw [allInside_cons, strcpy_inside]
  exact and_iff_left_of_imp fun h => FindDir_inside h _

theorem FileSystem.Open_inside :
    AllInside (FileSystem.Open files name) ↔ name.length < MaxFileNameSize := by
  have hsearched : AllInside (searched files name).1 ↔ _ := searched_inside
  unfold FileSystem.Open
  generalize searched files name = found at hsearched ⊢
  obtain ⟨copies, dirsector, dirname⟩ := found
  dsimp only at hsearched ⊢
  split
  · exact hsearched
  split
  · rw [allInside_append, allInside_cons, SetName, strcpy_inside, hsearched]
    exact ⟨fun h => h.1, fun h => ⟨h, h, allInside_nil⟩⟩
  · exact hsearched

theorem OpenFileTable.Remove_inside (w : World) :
    AllInside (OpenFileTable.Remove files w name) ↔ name.length < MaxFileNameSize := by
  have hsearched : AllInside (searched files name).1 ↔ _ := searched_inside
  unfold OpenFileTable.Remove FileSystem.Remove
  generalize searched files name = found at hsearched ⊢
  obtain ⟨copies, dirsector, filename⟩ := found
  dsimp only at hsearched ⊢
  split
  · exact hsearched
  split
  · exact hsearched
  split
  · exact hsearched
  · rw [allInside_append, hsearched, and_self]

/-- `OpenFileTable::Open` copies the name: the file is in the table and not removed, or it
    is not in the table and there is a free slot. -/
def Entered (w : World) (name : List Byte) : Prop :=
  match w.findl name with
  | some num => (w.table num).any (·.ToBeDeleted) = false
  | none => w.nbentry ≠ -1

theorem OpenFileTable.Open_inside (w : World) :
    AllInside (OpenFileTable.Open files w name) ↔
      (Entered w name → name.length < MaxFileNameSize) := by
  have hsearched : AllInside (searched files name).1 ↔ _ := searched_inside
  unfold OpenFileTable.Open Entered
  split
  · rename_i num hnum
    cases hdeleted : (w.table num).any (·.ToBeDeleted) with
    | true => exact iff_of_true allInside_nil fun h => nomatch h
    | false =>
        rw [if_neg Bool.false_ne_true, allInside_cons, SetName, strcpy_inside]
        exact ⟨fun h _ => h.1, fun h => ⟨h rfl, allInside_nil⟩⟩
  · by_cases hfree : w.nbentry = -1
    · rw [if_neg (not_not.mpr hfree)]
      exact iff_of_true allInside_nil fun h => absurd hfree h
    · rw [if_pos hfree, forall_prop_of_true hfree]
      generalize searched files name = found at hsearched ⊢
      obtain ⟨copies, dirsector, filename⟩ := found
      dsimp only at hsearched ⊢
      have hcopies : AllInside (strcpy MaxFileNameSize name :: copies) ↔
          name.length < MaxFileNameSize := by
        rw [allInside_cons, strcpy_inside, hsearched, and_self]
      split
      · exact hcopies
      split
      · rw [allInside_append, hcopies, allInside_cons, allInside_cons, SetName, strcpy_inside]
        exact ⟨fun h => h.1, fun h => ⟨h, h, h, allInside_nil⟩⟩
      · exact hcopies

end

/-- The string is short enough for the call. -/
def Short (k : State) (ch : List Byte) : Call → Prop
  | .Open => Entered k.world ch → ch.length < MaxFileNameSize
  | .Exec => ch.length + 25 < MAXSTRLEN ∧ ch.length < MaxFileNameSize
  | .TtySend => k.ACIA ≠ .ACIA_NONE → ch.length < MAXSTRLEN
  | _ => ch.length < MaxFileNameSize

/-- All copies of the string of a call stay inside the arrays just when it is short
    enough. -/
theorem copies_inside_iff (k : State) (ch : List Byte) (call : Call) :
    AllInside (copies k ch call) ↔ Short k ch call := by
  cases call with
  | Create => exact searched_inside
  | Open => exact OpenFileTable.Open_inside k.world
  | Remove => exact OpenFileTable.Remove_inside k.world
  | Mkdir => exact searched_inside
  | Rmdir => exact searched_inside
  | Exec =>
      have hprefix : (masterThread ++ ch).length = 25 + ch.length := by
        rw [List.length_append]
        rfl
      show AllInside (strcpy MAXSTRLEN (masterThread ++ ch) :: strcpy MAXSTRLEN ch ::
        FileSystem.Open k.files ch) ↔ ch.length + 25 < MAXSTRLEN ∧ ch.length < MaxFileNameSize
      rw [allInside_cons, allInside_cons, strcpy_inside, strcpy_inside, FileSystem.Open_inside,
        hprefix]
      omega
  | TtySend =>
      show AllInside (if k.ACIA ≠ .ACIA_NONE then [strcpy MAXSTRLEN ch] else []) ↔
        (k.ACIA ≠ .ACIA_NONE → ch.length < MAXSTRLEN)
      split
      · rename_i hacia
        rw [allInside_cons, strcpy_inside, forall_prop_of_true hacia]
        exact and_iff_left allInside_nil
      · rename_i hacia
        exact iff_of_true allInside_nil fun h => absurd h hacia

omit [Nachos.Config] in
/-- `Exec` of a name of 75 characters. -/
theorem copies_inside_fails :
    let _ := Config.defaults
    ¬ ∀ (k : State) (ch : List Byte) (call : Call), (∀ c ∈ ch, c ≠ 0) →
      AllInside (copies k ch call) := by
  intro _ h
  have hall := h ⟨⟨fun _ _ => -1, fun _ => false⟩, World.blank, .ACIA_NONE⟩ (List.replicate 75 97)
    .Exec (fun c hc => by rw [List.eq_of_mem_replicate hc]; decide)
  obtain ⟨hname, -⟩ := allInside_cons.mp hall
  rw [strcpy_inside] at hname
  exact absurd hname (by decide)

end StringParams
end Nachos
