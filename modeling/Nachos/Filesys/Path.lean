/-
  Nachos.Filesys.Path

  A path splits at its `/`: the directories are the parts before the last `/`
  that are not empty, the last component is what follows it.  `FindDir` walks down
  the directories by the keys of their names.
-/

import Mathlib.Data.List.TakeWhile
import Nachos.Filesys.FileSys
import Nachos.Filesys.Tree

namespace Nachos

open Words Program Config

/-- The directories of a path, and its last component. -/
def components (path : List Byte) : List (List Byte) × List Byte :=
  let parts := path.splitOnP (· == slash)
  (parts.dropLast.filter (· != []), parts.getLast?.getD [])

/-- The keys of the directories of a path. -/
def dirKeys (path : List Byte) : List (List Byte) := (components path).1.map key

/-- The key of the last component. -/
def lastKey (path : List Byte) : List Byte := key (components path).2

/-- A first part without `/`. -/
theorem components_append {head : List Byte} (h : ∀ x ∈ head, (x == slash) = false)
    (s : List Byte) :
    components (head ++ slash :: s) =
      ([head].filter (· != []) ++ (components s).1, (components s).2) := by
  have hsplit := List.splitOnP_append_cons_of_forall_mem (p := (· == slash)) h slash
    (by simp) s
  obtain ⟨x, L, hL⟩ := List.exists_cons_of_ne_nil (List.splitOnP_ne_nil (· == slash) s)
  simp only [components, hsplit, hL, List.dropLast_cons_cons, List.getLast?_cons_cons]
  rw [← List.singleton_append, List.filter_append]

theorem components_slash (s : List Byte) : components (slash :: s) = components s := by
  have := components_append (by simp : ∀ x ∈ ([] : List Byte), (x == slash) = false) s
  simpa using this

/-- The part of a list before the first `/`, and what follows. -/
theorem takeWhile_slash (s : List Byte) : ∀ x ∈ s.takeWhile (· != slash), (x == slash) = false := by
  intro x hx
  have := List.mem_takeWhile_imp hx
  simpa using this

/-- No remainder: the path is its last component. -/
theorem components_last {s head tail : List Byte} (h : decompname s = (false, head, tail)) :
    components s = ([], tail) := by
  induction s with
  | nil =>
      obtain rfl : [] = tail := by simpa [decompname] using congrArg (fun x => x.2.2) h
      rfl
  | cons c s ih =>
      by_cases hc : c = slash
      · rw [hc, decompname_slash] at h
        rw [hc, components_slash]
        exact ih h
      · rw [decompname_cons hc] at h
        split at h
        · rename_i hnil
          obtain rfl : c :: s = tail := by simpa using congrArg (fun x => x.2.2) h
          have hall : ∀ x ∈ c :: s, (x == slash) = false := by
            intro x hx
            rcases List.mem_cons.mp hx with rfl | hx
            · exact beq_false_of_ne hc
            · have := List.dropWhile_eq_nil_iff.mp hnil x hx
              simpa using this
          have hsplit : (c :: s).splitOnP (· == slash) = [c :: s] :=
            List.splitOnP_eq_singleton hall
          rw [components, hsplit]
          rfl
        · cases h

/-- The first element is the first directory. -/
theorem components_cons {s head tail : List Byte} (h : decompname s = (true, head, tail)) :
    components s = (head :: (components tail).1, (components tail).2) := by
  induction s with
  | nil => cases h
  | cons c s ih =>
      by_cases hc : c = slash
      · rw [hc, decompname_slash] at h
        rw [hc, components_slash]
        exact ih h
      · rw [decompname_cons hc] at h
        split at h
        · cases h
        · rename_i hne
          obtain rfl : c :: s.takeWhile (· != slash) = head := by
            simpa using congrArg (fun x => x.2.1) h
          obtain rfl : s.dropWhile (· != slash) = tail := by
            simpa using congrArg (fun x => x.2.2) h
          -- What follows the first element starts with a `/`.
          obtain ⟨rest, hrest⟩ : ∃ rest, s.dropWhile (· != slash) = slash :: rest := by
            obtain ⟨x, rest, hx⟩ := List.exists_cons_of_ne_nil hne
            have := List.head_dropWhile_not (· != slash) (l := s) hne
            simp only [hx, List.head_cons] at this
            have hxs : x = slash := by simpa using this
            exact ⟨rest, hxs ▸ hx⟩
          have hs : c :: s = (c :: s.takeWhile (· != slash)) ++ slash :: rest := by
            rw [List.cons_append, ← hrest, List.takeWhile_append_dropWhile]
          have hall : ∀ x ∈ c :: s.takeWhile (· != slash), (x == slash) = false := by
            intro x hx
            rcases List.mem_cons.mp hx with rfl | hx
            · exact beq_false_of_ne hc
            · exact takeWhile_slash s x hx
          rw [hs, components_append hall, hrest, components_slash]
          simp

variable [Config]

namespace FileSystem

/-- The loop of `FindDir` walks from the directory at `s`. -/
theorem wp_findDirFrom {E : Nat → Prop} {s : Nat} {dir : Directory} (name : List Byte) {w : World}
    {Q : Int × List Byte → World → Prop} (hV : Volume w E) (hs : Reach w.disk s)
    (hdir : intAt w.disk s 0 = 1) (hd : dir.Holds w.disk s)
    (hok : ∀ a w', OnlyAllocs w w' →
      Walk.walk (child w.disk) s (dirKeys name) = some a → intAt w.disk a 0 = 1 →
      Q ((a : Int), (components name).2) w')
    (hfail : ∀ n w', OnlyAllocs w w' →
      (∀ a, Walk.walk (child w.disk) s (dirKeys name) = some a → intAt w.disk a 0 ≠ 1) →
      Q (-1, n) w') :
    Prog.wp (findDirFrom dir s name) Q w := by
  -- The remainder of a path is shorter than the path.
  induction hn : name.length using Nat.strong_induction_on generalizing s dir name w with
  | _ n ih =>
  subst hn
  rw [findDirFrom]
  split
  · rename_i head tail h
    have hc := components_last h
    rw [Prog.wp_pure]
    have hq := hok s w (OnlyAllocs.refl w)
    rw [dirKeys, hc] at hq
    exact hq rfl hdir
  · rename_i head tail h
    have hc := components_cons h
    have hkeys : dirKeys name = key head :: dirKeys tail := by
      rw [dirKeys, hc, List.map_cons, dirKeys]
    rw [hkeys] at hok hfail
    rcases hd.find (hV.names.dirs s hs hdir) hdir head with
      ⟨hchild, hfind, -⟩ | ⟨x, hchild, hfind, -⟩
    · -- There is no such entry.
      simp only [hfind]
      rw [if_pos (by decide), Prog.wp_pure]
      refine hfail tail w (OnlyAllocs.refl w) fun a ha => ?_
      rw [Walk.walk, hchild] at ha
      cases ha
    · have hx : Reach w.disk x := hs.child hchild
      simp only [hfind]
      rw [if_neg (by omega), Prog.wp_bind]
      refine OpenFile.wp_create (hV.inode hx) fun file w' _ _ hl hw => ?_
      rw [Prog.wp_ite, hl.isDir]
      refine ⟨fun hisdir => ?_, fun hnot => ?_⟩
      · have hxdir : intAt w.disk x 0 = 1 := by simpa using hisdir
        have hxok := hV.names.dirs x hx hxdir
        obtain ⟨k, rfl⟩ := hw
        rw [Prog.wp_bind]
        refine Directory.wp_fetchFrom hd.tableSize (hV.inode hx) hl hxok.length
          fun dir' w' hd' hw' => ?_
        have htrans : OnlyAllocs w w' := OnlyAllocs.trans ⟨k, rfl⟩ hw'
        have hdisk : w'.disk = w.disk := by
          obtain ⟨k', rfl⟩ := hw'
          rfl
        refine ih tail.length (decompname_lt h) tail (hV.allocs htrans) (hdisk ▸ hx) (hdisk ▸ hxdir)
          (hdisk ▸ hd') (fun a w₂ hw₂ hwalk ha => ?_) (fun n w₂ hw₂ hwalk => ?_) rfl
        · rw [hdisk] at hwalk ha
          have hq := hok a w₂ (htrans.trans hw₂)
          rw [Walk.walk, hchild, Option.bind_some, hc] at hq
          exact hq hwalk ha
        · rw [hdisk] at hwalk
          refine hfail n w₂ (htrans.trans hw₂) fun a ha => ?_
          rw [Walk.walk, hchild, Option.bind_some] at ha
          exact hwalk a ha
      · have hxfile : intAt w.disk x 0 ≠ 1 := by simpa using hnot
        rw [Prog.wp_pure]
        refine hfail tail w' hw fun a ha => ?_
        rw [Walk.walk, hchild, Option.bind_some] at ha
        -- A file has no entries, so the path ends here.
        cases hks : dirKeys tail with
        | nil =>
            rw [hks, Walk.walk] at ha
            exact Option.some.inj ha ▸ hxfile
        | cons k ks =>
            rw [hks, Walk.walk, child, if_neg hxfile] at ha
            cases ha

/-- `FindDir` finds the directory that contains the file of a path. -/
theorem wp_findDir {E : Nat → Prop} {name : List Byte} {w : World}
    {Q : Int × List Byte → World → Prop} (hV : Volume w E)
    (hok : ∀ a w', OnlyAllocs w w' →
      Walk.walk (child w.disk) DirectorySector (dirKeys name) = some a → intAt w.disk a 0 = 1 →
      Q ((a : Int), (components name).2) w')
    (hfail : ∀ n w', OnlyAllocs w w' → treeOf w.disk (dirKeys name) ≠ some .dir → Q (-1, n) w') :
    Prog.wp (findDir name) Q w := by
  unfold findDir
  have hroot : Reach w.disk DirectorySector := Walk.Reach.root
  have hok' := hV.names.dirs _ hroot hV.names.root
  rw [Prog.wp_bind]
  refine Directory.wp_create fun dir w₁ hsize _ hw₁ => ?_
  obtain ⟨k, rfl⟩ := hw₁
  rw [Prog.wp_bind, Prog.wp_read, Prog.wp_bind]
  refine Directory.wp_fetchFrom hsize (hV.inode hroot) hV.directoryFile hok'.length
    fun dir' w₂ hd hw₂ => ?_
  obtain ⟨k', rfl⟩ := hw₂
  refine wp_findDirFrom (s := DirectorySector) name (hV.allocs ⟨k', rfl⟩) hroot hV.names.root hd
    (fun a w₃ hw₃ hwalk ha => ?_) fun n w₃ hw₃ hwalk => ?_
  · exact hok a w₃ (OnlyAllocs.trans ⟨k', rfl⟩ hw₃) hwalk ha
  · refine hfail n w₃ (OnlyAllocs.trans ⟨k', rfl⟩ hw₃) fun htree => ?_
    obtain ⟨a, ha, hnode⟩ := walk_of_treeOf htree
    exact hwalk a ha (nodeAt_eq_dir.mp hnode)

end FileSystem

end Nachos
