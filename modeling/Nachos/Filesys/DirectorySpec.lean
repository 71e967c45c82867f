/-
  Nachos.Filesys.DirectorySpec

  A directory as a table of slots: an entry in use has a key, the first 80
  characters of its name, and a sector.  Then a directory in its file.
-/

import Nachos.Filesys.Directory
import Nachos.Filesys.FreeMap
import Nachos.Lib.Slots

namespace Nachos

open Words Program Config

/-- At most `n` characters of a string, up to the first zero. -/
def cut : Nat → List Byte → List Byte
  | 0, _ => []
  | _ + 1, [] => []
  | n + 1, x :: a => if x = 0 then [] else x :: cut n a

/-- The part of a name that the code compares. -/
def key (s : List Byte) : List Byte := cut FILENAMEMAXLEN s

/-- The characters of a string: no zero before the end. -/
def CString (s : List Byte) : Prop := ∀ b ∈ s, b ≠ 0

theorem CString.cut {s : List Byte} (h : CString s) (n : Nat) : cut n s = s.take n := by
  induction n generalizing s with
  | zero => simp [Nachos.cut]
  | succ n ih =>
      cases s with
      | nil => rfl
      | cons x s =>
          have hx : x ≠ 0 := h x (by simp)
          rw [Nachos.cut, if_neg hx, List.take_succ_cons, ih fun b hb => h b (by simp [hb])]

theorem CString.key {s : List Byte} (h : CString s) : key s = s.take FILENAMEMAXLEN := h.cut _

/-- The code compares the characters up to the first zero. -/
theorem strncmpEq_iff (n : Nat) (a b : List Byte) :
    strncmpEq n a b = true ↔ cut n a = cut n b := by
  induction n generalizing a b with
  | zero => simp [strncmpEq, cut]
  | succ n ih =>
      rw [strncmpEq]
      by_cases hne : a.headD 0 = b.headD 0
      · rw [if_neg (not_not.mpr hne)]
        by_cases hz : a.headD 0 = 0
        · -- Both strings end here.
          have hnil : ∀ c : List Byte, c.headD 0 = 0 → cut (n + 1) c = [] := by
            intro c hc
            cases c with
            | nil => rfl
            | cons x c => rw [cut, if_pos (by simpa using hc)]
          rw [if_pos hz, hnil a hz, hnil b (hne ▸ hz)]
          simp
        · rw [if_neg hz, ih]
          cases a with
          | nil => simp at hz
          | cons x a =>
              cases b with
              | nil => exact absurd hne hz
              | cons y b =>
                  obtain rfl : x = y := hne
                  have hx : x ≠ 0 := hz
                  rw [cut, cut, if_neg hx, if_neg hx, List.cons.injEq]
                  simp
      · rw [if_pos hne]
        have hcut : cut (n + 1) a ≠ cut (n + 1) b := by
          intro he
          -- The first character can be read off what is compared.
          have hhead : ∀ c : List Byte, (cut (n + 1) c).headD 0 = c.headD 0 := by
            intro c
            cases c with
            | nil => rfl
            | cons x c =>
                rw [cut]
                by_cases hx : x = 0
                · rw [if_pos hx, hx]
                  rfl
                · rw [if_neg hx]
                  rfl
          exact hne (by rw [← hhead a, he, hhead b])
        simp [hcut]

/-- Only the first `n` characters matter, with zeros past the end. -/
theorem cut_congr {n : Nat} {a b : List Byte} (h : ∀ j < n, a.getD j 0 = b.getD j 0) :
    cut n a = cut n b := by
  rw [← strncmpEq_iff]
  induction n generalizing a b with
  | zero => rfl
  | succ n ih =>
      have hhead : ∀ c : List Byte, c.headD 0 = c.getD 0 0 := by
        intro c
        cases c <;> rfl
      have htail : ∀ (c : List Byte) (j : Nat), c.tail.getD j 0 = c.getD (j + 1) 0 := by
        intro c j
        cases c <;> rfl
      rw [strncmpEq, hhead, hhead, h 0 (Nat.succ_pos n)]
      have hrest := ih (a := a.tail) (b := b.tail) fun j hj => by
        rw [htail, htail, h (j + 1) (Nat.succ_lt_succ hj)]
      simp [hrest]

namespace Directory

/-- Entry `i`: its key and its sector, when it is in use. -/
def slot (dir : Directory) (i : Nat) : Option (List Byte × Int) :=
  if dir.inUse i then some (key (dir.name i), dir.sector i) else none

/-- An entry depends on its bytes. -/
theorem slot_congr {dir dir' : Directory} {i : Nat}
    (h : ∀ o, 92 * i ≤ o → o < 92 * i + 92 →
      dir'.table o = dir.table o) : dir'.slot i = dir.slot i := by
  have huse : dir'.inUse i = dir.inUse i := by
    rw [inUse, inUse, h _ (Nat.le_refl _) (by omega)]
  have hsector : dir'.sector i = dir.sector i :=
    int_congr fun j hj => h j (by omega) (by omega)
  have hname : dir'.name i = dir.name i := by
    apply List.map_congr_left
    intro j hj
    have hlen : FILENAMEMAXLEN = 80 := rfl
    have := List.mem_range.mp hj
    exact h _ (by omega) (by omega)
  rw [slot, slot, huse, hsector, hname]

theorem findIndex_pred (dir : Directory) (s : List Byte) (i : Nat) :
    (dir.inUse i && strncmpEq FILENAMEMAXLEN (dir.name i) s) = true ↔
      dir.slot i = some (key s, dir.sector i) := by
  rw [Bool.and_eq_true, strncmpEq_iff, slot]
  cases dir.inUse i with
  | true => simp [key]
  | false => simp

theorem findIndex_none {dir : Directory} {s : List Byte}
    (h : Slots.lookup dir.tableSize dir.slot (key s) = none) : dir.findIndex s = none := by
  rw [findIndex, List.find?_eq_none]
  intro i hi hc
  exact Slots.lookup_none.mp h i (List.mem_range.mp hi) _ ((dir.findIndex_pred s i).mp hc)

theorem findIndex_some {dir : Directory} {s : List Byte} {x : Int}
    (hd : Slots.Distinct dir.tableSize dir.slot)
    (h : Slots.lookup dir.tableSize dir.slot (key s) = some x) :
    ∃ i < dir.tableSize, dir.findIndex s = some i ∧ dir.slot i = some (key s, x) := by
  obtain ⟨j, hj, hs⟩ := Slots.slot_of_lookup h
  cases hf : dir.findIndex s with
  | none =>
      rw [findIndex, List.find?_eq_none] at hf
      have hx : dir.sector j = x := by
        rw [slot] at hs
        split at hs
        · exact (Prod.mk.inj (Option.some.inj hs)).2
        · cases hs
      exact absurd ((dir.findIndex_pred s j).mpr (hx ▸ hs)) (hf j (List.mem_range.mpr hj))
  | some i =>
      have hi := List.mem_range.mp (List.mem_of_find?_eq_some hf)
      have hp := (dir.findIndex_pred s i).mp (List.find?_some (p := fun i =>
        dir.inUse i && strncmpEq FILENAMEMAXLEN (dir.name i) s) hf)
      obtain rfl := hd i hi j hj _ _ _ hp hs
      exact ⟨i, hi, rfl, hs⟩

/-- `Find` looks the key up. -/
theorem find_eq {dir : Directory} (hd : Slots.Distinct dir.tableSize dir.slot) (s : List Byte) :
    dir.find s = (Slots.lookup dir.tableSize dir.slot (key s)).getD (-1) := by
  cases hl : Slots.lookup dir.tableSize dir.slot (key s) with
  | none => rw [find, findIndex_none hl, Option.getD_none]
  | some x =>
      obtain ⟨i, -, hf, hs⟩ := findIndex_some hd hl
      have hx : dir.sector i = x := by
        rw [slot] at hs
        split at hs
        · exact (Prod.mk.inj (Option.some.inj hs)).2
        · cases hs
      rw [find, hf, Option.getD_some]
      exact hx

/-! ## The setters -/

theorem setInUse_table (dir : Directory) (i : Nat) (b : Bool) : (dir.setInUse i b).table =
    copyInto dir.table (92 * i) 1 fun _ => if b then 1 else 0 := rfl

theorem slot_setInUse_false (dir : Directory) (i : Nat) :
    (dir.setInUse i false).slot = Function.update dir.slot i none := by
  funext j
  by_cases hji : j = i
  · subst hji
    have huse : (dir.setInUse j false).inUse j = false := by
      have := copyInto_of_mem (d := dir.table) (f := fun _ => (0 : Byte))
        (b := 92 * j) (n := 1) (k := 0) (by decide)
      rw [Nat.add_zero] at this
      show (copyInto dir.table (92 * j) 1 (fun _ => 0) (92 * j) != 0) = false
      rw [this]
      rfl
    rw [slot, huse, Function.update_self]
    rfl
  · rw [Function.update_of_ne hji]
    refine slot_congr fun o ho ho' => ?_
    have hout : o < 92 * i ∨ 92 * i + 1 ≤ o := by omega
    rw [setInUse_table, OpenFile.copyInto_of_not hout]

section Fill

variable (dir : Directory) (i : Nat) (s : List Byte) (x : Int)

/-- The three assignments of `Add`. -/
def fill : Directory := ((dir.setInUse i true).setName i s).setSector i x

theorem fill_table : (dir.fill i s x).table =
    copyInto (copyInto (copyInto dir.table (92 * i) 1 fun _ => 1) (92 * i + 8) FILENAMEMAXLEN
      fun j => s.getD j 0) (92 * i + 4) 4 (ofInts fun _ => x) := rfl

theorem inUse_fill : (dir.fill i s x).inUse i = true := by
  have hlen : FILENAMEMAXLEN = 80 := rfl
  have h1 : ∀ t f : Nat → Byte, copyInto t (92 * i + 4) 4 f (92 * i) = t (92 * i) :=
    fun t f => OpenFile.copyInto_of_not (by omega)
  have h2 : ∀ t f : Nat → Byte, copyInto t (92 * i + 8) FILENAMEMAXLEN f (92 * i) =
      t (92 * i) := fun t f => OpenFile.copyInto_of_not (by omega)
  have h3 := copyInto_of_mem (d := dir.table) (f := fun _ => (1 : Byte))
    (b := 92 * i) (n := 1) (k := 0) (by decide)
  rw [Nat.add_zero] at h3
  show ((fill dir i s x).table (92 * i) != 0) = true
  have hone : (fill dir i s x).table (92 * i) = 1 := by
    rw [fill_table, h1, h2, h3]
  rw [hone]
  rfl

theorem sector_fill (hx : InInt x) : (dir.fill i s x).sector i = x := by
  have hword : int (dir.fill i s x).table (23 * i + 1) =
      int (ofInts fun _ => x) (23 * i + 1) := by
    refine int_congr fun o ho => ?_
    obtain ⟨m, hm, rfl⟩ : ∃ m < 4, o = 92 * i + 4 + m := ⟨o - (92 * i + 4), by omega, by omega⟩
    have hmod : (92 * i + 4 + m) % 4 = m % 4 := by omega
    have hbyte : ofInts (fun _ => x) m = ofInts (fun _ => x) (92 * i + 4 + m) := by
      rw [ofInts, byte, byte, hmod]
    rw [fill_table, copyInto_of_mem hm, hbyte]
  rw [sector, hword]
  exact int_ofInts_of hx

theorem name_fill : key ((dir.fill i s x).name i) = key s := by
  have hlen : FILENAMEMAXLEN = 80 := rfl
  refine cut_congr fun o ho => ?_
  have hget : ((dir.fill i s x).name i).getD o 0 = (dir.fill i s x).table (92 * i + 8 + o) := by
    have hlt : o < FILENAMEMAXLEN + 1 := by omega
    simp [name, List.getD_eq_getElem?_getD, hlt]
  have h1 : ∀ t f : Nat → Byte, copyInto t (92 * i + 4) 4 f (92 * i + 8 + o) =
      t (92 * i + 8 + o) := fun t f => OpenFile.copyInto_of_not (by omega)
  rw [hget, fill_table, h1, copyInto_of_mem ho]

theorem slot_fill (hx : InInt x) :
    (dir.fill i s x).slot = Function.update dir.slot i (some (key s, x)) := by
  have hlen : FILENAMEMAXLEN = 80 := rfl
  funext j
  by_cases hji : j = i
  · subst hji
    rw [Function.update_self, slot, inUse_fill, if_pos rfl, sector_fill dir j s x hx, name_fill]
  · rw [Function.update_of_ne hji]
    refine slot_congr fun o ho ho' => ?_
    have h1 : ∀ t f : Nat → Byte, copyInto t (92 * i + 4) 4 f o = t o :=
      fun t f => OpenFile.copyInto_of_not (by omega)
    have h2 : ∀ t f : Nat → Byte, copyInto t (92 * i + 8) FILENAMEMAXLEN f o = t o :=
      fun t f => OpenFile.copyInto_of_not (by omega)
    have h3 : ∀ t f : Nat → Byte, copyInto t (92 * i) 1 f o = t o :=
      fun t f => OpenFile.copyInto_of_not (by omega)
    rw [fill_table, h1, h2, h3]

end Fill

/-! ## `Add`, `Remove` and `empty` on slots -/

section Ops

variable {dir : Directory} {s : List Byte} {x : Int}

/-- `Add` fills an empty slot with a new key. -/
theorem add_spec (hx : InInt x) (h : Slots.lookup dir.tableSize dir.slot (key s) = none)
    (hfree : ∃ i < dir.tableSize, dir.slot i = none) :
    ∃ i < dir.tableSize, ∃ dir', dir.add s x = (.NoError, dir') ∧ dir.slot i = none ∧
      dir'.tableSize = dir.tableSize ∧
      dir'.slot = Function.update dir.slot i (some (key s, x)) := by
  have hnone : ∀ i, dir.slot i = none ↔ dir.inUse i = false := by
    intro i
    rw [slot]
    cases dir.inUse i <;> simp
  obtain ⟨j, hj, hjn⟩ := hfree
  have hsome : ((List.range dir.tableSize).find? fun i => !dir.inUse i).isSome := by
    rw [List.find?_isSome]
    exact ⟨j, List.mem_range.mpr hj, by rw [(hnone j).mp hjn]; rfl⟩
  obtain ⟨i, hi⟩ := Option.isSome_iff_exists.mp hsome
  have hlt := List.mem_range.mp (List.mem_of_find?_eq_some hi)
  have huse := List.find?_some hi
  refine ⟨i, hlt, dir.fill i s x, ?_, (hnone i).mpr (by simpa using huse), rfl,
    slot_fill dir i s x hx⟩
  have hidx : ¬ (dir.findIndex s).isSome = true := by
    rw [findIndex_none h]
    simp
  rw [add, if_neg hidx, hi]
  rfl

/-- `Add` to a table without an empty slot. -/
theorem add_full (h : Slots.lookup dir.tableSize dir.slot (key s) = none)
    (hfull : ¬ ∃ i < dir.tableSize, dir.slot i = none) :
    dir.add s x = (.NoSpaceInDirectory, dir) := by
  have hnone : ((List.range dir.tableSize).find? fun i => !dir.inUse i) = none := by
    rw [List.find?_eq_none]
    intro i hi hu
    exact hfull ⟨i, List.mem_range.mp hi, by simpa [slot] using hu⟩
  have hidx : ¬ (dir.findIndex s).isSome = true := by
    rw [findIndex_none h]
    simp
  rw [add, if_neg hidx, hnone]

/-- `Remove` empties the slot with the key. -/
theorem remove_spec (hd : Slots.Distinct dir.tableSize dir.slot)
    (h : Slots.lookup dir.tableSize dir.slot (key s) = some x) :
    ∃ i < dir.tableSize, ∃ dir', dir.remove s = (.NoError, dir') ∧
      dir.slot i = some (key s, x) ∧ dir'.tableSize = dir.tableSize ∧
      dir'.slot = Function.update dir.slot i none := by
  obtain ⟨i, hi, hf, hs⟩ := findIndex_some hd h
  refine ⟨i, hi, dir.setInUse i false, ?_, hs, rfl, slot_setInUse_false dir i⟩
  rw [remove, hf]

theorem empty_iff : dir.empty = true ↔ ∀ i < dir.tableSize, dir.slot i = none := by
  simp [empty, slot]

end Ops

theorem clearFirst_spec (dir : Directory) (n : Nat) :
    (dir.clearFirst n).tableSize = dir.tableSize ∧ ∀ i < n, (dir.clearFirst n).slot i = none := by
  induction n with
  | zero => exact ⟨rfl, fun i hi => absurd hi (Nat.not_lt_zero i)⟩
  | succ n ih =>
      refine ⟨ih.1, fun i hi => ?_⟩
      rw [clearFirst, slot_setInUse_false]
      by_cases hin : i = n
      · rw [hin, Function.update_self]
      · rw [Function.update_of_ne hin]
        exact ih.2 i (by omega)

/-! ## A directory in its file -/

section

variable [Config]

/-- The bytes of the table of a directory. -/
theorem tableBytes_eq {dir : Directory} (hn : dir.tableSize = NumDirEntries) :
    (dir.tableSize : Int) * (sizeofDirectoryEntry : Nat) = (DirectoryFileSize : Nat) := by
  rw [hn, ← Int.natCast_mul, Nat.mul_comm, DirectoryFileSize]

/-- The bytes of a slot are among them. -/
theorem lt_fileSize {i o : Nat} (hi : i < NumDirEntries) (ho : o < 92 * (i + 1)) :
    o < DirectoryFileSize := by
  have hmul : 92 * (i + 1) ≤ 92 * NumDirEntries := Nat.mul_le_mul_left _ hi
  rw [DirectoryFileSize]
  exact Nat.lt_of_lt_of_le ho hmul

/-- The slots of the directory in the file with the header at `s`. -/
def slotsAt (d : Disk) (s : Nat) : Nat → Option (List Byte × Int) :=
  (Directory.mk NumDirEntries (byteAt d s)).slot

/-- The directory in memory has the slots of the one on disk. -/
structure Holds (dir : Directory) (d : Disk) (s : Nat) : Prop where
  tableSize : dir.tableSize = NumDirEntries
  slot : ∀ i < NumDirEntries, dir.slot i = slotsAt d s i

/-- A new directory is empty. -/
theorem wp_create {w : World} {Q : Directory → World → Prop}
    (hQ : ∀ dir w', dir.tableSize = NumDirEntries → (∀ i < NumDirEntries, dir.slot i = none) →
      OnlyAllocs w w' → Q dir w') :
    Prog.wp create Q w := by
  unfold create
  simp only [Prog.wp_bind, wp_newArray, Prog.wp_pure]
  obtain ⟨hsize, hslot⟩ := (Directory.mk NumDirEntries (w.heap w.allocs)).clearFirst_spec
    NumDirEntries
  exact hQ _ _ hsize hslot ⟨_, rfl⟩

theorem wp_fetchFrom {dir : Directory} {file : OpenFile} {s : Nat} {w : World}
    {Q : Directory → World → Prop} (hn : dir.tableSize = NumDirEntries) (hi : Inode w.disk s)
    (hl : Loaded w.disk s file.hdr) (hlen : intAt w.disk s 1 = DirectoryFileSize)
    (hQ : ∀ dir' w', Holds dir' w.disk s → OnlyAllocs w w' → Q dir' w') :
    Prog.wp (fetchFrom dir file) Q w := by
  unfold fetchFrom
  rw [tableBytes_eq hn]
  simp only [Prog.wp_bind, Prog.wp_pure]
  refine OpenFile.wp_readAt (p := 0) (hl.mapped hi) fun w' hw => ?_
  rw [hl.numBytes, hlen, Int.toNat_natCast, Nat.sub_zero, Nat.min_self]
  refine hQ _ _ ⟨hn, fun i hi' => ?_⟩ hw
  refine slot_congr fun o _ ho => ?_
  have hlt := lt_fileSize hi' ho
  have hput := OpenFile.putBytes_of_mem (d := dir.table) (b := 0)
    (f := fun j => fileByte w.disk file.hdr (0 + j)) hlt
  rw [Nat.zero_add] at hput
  show OpenFile.putBytes dir.table 0 _ o = byteAt w.disk s o
  rw [hput, hl.fileByte hi (by rw [hlen]; exact_mod_cast hlt), byteAt]

/-- Writing a directory to its file stores its slots there. -/
theorem wp_writeBack {dir : Directory} {file : OpenFile} {s : Nat} {w : World}
    {Q : OpenFile → World → Prop} (hn : dir.tableSize = NumDirEntries) (hi : Inode w.disk s)
    (hl : Loaded w.disk s file.hdr) (hlen : intAt w.disk s 1 = DirectoryFileSize)
    (hQ : ∀ d k, OnlyData w.disk d s → Holds dir d s → Q file { w with disk := d, allocs := k }) :
    Prog.wp (writeBack dir file) Q w := by
  unfold writeBack OpenFile.writeAt
  rw [tableBytes_eq hn]
  simp only [Prog.wp_bind, Prog.wp_pure]
  refine OpenFile.wp_writeAtWith (p := 0) hi hl (Int.le_of_eq (by rw [hlen, Nat.zero_add]))
    fun d k ho => ?_
  refine hQ d k ho.onlyData ⟨hn, fun i hi' => ?_⟩
  refine slot_congr fun o _ ho' => ?_
  have hnew := ho.new o (lt_fileSize hi' ho')
  rw [Nat.zero_add] at hnew
  exact hnew.symm

end

end Directory

end Nachos
