/-
  Nachos.Filesys.BitMapRuns

  A bitmap as a set of numbers, through any calls on it: it is marked, cleared and
  searched, written to a file and read back from there.  The file is any one that is
  long enough for the words; the calls use its header, so no more is asked of it than
  that the table of the header is good.
-/

import Mathlib.Data.Finset.Max
import Mathlib.Data.Finset.Sort
import Nachos.Filesys.FreeMap
import Nachos.Lib.Run

namespace Nachos

open Words Program Config Transition

namespace BitMap

/-- The bytes of the words of a map of `n` bits. -/
def mapBytes (n : Nat) : Nat := (n + 31) / 32 * 4

theorem mapBytes_eq (n : Nat) : divRoundUp (n : Int) 32 * 4 = (mapBytes n : Nat) := by
  have hdiv : (n : Int).tdiv 32 = ((n / 32 : Nat) : Int) := rfl
  have hmod : (n : Int).tmod 32 = ((n % 32 : Nat) : Int) := rfl
  rw [divRoundUp, hdiv, hmod, mapBytes]
  split <;> omega

theorem lt_mapBytes {n i : Nat} (h : i < n) : i / 8 < mapBytes n := by
  rw [mapBytes]
  omega

/-! ## The set of a map -/

/-- The set bits of the map are the numbers in `S`. -/
structure Represents (m : BitMap) (n : Nat) (S : Finset Nat) : Prop where
  numBits : m.numBits = n
  subset : S ⊆ Finset.range n
  has : ∀ i < n, m.has i = decide (i ∈ S)

/-- The numbers below `n` that are not in `S`. -/
def absent (n : Nat) (S : Finset Nat) : Finset Nat := Finset.range n \ S

theorem mem_absent {n : Nat} {S : Finset Nat} {i : Nat} : i ∈ absent n S ↔ i < n ∧ i ∉ S := by
  rw [absent, Finset.mem_sdiff, Finset.mem_range]

/-- The least number below `n` is added that is not in `S`. -/
def addLeast (n : Nat) (S : Finset Nat) : Finset Nat :=
  if h : (absent n S).Nonempty then insert ((absent n S).min' h) S else S

namespace Represents

variable {m : BitMap} {n : Nat} {S : Finset Nat}

theorem create (n : Nat) (words : Nat → BitVec 32) : Represents (create n words) n ∅ := by
  obtain ⟨hn, hclear⟩ := create_spec n words
  exact ⟨hn, Finset.empty_subset _, fun i hi => by simp [hclear i hi]⟩

theorem test (h : Represents m n S) {i : Nat} (hi : i < n) :
    m.test i = some (decide (i ∈ S)) := by
  rw [m.test_eq (h.numBits ▸ hi), h.has i hi]

theorem mark (h : Represents m n S) {i : Nat} (hi : i < n) :
    ∃ m', m.mark i = some m' ∧ Represents m' n (insert i S) := by
  obtain ⟨m', hm, hn, hhas⟩ := m.mark_eq (h.numBits ▸ hi)
  refine ⟨m', hm, hn.trans h.numBits, ?_, fun j hj => ?_⟩
  · exact Finset.insert_subset (Finset.mem_range.mpr hi) h.subset
  · rw [hhas, h.has j hj]
    by_cases hji : j = i <;> simp [hji]

theorem clear (h : Represents m n S) {i : Nat} (hi : i < n) :
    ∃ m', m.clear i = some m' ∧ Represents m' n (S.erase i) := by
  obtain ⟨m', hm, hn, hhas⟩ := m.clear_eq (h.numBits ▸ hi)
  refine ⟨m', hm, hn.trans h.numBits, (Finset.erase_subset _ _).trans h.subset, fun j hj => ?_⟩
  rw [hhas, h.has j hj]
  by_cases hji : j = i <;> simp [hji]

/-- Not all numbers are in the set: the least one that is absent is found. -/
theorem find (h : Represents m n S) (hne : (absent n S).Nonempty) :
    ∃ m', m.find = ((((absent n S).min' hne : Nat) : Int), m') ∧
      Represents m' n (insert ((absent n S).min' hne) S) := by
  obtain ⟨i, hi⟩ : ∃ i, (absent n S).min' hne = i := ⟨_, rfl⟩
  obtain ⟨hlt, hnot⟩ := mem_absent.mp (hi ▸ Finset.min'_mem _ hne)
  have hfind : (List.range m.numBits).find? (fun (j : Nat) => m.test j == some false) = some i := by
    rw [List.find?_range_eq_some, h.numBits]
    refine ⟨by rw [h.test hlt]; simp [hnot], List.mem_range.mpr hlt, fun j hj => ?_⟩
    have hmem : j ∈ S := by
      by_contra hjS
      have hle := Finset.min'_le _ j (mem_absent.mpr ⟨hj.trans hlt, hjS⟩)
      rw [hi] at hle
      omega
    rw [h.test (hj.trans hlt)]
    simp [hmem]
  obtain ⟨m', hm, hrep⟩ := h.mark hlt
  refine ⟨m', ?_, hi ▸ hrep⟩
  rw [BitMap.find, hfind, hi]
  simp only [hm, Option.getD_some]

theorem find_full (h : Represents m n S) (hfull : ¬ (absent n S).Nonempty) :
    m.find = (-1, m) := by
  refine m.find_none fun i hi => ?_
  rw [h.numBits] at hi
  have hmem : i ∈ S := by
    by_contra hiS
    exact hfull ⟨i, mem_absent.mpr ⟨hi, hiS⟩⟩
  rw [h.has i hi, decide_eq_true hmem]

theorem numClear (h : Represents m n S) : m.numClear = n - S.card := by
  have hfilter : ((List.range n).filter fun i => !m.has i).toFinset = absent n S := by
    ext i
    rw [List.mem_toFinset, List.mem_filter, List.mem_range, mem_absent]
    refine and_congr_right fun hi => ?_
    rw [h.has i hi]
    simp
  rw [numClear_eq, h.numBits, List.countP_eq_length_filter,
    ← List.toFinset_card_of_nodup (List.nodup_range.filter _), hfilter, absent,
    Finset.card_sdiff_of_subset h.subset, Finset.card_range]

/-- Nothing is found exactly when no bit is clear. -/
theorem find_eq_neg_one (h : Represents m n S) : m.find.1 = -1 ↔ m.numClear = 0 := by
  constructor
  · intro hf
    have hfull : ¬ (absent n S).Nonempty := by
      intro hne
      obtain ⟨m', hm, -⟩ := h.find hne
      rw [hm] at hf
      have : (0 : Int) ≤ ((absent n S).min' hne : Nat) := Int.natCast_nonneg _
      omega
    rw [h.numClear, ← Finset.card_range n, ← Finset.card_sdiff_of_subset h.subset]
    exact Finset.card_eq_zero.mpr (Finset.not_nonempty_iff_eq_empty.mp hfull)
  · intro hz
    rw [BitMap.find_full hz]

end Represents

/-! ## A map in a file -/

section

variable [Config]

/-- `BitMap::WriteBack`. -/
def writeBackTo (m : BitMap) (file : OpenFile) : Prog World OpenFile := do
  let (_, file) ← file.writeAt (byte m.map) (divRoundUp m.numBits 32 * 4) 0
  return file

/-- The numbers below `n` whose bits are set in the file. -/
def fileSet (n : Nat) (d : Disk) (hdr : FileHeader) : Finset Nat :=
  (Finset.range n).filter fun i => (fileByte d hdr (i / 8)).getLsbD (i % 8) = true

/-- A file that has room for the words of a map of `n` bits. -/
structure Holds (n : Nat) (file : OpenFile) : Prop where
  mapped : file.hdr.Mapped
  length : (mapBytes n : Int) ≤ file.hdr.numBytes

namespace Represents

variable {m : BitMap} {n : Nat} {S : Finset Nat} {file : OpenFile} {w : World}

/-- What the file has is fetched. -/
theorem wp_fetchFrom (h : Represents m n S) (hf : Holds n file) :
    Prog.wp (m.fetchFrom file) (fun m' w' => OnlyAllocs w w' ∧
      Represents m' n (fileSet n w.disk file.hdr)) w := by
  unfold fetchFrom
  dsimp only
  rw [h.numBits, mapBytes_eq]
  simp only [Prog.wp_bind, Prog.wp_pure]
  refine OpenFile.wp_readAt (p := 0) hf.mapped fun w' hw => ⟨hw, rfl, ?_, fun i hi => ?_⟩
  · exact Finset.filter_subset _ _
  · have hlen := hf.length
    have hmin : min (mapBytes n) (file.hdr.numBytes.toNat - 0) = mapBytes n := by omega
    have hput := OpenFile.putBytes_of_mem (d := byte m.map) (b := 0)
      (f := fun j => fileByte w.disk file.hdr (0 + j)) (lt_mapBytes hi)
    rw [Nat.zero_add] at hput
    have hmem : i ∈ fileSet n w.disk file.hdr ↔
        (fileByte w.disk file.hdr (i / 8)).getLsbD (i % 8) = true := by
      rw [fileSet, Finset.mem_filter, Finset.mem_range]
      exact and_iff_right hi
    rw [hmin, has_word, hput]
    simp [hmem]

/-- The set is stored in the file. -/
theorem wp_writeBackTo (h : Represents m n S) (hn : 1 ≤ n) (hf : Holds n file) :
    Prog.wp (m.writeBackTo file) (fun file' w' => file' = file ∧
      fileSet n w'.disk file.hdr = S) w := by
  unfold writeBackTo OpenFile.writeAt
  rw [h.numBits, mapBytes_eq]
  simp only [Prog.wp_bind, Prog.wp_pure]
  have hpos : 0 < mapBytes n := by
    rw [mapBytes]
    omega
  refine OpenFile.wp_writeAtWith_inside (p := 0) hf.mapped hpos
    (by rw [Nat.zero_add]; exact hf.length) fun d k hw => ⟨rfl, ?_⟩
  ext i
  rw [fileSet, Finset.mem_filter, Finset.mem_range]
  constructor
  · rintro ⟨hi, hbit⟩
    have hnew := hw.new (i / 8) (lt_mapBytes hi)
    rw [Nat.zero_add] at hnew
    rw [hnew, ← has_byte, h.has i hi] at hbit
    exact of_decide_eq_true hbit
  · intro hi
    have hlt := Finset.mem_range.mp (h.subset hi)
    have hnew := hw.new (i / 8) (lt_mapBytes hlt)
    rw [Nat.zero_add] at hnew
    refine ⟨hlt, ?_⟩
    show (fileByte d file.hdr (i / 8)).getLsbD (i % 8) = true
    rw [hnew, ← has_byte, h.has i hlt]
    exact decide_eq_true hi

end Represents

/-! ## Sequences of calls -/

/-- A map in use, with its file. -/
structure Session where
  m : BitMap
  file : OpenFile
  w : World

inductive Call
  | mark (which : Int)
  | clear (which : Int)
  | find
  | writeBack
  | fetchFrom

/-- A call; an `ASSERT` that fails ends the run. -/
def callStep (σ : Session) : Call → Option Session
  | .mark which => (σ.m.mark which).map fun m => { σ with m := m }
  | .clear which => (σ.m.clear which).map fun m => { σ with m := m }
  | .find => some { σ with m := σ.m.find.2 }
  | .writeBack => ((σ.m.writeBackTo σ.file).run σ.w).map fun (file, w) => ⟨σ.m, file, w⟩
  | .fetchFrom => ((σ.m.fetchFrom σ.file).run σ.w).map fun (m, w) => ⟨m, σ.file, w⟩

/-- A set in memory, and one in a file. -/
structure Sets where
  now : Finset Nat
  stored : Finset Nat

/-- What a call does to them. -/
def Sets.after (n : Nat) (x : Sets) : Call → Sets
  | .mark which => { x with now := insert which.toNat x.now }
  | .clear which => { x with now := x.now.erase which.toNat }
  | .find => { x with now := addLeast n x.now }
  | .writeBack => { x with stored := x.now }
  | .fetchFrom => { x with now := x.stored }

/-- The `ASSERT` of the call. -/
def Legal (n : Nat) : Call → Prop
  | .mark which | .clear which => 0 ≤ which ∧ which < n
  | _ => True

/-- The map and its file are the two sets. -/
structure Agrees (n : Nat) (file : OpenFile) (x : Sets) (σ : Session) : Prop where
  handle : σ.file = file
  now : Represents σ.m n x.now
  stored : fileSet n σ.w.disk file.hdr = x.stored

namespace Agrees

variable {n : Nat} {file : OpenFile} {x : Sets} {σ σ' : Session} {c : Call}

/-- A legal call returns, and does to the sets what it should. -/
theorem exists_step (h : Agrees n file x σ) (hn : 1 ≤ n) (hf : Holds n file) (hc : Legal n c) :
    ∃ σ', callStep σ c = some σ' ∧ Agrees n file (x.after n c) σ' := by
  obtain ⟨hfile, hnow, hstored⟩ := h
  cases c with
  | mark which =>
      obtain ⟨hlo, hhi⟩ := hc
      lift which to Nat using hlo
      obtain ⟨m', hm, hrep⟩ := hnow.mark (i := which) (by exact_mod_cast hhi)
      exact ⟨{ σ with m := m' }, by simp [callStep, hm], hfile, hrep, hstored⟩
  | clear which =>
      obtain ⟨hlo, hhi⟩ := hc
      lift which to Nat using hlo
      obtain ⟨m', hm, hrep⟩ := hnow.clear (i := which) (by exact_mod_cast hhi)
      exact ⟨{ σ with m := m' }, by simp [callStep, hm], hfile, hrep, hstored⟩
  | find =>
      refine ⟨_, rfl, hfile, ?_, hstored⟩
      show Represents σ.m.find.2 n (addLeast n x.now)
      unfold addLeast
      split
      · rename_i hne
        obtain ⟨m', hm, hrep⟩ := hnow.find hne
        rwa [hm]
      · rename_i hfull
        rwa [hnow.find_full hfull]
  | writeBack =>
      subst hfile
      obtain ⟨file', w', hrun, hfile', hset⟩ := hnow.wp_writeBackTo (w := σ.w) hn hf
      exact ⟨⟨σ.m, file', w'⟩, by simp [callStep, hrun], hfile', hnow, hset⟩
  | fetchFrom =>
      subst hfile
      obtain ⟨m', w', hrun, ⟨k, rfl⟩, hrep⟩ := hnow.wp_fetchFrom (w := σ.w) hf
      -- What was in memory is lost, and the set is the one that was written last.
      rw [hstored] at hrep
      exact ⟨⟨m', σ.file, { σ.w with allocs := k }⟩, by simp [callStep, hrun], rfl, hrep, hstored⟩

omit [Config] in
theorem legal_of_mark {m m' : BitMap} {which : Int} (h : m.mark which = some m') :
    0 ≤ which ∧ which < m.numBits := by
  rw [BitMap.mark] at h
  split at h
  · rename_i hr
    exact hr
  · cases h

omit [Config] in
theorem legal_of_clear {m m' : BitMap} {which : Int} (h : m.clear which = some m') :
    0 ≤ which ∧ which < m.numBits := by
  rw [BitMap.clear] at h
  split at h
  · rename_i hr
    exact hr
  · cases h

theorem legal_of_step (h : Agrees n file x σ) (hs : callStep σ c = some σ') : Legal n c := by
  cases c with
  | mark which =>
      obtain ⟨m', hm, -⟩ := Option.map_eq_some_iff.mp hs
      exact h.now.numBits ▸ legal_of_mark hm
  | clear which =>
      obtain ⟨m', hm, -⟩ := Option.map_eq_some_iff.mp hs
      exact h.now.numBits ▸ legal_of_clear hm
  | find | writeBack | fetchFrom => trivial

theorem of_run {words : Nat → BitVec 32} {w : World} (hn : 1 ≤ n) (hf : Holds n file)
    {tr : List (Session × Call)} (h : Run callStep ⟨create n words, file, w⟩ tr σ) :
    Agrees n file ((tr.map Prod.snd).foldl (Sets.after n) ⟨∅, fileSet n w.disk file.hdr⟩) σ := by
  induction h with
  | nil => exact ⟨rfl, Represents.create n words, rfl⟩
  | snoc _ hs ih =>
      obtain ⟨σ₁, hs₁, h₁⟩ := ih.exists_step hn hf (ih.legal_of_step hs)
      obtain rfl := Option.some.inj (hs.symm.trans hs₁)
      rw [List.map_append, List.foldl_append]
      exact h₁

end Agrees

/-- Through any calls a new map of `n` bits is a set of numbers below `n`: `Test` is membership,
    each call changes the set, and the one in the file, as it should, `Find` returns the least
    absent number, and `NumClear` counts the absent ones. -/
theorem set_calls {n : Nat} (hn : 1 ≤ n) {words : Nat → BitVec 32} {file : OpenFile} {w : World}
    (hf : Holds n file) {tr : List (Session × Call)} {σ : Session}
    (h : Run callStep ⟨create n words, file, w⟩ tr σ) :
    ∃ x : Sets, x = (tr.map Prod.snd).foldl (Sets.after n) ⟨∅, fileSet n w.disk file.hdr⟩ ∧
      x.now ⊆ Finset.range n ∧
      (∀ i < n, σ.m.test i = some (decide (i ∈ x.now))) ∧
      σ.m.numClear = n - x.now.card ∧
      (∀ hne : (absent n x.now).Nonempty, σ.m.find.1 = ((absent n x.now).min' hne : Nat)) ∧
      (σ.m.find.1 = -1 ↔ σ.m.numClear = 0) ∧
      ∀ c, Legal n c → ∃ σ', callStep σ c = some σ' := by
  have hagrees := Agrees.of_run hn hf h
  have hnow := hagrees.now
  refine ⟨_, rfl, hnow.subset, fun i hi => hnow.test hi, hnow.numClear, fun hne => ?_,
    hnow.find_eq_neg_one, fun c hc => ?_⟩
  · obtain ⟨m', hm, -⟩ := hnow.find hne
    rw [hm]
  · obtain ⟨σ', hs, -⟩ := hagrees.exists_step hn hf hc
    exact ⟨σ', hs⟩

omit [Config] in
/-- The last bit of the first word is marked and stored, another one is found, and the map is
    fetched again. -/
theorem set_calls_fetched :
    ∃ tr σ, Run (@callStep Config.defaults)
        ⟨create 40 fun _ => 0, ⟨[], ⟨0, 128, 1, fun _ => 5, 0, fun _ => 0⟩, 0, 4⟩, World.blank⟩
        tr σ ∧
      tr.map Prod.snd = [.mark 31, .writeBack, .find, .fetchFrom] ∧
      σ.m.test 31 = some true ∧ σ.m.test 0 = some false ∧ σ.m.numClear = 39 := by
  let _ := Config.defaults
  have hf : Holds 40 ⟨[], ⟨0, 128, 1, fun _ => 5, 0, fun _ => 0⟩, 0, 4⟩ := by
    refine ⟨⟨fun k _ => onDisk_natCast (show 5 < NUM_SECTORS by decide), fun i hi j hj _ => ?_,
      by decide, by decide⟩, by decide⟩
    change i < 1 at hi
    change j < 1 at hj
    omega
  have h₀ : Agrees 40 _ ⟨∅, _⟩ ⟨create 40 fun _ => 0, _, World.blank⟩ :=
    Agrees.of_run (by decide) hf Run.nil
  obtain ⟨σ₁, hs₁, h₁⟩ := h₀.exists_step (c := .mark 31) (by decide) hf ⟨by decide, by decide⟩
  obtain ⟨σ₂, hs₂, h₂⟩ := h₁.exists_step (c := .writeBack) (by decide) hf trivial
  obtain ⟨σ₃, hs₃, h₃⟩ := h₂.exists_step (c := .find) (by decide) hf trivial
  obtain ⟨σ₄, hs₄, h₄⟩ := h₃.exists_step (c := .fetchFrom) (by decide) hf trivial
  have hrun := Run.snoc (Run.snoc (Run.snoc (Run.snoc Run.nil hs₁) hs₂) hs₃) hs₄
  obtain ⟨x, hx, -, htest, hclear, -⟩ := set_calls (by decide) hf hrun
  have hnow : x.now = {31} := by
    rw [hx]
    rfl
  rw [hnow] at htest hclear
  exact ⟨_, σ₄, hrun, rfl, htest 31 (by decide), htest 0 (by decide), hclear⟩

end

end BitMap

end Nachos
