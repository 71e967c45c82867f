/-
  Nachos.Vm.ClockSearch

  The search of `EvictPage` for a frame, with no other thread in between.  The loop has no
  bound of its own, and its condition reads the bits that its body clears; the frames hold
  different pages, so a frame that is passed in the first lap is taken in the second one
  unless it is locked.
-/

import Nachos.Lib.SecondChance
import Nachos.Vm.Alone

namespace Nachos
namespace Vm

open Transition StateTransition SecondChance

variable [VmConfig]

/-- The bit U of the page in the frame. -/
def Memory.used (m : Memory) (p : Nat) : Bool :=
  match (m.tpr p).owner with
  | some b => (m.entry b (m.tpr p).virtualPage).U
  | none => false

def Memory.lockedFrame (m : Memory) (p : Nat) : Bool := (m.tpr p).locked

/-- All frames are allocated, to different pages. -/
structure Memory.AllAllocated (m : Memory) : Prop where
  owned : ∀ p < NumPhysPages, ∃ b, (m.tpr p).owner = some b ∧ m.status b ≠ .dead
  distinct : ∀ p < NumPhysPages, ∀ p' < NumPhysPages, (m.tpr p).owner = (m.tpr p').owner →
    (m.tpr p).virtualPage = (m.tpr p').virtualPage → p = p'

/-- Where the search begins. -/
def Memory.clockStart (m : Memory) : Nat := (m.i_clock + 1).toNat % NumPhysPages

/-- The page is in one of the first `k` frames from `start` on. -/
def Memory.Passed (m : Memory) (start k : Nat) (b : SpaceId) (v : Nat) : Prop :=
  ∃ j < k, (m.tpr (hand NumPhysPages start j)).owner = some b ∧
    (m.tpr (hand NumPhysPages start j)).virtualPage = v

section

variable {m m₁ : Memory} {start k : Nat}

/-- What the search leaves after `k` frames: the bits U of their pages are clear. -/
structure Skipped (m : Memory) (start k : Nat) (m₁ : Memory) : Prop where
  tpr : m₁.tpr = m.tpr
  status : m₁.status = m.status
  passed : ∀ b v, m.Passed start k b v → m₁.entry b v = (m.entry b v).clearBitU
  others : ∀ b v, ¬ m.Passed start k b v → m₁.entry b v = m.entry b v

theorem skipped_zero : Skipped m start 0 m where
  tpr := rfl
  status := rfl
  passed b v := by
    rintro ⟨j, hj, -⟩
    exact absurd hj (Nat.not_lt_zero j)
  others _ _ _ := rfl

/-- The page of a frame has been passed just when the frame has. -/
theorem passed_iff (start k : Nat) (h : m.AllAllocated) {p : Nat} {b : SpaceId}
    (hp : p < NumPhysPages)
    (hb : (m.tpr p).owner = some b) :
    m.Passed start k b (m.tpr p).virtualPage ↔ Visited NumPhysPages start k p := by
  constructor
  · rintro ⟨j, hj, howner, hpage⟩
    exact ⟨j, hj, h.distinct _ (hand_lt VmConfig.pos) _ hp (howner.trans hb.symm) hpage⟩
  · rintro ⟨j, hj, rfl⟩
    exact ⟨j, hj, hb, rfl⟩

/-- The test of the loop tells whether the clock stops. -/
theorem Skipped.busy_iff (h : Skipped m start k m₁) (hall : m.AllAllocated) {b : SpaceId}
    (hb : (m.tpr (hand NumPhysPages start k)).owner = some b) :
    m₁.busy (hand NumPhysPages start k) b = true ↔
      ¬ Stops NumPhysPages start m.used m.lockedFrame k := by
  have hp : hand NumPhysPages start k < NumPhysPages := hand_lt VmConfig.pos
  have hused : m.used (hand NumPhysPages start k) =
      (m.entry b (m.tpr (hand NumPhysPages start k)).virtualPage).U := by
    unfold Memory.used
    rw [hb]
  have hpassed := passed_iff start k hall hp hb
  unfold Memory.busy Stops Memory.lockedFrame
  rw [h.tpr, hused]
  by_cases hvisited : Visited NumPhysPages start k (hand NumPhysPages start k)
  · rw [h.passed _ _ (hpassed.mpr hvisited)]
    simp [PageTableEntry.clearBitU, hvisited]
  · rw [h.others _ _ fun hno => hvisited (hpassed.mp hno)]
    cases (m.tpr (hand NumPhysPages start k)).locked <;> simp [hvisited]

/-- Nothing but the bit U is different. -/
theorem Skipped.clear (h : Skipped m start k m₁) (b : SpaceId) (v : Nat) :
    (m₁.entry b v).clearBitU = (m.entry b v).clearBitU := by
  by_cases hpassed : m.Passed start k b v
  · rw [h.passed b v hpassed]
    rfl
  · rw [h.others b v hpassed]

theorem passed_succ {b : SpaceId} {v : Nat} : m.Passed start (k + 1) b v ↔
    m.Passed start k b v ∨ (m.tpr (hand NumPhysPages start k)).owner = some b ∧
      (m.tpr (hand NumPhysPages start k)).virtualPage = v := Nat.exists_lt_succ_right

/-- One more frame is passed. -/
theorem Skipped.succ (h : Skipped m start k m₁) {b : SpaceId}
    (hb : (m.tpr (hand NumPhysPages start k)).owner = some b) :
    Skipped m start (k + 1) (m₁.modifyEntry b
      (m.tpr (hand NumPhysPages start k)).virtualPage .clearBitU) where
  tpr := h.tpr
  status := h.status
  passed b' v hpassed := by
    rw [Memory.entry_modifyEntry]
    split
    · rename_i heq
      rw [heq.1, heq.2]
      exact h.clear _ _
    · rename_i hne
      refine h.passed b' v ((passed_succ.mp hpassed).resolve_right fun hnew => hne ?_)
      exact ⟨Option.some.inj (hnew.1.symm.trans hb), hnew.2.symm⟩
  others b' v hno := by
    obtain ⟨hold, hnew⟩ := not_or.mp fun hor => hno (passed_succ.mpr hor)
    rw [Memory.entry_modifyEntry, if_neg]
    · exact h.others b' v hold
    · rintro ⟨rfl, rfl⟩
      exact hnew ⟨hb, rfl⟩

theorem Skipped.of_i_clock (h : Skipped m start k m₁) (i : Int) :
    Skipped m start k { m₁ with i_clock := i } :=
  ⟨h.tpr, h.status, h.passed, h.others⟩

/-- One round of the loop, and the `Yield` at its end if there is one. -/
theorem Skipped.skip (h : Skipped m start k m₁) (hall : m.AllAllocated)
    (hgo : ¬ Stops NumPhysPages start m.used m.lockedFrame k) (me : SpaceId) (q : Fault) :
    ∃ m₂, Reaches (alone me) (m₁, some (.search q (hand NumPhysPages start k) k))
        (m₂, some (.search q (hand NumPhysPages start (k + 1)) (k + 1))) ∧
      Skipped m start (k + 1) m₂ := by
  obtain ⟨b, hb, hlive⟩ := hall.owned (hand NumPhysPages start k) (hand_lt VmConfig.pos)
  have hbusy := (h.busy_iff hall hb).mpr hgo
  have hsucc := h.succ hb
  rw [hand_succ]
  rw [← h.tpr] at hb hsucc
  rw [← h.status] at hlive
  generalize hand NumPhysPages start k = loc at hb hlive hbusy hsucc ⊢
  by_cases hlap : k + 1 > NumPhysPages
  · have hnext : next me m₁ (.search q loc k) =
        some ({ m₁.modifyEntry b (m₁.tpr loc).virtualPage .clearBitU with i_clock := loc },
          some (.searchYield q loc (k + 1))) := by
      simp only [next, hb, hlive, hbusy, hlap, if_true, if_false]
    exact ⟨_, .head (alone_of_next hnext) (.single rfl), hsucc.of_i_clock _⟩
  · have hnext : next me m₁ (.search q loc k) =
        some (m₁.modifyEntry b (m₁.tpr loc).virtualPage .clearBitU,
          some (.search q ((loc + 1) % NumPhysPages) (k + 1))) := by
      simp only [next, hb, hlive, hbusy, hlap, if_true, if_false]
    exact ⟨_, .single (alone_of_next hnext), hsucc⟩

/-- As long as the clock does not stop, the search goes on. -/
theorem search_run (hall : m.AllAllocated)
    (hgo : ∀ j < k, ¬ Stops NumPhysPages start m.used m.lockedFrame j) (me : SpaceId)
    (q : Fault) :
    ∃ m₁, Reaches (alone me) (m, some (.search q (hand NumPhysPages start 0) 0))
        (m₁, some (.search q (hand NumPhysPages start k) k)) ∧
      Skipped m start k m₁ := by
  induction k with
  | zero => exact ⟨m, .refl, skipped_zero⟩
  | succ k ih =>
    obtain ⟨m₁, hreach, hskipped⟩ := ih fun j hj => hgo j (hj.trans (Nat.lt_succ_self k))
    obtain ⟨m₂, hstep, hskipped₂⟩ :=
      hskipped.skip hall (hgo k (Nat.lt_succ_self k)) me q
    exact ⟨m₂, hreach.trans hstep, hskipped₂⟩

/-- Where the clock stops, the search has found its victim. -/
theorem Skipped.found (h : Skipped m start k m₁) (hall : m.AllAllocated)
    (hstop : Stops NumPhysPages start m.used m.lockedFrame k) (me : SpaceId) (q : Fault) :
    ∃ m' b v, (m.tpr (hand NumPhysPages start k)).owner = some b ∧
      (m.tpr (hand NumPhysPages start k)).virtualPage = v ∧
      next me m₁ (.search q (hand NumPhysPages start k) k) =
        some (m', some (.evictIo q ⟨hand NumPhysPages start k, b, v⟩)) ∧
      m'.i_clock = hand NumPhysPages start k ∧ (∀ b v, (m'.entry b v).U = (m₁.entry b v).U) := by
  obtain ⟨b, hb, hlive⟩ := hall.owned (hand NumPhysPages start k) (hand_lt VmConfig.pos)
  have hbusy : m₁.busy (hand NumPhysPages start k) b = false := by
    by_contra hbusy
    exact (h.busy_iff hall hb).mp (by simpa using hbusy) hstop
  rw [← h.tpr] at hb ⊢
  rw [← h.status] at hlive
  generalize hand NumPhysPages start k = loc at hb hlive hbusy ⊢
  have hnext : next me m₁ (.search q loc k) =
      some ({ m₁.modifyEntry b (m₁.tpr loc).virtualPage .clearBitValid with
          i_clock := loc }.modifyFrame loc fun fr => { fr with locked := true },
        some (.evictIo q ⟨loc, b, (m₁.tpr loc).virtualPage⟩)) := by
    simp only [next, hb, hlive, hbusy, if_false]
    rfl
  refine ⟨_, b, _, hb, rfl, hnext, rfl, fun b' v => ?_⟩
  rw [Memory.modifyFrame_entry]
  exact Memory.field_modifyEntry PageTableEntry.U fun _ => rfl

end

/-- The search ends after less than two laps, at the frame that the clock is to choose, and
    the bits U that it has cleared are those of the pages it has passed. -/
theorem search_chooses {m : Memory} (hall : m.AllAllocated)
    (hfree : ∃ p < NumPhysPages, (m.tpr p).locked = false) (me : SpaceId) (q : Fault) :
    ∃ k m₁ m' b v, k ≤ 2 * NumPhysPages - 1 ∧
      Reaches (alone me) (m, some (.search q m.clockStart 0))
        (m₁, some (.search q (hand NumPhysPages m.clockStart k) k)) ∧
      next me m₁ (.search q (hand NumPhysPages m.clockStart k) k) =
        some (m', some (.evictIo q ⟨hand NumPhysPages m.clockStart k, b, v⟩)) ∧
      m'.i_clock = hand NumPhysPages m.clockStart k ∧
      (m.tpr (hand NumPhysPages m.clockStart k)).owner = some b ∧
      (m.tpr (hand NumPhysPages m.clockStart k)).virtualPage = v ∧
      Chosen NumPhysPages m.clockStart m.used m.lockedFrame
        (hand NumPhysPages m.clockStart k) ∧
      ∀ b v, (m'.entry b v).U = true ↔
        (m.entry b v).U = true ∧ ¬ m.Passed m.clockStart k b v := by
  obtain ⟨k, hk, hstop, hgo, hchosen⟩ :=
    exists_first_stop (N := NumPhysPages) m.clockStart m.used hfree
  obtain ⟨m₁, hreach, hskipped⟩ := search_run hall hgo me q
  obtain ⟨m', b, v, howner, hpage, hnext, hclock, hU⟩ := hskipped.found hall hstop me q
  have hstart : hand NumPhysPages m.clockStart 0 = m.clockStart := Nat.mod_mod _ _
  rw [hstart] at hreach
  refine ⟨k, m₁, m', b, v, hk, hreach, hnext, hclock, howner, hpage, hchosen, fun b v => ?_⟩
  rw [hU]
  by_cases hpassed : m.Passed m.clockStart k b v
  · rw [hskipped.passed b v hpassed]
    simp [PageTableEntry.clearBitU, hpassed]
  · rw [hskipped.others b v hpassed]
    simp [hpassed]

omit [VmConfig] in
/-- Two frames with pages that were used; the first frame is locked. -/
def usedPages : Memory :=
  let _ := VmConfig.two
  { newMemory (fun _ => { newSpace 2 (fun _ => -1) [] with
      translationTable := fun _ => (newEntry (-1) true).setBitU }) (fun _ => ⟨fun _ => 0, 0, 0⟩) with
    tpr := fun p => ⟨false, p = 0, p, some 0⟩
    free_page_list := [] }

omit [VmConfig] in
theorem search_chooses_second :
    let _ := VmConfig.two
    ∃ k m₁ m' b v, k ≤ 2 * NumPhysPages - 1 ∧
      Reaches (alone 0) (usedPages, some (.search ⟨5, fun _ => 0⟩ usedPages.clockStart 0))
        (m₁, some (.search ⟨5, fun _ => 0⟩ (hand NumPhysPages usedPages.clockStart k) k)) ∧
      next 0 m₁ (.search ⟨5, fun _ => 0⟩ (hand NumPhysPages usedPages.clockStart k) k) =
        some (m', some (.evictIo ⟨5, fun _ => 0⟩
          ⟨hand NumPhysPages usedPages.clockStart k, b, v⟩)) ∧
      m'.i_clock = hand NumPhysPages usedPages.clockStart k ∧
      (usedPages.tpr (hand NumPhysPages usedPages.clockStart k)).owner = some b ∧
      (usedPages.tpr (hand NumPhysPages usedPages.clockStart k)).virtualPage = v ∧
      Chosen NumPhysPages usedPages.clockStart usedPages.used usedPages.lockedFrame
        (hand NumPhysPages usedPages.clockStart k) ∧
      ∀ b v, (m'.entry b v).U = true ↔
        (usedPages.entry b v).U = true ∧ ¬ usedPages.Passed usedPages.clockStart k b v := by
  intro _
  exact search_chooses ⟨fun p _ => ⟨0, rfl, by decide⟩, fun p _ p' _ _ hpage => hpage⟩
    ⟨1, by decide, by decide⟩ 0 ⟨5, fun _ => 0⟩

end Vm
end Nachos
