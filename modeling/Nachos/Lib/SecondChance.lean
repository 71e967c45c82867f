/-
  Nachos.Lib.SecondChance

  The clock: places in a circle, of which some were used and some are locked.  A hand goes
  round.  It stops at a place that is not locked and was not used; where it does not stop,
  the place counts as not used from then on.  It needs two laps at most.
-/

import Mathlib.Data.Nat.Find
import Mathlib.Data.Nat.ModEq

namespace SecondChance

variable {N start k : Nat} {used locked : Nat → Bool}

/-- The place of the hand after `k` moves. -/
def hand (N start k : Nat) : Nat := (start + k) % N

theorem hand_lt (hN : 0 < N) : hand N start k < N := Nat.mod_lt _ hN

/-- The hand after one move. -/
theorem hand_succ : hand N start (k + 1) = (hand N start k + 1) % N := by
  unfold hand
  rw [Nat.mod_add_mod, Nat.add_assoc]

/-- After a lap the hand is where it was. -/
theorem hand_add : hand N start (N + k) = hand N start k := by
  unfold hand
  rw [Nat.add_left_comm, Nat.add_mod_left]

/-- In one lap the hand is at each place once. -/
theorem hand_inj {i j : Nat} (hi : i < N) (hj : j < N) (h : hand N start i = hand N start j) :
    i = j :=
  Nat.ModEq.eq_of_lt_of_lt (Nat.ModEq.add_left_cancel' start h) hi hj

/-- In one lap the hand comes to every place. -/
theorem exists_hand (start : Nat) {p : Nat} (hp : p < N) : ∃ j < N, hand N start j = p := by
  have hN : 0 < N := Nat.lt_of_le_of_lt (Nat.zero_le _) hp
  have hlt := Nat.mod_lt start hN
  refine ⟨(p + (N - start % N)) % N, Nat.mod_lt _ hN, ?_⟩
  unfold hand
  rw [Nat.add_mod, Nat.mod_mod, ← Nat.add_mod]
  have hsum : start + (p + (N - start % N)) = p + N * (start / N + 1) := by
    have hdiv := Nat.div_add_mod start N
    rw [Nat.mul_add, Nat.mul_one]
    omega
  rw [hsum, Nat.add_mul_mod_self_left, Nat.mod_eq_of_lt hp]

/-- The hand was at the place in its first `k` positions. -/
def Visited (N start k p : Nat) : Prop := ∃ j < k, hand N start j = p

instance (N start k p : Nat) : Decidable (Visited N start k p) :=
  inferInstanceAs (Decidable (∃ j < k, _))

theorem not_visited_of_lt (start : Nat) (hk : k < N) : ¬ Visited N start k (hand N start k) := by
  rintro ⟨j, hj, h⟩
  exact Nat.ne_of_lt hj (hand_inj (hj.trans hk) hk h)

theorem visited_of_le (hk : N ≤ k) (p : Nat) (hp : p < N) :
    Visited N start k p := by
  obtain ⟨j, hj, h⟩ := exists_hand start hp
  exact ⟨j, Nat.lt_of_lt_of_le hj hk, h⟩

/-- The hand stops after `k` moves: it is not at a locked place, and at one that was used
    only if it has been there before. -/
def Stops (N start : Nat) (used locked : Nat → Bool) (k : Nat) : Prop :=
  locked (hand N start k) = false ∧
    (used (hand N start k) = true → Visited N start k (hand N start k))

instance (N start : Nat) (used locked : Nat → Bool) (k : Nat) :
    Decidable (Stops N start used locked k) := inferInstanceAs (Decidable (_ ∧ _))

/-- The first place from `start` on, in the order of the hand, that has the property. -/
def FirstFrom (N start : Nat) (P : Nat → Prop) (p : Nat) : Prop :=
  ∃ j < N, hand N start j = p ∧ P p ∧ ∀ i < j, ¬ P (hand N start i)

/-- The place is the first that is neither used nor locked, or, if there is none, the first
    that is not locked. -/
def Chosen (N start : Nat) (used locked : Nat → Bool) (p : Nat) : Prop :=
  FirstFrom N start (fun p => locked p = false ∧ used p = false) p ∨
    (∀ p < N, ¬ (locked p = false ∧ used p = false)) ∧
      FirstFrom N start (fun p => locked p = false) p

/-- In the first lap, the hand stops at the places that are neither used nor locked. -/
theorem stops_of_lt (hk : k < N) : Stops N start used locked k ↔
    locked (hand N start k) = false ∧ used (hand N start k) = false := by
  unfold Stops
  have hno := not_visited_of_lt start hk
  cases used (hand N start k) <;> simp [hno]

/-- Later on, it stops at all places that are not locked. -/
theorem stops_of_le (hN : 0 < N) (hk : N ≤ k) :
    Stops N start used locked k ↔ locked (hand N start k) = false :=
  and_iff_left fun _ => visited_of_le hk _ (hand_lt hN)

/-- The hand stops in two laps, if some place is not locked. -/
theorem exists_stops (start : Nat) (used : Nat → Bool) (h : ∃ p < N, locked p = false) :
    ∃ k, k ≤ 2 * N - 1 ∧ Stops N start used locked k := by
  obtain ⟨p, hp, hfree⟩ := h
  obtain ⟨j, hj, hhand⟩ := exists_hand start hp
  refine ⟨N + j, by omega, (stops_of_le (by omega) (Nat.le_add_right N j)).mpr ?_⟩
  rw [hand_add, hhand, hfree]

/-- Where the hand stops for the first time is the place that is to be chosen. -/
theorem chosen_of_stops (hN : 0 < N) (hk : k ≤ 2 * N - 1) (hstop : Stops N start used locked k)
    (hfirst : ∀ j < k, ¬ Stops N start used locked j) :
    Chosen N start used locked (hand N start k) := by
  rcases Nat.lt_or_ge k N with hlt | hge
  · refine Or.inl ⟨k, hlt, rfl, (stops_of_lt hlt).mp hstop, fun i hi => ?_⟩
    exact fun h => hfirst i hi ((stops_of_lt (hi.trans hlt)).mpr h)
  · refine Or.inr ⟨fun p hp h => ?_, ?_⟩
    · -- the hand would have stopped in the first lap
      obtain ⟨j, hj, rfl⟩ := exists_hand start hp
      exact hfirst j (Nat.lt_of_lt_of_le hj hge) ((stops_of_lt hj).mpr h)
    · obtain ⟨j, rfl⟩ := Nat.exists_eq_add_of_le hge
      refine ⟨j, by omega, hand_add.symm, (stops_of_le hN hge).mp hstop, fun i hi h => ?_⟩
      refine hfirst (N + i) (by omega) ((stops_of_le hN (Nat.le_add_right N i)).mpr ?_)
      rwa [hand_add]

/-- The first stop, with the bound and the place. -/
theorem exists_first_stop (start : Nat) (used : Nat → Bool) (h : ∃ p < N, locked p = false) :
    ∃ k, k ≤ 2 * N - 1 ∧ Stops N start used locked k ∧
      (∀ j < k, ¬ Stops N start used locked j) ∧
      Chosen N start used locked (hand N start k) := by
  have hN : 0 < N := by
    obtain ⟨p, hp, -⟩ := h
    omega
  obtain ⟨k, hk, hstop⟩ := exists_stops start used h
  have hex : ∃ k, Stops N start used locked k := ⟨k, hstop⟩
  have hle : Nat.find hex ≤ 2 * N - 1 := (Nat.find_min' hex hstop).trans hk
  exact ⟨_, hle, Nat.find_spec hex, fun j hj => Nat.find_min hex hj,
    chosen_of_stops hN hle (Nat.find_spec hex) fun j hj => Nat.find_min hex hj⟩

end SecondChance
