/-
  Nachos.Lib.Rotation

  A platter that turns under a head.  It carries `n` sectors in a circle and moves on by one
  sector in `rot` units of time, so that at time `rot * m` the sector `m % n` begins to pass.
  What is asked here is when a given sector has passed under a head that has been there since
  a given time.
-/

import Mathlib.Data.Nat.ModEq
import Mathlib.Order.Bounds.Basic
import Mathlib.Tactic.Ring

namespace Rotation

variable {n rot start c t : Nat}

/-! ## The next boundary between two sectors -/

/-- The first multiple of `rot` from `t` on. -/
def roundUp (rot t : Nat) : Nat := if t % rot > 0 then t + (rot - t % rot) else t

theorem le_roundUp (rot t : Nat) : t ≤ roundUp rot t := by
  unfold roundUp
  split <;> omega

theorem roundUp_lt (h : 0 < rot) (t : Nat) : roundUp rot t < t + rot := by
  unfold roundUp
  split <;> omega

theorem dvd_roundUp (h : 0 < rot) (t : Nat) : rot ∣ roundUp rot t := by
  have hlt := Nat.mod_lt t h
  have hdiv := Nat.div_add_mod t rot
  unfold roundUp
  split
  · refine ⟨t / rot + 1, ?_⟩
    rw [Nat.mul_add]
    omega
  · exact Nat.dvd_of_mod_eq_zero (by omega)

theorem roundUp_le (h : 0 < rot) {u : Nat} (htu : t ≤ u) (hu : rot ∣ u) : roundUp rot t ≤ u := by
  obtain ⟨a, ha⟩ := dvd_roundUp h t
  obtain ⟨b, rfl⟩ := hu
  have hlt := roundUp_lt h t
  rw [ha] at hlt ⊢
  -- two multiples less than `rot` apart are the same
  apply Nat.mul_le_mul_left
  by_contra hab
  have hstep : rot * (b + 1) ≤ rot * a := Nat.mul_le_mul_left rot (by omega)
  rw [Nat.mul_add] at hstep
  omega

theorem roundUp_of_dvd (h : rot ∣ t) : roundUp rot t = t := by
  simp [roundUp, Nat.mod_eq_zero_of_dvd h]

/-! ## How far a sector is away -/

/-- The number of sectors that pass before `sector` when sector `now` is next. -/
def gap (n sector now : Nat) : Nat := (sector % n + n - now % n) % n

theorem gap_lt (h : 0 < n) (sector now : Nat) : gap n sector now < n := Nat.mod_lt _ h

theorem gap_mod (h : 0 < n) (sector now : Nat) : (now + gap n sector now) % n = sector % n := by
  have hlt := Nat.mod_lt now h
  have hdiv := Nat.div_add_mod now n
  have hsum : now + (sector % n + n - now % n) = sector % n + n * (now / n + 1) := by
    rw [Nat.mul_add]
    omega
  rw [gap, Nat.add_mod_mod, hsum, Nat.add_mul_mod_self_left, Nat.mod_mod]

theorem gap_le {sector now d : Nat} (h : 0 < n) (hd : (now + d) % n = sector % n) :
    gap n sector now ≤ d := by
  by_contra hlt
  have hsame : now + d ≡ now + gap n sector now [MOD n] := hd.trans (gap_mod h sector now).symm
  have heq := hsame.add_left_cancel'
  have hbound := gap_lt h sector now
  rw [Nat.ModEq, Nat.mod_eq_of_lt (by omega), Nat.mod_eq_of_lt hbound] at heq
  omega

/-! ## When a sector has passed -/

/-- At time `c` the sector has just passed as a whole under a head that is there since
    `start`. -/
def Passed (n rot sector start c : Nat) : Prop :=
  ∃ m, m % n = sector % n ∧ start ≤ rot * m ∧ c = rot * (m + 1)

theorem Passed.add_le {sector : Nat} (h : Passed n rot sector start c) : start + rot ≤ c := by
  obtain ⟨m, -, hm, rfl⟩ := h
  rw [Nat.mul_add]
  omega

theorem passed_isLeast (hn : 0 < n) (hrot : 0 < rot) (sector start : Nat) :
    IsLeast {c | Passed n rot sector start c}
      (roundUp rot start + gap n sector (roundUp rot start / rot) * rot + rot) := by
  obtain ⟨k, hk⟩ := dvd_roundUp hrot start
  have hdiv : roundUp rot start / rot = k := by
    rw [hk, Nat.mul_div_cancel_left k hrot]
  rw [hdiv, hk]
  constructor
  · refine ⟨k + gap n sector k, gap_mod hn sector k, ?_, ?_⟩
    · have hle := le_roundUp rot start
      rw [Nat.mul_add]
      omega
    · rw [Nat.mul_add, Nat.mul_add, Nat.mul_comm (gap n sector k) rot, Nat.mul_one]
  · rintro c ⟨m, hm, hstart, rfl⟩
    -- the sector passes from some boundary after `start` on, and not before its turn
    have hround := roundUp_le hrot hstart (Nat.dvd_mul_right rot m)
    rw [hk] at hround
    have hkm : k ≤ m := Nat.le_of_mul_le_mul_left hround hrot
    have hgap : gap n sector k ≤ m - k := gap_le hn (by rw [Nat.add_sub_cancel' hkm, hm])
    calc rot * k + gap n sector k * rot + rot
        = rot * (k + gap n sector k + 1) := by ring
      _ ≤ rot * (m + 1) := Nat.mul_le_mul_left rot (by omega)

/-- A sector that passes from the next boundary on passes so for a head that came before. -/
theorem Passed.mono {sector start' : Nat} (h : Passed n rot sector start c) (hle : start' ≤ start) :
    Passed n rot sector start' c := by
  obtain ⟨m, hm, hstart, hc⟩ := h
  exact ⟨m, hm, hle.trans hstart, hc⟩

/-- What has not passed by the next boundary passes from there on. -/
theorem Passed.later {sector now : Nat} (hrot : 0 < rot) (h : Passed n rot sector start c)
    (hc : roundUp rot now < c) : Passed n rot sector now c := by
  obtain ⟨m, hm, hstart, rfl⟩ := h
  refine ⟨m, hm, (le_roundUp rot now).trans ?_, rfl⟩
  obtain ⟨k, hk⟩ := dvd_roundUp hrot now
  rw [hk] at hc ⊢
  exact Nat.mul_le_mul_left rot (Nat.lt_succ_iff.mp (Nat.lt_of_mul_lt_mul_left hc))

end Rotation
