/-
  Nachos.Lib.HostInt

  The arithmetic of the signed integers of C++.  An operation gives `none` where the
  language leaves its result undefined: an overflow, a division by zero, a shift by the
  width or more, and in some editions of the language a left shift of a negative number.
  What is only implementation-defined (a right shift of a negative number, a conversion) is
  what every compiler makes of it.
-/

import Mathlib.Algebra.Group.Nat.Defs

namespace HostInt

variable {w : Nat}

/-- The editions of the language, as far as they differ in the left shift of a signed
    integer: a shift of the bits, a product that must be representable, and again a shift
    of the bits. -/
inductive Edition where
  | cxx98
  | cxx11
  | cxx20
deriving DecidableEq, Repr

def add (a b : BitVec w) : Option (BitVec w) :=
  if a.saddOverflow b then none else some (a + b)

def sub (a b : BitVec w) : Option (BitVec w) :=
  if a.ssubOverflow b then none else some (a - b)

def neg (a : BitVec w) : Option (BitVec w) := if a.negOverflow then none else some (-a)

/-- The quotient, rounded towards zero. -/
def div (a b : BitVec w) : Option (BitVec w) :=
  if b = 0#w ∨ a.sdivOverflow b then none else some (a.sdiv b)

/-- The remainder that goes with `div`, undefined whenever the quotient is. -/
def rem (a b : BitVec w) : Option (BitVec w) :=
  if b = 0#w ∨ a.sdivOverflow b then none else some (a.srem b)

/-- Whether `a << n` is defined, for a count `n` below the width. -/
def Shiftable (std : Edition) (a : BitVec w) (n : Nat) : Prop :=
  std = .cxx11 → a.msb = false ∧ a.toNat * 2 ^ n < 2 ^ w

instance (std : Edition) (a : BitVec w) (n : Nat) : Decidable (Shiftable std a n) :=
  inferInstanceAs (Decidable (_ → _))

def shl (std : Edition) (a n : BitVec w) : Option (BitVec w) :=
  if n.toNat < w ∧ Shiftable std a n.toNat then some (a <<< n.toNat) else none

def shr (a n : BitVec w) : Option (BitVec w) :=
  if n.toNat < w then some (a.sshiftRight n.toNat) else none

/-! ## Computations that stay defined -/

/-- The computation is defined, and its result has the property. -/
def Yields {β : Type} (P : β → Prop) (x : Option β) : Prop := ∃ y, x = some y ∧ P y

section

variable {β : Type} {P : β → Prop} {std : Edition} {a b n : BitVec w} {f : BitVec w → Option β}

@[simp] theorem yields_some {y : β} : Yields P (some y) ↔ P y := by simp [Yields]

@[simp] theorem yields_pure {y : β} : Yields P (pure y) ↔ P y := yields_some

theorem yields_bind {α : Type} {x : Option α} {g : α → Option β} :
    Yields P (x >>= g) ↔ Yields (fun y => Yields P (g y)) x := by
  cases x <;> simp [Yields]

@[simp] theorem not_yields_none : ¬ Yields P (none : Option β) := by simp [Yields]

@[simp] theorem yields_add :
    Yields P (add a b >>= f) ↔ a.saddOverflow b = false ∧ Yields P (f (a + b)) := by
  unfold add
  cases a.saddOverflow b <;> simp

@[simp] theorem yields_sub :
    Yields P (sub a b >>= f) ↔ a.ssubOverflow b = false ∧ Yields P (f (a - b)) := by
  unfold sub
  cases a.ssubOverflow b <;> simp

@[simp] theorem yields_neg :
    Yields P (neg a >>= f) ↔ a.negOverflow = false ∧ Yields P (f (-a)) := by
  unfold neg
  cases a.negOverflow <;> simp

@[simp] theorem yields_div :
    Yields P (div a b >>= f) ↔
      (b ≠ 0#w ∧ a.sdivOverflow b = false) ∧ Yields P (f (a.sdiv b)) := by
  unfold div
  by_cases hb : b = 0#w <;> cases ho : a.sdivOverflow b <;> simp [hb]

@[simp] theorem yields_rem :
    Yields P (rem a b >>= f) ↔
      (b ≠ 0#w ∧ a.sdivOverflow b = false) ∧ Yields P (f (a.srem b)) := by
  unfold rem
  by_cases hb : b = 0#w <;> cases ho : a.sdivOverflow b <;> simp [hb]

@[simp] theorem yields_shl :
    Yields P (shl std a n >>= f) ↔
      (n.toNat < w ∧ Shiftable std a n.toNat) ∧ Yields P (f (a <<< n.toNat)) := by
  unfold shl
  split <;> rename_i h <;> simp [h]

@[simp] theorem yields_shr :
    Yields P (shr a n >>= f) ↔ n.toNat < w ∧ Yields P (f (a.sshiftRight n.toNat)) := by
  unfold shr
  split <;> rename_i h <;> simp [h]

/-- A sum that does not overflow has the sign of its summands where they have the same. -/
theorem msb_add_of_defined (h : a.saddOverflow b = false) (hs : a.msb = b.msb) :
    (a + b).msb = a.msb := by
  rw [BitVec.saddOverflow_eq, hs, beq_self_eq_true, Bool.true_and, Bool.not_eq_false'] at h
  exact (beq_iff_eq.mp h).trans hs.symm

/-- A difference that does not overflow has the sign of what is taken from, where the two
    signs differ. -/
theorem msb_sub_of_defined (h : a.ssubOverflow b = false) (hs : a.msb ≠ b.msb) :
    (a - b).msb = a.msb := by
  rw [BitVec.ssubOverflow_eq] at h
  cases ha : a.msb <;> cases hb : b.msb <;> simp_all

end

end HostInt
