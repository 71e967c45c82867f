/-
  Nachos.Userlib.Strings

  The functions of `userlib/libnachos.c` on strings and blocks of memory, with the loops of
  the source.  The memory of the program goes by addresses, and nothing in it says where an
  array ends.  An index is an `int` except in `n_strlen`, so a loop that would count beyond
  `INT_MAX` has no result.  Whether a plain `char` is signed is up to the compiler.
-/

import Nachos.Lib.FlatMemory
import Nachos.Lib.Words

namespace Nachos.Userlib

open Words FlatMemory

/-- The memory of the program. -/
abbrev UserMemory := Nat → Byte

/-- `INT_MAX`: an `int` can still be incremented at this many indices. -/
def INDICES : Nat := 2147483647

/-- The values of type `size_t`. -/
def SIZES : Nat := 4294967296

/-- `<` for `char`. -/
def charLt (signed : Bool) (a b : Byte) : Bool := if signed then a.slt b else a.ult b

/-- The loop of `n_strcmp` from index `i` on. -/
def strcmpLoop (signed : Bool) (mem : UserMemory) (s1 s2 : Nat) : Nat → Nat → Option Int
  | 0, _ => none
  | fuel + 1, i =>
      let a := mem (s1 + i)
      let b := mem (s2 + i)
      if charLt signed b a then some 1
      else if charLt signed a b then some (-1)
      else if a = 0 ∧ b = 0 then some 0
      else strcmpLoop signed mem s1 s2 fuel (i + 1)

/-- `n_strcmp`; the last of its three tests that holds gives the result. -/
def n_strcmp (signed : Bool) (s1 s2 : Nat) (mem : UserMemory) : Option Int :=
  strcmpLoop signed mem s1 s2 INDICES 0

/-- The loop of `n_strcpy`. -/
def strcpyLoop (dst src : Nat) : Nat → Nat → UserMemory → Option UserMemory
  | 0, _, _ => none
  | fuel + 1, i, mem =>
      let c := mem (src + i)
      let mem := Function.update mem (dst + i) c
      if c = 0 then some mem else strcpyLoop dst src fuel (i + 1) mem

/-- `n_strcpy`, with the pointer that it returns. -/
def n_strcpy (dst src : Nat) (mem : UserMemory) : Option (UserMemory × Nat) :=
  if dst ≠ 0 ∧ src ≠ 0 then (strcpyLoop dst src INDICES 0 mem).map fun mem => (mem, dst)
  else some (mem, 0)

/-- The loop of `n_strlen`. -/
def strlenLoop (mem : UserMemory) (s : Nat) : Nat → Nat → Option Nat
  | 0, _ => none
  | fuel + 1, i => if mem (s + i) = 0 then some i else strlenLoop mem s fuel (i + 1)

/-- `n_strlen`; without a zero the loop does not end. -/
def n_strlen (s : Nat) (mem : UserMemory) : Option Nat := strlenLoop mem s SIZES 0

/-- A loop that stores `n` bytes, from index `i` on. -/
def storeLoop (dst : Nat) (value : UserMemory → Nat → Byte) : Nat → Nat → UserMemory → UserMemory
  | 0, _, mem => mem
  | n + 1, i, mem =>
      storeLoop dst value n (i + 1) (Function.update mem (dst + i) (value mem i))

/-- `n_strcat`, with the pointer that it returns. -/
def n_strcat (dst src : Nat) (mem : UserMemory) : Option (UserMemory × Nat) := do
  let i ← n_strlen dst mem
  let j ← n_strlen src mem
  -- the lengths become `int`, and `k` goes one beyond the last index
  if i + j + 1 ≤ INDICES then
    return (storeLoop dst (fun mem k => mem (src + (k - i))) (j + 1) i mem, dst)
  else none

/-- The loop of `n_memcmp` from index `i` on. -/
def memcmpLoop (mem : UserMemory) (s1 s2 n : Nat) : Nat → Nat → Option Int
  | 0, i => if i < n then none else some 0
  | fuel + 1, i =>
      if i < n then
        let a := mem (s1 + i)
        let b := mem (s2 + i)
        if a < b then some (-1) else if b < a then some 1 else memcmpLoop mem s1 s2 n fuel (i + 1)
      else some 0

/-- `n_memcmp`. -/
def n_memcmp (s1 s2 n : Nat) (mem : UserMemory) : Option Int := memcmpLoop mem s1 s2 n INDICES 0

/-- `n_memcpy`, with the pointer that it returns. -/
def n_memcpy (s1 s2 n : Nat) (mem : UserMemory) : Option (UserMemory × Nat) :=
  if s1 ≠ 0 ∧ s2 ≠ 0 then
    if n ≤ INDICES then some (storeLoop s1 (fun mem i => mem (s2 + i)) n 0 mem, s1) else none
  else some (mem, 0)

/-- `n_memset`, with the pointer that it returns. -/
def n_memset (s : Nat) (c : BitVec 32) (n : Nat) (mem : UserMemory) : Option (UserMemory × Nat) :=
  if n ≤ INDICES then some (storeLoop s (fun _ _ => c.setWidth 8) n 0 mem, s) else none

/-! ## What the loops do -/

section Loops

variable {signed : Bool} {mem mem' : UserMemory} {dst src s1 s2 i n fuel : Nat}

theorem charLt_irrefl (signed : Bool) (a : Byte) : charLt signed a a = false := by
  unfold charLt
  split <;> simp [BitVec.slt, BitVec.ult]

theorem charLt_asymm {a b : Byte} (h : charLt signed a b = true) : charLt signed b a = false := by
  unfold charLt at *
  split at h <;> rename_i hs <;> simp only [hs, if_true, Bool.false_eq_true, if_false] at * <;>
    simp only [BitVec.slt, BitVec.ult, decide_eq_true_eq, decide_eq_false_iff_not] at * <;> omega

theorem charLt_total (signed : Bool) {a b : Byte} (h : a ≠ b) :
    charLt signed a b = true ∨ charLt signed b a = true := by
  unfold charLt
  split
  · have hne : a.toInt ≠ b.toInt := fun he => h (BitVec.eq_of_toInt_eq he)
    simp only [BitVec.slt, decide_eq_true_eq]
    omega
  · have hne : a.toNat ≠ b.toNat := fun he => h (BitVec.eq_of_toNat_eq he)
    simp only [BitVec.ult, decide_eq_true_eq]
    omega

/-- The order of two strings or blocks, as the comparisons return it. -/
def order (lt : Byte → Byte → Bool) (s t : List Byte) : Int :=
  if List.lex t s lt then 1 else if List.lex s t lt then -1 else 0

/-- The memory holds the bytes at an address. -/
def At (mem : UserMemory) (a : Nat) (l : List Byte) : Prop :=
  ∀ i (h : i < l.length), mem (a + i) = l[i]

theorem At.tail {a : Nat} {c : Byte} {l : List Byte} (h : At mem a (c :: l)) :
    At mem (a + 1) l := by
  intro k hk
  have hnext := h (k + 1) (Nat.succ_lt_succ hk)
  rw [List.getElem_cons_succ] at hnext
  rw [← hnext]
  congr 1
  omega

theorem At.head {a : Nat} {c : Byte} {l : List Byte} (h : At mem a (c :: l)) : mem a = c :=
  h 0 (Nat.succ_pos _)

/-- Going forward, a loop may copy to an array in front of the one that it reads. -/
def Forward (dst src n : Nat) : Prop := dst ≤ src ∨ src + n ≤ dst

/-- What is still to be read has not been overwritten. -/
theorem put_forward {l : List Byte} (h : Forward dst src n) (hl : l.length < n) :
    put mem dst l (src + l.length) = mem (src + l.length) := by
  refine put_outside ?_
  rcases h with h | h <;> omega

/-- A loop that stores. -/
theorem storeLoop_eq {value : UserMemory → Nat → Byte} {l done : List Byte}
    (hvalue : ∀ k (h : k < l.length),
      value (put mem (dst + i) (done ++ l.take k)) (i + (done.length + k)) = l[k]) :
    storeLoop dst value l.length (i + done.length) (put mem (dst + i) done) =
      put mem (dst + i) (done ++ l) := by
  induction l generalizing done with
  | nil =>
      rw [List.append_nil]
      rfl
  | cons c l ih =>
      have hc : value (put mem (dst + i) done) (i + done.length) = c := by
        have h := hvalue 0 (Nat.succ_pos _)
        rwa [List.take_zero, List.append_nil, Nat.add_zero, List.getElem_cons_zero] at h
      have hlen : i + done.length + 1 = i + (done ++ [c]).length := by
        rw [List.length_append, List.length_singleton, Nat.add_assoc]
      rw [List.length_cons, storeLoop, hc, ← Nat.add_assoc, update_put, hlen, ih fun k hk => ?_,
        List.append_assoc, List.singleton_append]
      have h := hvalue (k + 1) (Nat.succ_lt_succ hk)
      rw [List.take_succ_cons, List.getElem_cons_succ] at h
      rw [List.append_assoc, List.singleton_append, List.length_append, List.length_singleton,
        Nat.add_assoc, Nat.add_comm 1 k]
      exact h

/-- A loop that copies the bytes `l`. -/
theorem storeLoop_copy {value : UserMemory → Nat → Byte} {l : List Byte}
    (hvalue : ∀ mem k, value mem (i + k) = mem (src + k)) (hat : At mem src l)
    (hforward : Forward (dst + i) src l.length) :
    storeLoop dst value l.length i mem = put mem (dst + i) l := by
  have hloop : storeLoop dst value l.length (i + ([] : List Byte).length)
      (put mem (dst + i) []) = put mem (dst + i) ([] ++ l) := by
    refine storeLoop_eq fun k hk => ?_
    have hlen : (l.take k).length = k := List.length_take_of_le (Nat.le_of_lt hk)
    have hold : put mem (dst + i) (l.take k) (src + (l.take k).length) =
        mem (src + (l.take k).length) := put_forward hforward (by omega)
    rw [hlen] at hold
    rw [List.nil_append, List.length_nil, Nat.zero_add, hvalue, hold, hat k hk]
  rwa [put_nil, List.nil_append] at hloop

/-- `n_strcpy` stores the string and its zero. -/
theorem strcpyLoop_eq {s done : List Byte} (hs : (0 : Byte) ∉ s)
    (hat : At mem (src + done.length) (s ++ [0]))
    (hforward : Forward dst src (done.length + s.length + 1)) (hfuel : s.length < fuel) :
    strcpyLoop dst src fuel done.length (put mem dst done) =
      some (put mem dst (done ++ (s ++ [0]))) := by
  obtain ⟨fuel, rfl⟩ : ∃ n, fuel = n + 1 := ⟨fuel - 1, by omega⟩
  induction s generalizing done fuel with
  | nil =>
      have hc : put mem dst done (src + done.length) = 0 := by
        rw [put_forward hforward (by simp), hat.head]
      rw [strcpyLoop, hc, if_pos rfl, update_put, List.nil_append]
  | cons c s ih =>
      have hc : put mem dst done (src + done.length) = c := by
        rw [put_forward hforward (by omega), hat.head]
      have hne : c ≠ 0 := fun h => hs (h ▸ List.mem_cons_self)
      have hlen : done.length + 1 = (done ++ [c]).length := by simp
      rw [List.length_cons] at hfuel hforward
      obtain ⟨fuel, rfl⟩ : ∃ n, fuel = n + 1 := ⟨fuel - 1, by omega⟩
      rw [strcpyLoop, hc, if_neg hne, update_put, hlen,
        ih (fun h => hs (List.mem_cons_of_mem c h)) ?_ ?_ fuel (by omega), List.append_assoc,
        List.singleton_append, List.cons_append]
      · rw [← hlen, ← Nat.add_assoc]
        exact hat.tail
      · rw [← hlen]
        have heq : done.length + 1 + s.length + 1 = done.length + (s.length + 1) + 1 := by omega
        rwa [heq]

theorem strlenLoop_eq {s : List Byte} {a : Nat} (hs : (0 : Byte) ∉ s)
    (hat : At mem (a + i) (s ++ [0])) (hfuel : s.length < fuel) :
    strlenLoop mem a fuel i = some (i + s.length) := by
  obtain ⟨fuel, rfl⟩ : ∃ n, fuel = n + 1 := ⟨fuel - 1, by omega⟩
  induction s generalizing i fuel with
  | nil => rw [strlenLoop, if_pos hat.head, List.length_nil, Nat.add_zero]
  | cons c s ih =>
      have hne : mem (a + i) ≠ 0 := fun h => hs (hat.head.symm.trans h ▸ List.mem_cons_self)
      rw [List.length_cons] at hfuel ⊢
      obtain ⟨fuel, rfl⟩ : ∃ n, fuel = n + 1 := ⟨fuel - 1, by omega⟩
      rw [strlenLoop, if_neg hne, ih (fun h => hs (List.mem_cons_of_mem c h)) hat.tail fuel
        (by omega)]
      congr 1
      omega

theorem order_cons (lt : Byte → Byte → Bool) (c : Byte) (s t : List Byte) (h : lt c c = false) :
    order lt (c :: s) (c :: t) = order lt s t := by
  simp [order, h]

/-- The comparison goes on as long as the bytes are the same. -/
theorem strcmpLoop_eq {s t : List Byte} (hs : (0 : Byte) ∉ s) (ht : (0 : Byte) ∉ t)
    (hat₁ : At mem (s1 + i) (s ++ [0])) (hat₂ : At mem (s2 + i) (t ++ [0]))
    (hfuel : s.length < fuel) :
    strcmpLoop signed mem s1 s2 fuel i = some (order (charLt signed) (s ++ [0]) (t ++ [0])) := by
  obtain ⟨fuel, rfl⟩ : ∃ n, fuel = n + 1 := ⟨fuel - 1, by omega⟩
  -- two bytes that differ decide
  have hdiffer : ∀ {a b : Byte} {s t : List Byte} {fuel i : Nat}, a ≠ b → mem (s1 + i) = a →
      mem (s2 + i) = b → strcmpLoop signed mem s1 s2 (fuel + 1) i =
        some (order (charLt signed) (a :: s) (b :: t)) := by
    intro a b s t fuel i hne ha hb
    rw [strcmpLoop, ha, hb]
    rcases charLt_total signed hne with hlt | hlt
    · simp [order, hlt, charLt_asymm hlt, hne.symm]
    · simp [order, hlt]
  induction s generalizing t i fuel with
  | nil =>
      cases t with
      | nil =>
          have ha : mem (s1 + i) = 0 := hat₁.head
          have hb : mem (s2 + i) = 0 := hat₂.head
          rw [strcmpLoop, ha, hb]
          simp [order, charLt_irrefl]
      | cons b t =>
          have hne : (0 : Byte) ≠ b := fun h => ht (h ▸ List.mem_cons_self)
          exact hdiffer hne hat₁.head hat₂.head
  | cons a s ih =>
      cases t with
      | nil =>
          have hne : a ≠ 0 := fun h => hs (h ▸ List.mem_cons_self)
          exact hdiffer hne hat₁.head hat₂.head
      | cons b t =>
          by_cases hab : a = b
          · subst hab
            have ha : mem (s1 + i) = a := hat₁.head
            have hb : mem (s2 + i) = a := hat₂.head
            have hne : a ≠ 0 := fun h => hs (h ▸ List.mem_cons_self)
            rw [List.length_cons] at hfuel
            obtain ⟨fuel, rfl⟩ : ∃ n, fuel = n + 1 := ⟨fuel - 1, by omega⟩
            have hrest : strcmpLoop signed mem s1 s2 (fuel + 1) (i + 1) =
                some (order (charLt signed) (s ++ [0]) (t ++ [0])) :=
              ih (fun h => hs (List.mem_cons_of_mem a h)) (fun h => ht (List.mem_cons_of_mem a h))
                hat₁.tail hat₂.tail fuel (by omega)
            rw [List.cons_append, List.cons_append, order_cons _ _ _ _ (charLt_irrefl signed a),
              ← hrest]
            conv_lhs => rw [strcmpLoop, ha, hb]
            simp only [charLt_irrefl, Bool.false_eq_true, if_false, hne, false_and]
          · exact hdiffer hab hat₁.head hat₂.head

theorem memcmpLoop_eq {s t : List Byte} (hlen : s.length = t.length) (hat₁ : At mem (s1 + i) s)
    (hat₂ : At mem (s2 + i) t) (hn : i + s.length = n) (hfuel : s.length ≤ fuel) :
    memcmpLoop mem s1 s2 n fuel i = some (order BitVec.ult s t) := by
  induction s generalizing t i fuel with
  | nil =>
      obtain rfl := List.length_eq_zero_iff.mp hlen.symm
      have hend : ¬ i < n := by
        rw [← hn]
        exact Nat.lt_irrefl i
      cases fuel <;> simp [memcmpLoop, hend, order]
  | cons a s ih =>
      cases t with
      | nil => cases hlen
      | cons b t =>
          rw [List.length_cons] at hfuel hn
          obtain ⟨fuel, rfl⟩ : ∃ n, fuel = n + 1 := ⟨fuel - 1, by omega⟩
          have ha : mem (s1 + i) = a := hat₁.head
          have hb : mem (s2 + i) = b := hat₂.head
          rw [memcmpLoop, if_pos (by omega), ha, hb]
          by_cases hab : a = b
          · subst hab
            have hrest : memcmpLoop mem s1 s2 n fuel (i + 1) = some (order BitVec.ult s t) :=
              ih (Nat.succ.inj hlen) hat₁.tail hat₂.tail (by omega) (by omega)
            rw [order_cons _ _ _ _ (by simp [BitVec.ult]), ← hrest]
            simp [BitVec.lt_irrefl]
          · have hne : a.toNat ≠ b.toNat := fun he => hab (BitVec.eq_of_toNat_eq he)
            by_cases hlt : a < b
            · have hnot : ¬ b < a := by
                rw [BitVec.lt_def] at *
                omega
              simp [order, hlt, hnot, BitVec.ult, ← BitVec.lt_def, Ne.symm hab]
            · have hgt : b < a := by
                rw [BitVec.lt_def] at *
                omega
              simp [order, hlt, hgt, BitVec.ult, ← BitVec.lt_def]

end Loops

end Nachos.Userlib
