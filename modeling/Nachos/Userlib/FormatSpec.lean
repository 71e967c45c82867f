/-
  Nachos.Userlib.FormatSpec

  What the formatter of `libnachos.c` writes, and when it is what its format stands
  for; and a number that is printed and read back.
-/

import Nachos.Userlib.Libnachos

namespace Nachos.Userlib

open Words Guarded

variable {len : Int}

/-! ## Numbers -/

/-- The last digit, whatever the sign of the number. -/
theorem abs_tmod_ten (integer : Int) :
    (if integer.tmod 10 < 0 then -integer.tmod 10 else integer.tmod 10) =
      ((integer.natAbs % 10 : Nat) : Int) := by
  obtain ⟨k, rfl | rfl⟩ := integer.eq_nat_or_neg
  · have htmod : ((k : Int)).tmod 10 = ((k % 10 : Nat) : Int) := rfl
    rw [htmod, if_neg (by omega), Int.natAbs_natCast]
  · have htmod : (-(k : Int)).tmod 10 = -((k % 10 : Nat) : Int) := by
      rw [Int.neg_tmod]
      rfl
    rw [htmod, Int.natAbs_neg, Int.natAbs_natCast]
    split <;> omega

/-- The loop of `%d` has the digits of the absolute value, the last one first. -/
theorem intDigits_eq {room : Nat} {integer : Int} (hroom : 0 < room)
    (h : integer.natAbs < 10 ^ room) :
    intDigits room integer = .ok (digits 10 integer.natAbs).reverse := by
  induction room generalizing integer with
  | zero => omega
  | succ room ih =>
      obtain ⟨n, hn⟩ : ∃ n, integer.natAbs = n := ⟨_, rfl⟩
      have hmod := hn ▸ abs_tmod_ten integer
      have hdiv : (integer.tdiv 10).natAbs = n / 10 := by
        rw [Int.natAbs_tdiv, hn]
        rfl
      have hc : BitVec.ofInt 8 (48 + ((n % 10 : Nat) : Int)) = ofChar (n % 10).digitChar := by
        rw [ofChar_digitChar (Nat.mod_lt _ (by decide)), ← BitVec.ofInt_natCast]
        rfl
      -- The rounds go on while the quotient is not zero, which is while there are more digits.
      rw [hn] at h ⊢
      unfold intDigits
      dsimp only
      rw [hmod, hc]
      by_cases hlast : n < 10
      · have hzero : ¬ integer.tdiv 10 ≠ 0 := by
          rw [not_not, ← Int.natAbs_eq_zero, hdiv]
          omega
        rw [if_neg hzero, digits_of_lt hlast, Nat.mod_eq_of_lt hlast]
        rfl
      · have hmore : integer.tdiv 10 ≠ 0 := by
          rw [← Int.natAbs_ne_zero, hdiv]
          omega
        -- The digits that are left need a place of their own.
        have hpos : 0 < room := by
          rcases Nat.eq_zero_or_pos room with rfl | hpos
          · simp at h
            omega
          · exact hpos
        have hsplit : digits 10 (10 * (n / 10) + n % 10) =
            digits 10 (n / 10) ++ [ofChar (n % 10).digitChar] :=
          digits_append (by decide) (by omega) (Nat.mod_lt _ (by decide))
        rw [Nat.div_add_mod] at hsplit
        rw [if_pos hmore, ih hpos (by rw [hdiv, Nat.pow_succ] at *; omega), hdiv, hsplit,
          List.reverse_append]
        rfl

theorem putInteger_eq (v : BitVec 32) (s : Sink) :
    putInteger len v.toInt s = putChars len (decimal v.toInt) s := by
  have hlt : v.toInt.natAbs < 10 ^ 16 := by
    have := BitVec.le_toInt v
    have := BitVec.toInt_lt (x := v)
    omega
  unfold putInteger decimal
  rw [intDigits_eq (by decide) hlt, putChars_append]
  by_cases hneg : v.toInt < 0
  · rw [if_pos hneg, if_pos hneg, putChars_singleton]
    cases putChar len (ofChar '-') s with
    | error f => rfl
    | ok s => simp [bind, Except.bind]
  · rw [if_neg hneg, if_neg hneg]
    simp [bind, Except.bind, pure, Except.pure]

/-- The first `k` of the eight digits of a word. -/
def hexHead (v : BitVec 32) (k : Nat) : Nat := v.toNat / 16 ^ (8 - k)

/-- The characters for them: zeros are left out in front. -/
def hexChars (v : BitVec 32) (k : Nat) : List Byte :=
  if hexHead v k = 0 then [] else digits 16 (hexHead v k)

theorem hexHead_succ (v : BitVec 32) {k : Nat} (hk : k < 8) :
    hexHead v (k + 1) = 16 * hexHead v k + hexHead v (k + 1) % 16 := by
  have hpow : 16 ^ (8 - k) = 16 ^ (8 - (k + 1)) * 16 := by
    rw [← Nat.pow_succ]
    congr 1
    omega
  rw [hexHead, hexHead, hpow, ← Nat.div_div_eq_div_mul]
  omega

/-- The digit that a round of the loop looks at. -/
theorem nibble_toNat (v : BitVec 32) {k : Nat} (hk : k < 8) :
    (((v <<< (k * 4)) >>> 28) &&& 0xf).toNat = hexHead v (k + 1) % 16 := by
  have hmask : (0xf : BitVec 32).toNat = 2 ^ 4 - 1 := rfl
  have hlt := v.isLt
  rw [BitVec.toNat_and, hmask, Nat.and_two_pow_sub_one_eq_mod, BitVec.toNat_ushiftRight,
    BitVec.toNat_shiftLeft, Nat.shiftRight_eq_div_pow, Nat.shiftLeft_eq, hexHead]
  interval_cases k <;> norm_num <;> omega

theorem digit_toNat {nb : BitVec 32} (h : nb.toNat < 10) :
    (48 + nb).setWidth 8 = ofChar nb.toNat.digitChar := by
  have hzero : (48 : BitVec 32).toNat = 48 := rfl
  rw [ofChar_digitChar h]
  apply BitVec.eq_of_toNat_eq
  simp only [BitVec.toNat_setWidth, BitVec.toNat_add, BitVec.toNat_ofNat, hzero]
  omega

theorem letter_toNat {nb : BitVec 32} (h : 10 ≤ nb.toNat) (h' : nb.toNat < 16) :
    (97 + (nb - 10)).setWidth 8 = ofChar nb.toNat.digitChar := by
  have ha : (97 : BitVec 32).toNat = 97 := rfl
  have hten : (10 : BitVec 32).toNat = 10 := rfl
  rw [ofChar_hexChar h h']
  apply BitVec.eq_of_toNat_eq
  simp only [BitVec.toNat_setWidth, BitVec.toNat_add, BitVec.toNat_sub, BitVec.toNat_ofNat, ha,
    hten]
  omega

/-- One digit more, unless there have been only zeros. -/
theorem hexChars_succ (v : BitVec 32) {k : Nat} (hk : k < 8) (hne : hexHead v (k + 1) ≠ 0) :
    hexChars v (k + 1) = hexChars v k ++ [ofChar (hexHead v (k + 1) % 16).digitChar] := by
  have hsucc := hexHead_succ v hk
  have hlt : hexHead v (k + 1) % 16 < 16 := Nat.mod_lt _ (by decide)
  rw [hexChars, if_neg hne, hexChars]
  by_cases hz : hexHead v k = 0
  · have hself : hexHead v (k + 1) % 16 = hexHead v (k + 1) := by omega
    rw [if_pos hz, hself, digits_of_lt (by omega)]
    rfl
  · rw [if_neg hz, hsucc, digits_append (by decide) (Nat.pos_of_ne_zero hz) hlt]
    congr 4
    omega

/-- A round of the loop of `%x` puts the next digit. -/
theorem hexRound_eq (v : BitVec 32) {k : Nat} (hk : k < 8) (s : Sink) :
    (do
      let s ← putChars len (hexChars v k) s
      hexRound len v (decide (hexHead v k ≠ 0), s) k) = do
      let s ← putChars len (hexChars v (k + 1)) s
      return (decide (hexHead v (k + 1) ≠ 0), s) := by
  have hsucc := hexHead_succ v hk
  have hnb := nibble_toNat v hk
  obtain ⟨nb, hnb'⟩ : ∃ nb, ((v <<< (k * 4)) >>> 28) &&& 0xf = nb := ⟨_, rfl⟩
  rw [hnb'] at hnb
  have hlt : nb.toNat < 16 := by omega
  unfold hexRound
  dsimp only
  simp only [hnb']
  by_cases hzero : nb = 0
  · have hmod : hexHead v (k + 1) % 16 = 0 := by
      rw [← hnb, hzero]
      rfl
    by_cases hhead : hexHead v k = 0
    · -- Only zeros so far.
      have hnext : hexHead v (k + 1) = 0 := by omega
      simp [hexChars, hhead, hnext, hzero, bind, Except.bind, pure, Except.pure]
    · have hnext : hexHead v (k + 1) ≠ 0 := by omega
      -- A zero between the digits.
      rw [hexChars_succ v hk hnext, hmod, putChars_append, bind_assoc]
      simp only [hzero, hhead, hnext, ne_eq, not_false_eq_true, decide_true, if_true,
        putChars_singleton]
      rfl
  · have hpos : nb.toNat ≠ 0 := fun h => hzero (BitVec.eq_of_toNat_eq h)
    have hnext : hexHead v (k + 1) ≠ 0 := by omega
    rw [hexChars_succ v hk hnext, ← hnb, putChars_append, bind_assoc]
    simp only [hzero, hnext, ne_eq, not_false_eq_true, decide_true, if_false, putChars_singleton]
    by_cases hten : nb < 10
    · have hten' : nb.toNat < 10 := hten
      simp only [hten, if_true, digit_toNat hten']
    · have hten' : 10 ≤ nb.toNat := Nat.not_lt.mp hten
      simp only [hten, if_false, letter_toNat hten' hlt]

theorem hexRounds_eq (v : BitVec 32) {k : Nat} (hk : k ≤ 8) (s : Sink) :
    (List.range k).foldlM (hexRound len v) (false, s) = do
      let s ← putChars len (hexChars v k) s
      return (decide (hexHead v k ≠ 0), s) := by
  induction k with
  | zero =>
      have hzero : hexHead v 0 = 0 := Nat.div_eq_of_lt v.isLt
      simp [hexChars, hzero, bind, Except.bind]
  | succ k ih =>
      rw [← hexRound_eq v hk, List.range_succ, List.foldlM_append, ih (Nat.le_of_succ_le hk),
        bind_assoc]
      simp only [pure_bind, List.foldlM_cons, List.foldlM_nil, bind_pure]

/-- The loop of `%x` has the digits of the number. -/
theorem putHexa_eq (v : BitVec 32) (s : Sink) :
    putHexa len v s = putChars len (digits 16 v.toNat) s := by
  have hhead : hexHead v 8 = v.toNat := by simp [hexHead]
  unfold putHexa
  rw [hexRounds_eq v (le_refl 8), hexChars, hhead, bind_assoc]
  by_cases hzero : v.toNat = 0
  · simp [hzero, digits_of_lt, putChars_singleton, bind, Except.bind, pure, Except.pure]
    rfl
  · simp [hzero]

/-! ## The format -/

/-- A directive puts the characters of its pieces, and takes their arguments. -/
theorem directive_eq (len : Int) {d : Byte} {ps : List Piece} {ap : List Arg}
    (h : Matches (directivePieces d ++ ps) ap) :
    ∃ out ap', expand (directivePieces d ++ ps) ap = out ++ expand ps ap' ∧ Matches ps ap' ∧
      ∀ s, directive len d ap s = do
        let s ← putChars len out s
        return (ap', s) := by
  unfold directivePieces at h ⊢
  unfold directive
  split
  · -- The `%` itself.
    rename_i hd
    rw [if_pos hd] at h
    exact ⟨[ofChar '%'], ap, rfl, h, fun s => by rw [putChars_singleton]⟩
  rename_i hd
  rw [if_neg hd] at h
  split
  · rename_i hd
    rw [if_pos hd] at h
    -- `%i` and `%d`: that the argument is there is what `Matches` says.
    match ap, h with
    | .int v :: ap, h => exact ⟨decimal v.toInt, ap, rfl, h, fun s => by
        dsimp only
        rw [putInteger_eq]⟩
  rename_i hd
  rw [if_neg hd] at h
  split
  · rename_i hd
    rw [if_pos hd] at h
    match ap, h with
    | .int v :: ap, h => exact ⟨[v.setWidth 8], ap, rfl, h, fun s => by rw [putChars_singleton]⟩
  rename_i hd
  rw [if_neg hd] at h
  split
  · rename_i hd
    rw [if_pos hd] at h
    match ap, h with
    | .string str :: ap, h => exact ⟨stringOf str, ap, rfl, h, fun s => rfl⟩
  rename_i hd
  rw [if_neg hd] at h
  split
  · rename_i hd
    rw [if_pos hd] at h
    match ap, h with
    | .int v :: ap, h => exact ⟨digits 16 v.toNat, ap, rfl, h, fun s => by
        dsimp only
        rw [putHexa_eq]⟩
  rename_i hd
  rw [if_neg hd] at h
  split
  · -- No argument fits `%f`, since none is a floating point number.
    rename_i hd
    rw [if_pos hd] at h
    cases ap <;> cases h
  · -- Any other character comes out as it is, with the `%` before it.
    rename_i hd
    rw [if_neg hd] at h
    refine ⟨[ofChar '%', d], ap, rfl, h, fun s => ?_⟩
    rw [show [ofChar '%', d] = [ofChar '%'] ++ [d] from rfl, putChars_append, bind_assoc,
      putChars_singleton]
    simp only [putChars_singleton]

/-- The loop comes to the end of a format that does not end with a `%` alone, and has then put
    what the pieces stand for. -/
theorem formatFrom_ok {rest : List Byte} {i : Int} {ap : List Arg} {s s' : Sink}
    (hm : Matches (pieces rest) ap) (hi : i ≤ INT_MAX) :
    formatFrom len rest i ap s = .ok s' ↔ ¬ Dangling rest ∧ i + rest.length ≤ INT_MAX ∧
      putChars len (expand (pieces rest) ap) s = .ok s' := by
  induction rest using pieces.induct generalizing i ap s with
  | case1 => simpa [formatFrom, pieces, expand, Dangling] using fun _ => hi
  | case2 =>
      -- The zero has been taken for the character behind the `%`.
      simp [formatFrom, Dangling, bind_ok]
  | case3 d rest ih =>
      rw [pieces] at hm
      simp only [if_true] at hm
      obtain ⟨out, ap', hexp, hm', hdir⟩ := directive_eq len hm
      have hpieces : pieces (ofChar '%' :: d :: rest) = directivePieces d ++ pieces rest := by
        rw [pieces]
        rfl
      have hdangling : Dangling (ofChar '%' :: d :: rest) ↔ Dangling rest := by
        rw [Dangling]
        rfl
      rw [hpieces, hexp, hdangling, formatFrom, putChars_append]
      simp only [if_true, bind_ok, increment_eq, hdir, List.length_cons]
      constructor
      · rintro ⟨j, ⟨hj, rfl⟩, x, ⟨s₁, hs₁, hx⟩, k, ⟨hk, rfl⟩, hrest⟩
        obtain rfl := Except.ok.inj hx
        obtain ⟨hd, hle, hput⟩ := (ih hm' hk).mp hrest
        exact ⟨hd, by omega, s₁, hs₁, hput⟩
      · rintro ⟨hd, hle, s₁, hs₁, hput⟩
        refine ⟨i + 1, ⟨by omega, rfl⟩, (ap', s₁), ⟨s₁, hs₁, rfl⟩, i + 1 + 1, ⟨by omega, rfl⟩, ?_⟩
        exact (ih hm' (by omega)).mpr ⟨hd, by omega, hput⟩
  | case4 c rest hc ih =>
      have hpieces : pieces (c :: rest) = .literal c :: pieces rest := by
        rw [pieces.eq_def]
        exact if_neg hc
      have hdangling : Dangling (c :: rest) ↔ Dangling rest := by
        rw [Dangling.eq_def]
        exact iff_of_eq (if_neg hc)
      rw [hpieces] at hm ⊢
      rw [hdangling, formatFrom, if_neg hc, expand, putChars_cons]
      simp only [bind_ok, increment_eq, List.length_cons]
      constructor
      · rintro ⟨s₁, hs₁, k, ⟨hk, rfl⟩, hrest⟩
        obtain ⟨hd, hle, hput⟩ := (ih hm hk).mp hrest
        exact ⟨hd, by omega, s₁, hs₁, hput⟩
      · rintro ⟨hd, hle, s₁, hs₁, hput⟩
        exact ⟨s₁, hs₁, i + 1, ⟨by omega, rfl⟩, (ih hm (by omega)).mpr ⟨hd, by omega, hput⟩⟩

/-- The call returns the length of what the format stands for, with no fault.  It stores the part
    for which there is room, and a zero behind it; no store is behind the end of the buffer. -/
def Formats (buff : Nat) (len : Int) (format : Str) (ap : List Arg) : Prop :=
  ∃ stores, vsnprintf (some buff) len (some format) ap =
      .ok ((expand (pieces format.chars) ap).length, stores) ∧
    stores = ((expand (pieces format.chars) ap).take (len - 1).toNat ++ [0]).zipIdx buff ∧
    ∀ x ∈ stores, (x.2 : Int) < buff + len

theorem vsnprintf_ok {buff : Nat} {format : Str} {ap : List Arg} (hlen : 0 ≤ len)
    (hm : Matches (pieces format.chars) ap) {r : Int × List (Byte × Nat)} :
    vsnprintf (some buff) len (some format) ap = .ok r ↔
      ¬ Dangling format.chars ∧ (format.chars.length : Int) ≤ INT_MAX ∧
        ((expand (pieces format.chars) ap).length : Int) ≤ INT_MAX ∧
        r = (((expand (pieces format.chars) ap).length : Int),
          ((expand (pieces format.chars) ap).take (len - 1).toNat ++ [0]).zipIdx buff) := by
  obtain ⟨e, he⟩ : ∃ e, expand (pieces format.chars) ap = e := ⟨_, rfl⟩
  have hstart : (⟨buff, 0, []⟩ : Sink) = .after len buff [] := by simp [Sink.after]
  have hend : ((Sink.after len buff e).store 0).stores =
      (e.take (len - 1).toNat ++ [0]).zipIdx buff := by
    rw [List.zipIdx_append]
    rfl
  unfold vsnprintf
  dsimp only
  rw [if_neg (by omega), bind_ok, he, hstart]
  simp only [formatFrom_ok hm (show (0 : Int) ≤ INT_MAX by decide), he,
    putChars_after (show (([] : List Byte).length : Int) ≤ INT_MAX by decide), List.nil_append,
    Int.zero_add]
  constructor
  · rintro ⟨s, ⟨hd, hf, hle, rfl⟩, hr⟩
    refine ⟨hd, hf, hle, (Except.ok.inj hr).symm.trans ?_⟩
    rw [hend]
    rfl
  · rintro ⟨hd, hf, hle, rfl⟩
    refine ⟨_, ⟨hd, hf, hle, rfl⟩, ?_⟩
    rw [hend]
    rfl

/-- The formatter does what it should exactly when the buffer has room for the zero, the format
    does not end with a `%` alone, and neither length overflows an `int`. -/
theorem formats_iff {buff : Nat} {format : Str} {ap : List Arg} (hlen : 0 ≤ len)
    (hm : Matches (pieces format.chars) ap) :
    Formats buff len format ap ↔ 1 ≤ len ∧ ¬ Dangling format.chars ∧
      (format.chars.length : Int) ≤ INT_MAX ∧
      ((expand (pieces format.chars) ap).length : Int) ≤ INT_MAX := by
  unfold Formats
  simp only [vsnprintf_ok hlen hm]
  obtain ⟨e, he⟩ : ∃ e, expand (pieces format.chars) ap = e := ⟨_, rfl⟩
  rw [he]
  constructor
  · rintro ⟨stores, ⟨hd, hf, hle, -⟩, rfl, hin⟩
    refine ⟨?_, hd, hf, hle⟩
    -- The zero is among the stores.
    have hzero : ((0 : Byte), buff + (e.take (len - 1).toNat).length) ∈
        (e.take (len - 1).toNat ++ [0]).zipIdx buff := by
      rw [List.zipIdx_append]
      simp
    have hlt := hin _ hzero
    dsimp only at hlt
    omega
  · rintro ⟨hpos, hd, hf, hle⟩
    refine ⟨_, ⟨hd, hf, hle, rfl⟩, rfl, fun x hx => ?_⟩
    have hlt := List.snd_lt_add_of_mem_zipIdx hx
    rw [List.length_append, List.length_singleton, List.length_take] at hlt
    omega

/-- A word, a number and its digits in a buffer that is too short for them. -/
theorem formats_hello :
    Formats 1000 8 ⟨['%', 's', ' ', '%', 'd', ' ', '%', 'x'].map ofChar, by decide⟩
      [.string (some ⟨['a', 'b'].map ofChar, by decide⟩), .int (-12), .int 255] :=
  (formats_iff (by decide) (by trivial)).mpr ⟨by decide, by simp [Dangling, ofChar], by decide, by
    decide⟩

/-- A `%` at the end leads the scan past the zero, and a buffer of no bytes gets one all the
    same. -/
theorem formats_fails :
    ¬ Formats 1000 10 ⟨['%'].map ofChar, by decide⟩ [] ∧ ¬ Formats 1000 0 ⟨[], by simp⟩ [] := by
  constructor
  · rintro ⟨stores, h, -⟩
    simp [vsnprintf, formatFrom, bind_ok] at h
  · rintro ⟨stores, -, rfl, hin⟩
    have := hin (0, 1000) (by simp [pieces, expand])
    simp at this

/-! ## A number that is printed and read back -/

/-- The memory after the stores. -/
def storeAll (mem : Nat → Byte) (stores : List (Byte × Nat)) : Nat → Byte :=
  stores.foldl (fun mem x => Function.update mem x.2 x.1) mem

/-- The string at the address `buff`. -/
def StringAt (mem : Nat → Byte) (buff : Nat) (s : Str) : Prop :=
  ∀ i ≤ s.chars.length, mem (buff + i) = s.chars.getD i 0

theorem storeAll_below {mem : Nat → Byte} {cs : List Byte} {buff a : Nat} (h : a < buff) :
    storeAll mem (cs.zipIdx buff) a = mem a := by
  induction cs generalizing mem buff with
  | nil => rfl
  | cons c cs ih =>
      have hne : a ≠ buff := by omega
      rw [List.zipIdx_cons, storeAll, List.foldl_cons, ← storeAll, ih (Nat.lt_succ_of_lt h)]
      exact Function.update_of_ne hne _ _

/-- Characters stored one after the other are there. -/
theorem storeAll_at {mem : Nat → Byte} {cs : List Byte} {buff i : Nat} (h : i < cs.length) :
    storeAll mem (cs.zipIdx buff) (buff + i) = cs.getD i 0 := by
  induction cs generalizing mem buff i with
  | nil => simp at h
  | cons c cs ih =>
      rw [List.zipIdx_cons, storeAll, List.foldl_cons, ← storeAll]
      cases i with
      | zero =>
          show storeAll (Function.update mem buff c) (cs.zipIdx (buff + 1)) buff = c
          rw [storeAll_below (Nat.lt_succ_self buff)]
          exact Function.update_self _ _ _
      | succ i =>
          have hshift : buff + (i + 1) = buff + 1 + i := by omega
          rw [hshift, ih (Nat.lt_of_succ_lt_succ h)]
          rfl

theorem isDigit_bounds {c : Char} (h : c.isDigit = true) : 48 ≤ c.toNat ∧ c.toNat ≤ 57 := by
  simpa [Char.isDigit, UInt32.le_iff_toNat_le] using h

theorem toNat_ofChar {c : Char} (h : c.isDigit = true) : (ofChar c).toNat = c.toNat := by
  have := isDigit_bounds h
  rw [ofChar, BitVec.toNat_ofNat]
  omega

/-- The loop of `n_atoi` over digits adds them up. -/
theorem atoiFrom_digits {l : List Char} (hl : ∀ c ∈ l, c.isDigit = true) (a : Nat) :
    atoiFrom (BitVec.ofNat 32 a) (l.map ofChar) = BitVec.ofNat 32 (Nat.ofDigitChars 10 l a) := by
  induction l generalizing a with
  | nil => simp [atoiFrom]
  | cons c l ih =>
      have hc := hl c List.mem_cons_self
      obtain ⟨hlo, hhi⟩ := isDigit_bounds hc
      have hnat := toNat_ofChar hc
      have hin : ¬ (ofChar c < ofChar '0' ∨ ofChar '9' < ofChar c) := by
        rw [BitVec.lt_def, BitVec.lt_def, hnat]
        have h0 : (ofChar '0').toNat = 48 := rfl
        have h9 : (ofChar '9').toNat = 57 := rfl
        omega
      have hval : BitVec.ofNat 32 a * 10 + ((ofChar c).setWidth 32 - 48) =
          BitVec.ofNat 32 (10 * a + (c.toNat - '0'.toNat)) := by
        have h0 : '0'.toNat = 48 := rfl
        have hten : (10 : BitVec 32).toNat = 10 := rfl
        have hzero : (48 : BitVec 32).toNat = 48 := rfl
        apply BitVec.eq_of_toNat_eq
        simp only [BitVec.toNat_add, BitVec.toNat_mul, BitVec.toNat_sub, BitVec.toNat_ofNat,
          BitVec.toNat_setWidth, hnat, h0, hten, hzero]
        omega
      rw [List.map_cons, atoiFrom, if_neg hin, hval,
        ih fun c hc => hl c (List.mem_cons_of_mem _ hc), Nat.ofDigitChars_cons]

theorem atoiFrom_eq (n : Nat) : atoiFrom 0 (digits 10 n) = BitVec.ofNat 32 n := by
  have hall : ∀ c ∈ Nat.toDigits 10 n, c.isDigit = true := fun c hc =>
    Nat.isDigit_of_mem_toDigits (by decide) (by decide) hc
  rw [digits, show (0 : BitVec 32) = BitVec.ofNat 32 0 from rfl, atoiFrom_digits hall,
    Nat.ofDigitChars_ten_toDigits]

/-- A digit is neither a zero nor a minus sign. -/
theorem mem_digits {n : Nat} {c : Byte} (h : c ∈ digits 10 n) : c ≠ 0 ∧ c ≠ ofChar '-' := by
  obtain ⟨d, hd, rfl⟩ := List.mem_map.mp h
  have hdigit := Nat.isDigit_of_mem_toDigits (by decide) (by decide) hd
  have hbounds := isDigit_bounds hdigit
  have hnat := toNat_ofChar hdigit
  constructor
  · intro h0
    rw [h0] at hnat
    simp at hnat
    omega
  · intro hminus
    rw [hminus] at hnat
    have : (ofChar '-').toNat = 45 := rfl
    omega

theorem decimal_ne_zero {v : Int} : ∀ c ∈ decimal v, c ≠ 0 := by
  intro c hc
  rcases List.mem_append.mp hc with hc | hc
  · split at hc
    · obtain rfl := List.mem_singleton.mp hc
      decide
    · cases hc
  · exact (mem_digits hc).1

theorem n_atoi_of_minus {str : Str} {rest : List Byte} (h : str.chars = ofChar '-' :: rest) :
    n_atoi str = -atoiFrom 0 rest := by
  simp [n_atoi, h]

theorem n_atoi_of_digits {str : Str} (h : ∀ c ∈ str.chars, c ≠ ofChar '-') :
    n_atoi str = atoiFrom 0 str.chars := by
  unfold n_atoi
  cases hs : str.chars with
  | nil => rfl
  | cons c rest =>
      rw [hs] at h
      exact if_neg (h c List.mem_cons_self)

/-- The digits of a number, read back. -/
theorem atoi_decimal (n : BitVec 32) : n_atoi ⟨decimal n.toInt, decimal_ne_zero⟩ = n := by
  have hself := BitVec.ofInt_toInt (x := n)
  by_cases hneg : n.toInt < 0
  · have hchars : decimal n.toInt = ofChar '-' :: digits 10 n.toInt.natAbs := by
      rw [decimal, if_pos hneg]
      rfl
    rw [n_atoi_of_minus hchars, atoiFrom_eq, ← BitVec.ofInt_natCast, ← BitVec.ofInt_neg,
      Int.ofNat_natAbs_of_nonpos hneg.le, neg_neg, hself]
  · have hchars : decimal n.toInt = digits 10 n.toInt.natAbs := by
      rw [decimal, if_neg hneg]
      rfl
    have hminus : ∀ c ∈ decimal n.toInt, c ≠ ofChar '-' := by
      rw [hchars]
      exact fun c hc => (mem_digits hc).2
    rw [n_atoi_of_digits hminus]
    dsimp only
    rw [hchars, atoiFrom_eq, ← BitVec.ofInt_natCast, Int.natAbs_of_nonneg (not_lt.mp hneg), hself]

/-- The format `"%d"`. -/
def percentD : Str := ⟨[ofChar '%', ofChar 'd'], by decide⟩

/-- Printed into a buffer of at least 12 bytes, every `int` is read back. -/
theorem atoi_snprintf (n : BitVec 32) {len : Int} (hlen : 12 ≤ len) (buff : Nat)
    (mem : Nat → Byte) :
    ∃ r stores s, n_snprintf (some buff) len (some percentD) [.int n] = .ok (r, stores) ∧
      StringAt (storeAll mem stores) buff s ∧ n_atoi s = n := by
  have hexp : expand (pieces percentD.chars) [.int n] = decimal n.toInt := by
    show decimal n.toInt ++ [] = _
    rw [List.append_nil]
  have hle : (decimal n.toInt).length ≤ 11 := by
    have hbound : (digits 10 n.toInt.natAbs).length ≤ 10 := by
      refine length_digits_le (by decide) ?_
      have := BitVec.le_toInt n
      have := BitVec.toInt_lt (x := n)
      omega
    rw [decimal, List.length_append]
    split
    · rw [List.length_singleton]
      omega
    · rw [List.length_nil]
      omega
  have hmax : INT_MAX = 2147483647 := rfl
  have hmatch : Matches (pieces percentD.chars) [.int n] := trivial
  have hprint : n_snprintf (some buff) len (some percentD) [.int n] = .ok _ :=
    (vsnprintf_ok (by omega) hmatch).mpr ⟨by simp [Dangling, percentD], by decide,
      by rw [hexp]; omega, rfl⟩
  rw [hexp, List.take_of_length_le (by omega)] at hprint
  refine ⟨_, _, ⟨decimal n.toInt, decimal_ne_zero⟩, hprint, fun i hi => ?_, atoi_decimal n⟩
  dsimp only at hi ⊢
  rw [storeAll_at (by rw [List.length_append, List.length_singleton]; omega)]
  rcases Nat.lt_or_eq_of_le hi with hlt | rfl
  · simp [List.getD_eq_getElem?_getD, List.getElem?_append_left hlt]
  · simp [List.getD_eq_getElem?_getD]

/-- The least `int` in a buffer of 12 bytes. -/
theorem atoi_snprintf_min : ∃ r stores s,
    n_snprintf (some 1000) 12 (some percentD) [.int (BitVec.intMin 32)] = .ok (r, stores) ∧
      StringAt (storeAll (fun _ => 0) stores) 1000 s ∧ n_atoi s = BitVec.intMin 32 :=
  atoi_snprintf _ (by decide) 1000 _

end Nachos.Userlib
