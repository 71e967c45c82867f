/-
  Nachos.Userlib.Libnachos

  `userlib/libnachos.c`: building a string by a format, and reading a number from one.
  The destination overlaps neither the format nor a string argument, so these are lists
  of characters; what is written is kept as the list of the stores, each a character with
  its address.  An `int` that overflows, an argument that is not there and a read behind
  the end of a string are faults.

  The formatter is described by the pieces of its format: it does what putting their
  characters one after the other does.
-/

import Nachos.Lib.Guarded
import Nachos.Userlib.Format

namespace Nachos.Userlib

open Words Guarded

inductive Fault where
  | overflow
  /-- A read behind the end of the format. -/
  | pastNul
  /-- A digit behind the end of `buff_int`. -/
  | buffInt
  /-- `va_arg` does not find an argument of the type. -/
  | argument
  /-- Floating point is not part of the model. -/
  | float
deriving DecidableEq, Repr

abbrev INT_MAX : Int := 2147483647

/-- `i++`. -/
def increment (i : Int) : Except Fault Int := do
  demand (i + 1 ≤ INT_MAX) .overflow
  return i + 1

/-- Where `vsnprintf` writes to, and what it has done. -/
structure Sink where
  buff : Nat
  result : Int
  stores : List (Byte × Nat)

/-- `*buff = c`. -/
def Sink.store (s : Sink) (c : Byte) : Sink := { s with stores := s.stores ++ [(c, s.buff)] }

section

variable (len : Int)

/-- `PUTCHAR`. -/
def putChar (carac : Byte) (s : Sink) : Except Fault Sink := do
  let s := if s.result < len - 1 then { s.store carac with buff := s.buff + 1 } else s
  let result ← increment s.result
  return { s with result := result }

def putChars (cs : List Byte) (s : Sink) : Except Fault Sink :=
  cs.foldlM (fun s c => putChar len c s) s

/-- The loop over the digits, which fills `buff_int` from the last digit on. -/
def intDigits : Nat → Int → Except Fault (List Byte)
  | 0, _ => .error .buffInt
  | room + 1, integer => do
      let m10 := integer.tmod 10
      let m10 := if m10 < 0 then -m10 else m10
      let c := BitVec.ofInt 8 (48 + m10)
      let integer := integer.tdiv 10
      if integer ≠ 0 then
        let rest ← intDigits room integer
        return c :: rest
      else return [c]

/-- The case of `%d`. -/
def putInteger (integer : Int) (s : Sink) : Except Fault Sink := do
  let s ← if integer < 0 then putChar len (ofChar '-') s else pure s
  let buff_int ← intDigits 16 integer
  putChars len buff_int.reverse s

/-- A round of the loop of `%x`. -/
def hexRound (hexa : BitVec 32) (x : Bool × Sink) (i : Nat) : Except Fault (Bool × Sink) := do
  let (had_nonzero, s) := x
  let nb := ((hexa <<< (i * 4)) >>> 28) &&& 0xf
  if nb = 0 then
    if had_nonzero then
      let s ← putChar len (ofChar '0') s
      return (had_nonzero, s)
    else return (had_nonzero, s)
  else if nb < 10 then
    let s ← putChar len ((48 + nb).setWidth 8) s
    return (true, s)
  else
    let s ← putChar len ((97 + (nb - 10)).setWidth 8) s
    return (true, s)

/-- The case of `%x`. -/
def putHexa (hexa : BitVec 32) (s : Sink) : Except Fault Sink := do
  let (had_nonzero, s) ← (List.range 8).foldlM (hexRound len hexa) (false, s)
  if had_nonzero then return s else putChar len (ofChar '0') s

/-- The `switch` on the character behind a `%`. -/
def directive (d : Byte) (ap : List Arg) (s : Sink) : Except Fault (List Arg × Sink) :=
  if d = ofChar '%' then do
    let s ← putChar len (ofChar '%') s
    return (ap, s)
  else if d = ofChar 'i' ∨ d = ofChar 'd' then
    match ap with
    | .int v :: ap => do
        let s ← putInteger len v.toInt s
        return (ap, s)
    | _ => .error .argument
  else if d = ofChar 'c' then
    match ap with
    | .int v :: ap => do
        let s ← putChar len (v.setWidth 8) s
        return (ap, s)
    | _ => .error .argument
  else if d = ofChar 's' then
    match ap with
    | .string string :: ap => do
        let s ← putChars len (stringOf string) s
        return (ap, s)
    | _ => .error .argument
  else if d = ofChar 'x' then
    match ap with
    | .int v :: ap => do
        let s ← putHexa len v s
        return (ap, s)
    | _ => .error .argument
  else if d = ofChar 'f' then .error .float
  else do
    let s ← putChar len (ofChar '%') s
    let s ← putChar len d s
    return (ap, s)

/-- The loop of `vsnprintf`, for what is left of the format from `i` on. -/
def formatFrom : List Byte → Int → List Arg → Sink → Except Fault Sink
  | [], _, _, s => .ok s
  | c :: rest, i, ap, s =>
      if c = ofChar '%' then do
        let i ← increment i
        match rest with
        | [] =>
            -- `format[i]` is the zero, and the next one is read all the same.
            let _ ← directive len 0 ap s
            let _ ← increment i
            .error .pastNul
        | d :: rest =>
            let (ap, s) ← directive len d ap s
            let i ← increment i
            formatFrom rest i ap s
      else do
        let s ← putChar len c s
        let i ← increment i
        formatFrom rest i ap s

end

/-- `vsnprintf`: its result and its stores. -/
def vsnprintf (buff : Option Nat) (len : Int) (format : Option Str) (ap : List Arg) :
    Except Fault (Int × List (Byte × Nat)) :=
  match buff, format with
  | some buff, some format =>
      if len < 0 then .ok (-1, [])
      else do
        let s ← formatFrom len format.chars 0 ap ⟨buff, 0, []⟩
        return (s.result, (s.store 0).stores)
  | _, _ => .ok (-1, [])

/-- `n_snprintf`. -/
def n_snprintf (buff : Option Nat) (len : Int) (format : Option Str) (ap : List Arg) :
    Except Fault (Int × List (Byte × Nat)) := vsnprintf buff len format ap

/-- The loop of `n_atoi`, in wrapping arithmetic.  A `char` beyond ASCII is no digit, whether it
    is signed or not. -/
def atoiFrom : BitVec 32 → List Byte → BitVec 32
  | val, [] => val
  | val, c :: rest =>
      if c < ofChar '0' ∨ ofChar '9' < c then val
      else atoiFrom (val * 10 + (c.setWidth 32 - 48)) rest

/-- `n_atoi`. -/
def n_atoi (str : Str) : BitVec 32 :=
  match str.chars with
  | c :: rest => if c = ofChar '-' then -atoiFrom 0 rest else atoiFrom 0 (c :: rest)
  | [] => 0

/-! ## Characters put one after the other -/

section

variable {len : Int}

/-- The sink after the characters `e`, of which there was room for `len - 1`. -/
def Sink.after (len : Int) (buff : Nat) (e : List Byte) : Sink :=
  ⟨buff + (e.take (len - 1).toNat).length, e.length, (e.take (len - 1).toNat).zipIdx buff⟩

theorem increment_eq (i j : Int) : increment i = .ok j ↔ i + 1 ≤ INT_MAX ∧ j = i + 1 := by
  unfold increment
  rw [bind_ok]
  constructor
  · rintro ⟨u, hu, hj⟩
    exact ⟨demand_ok.mp hu, (Except.ok.inj hj).symm⟩
  · rintro ⟨hle, rfl⟩
    exact ⟨⟨⟩, demand_ok.mpr hle, rfl⟩

theorem putChar_after {buff : Nat} {e : List Byte} {c : Byte} {s : Sink} :
    putChar len c (.after len buff e) = .ok s ↔
      (e.length : Int) + 1 ≤ INT_MAX ∧ s = .after len buff (e ++ [c]) := by
  have hstep : (if (Sink.after len buff e).result < len - 1 then
      { (Sink.after len buff e).store c with buff := (Sink.after len buff e).buff + 1 }
      else .after len buff e) =
      { Sink.after len buff (e ++ [c]) with result := e.length } := by
    have hresult : (Sink.after len buff e).result = e.length := rfl
    rw [hresult]
    -- Without room the character is counted, and what has been stored stays.
    by_cases hroom : (e.length : Int) < len - 1
    · have htake : e.take (len - 1).toNat = e := List.take_of_length_le (by omega)
      have htake' : (e ++ [c]).take (len - 1).toNat = e ++ [c] := by
        apply List.take_of_length_le
        rw [List.length_append, List.length_singleton]
        omega
      rw [if_pos hroom]
      simp only [Sink.after, Sink.store, htake, htake', List.zipIdx_append, List.length_append,
        List.length_singleton, Nat.add_assoc]
      rfl
    · have htake : (e ++ [c]).take (len - 1).toNat = e.take (len - 1).toNat :=
        List.take_append_of_le_length (by omega)
      rw [if_neg hroom]
      simp only [Sink.after, htake]
  unfold putChar
  dsimp only
  rw [hstep]
  simp only [bind_ok, increment_eq]
  constructor
  · rintro ⟨r, ⟨hle, rfl⟩, hs⟩
    refine ⟨hle, (Except.ok.inj hs).symm.trans ?_⟩
    simp [Sink.after]
  · rintro ⟨hle, rfl⟩
    refine ⟨_, ⟨hle, rfl⟩, ?_⟩
    simp [Sink.after, pure, Except.pure]

theorem putChars_cons (c : Byte) (cs : List Byte) (s : Sink) :
    putChars len (c :: cs) s = putChar len c s >>= putChars len cs := rfl

theorem putChars_append (cs cs' : List Byte) (s : Sink) :
    putChars len (cs ++ cs') s = putChars len cs s >>= putChars len cs' := by
  rw [putChars, List.foldlM_append]
  rfl

theorem putChars_after {buff : Nat} {e cs : List Byte} {s : Sink}
    (he : (e.length : Int) ≤ INT_MAX) :
    putChars len cs (.after len buff e) = .ok s ↔
      ((e ++ cs).length : Int) ≤ INT_MAX ∧ s = .after len buff (e ++ cs) := by
  induction cs generalizing e with
  | nil =>
      rw [List.append_nil]
      constructor
      · intro h
        exact ⟨he, (Except.ok.inj h).symm⟩
      · rintro ⟨-, rfl⟩
        rfl
  | cons c cs ih =>
      have hsplit : e ++ c :: cs = (e ++ [c]) ++ cs := by simp
      rw [putChars_cons, bind_ok, hsplit]
      constructor
      · rintro ⟨s', hc, hcs⟩
        obtain ⟨hle, rfl⟩ := putChar_after.mp hc
        exact (ih (by simpa using hle)).mp hcs
      · rintro ⟨hle, rfl⟩
        have hle' : ((e ++ [c]).length : Int) ≤ INT_MAX := by
          rw [List.length_append] at hle
          omega
        exact ⟨_, putChar_after.mpr ⟨by simpa using hle', rfl⟩, (ih hle').mpr ⟨hle, rfl⟩⟩

@[simp] theorem putChars_nil (s : Sink) : putChars len [] s = .ok s := rfl

theorem putChars_singleton (c : Byte) (s : Sink) : putChars len [c] s = putChar len c s := by
  rw [putChars_cons]
  cases putChar len c s <;> rfl

end

end Nachos.Userlib
