/-
  Nachos.Userlib.Format

  What a format stands for: it is cut into pieces, each a character or a place for
  an argument, and the pieces are written one after the other.  A number is written
  by its digits, the most significant one first.
-/

import Mathlib.Tactic.IntervalCases
import Nachos.Lib.Words

namespace Nachos.Userlib

open Words

/-- The code of an ASCII character. -/
def ofChar (c : Char) : Byte := BitVec.ofNat 8 c.toNat

/-- A string: the characters before its terminating zero. -/
structure Str where
  chars : List Byte
  ne_zero : ∀ c ∈ chars, c ≠ 0

/-- An argument of a function with a variable number of them. -/
inductive Arg where
  | int (v : BitVec 32)
  /-- `none` for `NULL`. -/
  | string (s : Option Str)

inductive Piece where
  | literal (c : Byte)
  | integer
  | character
  | string
  | hexadecimal
  | float

/-- The pieces for a `%` with the character `d` behind it. -/
def directivePieces (d : Byte) : List Piece :=
  if d = ofChar '%' then [.literal (ofChar '%')]
  else if d = ofChar 'i' ∨ d = ofChar 'd' then [.integer]
  else if d = ofChar 'c' then [.character]
  else if d = ofChar 's' then [.string]
  else if d = ofChar 'x' then [.hexadecimal]
  else if d = ofChar 'f' then [.float]
  else [.literal (ofChar '%'), .literal d]

def pieces : List Byte → List Piece
  | [] => []
  | c :: rest =>
      if c = ofChar '%' then
        match rest with
        | [] => [.literal c]
        | d :: rest => directivePieces d ++ pieces rest
      else .literal c :: pieces rest

/-- The last character is a `%` with nothing behind it. -/
def Dangling : List Byte → Prop
  | [] => False
  | c :: rest =>
      if c = ofChar '%' then
        match rest with
        | [] => True
        | _ :: rest => Dangling rest
      else Dangling rest

/-- There is an argument of the right kind for each place; none is a floating point number. -/
def Matches : List Piece → List Arg → Prop
  | [], _ => True
  | .literal _ :: ps, args => Matches ps args
  | .integer :: ps, .int _ :: args => Matches ps args
  | .character :: ps, .int _ :: args => Matches ps args
  | .hexadecimal :: ps, .int _ :: args => Matches ps args
  | .string :: ps, .string _ :: args => Matches ps args
  | _ :: _, _ => False

def digits (base n : Nat) : List Byte := (Nat.toDigits base n).map ofChar

def decimal (v : Int) : List Byte :=
  (if v < 0 then [ofChar '-'] else []) ++ digits 10 v.natAbs

def stringOf : Option Str → List Byte
  | some s => s.chars
  | none => ['(', 'n', 'u', 'l', 'l', ')'].map ofChar

/-- The characters for the pieces with their arguments. -/
def expand : List Piece → List Arg → List Byte
  | [], _ => []
  | .literal c :: ps, args => c :: expand ps args
  | .integer :: ps, .int v :: args => decimal v.toInt ++ expand ps args
  | .character :: ps, .int v :: args => v.setWidth 8 :: expand ps args
  | .hexadecimal :: ps, .int v :: args => digits 16 v.toNat ++ expand ps args
  | .string :: ps, .string s :: args => stringOf s ++ expand ps args
  | _ :: _, _ => []

/-! ## Digits -/

theorem digits_of_lt {base n : Nat} (h : n < base) : digits base n = [ofChar n.digitChar] := by
  rw [digits, Nat.toDigits_of_lt_base h, List.map_singleton]

/-- One digit more. -/
theorem digits_append {base n d : Nat} (hbase : 1 < base) (hn : 0 < n) (hd : d < base) :
    digits base (base * n + d) = digits base n ++ [ofChar d.digitChar] := by
  rw [digits, ← Nat.toDigits_append_toDigits hbase hn hd, Nat.toDigits_of_lt_base hd,
    List.map_append, List.map_singleton, digits]

theorem ofChar_digitChar {d : Nat} (h : d < 10) :
    ofChar d.digitChar = BitVec.ofNat 8 (48 + d) := by
  interval_cases d <;> rfl

theorem ofChar_hexChar {d : Nat} (h : 10 ≤ d) (h' : d < 16) :
    ofChar d.digitChar = BitVec.ofNat 8 (97 + (d - 10)) := by
  interval_cases d <;> rfl

theorem length_digits_le {n k : Nat} (hk : 0 < k) (h : n < 10 ^ k) : (digits 10 n).length ≤ k := by
  rw [digits, List.length_map]
  exact (Nat.length_toDigits_le_iff (by decide) hk).mpr h

end Nachos.Userlib
