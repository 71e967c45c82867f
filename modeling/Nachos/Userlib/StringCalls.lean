/-
  Nachos.Userlib.StringCalls

  Programs that call the functions on strings and blocks with arrays of their own.  To such a
  program its arrays are values: a call overwrites a part of one of them, and changes nothing
  else.  The memory does what the values do, over any run of calls for which the strings end
  and the results fit.
-/

import Mathlib
import Nachos.Lib.CharArray
import Nachos.Userlib.Strings

namespace Nachos.Userlib

open Words FlatMemory ArrayFile
open CharArray (string holds_of_mem)

/-- Where the arrays of a program are: they do not overlap, none of them is at `NULL`, and an
    `int` can count the bytes of each. -/
structure Arrays (ι : Type) where
  place : ι → Nat
  size : ι → Nat
  apart : ∀ x y, x ≠ y → place x + size x ≤ place y ∨ place y + size y ≤ place x
  not_null : ∀ x, place x ≠ 0
  small : ∀ x, size x ≤ INDICES

/-- A call on arrays of the program. -/
inductive StringCall (ι : Type) where
  | strcmp (s1 s2 : ι)
  | strcpy (dst src : ι)
  | strlen (s : ι)
  | strcat (dst src : ι)
  | memcmp (s1 s2 : ι) (n : Nat)
  | memcpy (s1 s2 : ι) (n : Nat)
  | memset (s : ι) (c : BitVec 32) (n : Nat)

inductive Result where
  | order (o : Int)
  | pointer (p : Nat)
  | length (n : Nat)
deriving DecidableEq, Repr

namespace StringCall

variable {ι : Type} (signed : Bool) (A : Arrays ι)

/-- The call on the memory. -/
def run : StringCall ι → UserMemory → Option (UserMemory × Result)
  | .strcmp s1 s2, mem =>
      (n_strcmp signed (A.place s1) (A.place s2) mem).map fun o => (mem, .order o)
  | .strcpy dst src, mem =>
      (n_strcpy (A.place dst) (A.place src) mem).map fun x => (x.1, .pointer x.2)
  | .strlen s, mem => (n_strlen (A.place s) mem).map fun n => (mem, .length n)
  | .strcat dst src, mem =>
      (n_strcat (A.place dst) (A.place src) mem).map fun x => (x.1, .pointer x.2)
  | .memcmp s1 s2 n, mem =>
      (n_memcmp (A.place s1) (A.place s2) n mem).map fun o => (mem, .order o)
  | .memcpy s1 s2 n, mem =>
      (n_memcpy (A.place s1) (A.place s2) n mem).map fun x => (x.1, .pointer x.2)
  | .memset s c n, mem => (n_memset (A.place s) c n mem).map fun x => (x.1, .pointer x.2)

/-- The calls, one after the other, with their results. -/
def runAll : List (StringCall ι) → UserMemory → Option (UserMemory × List Result)
  | [], mem => some (mem, [])
  | c :: cs, mem => do
      let (mem, r) ← c.run signed A mem
      let (mem, rs) ← runAll cs mem
      return (mem, r :: rs)

/-! ## Arrays as values -/

variable [DecidableEq ι]

/-- What a call makes of arrays that are values: it overwrites the start of one of them, or
    what stands behind its string. -/
def after (a : ι → List Byte) : StringCall ι → ι → List Byte
  | .strcpy dst src => Function.update a dst (overwrite (a dst) (string (a src) ++ [0]) 0)
  | .strcat dst src =>
      Function.update a dst
        (overwrite (a dst) (string (a src) ++ [0]) (string (a dst)).length)
  | .memcpy s1 s2 n => Function.update a s1 (overwrite (a s1) ((a s2).take n) 0)
  | .memset s c n => Function.update a s (overwrite (a s) (List.replicate n (c.setWidth 8)) 0)
  | _ => a

/-- What it returns. -/
def result (a : ι → List Byte) : StringCall ι → Result
  | .strcmp s1 s2 =>
      .order (order (charLt signed) (string (a s1) ++ [0]) (string (a s2) ++ [0]))
  | .strcpy dst _ => .pointer (A.place dst)
  | .strlen s => .length (string (a s)).length
  | .strcat dst _ => .pointer (A.place dst)
  | .memcmp s1 s2 n => .order (order BitVec.ult ((a s1).take n) ((a s2).take n))
  | .memcpy s1 _ _ => .pointer (A.place s1)
  | .memset s _ _ => .pointer (A.place s)

/-- The strings have an end, and the results fit. -/
def Legal (a : ι → List Byte) : StringCall ι → Prop
  | .strcmp s1 s2 => (0 : Byte) ∈ a s1 ∧ (0 : Byte) ∈ a s2
  | .strcpy dst src => (0 : Byte) ∈ a src ∧ (string (a src)).length < A.size dst
  | .strlen s => (0 : Byte) ∈ a s
  | .strcat dst src => dst ≠ src ∧ (0 : Byte) ∈ a dst ∧ (0 : Byte) ∈ a src ∧
      (string (a dst)).length + (string (a src)).length < A.size dst
  | .memcmp s1 s2 n => n ≤ A.size s1 ∧ n ≤ A.size s2
  | .memcpy s1 s2 n => n ≤ A.size s1 ∧ n ≤ A.size s2
  | .memset s _ n => n ≤ A.size s

def afterAll (a : ι → List Byte) (cs : List (StringCall ι)) : ι → List Byte := cs.foldl after a

def resultAll : (ι → List Byte) → List (StringCall ι) → List Result
  | _, [] => []
  | a, c :: cs => c.result signed A a :: resultAll (c.after a) cs

/-- Each call is legal when it is made. -/
def LegalAll : (ι → List Byte) → List (StringCall ι) → Prop
  | _, [] => True
  | a, c :: cs => c.Legal A a ∧ LegalAll (c.after a) cs

/-- The memory holds the arrays. -/
def Represents (mem : UserMemory) (a : ι → List Byte) : Prop :=
  ∀ x, slice mem (A.place x) (A.size x) = a x

section Refinement

variable {signed A} {mem mem' : UserMemory} {a : ι → List Byte} {x y : ι} {l : List Byte} {p : Nat}

omit [DecidableEq ι] in
theorem Represents.length (h : Represents A mem a) (x : ι) : (a x).length = A.size x := by
  rw [← h x, length_slice]

omit [DecidableEq ι] in
theorem Represents.holds_start (h : Represents A mem a) (hl : l <+: a x) : At mem (A.place x) l := by
  intro i hi
  have hslice : i < (slice mem (A.place x) (A.size x)).length := by
    rw [h x]
    exact Nat.lt_of_lt_of_le hi hl.length_le
  have hpre : l <+: slice mem (A.place x) (A.size x) := by rwa [h x]
  rw [← getElem_slice hslice, hpre.getElem hi]

/-- The string of an array, and its zero. -/
theorem string_spec (h : (0 : Byte) ∈ l) : string l ++ [0] <+: l ∧ (0 : Byte) ∉ string l := by
  obtain ⟨s, hholds, hs⟩ := holds_of_mem h
  rw [hholds.string hs]
  obtain ⟨rest, rfl⟩ := hholds
  exact ⟨⟨rest, by rw [List.append_assoc, List.singleton_append]⟩, hs⟩

/-- A store in one array. -/
theorem Represents.put (h : Represents A mem a) (hp : p + l.length ≤ A.size x) :
    Represents A (put mem (A.place x + p) l) (Function.update a x (overwrite (a x) l p)) := by
  intro y
  by_cases hy : y = x
  · subst hy
    rw [slice_put hp, h y, Function.update_self]
  · rw [Function.update_of_ne hy, ← h y]
    refine slice_put_apart ?_
    rcases A.apart y x hy with hle | hle
    · exact Or.inl (by omega)
    · exact Or.inr (by omega)

/-- What is outside of the arrays has not changed. -/
def Spares (A : Arrays ι) (mem mem' : UserMemory) : Prop :=
  ∀ p, (∀ x, p < A.place x ∨ A.place x + A.size x ≤ p) → mem' p = mem p

omit [DecidableEq ι] in
theorem spares_put (hp : p + l.length ≤ A.size x) : Spares A mem (put mem (A.place x + p) l) := by
  intro q hq
  refine put_outside ?_
  rcases hq x with hlt | hle
  · exact Or.inl (by omega)
  · exact Or.inr (by omega)

omit [DecidableEq ι] in
theorem Spares.refl (mem : UserMemory) : Spares A mem mem := fun _ _ => rfl

omit [DecidableEq ι] in
theorem Spares.trans {mem'' : UserMemory} (h : Spares A mem mem') (h' : Spares A mem' mem'') :
    Spares A mem mem'' := fun p hp => (h' p hp).trans (h p hp)

omit [DecidableEq ι] in
/-- From one array to another, and within one when it goes down, a loop may go forward. -/
theorem forward_of_fits {n : Nat} (hx : p + n ≤ A.size x) (hy : n ≤ A.size y)
    (hxy : x = y → p = 0) : Forward (A.place x + p) (A.place y) n := by
  by_cases h : x = y
  · subst h
    exact Or.inl (by rw [hxy rfl]; exact Nat.le_refl _)
  · rcases A.apart x y h with hle | hle
    · exact Or.inl (by omega)
    · exact Or.inr (by omega)

/-- What one call does. -/
def Correct (signed : Bool) (A : Arrays ι) (a : ι → List Byte) (mem : UserMemory)
    (c : StringCall ι) : Prop :=
  ∃ mem', c.run signed A mem = some (mem', c.result signed A a) ∧
    Represents A mem' (c.after a) ∧ Spares A mem mem'

omit [DecidableEq ι] in
/-- The string of an array is found there, and it is not too long. -/
theorem Represents.string_at (h : Represents A mem a) (hx : (0 : Byte) ∈ a x) :
    At mem (A.place x) (string (a x) ++ [0]) ∧ (0 : Byte) ∉ string (a x) ∧
      (string (a x)).length < A.size x := by
  obtain ⟨hpre, hzero⟩ := string_spec hx
  refine ⟨h.holds_start hpre, hzero, ?_⟩
  have hle := hpre.length_le
  rw [List.length_append, List.length_singleton, h.length x] at hle
  exact hle

omit [DecidableEq ι] in
theorem Represents.n_strlen (h : Represents A mem a) (hx : (0 : Byte) ∈ a x) :
    n_strlen (A.place x) mem = some (string (a x)).length := by
  obtain ⟨hat, hzero, hlt⟩ := h.string_at hx
  have hsmall := A.small x
  have hloop : strlenLoop mem (A.place x) SIZES 0 = some (0 + (string (a x)).length) := by
    refine strlenLoop_eq hzero hat ?_
    unfold SIZES
    unfold INDICES at hsmall
    omega
  rwa [Nat.zero_add] at hloop

theorem correct_strcmp {s1 s2 : ι} (h : Represents A mem a)
    (hlegal : (StringCall.strcmp s1 s2).Legal A a) : Correct signed A a mem (.strcmp s1 s2) := by
  obtain ⟨hat₁, hzero₁, hlt⟩ := h.string_at hlegal.1
  obtain ⟨hat₂, hzero₂, -⟩ := h.string_at hlegal.2
  have hloop : n_strcmp signed (A.place s1) (A.place s2) mem =
      some (order (charLt signed) (string (a s1) ++ [0]) (string (a s2) ++ [0])) :=
    strcmpLoop_eq hzero₁ hzero₂ hat₁ hat₂ (Nat.lt_of_lt_of_le hlt (A.small s1))
  exact ⟨mem, by rw [run, hloop]; rfl, h, Spares.refl mem⟩

theorem correct_strlen {s : ι} (h : Represents A mem a) (hlegal : (StringCall.strlen s).Legal A a) :
    Correct signed A a mem (.strlen s) :=
  ⟨mem, by rw [run, h.n_strlen hlegal]; rfl, h, Spares.refl mem⟩

theorem correct_strcpy {dst src : ι} (h : Represents A mem a)
    (hlegal : (StringCall.strcpy dst src).Legal A a) :
    Correct signed A a mem (.strcpy dst src) := by
  obtain ⟨hat, hzero, hlt⟩ := h.string_at hlegal.1
  have hfits : 0 + (string (a src) ++ [0]).length ≤ A.size dst := by
    rw [List.length_append, List.length_singleton]
    have := hlegal.2
    omega
  have hforward : Forward (A.place dst + 0) (A.place src) ((string (a src)).length + 1) := by
    rw [List.length_append, List.length_singleton] at hfits
    exact forward_of_fits hfits hlt (fun _ => rfl)
  have hloop : strcpyLoop (A.place dst) (A.place src) INDICES ([] : List Byte).length
      (put mem (A.place dst) []) = some (put mem (A.place dst) ([] ++ (string (a src) ++ [0]))) :=
    strcpyLoop_eq hzero hat (by rwa [List.length_nil, Nat.zero_add])
      (Nat.lt_of_lt_of_le hlt (A.small src))
  rw [put_nil, List.nil_append, List.length_nil] at hloop
  refine ⟨put mem (A.place dst + 0) (string (a src) ++ [0]), ?_, h.put hfits, spares_put hfits⟩
  rw [run, n_strcpy, if_pos ⟨A.not_null dst, A.not_null src⟩, hloop]
  rfl

theorem correct_strcat {dst src : ι} (h : Represents A mem a)
    (hlegal : (StringCall.strcat dst src).Legal A a) :
    Correct signed A a mem (.strcat dst src) := by
  obtain ⟨hne, hdst, hsrc, hroom⟩ := hlegal
  obtain ⟨hat, -, hlt⟩ := h.string_at hsrc
  have hfits : (string (a dst)).length + (string (a src) ++ [0]).length ≤ A.size dst := by
    rw [List.length_append, List.length_singleton]
    omega
  have hforward : Forward (A.place dst + (string (a dst)).length) (A.place src)
      (string (a src) ++ [0]).length := by
    refine forward_of_fits hfits ?_ (fun heq => absurd heq hne)
    rw [List.length_append, List.length_singleton]
    exact hlt
  have hcopy : storeLoop (A.place dst)
      (fun mem k => mem (A.place src + (k - (string (a dst)).length)))
      (string (a src) ++ [0]).length (string (a dst)).length mem =
        put mem (A.place dst + (string (a dst)).length) (string (a src) ++ [0]) :=
    storeLoop_copy (fun mem k => by rw [Nat.add_sub_cancel_left]) hat hforward
  rw [List.length_append, List.length_singleton] at hcopy
  have hindex : (string (a dst)).length + (string (a src)).length + 1 ≤ INDICES :=
    Nat.le_trans hroom (A.small dst)
  refine ⟨_, ?_, h.put hfits, spares_put hfits⟩
  rw [run, n_strcat, h.n_strlen hdst, h.n_strlen hsrc]
  simp only [Option.bind_eq_bind, Option.bind_some, if_pos hindex, hcopy]
  rfl

omit [DecidableEq ι] in
/-- The first bytes of an array are found there. -/
theorem Represents.take_at (h : Represents A mem a) (x : ι) (n : Nat) :
    At mem (A.place x) ((a x).take n) := by
  have hpre : (a x).take n <+: a x := List.take_prefix n (a x)
  exact h.holds_start hpre

theorem correct_memcmp {s1 s2 : ι} {n : Nat} (h : Represents A mem a)
    (hlegal : (StringCall.memcmp s1 s2 n).Legal A a) :
    Correct signed A a mem (.memcmp s1 s2 n) := by
  have hlen : ∀ x, n ≤ A.size x → ((a x).take n).length = n := fun x hx =>
    List.length_take_of_le (by rwa [h.length x])
  have hloop : memcmpLoop mem (A.place s1) (A.place s2) n INDICES 0 =
      some (order BitVec.ult ((a s1).take n) ((a s2).take n)) := by
    refine memcmpLoop_eq ((hlen s1 hlegal.1).trans (hlen s2 hlegal.2).symm) (h.take_at s1 n)
      (h.take_at s2 n) ?_ ?_
    · rw [hlen s1 hlegal.1, Nat.zero_add]
    · rw [hlen s1 hlegal.1]
      exact Nat.le_trans hlegal.1 (A.small s1)
  exact ⟨mem, by rw [run, n_memcmp, hloop]; rfl, h, Spares.refl mem⟩

theorem correct_memcpy {s1 s2 : ι} {n : Nat} (h : Represents A mem a)
    (hlegal : (StringCall.memcpy s1 s2 n).Legal A a) :
    Correct signed A a mem (.memcpy s1 s2 n) := by
  have hlen : ((a s2).take n).length = n := by
    refine List.length_take_of_le ?_
    rw [h.length]
    exact hlegal.2
  have hfits : 0 + ((a s2).take n).length ≤ A.size s1 := by
    rw [hlen, Nat.zero_add]
    exact hlegal.1
  have hforward : Forward (A.place s1 + 0) (A.place s2) ((a s2).take n).length := by
    refine forward_of_fits hfits ?_ (fun _ => rfl)
    rw [hlen]
    exact hlegal.2
  have hcopy : storeLoop (A.place s1) (fun mem i => mem (A.place s2 + i)) ((a s2).take n).length 0
      mem = put mem (A.place s1 + 0) ((a s2).take n) :=
    storeLoop_copy (fun mem k => by rw [Nat.zero_add]) (h.take_at s2 n) hforward
  rw [hlen] at hcopy
  refine ⟨_, ?_, h.put hfits, spares_put hfits⟩
  rw [run, n_memcpy, if_pos ⟨A.not_null s1, A.not_null s2⟩,
    if_pos (Nat.le_trans hlegal.1 (A.small s1)), hcopy]
  rfl

theorem correct_memset {s : ι} {c : BitVec 32} {n : Nat} (h : Represents A mem a)
    (hlegal : (StringCall.memset s c n).Legal A a) :
    Correct signed A a mem (.memset s c n) := by
  have hfits : 0 + (List.replicate n (c.setWidth 8)).length ≤ A.size s := by
    rw [List.length_replicate, Nat.zero_add]
    exact hlegal
  have hstore : storeLoop (A.place s) (fun _ _ => c.setWidth 8)
      (List.replicate n (c.setWidth 8)).length (0 + ([] : List Byte).length)
      (put mem (A.place s + 0) []) =
        put mem (A.place s + 0) ([] ++ List.replicate n (c.setWidth 8)) :=
    storeLoop_eq fun k _ => (List.getElem_replicate _).symm
  rw [put_nil, List.nil_append, List.length_nil, List.length_replicate] at hstore
  refine ⟨_, ?_, h.put hfits, spares_put hfits⟩
  rw [run, n_memset, if_pos (Nat.le_trans hlegal (A.small s)), hstore]
  rfl

/-- Every legal call does to the arrays what it does to their values. -/
theorem Represents.correct (h : Represents A mem a) {c : StringCall ι} (hlegal : c.Legal A a) :
    Correct signed A a mem c := by
  cases c with
  | strcmp s1 s2 => exact correct_strcmp h hlegal
  | strcpy dst src => exact correct_strcpy h hlegal
  | strlen s => exact correct_strlen h hlegal
  | strcat dst src => exact correct_strcat h hlegal
  | memcmp s1 s2 n => exact correct_memcmp h hlegal
  | memcpy s1 s2 n => exact correct_memcpy h hlegal
  | memset s c n => exact correct_memset h hlegal

end Refinement

/-- **The arrays of a program are values.**  Whatever legal calls a program makes, the memory
    holds after them what they make of the arrays as values, every call has returned what it
    returns on the values, and outside of the arrays nothing has changed. -/
theorem strings_refine_values {mem : UserMemory} {a : ι → List Byte} (h : Represents A mem a)
    {cs : List (StringCall ι)} (hlegal : LegalAll A a cs) :
    ∃ mem', runAll signed A cs mem = some (mem', resultAll signed A a cs) ∧
      Represents A mem' (afterAll a cs) ∧ Spares A mem mem' := by
  induction cs generalizing mem a with
  | nil => exact ⟨mem, rfl, h, Spares.refl mem⟩
  | cons c cs ih =>
      obtain ⟨mem₁, hrun, hrep, hspares⟩ : Correct signed A a mem c := h.correct hlegal.1
      obtain ⟨mem₂, hruns, hreps, hrest⟩ := ih hrep hlegal.2
      refine ⟨mem₂, ?_, hreps, hspares.trans hrest⟩
      rw [runAll, hrun]
      simp only [Option.bind_eq_bind, Option.bind_some, hruns]
      rfl

/-- Two arrays of eight bytes. -/
def twoArrays : Arrays Bool where
  place x := if x then 32 else 16
  size _ := 8
  apart x y h := by cases x <;> cases y <;> simp_all
  not_null x := by cases x <;> decide
  small _ := by decide

/-- `hi` is in the second array. -/
def hiMemory : UserMemory := fun p => if p = 32 then 104 else if p = 33 then 105 else 0

theorem strings_refine_values_hi :
    ∃ mem', runAll true twoArrays
        [.strcpy false true, .strcat false true, .strlen false, .strcmp false true] hiMemory =
          some (mem', [.pointer 16, .pointer 16, .length 4, .order 1]) ∧
      Represents twoArrays mem' (afterAll (fun x => slice hiMemory (twoArrays.place x) 8)
        [.strcpy false true, .strcat false true, .strlen false, .strcmp false true]) ∧
      Spares twoArrays hiMemory mem' :=
  strings_refine_values true twoArrays (fun _ => rfl)
    ⟨⟨by decide, by decide⟩, ⟨by decide, by decide, by decide, by decide⟩,
      show (0 : Byte) ∈ _ by decide, ⟨by decide, by decide⟩, trivial⟩

end StringCall

end Nachos.Userlib
