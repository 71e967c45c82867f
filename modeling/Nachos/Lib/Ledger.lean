/-
  Nachos.Lib.Ledger

  A table of named counters.  Each name has at most one entry, and an entry counts
  the uses of its name; a name without an entry is not in use.  The lemmas are the
  changes that keep the table in agreement with the uses: an entry is replaced, it
  counts one use more or less, it is entered with the first use, or it is taken
  out after the last one.
-/

import Mathlib.Logic.Function.Basic

namespace Ledger

variable {ι ε ν : Type*}

/-- The table `entries` agrees with the numbers of uses. -/
structure Sound (name : ε → ν) (count : ε → Int) (entries : ι → Option ε) (uses : ν → Nat) :
    Prop where
  unique : ∀ {i j e e'}, entries i = some e → entries j = some e' → name e = name e' → i = j
  counted : ∀ {i e}, entries i = some e → count e = uses (name e)
  unused : ∀ {n}, (∀ i e, entries i = some e → name e ≠ n) → uses n = 0

namespace Sound

variable {name : ε → ν} {count : ε → Int} {entries entries' : ι → Option ε} {uses : ν → Nat}

theorem empty : Sound name count (fun _ : ι => none) fun _ => 0 :=
  ⟨fun h => (nomatch h), fun h => (nomatch h), fun _ => rfl⟩

/-- Entries are replaced by others of the same name and count. -/
theorem replace (h : Sound name count entries uses)
    (hto : ∀ i e, entries i = some e → ∃ e', entries' i = some e' ∧ name e' = name e)
    (hof : ∀ i e', entries' i = some e' →
      ∃ e, entries i = some e ∧ name e' = name e ∧ count e' = count e) :
    Sound name count entries' uses where
  unique := by
    intro i j e e' hi hj heq
    obtain ⟨f, hf, hname, -⟩ := hof i e hi
    obtain ⟨f', hf', hname', -⟩ := hof j e' hj
    exact h.unique hf hf' (hname.symm.trans (heq.trans hname'))
  counted := by
    intro i e hi
    obtain ⟨f, hf, hname, hcount⟩ := hof i e hi
    rw [hcount, hname]
    exact h.counted hf
  unused := by
    intro n hn
    refine h.unused fun i e hi => ?_
    obtain ⟨e', he', hname⟩ := hto i e hi
    exact hname ▸ hn i e' he'

variable [DecidableEq ι] [DecidableEq ν]

/-- The count of an entry and the uses of its name change alike. -/
theorem recount (h : Sound name count entries uses) {i : ι} {e f : ε} {k : Nat}
    (he : entries i = some e) (hname : name f = name e) (hcount : count f = k) :
    Sound name count (Function.update entries i (some f))
      (Function.update uses (name e) k) where
  unique := by
    intro j j' g g' hj hj' heq
    by_cases hji : j = i
    · by_cases hji' : j' = i
      · exact hji.trans hji'.symm
      · rw [hji, Function.update_self] at hj
        rw [Function.update_of_ne hji'] at hj'
        obtain rfl := Option.some.inj hj
        exact hji.trans (h.unique he hj' (hname.symm.trans heq))
    · rw [Function.update_of_ne hji] at hj
      by_cases hji' : j' = i
      · rw [hji', Function.update_self] at hj'
        obtain rfl := Option.some.inj hj'
        exact (h.unique hj he (heq.trans hname)).trans hji'.symm
      · rw [Function.update_of_ne hji'] at hj'
        exact h.unique hj hj' heq
  counted := by
    intro j g hj
    by_cases hji : j = i
    · rw [hji, Function.update_self] at hj
      obtain rfl := Option.some.inj hj
      rw [hname, Function.update_self, hcount]
    · rw [Function.update_of_ne hji] at hj
      -- Another entry has another name.
      have hne : name g ≠ name e := fun heq => hji (h.unique hj he heq)
      rw [Function.update_of_ne hne]
      exact h.counted hj
  unused := by
    intro n hn
    have hne : n ≠ name e := fun heq =>
      hn i f (Function.update_self _ _ _) (hname.trans heq.symm)
    rw [Function.update_of_ne hne]
    refine h.unused fun j g hj => ?_
    by_cases hji : j = i
    · rw [hji, he] at hj
      obtain rfl := Option.some.inj hj
      exact hne.symm
    · exact hn j g (by rwa [Function.update_of_ne hji])

/-- A first use, with an entry in a free slot. -/
theorem enter (h : Sound name count entries uses) {i : ι} {e : ε} (hi : entries i = none)
    (hnew : ∀ j f, entries j = some f → name f ≠ name e) (hcount : count e = 1) :
    Sound name count (Function.update entries i (some e))
      (Function.update uses (name e) (uses (name e) + 1)) where
  unique := by
    intro j j' f f' hj hj' heq
    -- The new entry has a name of its own.
    by_cases hji : j = i
    · by_cases hji' : j' = i
      · exact hji.trans hji'.symm
      · rw [hji, Function.update_self] at hj
        rw [Function.update_of_ne hji'] at hj'
        obtain rfl := Option.some.inj hj
        exact absurd heq.symm (hnew j' f' hj')
    · rw [Function.update_of_ne hji] at hj
      by_cases hji' : j' = i
      · rw [hji', Function.update_self] at hj'
        obtain rfl := Option.some.inj hj'
        exact absurd heq (hnew j f hj)
      · rw [Function.update_of_ne hji'] at hj'
        exact h.unique hj hj' heq
  counted := by
    intro j f hj
    by_cases hji : j = i
    · rw [hji, Function.update_self] at hj
      obtain rfl := Option.some.inj hj
      rw [Function.update_self, h.unused hnew, hcount]
      rfl
    · rw [Function.update_of_ne hji] at hj
      rw [Function.update_of_ne (hnew j f hj)]
      exact h.counted hj
  unused := by
    intro n hn
    have hne : n ≠ name e := fun heq => hn i e (Function.update_self _ _ _) heq.symm
    rw [Function.update_of_ne hne]
    refine h.unused fun j f hj => hn j f ?_
    have hji : j ≠ i := by
      rintro rfl
      exact nomatch hi.symm.trans hj
    rwa [Function.update_of_ne hji]

/-- An entry that counts no use is taken out. -/
theorem takeOut (h : Sound name count entries uses) {i : ι} {e : ε} (he : entries i = some e)
    (hcount : count e = 0) : Sound name count (Function.update entries i none) uses := by
  have hof : ∀ {j f}, Function.update entries i none j = some f → entries j = some f := by
    intro j f hj
    by_cases hji : j = i
    · rw [hji, Function.update_self] at hj
      exact nomatch hj
    · rwa [Function.update_of_ne hji] at hj
  refine ⟨fun hj hj' => h.unique (hof hj) (hof hj'), fun hj => h.counted (hof hj), ?_⟩
  intro n hn
  by_cases heq : name e = n
  · have hzero := h.counted he
    rw [hcount, heq] at hzero
    omega
  · refine h.unused fun j f hj hname => ?_
    have hji : j ≠ i := by
      rintro rfl
      obtain rfl := Option.some.inj (he.symm.trans hj)
      exact heq hname
    exact hn j f (by rwa [Function.update_of_ne hji]) hname

end Sound

end Ledger
