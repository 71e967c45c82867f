/-
  Nachos.Lib.Region

  Ranges of integers that are handed out one after the other.  Each new range begins at or
  after the bound of those before it, so they never overlap.
-/

import Mathlib.Data.List.Pairwise

/-- The `size` numbers from `first` on. -/
@[ext]
structure Region where
  first : Int
  size : Int
deriving DecidableEq, Repr

namespace Region

/-- The number is in the region. -/
def Has (r : Region) (x : Int) : Prop := r.first ≤ x ∧ x < r.first + r.size

instance (r : Region) (x : Int) : Decidable (r.Has x) := inferInstanceAs (Decidable (_ ∧ _))

/-- No number is in both regions. -/
def Disjoint (r s : Region) : Prop := ∀ x, r.Has x → ¬ s.Has x

theorem Disjoint.symm {r s : Region} (h : r.Disjoint s) : s.Disjoint r :=
  fun x hs hr => h x hr hs

/-- One region ends before the other begins. -/
theorem disjoint_of_le {r s : Region} (h : r.first + r.size ≤ s.first) : r.Disjoint s := by
  rintro x ⟨-, hlt⟩ ⟨hle, -⟩
  omega

variable {hi hi' : Int} {rs rs' : List Region} {r : Region}

/-- The regions do not overlap, and end at or before `hi`. -/
structure Packed (hi : Int) (rs : List Region) : Prop where
  disjoint : rs.Pairwise Disjoint
  below : ∀ r ∈ rs, r.first + r.size ≤ hi

namespace Packed

theorem nil : Packed hi [] := ⟨List.Pairwise.nil, nofun⟩

theorem mono (h : Packed hi rs) (hle : hi ≤ hi') : Packed hi' rs :=
  ⟨h.disjoint, fun r hr => Int.le_trans (h.below r hr) hle⟩

/-- The order in which the regions are listed does not matter. -/
theorem perm (h : Packed hi rs) (hp : rs.Perm rs') : Packed hi rs' :=
  ⟨(hp.pairwise_iff Disjoint.symm).mp h.disjoint,
    fun r hr => h.below r (hp.mem_iff.mpr hr)⟩

theorem of_sublist (h : Packed hi rs) (hs : rs'.Sublist rs) : Packed hi rs' :=
  ⟨h.disjoint.sublist hs, fun r hr => h.below r (hs.subset hr)⟩

/-- One more region, from the bound on. -/
theorem cons (h : Packed hi rs) (hfirst : hi ≤ r.first) (hlast : r.first + r.size ≤ hi')
    (hle : hi ≤ hi') : Packed hi' (r :: rs) where
  disjoint := List.pairwise_cons.mpr
    ⟨fun s hs => (disjoint_of_le (Int.le_trans (h.below s hs) hfirst)).symm, h.disjoint⟩
  below s hs := by
    rcases List.mem_cons.mp hs with rfl | hs
    · exact hlast
    · exact Int.le_trans (h.below s hs) hle

/-- A number is in one region at most, whatever the regions belong to. -/
theorem eq_of_has {α : Type*} {l : List α} {region : α → Region} {a b : α} {x : Int}
    (h : Packed hi (l.map region)) (ha : a ∈ l) (hb : b ∈ l) (hax : (region a).Has x)
    (hbx : (region b).Has x) : a = b := by
  by_contra hne
  have hsymm : Std.Symm fun a b => (region a).Disjoint (region b) := ⟨fun _ _ hab => hab.symm⟩
  exact (List.pairwise_map.mp h.disjoint).forall ha hb hne x hax hbx

end Packed

end Region
