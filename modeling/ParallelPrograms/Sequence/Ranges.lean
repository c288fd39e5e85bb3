import ParallelPrograms.Sequence.Intervals
import Mathlib.Data.Set.Pairwise.Basic
import Mathlib.Order.CompletePartialOrder
import Mathlib.Order.Interval.Set.Disjoint

/-!
# Sets of separate ranges

A set of half-open ranges of which no two have a point in common, whatever they are listed in. A
range that is free can be added to the set.
-/

namespace ParallelPrograms.Sequence

variable {ι α : Type*} [LinearOrder α] (lo hi : ι → α)

/-- The points of a range. -/
def range (x : ι) : Set α := Set.Ico (lo x) (hi x)

/-- No two ranges have a point in common. -/
def Separate (S : Set ι) : Prop := S.PairwiseDisjoint (range lo hi)

/-- No range of the set has a point between `a` and `b`. -/
def Free (S : Set ι) (a b : α) : Prop := ∀ x ∈ S, Disjoint (Set.Ico a b) (range lo hi x)

variable {lo hi} {S : Set ι} {a b : α} {x y : ι} {xs : List ι}

theorem meets_iff (hab : a < b) (hx : lo x < hi x) :
    Meets lo hi a b x ↔ ¬ Disjoint (Set.Ico a b) (range lo hi x) := by
  rw [range, Set.Ico_disjoint_Ico, not_le, max_lt_iff, lt_min_iff, lt_min_iff]
  exact ⟨fun h ↦ ⟨⟨hab, h.2⟩, h.1, hx⟩, fun h ↦ ⟨h.2.1, h.1.2⟩⟩

theorem free_iff (hab : a < b) (hne : ∀ x ∈ S, lo x < hi x) :
    Free lo hi S a b ↔ ∀ x ∈ S, ¬ Meets lo hi a b x :=
  forall₂_congr fun x hx ↦ by rw [meets_iff hab (hne x hx), not_not]

theorem not_free_iff (hab : a < b) (hne : ∀ x ∈ S, lo x < hi x) :
    ¬ Free lo hi S a b ↔ ∃ x ∈ S, Meets lo hi a b x := by
  rw [free_iff hab hne]
  push Not
  rfl

/-- Ranges in ascending order are separate. -/
theorem Apart.separate (h : Apart lo hi xs) : Separate lo hi {x | x ∈ xs} := by
  intro x hx y hy hxy
  by_contra hnot
  obtain ⟨p, hpx, hpy⟩ := Set.not_disjoint_iff.mp hnot
  exact hxy (h.eq_of_contains hx hy hpx hpy)

namespace Separate

theorem insert (h : Separate lo hi S) (hfree : Free lo hi S (lo y) (hi y)) :
    Separate lo hi (insert y S) :=
  Set.PairwiseDisjoint.insert h fun x hx _ ↦ hfree x hx

theorem subset (h : Separate lo hi S) {T : Set ι} (hsub : T ⊆ S) : Separate lo hi T :=
  Set.PairwiseDisjoint.subset h hsub

/-- What lies inside of one range meets no other one. -/
theorem eq_of_meets (h : Separate lo hi S) (hx : x ∈ S) (hy : y ∈ S) (hne : lo y < hi y)
    (hab : a < b) (hlo : lo x ≤ a) (hhi : b ≤ hi x) (hmeets : Meets lo hi a b y) : y = x := by
  by_contra hxy
  refine Set.not_disjoint_iff.mpr ⟨max a (lo y), ?_, ?_⟩ (h hy hx hxy)
  · exact ⟨le_max_right .., max_lt hmeets.2 hne⟩
  · exact ⟨hlo.trans (le_max_left ..), max_lt (hab.trans_le hhi) (hmeets.1.trans_le hhi)⟩

/-- No range of the set ends strictly inside of another one. -/
theorem not_ends_inside (h : Separate lo hi S) (hx : x ∈ S) (hy : y ∈ S) (hne : lo y < hi y) :
    ¬ (lo x < hi y ∧ hi y < hi x) := by
  rintro ⟨hlo, hhi⟩
  have hxy : x ≠ y := by
    rintro rfl
    exact hhi.false
  refine Set.not_disjoint_iff.mpr ⟨max (lo x) (lo y), ?_, ?_⟩ (h hx hy hxy)
  · exact ⟨le_max_left .., max_lt (hlo.trans hhi) (hne.trans hhi)⟩
  · exact ⟨le_max_right .., max_lt hlo hne⟩

end Separate

end ParallelPrograms.Sequence
