import Mathlib.Data.List.Pairwise
import Mathlib.Data.List.Sort
import Mathlib.Order.Lattice

/-!
# Lists of separate intervals

Half-open intervals from `lo` to `hi` in ascending order, each of which ends before the next one
starts. A range that meets none of them cuts the list in two, and it can be inserted there.
-/

namespace ParallelPrograms.Sequence

variable {ι α : Type*} [LinearOrder α] (lo hi : ι → α)

/-- In ascending order, one behind the other. -/
def Apart (xs : List ι) : Prop := xs.Pairwise fun x y ↦ hi x ≤ lo y

/-- The interval has a point in common with the range from `a` to `b`, or lies around `a` when the
range is empty. -/
def Meets (a b : α) (x : ι) : Prop := lo x < b ∧ a < hi x

instance (a b : α) (x : ι) : Decidable (Meets lo hi a b x) := inferInstanceAs (Decidable (_ ∧ _))

/-- The range from `a` to `b` lies behind the intervals of `left` and before those of `right`. -/
structure Gap (a b : α) (left right : List ι) : Prop where
  left : ∀ x ∈ left, hi x ≤ a
  right : ∀ x ∈ right, b ≤ lo x

variable {lo hi} {a b : α} {xs left right : List ι} {x y : ι}

theorem Gap.not_meets (h : Gap lo hi a b left right) (hx : x ∈ left ++ right) :
    ¬ Meets lo hi a b x := by
  rcases List.mem_append.mp hx with hx | hx
  · exact fun hmeets ↦ (h.left x hx).not_gt hmeets.2
  · exact fun hmeets ↦ (h.right x hx).not_gt hmeets.1

/-- Every point cuts the list: the intervals that end at it or before come first. -/
theorem Apart.exists_cut (h : Apart lo hi xs) (hne : ∀ x ∈ xs, lo x < hi x) (a : α) :
    ∃ left right, xs = left ++ right ∧ (∀ x ∈ left, hi x ≤ a) ∧ ∀ x ∈ right, a < hi x := by
  induction xs with
  | nil => exact ⟨[], [], rfl, by simp, by simp⟩
  | cons x xs ih =>
    obtain ⟨hhead, htail⟩ := List.pairwise_cons.mp h
    rcases le_or_gt (hi x) a with hbefore | hafter
    · obtain ⟨left, right, rfl, hleft, hright⟩ :=
        ih htail fun y hy ↦ hne y (List.mem_cons_of_mem _ hy)
      exact ⟨x :: left, right, rfl, List.forall_mem_cons.mpr ⟨hbefore, hleft⟩, hright⟩
    · refine ⟨[], x :: xs, rfl, by simp, List.forall_mem_cons.mpr ⟨hafter, fun y hy ↦ ?_⟩⟩
      exact (hafter.trans_le (hhead y hy)).trans (hne y (List.mem_cons_of_mem _ hy))

/-- Intervals that are not empty start at different points. -/
theorem Apart.ascending (h : Apart lo hi xs) (hne : ∀ x ∈ xs, lo x < hi x) :
    xs.Pairwise fun x y ↦ lo x < lo y :=
  h.imp_of_mem fun hx _ hle ↦ (hne _ hx).trans_le hle

theorem Apart.nodup (h : Apart lo hi xs) (hne : ∀ x ∈ xs, lo x < hi x) : xs.Nodup := by
  refine (h.ascending hne).imp fun hlt heq ↦ ?_
  rw [heq] at hlt
  exact hlt.false

/-- Only one list has the intervals in this order. -/
theorem Apart.eq_of_mem_iff {ys : List ι} (h : Apart lo hi xs) (h' : Apart lo hi ys)
    (hne : ∀ x ∈ xs, lo x < hi x) (hne' : ∀ y ∈ ys, lo y < hi y) (hmem : ∀ x, x ∈ xs ↔ x ∈ ys) :
    xs = ys := by
  have : Std.Antisymm fun x y : ι ↦ lo x < lo y := ⟨fun _ _ hlt hgt ↦ absurd hgt hlt.asymm⟩
  have : Std.Irrefl fun x y : ι ↦ lo x < lo y := ⟨fun _ ↦ lt_irrefl _⟩
  exact (h.ascending hne).eq_of_mem_iff (h'.ascending hne') hmem

/-- Insert an interval in a gap. -/
theorem Apart.insert (h : Apart lo hi (left ++ right)) (hgap : Gap lo hi (lo y) (hi y) left right) :
    Apart lo hi (left ++ y :: right) := by
  obtain ⟨hleft, hright, hcross⟩ := List.pairwise_append.mp h
  refine List.pairwise_append.mpr ⟨hleft, List.pairwise_cons.mpr ⟨hgap.right, hright⟩, ?_⟩
  intro x hx z hz
  rcases List.mem_cons.mp hz with rfl | hz
  · exact hgap.left x hx
  · exact hcross x hx z hz

/-- Two intervals of the list that contain a point are the same. -/
theorem Apart.eq_of_contains (h : Apart lo hi xs) (hx : x ∈ xs) (hy : y ∈ xs) {p : α}
    (hxp : lo x ≤ p ∧ p < hi x) (hyp : lo y ≤ p ∧ p < hi y) : x = y := by
  obtain ⟨before, after, rfl⟩ := List.append_of_mem hx
  obtain ⟨-, hafter, hcross⟩ := List.pairwise_append.mp h
  rcases List.mem_append.mp hy with hy | hy
  · have hle := hcross y hy x List.mem_cons_self
    exact absurd (hle.trans hxp.1) hyp.2.not_ge
  · rcases List.mem_cons.mp hy with rfl | hy
    · rfl
    · have hle := (List.pairwise_cons.mp hafter).1 y hy
      exact absurd (hle.trans hyp.1) hxp.2.not_ge

end ParallelPrograms.Sequence
