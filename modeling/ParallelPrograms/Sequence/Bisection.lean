import Mathlib.Data.Int.Notation
import Mathlib.Data.Nat.Notation
import Mathlib.Data.Sum.Basic

/-!
# Bisection with a three-way test

A loop that narrows a range of positions by the answer for the middle one, and stops where the
answer is `eq`. When the answers are in ascending order, a loop that finds no such position ends
where the answers change from `lt` to `gt`. The bounds are integers, because the upper one may get
below the first position.
-/

namespace ParallelPrograms.Sequence

/-- Narrow `low .. high` until a position answers `eq`, or until nothing is left. -/
def bisect (answer : ℕ → Ordering) (low high : ℤ) : ℕ ⊕ ℕ :=
  if low ≤ high then
    match answer (low + (high - low) / 2).toNat with
    | .lt => bisect answer (low + (high - low) / 2 + 1) high
    | .gt => bisect answer low (low + (high - low) / 2 - 1)
    | .eq => .inl (low + (high - low) / 2).toNat
  else .inr low.toNat
termination_by (high + 1 - low).toNat

/-- The answers for the positions below `count` ascend. -/
structure Ascending (answer : ℕ → Ordering) (count : ℕ) : Prop where
  lt_of_lt : ∀ i j, i ≤ j → j < count → answer j = .lt → answer i = .lt
  gt_of_gt : ∀ i j, i ≤ j → j < count → answer i = .gt → answer j = .gt

/-- What a bisection finds among the positions below `count`. -/
inductive Bisected (answer : ℕ → Ordering) (count : ℕ) : ℕ ⊕ ℕ → Prop where
  | found (i : ℕ) (hi : i < count) (heq : answer i = .eq) : Bisected answer count (.inl i)
  | passed (i : ℕ) (hi : i ≤ count) (hlt : ∀ j < i, answer j = .lt)
      (hgt : ∀ j < count, i ≤ j → answer j = .gt) : Bisected answer count (.inr i)

/-- **The loop**, with the positions outside of its bounds already decided. -/
theorem bisect_spec {answer : ℕ → Ordering} {count : ℕ} (hasc : Ascending answer count)
    (low high : ℤ) (hlow : 0 ≤ low) (hbounds : low ≤ high + 1) (hhigh : high < count)
    (hlt : ∀ j : ℕ, (j : ℤ) < low → answer j = .lt)
    (hgt : ∀ j : ℕ, j < count → high < j → answer j = .gt) :
    Bisected answer count (bisect answer low high) := by
  fun_induction bisect with
  | case1 low high hle hanswer ih =>
    apply ih (by omega) (by omega) hhigh (fun j hj ↦ ?_) hgt
    exact hasc.lt_of_lt j _ (by omega) (by omega) hanswer
  | case2 low high hle hanswer ih =>
    apply ih hlow (by omega) (by omega) hlt (fun j hj hmid ↦ ?_)
    exact hasc.gt_of_gt _ j (by omega) hj hanswer
  | case3 low high hle hanswer => exact .found _ (by omega) hanswer
  | case4 low high hle =>
    exact .passed _ (by omega) (fun j hj ↦ hlt j (by omega))
      fun j hj hij ↦ hgt j hj (by omega)

/-- The whole range. -/
theorem bisect_all {answer : ℕ → Ordering} {count : ℕ} (hasc : Ascending answer count) :
    Bisected answer count (bisect answer 0 (count - 1)) :=
  bisect_spec hasc 0 (count - 1) (by omega) (by omega) (by omega) (fun j hj ↦ by omega)
    fun j hj hhigh ↦ by omega

end ParallelPrograms.Sequence
