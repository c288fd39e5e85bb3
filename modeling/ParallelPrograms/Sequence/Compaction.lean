import Mathlib.Data.List.Count
import Mathlib.Data.List.Perm.Basic
import Mathlib.Tactic.Ring

/-!
# Removing elements by moving the last one into their place

A sweep over an array that fills the place of every element it removes with the element that is
last at that moment. What ends up in the part that remains is described by `refill`: the removed
elements among the first ones are replaced by elements taken from the end, in reverse order. The
sweep does not look at the elements it has moved, so the result is the array without the removed
elements only if the elements that were moved were to be kept.
-/

namespace ParallelPrograms.Sequence

variable {α : Type*} (removed : α → Bool)

/-- Replace the removed elements of `xs`, one after the other, by the elements of `source`. -/
def refill : List α → List α → List α
  | [], _ => []
  | x :: xs, source =>
    if removed x then
      match source with
      | [] => refill xs []
      | y :: source => y :: refill xs source
    else x :: refill xs source

/-- The result consists of the elements that are kept and of the first elements of the source. -/
theorem refill_perm (xs source : List α) :
    (refill removed xs source).Perm
      (xs.filter (fun x ↦ !removed x) ++ source.take (xs.countP removed)) := by
  induction xs generalizing source with
  | nil => simp [refill]
  | cons x xs ih =>
    cases hx : removed x with
    | false => simpa [refill, hx] using ih source
    | true =>
      cases source with
      | nil => simpa [refill, hx] using ih []
      | cons y source =>
        have hperm := calc
          List.Perm (y :: refill removed xs source)
            (y :: (xs.filter (fun x ↦ !removed x) ++ source.take (xs.countP removed))) :=
              (ih source).cons y
          List.Perm _ (xs.filter (fun x ↦ !removed x) ++ y :: source.take (xs.countP removed)) :=
              List.perm_middle.symm
        simpa [refill, hx] using hperm

theorem refill_getElem? (xs source : List α) (hsource : xs.countP removed ≤ source.length)
    (p : ℕ) : (refill removed xs source)[p]? =
      xs[p]?.bind fun x ↦ if removed x then source[(xs.take p).countP removed]? else some x := by
  induction xs generalizing source p with
  | nil => simp [refill]
  | cons x xs ih =>
    cases hx : removed x with
    | false =>
      have hsource' : xs.countP removed ≤ source.length := by simpa [hx] using hsource
      cases p with
      | zero => simp [refill, hx]
      | succ p => simpa [refill, hx] using ih source hsource' p
    | true =>
      cases source with
      | nil => simp [hx] at hsource
      | cons y source =>
        have hsource' : xs.countP removed ≤ source.length := by simpa [hx] using hsource
        cases p with
        | zero => simp [refill, hx]
        | succ p => simpa [refill, hx] using ih source hsource' p

/-- The part that remains after a sweep over `xs`: its first elements, with the removed ones
replaced by elements from the end. -/
def swept (xs : List α) : List α :=
  refill removed (xs.take (xs.length - xs.countP removed)) xs.reverse

/-- The elements that the sweep moves into the part that remains. -/
def moved (xs : List α) : List α :=
  xs.reverse.take ((xs.take (xs.length - xs.countP removed)).countP removed)

/-- The sweep is right exactly when it moves no element that it should have removed. -/
theorem swept_perm_filter_iff (xs : List α) :
    (swept removed xs).Perm (xs.filter fun x ↦ !removed x) ↔
      ∀ x ∈ moved removed xs, removed x = false := by
  obtain ⟨ys, zs, hys, hzs⟩ : ∃ ys zs, ys = xs.take (xs.length - xs.countP removed) ∧
      zs = xs.drop (xs.length - xs.countP removed) := ⟨_, _, rfl, rfl⟩
  have hxs : xs = ys ++ zs := by rw [hys, hzs, List.take_append_drop]
  have hcount : xs.countP removed ≤ xs.length := List.countP_le_length
  have hlength : zs.length = xs.countP removed := by
    rw [hzs, List.length_drop]
    omega
  have hsum : xs.countP removed = ys.countP removed + zs.countP removed := by
    rw [hxs, List.countP_append]
  -- as many elements are moved as the end part has elements to keep
  have hkeep : (zs.filter fun x ↦ !removed x).length = ys.countP removed := by
    have := List.length_eq_countP_add_countP removed (l := zs)
    rw [← List.countP_eq_length_filter]
    simp only [Bool.not_eq_true, Bool.decide_eq_false] at this
    omega
  have hmoved : moved removed xs = zs.reverse.take (ys.countP removed) := by
    have hle : ys.countP removed ≤ zs.reverse.length := by
      rw [List.length_reverse]
      omega
    calc
      moved removed xs = (zs.reverse ++ ys.reverse).take (ys.countP removed) := by
        rw [moved, ← hys, hxs, List.reverse_append]
      _ = zs.reverse.take (ys.countP removed) := List.take_append_of_le_length hle
  have hswept : (swept removed xs).Perm
      (ys.filter (fun x ↦ !removed x) ++ moved removed xs) := by
    rw [swept, moved, ← hys]
    exact refill_perm removed ys xs.reverse
  have hkept : (swept removed xs).Perm (xs.filter fun x ↦ !removed x) ↔
      (moved removed xs).Perm (zs.filter fun x ↦ !removed x) := by
    rw [hswept.congr_left, hxs, List.filter_append, ← hxs]
    exact List.perm_append_left_iff _
  rw [hkept]
  constructor
  · intro hperm x hx
    simpa using (List.mem_filter.mp (hperm.mem_iff.mp hx)).2
  · intro hkeeps
    have hsublist : (moved removed xs).Sublist (zs.reverse.filter fun x ↦ !removed x) := by
      have hself : (moved removed xs).filter (fun x ↦ !removed x) = moved removed xs :=
        List.filter_eq_self.mpr fun x hx ↦ by simp [hkeeps x hx]
      rw [← hself, hmoved]
      exact (List.take_sublist ..).filter _
    have heq : moved removed xs = zs.reverse.filter fun x ↦ !removed x := by
      apply hsublist.eq_of_length
      rw [List.filter_reverse, List.length_reverse, hkeep, hmoved, List.length_take,
        List.length_reverse]
      omega
    rw [heq, List.filter_reverse]
    exact List.reverse_perm _

end ParallelPrograms.Sequence
