import Mathlib.Data.Fintype.Card
import Mathlib.Algebra.BigOperators.Group.Finset.Piecewise
import Mathlib.Logic.Function.Basic
import Mathlib.Tactic.SplitIfs

/-!
# Counting the threads at some place of their code

A thread table maps every thread to its local state. Invariants of counters and of barriers
speak of the number of threads whose local state has some property; when one thread moves, that
number changes only by what the moving thread itself contributes before and after.
-/

namespace ParallelPrograms.Concurrency

variable {Tid Local : Type*} [Fintype Tid]

/-- The number of threads whose local state has the property. -/
def population (threads : Tid → Local) (property : Local → Prop) [DecidablePred property] : ℕ :=
  (Finset.univ.filter fun tid ↦ property (threads tid)).card

variable (threads : Tid → Local) (property : Local → Prop) [DecidablePred property]

theorem population_eq_sum :
    population threads property = ∑ tid, if property (threads tid) then 1 else 0 :=
  Finset.card_filter _ _

variable [DecidableEq Tid]

/-- One thread moves: its old contribution is exchanged for its new one. -/
theorem population_update (tid : Tid) (moved : Local) :
    population (Function.update threads tid moved) property +
        (if property (threads tid) then 1 else 0) =
      population threads property + (if property moved then 1 else 0) := by
  have hsum := fun table : Tid → Local ↦
    Finset.add_sum_erase Finset.univ (fun t ↦ if property (table t) then 1 else 0)
      (Finset.mem_univ tid)
  have hrest : ∑ t ∈ Finset.univ.erase tid,
        (if property (Function.update threads tid moved t) then 1 else 0) =
      ∑ t ∈ Finset.univ.erase tid, if property (threads t) then 1 else 0 :=
    Finset.sum_congr rfl fun t ht ↦ by
      rw [Function.update_of_ne (Finset.ne_of_mem_erase ht)]
  have hbefore := hsum threads
  have hafter := hsum (Function.update threads tid moved)
  rw [hrest, Function.update_self] at hafter
  rw [population_eq_sum, population_eq_sum, ← hbefore, ← hafter]
  omega

theorem population_update_same {tid : Tid} {moved : Local}
    (h : property moved ↔ property (threads tid)) :
    population (Function.update threads tid moved) property = population threads property := by
  have hmove := population_update threads property tid moved
  simp only [h] at hmove
  omega

theorem population_update_gain {tid : Tid} {moved : Local} (hbefore : ¬ property (threads tid))
    (hafter : property moved) :
    population (Function.update threads tid moved) property =
      population threads property + 1 := by
  have hmove := population_update threads property tid moved
  rw [if_neg hbefore, if_pos hafter] at hmove
  omega

omit [DecidableEq Tid]

theorem population_le_card : population threads property ≤ Fintype.card Tid :=
  Finset.card_le_univ _

theorem population_eq_card_iff :
    population threads property = Fintype.card Tid ↔ ∀ tid, property (threads tid) := by
  rw [population, Finset.card_eq_iff_eq_univ, Finset.filter_eq_self]
  simp

theorem population_eq_zero_iff :
    population threads property = 0 ↔ ∀ tid, ¬ property (threads tid) := by
  rw [population, Finset.card_eq_zero, Finset.filter_eq_empty_iff]
  simp

end ParallelPrograms.Concurrency
