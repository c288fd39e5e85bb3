import ParallelPrograms.LinkedList.Ring
import Mathlib.Data.Nat.Basic

/-!
# Lists with levels

The entries of a skip list are one list, and an entry takes part in all levels up to its height.
The nodes at a level are the tower of that level. A search goes down from the last node of a
higher level, which is some node of the level below with entries ahead of it.
-/

namespace ParallelPrograms.LinkedList

variable {Entry Node : Type*} (height : Entry → ℕ) (node : Entry → Node)

/-- The nodes at a level. -/
def tower (level : ℕ) (entries : List Entry) : List Node :=
  (entries.filter fun e ↦ level ≤ height e).map node

section Tower

variable {height node} {level : ℕ} {entries : List Entry} {e : Entry}

@[simp]
theorem tower_nil : tower height node level [] = [] := rfl

@[simp]
theorem tower_append (before after : List Entry) : tower height node level (before ++ after) =
    tower height node level before ++ tower height node level after := by
  simp [tower]

theorem tower_cons_of_le (h : level ≤ height e) :
    tower height node level (e :: entries) = node e :: tower height node level entries := by
  simp [tower, h]

theorem tower_cons_of_lt (h : height e < level) :
    tower height node level (e :: entries) = tower height node level entries := by
  simp [tower, h]

theorem mem_tower {n : Node} : n ∈ tower height node level entries ↔
    ∃ e ∈ entries, level ≤ height e ∧ node e = n := by
  simp [tower, and_assoc]

theorem tower_zero : tower height node 0 entries = entries.map node := by
  simp [tower]

/-- A higher level has fewer nodes. -/
theorem tower_subset {lower : ℕ} (h : lower ≤ level) :
    tower height node level entries ⊆ tower height node lower entries := by
  intro n hn
  obtain ⟨e, he, hle, hnode⟩ := mem_tower.mp hn
  exact mem_tower.mpr ⟨e, he, Nat.le_trans h hle, hnode⟩

/-- Above all entries there is nothing. -/
theorem tower_eq_nil (h : ∀ e ∈ entries, height e < level) : tower height node level entries = [] := by
  refine List.eq_nil_iff_forall_not_mem.mpr fun n hn ↦ ?_
  obtain ⟨e, he, hle, -⟩ := mem_tower.mp hn
  exact (h e he).not_ge hle

/-- Entries that differ in what they hold have the same towers. -/
theorem tower_congr {other : Entry} {before after : List Entry} (hheight : height other = height e)
    (hnode : node other = node e) : tower height node level (before ++ other :: after) =
      tower height node level (before ++ e :: after) := by
  by_cases hle : level ≤ height e
  · rw [tower_append, tower_append, tower_cons_of_le hle, tower_cons_of_le (hheight ▸ hle), hnode]
  · have hlt := Nat.lt_of_not_le hle
    rw [tower_append, tower_append, tower_cons_of_lt hlt, tower_cons_of_lt (hheight ▸ hlt)]

/-- One level down, the last node may be followed by more entries, which are lower. -/
theorem exists_passed (head : Node) (level : ℕ) (entries : List Entry) :
    ∃ passed ahead, entries = passed ++ ahead ∧ tower height node (level + 1) ahead = [] ∧
      lastOf head (tower height node (level + 1) entries) =
        lastOf head (tower height node level passed) := by
  induction entries using List.reverseRecOn with
  | nil => exact ⟨[], [], rfl, rfl, rfl⟩
  | append_singleton entries e ih =>
    by_cases hle : level + 1 ≤ height e
    · refine ⟨entries ++ [e], [], by simp, rfl, ?_⟩
      rw [tower_append, tower_append, tower_cons_of_le hle, tower_cons_of_le (by omega)]
      simp
    · obtain ⟨passed, ahead, rfl, hlow, heq⟩ := ih
      refine ⟨passed, ahead ++ [e], by simp, ?_, ?_⟩
      · rw [tower_append, hlow, tower_cons_of_lt (by omega), tower_nil, List.append_nil]
      · rw [tower_append, tower_cons_of_lt (by omega), tower_nil, List.append_nil, heq]

/-- A node that is the last one at two levels is the last one at the levels between them. -/
theorem lastOf_tower_between {head : Node} {low mid high : ℕ}
    (hnodup : (head :: entries.map node).Nodup) (hlow : low ≤ mid) (hhigh : mid ≤ high)
    (heq : lastOf head (tower height node low entries) =
      lastOf head (tower height node high entries)) :
    lastOf head (tower height node mid entries) = lastOf head (tower height node high entries) := by
  induction entries using List.reverseRecOn with
  | nil => rfl
  | append_singleton entries e ih =>
    rw [List.map_append, ← List.cons_append] at hnodup
    obtain ⟨hnodup', -, hcross⟩ := List.nodup_append.mp hnodup
    have hlast : ∀ level, level ≤ height e →
        lastOf head (tower height node level (entries ++ [e])) = node e := fun level hle ↦ by
      rw [tower_append, tower_cons_of_le hle, tower_nil, lastOf_concat]
    have hskip : ∀ level, height e < level →
        tower height node level (entries ++ [e]) = tower height node level entries :=
      fun level hlt ↦ by rw [tower_append, tower_cons_of_lt hlt, tower_nil, List.append_nil]
    by_cases hhigh' : high ≤ height e
    · rw [hlast mid (by omega), hlast high hhigh']
    · by_cases hlow' : low ≤ height e
      · -- the last element does not reach the highest of the levels
        rw [hlast low hlow', hskip high (by omega)] at heq
        have hmem : node e ∈ head :: entries.map node := by
          rw [heq]
          have hsub : tower height node high entries ⊆ entries.map node := by
            have hall : tower height node 0 entries = entries.map node := tower_zero
            rw [← hall]
            exact tower_subset (Nat.zero_le high)
          exact List.cons_subset_cons _ hsub (lastOf_mem head _)
        exact absurd rfl (hcross _ hmem (node e) (by simp))
      · rw [hskip mid (by omega), hskip high (by omega)]
        rw [hskip low (by omega), hskip high (by omega)] at heq
        exact ih hnodup' heq

end Tower

end ParallelPrograms.LinkedList
