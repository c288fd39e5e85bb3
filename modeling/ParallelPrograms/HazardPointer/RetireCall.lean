import ParallelPrograms.HazardPointer.Model
import ParallelPrograms.Sequence.Compaction
import Mathlib.Tactic.NormNum

/-!
# One call of `hp_retirelist`

The call as a function of the hazard slots, for a thread that runs alone. The loop visits all
`HP_MAX_THREAD_RL` cells, also those past `rl.size`. The cell it visits still holds what it held
when the loop began, because a round writes to no other cell than its own. So the call deletes
exactly the freeable values among all cells, and what it leaves in the list is the sweep of
`Sequence.swept`.
-/

namespace ParallelPrograms.HazardPointer

open Concurrency Sequence

/-- The loops over `j` and `k`: no hazard slot holds `obj`. -/
def freeable (hp : Table) (obj : Ptr) : Bool := slots.all fun slot ↦ hp slot.1 slot.2 != obj

/-- Round `i` of the outer loop, with the pointers deleted so far. -/
def visit (hp : Table) (s : RetireList × List Ptr) (i : ℕ) : RetireList × List Ptr :=
  if freeable hp (s.1.list i) then (s.1.compact i, s.2 ++ [s.1.list i]) else s

/-- The rounds before round `i`. -/
def sweep (hp : Table) (rl : RetireList) (i : ℕ) : RetireList × List Ptr :=
  (List.range i).foldl (visit hp) (rl, [])

/-- `hp_retirelist(hp, ptr)`: the new list and the arguments of `delete_func` in order, or nothing
when the assertion fails. -/
def hpRetirelist (hp : Table) (rl : RetireList) (ptr : Ptr) : Option (RetireList × List Ptr) :=
  if (rl.push ptr).size < hpMaxThreadRl then some (sweep hp (rl.push ptr) hpMaxThreadRl) else none

/-- The first `rl.size` entries. -/
def RetireList.entries (rl : RetireList) : List Ptr := (List.range rl.size).map rl.list

@[simp]
theorem RetireList.length_entries (rl : RetireList) : rl.entries.length = rl.size := by
  rw [entries, List.length_map, List.length_range]

theorem RetireList.entries_getElem? {rl : RetireList} {i : ℕ} (hi : i < rl.size) :
    rl.entries[i]? = some (rl.list i) := by
  rw [entries, List.getElem?_map, List.getElem?_range hi, Option.map_some]

/-- A round writes to its own cell only. -/
theorem visit_list_of_ne {hp : Table} {s : RetireList × List Ptr} {i j : ℕ} (hne : j ≠ i) :
    (visit hp s i).1.list j = s.1.list j := by
  unfold visit
  split_ifs
  · rw [RetireList.compact_list, if_neg hne]
  · rfl

section Sweep

variable (hp : Table) (rl : RetireList)

theorem sweep_succ (i : ℕ) : sweep hp rl (i + 1) = visit hp (sweep hp rl i) i := by
  simp [sweep, List.range_succ]

/-- The number of values that the rounds before round `i` delete. -/
def freed (i : ℕ) : ℕ := ((List.range i).map rl.list).countP (freeable hp)

theorem freed_succ (i : ℕ) :
    freed hp rl (i + 1) = freed hp rl i + if freeable hp (rl.list i) then 1 else 0 := by
  simp [freed, List.range_succ]

theorem freed_mono {i j : ℕ} (h : i ≤ j) : freed hp rl i ≤ freed hp rl j := by
  induction j, h using Nat.le_induction with
  | base => exact le_rfl
  | succ j _ ih =>
    rw [freed_succ]
    omega

/-- The cells that have not been visited are unchanged. -/
theorem sweep_ahead {i j : ℕ} (h : i ≤ j) : (sweep hp rl i).1.list j = rl.list j := by
  induction i with
  | zero => rfl
  | succ i ih => rw [sweep_succ, visit_list_of_ne (by omega), ih (by omega)]

/-- The deleted values are the freeable ones among the visited cells. -/
theorem sweep_deleted (i : ℕ) :
    (sweep hp rl i).2 = ((List.range i).map rl.list).filter (freeable hp) := by
  induction i with
  | zero => rfl
  | succ i ih =>
    rw [sweep_succ, visit, sweep_ahead hp rl le_rfl, List.range_succ, List.map_append,
      List.filter_append, ← ih]
    split_ifs with hfree <;> simp [hfree]

theorem RetireList.compact_size {rl : RetireList} {i : ℕ} (hpos : 0 < rl.size)
    (hsize : rl.size < 2 ^ 64) : (rl.compact i).size = rl.size - 1 := by
  simp only [RetireList.compact]
  omega

/-- `rl.size` counts down, as long as it does not wrap around. -/
theorem sweep_size {i : ℕ} (hfreed : freed hp rl i ≤ rl.size) (hsize : rl.size < 2 ^ 64) :
    (sweep hp rl i).1.size = rl.size - freed hp rl i := by
  induction i with
  | zero => simp [sweep, freed]
  | succ i ih =>
    rw [freed_succ] at hfreed
    have ih := ih (by omega)
    rw [sweep_succ, visit, sweep_ahead hp rl le_rfl, freed_succ]
    split_ifs with hfree
    · rw [if_pos hfree] at hfreed
      rw [RetireList.compact_size (by omega) (by omega), ih]
      omega
    · rw [ih, Nat.add_zero]

/-- A visited cell in the part that will remain: kept, or filled with the last entry. -/
theorem sweep_behind {i j : ℕ} (hj : j < i) (hfreed : freed hp rl (j + 1) ≤ rl.size)
    (hsize : rl.size < 2 ^ 64) (hlast : j ≤ rl.size - freed hp rl (j + 1)) :
    (sweep hp rl i).1.list j = if freeable hp (rl.list j)
      then rl.list (rl.size - freed hp rl (j + 1)) else rl.list j := by
  induction i, hj using Nat.le_induction with
  | base =>
    have hsize' := sweep_size hp rl hfreed hsize
    rw [sweep_succ, visit, sweep_ahead hp rl le_rfl] at hsize' ⊢
    split_ifs at hsize' ⊢ with hfree
    · rw [RetireList.compact_list, if_pos rfl, hsize', sweep_ahead hp rl hlast]
    · exact sweep_ahead hp rl le_rfl
  | succ i hj ih => rw [sweep_succ, visit_list_of_ne (by omega), ih]

/-- Without a wrap around, every value in the list was in the list before. -/
theorem sweep_values {i j : ℕ} (hfreed : freed hp rl i ≤ rl.size) (hsize : rl.size ≤ hpMaxThreadRl)
    (hj : j < hpMaxThreadRl) : ∃ q < hpMaxThreadRl, (sweep hp rl i).1.list j = rl.list q := by
  induction i generalizing j with
  | zero => exact ⟨j, hj, rfl⟩
  | succ i ih =>
    have hsize64 : rl.size < 2 ^ 64 := calc
      rl.size ≤ hpMaxThreadRl := hsize
      _ < 2 ^ 64 := by norm_num
    have hsize' := sweep_size hp rl hfreed hsize64
    rw [freed_succ] at hfreed hsize'
    rw [sweep_succ, visit, sweep_ahead hp rl le_rfl] at hsize' ⊢
    split_ifs at hfreed hsize' ⊢ with hfree
    · rw [RetireList.compact_list, hsize']
      split_ifs with hji
      · exact ih (by omega) (by omega)
      · exact ih (by omega) hj
    · exact ih (by omega) hj

theorem freed_of_stale {m : ℕ} (hm : rl.size ≤ m)
    (hstale : ∀ i, rl.size ≤ i → i < m → freeable hp (rl.list i) = false) :
    freed hp rl m = freed hp rl rl.size := by
  induction m, hm using Nat.le_induction with
  | base => rfl
  | succ m hm ih =>
    rw [freed_succ, hstale m hm (by omega), ih fun i hi hlt ↦ hstale i hi (by omega)]
    rfl

/-- When nothing past `rl.size` is freeable, `rl.size` does not wrap around. -/
theorem freed_le_size {m : ℕ} (hm : rl.size ≤ m)
    (hstale : ∀ i, rl.size ≤ i → i < m → freeable hp (rl.list i) = false) :
    freed hp rl m ≤ rl.size := calc
  freed hp rl m = rl.entries.countP (freeable hp) := freed_of_stale hp rl hm hstale
  _ ≤ rl.entries.length := List.countP_le_length
  _ = rl.size := rl.length_entries

/-- When nothing past `rl.size` is freeable, the call deletes the freeable entries. -/
theorem sweep_deleted_of_stale {m : ℕ} (hm : rl.size ≤ m)
    (hstale : ∀ i, rl.size ≤ i → i < m → freeable hp (rl.list i) = false) :
    (sweep hp rl m).2 = rl.entries.filter (freeable hp) := by
  rw [sweep_deleted, RetireList.entries]
  obtain ⟨rest, rfl⟩ := Nat.exists_eq_add_of_le hm
  rw [List.range_add, List.map_append, List.filter_append, List.append_right_eq_self,
    List.filter_eq_nil_iff]
  simp only [List.map_map, List.mem_map, List.mem_range, Function.comp_apply]
  rintro _ ⟨j, hj, rfl⟩
  rw [hstale _ (by omega) (by omega)]
  exact Bool.false_ne_true

/-- When nothing past `rl.size` is freeable, the call leaves the sweep of the entries. -/
theorem sweep_entries_of_stale {m : ℕ} (hm : rl.size ≤ m) (hsize : m < 2 ^ 64)
    (hstale : ∀ i, rl.size ≤ i → i < m → freeable hp (rl.list i) = false) :
    (sweep hp rl m).1.entries = swept (freeable hp) rl.entries := by
  have hsize64 : rl.size < 2 ^ 64 := by omega
  have hfreed := freed_le_size hp rl hm hstale
  have hremaining := sweep_size hp rl hfreed hsize64
  have hcount : rl.entries.length - rl.entries.countP (freeable hp) =
      (sweep hp rl m).1.size := by
    rw [hremaining, freed_of_stale hp rl hm hstale, RetireList.length_entries]
    rfl
  have hsource : (rl.entries.take (sweep hp rl m).1.size).countP (freeable hp) ≤
      rl.entries.reverse.length := calc
    _ ≤ (rl.entries.take (sweep hp rl m).1.size).length := List.countP_le_length
    _ ≤ rl.entries.length := List.length_take_le' ..
    _ = rl.entries.reverse.length := List.length_reverse.symm
  apply List.ext_getElem?
  intro p
  rw [swept, hcount, refill_getElem? _ _ _ hsource]
  by_cases hp' : p < (sweep hp rl m).1.size
  · have hnext := freed_succ hp rl p
    have hmono := freed_mono hp rl (show p + 1 ≤ m by omega)
    have htaken : ((rl.entries.take (sweep hp rl m).1.size).take p).countP
        (freeable hp) = freed hp rl p := by
      rw [List.take_take, RetireList.entries, ← List.map_take, List.take_range, freed]
      congr 3
      omega
    have hentry : (rl.entries.take (sweep hp rl m).1.size)[p]? = some (rl.list p) := calc
      _ = rl.entries[p]? := List.getElem?_take_of_lt hp'
      _ = some (rl.list p) := RetireList.entries_getElem? (by omega)
    have hbehind := sweep_behind hp rl (show p < m by omega) (by omega) hsize64
      (by omega)
    rw [hentry, htaken, RetireList.entries_getElem? hp', hbehind, Option.bind_some]
    split_ifs with hfree
    · rw [if_pos hfree] at hnext
      have hindex : rl.entries.length - 1 - freed hp rl p = rl.size - freed hp rl (p + 1) := by
        rw [RetireList.length_entries]
        omega
      rw [List.getElem?_reverse (by rw [RetireList.length_entries]; omega), hindex,
        RetireList.entries_getElem? (by omega)]
    · rfl
  · rw [List.getElem?_eq_none (by rw [RetireList.length_entries]; omega),
      List.getElem?_eq_none (by simp; omega)]
    rfl

end Sweep

end ParallelPrograms.HazardPointer
