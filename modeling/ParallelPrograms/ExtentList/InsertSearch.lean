import ParallelPrograms.ExtentList.InsertLevels

/-!
# Where an insertion starts

`skiplist_insert` skips the empty levels of the list. Those that the new leaf reaches get the head
into the cursor, and the lock of the head is taken once.
-/

namespace ParallelPrograms.ExtentList

open LinkedList Sequence

variable {α : Type} {s : State α} {entries : List (Entry α)} {key level pending fuel : ℕ}

/-- The cursor with the head at the levels from `level` up to `pending`. -/
def headCursor (level pending : ℕ) : Cursor := fun j ↦
  if level ≤ j ∧ j ≤ pending then some .head else none

/-- The locks that belong to it. -/
def State.headLocks (s : State α) (level pending : ℕ) : Node → Bool :=
  if level ≤ pending then Function.update s.locked .head true else s.locked

theorem headCursor_of_lt (h : pending < level) : headCursor level pending = fun _ ↦ none :=
  funext fun _ ↦ if_neg fun hj ↦ (h.trans_le (hj.1.trans hj.2)).false

/-- The head goes into the cursor one level below. -/
theorem addToCursor_headCursor (hle : level ≤ pending) (hpending : pending < skipMaxlevel)
    (hfree : s.locked .head = false) :
    (s.withLocks (s.headLocks (level + 1) pending)).addToCursor (headCursor (level + 1) pending)
        level .head = some (headCursor level pending, s.withLocks (s.headLocks level pending)) := by
  have hold : headCursor (level + 1) pending level = none := if_neg (by omega)
  have hupdate : Function.update (headCursor (level + 1) pending) level (some .head) =
      headCursor level pending := by
    funext j
    rw [Function.update_apply, headCursor, headCursor]
    split_ifs with h₁ h₂ h₃ h₄ <;> first | rfl | omega
  have hmax : level ≠ skipMaxlevel := by omega
  rw [State.addToCursor]
  simp only [hold, hupdate, reduceCtorEq, if_false, hmax]
  by_cases hhigher : level + 1 ≤ pending
  · have hnext : headCursor level pending (level + 1) = some .head := if_pos ⟨by omega, hhigher⟩
    rw [hnext, State.headLocks, if_pos hhigher, State.headLocks, if_pos hle]
    rfl
  · have hnext : headCursor level pending (level + 1) = none := if_neg (by omega)
    have hlock : s.slLockNode .head = some (s.withLocks (Function.update s.locked .head true)) :=
      State.slLockNode_eq rfl hfree
    rw [hnext, State.headLocks, if_neg hhigher, State.headLocks, if_pos hle]
    change (s.slLockNode .head).bind _ = _
    rw [hlock]
    rfl

/-- **The loop of `skiplist_insert` over the empty levels** -/
theorem Linked.skipEmpty_eq (h : Linked s entries) (hlevel : level < skipMaxlevel)
    (hpending : pending < skipMaxlevel) (hfree : s.locked .head = false)
    (hempty : ∀ j, level < j → nodesAt j entries = []) :
    ∃ top ≤ level, State.skipEmpty pending level (s.withLocks (s.headLocks level pending))
        (headCursor level pending) =
          some (top, s.withLocks (s.headLocks top pending), headCursor top pending) ∧
      ∀ j, top < j → nodesAt j entries = [] := by
  induction level with
  | zero => exact ⟨0, le_rfl, rfl, hempty⟩
  | succ level ih =>
    have hnext := getNext_eq (show Nodes s ([] ++ entries) from h.nodes) hlevel
      (h.chains (level + 1) hlevel)
    rw [lastAt, nodesAt_nil, lastOf_nil] at hnext
    cases hhead : (nodesAt (level + 1) entries).head? with
    | some n =>
      refine ⟨level + 1, le_rfl, ?_, hempty⟩
      rw [State.skipEmpty, State.getNext_withLocks, hnext, hhead]
      rfl
    | none =>
      have hnone := List.head?_eq_none_iff.mp hhead
      obtain ⟨top, hle, hrun, habove⟩ := ih (by omega) fun j hj ↦ by
        rcases (Nat.succ_le_of_lt hj).eq_or_lt with rfl | hlt
        · exact hnone
        · exact hempty j hlt
      refine ⟨top, by omega, ?_, habove⟩
      rw [State.skipEmpty, State.getNext_withLocks, hnext, hhead]
      simp only [Option.bind_eq_bind, Option.bind_some]
      by_cases hreach : level ≤ pending
      · rw [if_pos hreach, addToCursor_headCursor hreach hpending hfree]
        exact hrun
      · rw [if_neg hreach, headCursor_of_lt (by omega), State.headLocks, if_neg (by omega)]
        rw [headCursor_of_lt (by omega), State.headLocks, if_neg hreach] at hrun
        exact hrun

/-- **`skiplist_insert` from the label `again` to the end of its loops** -/
theorem Linked.insertSearch_eq (key : ℕ) (h : Linked s entries)
    (hfree : ∀ n, s.present n = true → s.locked n = false) (hpending : pending < skipMaxlevel)
    (hle : pending ≤ s.level + 1) (hfuel : entries.length < fuel) :
    ∃ r, s.insertSearch fuel key pending (fun _ ↦ none) = some r ∧
      Reached s key pending entries r := by
  have hhead := hfree .head rfl
  have hfirst := addToCursor_headCursor le_rfl hpending hhead
  rw [headCursor_of_lt (Nat.lt_succ_self pending), State.headLocks,
    if_neg (Nat.not_succ_le_self pending)] at hfirst
  change s.addToCursor (fun _ ↦ none) pending .head = _ at hfirst
  obtain ⟨lo, rest, rfl, hcut⟩ := h.exists_cut key
  have hlow : ∀ j, s.level < j → nodesAt j (lo ++ rest) = [] := fun j hj ↦
    tower_eq_nil fun e he ↦ (h.low e he).trans_lt hj
  obtain ⟨top, htop, hskip, habove⟩ := h.skipEmpty_eq h.bound hpending hhead hlow
  have hlen : lo.length < fuel := by
    rw [List.length_append] at hfuel
    omega
  have hrun : s.insertSearch fuel key pending (fun _ ↦ none) = State.insertLevels fuel key pending
      (top + 1) (s.withLocks (s.headLocks top pending)) (headCursor top pending) .head := by
    rw [State.insertSearch]
    simp only [Option.bind_eq_bind]
    split_ifs with hreach hne
    · obtain rfl : pending = s.level + 1 := by omega
      have hsecond := addToCursor_headCursor hreach hpending hhead
      simp only [hfirst, Option.bind_some, hsecond, hskip]
    · obtain rfl : s.level = pending := not_not.mp hne
      simp only [Option.bind_some, hfirst, hskip]
    · rw [headCursor_of_lt (Nat.lt_of_not_le hreach), State.headLocks, if_neg hreach] at hskip
      change State.skipEmpty pending s.level s (fun _ ↦ none) = _ at hskip
      simp only [Option.bind_some, hskip]
  rw [hrun]
  by_cases hreach : top ≤ pending
  · rw [State.headLocks, if_pos hreach]
    have hlast : ∀ j, top < j → lastAt j lo = .head := fun j hj ↦ by
      have hnone := habove j hj
      rw [nodesAt_append] at hnone
      rw [lastAt, (List.append_eq_nil_iff.mp hnone).1, lastOf_nil]
    refine h.insertLevels_locked hcut (List.nil_append lo).symm hreach hpending
      ⟨fun j hj ↦ if_neg (by omega), fun j hj hjp ↦ ?_, fun n hn hlt ↦ ?_, fun j hj ↦
        if_neg (by omega), ?_⟩ ((Holding.of_free hfree).congr fun n _ ↦ ⟨.inr, ?_⟩) hlen
    · rw [hlast j hj]
      exact if_pos ⟨hj.le, hjp⟩
    · rw [headCursor, if_pos ⟨le_rfl, hreach⟩] at hn
      exact (if_pos ⟨by omega, hlt⟩).trans hn
    · rintro n ⟨j, hj⟩
      rw [headCursor] at hj
      split_ifs at hj
      exact Option.some.inj hj ▸ List.mem_cons_self
    · rintro (⟨j, hj⟩ | rfl)
      · rw [headCursor] at hj
        split_ifs at hj
        exact (Option.some.inj hj).symm
      · rfl
  · rw [State.headLocks, if_neg hreach, headCursor_of_lt (Nat.lt_of_not_le hreach)]
    exact h.insertLevels_free hcut (List.nil_append lo).symm (Nat.lt_of_not_le hreach)
      (htop.trans_lt h.bound) hfree hlen

end ParallelPrograms.ExtentList
