import ParallelPrograms.ExtentList.Linked

/-!
# Locks and the cursor

`skiplist_insert` holds the locks of the nodes in its cursor, and of the node that it has come to. A
node may be in the cursor at several levels, which follow one another, and it is locked once.
-/

namespace ParallelPrograms.ExtentList

open LinkedList

variable {α : Type}

/-- The locks of these nodes are held, and no others. Only nodes that exist have a lock. -/
def Holding (s : State α) (locked : Node → Bool) (held : Node → Prop) : Prop :=
  ∀ n, s.present n = true → (locked n = true ↔ held n)

/-- The node is in the cursor. -/
def InCursor (cursor : Cursor) (n : Node) : Prop := ∃ level, cursor level = some n

/-- The node is in the cursor below a level. -/
def InCursorBelow (cursor : Cursor) (count : ℕ) (n : Node) : Prop :=
  ∃ level < count, cursor level = some n

namespace Holding

variable {s : State α} {locked : Node → Bool} {held held' : Node → Prop} {n : Node}

theorem congr (h : Holding s locked held) (hiff : ∀ m, s.present m = true → (held m ↔ held' m)) :
    Holding s locked held' := fun m hm ↦ (h m hm).trans (hiff m hm)

theorem lock (h : Holding s locked held) (hpresent : s.present n = true) (hn : ¬ held n) :
    (s.withLocks locked).slLockNode n = some (s.withLocks (Function.update locked n true)) ∧
      Holding s (Function.update locked n true) fun m ↦ held m ∨ m = n := by
  refine ⟨State.slLockNode_withLocks hpresent ?_, fun m hm ↦ ?_⟩
  · rw [← Bool.not_eq_true, h n hpresent]
    exact hn
  · rw [Function.update_apply]
    split_ifs with heq
    · simp [heq]
    · simp [heq, h m hm]

theorem unlock (h : Holding s locked held) (hpresent : s.present n = true) (hn : held n) :
    (s.withLocks locked).slUnlockNode (some n) =
        some (s.withLocks (Function.update locked n false)) ∧
      Holding s (Function.update locked n false) fun m ↦ held m ∧ m ≠ n := by
  refine ⟨State.slUnlockNode_withLocks hpresent ((h n hpresent).mpr hn), fun m hm ↦ ?_⟩
  rw [Function.update_apply]
  split_ifs with heq
  · simp [heq]
  · simp [heq, h m hm]

end Holding

section Cursors

variable {s : State α} {locked : Node → Bool} {cursor : Cursor} {pending : ℕ} {p : Node}

theorem foundInCursor_iff (hbeyond : ∀ j, pending < j → cursor j = none) :
    State.foundInCursor cursor pending p = true ↔ InCursor cursor p := by
  simp only [State.foundInCursor, List.any_eq_true, List.mem_range, beq_iff_eq]
  constructor
  · rintro ⟨j, -, hj⟩
    exact ⟨j, hj⟩
  · rintro ⟨j, hj⟩
    refine ⟨j, Nat.lt_succ_of_le (Nat.le_of_not_lt fun hlt ↦ ?_), hj⟩
    rw [hbeyond j hlt] at hj
    exact Option.some_ne_none p hj.symm

/-- Walking on from `p`: its lock stays as long as it is in the cursor. -/
theorem releasePassed_eq {extra : Node → Prop} (hbeyond : ∀ j, pending < j → cursor j = none)
    (hheld : Holding s locked fun n ↦ (InCursor cursor n ∨ n = p) ∨ extra n)
    (hpresent : s.present p = true) (hextra : ¬ extra p) :
    ∃ locked', (s.withLocks locked).releasePassed cursor pending p = some (s.withLocks locked') ∧
      Holding s locked' fun n ↦ InCursor cursor n ∨ extra n := by
  rw [State.releasePassed]
  by_cases hin : InCursor cursor p
  · rw [if_pos ((foundInCursor_iff hbeyond).mpr hin)]
    refine ⟨locked, rfl, hheld.congr fun n _ ↦ ?_⟩
    have hsame : n = p → InCursor cursor n := fun heq ↦ heq ▸ hin
    tauto
  · rw [if_neg (mt (foundInCursor_iff hbeyond).mp hin)]
    obtain ⟨hunlock, hheld'⟩ := hheld.unlock hpresent (.inl (.inr rfl))
    refine ⟨_, hunlock, hheld'.congr fun n _ ↦ ?_⟩
    have hother : n = p → ¬ InCursor cursor n := fun heq ↦ heq ▸ hin
    have hother' : n = p → ¬ extra n := fun heq ↦ heq ▸ hextra
    tauto

/-- **`free_cursor_locks`** -/
theorem freeCursorFrom_eq {extra : Node → Prop} {count : ℕ}
    (hheld : Holding s locked fun n ↦ InCursorBelow cursor count n ∨ extra n)
    (hpresent : ∀ j < count, ∀ n, cursor j = some n → s.present n = true ∧ ¬ extra n)
    (hruns : ∀ j k n, j ≤ k → k < count → cursor j = some n → cursor k = some n →
      ∀ m, j ≤ m → m ≤ k → cursor m = some n) :
    ∃ cursor' locked', State.freeCursorFrom count cursor (s.withLocks locked) =
        some (cursor', s.withLocks locked') ∧ Holding s locked' extra := by
  induction count generalizing cursor locked with
  | zero => exact ⟨cursor, locked, rfl, hheld.congr fun n _ ↦ by simp [InCursorBelow]⟩
  | succ i ih =>
    set cursor₁ := Function.update cursor i none with hcursor₁
    have hsame : ∀ j < i, cursor₁ j = cursor j := fun j hj ↦ Function.update_of_ne hj.ne ..
    have hstep : ∃ locked₁,
        (if i = 0 ∨ cursor₁ (i - 1) ≠ cursor i then (s.withLocks locked).slUnlockNode (cursor i)
          else some (s.withLocks locked)) = some (s.withLocks locked₁) ∧
        Holding s locked₁ fun n ↦ InCursorBelow cursor₁ i n ∨ extra n := by
      have hrest : ∀ n, InCursorBelow cursor (i + 1) n ↔
          InCursorBelow cursor₁ i n ∨ cursor i = some n := by
        intro n
        constructor
        · rintro ⟨j, hj, heq⟩
          rcases (Nat.le_of_lt_succ hj).lt_or_eq with hlt | rfl
          · exact .inl ⟨j, hlt, (hsame j hlt).trans heq⟩
          · exact .inr heq
        · rintro (⟨j, hj, heq⟩ | heq)
          · exact ⟨j, Nat.lt_succ_of_lt hj, (hsame j hj).symm.trans heq⟩
          · exact ⟨i, Nat.lt_succ_self i, heq⟩
      simp only [hrest] at hheld
      cases hn : cursor i with
      | none =>
        simp only [hn, reduceCtorEq, or_false] at hheld
        exact ⟨locked, by split_ifs <;> rfl, hheld⟩
      | some n =>
        simp only [hn, Option.some.injEq] at hheld
        obtain ⟨hn', hextra⟩ := hpresent i (Nat.lt_succ_self i) n hn
        split_ifs with hlast
        · -- this is the last place of the node
          have hgone : ¬ InCursorBelow cursor₁ i n := by
            rintro ⟨j, hj, heq⟩
            rw [hsame j hj] at heq
            have hbefore := hruns j i n hj.le (Nat.lt_succ_self i) heq hn (i - 1) (by omega)
              (by omega)
            rcases hlast with rfl | hne
            · omega
            · exact hne ((hsame (i - 1) (by omega)).trans hbefore)
          obtain ⟨hunlock, hheld'⟩ := hheld.unlock hn' (.inl (.inr rfl))
          refine ⟨_, hunlock, hheld'.congr fun m _ ↦ ?_⟩
          have h₁ : m = n → ¬ InCursorBelow cursor₁ i m := fun heq ↦ heq ▸ hgone
          have h₂ : m = n → ¬ extra m := fun heq ↦ heq ▸ hextra
          have h₃ : n = m ↔ m = n := eq_comm
          tauto
        · obtain ⟨hpos, hprev⟩ := not_or.mp hlast
          refine ⟨locked, rfl, hheld.congr fun m _ ↦ ?_⟩
          have h₁ : n = m → InCursorBelow cursor₁ i m := by
            rintro rfl
            exact ⟨i - 1, by omega, not_not.mp hprev⟩
          tauto
    obtain ⟨locked₁, hrun, hheld₁⟩ := hstep
    obtain ⟨cursor', locked', hfree, hextra⟩ := ih hheld₁
      (fun j hj n hn ↦ hpresent j (Nat.lt_succ_of_lt hj) n ((hsame j hj).symm.trans hn))
      fun j k n hjk hk hj hk' m hjm hmk ↦ by
        rw [hsame _ (hjk.trans_lt hk)] at hj
        rw [hsame _ hk] at hk'
        rw [hsame _ (hmk.trans_lt hk)]
        exact hruns j k n hjk (Nat.lt_succ_of_lt hk) hj hk' m hjm hmk
    refine ⟨cursor', locked', ?_, hextra⟩
    rw [State.freeCursorFrom]
    simp only [← hcursor₁, Option.bind_eq_bind]
    split_ifs at hrun ⊢
    · rw [hrun]
      exact hfree
    · rw [hrun]
      exact hfree

end Cursors

/-- The cursor of a walk at a level that is not above `pending`, where the leaves of `passed` have
been passed. At the higher levels it has the last nodes before the key. At the level of the walk it
may have the node where the walk at this level has started. -/
structure Tracked (lo passed : List (Entry α)) (pending level : ℕ) (cursor : Cursor) : Prop where
  beyond : ∀ j, pending < j → cursor j = none
  above : ∀ j, level < j → j ≤ pending → cursor j = some (lastAt j lo)
  here : ∀ n, cursor level = some n → level < pending → cursor (level + 1) = some n
  below : ∀ j < level, cursor j = none
  behind : ∀ n, InCursor cursor n → n ∈ Node.head :: nodesAt 0 passed

namespace Tracked

variable {s : State α} {locked : Node → Bool} {cursor : Cursor} {pending level : ℕ}
  {lo passed passed' ahead : List (Entry α)} {n : Node}

theorem walk (h : Tracked lo passed pending level cursor) (hsub : passed ⊆ passed') :
    Tracked lo passed' pending level cursor :=
  { h with
    behind := fun n hn ↦ List.cons_subset_cons _ (fun m hm ↦ by
      obtain ⟨e, he, hle, rfl⟩ := mem_tower.mp hm
      exact mem_tower.mpr ⟨e, hsub he, hle, rfl⟩) (h.behind n hn) }

/-- The places of a node follow one another. -/
theorem runs (h : Tracked lo passed pending level cursor)
    (hnodup : (Node.head :: lo.map Entry.node).Nodup) {j k : ℕ} (hjk : j ≤ k)
    (hj : cursor j = some n) (hk : cursor k = some n) {m : ℕ} (hjm : j ≤ m) (hmk : m ≤ k) :
    cursor m = some n := by
  have hkp : k ≤ pending := Nat.le_of_not_lt fun hlt ↦ by
    rw [h.beyond k hlt] at hk
    exact Option.some_ne_none n hk.symm
  have hlj : level ≤ j := Nat.le_of_not_lt fun hlt ↦ by
    rw [h.below j hlt] at hj
    exact Option.some_ne_none n hj.symm
  rcases hjm.eq_or_lt with rfl | hjm
  · exact hj
  · -- above the level of the walk the nodes of the cursor are the last ones of their levels
    have hlow : ∃ i, level < i ∧ i ≤ m ∧ cursor i = some n := by
      rcases hlj.eq_or_lt with rfl | hlt
      · exact ⟨level + 1, by omega, by omega, h.here n hj (by omega)⟩
      · exact ⟨j, hlt, by omega, hj⟩
    obtain ⟨i, hi, him, hin⟩ := hlow
    rw [h.above i hi (by omega), Option.some.injEq] at hin
    rw [h.above k (by omega) hkp, Option.some.injEq] at hk
    rw [h.above m (by omega) (by omega), Option.some.injEq, lastAt,
      lastOf_tower_between hnodup him hmk (hin.trans hk.symm)]
    exact hk

/-- What is in the cursor after a place of it has changed. -/
theorem inCursor_update {p : Node} : InCursor (Function.update cursor level (some p)) n ↔
    n = p ∨ ∃ j, j ≠ level ∧ cursor j = some n := by
  constructor
  · rintro ⟨j, hj⟩
    by_cases heq : j = level
    · rw [heq, Function.update_self, Option.some.injEq] at hj
      exact .inl hj.symm
    · rw [Function.update_of_ne heq] at hj
      exact .inr ⟨j, heq, hj⟩
  · rintro (rfl | ⟨j, hne, hj⟩)
    · exact ⟨level, Function.update_self ..⟩
    · exact ⟨j, (Function.update_of_ne hne ..).trans hj⟩

/-- **`add_locked_to_cursor`** at the end of a level -/
theorem addLockedToCursor_eq {p : Node} (h : Tracked lo passed pending level cursor)
    (hle : level ≤ pending) (hpending : pending < skipMaxlevel)
    (hheld : Holding s locked fun n ↦ InCursor cursor n ∨ n = p)
    (hpresent : ∀ n, InCursor cursor n → s.present n = true) :
    ∃ locked', (s.withLocks locked).addLockedToCursor cursor level p =
        some (Function.update cursor level (some p), s.withLocks locked') ∧
      Holding s locked' (InCursor (Function.update cursor level (some p))) := by
  have hnext : Function.update cursor level (some p) (level + 1) = cursor (level + 1) :=
    Function.update_of_ne (by omega) ..
  rw [State.addLockedToCursor]
  simp only [hnext]
  cases hold : cursor level with
  | none =>
    have hsame : ∀ n, InCursor cursor n ∨ n = p ↔
        InCursor (Function.update cursor level (some p)) n := by
      intro n
      rw [inCursor_update]
      constructor
      · rintro (⟨j, hj⟩ | rfl)
        · refine .inr ⟨j, fun heq ↦ ?_, hj⟩
          rw [heq, hold] at hj
          exact Option.some_ne_none n hj.symm
        · exact .inl rfl
      · rintro (rfl | ⟨j, -, hj⟩)
        · exact .inr rfl
        · exact .inl ⟨j, hj⟩
    refine ⟨locked, ?_, hheld.congr fun n _ ↦ hsame n⟩
    rw [if_neg (Option.some_ne_none p).symm]
    split_ifs <;> rfl
  | some q =>
    by_cases hqp : q = p
    · subst hqp
      rw [if_pos rfl, Function.update_eq_self_iff.mpr hold.symm]
      refine ⟨locked, rfl, hheld.congr fun n _ ↦ ⟨?_, .inl⟩⟩
      rintro (hn | rfl)
      · exact hn
      · exact ⟨level, hold⟩
    · have hne : some q ≠ some p := fun heq ↦ hqp (Option.some.inj heq)
      have hbound : level ≠ skipMaxlevel := by omega
      rw [if_neg hne, if_neg hbound]
      split_ifs with hhigher
      · -- the place is the only one in the cursor
        have htop : level = pending := by
          by_contra hlt
          exact hhigher (h.here q hold (by omega))
        have honly : ∀ j, j ≠ level → cursor j = none := by
          intro j hj
          rcases Nat.lt_or_gt_of_ne hj with hlt | hgt
          · exact h.below j hlt
          · exact h.beyond j (by omega)
        have hin : ∀ n, InCursor cursor n ↔ n = q := by
          intro n
          constructor
          · rintro ⟨j, hj⟩
            by_cases heq : j = level
            · rw [heq, hold, Option.some.injEq] at hj
              exact hj.symm
            · rw [honly j heq] at hj
              exact absurd hj.symm (Option.some_ne_none n)
          · rintro rfl
            exact ⟨level, hold⟩
        obtain ⟨hunlock, hheld'⟩ := hheld.unlock (hpresent q ⟨level, hold⟩) (.inl ⟨level, hold⟩)
        refine ⟨_, by rw [hunlock]; rfl, hheld'.congr fun n _ ↦ ?_⟩
        rw [inCursor_update, hin]
        constructor
        · rintro ⟨rfl | rfl, hnq⟩
          · exact absurd rfl hnq
          · exact .inl rfl
        · rintro (rfl | ⟨j, hj, heq⟩)
          · exact ⟨.inr rfl, fun heq ↦ hqp heq.symm⟩
          · rw [honly j hj] at heq
            exact absurd heq.symm (Option.some_ne_none n)
      · refine ⟨locked, rfl, hheld.congr fun n _ ↦ ?_⟩
        rw [inCursor_update]
        constructor
        · rintro (⟨j, hj⟩ | rfl)
          · by_cases heq : j = level
            · rw [heq, hold] at hj
              exact .inr ⟨level + 1, by omega, (not_not.mp hhigher).trans hj⟩
            · exact .inr ⟨j, heq, hj⟩
          · exact .inl rfl
        · rintro (rfl | ⟨j, -, hj⟩)
          · exact .inr rfl
          · exact .inl ⟨j, hj⟩

/-- One level down. -/
theorem down (h : Tracked lo passed pending (level + 1) cursor) (hle : level + 1 ≤ pending)
    (hsplit : lo = passed' ++ ahead) (hlow : nodesAt (level + 1) ahead = []) :
    Tracked lo passed' pending level
      (Function.update cursor (level + 1) (some (lastAt (level + 1) lo))) := by
  have hbelow : ∀ j < level + 1,
      Function.update cursor (level + 1) (some (lastAt (level + 1) lo)) j = none := fun j hj ↦
    (Function.update_of_ne hj.ne ..).trans (h.below j hj)
  have habove : ∀ j, level < j → j ≤ pending →
      Function.update cursor (level + 1) (some (lastAt (level + 1) lo)) j =
        some (lastAt j lo) := by
    intro j hj hjp
    rw [Function.update_apply]
    split_ifs with heq
    · rw [heq]
    · exact h.above j (by omega) hjp
  have hbeyond : ∀ j, pending < j →
      Function.update cursor (level + 1) (some (lastAt (level + 1) lo)) j = none := fun j hj ↦
    (Function.update_of_ne (by omega) ..).trans (h.beyond j hj)
  refine ⟨hbeyond, habove, fun n hn ↦ ?_, fun j hj ↦ hbelow j (by omega), ?_⟩
  · rw [hbelow level (by omega)] at hn
    exact absurd hn.symm (Option.some_ne_none n)
  · rintro n ⟨j, hj⟩
    have hlj : level < j := Nat.lt_of_not_le fun hjl ↦ by
      rw [hbelow j (by omega)] at hj
      exact Option.some_ne_none n hj.symm
    have hjp : j ≤ pending := Nat.le_of_not_lt fun hlt ↦ by
      rw [hbeyond j hlt] at hj
      exact Option.some_ne_none n hj.symm
    rw [habove j hlj hjp, Option.some.injEq] at hj
    have hnone : nodesAt j ahead = [] :=
      List.eq_nil_of_subset_nil (hlow ▸ tower_subset (show level + 1 ≤ j by omega))
    rw [← hj, hsplit, lastAt, nodesAt_append, hnone, List.append_nil]
    exact List.cons_subset_cons _ (tower_subset (Nat.zero_le j)) (lastOf_mem _ _)

end Tracked

end ParallelPrograms.ExtentList
