import ParallelPrograms.ExtentList.InsertWalk

/-!
# Checking a path

Where `skiplist_insert` comes to the levels of the new leaf without locks, `verify_key_in_path` locks
the node it has come to, and compares the key with the leaves around.
-/

namespace ParallelPrograms.ExtentList

open LinkedList Sequence

variable {α : Type} {s : State α} {before lo rest : List (Entry α)} {e : Entry α}
  {key level : ℕ} {cursor : Cursor}

/-- The way back from the first entry of `after` that reaches the level. -/
theorem getPrev_find? {after : List (Entry α)} (hnodes : Nodes s (before ++ after))
    (hlevel : level < skipMaxlevel) (hchain : ChainAt s level (nodesAt level (before ++ after)))
    (hfind : (after.find? fun e ↦ level ≤ e.height) = some e) :
    s.getPrev level e.node = some (some (lastAt level before)) := by
  obtain ⟨hle, lower, upper, rfl, hlower⟩ := exists_of_find? hfind
  have hlast : lastAt level (before ++ lower) = lastAt level before := by
    rw [lastAt, nodesAt_append, hlower, List.append_nil]
  rw [← List.append_assoc] at hnodes hchain
  rw [getPrev_eq hnodes hlevel hchain hle, hlast]

/-- **The second half of `verify_key_in_path`** -/
theorem Linked.checkPath_eq (s₁ : State α) (lock1 : Option Node) (prev : Option Addr)
    (h : Linked s (lo ++ rest)) (hlevel : level < skipMaxlevel)
    (hnext : ∀ e, (rest.find? fun e ↦ level ≤ e.height) = some e → key < e.minKey)
    (hfree : ∀ n, s.present n = true → s.locked n = false)
    (hprev : ∀ a, prev = some a → ∃ maxKey, s₁.slMaxKey a = some maxKey ∧ maxKey ≤ key)
    (hunlock : s₁.slUnlockNode lock1 =
      some (s.withLocks (Function.update s.locked (lastAt level lo) true))) :
    s₁.checkPath (lastAt level lo) key level lock1 prev = some (some (lastAt level lo),
      s.withLocks (Function.update s.locked (lastAt level lo) true)) := by
  have hrun : s₁.checkPath (lastAt level lo) key level lock1 prev =
      s₁.checkPath (lastAt level lo) key level lock1 none := by
    cases prev with
    | none => rfl
    | some a =>
      obtain ⟨maxKey, hmax, hle⟩ := hprev a rfl
      simp [State.checkPath, hmax, hle.not_gt]
  set p := lastAt level lo with hp
  set l₁ := Function.update s.locked p true with hl₁
  have hgetNext := getNext_eq h.nodes hlevel (h.chains level hlevel)
  rw [← hp, nodesAt, tower, List.head?_map, List.head?_filter] at hgetNext
  rw [hrun]
  unfold State.checkPath
  simp only [Option.bind_eq_bind, Option.pure_def, Option.bind_some, Bool.false_eq_true,
    if_false, hunlock, State.getNext_withLocks, hgetNext]
  cases hfind : rest.find? fun e ↦ level ≤ e.height with
  | none => rfl
  | some e =>
    have he : e ∈ rest := List.mem_of_find?_eq_some hfind
    have he' : e ∈ lo ++ rest := List.mem_append_right _ he
    have hpresent : s.present e.node = true := h.nodes.allocated e he'
    have hne : e.node ≠ p := h.node_ne_lastAt he level
    have hfree' : l₁ e.node = false := (Function.update_of_ne hne ..).trans (hfree _ hpresent)
    have hlock := State.slLockNode_withLocks hpresent hfree'
    have hunlock' : (s.withLocks (Function.update l₁ e.node true)).slUnlockNode (some e.node) =
        some (s.withLocks l₁) := State.unlock_locked (s := s.withLocks l₁) hpresent hfree'
    have hgetPrev := getPrev_find? h.nodes hlevel (h.chains level hlevel) hfind
    rw [← hp] at hgetPrev
    have hdead := h.nodes.getDead (mem_nodesAt he' (Nat.zero_le _))
    have hmin : (s.withLocks (Function.update l₁ e.node true)).slMinKey e.addr = some e.minKey :=
      (h.withLocks _).slMinKey he'
    have hentry : e.node.slEntry = some e.addr := rfl
    have hlt := hnext e hfind
    rw [hfind, Option.map_some] at hgetNext
    simp only [Option.map_some, hlock, Option.bind_some, State.getNext_withLocks, hgetNext,
      State.getPrev_withLocks, hgetPrev, State.getDead_withLocks, hdead, hentry, hmin]
    rw [if_neg (by simp [hlt.not_ge]), hunlock', Option.bind_some]

/-- The last node at a level is the head, or it is the node of some leaf. -/
theorem exists_last (level : ℕ) (lo : List (Entry α)) :
    lastAt level lo = .head ∨ ∃ before e ahead, lo = before ++ e :: ahead ∧ level ≤ e.height ∧
      nodesAt level ahead = [] ∧ lastAt level lo = e.node := by
  induction lo using List.reverseRecOn with
  | nil => exact .inl rfl
  | append_singleton lo e ih =>
    by_cases hle : level ≤ e.height
    · exact .inr ⟨lo, e, [], rfl, hle, rfl, lastAt_concat_of_le hle lo⟩
    · rw [lastAt_concat_of_lt (Nat.lt_of_not_le hle)]
      rcases ih with hhead | ⟨before, e', ahead, rfl, hle', hahead, hlast⟩
      · exact .inl hhead
      · refine .inr ⟨before, e', ahead ++ [e], by simp, hle', ?_, hlast⟩
        rw [nodesAt_append, hahead, nodesAt_cons_of_lt (Nat.lt_of_not_le hle), nodesAt_nil,
          List.append_nil]

/-- **The first half of `verify_key_in_path`** locks a leaf and the node before it. -/
theorem Linked.lockPath_eq {after : List (Entry α)} (h : Linked s (before ++ e :: after))
    (hle : level ≤ e.height) (hfree : ∀ n, s.present n = true → s.locked n = false) :
    s.lockPath e.node level (fun _ ↦ none) = some (.locked (some (lastAt level before))
      (lastAt level before).slEntry (s.withLocks (Function.update
        (Function.update s.locked (lastAt level before) true) e.node true))) := by
  have he : e ∈ before ++ e :: after := by simp
  have hlevel : level < skipMaxlevel := (hle.trans (h.low e he)).trans_lt h.bound
  have hpresent : s.present e.node = true := h.nodes.allocated e he
  have hmem := lastAt_mem level before (e :: after)
  have hpresent' := h.nodes.present hmem
  have hne := h.node_ne_lastAt List.mem_cons_self level
  have hgetPrev := getPrev_eq h.nodes hlevel (h.chains level hlevel) hle
  have hgetNext := getNext_eq h.nodes hlevel (h.chains level hlevel)
  have hdead := h.nodes.getDead (mem_nodesAt he (Nat.zero_le _))
  have hdead' := h.nodes.getDead hmem
  rw [nodesAt_cons_of_le hle, List.head?_cons] at hgetNext
  have hlock := State.slLockNode_eq hpresent' (hfree _ hpresent')
  have hfree' : Function.update s.locked (lastAt level before) true e.node = false :=
    (Function.update_of_ne hne ..).trans (hfree _ hpresent)
  have hlock' := State.slLockNode_withLocks hpresent hfree'
  have hcursor : State.foundInCursor (fun _ ↦ none) skipMaxlevel (lastAt level before) = false := by
    simp [State.foundInCursor]
  simp [State.lockPath, e.node_ne_head, hgetPrev, hcursor, hlock, hlock', hdead, hdead', hgetNext]

/-- **`verify_key_in_path`** locks the node that the key comes after, and succeeds. -/
theorem Linked.verifyKeyInPath_eq (rounds : ℕ) (h : Linked s (lo ++ rest))
    (hcut : ∀ e ∈ lo, e.maxKey ≤ key) (hlevel : level < skipMaxlevel)
    (hnext : ∀ e, (rest.find? fun e ↦ level ≤ e.height) = some e → key < e.minKey)
    (hfree : ∀ n, s.present n = true → s.locked n = false) :
    State.verifyKeyInPath (lastAt level lo) key level (fun _ ↦ none) (rounds + 1) s =
      some (some (lastAt level lo),
        s.withLocks (Function.update s.locked (lastAt level lo) true)) := by
  rw [State.verifyKeyInPath]
  rcases exists_last level lo with hhead | ⟨before, e, ahead, rfl, hle, hahead, hlast⟩
  · have hlock := State.slLockNode_eq (s := s) (n := .head) rfl (hfree .head rfl)
    have hcheck := h.checkPath_eq (s.withLocks (Function.update s.locked .head true)) none none
      hlevel hnext hfree (by simp) (by rw [hhead]; rfl)
    rw [hhead] at hcheck ⊢
    simp only [State.lockPath, if_true, hlock, Option.bind_eq_bind, Option.bind_some]
    exact hcheck
  · have h' : Linked s (before ++ e :: (ahead ++ rest)) := by simpa using h
    have hmem := lastAt_mem level before (e :: (ahead ++ rest))
    have hpresent := h'.nodes.present hmem
    have hne := h'.node_ne_lastAt List.mem_cons_self level
    have hunlock := State.unlock_passed hpresent (hfree _ hpresent) hne
    have hcheck := h.checkPath_eq (s.withLocks (Function.update
        (Function.update s.locked (lastAt level before) true) e.node true))
      (some (lastAt level before)) (lastAt level before).slEntry hlevel hnext hfree ?_
      (by rw [hlast]; exact hunlock)
    · rw [hlast] at hcheck ⊢
      simp only [h'.lockPath_eq hle hfree, Option.bind_eq_bind, Option.bind_some]
      exact hcheck
    · -- the leaf before ends at the key or before
      intro a ha
      have hnode := slEntry_eq_some ha
      have hlow : lastAt level before ∈ Node.head :: nodesAt level before := lastOf_mem _ _
      rw [hnode] at hlow
      obtain ⟨e', he', -, heq⟩ := mem_tower.mp (List.mem_of_ne_of_mem Node.noConfusion hlow)
      obtain rfl : e'.addr = a := Node.leaf.inj heq
      exact ⟨e'.maxKey, (h.withLocks _).slMaxKey (by simp [he']), hcut e' (by simp [he'])⟩

end ParallelPrograms.ExtentList
