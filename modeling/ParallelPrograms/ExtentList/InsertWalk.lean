import ParallelPrograms.ExtentList.AddKey
import ParallelPrograms.ExtentList.Cursors

/-!
# The search of an insertion

The loops of `skiplist_insert` pass the leaves that end at the key or before, like those of a lookup.
From the level of the new leaf on they hold the lock of the node that they have come to, and keep the
last node of every level in the cursor. They end at the leaf that the key belongs to.
-/

namespace ParallelPrograms.ExtentList

open LinkedList Sequence

variable {α : Type} {s : State α} {before after passed between lo rest : List (Entry α)}
  {e : Entry α} {key level pending fuel : ℕ} {locked : Node → Bool} {cursor : Cursor}

/-- A node of one part is not in the other one. -/
theorem Linked.node_notMem (h : Linked s (before ++ after)) (he : e ∈ after) :
    e.node ∉ Node.head :: nodesAt 0 before := by
  have hnodup := (h.chains 0 (by decide)).nodup
  rw [nodesAt_append, ← List.cons_append] at hnodup
  exact fun hmem ↦ (List.nodup_append.mp hnodup).2.2 _ hmem e.node
    (mem_tower.mpr ⟨e, he, Nat.zero_le _, rfl⟩) rfl

theorem Linked.node_ne_lastAt (h : Linked s (before ++ after)) (he : e ∈ after) (level : ℕ) :
    e.node ≠ lastAt level before := fun heq ↦
  h.node_notMem he (heq.symm ▸ List.cons_subset_cons _ (tower_subset (Nat.zero_le level))
    (lastOf_mem _ _))

/-- The walk locks the next leaf, and finds that nothing has changed. -/
theorem Linked.visit {held : Node → Prop} (h : Linked s (before ++ after))
    (hlevel : level < skipMaxlevel) (hfind : (after.find? fun e ↦ level ≤ e.height) = some e)
    (hheld : Holding s locked held) (hbehind : ∀ n, held n → n ∈ Node.head :: nodesAt 0 before)
    (hfuel : 0 < fuel) :
    ∃ locked', (s.withLocks locked).slNextLeaf fuel (lastAt level before) level =
        some (some e.addr) ∧
      (s.withLocks locked).slLockNode (.leaf e.addr) = some (s.withLocks locked') ∧
      Holding s locked' (fun n ↦ held n ∨ n = e.node) ∧
      (s.withLocks locked').movedAway fuel (lastAt level before) e.addr level = some false := by
  have he : e ∈ after := List.mem_of_find?_eq_some hfind
  have he' : e ∈ before ++ after := List.mem_append_right _ he
  obtain ⟨hlock, hheld'⟩ := hheld.lock (n := e.node) (h.nodes.allocated e he')
    fun hn ↦ h.node_notMem he (hbehind _ hn)
  have hlinked := h.withLocks (Function.update locked e.node true)
  have hnext := findLiveNext_eq hlinked.nodes hlevel (hlinked.chains level hlevel) hfuel
  have hprev := findLivePrev_find? hlinked.nodes hlevel (hlinked.chains level hlevel) hfind hfuel
  have hdead := hlinked.nodes.getDead (mem_nodesAt he' (Nat.zero_le _))
  have hhead : (nodesAt level after).head? = some e.node := by
    rw [nodesAt, tower, List.head?_map, List.head?_filter, hfind, Option.map_some]
  rw [hhead] at hnext
  refine ⟨_, ?_, hlock, hheld', ?_⟩
  · have hlinked' := h.withLocks locked
    rw [slNextLeaf_eq hlinked'.nodes hlevel (hlinked'.chains level hlevel) hfuel, hfind,
      Option.map_some]
  · change (s.withLocks _).getDead (.leaf e.addr) = _ at hdead
    change (s.withLocks _).findLiveNext _ _ _ = some (some (.leaf e.addr)) at hnext
    change (s.withLocks _).findLivePrev _ (.leaf e.addr) _ = _ at hprev
    simp [State.movedAway, hdead, hnext, hprev]

/-- How the walk at a level ends. -/
inductive Walked (s : State α) (key level : ℕ) (lo rest : List (Entry α)) (cursor : Cursor) :
    State.InsertEnd α → Prop where
  /-- The leaf that the key belongs to is not at this level, or the list is empty. -/
  | down (locked : Node → Bool)
      (hheld : Holding s locked fun n ↦ InCursor cursor n ∨ n = lastAt level lo)
      (hlevel : level ≠ 0 ∨ lo = [] ∧ rest = [])
      (hlow : ∀ e rest', rest = e :: rest' → e.minKey ≤ key → e.height < level) :
      Walked s key level lo rest cursor (.down (s.withLocks locked) cursor (lastAt level lo))
  /-- The leaf is found, and it is locked. -/
  | found (before after : List (Entry α)) (e : Entry α) (locked : Node → Bool)
      (hentries : lo ++ rest = before ++ e :: after) (htarget : Target key before e after)
      (hle : level ≤ e.height) (hlast : ∀ j, e.height < j → lastAt j before = lastAt j lo)
      (hsub : lo ⊆ before ++ [e])
      (hheld : Holding s locked fun n ↦ InCursor cursor n ∨ n = e.node) :
      Walked s key level lo rest cursor (.findOrAdd (s.withLocks locked) cursor e.node level none)

/-- What the walk does with a leaf that it has locked. -/
theorem insertWalk_visit {s' : State α} {p : Node} {a : Addr} {minKey maxKey rounds : ℕ}
    (hle : level ≤ pending) (hnext : s.slNextLeaf fuel p level = some (some a))
    (hlock : s.slLockNode (.leaf a) = some s') (hmoved : s'.movedAway fuel p a level = some false)
    (hmin : s'.slMinKey a = some minKey) (hmax : s'.slMaxKey a = some maxKey) :
    State.insertWalk fuel key pending level (rounds + 1) s cursor p =
      if maxKey ≤ key then (s'.releasePassed cursor pending p).bind fun s ↦
        State.insertWalk fuel key pending level rounds s cursor (.leaf a)
      else if key < minKey ∧ level ≠ 0 then (s'.slUnlockNode (some (.leaf a))).bind fun s ↦
        some (.down s cursor p)
      else (s'.releasePassed cursor pending p).bind fun s ↦
        some (.findOrAdd s cursor (.leaf a) level none) := by
  rw [State.insertWalk, hnext]
  simp only [Option.bind_eq_bind, Option.bind_some, if_pos hle, hlock, hmoved, hmin, hmax, ge_iff_le,
    if_neg hle.not_gt, Bool.false_eq_true, if_false]
  by_cases hmax' : maxKey ≤ key
  · rw [if_pos hmax', if_pos hmax']
  · by_cases hmin' : key < minKey
    · by_cases hzero : level ≠ 0
      · rw [if_neg hmax', if_neg hmax', if_pos hmin', if_pos hzero, if_pos ⟨hmin', hzero⟩]
        rfl
      · rw [if_neg hmax', if_neg hmax', if_pos hmin', if_neg hzero,
          if_neg fun hand ↦ hzero hand.2]
        rfl
    · rw [if_neg hmax', if_neg hmax', if_neg hmin', if_neg fun hand ↦ hmin' hand.1]
      rfl

/-- **The inner loop of `skiplist_insert`** at a level where it takes locks -/
theorem Linked.insertWalk_locked {rounds : ℕ} (h : Linked s (passed ++ between ++ rest))
    (hcut : Cut key (passed ++ between) rest) (hle : level ≤ pending)
    (hpending : pending < skipMaxlevel) (htracked : Tracked lo passed pending level cursor)
    (hheld : Holding s locked fun n ↦ InCursor cursor n ∨ n = lastAt level passed)
    (hfuel : 0 < fuel) (hrounds : between.length < rounds) :
    ∃ r, State.insertWalk fuel key pending level rounds (s.withLocks locked) cursor
        (lastAt level passed) = some r ∧ Walked s key level (passed ++ between) rest cursor r := by
  obtain ⟨rounds, rfl⟩ := Nat.exists_eq_add_one.mpr (Nat.zero_lt_of_lt hrounds)
  have hlevel : level < skipMaxlevel := hle.trans_lt hpending
  induction between generalizing passed rounds locked with
  | nil =>
    rw [List.append_nil] at h hcut ⊢
    have hbehind : ∀ n, InCursor cursor n ∨ n = lastAt level passed →
        n ∈ Node.head :: nodesAt 0 passed := by
      rintro n (hn | rfl)
      · exact htracked.behind n hn
      · exact List.cons_subset_cons _ (tower_subset (Nat.zero_le level)) (lastOf_mem _ _)
    cases hfind : rest.find? fun e ↦ level ≤ e.height with
    | none =>
      have hnext : (s.withLocks locked).slNextLeaf fuel (lastAt level passed) level = some none := by
        have hlinked := h.withLocks locked
        rw [slNextLeaf_eq hlinked.nodes hlevel (hlinked.chains level hlevel) hfuel, hfind]
        rfl
      have hlow : ∀ e rest', rest = e :: rest' → e.minKey ≤ key → e.height < level := by
        rintro e rest' rfl -
        have hnot := List.find?_eq_none.mp hfind e List.mem_cons_self
        simpa using hnot
      rw [State.insertWalk, hnext]
      simp only [Option.bind_eq_bind, Option.bind_some]
      by_cases hzero : level = 0
      · subst hzero
        have hrest : rest = [] := by
          cases rest with
          | nil => rfl
          | cons e rest' => simp at hfind
        rcases List.eq_nil_or_concat passed with rfl | ⟨before, e, rfl⟩
        · rw [if_pos (.inl rfl)]
          exact ⟨_, rfl, .down locked hheld (.inr ⟨rfl, hrest⟩) hlow⟩
        · -- the key goes behind all leaves
          rw [List.concat_eq_append] at h hcut hheld ⊢
          rw [lastAt_concat_of_le (Nat.zero_le _)] at hheld ⊢
          rw [if_neg (not_or.mpr ⟨e.node_ne_head, not_not.mpr rfl⟩)]
          refine ⟨_, rfl, .found before [] e locked (by simp [hrest]) ⟨fun e' he' ↦ ?_, by simp⟩
            (Nat.zero_le _) (fun j hj ↦ (lastAt_concat_of_lt hj before).symm) (fun _ h ↦ h) hheld⟩
          exact hcut.below e' (by simp [he'])
      · rw [if_pos (.inr hzero)]
        exact ⟨_, rfl, .down locked hheld (.inl hzero) hlow⟩
    | some e =>
      have he : e ∈ rest := List.mem_of_find?_eq_some hfind
      have hreach := (exists_of_find? hfind).1
      obtain ⟨locked', hnext, hlock, hheld', hmoved⟩ := h.visit hlevel hfind hheld hbehind hfuel
      have hmin := (h.withLocks locked').slMinKey (List.mem_append_right _ he)
      have hmax := (h.withLocks locked').slMaxKey (List.mem_append_right _ he)
      rw [insertWalk_visit hle hnext hlock hmoved hmin hmax, if_neg (hcut.above e he).not_ge]
      have hnode := h.node_notMem he
      have hne : lastAt level passed ≠ e.node := fun heq ↦ hnode (heq ▸ hbehind _ (.inr rfl))
      split_ifs with hdown
      · have hpresent : s.present e.node = true :=
          h.nodes.allocated e (List.mem_append_right _ he)
        obtain ⟨hunlock, hheld''⟩ := hheld'.unlock hpresent (.inr rfl)
        change (s.withLocks locked').slUnlockNode (some (.leaf e.addr)) = _ at hunlock
        rw [hunlock]
        refine ⟨_, rfl, .down _ (hheld''.congr fun n _ ↦ ⟨fun hn ↦ hn.1.resolve_right hn.2,
          fun hn ↦ ⟨.inl hn, fun heq ↦ hnode (heq ▸ hbehind n hn)⟩⟩) (.inl hdown.2) ?_⟩
        intro e₀ rest' hrest hkey
        exact height_lt_of_find? hfind hrest fun heq ↦ absurd (heq ▸ hdown.1) hkey.not_gt
      · -- the leaf is the first one that ends behind the key
        obtain ⟨upper, rfl⟩ : ∃ upper, rest = e :: upper := by
          by_cases hkey : key < e.minKey
          · obtain rfl : level = 0 := not_and_not_right.mp hdown hkey
            cases rest with
            | nil => simp at hfind
            | cons e₀ upper => exact ⟨upper, by simpa using hfind⟩
          · exact h.first_of_find? hcut hfind hkey
        have hpresent := h.nodes.present (lastAt_mem level passed (e :: upper))
        obtain ⟨locked'', hrelease, hheld''⟩ :=
          releasePassed_eq htracked.beyond hheld' hpresent hne
        rw [hrelease]
        exact ⟨_, rfl, .found passed upper e locked'' rfl
          ⟨hcut.below, fun e' he' ↦ h.key_lt_minKey hcut he'⟩ hreach (fun _ _ ↦ rfl)
          (List.subset_append_left ..) hheld''⟩
  | cons e between ih =>
    have hassoc : passed ++ e :: between = passed ++ [e] ++ between := by simp
    have htracked' := htracked.walk (List.subset_append_left passed [e])
    rw [List.length_cons] at hrounds
    by_cases hreach : level ≤ e.height
    · obtain ⟨rounds, rfl⟩ := Nat.exists_eq_add_one.mpr (show 0 < rounds by omega)
      have he : e ∈ passed ++ e :: between ++ rest := by simp
      have hmaxle := hcut.below e (by simp)
      have hbehind : ∀ n, InCursor cursor n ∨ n = lastAt level passed →
          n ∈ Node.head :: nodesAt 0 passed := by
        rintro n (hn | rfl)
        · exact htracked.behind n hn
        · exact List.cons_subset_cons _ (tower_subset (Nat.zero_le level)) (lastOf_mem _ _)
      have hsplit : passed ++ e :: between ++ rest = passed ++ (e :: between ++ rest) := by simp
      have h' := hsplit ▸ h
      obtain ⟨locked', hnext, hlock, hheld', hmoved⟩ := h'.visit hlevel
        (List.find?_cons_of_pos (by simpa using hreach)) hheld hbehind hfuel
      have hne : lastAt level passed ≠ e.node := fun heq ↦
        h'.node_notMem (by simp) (heq ▸ hbehind _ (.inr rfl))
      rw [insertWalk_visit hle hnext hlock hmoved ((h.withLocks locked').slMinKey he)
        ((h.withLocks locked').slMaxKey he), if_pos hmaxle]
      obtain ⟨locked'', hrelease, hheld''⟩ := releasePassed_eq htracked.beyond hheld'
        (h'.nodes.present (lastAt_mem level passed _)) hne
      rw [hrelease]
      rw [hassoc] at h hcut ⊢
      rw [← lastAt_concat_of_le hreach passed] at hheld''
      have hrest := ih h hcut htracked' hheld'' rounds (by omega)
      rw [lastAt_concat_of_le hreach] at hrest
      exact hrest
    · rw [← lastAt_concat_of_lt (Nat.lt_of_not_le hreach) passed] at hheld ⊢
      rw [hassoc] at h hcut ⊢
      exact ih h hcut htracked' hheld rounds (by omega)

/-- **The inner loop of `skiplist_insert`** at a level above those where it takes locks -/
theorem Linked.insertWalk_free {rounds : ℕ} (cursor : Cursor) (h : Linked s (passed ++ between ++ rest))
    (hcut : Cut key (passed ++ between) rest) (hlt : pending < level) (hlevel : level < skipMaxlevel)
    (hfree : ∀ n, s.present n = true → s.locked n = false) (hfuel : 0 < fuel)
    (hrounds : between.length < rounds) :
    (State.insertWalk fuel key pending level rounds s cursor (lastAt level passed) =
        some (.down s cursor (lastAt level (passed ++ between))) ∧
      ∀ e rest', rest = e :: rest' → e.minKey ≤ key → e.height < level) ∨
    ∃ e rest', rest = e :: rest' ∧ level ≤ e.height ∧
      State.insertWalk fuel key pending level rounds s cursor (lastAt level passed) =
        some (.findOrAdd (s.withLocks (Function.update s.locked e.node true)) cursor e.node level
          (some e.node)) := by
  obtain ⟨rounds, rfl⟩ := Nat.exists_eq_add_one.mpr (Nat.zero_lt_of_lt hrounds)
  induction between generalizing passed rounds with
  | nil =>
    rw [List.append_nil] at h hcut ⊢
    have hzero : level ≠ 0 := by omega
    rw [State.insertWalk, slNextLeaf_eq h.nodes hlevel (h.chains level hlevel) hfuel]
    cases hfind : rest.find? fun e ↦ level ≤ e.height with
    | none =>
      left
      refine ⟨?_, fun e rest' hrest _ ↦ ?_⟩
      · simp only [Option.map_none, Option.bind_eq_bind, Option.bind_some, if_pos (Or.inr hzero)]
        rfl
      · have hnot := List.find?_eq_none.mp hfind e (by simp [hrest])
        simpa using hnot
    | some e =>
      have he : e ∈ rest := List.mem_of_find?_eq_some hfind
      have he' : e ∈ passed ++ rest := List.mem_append_right _ he
      have hprev := findLivePrev_find? h.nodes hlevel (h.chains level hlevel) hfind hfuel
      change s.findLivePrev fuel (.leaf e.addr) level = _ at hprev
      have hmax := hcut.above e he
      simp only [Option.map_some, Option.bind_eq_bind, Option.bind_some, if_neg hlt.not_ge,
        Bool.false_eq_true, if_false, h.slMinKey he', h.slMaxKey he', ge_iff_le, hmax.not_ge]
      by_cases hmin : key < e.minKey
      · left
        refine ⟨by simp [hmin, hlt, hprev, hzero], fun e₀ rest' hrest hkey ↦ ?_⟩
        exact height_lt_of_find? hfind hrest fun heq ↦ absurd (heq ▸ hmin) hkey.not_gt
      · right
        obtain ⟨upper, rfl⟩ := h.first_of_find? hcut hfind hmin
        have hpresent : s.present e.node = true := h.nodes.allocated e he'
        have hlock := State.slLockNode_eq hpresent (hfree _ hpresent)
        change s.slLockNode (.leaf e.addr) = _ at hlock
        have hlinked := h.withLocks (Function.update s.locked e.node true)
        refine ⟨e, upper, rfl, (exists_of_find? hfind).1, ?_⟩
        simp only [hmin, if_false, hlt, if_true, hlock, Option.bind_some,
          hlinked.slMinKey he', hlinked.slMaxKey he', hmax.not_ge, or_self]
        rfl
  | cons e between ih =>
    have hassoc : passed ++ e :: between = passed ++ [e] ++ between := by simp
    rw [List.length_cons] at hrounds
    by_cases hreach : level ≤ e.height
    · obtain ⟨rounds, rfl⟩ := Nat.exists_eq_add_one.mpr (show 0 < rounds by omega)
      have he : e ∈ passed ++ e :: between ++ rest := by simp
      have hmaxle := hcut.below e (by simp)
      have hsplit : passed ++ e :: between ++ rest = passed ++ (e :: between ++ rest) := by simp
      have hnext := slNextLeaf_eq (hsplit ▸ h.nodes) hlevel (hsplit ▸ h.chains level hlevel) hfuel
      rw [List.cons_append, List.find?_cons_of_pos (by simpa using hreach)] at hnext
      have hrun : State.insertWalk fuel key pending level (rounds + 1 + 1) s cursor
          (lastAt level passed) = State.insertWalk fuel key pending level (rounds + 1) s cursor
            (lastAt level (passed ++ [e])) := by
        rw [State.insertWalk, hnext, lastAt_concat_of_le hreach]
        simp only [Option.map_some, Option.bind_eq_bind, Option.bind_some, if_neg hlt.not_ge,
          Bool.false_eq_true, if_false, h.slMinKey he, h.slMaxKey he, ge_iff_le, hmaxle, if_true]
        rfl
      rw [hrun]
      rw [hassoc] at h hcut ⊢
      exact ih h hcut rounds (by omega)
    · rw [← lastAt_concat_of_lt (Nat.lt_of_not_le hreach) passed]
      rw [hassoc] at h hcut ⊢
      exact ih h hcut rounds (by omega)

end ParallelPrograms.ExtentList
