import ParallelPrograms.ExtentList.VerifyPath

/-!
# The levels of an insertion

`skiplist_insert` goes down from the highest level of the list. Above the levels of the new leaf it
takes no locks. Then it verifies the path, and from there on the cursor has a locked node for every
level above the one it searches. It ends with a locked leaf that the key can go into.
-/

namespace ParallelPrograms.ExtentList

open LinkedList Sequence

variable {α : Type} {s : State α} {passed between lo rest entries : List (Entry α)}
  {key level pending fuel : ℕ} {locked : Node → Bool} {cursor : Cursor}

/-- A leaf that the key can go into, with what is locked. Where the leaf has to be split, the cursor
has the nodes that the new leaf is linked behind. -/
structure Found (s : State α) (key pending : ℕ) (before : List (Entry α)) (e : Entry α)
    (after : List (Entry α)) (cursor : Cursor) (locked : Node → Bool) (level : ℕ)
    (insLocked : Option Node) : Prop where
  target : Target key before e after
  beyond : ∀ j, pending < j → cursor j = none
  above : e.slots.length = skipKeysPerNode → ∀ j, e.height < j → j ≤ pending →
    cursor j = some (lastAt j before)
  behind : ∀ n, InCursor cursor n → n ∈ Node.head :: nodesAt 0 (before ++ [e])
  runs : ∀ j k n, j ≤ k → cursor j = some n → cursor k = some n →
    ∀ m, j ≤ m → m ≤ k → cursor m = some n
  held : Holding s locked fun n ↦ InCursor cursor n ∨ n = e.node
  lock : insLocked = none ∧ level ≤ pending ∨ insLocked = some e.node ∧ ∀ j, cursor j = none

/-- How the search of an insertion ends. -/
inductive Reached (s : State α) (key pending : ℕ) (entries : List (Entry α)) :
    State.InsertEnd α → Prop where
  /-- The list is empty. The cursor has the head at every level of the new leaf. -/
  | empty (cursor : Cursor) (locked : Node → Bool) (hentries : entries = [])
      (hcursor : ∀ j, cursor j = if j ≤ pending then some .head else none)
      (hheld : Holding s locked fun n ↦ n = .head) :
      Reached s key pending entries (.down (s.withLocks locked) cursor .head)
  | found (before after : List (Entry α)) (e : Entry α) (cursor : Cursor) (locked : Node → Bool)
      (level : ℕ) (insLocked : Option Node) (hentries : entries = before ++ e :: after)
      (hfound : Found s key pending before e after cursor locked level insLocked) :
      Reached s key pending entries (.findOrAdd (s.withLocks locked) cursor e.node level insLocked)

/-- The leaf that the walk of a level has found. -/
theorem Tracked.found {before after : List (Entry α)} {e : Entry α}
    (h : Tracked lo passed pending level cursor) (hnodup : (Node.head :: lo.map Entry.node).Nodup)
    (hpassed : passed ⊆ lo) (hpending : level ≤ pending) (htarget : Target key before e after)
    (hle : level ≤ e.height) (hlast : ∀ j, e.height < j → lastAt j before = lastAt j lo)
    (hsub : lo ⊆ before ++ [e]) (hheld : Holding s locked fun n ↦ InCursor cursor n ∨ n = e.node) :
    Found s key pending before e after cursor locked level none where
  target := htarget
  beyond := h.beyond
  above _ j hj hjp := by rw [hlast j hj, h.above j (hle.trans_lt hj) hjp]
  behind := (h.walk (List.Subset.trans hpassed hsub)).behind
  runs _ _ _ hjk hj hk _ := h.runs hnodup hjk hj hk
  held := hheld
  lock := .inl ⟨rfl, hpending⟩

/-- **A level at which `skiplist_insert` takes locks** -/
theorem Linked.insertLevel_locked (h : Linked s (lo ++ rest)) (hcut : Cut key lo rest)
    (hsplit : lo = passed ++ between) (hle : level ≤ pending) (hpending : pending < skipMaxlevel)
    (htracked : Tracked lo passed pending level cursor)
    (hheld : Holding s locked fun n ↦ InCursor cursor n ∨ n = lastAt level passed)
    (hfuel : lo.length < fuel) :
    (∃ r, State.insertLevels fuel key pending (level + 1) (s.withLocks locked) cursor
      (lastAt level passed) = some r ∧ Reached s key pending (lo ++ rest) r) ∨
    ∃ locked', State.insertLevels fuel key pending (level + 1) (s.withLocks locked) cursor
        (lastAt level passed) = State.insertLevels fuel key pending level (s.withLocks locked')
          (Function.update cursor level (some (lastAt level lo))) (lastAt level lo) ∧
      Holding s locked' (InCursor (Function.update cursor level (some (lastAt level lo)))) ∧
      (level ≠ 0 ∨ lo = [] ∧ rest = []) := by
  have hnodup : (Node.head :: lo.map Entry.node).Nodup := by
    have hall := (h.chains 0 (by decide)).nodup
    rw [nodesAt_append, ← List.cons_append, nodesAt, tower_zero] at hall
    exact (List.nodup_append.mp hall).1
  have hpassed : passed ⊆ lo := hsplit ▸ List.subset_append_left ..
  have hlen : between.length < fuel := by
    rw [hsplit, List.length_append] at hfuel
    omega
  obtain ⟨r, hwalk, hwalked⟩ := Linked.insertWalk_locked (hsplit ▸ h) (hsplit ▸ hcut) hle hpending
    (hsplit ▸ htracked) hheld (Nat.zero_lt_of_lt hfuel) hlen
  rw [← hsplit] at hwalked
  rw [State.insertLevels, hwalk]
  cases hwalked with
  | found before after e locked' hentries htarget hreach hlast hsub hheld' =>
    exact .inl ⟨_, rfl, .found before after e cursor locked' level none hentries
      (htracked.found hnodup hpassed hle htarget hreach hlast hsub hheld')⟩
  | down locked' hheld' hlevel hlow =>
    right
    have hpresent : ∀ n, InCursor cursor n → s.present n = true := fun n hn ↦ by
      have hmem := (htracked.walk hpassed).behind n hn
      have hall : n ∈ Node.head :: nodesAt 0 (lo ++ rest) := by
        rw [nodesAt_append, ← List.cons_append]
        exact List.mem_append_left _ hmem
      exact h.nodes.present hall
    obtain ⟨locked'', hadd, hheld''⟩ := htracked.addLockedToCursor_eq hle hpending hheld' hpresent
    refine ⟨locked'', ?_, hheld'', hlevel⟩
    simp only [Option.bind_eq_bind, Option.bind_some, if_pos hle, hadd,
      if_neg (show level ≠ pending + 1 by omega)]

/-- **The levels at which `skiplist_insert` takes locks** -/
theorem Linked.insertLevels_locked (h : Linked s (lo ++ rest)) (hcut : Cut key lo rest)
    (hsplit : lo = passed ++ between) (hle : level ≤ pending) (hpending : pending < skipMaxlevel)
    (htracked : Tracked lo passed pending level cursor)
    (hheld : Holding s locked fun n ↦ InCursor cursor n ∨ n = lastAt level passed)
    (hfuel : lo.length < fuel) :
    ∃ r, State.insertLevels fuel key pending (level + 1) (s.withLocks locked) cursor
        (lastAt level passed) = some r ∧ Reached s key pending (lo ++ rest) r := by
  induction level generalizing passed between cursor locked with
  | zero =>
    rcases h.insertLevel_locked hcut hsplit hle hpending htracked hheld hfuel with
      hdone | ⟨locked', hrun, hheld', hzero⟩
    · exact hdone
    · obtain ⟨rfl, rfl⟩ := hzero.resolve_left (not_not.mpr rfl)
      have hcursor : ∀ j, Function.update cursor 0 (some Node.head) j =
          if j ≤ pending then some .head else none := by
        intro j
        rcases Nat.eq_zero_or_pos j with rfl | hj
        · rw [Function.update_self, if_pos hle]
        · rw [Function.update_of_ne hj.ne']
          split_ifs with hjp
          · exact htracked.above j hj hjp
          · exact htracked.beyond j (Nat.lt_of_not_le hjp)
      refine ⟨_, hrun, .empty _ locked' rfl hcursor (hheld'.congr fun n _ ↦ ⟨?_, ?_⟩)⟩
      · rintro ⟨j, hj⟩
        change Function.update cursor 0 (some Node.head) j = some n at hj
        rw [hcursor] at hj
        split_ifs at hj
        exact (Option.some.inj hj).symm
      · rintro rfl
        exact ⟨0, Function.update_self ..⟩
  | succ level ih =>
    rcases h.insertLevel_locked hcut hsplit hle hpending htracked hheld hfuel with
      hdone | ⟨locked', hrun, hheld', -⟩
    · exact hdone
    · obtain ⟨passed', ahead, hsplit', hlow, hlast⟩ := exists_passed Node.head level lo
      have hsame : lastAt (level + 1) lo = lastAt level passed' := hlast
      have htracked' := htracked.down hle hsplit' hlow
      rw [hrun]
      rw [hsame] at hheld' htracked' ⊢
      refine ih hsplit' (by omega) htracked' (hheld'.congr fun n _ ↦ ⟨.inl, ?_⟩)
      rintro (hn | rfl)
      · exact hn
      · exact ⟨level + 1, Function.update_self ..⟩

/-- Where no locks are held, the lock of one node is taken. -/
theorem Holding.of_free {n : Node} (hfree : ∀ m, s.present m = true → s.locked m = false) :
    Holding s (Function.update s.locked n true) fun m ↦ m = n := by
  intro m hm
  rw [Function.update_apply]
  split_ifs with heq
  · simp [heq]
  · simp [heq, hfree m hm]

/-- A leaf that is found before the cursor is used, and locked. -/
theorem Found.of_free {before after : List (Entry α)} {e : Entry α}
    (htarget : Target key before e after)
    (hroom : e.slots.length = skipKeysPerNode → pending ≤ e.height)
    (hfree : ∀ n, s.present n = true → s.locked n = false) :
    Found s key pending before e after (fun _ ↦ none) (Function.update s.locked e.node true) level
      (some e.node) := by
  have hnot : ∀ n, ¬ InCursor (fun _ ↦ none) n := fun n ⟨_, hj⟩ ↦
    absurd hj.symm (Option.some_ne_none n)
  refine ⟨htarget, fun _ _ ↦ rfl, fun hfull j hj hjp ↦ ?_, fun n hn ↦ absurd hn (hnot n),
    fun j k n _ hj ↦ absurd hj.symm (Option.some_ne_none n), ?_, .inr ⟨rfl, fun _ ↦ rfl⟩⟩
  · exact absurd (hroom hfull) (hj.trans_le hjp).not_ge
  · exact (Holding.of_free hfree).congr fun n _ ↦ ⟨.inr, fun hn ↦ hn.resolve_left (hnot n)⟩

/-- **The levels above those at which `skiplist_insert` takes locks** -/
theorem Linked.insertLevels_free (h : Linked s (lo ++ rest)) (hcut : Cut key lo rest)
    (hsplit : lo = passed ++ between) (hlt : pending < level) (hlevel : level < skipMaxlevel)
    (hfree : ∀ n, s.present n = true → s.locked n = false) (hfuel : lo.length < fuel) :
    ∃ r, State.insertLevels fuel key pending (level + 1) s (fun _ ↦ none) (lastAt level passed) =
        some r ∧ Reached s key pending (lo ++ rest) r := by
  obtain ⟨rounds, hrounds⟩ := Nat.exists_eq_add_one.mpr (Nat.zero_lt_of_lt hfuel)
  induction level generalizing passed between with
  | zero => exact absurd hlt (Nat.not_lt_zero _)
  | succ level ih =>
    have hlen : between.length < fuel := by
      rw [hsplit, List.length_append] at hfuel
      omega
    obtain ⟨passed', ahead, hsplit', hlow', hlast⟩ := exists_passed Node.head level lo
    have hsame : lastAt (level + 1) lo = lastAt level passed' := hlast
    rw [State.insertLevels]
    rcases Linked.insertWalk_free (fun _ ↦ none) (hsplit ▸ h) (hsplit ▸ hcut) hlt hlevel
      hfree (Nat.zero_lt_of_lt hfuel) hlen with ⟨hwalk, hlow⟩ | ⟨e, rest', rfl, hreach, hwalk⟩
    · rw [← hsplit] at hwalk
      rw [hwalk]
      simp only [Option.bind_eq_bind, Option.bind_some, if_neg hlt.not_ge]
      by_cases hverify : level + 1 = pending + 1
      · -- the path is verified here, and the lock of its node is the first one
        obtain rfl : level = pending := Nat.succ.inj hverify
        have hnext : ∀ e, (rest.find? fun e ↦ level + 1 ≤ e.height) = some e → key < e.minKey := by
          intro e hfind
          by_contra hkey
          obtain ⟨rest', rfl⟩ := h.first_of_find? hcut hfind hkey
          have hreach := (exists_of_find? hfind).1
          exact (hlow e rest' rfl (Nat.le_of_not_lt hkey)).not_ge hreach
        have hpath := h.verifyKeyInPath_eq rounds hcut.below hlevel hnext hfree
        rw [← hrounds] at hpath
        rw [if_pos rfl, hpath]
        simp only [Option.bind_some]
        rw [hsame]
        have hcursor : ∀ j, Function.update (fun _ ↦ none : Cursor) level
            (some (lastAt level passed')) j = if j = level then some (lastAt level passed') else none :=
          fun j ↦ Function.update_apply ..
        refine h.insertLevels_locked hcut hsplit' le_rfl (by omega)
          ⟨fun j hj ↦ ?_, fun j hj hjp ↦ by omega, fun _ _ hself ↦ by omega, fun j hj ↦ ?_, ?_⟩
          ((Holding.of_free hfree).congr fun n _ ↦ ⟨.inr, ?_⟩) hfuel
        · rw [hcursor, if_neg hj.ne']
        · rw [hcursor, if_neg hj.ne]
        · rintro n ⟨j, hj⟩
          rw [hcursor] at hj
          split_ifs at hj
          rw [← Option.some.inj hj]
          exact List.cons_subset_cons _ (tower_subset (Nat.zero_le level)) (lastOf_mem _ _)
        · rintro (⟨j, hj⟩ | rfl)
          · rw [hcursor] at hj
            split_ifs at hj
            exact (Option.some.inj hj).symm
          · rfl
      · rw [if_neg hverify, hsame]
        exact ih hsplit' (by omega) (by omega)
    · rw [hwalk]
      exact ⟨_, rfl, .found lo rest' e _ _ (level + 1) (some e.node) rfl (Found.of_free
        ⟨hcut.below, fun e' he' ↦ h.key_lt_minKey hcut he'⟩ (fun _ ↦ by omega) hfree)⟩

end ParallelPrograms.ExtentList
