import ParallelPrograms.ExtentList.InsertSearch

/-!
# Inserting an extent

`skiplist_insert` takes the last leaf when the key goes there, and otherwise searches for a leaf and
keeps what a split of it needs. It adds the slot or finds an extent that overlaps it, and then it
releases all locks that it has taken.
-/

namespace ParallelPrograms.ExtentList

open LinkedList Sequence

variable {α : Type}

/-- No lock is held. -/
def State.Unlocked (s : State α) : Prop := ∀ n, s.present n = true → s.locked n = false

/-- What `skiplist_insert` does to a list, with its result. -/
inductive Insertion (s : State α) (entries : List (Entry α)) (slot : SlSlot α) :
    ℤ → State α → List (Entry α) → Prop where
  | added (s' : State α) (entries' : List (Entry α)) (hadded : Added s entries slot s' entries')
      (hfree : s'.Unlocked) : Insertion s entries slot 0 s' entries'
  | overlap (locked : Node → Bool) (hfree : (s.withLocks locked).Unlocked)
      (hmeets : ∃ t ∈ contents entries, Overlaps slot.key slot.size t) :
      Insertion s entries slot (-eexist) (s.withLocks locked) entries

section Insertion

variable {s s' : State α} {entries entries' : List (Entry α)} {slot : SlSlot α} {ret : ℤ}

theorem Insertion.length_le (h : Insertion s entries slot ret s' entries') :
    entries'.length ≤ entries.length + 1 := by
  cases h with
  | added s' entries' hadded hfree => exact hadded.length_le
  | overlap locked hfree hmeets => exact Nat.le_succ _

/-- The preemption counter does not go down. -/
theorem Insertion.preempt_le (h : Insertion s entries slot ret s' entries') :
    s.preempt ≤ s'.preempt := by
  cases h with
  | added s' entries' hadded hfree => exact hadded.preempt
  | overlap locked hfree hmeets => exact Int.le_refl _

end Insertion

section Unlock

variable {s s' : State α} {entries before after : List (Entry α)} {e : Entry α} {slot : SlSlot α}
  {locked : Node → Bool} {cursor : Cursor} {key pending level : ℕ} {insLocked : Option Node}

/-- The locks do not matter for what has been added. -/
theorem Added.withLocks (h : Added (s.withLocks locked) entries slot s' before)
    (locked' : Node → Bool) : Added s entries slot (s'.withLocks locked') before :=
  ⟨h.linked.withLocks locked', h.contents, h.allocated, h.height, h.dead, h.freed, h.level,
    h.preempt, h.owners⟩

/-- **The end of `skiplist_insert`** releases all locks. -/
theorem Found.unlock (s' : State α)
    (h : Found s key pending before e after cursor locked level insLocked)
    (hlinked : Linked s (before ++ e :: after)) (hallocated : s'.allocated = s.allocated)
    (hlocked : s'.locked = locked) {last : Option Node}
    (hlast : last = none ∧ InCursor cursor e.node ∨ last = some e.node ∧ ¬ InCursor cursor e.node) :
    ∃ cursor' locked₁ locked₂,
      s'.freeCursorLocks cursor pending = some (cursor', s'.withLocks locked₁) ∧
      (s'.withLocks locked₁).slUnlockNode last = some (s'.withLocks locked₂) ∧
      (s'.withLocks locked₂).Unlocked := by
  have hpresent : ∀ n, s'.present n = s.present n := by
    intro n
    cases n with
    | head => rfl
    | leaf a => exact congrFun hallocated a
  have hin : ∀ n, InCursorBelow cursor (pending + 1) n ↔ InCursor cursor n := by
    intro n
    constructor
    · rintro ⟨j, -, hj⟩
      exact ⟨j, hj⟩
    · rintro ⟨j, hj⟩
      refine ⟨j, Nat.lt_succ_of_le (Nat.le_of_not_lt fun hlt ↦ ?_), hj⟩
      rw [h.beyond j hlt] at hj
      exact absurd hj.symm (Option.some_ne_none n)
  have hheld : Holding s' s'.locked fun n ↦ InCursorBelow cursor (pending + 1) n ∨
      n = e.node ∧ ¬ InCursor cursor n := by
    intro n hn
    rw [hpresent] at hn
    rw [hlocked]
    refine (h.held n hn).trans ?_
    simp only [hin]
    tauto
  have hplaces : ∀ j < pending + 1, ∀ n, cursor j = some n →
      s'.present n = true ∧ ¬ (n = e.node ∧ ¬ InCursor cursor n) := by
    intro j _ n hj
    refine ⟨?_, fun hn ↦ hn.2 ⟨j, hj⟩⟩
    have hmem := h.behind n ⟨j, hj⟩
    rw [hpresent]
    have hall : n ∈ Node.head :: nodesAt 0 (before ++ e :: after) := by
      rw [List.append_cons, nodesAt_append, ← List.cons_append]
      exact List.mem_append_left _ hmem
    exact hlinked.nodes.present hall
  obtain ⟨cursor', locked₁, hrun, hrest⟩ := freeCursorFrom_eq hheld hplaces
    fun j k n hjk _ hj hk m ↦ h.runs j k n hjk hj hk m
  rcases hlast with ⟨rfl, hcursor⟩ | ⟨rfl, hcursor⟩
  · refine ⟨cursor', locked₁, locked₁, hrun, rfl, fun n hn ↦ ?_⟩
    rw [← Bool.not_eq_true, State.withLocks_locked, hrest n hn]
    rintro ⟨rfl, hn'⟩
    exact hn' hcursor
  · obtain ⟨hunlock, hfree⟩ := hrest.unlock (n := e.node)
      (by rw [hpresent]; exact hlinked.nodes.allocated e (by simp)) ⟨rfl, hcursor⟩
    refine ⟨cursor', locked₁, _, hrun, hunlock, fun n hn ↦ ?_⟩
    rw [← Bool.not_eq_true, State.withLocks_locked, hfree n hn]
    exact fun hn' ↦ hn'.2 hn'.1.1

end Unlock

section Found

variable {s : State α} {entries before after : List (Entry α)} {e : Entry α} {slot : SlSlot α}
  {locked : Node → Bool} {cursor : Cursor} {token fuel level : ℕ} {a : Addr}
  {insLocked : Option Node}

/-- What has to be locked to split the leaf is locked. -/
theorem Found.placed {key : ℕ}
    (h : Found s key (s.height (.leaf a)) before e after cursor locked level insLocked)
    (hlinked : Linked s (before ++ e :: after)) (hmem : Memory s (before ++ e :: after)) :
    (∀ n ∈ nodesAt 0 after, locked n = false) ∧
    (e.slots.length = skipKeysPerNode →
      Placed (s.withLocks locked) before e after (some cursor) (s.height (.leaf a))) := by
  have hsplit : before ++ e :: after = before ++ [e] ++ after := List.append_cons ..
  have hlow : ∀ n, s.present n = true → locked n = true →
      n ∈ Node.head :: nodesAt 0 (before ++ [e]) := by
    intro n hn hl
    rcases (h.held n hn).mp hl with hin | rfl
    · exact h.behind n hin
    · exact mem_nodesAt (by simp) (Nat.zero_le _)
  have hahead : ∀ n ∈ nodesAt 0 after, locked n = false := by
    intro n hn
    obtain ⟨e', he', -, rfl⟩ := mem_tower.mp hn
    rw [← Bool.not_eq_true]
    exact fun hl ↦ (hsplit ▸ hlinked).node_notMem he'
      (hlow _ (hlinked.nodes.allocated e' (by simp [he'])) hl)
  refine ⟨hahead, fun hfull ↦ ⟨?_, fun j hj hle ↦ ?_, hahead, fun token' b hb ↦ ?_⟩⟩
  · exact (h.held e.node (hlinked.nodes.allocated e (by simp))).mpr (.inr rfl)
  · have hcursor := h.above hfull j hj hle
    exact ⟨hcursor, (h.held _ (hlinked.nodes.present (lastAt_mem j before (e :: after)))).mpr
      (.inl ⟨j, hcursor⟩)⟩
  · -- a preloaded leaf is not in the list
    obtain ⟨hallocated, hfresh⟩ := hmem.preloaded hb
    rw [← Bool.not_eq_true]
    intro hl
    have hmem' := List.mem_of_ne_of_mem Node.noConfusion (hlow (.leaf b) hallocated hl)
    obtain ⟨e', he', -, heq⟩ := mem_tower.mp hmem'
    exact hfresh e' (by rw [hsplit]; exact List.mem_append_left _ he') (Node.leaf.inj heq)

/-- **`skiplist_insert` from the label `find_or_add` on** -/
theorem Found.insertFound_eq
    (h : Found s slot.key (s.height (.leaf a)) before e after cursor locked level insLocked)
    (hlinked : Linked s (before ++ e :: after)) (hmem : Memory s (before ++ e :: after))
    (hs : slot.Valid) (ha : s.preload token = some a) (hfuel : 0 < fuel) :
    ∃ ret s' entries', (s.withLocks locked).insertFound fuel slot token (s.height (.leaf a)) cursor
        e.node level insLocked = some (.done ret s') ∧
      Insertion s (before ++ e :: after) slot ret s' entries' := by
  obtain ⟨hahead, hplaced⟩ := h.placed hlinked hmem
  have hfind := (hlinked.withLocks locked).findOrAddKey_eq
    (hmem.congr rfl rfl rfl rfl rfl) h.target hs ha hahead hplaced hfuel
  obtain ⟨last, hlast, hrun⟩ : ∃ last,
      (last = none ∧ InCursor cursor e.node ∨ last = some e.node ∧ ¬ InCursor cursor e.node) ∧
      (s.withLocks locked).insertFound fuel slot token (s.height (.leaf a)) cursor e.node level
        insLocked = ((s.withLocks locked).findOrAddKey fuel slot.key slot.size e.addr slot
          (some cursor) token).bind fun x ↦ (x.2.freeCursorLocks cursor (s.height (.leaf a))).bind
            fun y ↦ (y.2.slUnlockNode last).bind fun s' ↦ some (.done x.1 s') := by
    have hentry : e.node.slEntry = some e.addr := rfl
    rw [State.insertFound, hentry]
    simp only [Option.bind_eq_bind, Option.bind_some]
    rcases h.lock with ⟨rfl, hle⟩ | ⟨rfl, hnone⟩
    · by_cases hin : InCursor cursor e.node
      · refine ⟨none, .inl ⟨rfl, hin⟩, ?_⟩
        rw [if_pos rfl, if_neg hle.not_gt, if_pos ((foundInCursor_iff h.beyond).mpr hin)]
        rfl
      · refine ⟨some e.node, .inr ⟨rfl, hin⟩, ?_⟩
        rw [if_pos rfl, if_neg hle.not_gt, if_neg (mt (foundInCursor_iff h.beyond).mp hin)]
        rfl
    · refine ⟨some e.node, .inr ⟨rfl, ?_⟩, ?_⟩
      · rintro ⟨j, hj⟩
        rw [hnone j] at hj
        exact absurd hj.symm (Option.some_ne_none e.node)
      · rw [if_neg (Option.some_ne_none e.node)]
        rfl
  rw [hrun]
  rcases hfind with ⟨hret, hmeets⟩ | ⟨s', entries', hret, hinserted⟩
  · obtain ⟨cursor', locked₁, locked₂, hcursor, hunlock, hfree⟩ :=
      h.unlock (s.withLocks locked) hlinked rfl rfl hlast
    refine ⟨_, _, _, ?_, .overlap locked₂ hfree hmeets⟩
    simp only [hret, Option.bind_some, hcursor, hunlock]
    rfl
  · obtain ⟨cursor', locked₁, locked₂, hcursor, hunlock, hfree⟩ :=
      h.unlock s' hlinked hinserted.allocated hinserted.locked hlast
    refine ⟨_, _, _, ?_, .added _ _ (hinserted.toAdded.withLocks locked₂) hfree⟩
    simp only [hret, Option.bind_some, hcursor, hunlock]

end Found

section First

variable {s : State α} {slot : SlSlot α} {locked : Node → Bool} {cursor : Cursor}
  {token fuel : ℕ} {a : Addr}

/-- **`skiplist_insert` into an empty list** -/
theorem Linked.insertFirst_eq (h : Linked s []) (hmem : Memory s []) (hs : slot.Valid)
    (ha : s.preload token = some a)
    (hcursor : ∀ j, cursor j = if j ≤ s.height (.leaf a) then some .head else none)
    (hheld : Holding s locked fun n ↦ n = .head) (hle : s.height (.leaf a) ≤ s.level + 1)
    (hfuel : 0 < fuel) :
    ∃ s' entries', (s.withLocks locked).insertFirst fuel slot token (s.height (.leaf a)) cursor =
        some (.done 0 s') ∧ Insertion s [] slot 0 s' entries' := by
  obtain ⟨hallocated, -⟩ := hmem.preloaded ha
  obtain ⟨htoken, hheight, halive⟩ := hmem.ready token a ha
  set top := s.height (.leaf a) with htop
  set leaf := SlLeaf.startLeaf (s.leaves a) slot slot.key with hleaf
  set s₀ := (((s.withLocks locked).withPreempt (s.preempt + 1)).withPreload
    (Function.update s.preload token none)).withLeaves (Function.update s.leaves a leaf) with hs₀
  set s₁ := s₀.withLevel (max s.level top) with hs₁
  have hbound : top < skipMaxlevel := hheight.trans_lt htoken
  have hnodes : Nodes s₁ ([] ++ []) := h.nodes.congr rfl rfl rfl
  have hvalid : ∀ j < 0 + (top + 1), s₁.valid (.leaf a) j = true := by
    intro j hj
    have hj' : j ≤ top := by omega
    simp [State.valid, State.present, hs₁, hs₀, hallocated, ← htop, hj']
  have hprev : ∀ j, 0 ≤ j → j < 0 + (top + 1) →
      cursor j = some (lastAt j ([] : List (Entry α))) ∧
        s₁.locked (lastAt j ([] : List (Entry α))) = true :=
    fun j _ hj ↦ ⟨(hcursor j).trans (if_pos (by omega)), (hheld .head rfl).mpr rfl⟩
  obtain ⟨next, prev, hlink, hchains⟩ := linkLevels_eq hnodes (by omega)
    (fun j _ hj ↦ h.chains j (by omega)) hvalid (by simp) hprev (by simp) hfuel
  set s₂ := s₁.withLinks next prev with hs₂
  have hlinked : Linked s₂ [⟨a, top, [slot]⟩] := by
    have hold : Linked (((s.withLocks locked).withPreempt (s.preempt + 1)).withPreload
        (Function.update s.preload token none)) ([] ++ []) :=
      h.congr rfl rfl rfl rfl rfl rfl fun _ _ ↦ rfl
    refine Linked.link ⟨a, top, [slot]⟩ hold hallocated rfl halive (by simp)
      (SlLeaf.Holds.startLeaf hs _) (List.cons_ne_nil _ _) ?_ (le_max_left ..) (le_max_right ..)
      (max_lt h.bound hbound) hchains
    exact ⟨by simp [Apart], by simpa using hs⟩
  have hin : ∀ n, InCursorBelow cursor (max s.level top + 1) n ↔ n = .head := by
    intro n
    constructor
    · rintro ⟨j, -, hj⟩
      rw [hcursor] at hj
      split_ifs at hj
      exact (Option.some.inj hj).symm
    · rintro rfl
      exact ⟨0, Nat.succ_pos _, (hcursor 0).trans (if_pos (Nat.zero_le _))⟩
  have hruns : ∀ j k n, j ≤ k → k < max s.level top + 1 → cursor j = some n → cursor k = some n →
      ∀ m, j ≤ m → m ≤ k → cursor m = some n := by
    intro j k n _ _ _ hk m _ hmk
    rw [hcursor] at hk ⊢
    split_ifs at hk with hkt
    rwa [if_pos (hmk.trans hkt)]
  have hheld' : Holding s₂ locked fun n ↦ InCursorBelow cursor (max s.level top + 1) n ∨ False :=
    fun n hn ↦ (hheld n hn).trans (by simp only [hin, or_false])
  have hplaces : ∀ j < max s.level top + 1, ∀ n, cursor j = some n →
      s₂.present n = true ∧ ¬ False := fun j hj n hn ↦ by
    rw [(hin n).mp ⟨j, hj, hn⟩]
    exact ⟨rfl, not_false⟩
  obtain ⟨cursor', locked', hfree, hrest⟩ := freeCursorFrom_eq hheld' hplaces hruns
  have hadded : Added (s.withLocks locked) [] slot s₂ [⟨a, top, [slot]⟩] := by
    refine ⟨hlinked, ⟨[], [], rfl, rfl⟩, rfl, rfl, rfl, rfl, le_max_left .., ?_,
      .inr ⟨token, a, ha, rfl, List.Perm.refl _⟩⟩
    change s.preempt ≤ s.preempt + 1
    omega
  refine ⟨_, _, ?_, .added _ _ (hadded.withLocks locked') fun n hn ↦ by simpa using hrest n hn⟩
  have halloc : (s.withLocks locked).allocLeaf slot slot.key token = some (a, s₀) := by
    simp [State.allocLeaf, State.getCpuVar, State.getLeaf, State.setLeaf, ha, hallocated]
    rfl
  have hbump : (if s₀.height (.leaf a) > s₀.level then
      (Function.update cursor (s₀.level + 1) (some .head), { s₀ with level := s₀.level + 1 })
      else (cursor, s₀)) = (cursor, s₁) := by
    change (if top > s.level then
      (Function.update cursor (s.level + 1) (some .head), s₀.withLevel (s.level + 1))
      else (cursor, s₀)) = _
    split_ifs with hlt
    · obtain hsame : top = s.level + 1 := by omega
      rw [Function.update_eq_self_iff.mpr ((hcursor _).trans (if_pos hsame.ge)).symm, hs₁,
        max_eq_right hlt.le, hsame]
    · rw [hs₁, max_eq_left (Nat.le_of_not_lt hlt)]
      rfl
  have hzero : cursor 0 ≠ none := by simp [hcursor]
  rw [State.insertFirst]
  simp only [Option.bind_eq_bind, if_neg hzero, Option.bind_some, Bool.false_eq_true, if_false,
    halloc, hbump]
  change (State.linkLevels fuel (.leaf a) cursor (top + 1) 0 s₁).bind _ = _
  rw [hlink]
  change (State.freeCursorFrom (max s.level top + 1) cursor (s₂.withLocks locked)).bind _ = _
  rw [hfree]
  rfl

end First

section Last

variable {s : State α} {entries : List (Entry α)} {e : Entry α} {key : ℕ}

/-- **`sl_last_leaf`** -/
theorem Linked.slLastLeaf_eq (h : Linked s entries) :
    s.slLastLeaf = some (entries.getLast?.map Entry.addr) := by
  have hvalid : s.valid .head 0 = true := h.nodes.valid (by decide) List.mem_cons_self
  have hlast := (h.chains 0 (by decide)).last
  rw [nodesAt, tower_zero, List.getLast?_map] at hlast
  rw [State.slLastLeaf, State.getPrev, if_pos hvalid, hlast]
  cases entries.getLast? <;> rfl

theorem Linked.goesToLast_eq (h : Linked s entries) (he : e ∈ entries) (pending : ℕ) :
    s.goesToLast e.addr key pending = some (decide (e.minKey ≤ key) &&
      (decide (pending = 0) || decide (e.slots.length < skipKeysPerNode))) := by
  have hmin := h.slMinKey he
  rw [State.slMinKey, h.getLeaf he, Option.map_some, Option.some.injEq] at hmin
  rw [State.goesToLast, h.getLeaf he]
  simp only [Option.bind_eq_bind, Option.bind_some, hmin, (h.holds e he).nr]
  rfl

/-- **The first part of `skiplist_insert`** locks the last leaf when the key goes there. -/
theorem Linked.lockLast_eq (h : Linked s entries) (hfree : s.Unlocked) (key pending : ℕ) :
    s.lockLast key pending = some (none, s) ∨
    ∃ before e, entries = before ++ [e] ∧ e.minKey ≤ key ∧
      (pending = 0 ∨ e.slots.length < skipKeysPerNode) ∧ s.lockLast key pending =
        some (some e.addr, s.withLocks (Function.update s.locked e.node true)) := by
  rw [State.lockLast, h.slLastLeaf_eq]
  rcases List.eq_nil_or_concat entries with rfl | ⟨before, e, rfl⟩
  · exact .inl rfl
  · rw [List.concat_eq_append] at h ⊢
    have he : e ∈ before ++ [e] := by simp
    have hpresent : s.present e.node = true := h.nodes.allocated e he
    have hlock := State.slLockNode_eq hpresent (hfree _ hpresent)
    change s.slLockNode (.leaf e.addr) = _ at hlock
    have hlinked := h.withLocks (Function.update s.locked e.node true)
    have hdead := hlinked.nodes.getDead (mem_nodesAt he (Nat.zero_le _))
    change (s.withLocks _).getDead (.leaf e.addr) = _ at hdead
    have hchain := hlinked.chains 0 (by decide)
    rw [← List.append_nil (before ++ [e])] at hlinked hchain
    have hnext := getNext_eq hlinked.nodes (by decide) hchain
    rw [List.append_nil] at hlinked
    rw [lastAt_concat_of_le (Nat.zero_le _)] at hnext
    change (s.withLocks _).getNext 0 (.leaf e.addr) = _ at hnext
    simp only [List.getLast?_concat, Option.map_some, Option.bind_eq_bind, Option.bind_some,
      h.goesToLast_eq he, hlock, hdead, hlinked.goesToLast_eq he, hlinked.slLastLeaf_eq, hnext]
    by_cases hgoes : e.minKey ≤ key ∧ (pending = 0 ∨ e.slots.length < skipKeysPerNode)
    · exact .inr ⟨before, e, rfl, hgoes.1, hgoes.2, by simp [hgoes]⟩
    · left
      simp [hgoes]

end Last

section Insert

variable {s : State α} {entries : List (Entry α)} {slot : SlSlot α} {token fuel : ℕ} {a : Addr}

/-- **`skiplist_insert` from the label `again` on** -/
theorem Linked.insertAgain_eq (rounds : ℕ) (h : Linked s entries) (hmem : Memory s entries)
    (hfree : s.Unlocked) (hs : slot.Valid) (ha : s.preload token = some a)
    (htoken : token ≤ s.level + 1) (hfuel : entries.length < fuel) :
    ∃ ret s' entries', State.insertAgain fuel slot token (rounds + 1) s (fun _ ↦ none)
        (s.height (.leaf a)) = some (ret, s') ∧ Insertion s entries slot ret s' entries' := by
  obtain ⟨hplace, hheight, -⟩ := hmem.ready token a ha
  have hpending : s.height (.leaf a) < skipMaxlevel := hheight.trans_lt hplace
  have hle := hheight.trans htoken
  have hpos := Nat.zero_lt_of_lt hfuel
  obtain ⟨r, hsearch, hreached⟩ :=
    h.insertSearch_eq slot.key hfree hpending hle hfuel
  rw [State.insertAgain]
  simp only [Option.bind_eq_bind, min_eq_left hpending.le, hsearch, Option.bind_some]
  cases hreached with
  | empty cursor locked hentries hcursor hheld =>
    subst hentries
    obtain ⟨s', entries', hfirst, hinsertion⟩ :=
      h.insertFirst_eq hmem hs ha hcursor hheld hle hpos
    exact ⟨0, s', entries', by simp only [hfirst]; rfl, hinsertion⟩
  | found before after e cursor locked level insLocked hentries hfound =>
    subst hentries
    obtain ⟨ret, s', entries', hrun, hinsertion⟩ := hfound.insertFound_eq h hmem hs ha hpos
    exact ⟨ret, s', entries', by simp only [hrun]; rfl, hinsertion⟩

/-- **`skiplist_insert`** -/
theorem Linked.skiplistInsert_eq (h : Linked s entries) (hmem : Memory s entries)
    (hfree : s.Unlocked) (hs : slot.Valid) (ha : s.preload token = some a)
    (htoken : token ≤ s.level + 1) (hfuel : entries.length < fuel) :
    ∃ ret s' entries', s.skiplistInsert fuel slot token = some (ret, s') ∧
      Insertion (s.withPreempt (s.preempt + 2)) entries slot ret s' entries' := by
  set s₁ := s.withPreempt (s.preempt + 2) with hs₁
  have hcpu : s.getCpuVar.getCpuVar = s₁ := by
    rw [hs₁, State.withPreempt, State.getCpuVar, State.getCpuVar, Int.add_assoc]
    rfl
  have h₁ : Linked s₁ entries := h.congr rfl rfl rfl rfl rfl rfl fun _ _ ↦ rfl
  have hmem₁ : Memory s₁ entries := hmem.congr rfl rfl rfl rfl rfl
  obtain ⟨rounds, hrounds⟩ := Nat.exists_eq_add_one.mpr (Nat.zero_lt_of_lt hfuel)
  rw [State.skiplistInsert, State.pendingInsertLevel, ha]
  simp only [Option.bind_eq_bind, Option.pure_def, Option.bind_some, State.getCursor, hcpu]
  rcases h₁.lockLast_eq hfree slot.key (s.height (.leaf a)) with
    hlast | ⟨before, e, rfl, hkey, hroom, hlast⟩
  · have hagain := h₁.insertAgain_eq rounds hmem₁ hfree hs ha htoken hfuel
    rw [← hrounds] at hagain
    obtain ⟨ret, s', entries', hrun, hinsertion⟩ := hagain
    exact ⟨ret, s', entries', by rw [hlast]; exact hrun, hinsertion⟩
  · have hfound : Found s₁ slot.key (s.height (.leaf a)) before e [] (fun _ ↦ none)
        (Function.update s₁.locked e.node true) 0 (some e.node) := by
      refine Found.of_free ⟨fun e' he' ↦ ?_, by simp⟩ (fun hfull ↦ ?_) hfree
      · have hapart := (List.pairwise_append.mp h₁.apart).2.2 e' he' e List.mem_cons_self
        exact hapart.trans hkey
      · rw [hroom.resolve_right hfull.not_lt]
        exact Nat.zero_le _
    obtain ⟨ret, s', entries', hrun, hinsertion⟩ :=
      hfound.insertFound_eq h₁ hmem₁ hs ha (Nat.zero_lt_of_lt hfuel)
    refine ⟨ret, s', entries', ?_, hinsertion⟩
    rw [hlast]
    change State.insertFound _ fuel slot token (s.height (.leaf a)) _ _ _ _ = _ at hrun
    change (State.insertFound _ fuel slot token _ _ e.node 0 (some e.node)).bind _ = _
    rw [hrun]
    rfl

end Insert

end ParallelPrograms.ExtentList
