import ParallelPrograms.ExtentList.Lookup

/-!
# Deleting an extent

`skiplist_delete` removes one slot from the leaf that the key leads to. A leaf that gets empty is
marked dead, unlinked at every level, and given to `call_rcu`.
-/

namespace ParallelPrograms.ExtentList

open LinkedList Sequence

variable {α : Type}

namespace State

@[simps -fullyApplied]
def withDead (s : State α) (dead : Node → Bool) : State α := { s with dead := dead }

@[simps -fullyApplied]
def withFreed (s : State α) (freed : List Addr) : State α := { s with freed := freed }

end State

/-- What `skiplist_delete` does to a list, with its result. -/
inductive Deleted (s : State α) (entries : List (Entry α)) :
    Option (SlSlot α) → State α → List (Entry α) → Prop where
  | missing : Deleted s entries none s entries
  /-- The slot is removed from its leaf. -/
  | shrunk (before after : List (Entry α)) (e : Entry α) (left right : List (SlSlot α))
      (t : SlSlot α) (leaf : SlLeaf α) (hentries : entries = before ++ e :: after)
      (hslots : e.slots = left ++ t :: right) :
      Deleted s entries (some t) (s.withLeaves (Function.update s.leaves e.addr leaf))
        (before ++ { e with slots := left ++ right } :: after)
  /-- The leaf gets empty. -/
  | emptied (before after : List (Entry α)) (e : Entry α) (t : SlSlot α) (leaf : SlLeaf α)
      (next prev : ℕ → Node → Option Node) (hentries : entries = before ++ e :: after)
      (hslots : e.slots = [t]) :
      Deleted s entries (some t)
        ((((s.withLeaves (Function.update s.leaves e.addr leaf)).withDead
          (Function.update s.dead e.node true)).withLinks next prev).withFreed
            (s.freed ++ [e.addr])) (before ++ after)

section Deleted

variable {s s' : State α} {entries entries' : List (Entry α)} {ret : Option (SlSlot α)}

theorem Deleted.length_le (h : Deleted s entries ret s' entries') :
    entries'.length ≤ entries.length := by
  cases h with
  | missing => exact le_rfl
  | shrunk before after e left right t leaf hentries hslots => simp [hentries]
  | emptied before after e t leaf next prev hentries hslots => simp [hentries]

theorem Deleted.preempt (h : Deleted s entries ret s' entries') : s'.preempt = s.preempt := by
  cases h <;> rfl

end Deleted

section Erase

variable {s : State α} {before after : List (Entry α)} {e : Entry α} {fuel : ℕ}

theorem node_ne {e' : Entry α} (h : e'.addr ≠ e.addr) : e'.node ≠ e.node := fun heq ↦
  h (Node.leaf.inj heq)

/-- A leaf that has been marked dead. -/
theorem Linked.deadAt (h : Linked s (before ++ e :: after)) (leaf : SlLeaf α) {level : ℕ}
    (hle : level ≤ e.height) :
    DeadAt ((s.withLeaves (Function.update s.leaves e.addr leaf)).withDead
      (Function.update s.dead e.node true)) before after e.node level := by
  have he : e ∈ before ++ e :: after := by simp
  have hbound : level < skipMaxlevel := (hle.trans (h.low e he)).trans_lt h.bound
  have hold : before ++ after ⊆ before ++ e :: after := by
    intro e' he'
    simp only [List.mem_append, List.mem_cons] at he' ⊢
    tauto
  have hkept := h.nodes.of_subset hold
  refine ⟨⟨hkept.allocated, hkept.height, fun e' he' ↦ ?_, hkept.headHeight, ?_⟩, hbound,
    h.nodes.valid hbound (mem_nodesAt he hle), Function.update_self .., ?_⟩
  · rw [State.withDead_dead, Function.update_of_ne (node_ne (h.addr_ne he')), hkept.alive e' he']
  · rw [State.withDead_dead, Function.update_of_ne e.node_ne_head.symm, hkept.headAlive]
  · have hchain := h.chains level hbound
    rwa [nodesAt_append, nodesAt_cons_of_le hle] at hchain

/-- **`sl_erase`** -/
theorem Linked.slErase_eq (h : Linked s (before ++ e :: after)) (leaf : SlLeaf α)
    (hfree : ∀ n, s.present n = true → s.locked n = false) (hfuel : 1 < fuel) :
    ∃ next prev,
      ((s.withLeaves (Function.update s.leaves e.addr leaf)).withDead
        (Function.update s.dead e.node true)).slErase fuel e.addr =
          some (((s.withLeaves (Function.update s.leaves e.addr leaf)).withDead
            (Function.update s.dead e.node true)).withLinks next prev) ∧
      Linked (((s.withLeaves (Function.update s.leaves e.addr leaf)).withDead
        (Function.update s.dead e.node true)).withLinks next prev) (before ++ after) := by
  set s' := (s.withLeaves (Function.update s.leaves e.addr leaf)).withDead
    (Function.update s.dead e.node true) with hs'
  have he : e ∈ before ++ e :: after := by simp
  have hold : ∀ e' ∈ before ++ after, e' ∈ before ++ e :: after := by
    intro e' he'
    simp only [List.mem_append, List.mem_cons] at he' ⊢
    tauto
  have hnode : e.node ∉ nodesAt 0 (before ++ after) := by
    intro hmem
    obtain ⟨e', he', -, heq⟩ := mem_tower.mp hmem
    exact node_ne (h.addr_ne he') heq
  have hdead := fun level hlt ↦ h.deadAt leaf (Nat.le_of_lt_succ (n := e.height) (m := level) hlt)
  obtain ⟨next, prev, herase, hchains⟩ :=
    eraseLevels_eq hdead e.node_ne_head hnode hfree hfuel
  have hheight : s'.height (.leaf e.addr) = e.height := h.nodes.height e he
  refine ⟨next, prev, by rw [State.slErase, hheight]; exact herase, ?_⟩
  constructor
  · exact (hdead 0 (Nat.succ_pos _)).nodes.congr rfl rfl rfl
  · intro level hlevel
    have hchain := hchains level
    split_ifs at hchain with hlt
    · exact hchain
    · have hsame := h.chains level hlevel
      rw [nodesAt_append, nodesAt_cons_of_lt (by omega), ← nodesAt_append] at hsame
      rw [ChainAt, State.withLinks_next, State.withLinks_prev, hchain.1, hchain.2]
      exact hsame
  · intro e' he'
    rw [State.withLinks_leaves, hs', State.withDead_leaves, State.withLeaves_leaves,
      Function.update_of_ne (h.addr_ne he')]
    exact h.holds e' (hold e' he')
  · exact fun e' he' ↦ h.nonempty e' (hold e' he')
  · refine h.extents.of_sublist ?_
    rw [contents_append, contents_append, contents_cons]
    exact List.Sublist.append_left (List.sublist_append_right ..) _
  · exact fun e' he' ↦ h.low e' (hold e' he')
  · exact h.bound

end Erase

section Delete

/-- The position of an element cuts the list. -/
theorem exists_split {slots : List (SlSlot α)} {i : ℕ} {t : SlSlot α} (h : slots[i]? = some t) :
    ∃ left right, slots = left ++ t :: right ∧ left.length = i := by
  obtain ⟨hi, rfl⟩ := List.getElem?_eq_some_iff.mp h
  exact ⟨slots.take i, slots.drop (i + 1), by simp, by simp [hi.le]⟩

variable {s : State α} {entries : List (Entry α)} {key size fuel : ℕ}

/-- Without the slot that has been found, the leaf is still in order, or it is empty. -/
theorem Linked.shrink {before after : List (Entry α)} {e : Entry α} {left right : List (SlSlot α)}
    {t : SlSlot α} {leaf : SlLeaf α} (h : Linked s (before ++ e :: after))
    (hslots : e.slots = left ++ t :: right) (hne : left ++ right ≠ [])
    (hholds : leaf.Holds (left ++ right)) :
    Linked (s.withLeaves (Function.update s.leaves e.addr leaf))
      (before ++ { e with slots := left ++ right } :: after) := by
  refine h.setLeaf hholds hne (h.extents.of_sublist ?_)
  have hsub : (left ++ right).Sublist e.slots := by
    rw [hslots]
    exact List.Sublist.append_left (List.sublist_cons_self ..) _
  simp only [contents_append, contents_cons]
  exact List.Sublist.append_left (hsub.append_right _) _

/-- **`skiplist_delete`** -/
theorem Linked.skiplistDelete_eq (rounds : ℕ) (beyond : ℕ × Option (SlSlot α))
    (h : Linked s entries) (hfree : ∀ n, s.present n = true → s.locked n = false) (hsize : 0 < size)
    (hrange : key + size < 2 ^ 64) (hfuel : entries.length + 1 < fuel) :
    ∃ ret s' entries', s.skiplistDelete fuel key size beyond (rounds + 1) = some (ret, s') ∧
      Looked (contents entries) key size ret ∧ Deleted s entries ret s' entries' ∧
      Linked s' entries' := by
  obtain ⟨tries, htries⟩ := Nat.exists_eq_add_one.mpr (Nat.zero_lt_of_lt hfuel)
  have hlocated := h.exists_located tries key (Nat.lt_of_succ_lt hfuel)
  rw [← htries] at hlocated
  rw [State.skiplistDelete]
  rcases hlocated with ⟨e, he, p, hleaf, hhome, hall⟩ | ⟨⟨p, hleaf⟩, hnone⟩
  · have hpresent : s.present (.leaf e.addr) = true := h.nodes.allocated e he
    have hlock := State.slLockNode_eq hpresent (hfree _ hpresent)
    set l₁ := Function.update s.locked (.leaf e.addr) true with hl₁
    have hverify : (s.withLocks l₁).verifyKeyInLeaf e.addr key size = some true :=
      (h.withLocks _).verifyKeyInLeaf_eq he hhome hrange
    have hget : (s.withLocks l₁).getLeaf e.addr = some (s.leaves e.addr) := h.getLeaf he
    obtain ⟨r, hsearch, hr⟩ :=
      (h.holds e he).leafSlotLocked_spec (h.extents_of_mem he) hrange
    have hlooked := h.looked he hsize hall hr
    rw [hleaf]
    simp only [Option.bind_eq_bind, Option.bind_some, hlock, hverify, if_true, hget, hsearch]
    cases hr with
    | missing left right hslots hgap =>
      have hunlock : (s.withLocks l₁).slUnlockNode (some (.leaf e.addr)) = some s :=
        State.unlock_locked hpresent (hfree _ hpresent)
      refine ⟨none, s, entries, ?_, hlooked, .missing, h⟩
      rw [if_neg (by simp), hunlock]
      rfl
    | found i t ht hmeets =>
      obtain ⟨before, after, rfl⟩ := List.append_of_mem he
      obtain ⟨left, right, hslots, rfl⟩ := exists_split ht
      have hholds := hslots ▸ h.holds e he
      have hext := hslots ▸ h.extents_of_mem he
      obtain ⟨leaf, hdelete, hrest⟩ := hholds.deleteSlot hext beyond
      have hptr := hholds.ptrs (hslots ▸ ht)
      rw [if_pos rfl, hptr] at hlooked
      have hset := State.setLeaf_eq (s := s.withLocks l₁) leaf (h.nodes.allocated e he)
      set s₁ := s.withLeaves (Function.update s.leaves e.addr leaf) with hs₁
      have hchange : (s.withLocks l₁).withLeaves (Function.update (s.withLocks l₁).leaves e.addr
          leaf) = s₁.withLocks l₁ := rfl
      rw [hchange] at hset
      simp only [if_true, hdelete, Option.bind_some, hset, hrest.nr]
      by_cases hempty : left ++ right = []
      · obtain ⟨rfl, rfl⟩ := List.append_eq_nil_iff.mp hempty
        have hunlock : ((s₁.withLocks l₁).withDead (Function.update s.dead e.node true)).slUnlockNode
            (some (.leaf e.addr)) = some (s₁.withDead (Function.update s.dead e.node true)) :=
          State.unlock_locked (s := s₁.withDead _) hpresent (hfree _ hpresent)
        obtain ⟨next, prev, herase, hlinked⟩ := h.slErase_eq leaf hfree (show 1 < fuel by omega)
        refine ⟨_, _, _, ?_, hlooked, .emptied before after e t leaf next prev rfl hslots,
          hlinked.congr rfl rfl rfl rfl rfl rfl fun _ _ ↦ rfl⟩
        rw [if_pos (by rfl), hptr]
        change (((s₁.withLocks l₁).withDead (Function.update s.dead e.node true)).slUnlockNode
          (some (.leaf e.addr))).bind _ = _
        rw [hunlock, Option.bind_some, herase]
        rfl
      · refine ⟨_, s₁, _, ?_, hlooked, .shrunk before after e left right t leaf rfl hslots,
          h.shrink hslots hempty hrest⟩
        have hunlock : (s₁.withLocks l₁).slUnlockNode (some (.leaf e.addr)) = some s₁ :=
          State.unlock_locked (s := s₁) hpresent (hfree _ hpresent)
        rw [if_neg (mt List.length_eq_zero_iff.mp hempty), hunlock, hptr]
        rfl
  · refine ⟨none, s, entries, by rw [hleaf]; rfl, ⟨fun t ht ↦ absurd ht.symm (Option.some_ne_none t),
      fun _ t ht ⟨hkey, hstop⟩ ↦ (hnone t ht hkey).not_gt hstop⟩, .missing, h⟩

end Delete

end ParallelPrograms.ExtentList
