import ParallelPrograms.ExtentList.Ownership

/-!
# Adding a key to a leaf

`add_key_to_leaf` puts a slot into a leaf that has room. A full leaf is split: a preloaded leaf is
linked behind it, which takes the new slot alone when the slot goes behind all others, and takes
half of the slots otherwise.
-/

namespace ParallelPrograms.ExtentList

open LinkedList Sequence

variable {α : Type}

namespace State

@[simps -fullyApplied]
def withLevel (s : State α) (level : ℕ) : State α := { s with level := level }

@[simps -fullyApplied]
def withPreload (s : State α) (preload : ℕ → Option Addr) : State α := { s with preload := preload }

@[simps -fullyApplied]
def withPreempt (s : State α) (preempt : ℤ) : State α := { s with preempt := preempt }

/-- `add_key_to_leaf` has taken a leaf from a place of the preload area. -/
def takes (s : State α) (token : ℕ) (split : Addr) : State α :=
  ((s.withPreempt (s.preempt + 1)).withPreload (Function.update s.preload token none)).withLevel
    (max s.level (s.height (.leaf split)))

end State

section Link

variable {s : State α} {before after : List (Entry α)} {new e : Entry α}

/-- A new leaf is linked between `before` and `after`. -/
theorem Linked.link {leaf : SlLeaf α} {level : ℕ} {next prev : ℕ → Node → Option Node}
    (new : Entry α) (h : Linked s (before ++ after)) (hallocated : s.allocated new.addr = true)
    (hheight : s.height new.node = new.height) (halive : s.dead new.node = false)
    (hfresh : ∀ e ∈ before ++ after, e.addr ≠ new.addr) (hholds : leaf.Holds new.slots)
    (hne : new.slots ≠ []) (hext : Extents (contents (before ++ new :: after)))
    (hlevel : s.level ≤ level) (hle : new.height ≤ level) (hbound : level < skipMaxlevel)
    (hchains : ∀ j, if 0 ≤ j ∧ j < 0 + (new.height + 1)
      then Chain (next j) (prev j) .head (nodesAt j before ++ new.node :: nodesAt j after)
      else next j = s.next j ∧ prev j = s.prev j) :
    Linked (((s.withLeaves (Function.update s.leaves new.addr leaf)).withLevel level).withLinks
      next prev) (before ++ new :: after) := by
  have hmem : ∀ e ∈ before ++ new :: after, e = new ∨ e ∈ before ++ after := by
    intro e he
    simp only [List.mem_append, List.mem_cons] at he ⊢
    tauto
  constructor
  · refine ⟨fun e he ↦ ?_, fun e he ↦ ?_, fun e he ↦ ?_, h.nodes.headHeight, h.nodes.headAlive⟩
    · rcases hmem e he with rfl | he
      · exact hallocated
      · exact h.nodes.allocated e he
    · rcases hmem e he with rfl | he
      · exact hheight
      · exact h.nodes.height e he
    · rcases hmem e he with rfl | he
      · exact halive
      · exact h.nodes.alive e he
  · intro j hj
    have hchain := hchains j
    rw [nodesAt_append, ChainAt, State.withLinks_next, State.withLinks_prev]
    split_ifs at hchain with hin
    · rwa [nodesAt_cons_of_le (by omega)]
    · rw [nodesAt_cons_of_lt (by omega), ← nodesAt_append, hchain.1, hchain.2]
      exact h.chains j hj
  · intro e he
    rw [State.withLinks_leaves, State.withLevel_leaves, State.withLeaves_leaves]
    rcases hmem e he with rfl | he
    · rwa [Function.update_self]
    · rw [Function.update_of_ne (hfresh e he)]
      exact h.holds e he
  · intro e he
    rcases hmem e he with rfl | he
    · exact hne
    · exact h.nonempty e he
  · exact hext
  · intro e he
    rcases hmem e he with rfl | he
    · exact hle
    · exact (h.low e he).trans hlevel
  · exact hbound

/-- A node that is not in the list. -/
theorem node_notMem (hfresh : ∀ e ∈ before ++ after, e.addr ≠ new.addr) (level : ℕ) :
    new.node ∉ Node.head :: nodesAt level (before ++ after) := by
  refine List.not_mem_cons_of_ne_of_not_mem new.node_ne_head fun hmem ↦ ?_
  obtain ⟨e, he, -, hnode⟩ := mem_tower.mp hmem
  exact hfresh e he (Node.leaf.inj hnode)

/-- What has to be locked to link a leaf of some height behind `e`. Where `e` is too low, the cursor
has the node that comes before. -/
structure Placed (s : State α) (before : List (Entry α)) (e : Entry α) (after : List (Entry α))
    (cursor : Option Cursor) (height : ℕ) : Prop where
  held : s.locked e.node = true
  cursor : ∀ j, e.height < j → j ≤ height →
    (cursor.bind fun cursor ↦ cursor j) = some (lastAt j before) ∧ s.locked (lastAt j before) = true
  ahead : ∀ n ∈ nodesAt 0 after, s.locked n = false
  preloaded : ∀ token b, s.preload token = some b → s.locked (.leaf b) = false

theorem Placed.mono {cursor : Option Cursor} {height height' : ℕ}
    (h : Placed s before e after cursor height) (hle : height' ≤ height) :
    Placed s before e after cursor height' :=
  ⟨h.held, fun j hj hle' ↦ h.cursor j hj (hle'.trans hle), h.ahead, h.preloaded⟩

/-- **`sl_link_after_node`** -/
theorem Linked.slLinkAfterNode_eq {cursor : Option Cursor} {fuel : ℕ} (new : Entry α)
    (h : Linked s (before ++ e :: after)) (hallocated : s.allocated new.addr = true)
    (hheight : s.height new.node = new.height) (hbound : new.height < skipMaxlevel)
    (hfresh : ∀ e' ∈ before ++ e :: after, e'.addr ≠ new.addr) (hheld : s.locked e.node = true)
    (hcursor : ∀ j, e.height < j → j ≤ new.height →
      (cursor.bind fun cursor ↦ cursor j) = some (lastAt j before) ∧
        s.locked (lastAt j before) = true)
    (hfree : ∀ n ∈ nodesAt 0 after, s.locked n = false) (hfuel : 0 < fuel) :
    ∃ next prev, s.slLinkAfterNode fuel new.node e.node cursor new.height =
        some (s.withLinks next prev) ∧
      ∀ j, if 0 ≤ j ∧ j < 0 + (new.height + 1)
        then Chain (next j) (prev j) .head (nodesAt j (before ++ [e]) ++ new.node :: nodesAt j after)
        else next j = s.next j ∧ prev j = s.prev j := by
  have hsplit : before ++ e :: after = before ++ [e] ++ after := by simp
  rw [hsplit] at h hfresh
  have he : s.height e.node = e.height := h.nodes.height e (by simp)
  refine linkLevels_eq h.nodes (by omega) (fun j _ hj ↦ h.chains j (by omega)) (fun j hj ↦ ?_)
    (node_notMem hfresh 0) (fun j _ hj ↦ ?_) hfree hfuel
  · rw [State.valid, hheight]
    have hle : j ≤ new.height := by omega
    simp [State.present, Entry.node, hallocated, hle]
  · rw [he]
    by_cases hle : j ≤ e.height
    · rw [if_pos hle, lastAt_concat_of_le hle]
      exact ⟨rfl, hheld⟩
    · rw [if_neg hle, lastAt_concat_of_lt (Nat.lt_of_not_le hle)]
      exact hcursor j (Nat.lt_of_not_le hle) (by omega)

end Link

/-- What adding a slot to the list changes. -/
structure Added (s : State α) (entries : List (Entry α)) (slot : SlSlot α) (s' : State α)
    (entries' : List (Entry α)) : Prop where
  linked : Linked s' entries'
  contents : ∃ left right, contents entries = left ++ right ∧ contents entries' = left ++ slot :: right
  allocated : s'.allocated = s.allocated
  height : s'.height = s.height
  dead : s'.dead = s.dead
  freed : s'.freed = s.freed
  level : s.level ≤ s'.level
  preempt : s.preempt ≤ s'.preempt
  /-- No leaf is used, or one of the preloaded ones. -/
  owners : s'.preload = s.preload ∧ entries'.map Entry.addr = entries.map Entry.addr ∨
    ∃ token a, s.preload token = some a ∧ s'.preload = Function.update s.preload token none ∧
      (entries'.map Entry.addr).Perm (a :: entries.map Entry.addr)

theorem Added.length_le {s s' : State α} {entries entries' : List (Entry α)} {slot : SlSlot α}
    (h : Added s entries slot s' entries') :
    entries'.length ≤ entries.length + 1 := by
  rcases h.owners with ⟨-, haddr⟩ | ⟨token, a, -, -, hperm⟩
  · have hlength := congrArg List.length haddr
    simp only [List.length_map] at hlength
    omega
  · have hlength := hperm.length_eq
    simp only [List.length_map, List.length_cons] at hlength
    omega

/-- Adding a slot with all locks held that it needs. -/
structure Inserted (s : State α) (entries : List (Entry α)) (slot : SlSlot α) (s' : State α)
    (entries' : List (Entry α)) : Prop extends Added s entries slot s' entries' where
  locked : s'.locked = s.locked

section AddKey

variable {s : State α} {before after : List (Entry α)} {e : Entry α} {a : Addr} {token fuel : ℕ}

/-- **The part of `add_key_to_leaf` that takes a new leaf** -/
theorem Memory.takeSplit_eq {entries : List (Entry α)} (h : Memory s entries)
    (ha : s.preload token = some a)
    (hfree : ∀ token b, s.preload token = some b → s.locked (.leaf b) = false) (b : Addr) :
    ∃ token' split, s.preload token' = some split ∧
      s.height (.leaf split) ≤ s.height (.leaf a) ∧
      s.takeSplit b token = some (split,
        (s.takes token' split).withLocks (Function.update s.locked (.leaf split) true)) := by
  obtain ⟨token', split, htoken, hsplit, hle⟩ : ∃ token' split,
      s.getCpuVar.splitToken b a token = token' ∧ s.preload token' = some split ∧
        s.height (.leaf split) ≤ s.height (.leaf a) := by
    rw [State.splitToken]
    split_ifs with hzero
    · obtain ⟨split, hsplit⟩ := Option.isSome_iff_exists.mp hzero.2.2
      exact ⟨0, split, rfl, hsplit, ((h.ready 0 split hsplit).2.1).trans (Nat.zero_le _)⟩
    · exact ⟨token, a, rfl, ha, le_rfl⟩
  refine ⟨token', split, hsplit, hle, ?_⟩
  have hpresent : s.present (.leaf split) = true := (h.preloaded hsplit).1
  have ha' : s.getCpuVar.preload token = some a := ha
  have hsplit' : s.getCpuVar.preload token' = some split := hsplit
  have hlevel : (if s.height (.leaf split) > s.level then s.height (.leaf split) else s.level) =
      max s.level (s.height (.leaf split)) := by
    split_ifs <;> omega
  simp only [State.takeSplit, ha', Option.bind_eq_bind, Option.bind_some, htoken, hsplit']
  change (State.slLockNode (((s.withPreempt (s.preempt + 1)).withPreload
    (Function.update s.preload token' none)).withLevel (if s.height (.leaf split) > s.level then
      s.height (.leaf split) else s.level)) (.leaf split)).bind _ = _
  have hlock := State.slLockNode_eq (s := s.takes token' split) (n := .leaf split) hpresent
    (hfree token' split hsplit)
  rw [State.takes] at hlock
  rw [hlevel, hlock]
  rfl

variable {left right : List (SlSlot α)} {slot : SlSlot α} {cursor : Option Cursor}

/-- **`add_key_to_leaf`** in a leaf that has room -/
theorem Linked.addKeyToLeaf_of_room (h : Linked s (before ++ e :: after)) (hs : slot.Valid)
    (hslots : e.slots = left ++ right) (hroom : e.slots.length < skipKeysPerNode)
    (hext : Extents (contents before ++ (left ++ slot :: right) ++ contents after)) :
    ∃ s' entries',
      s.addKeyToLeaf fuel e.addr slot slot.key left.length cursor token = some s' ∧
        Inserted s (before ++ e :: after) slot s' entries' := by
  have he : e ∈ before ++ e :: after := by simp
  have hholds := h.holds e he
  rw [hslots] at hholds hroom
  have hnr : (s.leaves e.addr).nr < skipKeysPerNode := hholds.nr ▸ hroom
  refine ⟨s.withLeaves (Function.update s.leaves e.addr
      ((s.leaves e.addr).insertSlot slot slot.key left.length)),
    before ++ { e with slots := left ++ slot :: right } :: after, ?_,
    ⟨?_, ?_, rfl, rfl, rfl, rfl, le_rfl, Int.le_refl _, .inl ⟨rfl, by simp⟩⟩, rfl⟩
  · rw [State.addKeyToLeaf, h.getLeaf he, Option.bind_eq_bind, Option.bind_some, if_pos hnr,
      State.setLeaf_eq _ (h.nodes.allocated e he)]
  · refine h.setLeaf (hholds.insertSlot hs hroom) (by simp) ?_
    simpa using hext
  · refine ⟨contents before ++ left, right ++ contents after, ?_, ?_⟩
    · simp [hslots]
    · simp

/-- The leaf that has been taken is linked behind `e`. -/
theorem Linked.link_taken (h : Linked s (before ++ e :: after))
    (hmem : Memory s (before ++ e :: after)) {split : Addr} (hsplit : s.preload token = some split)
    (hplaced : Placed s before e after cursor (s.height (.leaf split))) (leaf : SlLeaf α)
    (hfuel : 0 < fuel) :
    ∃ next prev,
      (((s.takes token split).withLocks (Function.update s.locked (.leaf split) true)).withLeaves
        (Function.update s.leaves split leaf)).slLinkAfterNode fuel (.leaf split) e.node cursor
          (s.height (.leaf split)) =
        some ((((s.takes token split).withLeaves (Function.update s.leaves split leaf)).withLinks
          next prev).withLocks (Function.update s.locked (.leaf split) true)) ∧
      ∀ j, if 0 ≤ j ∧ j < 0 + (s.height (.leaf split) + 1)
        then Chain (next j) (prev j) .head
          (nodesAt j (before ++ [e]) ++ .leaf split :: nodesAt j after)
        else next j = s.next j ∧ prev j = s.prev j := by
  obtain ⟨hallocated, hfresh⟩ := hmem.preloaded hsplit
  obtain ⟨htoken, hheight, halive⟩ := hmem.ready token split hsplit
  have hbound : s.height (.leaf split) < skipMaxlevel := hheight.trans_lt htoken
  have hfree := hplaced.preloaded token split hsplit
  set l₁ := Function.update s.locked (.leaf split) true with hl₁
  have hkept : ∀ n, s.locked n = true → l₁ n = true := by
    intro n hn
    rw [hl₁, Function.update_apply]
    split_ifs
    · rfl
    · exact hn
  have hlinked : Linked (((s.takes token split).withLocks l₁).withLeaves
      (Function.update s.leaves split leaf)) (before ++ e :: after) := by
    refine (h.withLevel (le_max_left s.level (s.height (.leaf split)))
      (max_lt h.bound hbound)).congr rfl rfl rfl rfl rfl rfl fun e' he' ↦ ?_
    exact Function.update_of_ne (hfresh e' he') ..
  refine hlinked.slLinkAfterNode_eq ⟨split, s.height (.leaf split), []⟩ hallocated rfl hbound
    hfresh (hkept _ hplaced.held) (fun j hj hle ↦ ?_) (fun n hn ↦ ?_) hfuel
  · obtain ⟨hcursor, hheld⟩ := hplaced.cursor j hj hle
    exact ⟨hcursor, hkept _ hheld⟩
  · have hne : n ≠ .leaf split := by
      obtain ⟨e', he', -, rfl⟩ := mem_tower.mp hn
      exact fun heq ↦ hfresh e' (by simp [he']) (Node.leaf.inj heq)
    exact (Function.update_of_ne hne ..).trans (hplaced.ahead n hn)

/-- What the list is after a full leaf has been split. -/
theorem Linked.inserted_split (h : Linked s (before ++ e :: after))
    (hmem : Memory s (before ++ e :: after)) {split : Addr} (hsplit : s.preload token = some split)
    {slots₁ slots₂ : List (SlSlot α)} {leaf₁ leaf₂ : SlLeaf α}
    {next prev : ℕ → Node → Option Node} (hholds₁ : leaf₁.Holds slots₁) (hne₁ : slots₁ ≠ [])
    (hholds₂ : leaf₂.Holds slots₂) (hne₂ : slots₂ ≠ []) (hslots : e.slots = left ++ right)
    (hparts : slots₁ ++ slots₂ = left ++ slot :: right)
    (hext : Extents (contents before ++ (left ++ slot :: right) ++ contents after))
    (hchains : ∀ j, if 0 ≤ j ∧ j < 0 + (s.height (.leaf split) + 1)
      then Chain (next j) (prev j) .head
        (nodesAt j (before ++ [e]) ++ .leaf split :: nodesAt j after)
      else next j = s.next j ∧ prev j = s.prev j) :
    Inserted s (before ++ e :: after) slot
      (((s.takes token split).withLeaves
        (Function.update (Function.update s.leaves split leaf₂) e.addr leaf₁)).withLinks next prev)
      (before ++ { e with slots := slots₁ } :: ⟨split, s.height (.leaf split), slots₂⟩ :: after) := by
  obtain ⟨hallocated, hfresh⟩ := hmem.preloaded hsplit
  obtain ⟨htoken, hheight, halive⟩ := hmem.ready token split hsplit
  have hbound : s.height (.leaf split) < skipMaxlevel := hheight.trans_lt htoken
  rw [← hparts] at hext
  refine ⟨⟨?_, ?_, rfl, rfl, rfl, rfl, le_max_left .., ?_, .inr ⟨token, split, hsplit, rfl, ?_⟩⟩,
    rfl⟩
  · have hfirst : Linked (s.withLeaves (Function.update s.leaves e.addr leaf₁))
        (before ++ [{ e with slots := slots₁ }] ++ after) := by
      rw [List.append_assoc, List.singleton_append]
      refine h.setLeaf hholds₁ hne₁ (hext.of_sublist ?_)
      rw [contents_append, contents_cons, List.append_assoc]
      exact List.Sublist.append_left ((List.sublist_append_left ..).append_right _) _
    have hbase : Linked (((s.withLeaves (Function.update s.leaves e.addr leaf₁)).withPreempt
        (s.preempt + 1)).withPreload (Function.update s.preload token none))
          (before ++ [{ e with slots := slots₁ }] ++ after) :=
      hfirst.congr rfl rfl rfl rfl rfl rfl fun _ _ ↦ rfl
    have hne : split ≠ e.addr := (hfresh e (by simp)).symm
    have htower : ∀ j, nodesAt j (before ++ [{ e with slots := slots₁ }]) =
        nodesAt j (before ++ [e]) := fun j ↦ tower_congr rfl rfl
    have hfresh' : ∀ e' ∈ before ++ [{ e with slots := slots₁ }] ++ after, e'.addr ≠ split := by
      intro e' he'
      simp only [List.mem_append, List.mem_singleton] at he'
      rcases he' with (he' | rfl) | he'
      · exact hfresh e' (by simp [he'])
      · exact hne.symm
      · exact hfresh e' (by simp [he'])
    have hlink := hbase.link ⟨split, s.height (.leaf split), slots₂⟩ hallocated rfl halive hfresh'
      hholds₂ hne₂ (by simpa using hext) (le_max_left s.level (s.height (.leaf split)))
      (le_max_right s.level (s.height (.leaf split))) (max_lt h.bound hbound)
      (fun j ↦ by rw [htower]; exact hchains j)
    rw [List.append_assoc, List.singleton_append] at hlink
    rw [Function.update_comm hne]
    exact hlink
  · refine ⟨contents before ++ left, right ++ contents after, ?_, ?_⟩
    · simp [hslots]
    · simp only [contents_append, contents_cons]
      rw [← List.append_assoc slots₁, hparts]
      simp
  · exact Int.le_add_one (Int.le_refl _)
  · simp only [List.map_append, List.map_cons]
    rw [← List.singleton_append, ← List.append_assoc]
    refine List.perm_middle.trans (List.Perm.cons _ ?_)
    rw [List.append_assoc, List.singleton_append]

/-- **`add_key_to_leaf`** behind a full leaf -/
theorem Linked.addKeyToLeaf_behind (h : Linked s (before ++ e :: after))
    (hmem : Memory s (before ++ e :: after)) (hs : slot.Valid)
    (hfull : e.slots.length = skipKeysPerNode) (ha : s.preload token = some a)
    (hplaced : Placed s before e after cursor (s.height (.leaf a)))
    (hext : Extents (contents before ++ (e.slots ++ [slot]) ++ contents after)) (hfuel : 0 < fuel) :
    ∃ s' entries',
      s.addKeyToLeaf fuel e.addr slot slot.key e.slots.length cursor token = some s' ∧
        Inserted s (before ++ e :: after) slot s' entries' := by
  have he : e ∈ before ++ e :: after := by simp
  have hholds := h.holds e he
  have hnr : (s.leaves e.addr).nr = skipKeysPerNode := hholds.nr.trans hfull
  obtain ⟨token', split, hsplit, hle, htake⟩ := hmem.takeSplit_eq ha hplaced.preloaded e.addr
  obtain ⟨hallocated, hfresh⟩ := hmem.preloaded hsplit
  set l₁ := Function.update s.locked (.leaf split) true with hl₁
  set leaf₂ := SlLeaf.startLeaf (s.leaves split) slot slot.key with hleaf₂
  obtain ⟨next, prev, hlink, hchains⟩ :=
    h.link_taken hmem hsplit (hplaced.mono hle) leaf₂ hfuel
  set s₃ := ((s.takes token' split).withLeaves (Function.update s.leaves split leaf₂)).withLinks
    next prev with hs₃
  have hunlock : (s₃.withLocks l₁).slUnlockNode (some (.leaf split)) = some s₃ :=
    State.unlock_locked (s := s₃) hallocated (hplaced.preloaded token' split hsplit)
  have hsame : s₃ = ((s.takes token' split).withLeaves (Function.update
      (Function.update s.leaves split leaf₂) e.addr (s.leaves e.addr))).withLinks next prev := by
    rw [hs₃, Function.update_comm (hfresh e he).symm, Function.update_eq_self]
  refine ⟨s₃,
    before ++ { e with slots := e.slots } :: ⟨split, s.height (.leaf split), [slot]⟩ :: after,
    ?_, ?_⟩
  · rw [State.addKeyToLeaf, h.getLeaf he, Option.bind_eq_bind, Option.bind_some, hnr,
      if_neg (lt_irrefl _), htake]
    have hget : ((s.takes token' split).withLocks l₁).getLeaf split = some (s.leaves split) :=
      if_pos hallocated
    have hset : ((s.takes token' split).withLocks l₁).setLeaf split leaf₂ =
        some (((s.takes token' split).withLocks l₁).withLeaves
          (Function.update s.leaves split leaf₂)) := if_pos hallocated
    simp only [Option.bind_eq_bind, Option.bind_some, hfull, if_true, hget, ← hleaf₂, hset]
    change (State.slLinkAfterNode _ fuel (.leaf split) e.node cursor
      (s.height (.leaf split))).bind _ = _
    rw [hlink]
    exact hunlock
  · rw [hsame]
    refine h.inserted_split hmem hsplit hholds (h.nonempty e he)
      (SlLeaf.Holds.startLeaf hs _) (List.cons_ne_nil _ _) (List.append_nil _).symm rfl hext hchains

/-- **`add_key_to_leaf`** inside of a full leaf -/
theorem Linked.addKeyToLeaf_inside (h : Linked s (before ++ e :: after))
    (hmem : Memory s (before ++ e :: after)) (hs : slot.Valid) (hslots : e.slots = left ++ right)
    (hfull : e.slots.length = skipKeysPerNode) (hright : right ≠ []) (ha : s.preload token = some a)
    (hplaced : Placed s before e after cursor (s.height (.leaf a)))
    (hext : Extents (contents before ++ (left ++ slot :: right) ++ contents after))
    (hfuel : 0 < fuel) :
    ∃ s' entries',
      s.addKeyToLeaf fuel e.addr slot slot.key left.length cursor token = some s' ∧
        Inserted s (before ++ e :: after) slot s' entries' := by
  have he : e ∈ before ++ e :: after := by simp
  have hholds := h.holds e he
  have hnr : (s.leaves e.addr).nr = skipKeysPerNode := hholds.nr.trans hfull
  obtain ⟨half, hhalf, hfirst⟩ := hholds.keepHalf (h.extents_of_mem he) hfull
  obtain ⟨token', split, hsplit, hle, htake⟩ := hmem.takeSplit_eq ha hplaced.preloaded e.addr
  obtain ⟨hallocated, hfresh⟩ := hmem.preloaded hsplit
  rw [hslots] at hholds hfull hfirst
  have hsecond := hholds.splitItems (s := slot) (s.leaves split) hfull hright
  set l₁ := Function.update s.locked (.leaf split) true with hl₁
  set leaf₂ := (s.leaves e.addr).splitItems (s.leaves split) slot slot.key left.length with hleaf₂
  obtain ⟨next, prev, hlink, hchains⟩ :=
    h.link_taken hmem hsplit (hplaced.mono hle) leaf₂ hfuel
  rw [← hl₁] at hlink
  set leaves := Function.update (Function.update s.leaves split leaf₂) e.addr half with hleaves
  set s₃ := ((s.takes token' split).withLeaves leaves).withLinks next prev with hs₃
  have hunlock : (s₃.withLocks l₁).slUnlockNode (some (.leaf split)) = some s₃ :=
    State.unlock_locked (s := s₃) hallocated (hplaced.preloaded token' split hsplit)
  have hrun : s.addKeyToLeaf fuel e.addr slot slot.key left.length cursor token =
      if left.length ≥ skipKeysPerNode - skipKeysPerNode / 2 then some s₃
      else s₃.setLeaf e.addr (half.insertSlot slot slot.key left.length) := by
    rw [State.addKeyToLeaf, h.getLeaf he, Option.bind_eq_bind, Option.bind_some, hnr,
      if_neg (lt_irrefl _), htake]
    have hget : ((s.takes token' split).withLocks l₁).getLeaf split = some (s.leaves split) :=
      if_pos hallocated
    have hset : ((s.takes token' split).withLocks l₁).setLeaf split leaf₂ =
        some (((s.takes token' split).withLocks l₁).withLeaves
          (Function.update s.leaves split leaf₂)) := if_pos hallocated
    have hne : left.length ≠ skipKeysPerNode := by
      have := List.length_pos_iff.mpr hright
      rw [List.length_append] at hfull
      omega
    simp only [Option.bind_eq_bind, Option.bind_some, hne, if_false, hget, ← hleaf₂, hset]
    change (State.slLinkAfterNode _ fuel (.leaf split) e.node cursor
      (s.height (.leaf split))).bind _ = _
    rw [hlink]
    have hset' : ((((s.takes token' split).withLeaves (Function.update s.leaves split
        leaf₂)).withLinks next prev).withLocks l₁).setLeaf e.addr half = some (s₃.withLocks l₁) :=
      if_pos (h.nodes.allocated e he)
    simp only [Option.bind_some, hhalf, hset', hunlock]
  rw [hrun]
  change half.Holds ((left ++ right).take 16) at hfirst
  change leaf₂.Holds (if 16 ≤ left.length then left.drop 16 ++ slot :: right
    else (left ++ right).drop 16) at hsecond
  change (left ++ right).length = 32 at hfull
  by_cases hmid : 16 ≤ left.length
  · rw [if_pos hmid] at hsecond
    have hparts : (left ++ right).take 16 ++ (left.drop 16 ++ slot :: right) =
        left ++ slot :: right := by
      rw [List.take_append_of_le_length hmid, ← List.append_assoc, List.take_append_drop]
    refine ⟨s₃, _, if_pos hmid, h.inserted_split hmem hsplit hfirst ?_ hsecond (by simp) hslots
      hparts hext hchains⟩
    exact List.ne_nil_of_length_pos (by rw [List.length_take]; omega)
  · rw [if_neg hmid] at hsecond
    have htake' : (left ++ right).take 16 = left ++ right.take (16 - left.length) := by
      rw [List.take_append, List.take_of_length_le (by omega)]
    have hdrop : (left ++ right).drop 16 = right.drop (16 - left.length) := by
      rw [List.drop_append, List.drop_of_length_le (by omega), List.nil_append]
    rw [htake'] at hfirst
    rw [hdrop] at hsecond
    have hlen : (left ++ right).length = left.length + right.length := List.length_append
    have hroom : (left ++ right.take (16 - left.length)).length < skipKeysPerNode := by
      rw [← htake', List.length_take]
      change min 16 _ < 32
      omega
    have hparts : left ++ slot :: right.take (16 - left.length) ++ right.drop (16 - left.length) =
        left ++ slot :: right := by
      rw [List.append_assoc, List.cons_append, List.take_append_drop]
    set leaf₁ := half.insertSlot slot slot.key left.length with hleaf₁
    have hset : s₃.setLeaf e.addr leaf₁ = some (((s.takes token' split).withLeaves
        (Function.update (Function.update s.leaves split leaf₂) e.addr leaf₁)).withLinks next
          prev) := by
      rw [State.setLeaf_eq (s := s₃) leaf₁ (h.nodes.allocated e he), hs₃]
      congr 1
      change ((s.takes token' split).withLeaves (Function.update leaves e.addr leaf₁)).withLinks next
        prev = _
      rw [hleaves, Function.update_idem]
    refine ⟨_, _, (if_neg hmid).trans hset, h.inserted_split hmem hsplit
      (hfirst.insertSlot hs hroom) (by simp) hsecond ?_ hslots hparts hext hchains⟩
    exact List.ne_nil_of_length_pos (by rw [List.length_drop]; omega)

/-- **`add_key_to_leaf`** -/
theorem Linked.addKeyToLeaf_eq (h : Linked s (before ++ e :: after))
    (hmem : Memory s (before ++ e :: after)) (hs : slot.Valid) (hslots : e.slots = left ++ right)
    (ha : s.preload token = some a)
    (hplaced : e.slots.length = skipKeysPerNode →
      Placed s before e after cursor (s.height (.leaf a)))
    (hext : Extents (contents before ++ (left ++ slot :: right) ++ contents after))
    (hfuel : 0 < fuel) :
    ∃ s' entries',
      s.addKeyToLeaf fuel e.addr slot slot.key left.length cursor token = some s' ∧
        Inserted s (before ++ e :: after) slot s' entries' := by
  rcases (h.holds e (by simp)).room.lt_or_eq with hroom | hfull
  · exact h.addKeyToLeaf_of_room hs hslots hroom hext
  · by_cases hright : right = []
    · subst hright
      rw [List.append_nil] at hslots
      subst hslots
      exact h.addKeyToLeaf_behind hmem hs hfull ha (hplaced hfull) hext hfuel
    · exact h.addKeyToLeaf_inside hmem hs hslots hfull hright ha (hplaced hfull) hext hfuel

end AddKey

/-- A slot with the key can go into the leaf `e`, or between it and its neighbours. -/
structure Target (key : ℕ) (before : List (Entry α)) (e : Entry α) (after : List (Entry α)) :
    Prop where
  below : ∀ e' ∈ before, e'.maxKey ≤ key
  above : ∀ e' ∈ after, key < e'.minKey

section FindOrAdd

variable {s : State α} {before after : List (Entry α)} {e : Entry α} {a : Addr}
  {token fuel key size : ℕ} {slot : SlSlot α} {cursor : Option Cursor}

/-- **`check_overlap`** compares the range with the next leaf. -/
theorem Linked.checkOverlap_eq (h : Linked s (before ++ e :: after))
    (hahead : ∀ n ∈ nodesAt 0 after, s.locked n = false) (hrange : key + size < 2 ^ 64) :
    (∃ e' after', after = e' :: after' ∧ e'.minKey < key + size ∧
      s.checkOverlap e.addr key size = some (true, s)) ∨
    (∀ e' after', after = e' :: after' → key + size ≤ e'.minKey) ∧
      s.checkOverlap e.addr key size = some (false, s) := by
  have hassoc : before ++ e :: after = before ++ [e] ++ after := by simp
  have hnext := getNext_eq (hassoc ▸ h.nodes) (by decide) (hassoc ▸ h.chains 0 (by decide))
  rw [lastAt_concat_of_le (Nat.zero_le _)] at hnext
  change s.getNext 0 (.leaf e.addr) = _ at hnext
  rw [State.checkOverlap, hnext]
  cases after with
  | nil => exact .inr ⟨by simp, rfl⟩
  | cons e' after' =>
    have he' : e' ∈ before ++ e :: e' :: after' := by simp
    have hpresent : s.present e'.node = true := h.nodes.allocated e' he'
    have hfree := hahead e'.node (by simp [nodesAt_cons_of_le])
    have hlock := State.slLockNode_eq hpresent hfree
    have hunlock := State.unlock_locked hpresent hfree
    have hmin := (h.withLocks (Function.update s.locked e'.node true)).slMinKey he'
    have hentry : e'.node.slEntry = some e'.addr := rfl
    rw [nodesAt_cons_of_le (Nat.zero_le _), List.head?_cons]
    simp only [Option.bind_eq_bind, Option.bind_some, hlock, hentry, hmin, hunlock, ulong_eq hrange]
    by_cases hlt : e'.minKey < key + size
    · exact .inl ⟨e', after', rfl, hlt, by simp [hlt]⟩
    · refine .inr ⟨fun e₁ after₁ heq ↦ ?_, by simp [hlt]⟩
      rw [List.cons.injEq] at heq
      exact heq.1 ▸ Nat.le_of_not_lt hlt

/-- A slot that goes into a gap of the leaf and ends before the next leaf. -/
theorem Linked.extents_insert {left right : List (SlSlot α)} (h : Linked s (before ++ e :: after))
    (htarget : Target slot.key before e after) (hs : slot.Valid) (hslots : e.slots = left ++ right)
    (hgap : Between slot.key slot.size left right)
    (hnext : ∀ e' after', after = e' :: after' → slot.stop ≤ e'.minKey) :
    Extents (contents before ++ (left ++ slot :: right) ++ contents after) := by
  have hext := h.extents
  rw [contents_append, contents_cons, hslots] at hext
  have hinsert : Extents ((contents before ++ left) ++ slot :: (right ++ contents after)) := by
    refine Extents.insert (by simpa using hext) hs ⟨fun t ht ↦ ?_, fun t ht ↦ ?_⟩
    · rcases List.mem_append.mp ht with ht | ht
      · obtain ⟨e', he', hslot⟩ := mem_contents.mp ht
        exact (h.stop_le_maxKey (by simp [he']) hslot).trans (htarget.below e' he')
      · exact hgap.left t ht
    · rcases List.mem_append.mp ht with ht | ht
      · exact hgap.right t ht
      · obtain ⟨e', he', hslot⟩ := mem_contents.mp ht
        cases after with
        | nil => simp at he'
        | cons e₁ after' =>
          have hfirst : e₁.minKey ≤ e'.minKey := by
            rcases List.mem_cons.mp he' with rfl | hlater
            · exact le_rfl
            · have hpairs := (List.pairwise_append.mp h.apart).2.1
              have hle := (List.pairwise_cons.mp (List.pairwise_cons.mp hpairs).2).1 e' hlater
              exact (h.minKey_lt_maxKey (by simp)).le.trans hle
          calc
            slot.stop ≤ e₁.minKey := hnext e₁ after' rfl
            _ ≤ e'.minKey := hfirst
            _ ≤ t.key := h.minKey_le (by simp [he']) hslot
  simpa using hinsert

/-- **`find_or_add_key`** adds the slot, or finds an extent that it overlaps. -/
theorem Linked.findOrAddKey_eq (h : Linked s (before ++ e :: after))
    (hmem : Memory s (before ++ e :: after)) (htarget : Target slot.key before e after)
    (hs : slot.Valid) (ha : s.preload token = some a)
    (hahead : ∀ n ∈ nodesAt 0 after, s.locked n = false)
    (hplaced : e.slots.length = skipKeysPerNode →
      Placed s before e after cursor (s.height (.leaf a))) (hfuel : 0 < fuel) :
    (s.findOrAddKey fuel slot.key slot.size e.addr slot cursor token = some (-eexist, s) ∧
      ∃ t ∈ contents (before ++ e :: after), Overlaps slot.key slot.size t) ∨
    ∃ s' entries', s.findOrAddKey fuel slot.key slot.size e.addr slot cursor token = some (0, s') ∧
      Inserted s (before ++ e :: after) slot s' entries' := by
  have he : e ∈ before ++ e :: after := by simp
  have hcheck := h.checkOverlap_eq hahead hs.fits
  have hext := h.extents_of_mem he
  rcases h.checkOverlap_eq hahead hs.fits with ⟨e', after', rfl, hlt, hcheck⟩ | ⟨hnext, hcheck⟩
  · -- the range overlaps the first extent of the next leaf
    left
    refine ⟨by rw [State.findOrAddKey, hcheck]; rfl, ?_⟩
    have he' : e' ∈ before ++ e :: e' :: after' := by simp
    obtain ⟨t, ht, hmin⟩ := h.exists_first_slot he'
    have hvalid := (h.extents_of_mem he').valid t ht
    have hkey := htarget.above e' (by simp)
    rw [hmin] at hkey hlt
    exact ⟨t, mem_contents.mpr ⟨e', he', ht⟩, hlt, hkey.trans hvalid.key_lt_stop⟩
  · have hrun : s.findOrAddKey fuel slot.key slot.size e.addr slot cursor token =
        if slot.key < e.maxKey then
          ((s.leaves e.addr).leafSlotLocked slot.key slot.size).bind fun r ↦
            if r.1 = 0 then some (-eexist, s)
            else (s.addKeyToLeaf fuel e.addr slot slot.key r.2 cursor token).bind (some ⟨0, ·⟩)
        else (s.addKeyToLeaf fuel e.addr slot slot.key e.slots.length cursor token).bind
          (some ⟨0, ·⟩) := by
      rw [State.findOrAddKey, hcheck]
      simp only [Option.bind_eq_bind, Option.bind_some, h.getLeaf he, h.leaf_max he,
        (h.holds e he).nr]
      rfl
    rw [hrun]
    split_ifs with hlt
    · obtain ⟨r, hsearch, hr⟩ := (h.holds e he).leafSlotLocked_spec hext hs.fits
      cases hr with
      | found i t ht hmeets =>
        left
        exact ⟨by rw [hsearch]; rfl,
          t, mem_contents.mpr ⟨e, he, List.mem_of_getElem? ht⟩, hmeets⟩
      | missing left right hslots hgap =>
        right
        obtain ⟨s', entries', hadd, hinserted⟩ := h.addKeyToLeaf_eq hmem hs hslots ha hplaced
          (h.extents_insert htarget hs hslots hgap hnext) hfuel
        refine ⟨s', entries', ?_, hinserted⟩
        rw [hsearch]
        simp only [Option.bind_some, hadd]
        rfl
    · right
      have hgap : Between slot.key slot.size e.slots [] :=
        ⟨fun t ht ↦ (h.stop_le_maxKey he ht).trans (Nat.le_of_not_lt hlt), by simp⟩
      have hslots := (List.append_nil e.slots).symm
      obtain ⟨s', entries', hadd, hinserted⟩ := h.addKeyToLeaf_eq hmem hs hslots ha hplaced
        (h.extents_insert htarget hs hslots hgap hnext) hfuel
      exact ⟨s', entries', by rw [hadd]; rfl, hinserted⟩

end FindOrAdd

end ParallelPrograms.ExtentList
