import ParallelPrograms.ExtentList.Levels
import Mathlib.Tactic.Set

/-!
# Linking and unlinking a leaf

A new leaf is linked level by level from the bottom up, and a dead one is unlinked from the top
down. One step changes four or two pointers of a level, and releases the locks that it has taken.
-/

namespace ParallelPrograms.ExtentList

open LinkedList

variable {α : Type}

namespace State

@[simps -fullyApplied]
def withLocks (s : State α) (locked : Node → Bool) : State α := { s with locked := locked }

@[simps -fullyApplied]
def withLinks (s : State α) (next prev : ℕ → Node → Option Node) : State α :=
  { s with next := next, prev := prev }

variable {s : State α} {n prev node : Node} {level : ℕ}

theorem slLockNode_eq (hpresent : s.present n = true) (hfree : s.locked n = false) :
    s.slLockNode n = some (s.withLocks (Function.update s.locked n true)) := by
  simp [slLockNode, hpresent, hfree, withLocks]

theorem slUnlockNode_eq (hpresent : s.present n = true) (hheld : s.locked n = true) :
    s.slUnlockNode (some n) = some (s.withLocks (Function.update s.locked n false)) := by
  simp [slUnlockNode, hpresent, hheld, withLocks]

@[simp]
theorem withLocks_withLocks (locked locked' : Node → Bool) :
    (s.withLocks locked).withLocks locked' = s.withLocks locked' := rfl

@[simp]
theorem withLocks_withLinks (locked : Node → Bool) (next prev : ℕ → Node → Option Node) :
    (s.withLocks locked).withLinks next prev = (s.withLinks next prev).withLocks locked := rfl

theorem slLockNode_withLocks {locked : Node → Bool} (hpresent : s.present n = true)
    (hfree : locked n = false) :
    (s.withLocks locked).slLockNode n = some (s.withLocks (Function.update locked n true)) :=
  slLockNode_eq (s := s.withLocks locked) hpresent hfree

theorem slUnlockNode_withLocks {locked : Node → Bool} (hpresent : s.present n = true)
    (hheld : locked n = true) :
    (s.withLocks locked).slUnlockNode (some n) =
      some (s.withLocks (Function.update locked n false)) :=
  slUnlockNode_eq (s := s.withLocks locked) hpresent hheld

/-- A lock that is taken and released. -/
theorem update_locked_false (hfree : s.locked n = false) :
    Function.update (Function.update s.locked n true) n false = s.locked := by
  rw [Function.update_idem, ← hfree, Function.update_eq_self]

/-- A lock that is taken and released again. -/
theorem unlock_locked (hpresent : s.present n = true) (hfree : s.locked n = false) :
    (s.withLocks (Function.update s.locked n true)).slUnlockNode (some n) = some s := by
  rw [slUnlockNode_withLocks hpresent (Function.update_self ..), update_locked_false hfree]
  rfl

/-- The lock of a node is released after the one of the next node has been taken. -/
theorem unlock_passed (hpresent : s.present prev = true) (hfree : s.locked prev = false)
    (hne : n ≠ prev) :
    (s.withLocks (Function.update (Function.update s.locked prev true) n true)).slUnlockNode
      (some prev) = some (s.withLocks (Function.update s.locked n true)) := by
  rw [slUnlockNode_withLocks hpresent (by simp [hne.symm]), Function.update_comm hne,
    update_locked_false hfree]

section Unlocked

variable (s n level) (locked : Node → Bool)

@[simp]
theorem getNext_withLocks : (s.withLocks locked).getNext level n = s.getNext level n := rfl

@[simp]
theorem getPrev_withLocks : (s.withLocks locked).getPrev level n = s.getPrev level n := rfl

@[simp]
theorem getDead_withLocks : (s.withLocks locked).getDead n = s.getDead n := rfl

@[simp]
theorem getLeaf_withLocks (a : Addr) : (s.withLocks locked).getLeaf a = s.getLeaf a := rfl

/-- What is read does not depend on the locks. -/
@[simp]
theorem findLiveNext_withLocks (fuel : ℕ) :
    (s.withLocks locked).findLiveNext n level fuel = s.findLiveNext n level fuel := by
  induction fuel generalizing n with
  | zero => rfl
  | succ fuel ih => simp only [findLiveNext, getNext_withLocks, getDead_withLocks, ih]

@[simp]
theorem findLivePrev_withLocks (fuel : ℕ) :
    (s.withLocks locked).findLivePrev fuel n level = s.findLivePrev fuel n level := by
  have hlive : (s.withLocks locked).livePrev level fuel n = s.livePrev level fuel n := by
    induction fuel generalizing n with
    | zero => rfl
    | succ fuel ih => simp only [livePrev, getPrev_withLocks, getDead_withLocks, ih]
  rw [findLivePrev, findLivePrev, hlive]

end Unlocked

/-- The end of `erase_one_level`, which releases what it has locked. -/
theorem unlock_taken {next : Option Node} {locked : Node → Bool} (hprev : s.present prev = true)
    (hnode : s.present node = true) (hne : node ≠ prev)
    (hnext : ∀ n ∈ next, s.present n = true ∧ n ≠ prev ∧ n ≠ node)
    (hfree : ∀ n, s.present n = true → locked n = false) :
    ((s.withLocks (next.elim (Function.update (Function.update locked prev true) node true) fun n ↦
      Function.update (Function.update (Function.update locked prev true) node true) n
        true)).slUnlockNode prev).bind (fun s ↦
          (s.slUnlockNode node).bind fun s ↦ s.slUnlockNode next) = some (s.withLocks locked) := by
  have hprev' := hfree prev hprev
  have hnode' := hfree node hnode
  cases next with
  | none =>
    rw [Option.elim_none, slUnlockNode_withLocks hprev (by simp [hne.symm]), Option.bind_some,
      slUnlockNode_withLocks hnode (by simp [hne]), Option.bind_some, slUnlockNode]
    congr 2
    funext m
    simp only [Function.update_apply]
    split_ifs with h₁ h₂
    · rw [h₁, hnode']
    · rw [h₂, hprev']
    · rfl
  | some n =>
    obtain ⟨hpresent, hne₁, hne₂⟩ := hnext n rfl
    have hfree' := hfree n hpresent
    rw [Option.elim_some, slUnlockNode_withLocks hprev (by simp [hne.symm, hne₁.symm]),
      Option.bind_some, slUnlockNode_withLocks hnode (by simp [hne, hne₂.symm]), Option.bind_some,
      slUnlockNode_withLocks hpresent (by simp [hne₁, hne₂])]
    congr 2
    funext m
    simp only [Function.update_apply]
    split_ifs with h₁ h₂ h₃
    · rw [h₁, hfree']
    · rw [h₂, hnode']
    · rw [h₃, hprev']
    · rfl

theorem linkBetween_eq (next : Option Node) (hnode : s.valid node level = true)
    (hprev : s.valid prev level = true) (hnext : s.valid (next.getD .head) level = true) :
    s.linkBetween prev node next level = some (s.withLinks
      (Function.update s.next level
        (Function.update (Function.update (s.next level) node next) prev (some node)))
      (Function.update s.prev level
        (Function.update (Function.update (s.prev level) node (some prev)) (next.getD .head)
          (some node)))) := by
  have hvalid : ∀ (next' prev' : ℕ → Node → Option Node) n,
      State.valid { s with next := next', prev := prev' } n level = s.valid n level :=
    fun _ _ _ ↦ rfl
  simp [linkBetween, setNext, setPrev, hvalid, hnode, hprev, hnext, withLinks]

theorem unlinkBetween_eq {next : Option Node} (hprev : s.valid prev level = true)
    (hnext : s.valid (next.getD .head) level = true) :
    s.unlinkBetween prev next level = some (s.withLinks
      (Function.update s.next level (Function.update (s.next level) prev next))
      (Function.update s.prev level (Function.update (s.prev level) (next.getD .head)
        (if next = none ∧ prev = .head then none else some prev)))) := by
  have hvalid : ∀ (next' prev' : ℕ → Node → Option Node) n,
      State.valid { s with next := next', prev := prev' } n level = s.valid n level :=
    fun _ _ _ ↦ rfl
  cases next with
  | none => by_cases hhead : prev = .head <;>
      simp_all [unlinkBetween, setNext, setPrev, withLinks]
  | some next => simp_all [unlinkBetween, setNext, setPrev, withLinks]

end State

theorem Nodes.congr {s s' : State α} {entries : List (Entry α)} (h : Nodes s entries)
    (hallocated : s'.allocated = s.allocated) (hheight : s'.height = s.height)
    (hdead : s'.dead = s.dead) : Nodes s' entries where
  allocated e he := hallocated ▸ h.allocated e he
  height e he := hheight ▸ h.height e he
  alive e he := hdead ▸ h.alive e he
  headHeight := hheight ▸ h.headHeight
  headAlive := hdead ▸ h.headAlive

section Link

variable {s : State α} {before after : List (Entry α)} {level fuel : ℕ} {node : Node}

/-- **`sl_link_one_level`** behind the last entry of `before`. -/
theorem slLinkOneLevel_eq (rounds : ℕ) (hnodes : Nodes s (before ++ after))
    (hlevel : level < skipMaxlevel)
    (hchain : ChainAt s level (nodesAt level (before ++ after)))
    (hvalid : s.valid node level = true) (hnode : node ∉ Node.head :: nodesAt level (before ++ after))
    (hheld : s.locked (lastAt level before) = true)
    (hfree : ∀ n ∈ (nodesAt level after).head?, s.locked n = false) (hfuel : 0 < fuel) :
    ∃ next prev, State.slLinkOneLevel fuel (lastAt level before) node level (rounds + 1) s =
        some (s.withLinks (Function.update s.next level next) (Function.update s.prev level prev)) ∧
      Chain next prev .head (nodesAt level before ++ node :: nodesAt level after) := by
  have hprev := hnodes.valid hlevel (lastAt_mem level before after)
  have hnext : s.valid ((nodesAt level after).head?.getD .head) level = true := by
    refine hnodes.valid hlevel ?_
    rw [nodesAt_append]
    exact firstOf_mem_append ..
  have hlive := findLiveNext_eq hnodes hlevel hchain hfuel
  have hdead := hnodes.getDead (lastAt_mem level before after)
  have hsplit := nodesAt_append level before after
  have hinsert := Chain.insert_stores (hsplit ▸ hchain) (hsplit ▸ hnode)
  refine ⟨_, _, ?_, hinsert⟩
  rw [State.slLinkOneLevel, hlive, hdead]
  simp only [hheld, guard_true, Option.pure_def, Option.bind_eq_bind, Option.bind_some]
  cases hhead : (nodesAt level after).head? with
  | none =>
    rw [hhead] at hnext
    simp only [State.linkBetween_eq none hvalid hprev hnext, firstOf, hhead]
  | some next =>
    obtain ⟨lower, e, rest, rfl, hlower, hle, rfl⟩ := exists_first hhead
    rw [hhead] at hnext hlive
    have hpresent := hnodes.present (mem_nodesAt (e := e) (by simp) hle)
    have hlocked := State.slLockNode_eq hpresent (hfree _ hhead)
    set s₁ := s.withLocks (Function.update s.locked e.node true) with hs₁
    have hnodes₁ : Nodes s₁ (before ++ (lower ++ e :: rest)) := hnodes.congr rfl rfl rfl
    have hlive₁ := findLiveNext_eq (s := s₁) hnodes₁ hlevel hchain hfuel
    rw [hhead] at hlive₁
    have hdead₁ := hnodes₁.getDead (mem_nodesAt (e := e) (by simp) hle)
    have hassoc : before ++ (lower ++ e :: rest) = before ++ lower ++ e :: rest :=
      (List.append_assoc ..).symm
    have hback₁ := findLivePrev_eq (s := s₁) (hassoc ▸ hnodes₁) hlevel (hassoc ▸ hchain) hle hfuel
    have hlast : lastAt level (before ++ lower) = lastAt level before := by
      rw [lastAt, nodesAt_append, hlower, List.append_nil]
    rw [hlast] at hback₁
    have hlink := State.linkBetween_eq (s := s₁) (some e.node) hvalid hprev hnext
    have hunlock : ∀ next prev,
        (s₁.withLinks next prev).slUnlockNode e.node = some (s.withLinks next prev) := by
      intro next prev
      rw [State.slUnlockNode_eq (s := s₁.withLinks next prev) (n := e.node) hpresent
          (Function.update_self ..),
        State.withLinks_locked, hs₁, State.withLocks_locked,
        State.update_locked_false (hfree _ hhead)]
      rfl
    simp only [hlocked, Option.bind_some, hlive₁, hdead₁, hback₁, hlink]
    rw [if_neg (by simp), if_neg (by simp), hunlock, firstOf, hhead]
    rfl

/-- **The loops of `sl_link_node` and of `sl_link_after_node`** -/
theorem linkLevels_eq {prev : ℕ → Option Node} {count : ℕ} (hnodes : Nodes s (before ++ after))
    (hlevel : level + count ≤ skipMaxlevel)
    (hchain : ∀ j, level ≤ j → j < level + count → ChainAt s j (nodesAt j (before ++ after)))
    (hvalid : ∀ j < level + count, s.valid node j = true)
    (hnode : node ∉ Node.head :: nodesAt 0 (before ++ after))
    (hprev : ∀ j, level ≤ j → j < level + count →
      prev j = some (lastAt j before) ∧ s.locked (lastAt j before) = true)
    (hfree : ∀ n ∈ nodesAt 0 after, s.locked n = false) (hfuel : 0 < fuel) :
    ∃ next' prev', State.linkLevels fuel node prev count level s = some (s.withLinks next' prev') ∧
      ∀ j, if level ≤ j ∧ j < level + count
        then Chain (next' j) (prev' j) .head (nodesAt j before ++ node :: nodesAt j after)
        else next' j = s.next j ∧ prev' j = s.prev j := by
  induction count generalizing level s with
  | zero => exact ⟨s.next, s.prev, rfl, fun j ↦ by rw [if_neg (by omega)]; exact ⟨rfl, rfl⟩⟩
  | succ count ih =>
    obtain ⟨rounds, hrounds⟩ := Nat.exists_eq_add_one.mpr hfuel
    have hlt : level < skipMaxlevel := by omega
    obtain ⟨hfirst, hheld⟩ := hprev level le_rfl (by omega)
    have hnode' : node ∉ Node.head :: nodesAt level (before ++ after) := fun hmem ↦
      hnode (List.cons_subset_cons _ (tower_subset (Nat.zero_le level)) hmem)
    have hfree' : ∀ n ∈ (nodesAt level after).head?, s.locked n = false := fun n hn ↦
      hfree n (tower_subset (Nat.zero_le level) (List.mem_of_head? hn))
    obtain ⟨next₁, prev₁, hstep, hchain₁⟩ := slLinkOneLevel_eq rounds hnodes hlt
      (hchain level le_rfl (by omega)) (hvalid level (by omega)) hnode' hheld hfree' hfuel
    rw [← hrounds] at hstep
    set s₁ := s.withLinks (Function.update s.next level next₁) (Function.update s.prev level prev₁)
      with hs₁
    have hother : ∀ j, j ≠ level → s₁.next j = s.next j ∧ s₁.prev j = s.prev j := fun j hj ↦
      ⟨Function.update_of_ne hj .., Function.update_of_ne hj ..⟩
    have hsame : s₁.next level = next₁ ∧ s₁.prev level = prev₁ :=
      ⟨Function.update_self .., Function.update_self ..⟩
    have hahead : ∀ j, level + 1 ≤ j → j < level + 1 + count →
        ChainAt s₁ j (nodesAt j (before ++ after)) := by
      intro j hj hcount
      rw [ChainAt, (hother j (by omega)).1, (hother j (by omega)).2]
      exact hchain j (by omega) (by omega)
    obtain ⟨next', prev', hrest, hchains⟩ := @ih s₁ (level + 1)
      (hnodes.congr rfl rfl rfl) (by omega) hahead (fun j hj ↦ hvalid j (by omega))
      (fun j hj hcount ↦ hprev j (by omega) (by omega)) hfree
    refine ⟨next', prev', ?_, fun j ↦ ?_⟩
    · rw [State.linkLevels, hfirst]
      simp only [Option.bind_eq_bind, Option.bind_some, hstep, hrest]
      rfl
    · have hj := hchains j
      rcases lt_trichotomy j level with hbelow | rfl | habove
      · rw [if_neg (by omega)] at hj ⊢
        rwa [(hother j hbelow.ne).1, (hother j hbelow.ne).2] at hj
      · rw [if_neg (by omega), hsame.1, hsame.2] at hj
        rw [if_pos (by omega), hj.1, hj.2]
        exact hchain₁
      · rw [show level + (count + 1) = level + 1 + count by omega]
        split_ifs at hj ⊢ with hin hin' hin'
        · exact hj
        · omega
        · omega
        · rwa [(hother j habove.ne').1, (hother j habove.ne').2] at hj

end Link

section Unlink

variable {s : State α} {before after : List (Entry α)} {level fuel : ℕ} {node : Node}

/-- A dead node at a level, between the entries of `before` and those of `after`. -/
structure DeadAt (s : State α) (before after : List (Entry α)) (node : Node) (level : ℕ) : Prop where
  nodes : Nodes s (before ++ after)
  bound : level < skipMaxlevel
  valid : s.valid node level = true
  dead : s.dead node = true
  chain : ChainAt s level (nodesAt level before ++ node :: nodesAt level after)

namespace DeadAt

theorem getDead (h : DeadAt s before after node level) : s.getDead node = some true := by
  have hvalid := h.valid
  rw [State.valid, Bool.and_eq_true] at hvalid
  rw [State.getDead, if_pos hvalid.1, h.dead]

/-- The functions that look for a live neighbour skip the node. -/
theorem findLiveNext (h : DeadAt s before after node level) (hfuel : 1 < fuel) :
    s.findLiveNext (lastAt level before) level fuel = some (nodesAt level after).head? := by
  obtain ⟨fuel, rfl⟩ := Nat.exists_eq_add_of_le' hfuel
  have hfirst : s.getNext level (lastAt level before) = some (some node) := by
    rw [State.getNext, if_pos (h.nodes.valid h.bound (lastAt_mem level before after)),
      h.chain.forward _ _ rfl,
      List.head?_cons]
  have hsecond : s.getNext level node = some (nodesAt level after).head? := by
    have hforward := h.chain.forward (nodesAt level before ++ [node]) (nodesAt level after)
      (by simp)
    rw [lastOf_concat] at hforward
    rw [State.getNext, if_pos h.valid, hforward]
  rw [State.findLiveNext, hfirst]
  simp only [Option.bind_eq_bind, Option.bind_some, h.getDead, if_true, State.findLiveNext, hsecond]
  cases hhead : (nodesAt level after).head? with
  | none => rfl
  | some n =>
    have hn : n ∈ Node.head :: nodesAt level (before ++ after) := by
      rw [nodesAt_append]
      exact List.mem_cons_of_mem _ (List.mem_append_right _ (List.mem_of_head? hhead))
    simp [h.nodes.getDead hn]

theorem findLivePrev (h : DeadAt s before after node level) (hne : node ≠ .head)
    (hfuel : 0 < fuel) :
    s.findLivePrev fuel node level = some (some (lastAt level before)) := by
  obtain ⟨fuel, rfl⟩ := Nat.exists_eq_add_one.mpr hfuel
  have hprev : s.getPrev level node = some (some (lastAt level before)) := by
    rw [State.getPrev, if_pos h.valid, h.chain.backward _ _ _ rfl]
  have hdead := h.nodes.getDead (lastAt_mem level before after)
  rw [State.findLivePrev, if_neg hne, State.livePrev, hprev]
  simp [hdead]

/-- The node behind the dead one leads back across it. -/
theorem findLivePrev_next (h : DeadAt s before after node level) {next : Node}
    (hnext : (nodesAt level after).head? = some next) (hfuel : 1 < fuel) :
    s.findLivePrev fuel next level = some (some (lastAt level before)) := by
  obtain ⟨fuel, rfl⟩ := Nat.exists_eq_add_of_le' hfuel
  obtain ⟨rest, hrest⟩ := List.head?_eq_some_iff.mp hnext
  have hmem : next ∈ nodesAt level (before ++ after) := by
    rw [nodesAt_append]
    exact List.mem_append_right _ (List.mem_of_head? hnext)
  have hfirst : s.getPrev level next = some (some node) := by
    rw [State.getPrev, if_pos (h.nodes.valid h.bound (List.mem_cons_of_mem _ hmem)),
      h.chain.backward (nodesAt level before ++ [node]) next rest (by simp [hrest]), lastOf_concat]
  have hsecond : s.getPrev level node = some (some (lastAt level before)) := by
    rw [State.getPrev, if_pos h.valid, h.chain.backward _ _ _ rfl]
  have hdead := h.nodes.getDead (lastAt_mem level before after)
  have hne : next ≠ .head := by
    obtain ⟨e, -, -, rfl⟩ := mem_tower.mp hmem
    exact e.node_ne_head
  rw [State.findLivePrev, if_neg hne]
  simp only [State.livePrev, hfirst, hsecond, hdead, h.getDead, Option.bind_eq_bind,
    Option.bind_some, if_true]
  rfl

theorem withLocks (h : DeadAt s before after node level) (locked : Node → Bool) :
    DeadAt (s.withLocks locked) before after node level :=
  ⟨h.nodes.congr rfl rfl rfl, h.bound, h.valid, h.dead, h.chain⟩

/-- **`erase_one_level` from the label `again_next` on** -/
theorem lockLiveNext (rounds : ℕ) (h : DeadAt s before after node level) (hfuel : 1 < fuel)
    (hfree : ∀ n ∈ (nodesAt level after).head?, s.locked n = false) :
    s.lockLiveNext fuel (lastAt level before) node level (rounds + 1) =
      some (.found (nodesAt level after).head? (s.withLocks
        ((nodesAt level after).head?.elim s.locked fun n ↦ Function.update s.locked n true))) := by
  have hlive := h.findLiveNext hfuel
  rw [State.lockLiveNext, hlive]
  cases hhead : (nodesAt level after).head? with
  | none => simp [State.withLocks]
  | some next =>
    have hmem : next ∈ Node.head :: nodesAt level (before ++ after) := by
      rw [nodesAt_append]
      exact List.mem_cons_of_mem _ (List.mem_append_right _ (List.mem_of_head? hhead))
    have hlock := State.slLockNode_eq (h.nodes.present hmem) (hfree _ hhead)
    simp [hlock, hlive, hhead, h.nodes.getDead hmem, h.findLivePrev_next hhead hfuel]

end DeadAt

/-- **`erase_one_level`** -/
theorem eraseOneLevel_eq (rounds : ℕ) (h : DeadAt s before after node level) (hne : node ≠ .head)
    (hnode : node ∉ nodesAt level (before ++ after))
    (hfree : ∀ n, s.present n = true → s.locked n = false) (hfuel : 1 < fuel) :
    ∃ next prev, State.eraseOneLevel fuel node level (rounds + 1) s =
        some (s.withLinks (Function.update s.next level next) (Function.update s.prev level prev)) ∧
      Chain next prev .head (nodesAt level (before ++ after)) := by
  obtain ⟨tries, htries⟩ := Nat.exists_eq_add_one.mpr (show 0 < fuel by omega)
  have hprev := h.findLivePrev hne (show 0 < fuel by omega)
  have hmem : lastAt level before ∈ Node.head :: nodesAt level (before ++ after) :=
    lastAt_mem level before after
  have hpresent := h.nodes.present hmem
  have hpresent' : s.present node = true := (Bool.and_eq_true _ _ ▸ h.valid).1
  have hlast : node ≠ lastAt level before := fun heq ↦
    List.not_mem_cons_of_ne_of_not_mem hne hnode (heq ▸ hmem)
  set l₁ := Function.update s.locked (lastAt level before) true with hl₁
  have hlock : s.slLockNode (lastAt level before) = some (s.withLocks l₁) :=
    State.slLockNode_eq hpresent (hfree _ hpresent)
  set l₂ := Function.update l₁ node true with hl₂
  have hlock' : (s.withLocks l₁).slLockNode node = some (s.withLocks l₂) :=
    State.slLockNode_withLocks hpresent'
      ((Function.update_of_ne hlast ..).trans (hfree _ hpresent'))
  have hother : ∀ n ∈ (nodesAt level after).head?, s.present n = true ∧
      n ≠ lastAt level before ∧ n ≠ node := by
    intro n hn
    have hafter := List.mem_of_head? hn
    have hmem' : n ∈ nodesAt level (before ++ after) := by
      rw [nodesAt_append]
      exact List.mem_append_right _ hafter
    exact ⟨h.nodes.present (List.mem_cons_of_mem _ hmem'),
      Cycle.lastOf_ne_of_mem h.chain.nodup (List.mem_cons_of_mem _ hafter),
      ne_of_mem_of_not_mem hmem' hnode⟩
  have hfree₂ : ∀ n ∈ (nodesAt level after).head?, l₂ n = false := by
    intro n hn
    obtain ⟨hn', hne₁, hne₂⟩ := hother n hn
    rw [hl₂, Function.update_of_ne hne₂, hl₁, Function.update_of_ne hne₁, hfree n hn']
  have hnext := DeadAt.lockLiveNext tries (h.withLocks l₂) hfuel hfree₂
  rw [← htries, State.withLocks_withLocks, State.withLocks_locked] at hnext
  set l₃ := (nodesAt level after).head?.elim l₂ fun n ↦ Function.update l₂ n true with hl₃
  have hvalid' : s.valid ((nodesAt level after).head?.getD .head) level = true := by
    refine h.nodes.valid h.bound ?_
    rw [nodesAt_append]
    exact firstOf_mem_append ..
  have hunlink := State.unlinkBetween_eq (s := s.withLocks l₃)
    (h.nodes.valid h.bound (lastAt_mem level before after))
    hvalid'
  rw [State.withLocks_withLinks] at hunlink
  have hunlock := fun next' prev' ↦ State.unlock_taken (s := s.withLinks next' prev') hpresent
    hpresent' hlast hother hfree
  have hremove := h.chain.remove_stores
  rw [← nodesAt_append] at hremove
  refine ⟨_, _, ?_, hremove⟩
  rw [State.eraseOneLevel, hprev]
  simp only [Option.bind_eq_bind, Option.bind_some, hlock, hlock', State.findLivePrev_withLocks,
    hprev, State.getDead_withLocks, h.nodes.getDead hmem, hnext]
  rw [if_neg (by simp), hunlink]
  have hends : ((nodesAt level after).head? = none ∧ lastAt level before = .head) ↔
      nodesAt level after = [] ∧ nodesAt level before = [] := by
    rw [List.head?_eq_none_iff, lastOf_eq_head_iff fun hmem ↦
      h.chain.head_notMem (List.mem_append_left _ hmem)]
  refine (hunlock _ _).trans ?_
  simp only [hends, State.withLocks_next, State.withLocks_prev]
  rfl

/-- **The loop of `sl_erase`** -/
theorem eraseLevels_eq {count : ℕ} (h : ∀ j < count, DeadAt s before after node j)
    (hne : node ≠ .head) (hnode : node ∉ nodesAt 0 (before ++ after))
    (hfree : ∀ n, s.present n = true → s.locked n = false) (hfuel : 1 < fuel) :
    ∃ next' prev', State.eraseLevels fuel node count s = some (s.withLinks next' prev') ∧
      ∀ j, if j < count then Chain (next' j) (prev' j) .head (nodesAt j (before ++ after))
        else next' j = s.next j ∧ prev' j = s.prev j := by
  induction count generalizing s with
  | zero => exact ⟨s.next, s.prev, rfl, fun j ↦ by rw [if_neg (by omega)]; exact ⟨rfl, rfl⟩⟩
  | succ level ih =>
    obtain ⟨rounds, hrounds⟩ := Nat.exists_eq_add_one.mpr (show 0 < fuel by omega)
    obtain ⟨next₁, prev₁, hstep, hchain₁⟩ := eraseOneLevel_eq rounds (h level (by omega)) hne
      (fun hmem ↦ hnode (tower_subset (Nat.zero_le level) hmem)) hfree hfuel
    rw [← hrounds] at hstep
    set s₁ := s.withLinks (Function.update s.next level next₁) (Function.update s.prev level prev₁)
      with hs₁
    have hother : ∀ j, j ≠ level → s₁.next j = s.next j ∧ s₁.prev j = s.prev j := fun j hj ↦
      ⟨Function.update_of_ne hj .., Function.update_of_ne hj ..⟩
    have hsame : s₁.next level = next₁ ∧ s₁.prev level = prev₁ :=
      ⟨Function.update_self .., Function.update_self ..⟩
    have hbelow : ∀ j < level, DeadAt s₁ before after node j := by
      intro j hj
      have hdead := h j (by omega)
      refine ⟨hdead.nodes.congr rfl rfl rfl, hdead.bound, hdead.valid, hdead.dead, ?_⟩
      rw [ChainAt, (hother j hj.ne).1, (hother j hj.ne).2]
      exact hdead.chain
    obtain ⟨next', prev', hrest, hchains⟩ := ih hbelow hfree
    refine ⟨next', prev', ?_, fun j ↦ ?_⟩
    · rw [State.eraseLevels, hstep]
      simp only [Option.bind_eq_bind, Option.bind_some, hrest]
      rfl
    · have hj := hchains j
      rcases lt_trichotomy j level with hlt | rfl | hgt
      · rw [if_pos hlt] at hj
        rwa [if_pos (by omega)]
      · rw [if_neg (lt_irrefl j), hsame.1, hsame.2] at hj
        rw [if_pos (by omega), hj.1, hj.2]
        exact hchain₁
      · rw [if_neg (by omega), (hother j hgt.ne').1, (hother j hgt.ne').2] at hj
        rwa [if_neg (by omega)]

end Unlink

end ParallelPrograms.ExtentList
