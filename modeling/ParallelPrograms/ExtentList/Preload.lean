import ParallelPrograms.ExtentList.Insert
import ParallelPrograms.ExtentList.Delete

/-!
# The life of a leaf

`skiplist_preload` allocates leaves and puts them into the preload area. `skiplist_insert` takes a
leaf from there for the list, `skiplist_delete` gives one to `call_rcu`, and `sl_free_rcu` frees it.
At each of these steps one leaf changes its owner.
-/

namespace ParallelPrograms.ExtentList

open LinkedList Sequence

variable {α : Type} {s s' : State α} {entries entries' : List (Entry α)} {a b : Addr}
  {token level maxLevel : ℕ} {slot : SlSlot α}

/-- The invariant between two calls. -/
structure Sound (s : State α) (entries : List (Entry α)) : Prop where
  linked : Linked s entries
  memory : Memory s entries
  unlocked : s.Unlocked

/-- The preemption counter does not matter. -/
theorem Sound.withPreempt (h : Sound s entries) (preempt : ℤ) :
    Sound (s.withPreempt preempt) entries :=
  ⟨h.linked.congr rfl rfl rfl rfl rfl rfl fun _ _ ↦ rfl, h.memory.congr rfl rfl rfl rfl rfl,
    h.unlocked⟩

/-- Only the leaves of the list and its head matter. -/
theorem Linked.congr_on (h : Linked s entries) (hlevel : s'.level = s.level)
    (hsame : ∀ n ∈ Node.head :: nodesAt 0 entries, s'.present n = s.present n ∧
      s'.height n = s.height n ∧ s'.dead n = s.dead n ∧
        ∀ level, s'.next level n = s.next level n ∧ s'.prev level n = s.prev level n)
    (hleaves : ∀ e ∈ entries, s'.leaves e.addr = s.leaves e.addr) : Linked s' entries := by
  have hnode : ∀ e ∈ entries, e.node ∈ Node.head :: nodesAt 0 entries := fun e he ↦
    mem_nodesAt he (Nat.zero_le _)
  have hhead : Node.head ∈ Node.head :: nodesAt 0 entries := List.mem_cons_self
  constructor
  · constructor
    · exact fun e he ↦ (hsame _ (hnode e he)).1.trans (h.nodes.allocated e he)
    · exact fun e he ↦ (hsame _ (hnode e he)).2.1.trans (h.nodes.height e he)
    · exact fun e he ↦ (hsame _ (hnode e he)).2.2.1.trans (h.nodes.alive e he)
    · exact (hsame _ hhead).2.1.trans h.nodes.headHeight
    · exact (hsame _ hhead).2.2.1.trans h.nodes.headAlive
  · intro level hlt
    have hsub : ∀ n ∈ Node.head :: nodesAt level entries, n ∈ Node.head :: nodesAt 0 entries :=
      List.cons_subset_cons _ (tower_subset (Nat.zero_le level))
    exact (h.chains level hlt).congr (fun n hn ↦ ((hsame n (hsub n hn)).2.2.2 level).1)
      fun n hn ↦ ((hsame n (hsub n hn)).2.2.2 level).2
  · exact fun e he ↦ hleaves e he ▸ h.holds e he
  · exact h.nonempty
  · exact h.extents
  · exact fun e he ↦ hlevel ▸ h.low e he
  · exact hlevel ▸ h.bound

/-- A node of the list is not the node of a leaf that is not in it. -/
theorem node_ne_of_mem (hfresh : ∀ e ∈ entries, e.addr ≠ a) {n : Node}
    (hn : n ∈ Node.head :: nodesAt level entries) : n ≠ .leaf a := by
  rcases List.mem_cons.mp hn with rfl | hn
  · exact Node.noConfusion
  · obtain ⟨e, he, -, rfl⟩ := mem_tower.mp hn
    exact fun heq ↦ hfresh e he (Node.leaf.inj heq)

/-! ## Allocating -/

/-- A leaf that is not allocated has no owner. -/
theorem Memory.not_owns (h : Memory s entries) (ha : s.allocated a = false) (o : Owner) :
    ¬ Owns s entries o a := fun ho ↦ by
  rw [(h.allocated a).mpr ⟨o, ho⟩] at ha
  exact Bool.noConfusion ha

theorem Memory.fresh (h : Memory s entries) (ha : s.allocated a = false) :
    ∀ e ∈ entries, e.addr ≠ a := fun e he heq ↦
  h.not_owns ha .list (List.mem_map.mpr ⟨e, he, heq⟩)

/-- **`sl_init_node`** of a leaf that has been allocated -/
theorem Linked.slInitNode (h : Linked s entries) (hfresh : ∀ e ∈ entries, e.addr ≠ a) (level : ℕ) :
    Linked (s.slInitNode a level) entries := by
  refine h.congr_on rfl (fun n hn ↦ ?_) fun _ _ ↦ rfl
  have hne := node_ne_of_mem hfresh hn
  refine ⟨?_, Function.update_of_ne hne .., Function.update_of_ne hne .., fun j ↦ ⟨rfl, ?_⟩⟩
  · cases n with
    | head => rfl
    | leaf c => exact Function.update_of_ne (fun heq ↦ hne (congrArg Node.leaf heq)) ..
  · change Function.update s.prev level (Function.update (s.prev level) (.leaf a) none) j n = _
    rw [Function.update_apply]
    split_ifs with hj
    · rw [Function.update_of_ne hne, hj]
    · rfl

/-- A new leaf goes into a free place of the preload area. -/
theorem Memory.stock (h : Memory s entries) (ha : s.allocated a = false)
    (hplace : s.preload token = none) (hle : level ≤ token) (htoken : token < skipMaxlevel) :
    Memory { s.slInitNode a level with preload := Function.update s.preload token (some a) }
      entries := by
  refine h.move (a := a) (some (.preload token)) (fun o b ↦ ?_) (fun b ↦ ?_) h.once ?_
  · have hnot := h.not_owns ha o
    split_ifs with hb
    · subst hb
      cases o with
      | list => exact iff_of_false hnot (by simp)
      | callRcu => exact iff_of_false hnot (by simp)
      | preload place =>
        by_cases hsame : place = token
        · simp [Owns, hsame]
        · simp only [Owns, Function.update_of_ne hsame, Option.some.injEq, Owner.preload.injEq]
          exact iff_of_false hnot (Ne.symm hsame)
    · cases o with
      | list => rfl
      | callRcu => rfl
      | preload place =>
        by_cases hsame : place = token
        · simp [Owns, hsame, hplace, Ne.symm hb]
        · simp [Owns, Function.update_of_ne hsame]
  · change Function.update s.allocated a true b = _
    rw [Function.update_apply]
    rfl
  · intro place b hb
    change Function.update s.preload token (some a) place = some b at hb
    change place < skipMaxlevel ∧ Function.update s.height (.leaf a) level (.leaf b) ≤ place ∧
      Function.update s.dead (.leaf a) false (.leaf b) = false
    rw [Function.update_apply] at hb
    split_ifs at hb with hsame
    · obtain rfl : a = b := Option.some.inj hb
      subst hsame
      exact ⟨htoken, by rwa [Function.update_self], Function.update_self ..⟩
    · have hne : (Node.leaf b) ≠ .leaf a := fun heq ↦
        h.not_owns ha (.preload place) (Node.leaf.inj heq ▸ hb)
      rw [Function.update_of_ne hne, Function.update_of_ne hne]
      exact h.ready place b hb

/-! ## Changing the owner -/

theorem Memory.owns_iff (h : Memory s entries) {o : Owner} (ho : Owns s entries o a) (o' : Owner) :
    Owns s entries o' a ↔ o = o' :=
  ⟨fun ho' ↦ h.unique a o o' ho ho', fun heq ↦ heq ▸ ho⟩

/-- The extents of the leaves have no owner. -/
theorem Memory.of_addr (h : Memory s entries)
    (haddr : entries'.map Entry.addr = entries.map Entry.addr) : Memory s entries' := by
  have howns : ∀ o b, Owns s entries' o b ↔ Owns s entries o b := by
    intro o b
    cases o with
    | list => rw [Owns, Owns, haddr]
    | preload place => rfl
    | callRcu => rfl
  exact ⟨fun b ↦ by simp only [howns, h.allocated b], fun b o o' ho ho' ↦
    h.unique b o o' ((howns o b).mp ho) ((howns o' b).mp ho'), h.once, h.ready⟩

/-- A leaf that an insertion uses goes from the preload area to the list. -/
theorem Added.memory (hadded : Added s entries slot s' entries') (h : Memory s entries) :
    Memory s' entries' := by
  rcases hadded.owners with ⟨hpreload, haddr⟩ | ⟨place, a, ha, hpreload, hperm⟩
  · exact (h.of_addr haddr).congr hadded.allocated hpreload hadded.freed hadded.height hadded.dead
  · have hsame := h.owns_iff (o := .preload place) ha
    refine h.move (a := a) (some .list) (fun o b ↦ ?_) (fun b ↦ ?_) (hadded.freed ▸ h.once) ?_
    · cases o with
      | list =>
        rw [Owns, hperm.mem_iff, List.mem_cons]
        split_ifs with hb
        · simp [hb]
        · simp [hb, Owns]
      | callRcu =>
        rw [Owns, hadded.freed]
        split_ifs with hb
        · subst hb
          exact iff_of_false (mt (hsame .callRcu).mp (by simp)) (by simp)
        · rfl
      | preload place' =>
        rw [Owns, hpreload, Function.update_apply]
        split_ifs with hplace hb hb
        · simp
        · subst hplace
          simp [Owns, ha, Ne.symm hb]
        · subst hb
          exact iff_of_false (mt (hsame (.preload place')).mp (by simp [Ne.symm hplace])) (by simp)
        · rfl
    · rw [hadded.allocated]
      split_ifs with hb
      · rw [hb, (h.preloaded ha).1]
        rfl
      · rfl
    · intro place' b hb
      rw [hpreload, Function.update_apply] at hb
      split_ifs at hb
      rw [hadded.height, hadded.dead]
      exact h.ready place' b hb

/-- A leaf that a deletion empties goes from the list to `call_rcu`. -/
theorem Deleted.memory {ret : Option (SlSlot α)} (hdeleted : Deleted s entries ret s' entries')
    (hlinked : Linked s entries) (h : Memory s entries) : Memory s' entries' := by
  cases hdeleted with
  | missing => exact h
  | shrunk before after e left right t leaf hentries hslots =>
    subst hentries
    exact (h.of_addr (by simp)).congr rfl rfl rfl rfl rfl
  | emptied before after e t leaf next prev hentries hslots =>
    subst hentries
    have hlist : Owns s (before ++ e :: after) .list e.addr := List.mem_map_of_mem (by simp)
    have hsame := h.owns_iff hlist
    refine h.move (a := e.addr) (some .callRcu) (fun o b ↦ ?_) (fun b ↦ ?_) ?_ ?_
    · cases o with
      | list =>
        split_ifs with hb
        · subst hb
          refine iff_of_false (fun hmem ↦ ?_) (by simp)
          obtain ⟨e', he', heq⟩ := List.mem_map.mp hmem
          exact hlinked.addr_ne he' heq
        · simp only [Owns, List.map_append, List.map_cons, List.mem_append, List.mem_cons, hb,
            false_or]
      | callRcu =>
        rw [Owns, State.withFreed_freed, List.mem_append, List.mem_singleton]
        split_ifs with hb
        · simp [hb]
        · simp [hb, Owns]
      | preload place =>
        split_ifs with hb
        · subst hb
          exact iff_of_false (mt (hsame (.preload place)).mp (by simp)) (by simp)
        · rfl
    · split_ifs with hb
      · rw [hb]
        exact hlinked.nodes.allocated e (by simp)
      · rfl
    · have hnot : e.addr ∉ s.freed := mt (hsame .callRcu).mp (by simp)
      exact h.once.append (List.nodup_singleton _) (by simpa using hnot)
    · intro place b hb
      have hb' : s.preload place = some b := hb
      obtain ⟨hplace, hheight, halive⟩ := h.ready place b hb'
      refine ⟨hplace, hheight, ?_⟩
      change Function.update s.dead e.node true (.leaf b) = false
      have hne : (Node.leaf b) ≠ e.node := fun heq ↦ by
        have howns : Owns s (before ++ e :: after) (.preload place) e.addr :=
          Node.leaf.inj heq ▸ hb'
        exact Owner.noConfusion ((hsame _).mp howns)
      rw [Function.update_of_ne hne, halive]

/-- A deletion keeps the invariant. -/
theorem Deleted.sound {ret : Option (SlSlot α)} (hdeleted : Deleted s entries ret s' entries')
    (h : Sound s entries) (hlinked : Linked s' entries') : Sound s' entries' := by
  refine ⟨hlinked, hdeleted.memory h.linked h.memory, ?_⟩
  cases hdeleted with
  | missing => exact h.unlocked
  | shrunk => exact h.unlocked
  | emptied => exact h.unlocked

/-- **`sl_free_rcu`** of a leaf that has been given to `call_rcu` -/
theorem Sound.slFreeRcu_eq (h : Sound s entries) (ha : a ∈ s.freed) :
    ∃ s', s.slFreeRcu a = some s' ∧ Sound s' entries ∧ s'.preempt = s.preempt := by
  have hcall : Owns s entries .callRcu a := ha
  have hallocated : s.allocated a = true := (h.memory.allocated a).mpr ⟨_, hcall⟩
  have hfresh : ∀ e ∈ entries, e.addr ≠ a := fun e he heq ↦
    Owner.noConfusion (h.memory.unique a .list .callRcu (List.mem_map.mpr ⟨e, he, heq⟩) hcall)
  refine ⟨_, if_pos ⟨ha, hallocated⟩, ⟨?_, ?_, fun n hn ↦ h.unlocked n ?_⟩, rfl⟩
  · refine h.linked.congr_on rfl (fun n hn ↦ ⟨?_, rfl, rfl, fun _ ↦ ⟨rfl, rfl⟩⟩) fun _ _ ↦ rfl
    cases n with
    | head => rfl
    | leaf c =>
      exact Function.update_of_ne (fun heq ↦ node_ne_of_mem hfresh hn (congrArg Node.leaf heq)) ..
  · refine h.memory.move (a := a) none (fun o b ↦ ?_) (fun b ↦ ?_) (h.memory.once.erase a)
      h.memory.ready
    · have hsame := h.memory.owns_iff hcall
      split_ifs with hb
      · subst hb
        refine iff_of_false (fun ho ↦ ?_) (by simp)
        cases o with
        | list => exact Owner.noConfusion ((hsame .list).mp ho)
        | preload place => exact Owner.noConfusion ((hsame (.preload place)).mp ho)
        | callRcu => exact h.memory.once.not_mem_erase ho
      · cases o with
        | list => rfl
        | preload place => rfl
        | callRcu => exact List.mem_erase_of_ne hb
    · change Function.update s.allocated a false b = _
      rw [Function.update_apply]
      rfl
  · cases n with
    | head => rfl
    | leaf c =>
      change Function.update s.allocated a false c = true at hn
      rw [Function.update_apply] at hn
      split_ifs at hn
      exact hn

/-! ## Preloading -/

theorem newLevelFrom_le (fuel : ℕ) (randseed : UInt32) (h : level < maxLevel) :
    State.newLevelFrom maxLevel fuel randseed level ≤ maxLevel := by
  induction fuel generalizing randseed level with
  | zero => exact h.le
  | succ fuel ih =>
    rw [State.newLevelFrom]
    split_ifs with hseed hmax
    · exact hmax.le
    · exact ih _ (by omega)
    · exact h.le

/-- **`skiplist_get_new_level`** -/
theorem skiplistGetNewLevel_le (randseed : UInt32) (h : 0 < maxLevel) :
    State.skiplistGetNewLevel randseed maxLevel ≤ maxLevel := by
  have hle := newLevelFrom_le 32 randseed h
  rw [State.skiplistGetNewLevel]
  split_ifs with hmax
  · exact (Nat.sub_le _ _).trans (hmax.trans hle)
  · exact hle

/-- What `skiplist_preload` leaves, with its result. -/
inductive Preloaded (s : State α) (entries : List (Entry α)) (leaf : Option Addr) :
    ℤ → State α → Prop where
  | noMemory (hleaf : leaf = none) :
      Preloaded s entries leaf (-enomem) (s.withPreempt (s.preempt + 1))
  /-- There is a leaf in the place of the token. -/
  | ready (token : ℕ) (a : Addr) (s' : State α) (htoken : token ≤ s.level + 1)
      (ha : s'.preload token = some a) (hsound : Sound s' entries) (hlevel : s'.level = s.level)
      (hpreempt : s.preempt + 2 ≤ s'.preempt) : Preloaded s entries leaf token s'

/-- The leaves that `skiplist_preload` allocates go into places that are free. -/
theorem Sound.stock (h : Sound s entries) (ha : s.allocated a = false)
    (hplace : s.preload token = none) (hle : level ≤ token) (htoken : token < skipMaxlevel) :
    Sound { s.slInitNode a level with preload := Function.update s.preload token (some a) }
      entries := by
  refine ⟨(h.linked.slInitNode (h.memory.fresh ha) level).congr rfl rfl rfl rfl rfl rfl
    fun _ _ ↦ rfl, h.memory.stock ha hplace hle htoken, fun n hn ↦ ?_⟩
  change Function.update s.locked (.leaf a) false n = false
  rw [Function.update_apply]
  split_ifs with hna
  · rfl
  · refine h.unlocked n ?_
    cases n with
    | head => rfl
    | leaf c => exact (Function.update_of_ne (fun heq ↦ hna (congrArg Node.leaf heq)) ..).symm.trans hn

/-- The second leaf that `skiplist_preload` allocates -/
theorem Sound.stockLeaf0 (leaf0 : Option Addr) (h : Sound s entries)
    (hleaf0 : ∀ b, leaf0 = some b → s.allocated b = false ∧ b ≠ a) (ha : s.allocated a = false)
    (hplace : s.preload token = none) (hpos : 0 < token) :
    Sound (s.stockLeaf0 leaf0) entries ∧ (s.stockLeaf0 leaf0).allocated a = false ∧
      (s.stockLeaf0 leaf0).preload token = none ∧ (s.stockLeaf0 leaf0).level = s.level ∧
        (s.stockLeaf0 leaf0).preempt = s.preempt := by
  cases leaf0 with
  | none => exact ⟨h, ha, hplace, rfl, rfl⟩
  | some b =>
    obtain ⟨hb, hne⟩ := hleaf0 b rfl
    rw [State.stockLeaf0]
    split_ifs with hzero
    · refine ⟨h.stock hb hzero le_rfl (by decide), ?_, ?_, rfl, rfl⟩
      · exact (Function.update_of_ne hne.symm ..).trans ha
      · exact (Function.update_of_ne hpos.ne' ..).trans hplace
    · exact ⟨h, ha, hplace, rfl, rfl⟩

/-- **`skiplist_preload`** -/
theorem Sound.skiplistPreload_eq {leaf leaf0 : Option Addr} (randseed : UInt32)
    (h : Sound s entries) (hleaf : ∀ a, leaf = some a → s.allocated a = false)
    (hleaf0 : ∀ b, leaf0 = some b → s.allocated b = false ∧ leaf ≠ some b) :
    ∃ ret s', s.skiplistPreload randseed leaf leaf0 = (ret, s') ∧
      Preloaded s entries leaf ret s' := by
  obtain ⟨token, htoken⟩ : ∃ token, token = min (s.level + 1) (skipMaxlevel - 1) := ⟨_, rfl⟩
  have hbound := h.linked.bound
  have hmax : skipMaxlevel = 32 := rfl
  have hpos : 0 < token := by omega
  have hlt : token < skipMaxlevel := by omega
  have hle : token ≤ s.level + 1 := by omega
  rw [State.skiplistPreload, ← htoken]
  have hcpu : s.getCpuVar.getCpuVar = s.withPreempt (s.preempt + 2) := by
    change s.withPreempt (s.preempt + 1 + 1) = _
    rw [Int.add_assoc]
    rfl
  rw [hcpu]
  cases hplace : s.preload token with
  | some a =>
    have hsome : ((s.withPreempt (s.preempt + 2)).preload token).isSome = true := by
      rw [State.withPreempt_preload, hplace]
      rfl
    rw [if_pos hsome]
    exact ⟨_, _, rfl, .ready token a _ hle hplace (h.withPreempt _) rfl (Int.le_refl _)⟩
  | none =>
    have hnone : ¬ ((s.withPreempt (s.preempt + 2)).preload token).isSome = true := by
      simp [hplace]
    have henable : (s.withPreempt (s.preempt + 2)).preemptEnable = s.withPreempt (s.preempt + 1) := by
      change s.withPreempt (s.preempt + 2 - 1) = _
      congr 1
      omega
    rw [if_neg hnone, henable]
    cases leaf with
    | none => exact ⟨_, _, rfl, .noMemory rfl⟩
    | some a =>
      have hcpu' : (s.withPreempt (s.preempt + 1)).getCpuVar.getCpuVar =
          s.withPreempt (s.preempt + 3) := by
        change s.withPreempt (s.preempt + 1 + 1 + 1) = _
        congr 1
        omega
      obtain ⟨hsound, ha, hplace', hlevel, hpreempt⟩ :=
        (h.withPreempt (s.preempt + 3)).stockLeaf0 leaf0
          (fun b hb ↦ ⟨(hleaf0 b hb).1, fun heq ↦ (hleaf0 b hb).2 (congrArg some heq.symm)⟩)
          (hleaf a rfl) hplace hpos
      refine ⟨_, _, rfl, ?_⟩
      rw [State.stockPreload, hcpu', if_neg (by simp [hplace'])]
      refine .ready token a _ hle (Function.update_self ..)
        (hsound.stock ha hplace' (skiplistGetNewLevel_le randseed hpos) hlt) hlevel ?_
      change s.preempt + 2 ≤ ((s.withPreempt (s.preempt + 3)).stockLeaf0 leaf0).preempt
      rw [hpreempt, State.withPreempt_preempt]
      omega

end ParallelPrograms.ExtentList
