import ParallelPrograms.ExtentList.Preload
import Mathlib.Data.Nat.Bitwise

/-!
# Inserting into a hole

`skiplist_insert_hole` is a first-fit search from a hint for an aligned range between the extents.
It walks along level 0 with the locks of two nodes, and then inserts the range that it has found. An
extent that starts before the aligned position is passed over, even if it ends behind it. So the
range may overlap it, and then the insertion fails although no other thread has taken the place.
-/

namespace ParallelPrograms.ExtentList

open LinkedList Sequence

variable {α : Type}

/-- **`align_start`** rounds up to a multiple of a power of two. -/
theorem alignStart_eq {val i : ℕ} (h : val + 2 ^ i ≤ 2 ^ 64) :
    State.alignStart val (2 ^ i) = roundUp (2 ^ i) val := by
  have hpos : 0 < 2 ^ i := Nat.two_pow_pos i
  have hone : (1 : BitVec 64).toNat = 1 := rfl
  have hsum : (BitVec.ofNat 64 val + BitVec.ofNat 64 (2 ^ i) - 1).toNat = val + 2 ^ i - 1 := by
    have hval : val % 2 ^ 64 = val := Nat.mod_eq_of_lt (by omega)
    simp only [BitVec.toNat_sub, BitVec.toNat_add, BitVec.toNat_ofNat, hval, hone]
    generalize 2 ^ i = p at *
    omega
  have hmask : (BitVec.ofNat 64 (2 ^ i) - 1).toNat = 2 ^ i - 1 := by
    simp only [BitVec.toNat_sub, BitVec.toNat_ofNat, hone]
    generalize 2 ^ i = p at *
    omega
  rw [State.alignStart, roundUp, Nat.ceilDiv_eq_add_pred_div]
  refine Nat.eq_of_testBit_eq fun j ↦ ?_
  rw [Nat.testBit_two_pow_mul, Nat.testBit_div_two_pow]
  rw [← hsum]
  change BitVec.getLsbD _ j = (_ && BitVec.getLsbD _ _)
  have hbit : (BitVec.ofNat 64 (2 ^ i) - 1).getLsbD j = decide (j < i) := by
    change (BitVec.toNat _).testBit j = _
    rw [hmask, Nat.testBit_two_pow_sub_one]
  rw [BitVec.getLsbD_and, BitVec.getLsbD_not, hbit]
  by_cases hij : i ≤ j
  · rw [Nat.sub_add_cancel hij]
    by_cases hj : j < 64
    · simp [hij, hj, hij.not_gt]
    · rw [BitVec.getLsbD_of_ge _ _ (Nat.le_of_not_lt hj)]
      simp
  · simp [hij, Nat.lt_of_not_le hij]

section Scan

variable {s : State α} {i size limit pos : ℕ} {slots left right : List (SlSlot α)}
  {leaf : SlLeaf α}

/-- The search for room between extents. -/
abbrev fitFrom (i size limit : ℕ) : List (SlSlot α) → ℕ → Fit :=
  firstFit SlSlot.key SlSlot.stop (roundUp (2 ^ i)) size limit

/-- **The loop of `skiplist_insert_hole` over a leaf** -/
theorem scanHole_eq (pos : ℕ) (h : leaf.Holds (left ++ right))
    (hbound : ∀ t ∈ right, t.stop + 2 ^ i + size ≤ 2 ^ 64) (hpos : pos + size < 2 ^ 64) :
    State.scanHole leaf limit size (2 ^ i) right.length left.length pos =
      some (fitFrom i size limit right pos) := by
  induction right generalizing left pos with
  | nil => rfl
  | cons t right ih =>
    have ht : (left ++ t :: right)[left.length]? = some t := by simp
    have hkey := h.keys ht
    have hptr := h.ptrs ht
    obtain ⟨hfirst, hrest⟩ := List.forall_mem_cons.mp hbound
    rw [List.append_cons] at h
    have hnext := fun pos ↦ ih pos h hrest
    rw [List.length_append, List.length_singleton] at hnext
    have hround := roundUp_lt (Nat.two_pow_pos i) t.stop
    have hstop : ulong (t.key + t.size) = t.stop := ulong_eq (by
      change t.stop < 2 ^ 64
      have := Nat.two_pow_pos i
      omega)
    have halign := alignStart_eq (show t.stop + 2 ^ i ≤ 2 ^ 64 by omega)
    rw [List.length_cons, State.scanHole, fitFrom, firstFit]
    simp only [hkey, hptr, gt_iff_lt, ge_iff_le, ulong_eq hpos, Option.bind_eq_bind,
      Option.bind_some, hstop, halign, ulong_eq (show roundUp (2 ^ i) t.stop + size < 2 ^ 64 by omega)]
    by_cases hleft : t.key < pos
    · rw [if_pos hleft, if_pos hleft]
      exact hnext pos hpos
    · have hroom : size ≤ t.key - pos ↔ pos + size ≤ t.key := by omega
      rw [if_neg hleft, if_neg hleft]
      simp only [hroom]
      split_ifs
      · rfl
      · rfl
      · rfl
      · exact hnext _ (by omega)

/-- Where the walk of `skiplist_insert_hole` ends, with what it has found out. -/
inductive HoleWalked (s : State α) (i size limit : ℕ) (before rest : List (Entry α)) (pos : ℕ) :
    State.HoleEnd α → Prop where
  /-- There is no room. The last node that has been passed is locked. -/
  | failed (passed ahead : List (Entry α)) (hsplit : before ++ rest = passed ++ ahead)
      (hfull : Fits SlSlot.key SlSlot.stop (roundUp (2 ^ i)) size limit (2 ^ i ∣ ·)
        (contents rest) pos .full) :
      HoleWalked s i size limit before rest pos (.failed (lastAt 0 passed)
        (s.withLocks (Function.update s.locked (lastAt 0 passed) true)))
  /-- There is room behind all leaves. -/
  | behind (pos' : ℕ) (hlimit : pos' + size ≤ limit)
      (hpassed : Passed SlSlot.key SlSlot.stop (roundUp (2 ^ i)) size (2 ^ i ∣ ·)
        (contents rest) pos pos') :
      HoleWalked s i size limit before rest pos (.found pos' none s)
  /-- There is room before an extent of a leaf, which is locked. -/
  | inside (passed ahead : List (Entry α)) (e : Entry α) (left right : List (SlSlot α)) (pos' : ℕ)
      (hsplit : rest = passed ++ e :: ahead) (hslots : e.slots = left ++ right) (hne : right ≠ [])
      (hlimit : pos' + size ≤ limit)
      (hpassed : Passed SlSlot.key SlSlot.stop (roundUp (2 ^ i)) size (2 ^ i ∣ ·)
        (contents passed ++ left) pos pos')
      (hroom : ∀ t ∈ right, pos' + size ≤ t.key) :
      HoleWalked s i size limit before rest pos (.found pos' (some e.addr)
        (s.withLocks (Function.update s.locked e.node true)))

/-- The walk goes on behind a leaf without room. -/
theorem HoleWalked.cons {before rest : List (Entry α)} {e : Entry α} {pos' : ℕ}
    {r : State.HoleEnd α} (h : HoleWalked s i size limit (before ++ [e]) rest pos' r)
    (hpassed : Passed SlSlot.key SlSlot.stop (roundUp (2 ^ i)) size (2 ^ i ∣ ·) e.slots pos pos') :
    HoleWalked s i size limit before (e :: rest) pos r := by
  cases h with
  | failed passed ahead hsplit hfull =>
    exact .failed passed ahead (by rw [← hsplit, List.append_cons]) (hfull.append hpassed)
  | behind pos'' hlimit hpassed' => exact .behind pos'' hlimit (hpassed.append hpassed')
  | inside passed ahead e' left right pos'' hsplit hslots hne hlimit hpassed' hroom =>
    refine .inside (e :: passed) ahead e' left right pos'' (by rw [hsplit, List.cons_append])
      hslots hne hlimit ?_ hroom
    rw [contents_cons, List.append_assoc]
    exact hpassed.append hpassed'

/-- What the walk finds out about a leaf. -/
theorem Linked.fitLeaf_eq (limit : ℕ) {entries : List (Entry α)} {e : Entry α} (h : Linked s entries)
    (he : e ∈ entries) (hbound : ∀ t ∈ e.slots, t.stop + 2 ^ i + size ≤ 2 ^ 64)
    (hpos : pos + size < 2 ^ 64) :
    ∃ r, State.fitLeaf (s.leaves e.addr) limit size (2 ^ i) pos = some r ∧
      Fits SlSlot.key SlSlot.stop (roundUp (2 ^ i)) size limit (2 ^ i ∣ ·) e.slots pos r := by
  have hext := h.extents_of_mem he
  rw [State.fitLeaf, h.leaf_max he]
  split_ifs with hbehind
  · refine ⟨_, rfl, .next pos (.of_left fun t ht ↦ ?_)⟩
    calc
      t.key < t.stop := (hext.valid t ht).key_lt_stop
      _ ≤ e.maxKey := h.stop_le_maxKey he ht
      _ < pos := hbehind
  · have hholds : (s.leaves e.addr).Holds ([] ++ e.slots) := h.holds e he
    have hscan : State.scanHole (s.leaves e.addr) limit size (2 ^ i) e.slots.length 0 pos =
        some (fitFrom i size limit e.slots pos) := scanHole_eq pos hholds hbound hpos
    rw [(h.holds e he).nr]
    exact ⟨_, hscan, firstFit_spec pos hext.apart (fun t ht ↦ (hext.valid t ht).key_lt_stop)
      (rounding_roundUp (Nat.two_pow_pos i))⟩

/-- **The walk of `skiplist_insert_hole`** -/
theorem Linked.holeWalk_eq (limit : ℕ) {before rest : List (Entry α)} {fuel rounds : ℕ}
    (h : Linked s (before ++ rest)) (hfree : s.Unlocked)
    (hbound : ∀ t ∈ contents rest, t.stop + 2 ^ i + size ≤ 2 ^ 64) (hpos : pos + size < 2 ^ 64)
    (hfuel : 0 < fuel) (hrounds : rest.length < rounds) :
    ∃ r, State.holeWalk fuel limit size (2 ^ i) rounds
        (s.withLocks (Function.update s.locked (lastAt 0 before) true)) pos (lastAt 0 before) =
          some r ∧ HoleWalked s i size limit before rest pos r := by
  obtain ⟨rounds, rfl⟩ := Nat.exists_eq_add_one.mpr (Nat.zero_lt_of_lt hrounds)
  induction rest generalizing before pos rounds with
  | nil =>
    have hpresent := h.nodes.present (lastAt_mem 0 before [])
    have hlinked := h.withLocks (Function.update s.locked (lastAt 0 before) true)
    have hnext := slNextLeaf_eq hlinked.nodes (by decide) (hlinked.chains 0 (by decide)) hfuel
    have hunlock := State.unlock_locked hpresent (hfree _ hpresent)
    rw [State.holeWalk, hnext]
    simp only [List.find?_nil, Option.map_none, Option.bind_eq_bind, Option.bind_some,
      ulong_eq hpos, hunlock]
    split_ifs with hlimit
    · exact ⟨_, rfl, .behind pos hlimit (.nil pos)⟩
    · refine ⟨_, rfl, .failed before [] rfl (.full fun a _ hle hle' ↦ absurd hlimit ?_)⟩
      omega
  | cons e rest ih =>
    have he : e ∈ before ++ e :: rest := by simp
    have hpresent := h.nodes.present (lastAt_mem 0 before (e :: rest))
    have hne := h.node_ne_lastAt List.mem_cons_self 0
    have hpresent' : s.present e.node = true := h.nodes.allocated e he
    set l₁ := Function.update s.locked (lastAt 0 before) true with hl₁
    have hfree' : l₁ e.node = false := (Function.update_of_ne hne ..).trans (hfree _ hpresent')
    have hlinked := h.withLocks l₁
    have hnext := slNextLeaf_eq hlinked.nodes (by decide) (hlinked.chains 0 (by decide)) hfuel
    rw [List.find?_cons_of_pos (by simp), Option.map_some] at hnext
    have hlock := State.slLockNode_withLocks hpresent' hfree'
    change (s.withLocks l₁).slLockNode (.leaf e.addr) = _ at hlock
    have hunlock := State.unlock_passed hpresent (hfree _ hpresent) hne
    rw [← hl₁] at hunlock
    have hunlock' : (s.withLocks (Function.update l₁ e.node true)).slUnlockNode
        (some (.leaf e.addr)) = some (s.withLocks l₁) :=
      State.unlock_locked (s := s.withLocks l₁) hpresent' hfree'
    have hget : (s.withLocks (Function.update l₁ e.node true)).getLeaf e.addr =
        some (s.leaves e.addr) := h.getLeaf he
    obtain ⟨hbound₁, hbound₂⟩ : (∀ t ∈ e.slots, t.stop + 2 ^ i + size ≤ 2 ^ 64) ∧
        ∀ t ∈ contents rest, t.stop + 2 ^ i + size ≤ 2 ^ 64 := by
      simp only [contents_cons, List.mem_append, or_imp, forall_and] at hbound
      exact hbound
    obtain ⟨fit, hrun, hfit⟩ := h.fitLeaf_eq limit he hbound₁ hpos
    rw [State.holeWalk, hnext]
    simp only [Option.bind_eq_bind, Option.bind_some, hlock, hget, hrun]
    cases hfit with
    | next pos' hpassed =>
      have hpos' : pos' + size < 2 ^ 64 := by
        rcases hpassed.start with rfl | ⟨t, ht, rfl⟩
        · exact hpos
        · have hround := roundUp_lt (Nat.two_pow_pos i) t.stop
          have hfit := hbound₁ t ht
          omega
      obtain ⟨rounds, rfl⟩ := Nat.exists_eq_add_one.mpr
        (show 0 < rounds by rw [List.length_cons] at hrounds; omega)
      have hlast : lastAt 0 (before ++ [e]) = e.node := lastAt_concat_of_le (Nat.zero_le _) _
      obtain ⟨r, hwalk, hwalked⟩ := ih (List.append_cons before e rest ▸ h) hbound₂ hpos' rounds
        (by rw [List.length_cons] at hrounds; omega)
      rw [hlast] at hwalk
      refine ⟨r, ?_, hwalked.cons hpassed⟩
      rw [hunlock]
      exact hwalk
    | full hcovered =>
      refine ⟨_, by simp only [hunlock', Option.bind_some]; rfl,
        .failed before (e :: rest) rfl ?_⟩
      rw [contents_cons]
      exact Fits.full_append (.full hcovered)
    | hole left right pos' hsplit hne' hpassed hlimit hroom =>
      refine ⟨_, by simp only [hunlock, Option.bind_some]; rfl,
        .inside [] rest e left right pos' rfl hsplit hne' hlimit ?_ hroom⟩
      exact hpassed

end Scan

section Hint

variable {s : State α} {i hint size : ℕ} {entries before rest lo : List (Entry α)} {e : Entry α}

/-- Where `skiplist_insert_hole` starts its walk. -/
structure Hinted (i hint : ℕ) (before rest : List (Entry α)) (pos : ℕ) : Prop where
  le : pos ≤ roundUp (2 ^ i) hint
  dvd : 2 ^ i ∣ pos
  /-- The leaves before end at the position or before. -/
  behind : ∀ e ∈ before, e.maxKey ≤ pos
  start : pos = roundUp (2 ^ i) hint ∨ ∃ e ∈ before, pos = roundUp (2 ^ i) e.maxKey

/-- **`skiplist_insert_hole` from the label `again_lock` to its walk** -/
theorem Linked.lockHint_eq (lastEnd rounds : ℕ) (h : Linked s (before ++ rest))
    (hfree : s.Unlocked) (hhint : ∀ e ∈ before, e.maxKey ≤ hint) :
    State.lockHint hint (2 ^ i) (rounds + 1) s lastEnd (lastAt 0 before) = some (.locked
      (s.withLocks (Function.update s.locked (lastAt 0 before) true)) (lastAt 0 before)
      ((before.getLast?.map fun e ↦ State.alignStart e.maxKey (2 ^ i)).getD lastEnd)) := by
  have hmem := lastAt_mem 0 before rest
  have hpresent := h.nodes.present hmem
  have hlock := State.slLockNode_eq hpresent (hfree _ hpresent)
  have hdead := h.nodes.getDead hmem
  rw [State.lockHint, hlock]
  simp only [Option.bind_eq_bind, Option.bind_some, State.getDead_withLocks, hdead,
    Bool.false_eq_true, if_false]
  rcases List.eq_nil_or_concat before with rfl | ⟨before, e, rfl⟩
  · rfl
  · rw [List.concat_eq_append] at h hhint ⊢
    have he : e ∈ before ++ [e] ++ rest := by simp
    have hmax := (h.withLocks (Function.update s.locked e.node true)).slMaxKey he
    have hle := hhint e (by simp)
    rw [lastAt_concat_of_le (Nat.zero_le _), List.getLast?_concat]
    change ((State.slMaxKey _ e.addr).bind fun maxKey ↦ if maxKey > hint then _ else _) = _
    rw [hmax, Option.bind_some, if_neg hle.not_gt]
    rfl

/-- The position that the walk starts from. -/
theorem Linked.hinted (h : Linked s (before ++ rest)) (hhint : ∀ e ∈ before, e.maxKey ≤ hint)
    (hbound : ∀ t ∈ contents before, t.stop + 2 ^ i ≤ 2 ^ 64) :
    Hinted i hint before rest ((before.getLast?.map fun e ↦
      State.alignStart e.maxKey (2 ^ i)).getD (roundUp (2 ^ i) hint)) := by
  have hup := rounding_roundUp (Nat.two_pow_pos i)
  rcases List.eq_nil_or_concat before with rfl | ⟨before, e, rfl⟩
  · exact ⟨le_rfl, hup.allowed hint, by simp, .inl rfl⟩
  · rw [List.concat_eq_append] at h hhint hbound ⊢
    have he : e ∈ before ++ [e] := by simp
    obtain ⟨t, ht, hmax⟩ := h.exists_last_slot (List.mem_append_left rest he)
    have halign : State.alignStart e.maxKey (2 ^ i) = roundUp (2 ^ i) e.maxKey := by
      rw [hmax]
      exact alignStart_eq (hbound t (mem_contents.mpr ⟨e, he, ht⟩))
    rw [List.getLast?_concat, Option.map_some, Option.getD_some, halign]
    refine ⟨hup.least _ _ (hup.allowed hint) ((hhint e he).trans (hup.le hint)), hup.allowed _,
      fun e' he' ↦ ?_, .inr ⟨e, he, rfl⟩⟩
    rcases List.mem_append.mp he' with hbefore | hlast
    · have hapart := (List.pairwise_append.mp (List.pairwise_append.mp h.apart).1).2.2 e' hbefore e
        List.mem_cons_self
      calc
        e'.maxKey ≤ e.minKey := hapart
        _ ≤ e.maxKey := (h.minKey_lt_maxKey (List.mem_append_left rest he)).le
        _ ≤ _ := hup.le _
    · rw [List.mem_singleton.mp hlast]
      exact hup.le _

/-- **`skiplist_insert_hole` from the label `again` to its walk** -/
theorem Linked.findHint_eq {fuel : ℕ} (rounds : ℕ) (h : Linked s entries) (hfree : s.Unlocked)
    (hbound : ∀ t ∈ contents entries, t.stop + 2 ^ i + size ≤ 2 ^ 64)
    (hhint : hint + 2 ^ i + size ≤ 2 ^ 64) (hfuel : entries.length < fuel) :
    ∃ before rest pos, entries = before ++ rest ∧ Hinted i hint before rest pos ∧
      State.findHint fuel hint size (2 ^ i) (rounds + 1) s 0 = some (s.withLocks
        (Function.update s.locked (lastAt 0 before) true), lastAt 0 before, pos) := by
  have hpos := Nat.two_pow_pos i
  obtain ⟨tries, htries⟩ := Nat.exists_eq_add_one.mpr (Nat.zero_lt_of_lt hfuel)
  obtain ⟨lo, rest, rfl, hcut⟩ := h.exists_cut hint
  have hlen : lo.length < fuel := by
    rw [List.length_append] at hfuel
    omega
  have hlookup := h.skiplistLookupLeaf_eq tries hcut hlen
  rw [← htries] at hlookup
  -- the node is the last one of some level, and the leaf is the home of the hint
  obtain ⟨leaf, level, hleaf, hverify⟩ : ∃ leaf level,
      s.skiplistLookupLeaf fuel hint fuel = some (leaf, lastAt level lo) ∧
        (leaf.elim (some true) fun a ↦ s.verifyKeyInLeaf a hint size) = some true := by
    cases rest with
    | nil => exact ⟨none, 0, hlookup, rfl⟩
    | cons e rest' =>
      dsimp only at hlookup
      split_ifs at hlookup with hmin
      · exact ⟨none, 0, hlookup, rfl⟩
      · exact ⟨some e.addr, e.height, hlookup, h.verifyKeyInLeaf_eq (by simp)
          ⟨Nat.le_of_not_lt hmin, hcut.above e (by simp)⟩ (by omega)⟩
  obtain ⟨before, ahead, rfl, hlast⟩ : ∃ before ahead, lo = before ++ ahead ∧
      lastAt level lo = lastAt 0 before := by
    rcases exists_last level lo with hhead | ⟨before, e, ahead, rfl, -, -, hlast⟩
    · exact ⟨[], lo, rfl, hhead⟩
    · refine ⟨before ++ [e], ahead, List.append_cons .., ?_⟩
      rw [hlast, lastAt_concat_of_le (Nat.zero_le _)]
  rw [List.append_assoc] at h
  have hbefore : ∀ e ∈ before, e.maxKey ≤ hint := fun e he ↦
    hcut.below e (List.mem_append_left _ he)
  have hlock := h.lockHint_eq (i := i) (State.alignStart (max 0 hint) (2 ^ i)) tries hfree hbefore
  rw [← htries, Nat.zero_max, alignStart_eq (by omega)] at hlock
  have hbound' : ∀ t ∈ contents before, t.stop + 2 ^ i ≤ 2 ^ 64 := fun t ht ↦ by
    have hfit := hbound t (by simp [ht])
    omega
  refine ⟨before, ahead ++ rest, _, List.append_assoc .., h.hinted hbefore hbound', ?_⟩
  rw [State.findHint, Nat.zero_max, alignStart_eq (by omega), hleaf]
  cases leaf with
  | none =>
    simp only [Option.bind_eq_bind, Option.bind_some, hlast, hlock]
    rfl
  | some a =>
    rw [Option.elim_some] at hverify
    simp only [Option.bind_eq_bind, Option.bind_some, hlast, hlock, hverify]
    rfl

end Hint

section Try

variable {s : State α} {before after : List (Entry α)} {e : Entry α} {slot : SlSlot α}
  {token fuel : ℕ} {a : Addr}

/-- What `skiplist_insert_hole` tests of a leaf -/
theorem Linked.target_of_inside (h : Linked s (before ++ e :: after)) (hs : slot.Valid)
    (hmin : e.minKey ≤ slot.key) (hmax : slot.stop ≤ e.maxKey) : Target slot.key before e after := by
  have hapart := h.apart
  refine ⟨fun e' he' ↦ ?_, fun e' he' ↦ ?_⟩
  · exact ((List.pairwise_append.mp hapart).2.2 e' he' e List.mem_cons_self).trans hmin
  · have hnext := (List.pairwise_cons.mp (List.pairwise_append.mp hapart).2.1).1 e' he'
    exact (hs.key_lt_stop.trans_le hmax).trans_le hnext

/-- **`skiplist_insert_hole` from the label `try_insert` on** -/
theorem Sound.tryHole_eq (h : Sound s (before ++ e :: after)) (hs : slot.Valid)
    (ha : s.preload token = some a) (htoken : token ≤ s.level + 1)
    (hfuel : (before ++ e :: after).length < fuel) :
    ∃ ret s' entries' preempt, s.preempt ≤ preempt ∧
      (s.withLocks (Function.update s.locked e.node true)).tryHole fuel slot token
        (s.height (.leaf a)) (some e.addr) = some (ret, s') ∧
      Insertion (s.withPreempt preempt) (before ++ e :: after) slot ret s' entries' := by
  have he : e ∈ before ++ e :: after := by simp
  have hpresent : s.present e.node = true := h.linked.nodes.allocated e he
  set s₁ := s.withLocks (Function.update s.locked e.node true) with hs₁
  have h₁ : Linked s₁ (before ++ e :: after) := h.linked.withLocks _
  have hget : s₁.getLeaf e.addr = some (s.leaves e.addr) := h.linked.getLeaf he
  have hdead := h₁.nodes.getDead (mem_nodesAt he (Nat.zero_le _))
  change s₁.getDead (.leaf e.addr) = _ at hdead
  have hunlock : s₁.slUnlockNode (some (.leaf e.addr)) = some s :=
    State.unlock_locked hpresent (h.unlocked _ hpresent)
  have hmin := h.linked.slMinKey he
  rw [State.slMinKey, h.linked.getLeaf he, Option.map_some, Option.some.injEq] at hmin
  rw [State.tryHole, hget]
  simp only [Option.bind_eq_bind, Option.bind_some, hdead, hmin, h.linked.leaf_max he,
    (h.linked.holds e he).nr, hs.ulong_stop, true_and, ge_iff_le]
  split_ifs with hinside
  · obtain ⟨hroom, hlow, hhigh⟩ := hinside
    have hunlocked : ∀ n, s.present n = true → n ≠ e.node → s₁.locked n = false := fun n hn hne ↦
      (Function.update_of_ne hne ..).trans (h.unlocked n hn)
    have hahead : ∀ n ∈ nodesAt 0 after, s₁.locked n = false := by
      intro n hn
      obtain ⟨e', he', -, rfl⟩ := mem_tower.mp hn
      exact hunlocked _ (h.linked.nodes.allocated e' (by simp [he']))
        (node_ne (h.linked.addr_ne (List.mem_append_right _ he')))
    have hplaced : e.slots.length = skipKeysPerNode →
        Placed s₁ before e after none (s₁.height (.leaf a)) := by
      intro hfull
      have hzero : s₁.height (.leaf a) = 0 := hroom.resolve_right hfull.not_lt
      refine ⟨Function.update_self .., fun j hj hle ↦ ?_, hahead, fun token' b hb ↦ ?_⟩
      · omega
      · obtain ⟨hallocated, hfresh⟩ := h.memory.preloaded (a := b) hb
        exact hunlocked _ hallocated fun heq ↦ hfresh e he (Node.leaf.inj heq).symm
    rcases h₁.findOrAddKey_eq
      (h.memory.congr rfl rfl rfl rfl rfl) (h.linked.target_of_inside hs hlow hhigh) hs ha hahead
      hplaced (Nat.zero_lt_of_lt hfuel) with ⟨hret, hmeets⟩ | ⟨s', entries', hret, hinserted⟩
    · refine ⟨_, s, _, s.preempt, Int.le_refl _, ?_, .overlap s.locked h.unlocked hmeets⟩
      simp only [hret, Option.bind_some, hunlock]
      rfl
    · have hlocked : s'.locked e.node = true :=
        (congrFun hinserted.locked _).trans (Function.update_self ..)
      have hpresent' : s'.present e.node = true :=
        (congrFun hinserted.allocated _).trans hpresent
      have hrelease := State.slUnlockNode_eq hpresent' hlocked
      change s'.slUnlockNode (some (.leaf e.addr)) = _ at hrelease
      refine ⟨_, _, entries', s.preempt, Int.le_refl _, ?_,
        .added _ _ (hinserted.toAdded.withLocks (Function.update s'.locked e.node false)) ?_⟩
      · simp only [hret, Option.bind_some, hrelease]
        rfl
      · intro n hn
        rw [State.withLocks_locked, Function.update_apply, hinserted.locked]
        split_ifs with heq
        · rfl
        · refine hunlocked n ?_ heq
          cases n with
          | head => rfl
          | leaf b => exact (congrFun hinserted.allocated b).symm.trans hn
  · obtain ⟨ret, s', entries', hrun, hinsertion⟩ :=
      h.linked.skiplistInsert_eq h.memory h.unlocked hs ha htoken hfuel
    refine ⟨ret, s', entries', s.preempt + 2, by omega, ?_, hinsertion⟩
    rw [hunlock]
    exact hrun

end Try

section Insert

variable {s s' : State α} {i hint size limit pos key : ℕ} {entries entries' : List (Entry α)}
  {slot : SlSlot α} {ret : ℤ}

/-- Where `skiplist_insert_hole` inserts. -/
structure Room (i hint limit size : ℕ) (slots : List (SlSlot α)) (key : ℕ) : Prop where
  dvd : 2 ^ i ∣ key
  limit : key + size ≤ limit
  /-- There is no room from the hint on up to the key. -/
  first : ∀ a, 2 ^ i ∣ a → roundUp (2 ^ i) hint ≤ a → a < key → ∃ t ∈ slots, Overlaps a size t
  /-- Only an extent around the key is overlapped. -/
  around : ∀ t ∈ slots, Overlaps key size t → t.key < key
  start : key = roundUp (2 ^ i) hint ∨ ∃ t ∈ slots, key = roundUp (2 ^ i) t.stop

/-- What the search has found is room in the whole list. -/
theorem Linked.room {before rest : List (Entry α)} {left right : List (SlSlot α)}
    (h : Linked s (before ++ rest)) (hhint : Hinted i hint before rest pos)
    (hslots : contents rest = left ++ right)
    (hpassed : Passed SlSlot.key SlSlot.stop (roundUp (2 ^ i)) size (2 ^ i ∣ ·) left pos key)
    (hlimit : key + size ≤ limit) (hroom : ∀ t ∈ right, key + size ≤ t.key) :
    Room i hint limit size (contents (before ++ rest)) key := by
  have hsub : ∀ t ∈ left, t ∈ contents (before ++ rest) := fun t ht ↦ by
    rw [contents_append, hslots]
    exact List.mem_append_right _ (List.mem_append_left _ ht)
  have hup := rounding_roundUp (Nat.two_pow_pos i)
  refine ⟨?_, hlimit, fun a ha hle hlt ↦ ?_, fun t ht hmeets ↦ ?_, ?_⟩
  · rcases hpassed.start with rfl | ⟨t, -, rfl⟩
    · exact hhint.dvd
    · exact hup.allowed _
  · obtain ⟨t, ht, hmeets⟩ := hpassed.covered a ha (hhint.le.trans hle) hlt
    exact ⟨t, hsub t ht, hmeets⟩
  · rw [contents_append, hslots] at ht
    rcases List.mem_append.mp ht with hbefore | hrest
    · obtain ⟨e, he, hslot⟩ := mem_contents.mp hbefore
      have hstop := h.stop_le_maxKey (List.mem_append_left rest he) hslot
      exact absurd hmeets.2 ((hstop.trans (hhint.behind e he)).trans hpassed.le).not_gt
    · rcases List.mem_append.mp hrest with hleft | hright
      · exact hpassed.left t hleft
      · exact absurd hmeets.1 (hroom t hright).not_gt
  · rcases hpassed.start with rfl | ⟨t, ht, rfl⟩
    · rcases hhint.start with hstart | ⟨e, he, hstart⟩
      · exact .inl hstart
      · obtain ⟨t, ht, hmax⟩ := h.exists_last_slot (List.mem_append_left rest he)
        exact .inr ⟨t, mem_contents.mpr ⟨e, List.mem_append_left rest he, ht⟩, hmax ▸ hstart⟩
    · exact .inr ⟨t, hsub t ht, rfl⟩

/-- A range that ends before some extent of a leaf ends before the leaves behind. -/
theorem Linked.gap_ahead {before ahead : List (Entry α)} {e : Entry α} {left right : List (SlSlot α)}
    (h : Linked s (before ++ e :: ahead)) (hslots : e.slots = left ++ right) (hne : right ≠ [])
    (hgap : ∀ t ∈ right, key + size ≤ t.key) : ∀ t ∈ right ++ contents ahead, key + size ≤ t.key := by
  intro t ht
  rcases List.mem_append.mp ht with ht | ht
  · exact hgap t ht
  · obtain ⟨e', he', hslot⟩ := mem_contents.mp ht
    obtain ⟨u, hu⟩ := List.exists_mem_of_ne_nil right hne
    have he : e ∈ before ++ e :: ahead := by simp
    have hin : u ∈ e.slots := hslots ▸ List.mem_append_right left hu
    have hapart := (List.pairwise_cons.mp (List.pairwise_append.mp h.apart).2.1).1 e' he'
    calc
      key + size ≤ u.key := hgap u hu
      _ ≤ u.stop := ((h.extents_of_mem he).valid u hin).key_lt_stop.le
      _ ≤ e.maxKey := h.stop_le_maxKey he hin
      _ ≤ e'.minKey := hapart
      _ ≤ t.key := h.minKey_le (by simp [he']) hslot

/-- An insertion keeps the invariant. -/
theorem Insertion.sound {preempt : ℤ} (hinsertion : Insertion (s.withPreempt preempt) entries slot
    ret s' entries') (h : Sound s entries) : Sound s' entries' := by
  have hpreempt := h.withPreempt preempt
  cases hinsertion with
  | added s' entries' hadded hfree => exact ⟨hadded.linked, hadded.memory hpreempt.memory, hfree⟩
  | overlap locked hfree hmeets =>
    exact ⟨hpreempt.linked.withLocks locked, hpreempt.memory.congr rfl rfl rfl rfl rfl, hfree⟩

/-- How `skiplist_insert_hole` ends, with the value of the slot. -/
inductive HoleInserted (i hint limit size : ℕ) (slot : SlSlot α) (leaf : Option Addr) (s : State α)
    (entries : List (Entry α)) : ℤ → SlSlot α → State α → List (Entry α) → Prop where
  | noMemory (hleaf : leaf = none) :
      HoleInserted i hint limit size slot leaf s entries (-enomem) slot
        (s.withPreempt (s.preempt + 1)) entries
  | full (s' : State α) (hsound : Sound s' entries) (hpreempt : s.preempt + 2 ≤ s'.preempt)
      (hcovered : ∀ a, 2 ^ i ∣ a → roundUp (2 ^ i) hint ≤ a → a + size ≤ limit →
        ∃ t ∈ contents entries, Overlaps a size t) :
      HoleInserted i hint limit size slot leaf s entries (-eexist)
        { slot with key := roundUp (2 ^ i) hint, size := size } s' entries
  | added (key : ℕ) (s' : State α) (entries' : List (Entry α)) (hsound : Sound s' entries')
      (hpreempt : s.preempt + 2 ≤ s'.preempt)
      (hroom : Room i hint limit size (contents entries) key)
      (hcontents : ∃ left right, contents entries = left ++ right ∧
        contents entries' = left ++ { slot with key := key, size := size } :: right)
      (hlength : entries'.length ≤ entries.length + 1) :
      HoleInserted i hint limit size slot leaf s entries 0 { slot with key := key, size := size } s'
        entries'
  | collided (key : ℕ) (s' : State α) (hsound : Sound s' entries)
      (hpreempt : s.preempt + 2 ≤ s'.preempt)
      (hroom : Room i hint limit size (contents entries) key)
      (hmeets : ∃ t ∈ contents entries, t.key < key ∧ key < t.stop) :
      HoleInserted i hint limit size slot leaf s entries (-eagain) { slot with key := key, size := size }
        s' entries

/-- **The end of `skiplist_insert_hole`** -/
theorem Insertion.holeInserted {leaf : Option Addr} {s₁ : State α} {preempt : ℤ} (hinsertion : Insertion
      (s₁.withPreempt preempt) entries { slot with key := key, size := size } ret s' entries')
    (h : Sound s₁ entries) (hpreempt : s.preempt + 3 ≤ preempt)
    (hroom : Room i hint limit size (contents entries) key) :
    HoleInserted i hint limit size slot leaf s entries (if ret = -eexist then -eagain else ret)
      { slot with key := key, size := size } s'.preemptEnable entries' := by
  have hsound := (hinsertion.sound h).withPreempt (s'.preempt - 1)
  cases hinsertion with
  | added s' entries' hadded hfree =>
    have hmono : preempt ≤ s'.preempt := hadded.preempt
    refine .added key _ _ hsound ?_ hroom hadded.contents hadded.length_le
    change s.preempt + 2 ≤ s'.preempt - 1
    omega
  | overlap locked hfree hmeets =>
    obtain ⟨t, ht, hmeets⟩ := hmeets
    rw [if_pos rfl]
    refine .collided key _ hsound ?_ hroom ⟨t, ht, hroom.around t ht hmeets, hmeets.2⟩
    change s.preempt + 2 ≤ preempt - 1
    omega

/-- **`skiplist_insert_hole`** -/
theorem Sound.skiplistInsertHole_eq {leaf leaf0 : Option Addr} {fuel : ℕ} (randseed : UInt32)
    (slot : SlSlot α) (limit : ℕ) (h : Sound s entries)
    (hleaf : ∀ a, leaf = some a → s.allocated a = false)
    (hleaf0 : ∀ b, leaf0 = some b → s.allocated b = false ∧ leaf ≠ some b) (hsize : 0 < size)
    (hhint : hint + 2 ^ i + size ≤ 2 ^ 64)
    (hbound : ∀ t ∈ contents entries, t.stop + 2 ^ i + size ≤ 2 ^ 64)
    (hfuel : entries.length < fuel) :
    ∃ ret slot' s' entries',
      s.skiplistInsertHole fuel randseed leaf leaf0 hint limit size (2 ^ i) slot =
        some (ret, slot', s') ∧
      HoleInserted i hint limit size slot leaf s entries ret slot' s' entries' := by
  obtain ⟨token, s₁, hpreload, hpreloaded⟩ := h.skiplistPreload_eq randseed hleaf hleaf0
  rw [State.skiplistInsertHole, hpreload]
  cases hpreloaded with
  | noMemory hleaf => exact ⟨_, _, _, _, rfl, .noMemory hleaf⟩
  | ready token a s₁ htoken ha hsound hlevel hpreempt =>
    have hpos := Nat.two_pow_pos i
    have hround := roundUp_lt hpos hint
    set s₂ := s₁.withPreempt (s₁.preempt + 1) with hs₂
    have hsound₂ : Sound s₂ entries := hsound.withPreempt _
    obtain ⟨rounds, hrounds⟩ := Nat.exists_eq_add_one.mpr (Nat.zero_lt_of_lt hfuel)
    obtain ⟨before, rest, pos, rfl, hhinted, hfind⟩ :=
      hsound₂.linked.findHint_eq rounds hsound₂.unlocked hbound hhint hfuel
    rw [← hrounds] at hfind
    have hle := hhinted.le
    obtain ⟨r, hwalk, hwalked⟩ := hsound₂.linked.holeWalk_eq limit hsound₂.unlocked
      (fun t ht ↦ hbound t (by rw [contents_append]; exact List.mem_append_right _ ht))
      (show pos + size < 2 ^ 64 by omega) (Nat.zero_lt_of_lt hfuel)
      (show rest.length < fuel by rw [List.length_append] at hfuel; omega)
    have hpending : s₁.pendingInsertLevel token = some (s₂.height (.leaf a), s₂) := by
      rw [State.pendingInsertLevel, ha]
      rfl
    have hnonneg : ¬ (token : ℤ) < 0 := by omega
    -- what is inserted at a position that has been found
    have hslot : ∀ key, Room i hint limit size (contents (before ++ rest)) key →
        SlSlot.Valid { slot with key := key, size := size } := by
      intro key hroom
      refine ⟨hsize, ?_⟩
      change key + size < 2 ^ 64
      rcases hroom.start with rfl | ⟨t, ht, rfl⟩
      · omega
      · have hstop := hbound t ht
        have hlt := roundUp_lt hpos t.stop
        omega
    simp only [hnonneg, if_false, Int.toNat_natCast, Option.bind_eq_bind, hpending,
      Option.bind_some, hfind, hwalk]
    cases hwalked with
    | failed passed ahead hsplit hfull =>
      have hmem : lastAt 0 passed ∈ Node.head :: nodesAt 0 (before ++ rest) :=
        hsplit ▸ lastAt_mem 0 passed ahead
      have hpresent := hsound₂.linked.nodes.present hmem
      have hunlock := State.unlock_locked hpresent (hsound₂.unlocked _ hpresent)
      refine ⟨_, _, s₂.preemptEnable, before ++ rest,
        by simp only [hunlock, Option.bind_some]; rfl, ?_⟩
      rw [alignStart_eq (by omega)]
      refine .full _ (hsound₂.withPreempt _) ?_ fun a ha hle' hlimit ↦ ?_
      · change s.preempt + 2 ≤ s₁.preempt + 1 - 1
        omega
      · cases hfull with
        | full hcovered =>
          obtain ⟨t, ht, hmeets⟩ := hcovered a ha (hle.trans hle') hlimit
          exact ⟨t, by rw [contents_append]; exact List.mem_append_right _ ht, hmeets⟩
    | behind key hlimit hpassed =>
      have hslots : contents rest = contents rest ++ [] := (List.append_nil _).symm
      have hroom := hsound₂.linked.room hhinted hslots hpassed hlimit (by simp)
      obtain ⟨ret, s', entries', hrun, hinsertion⟩ := hsound₂.linked.skiplistInsert_eq
        hsound₂.memory hsound₂.unlocked (hslot key hroom) ha (hlevel ▸ htoken) hfuel
      refine ⟨_, _, _, entries', by simp only [State.tryHole, hrun, Option.bind_some]; rfl,
        hinsertion.holeInserted hsound₂ ?_ hroom⟩
      change s.preempt + 3 ≤ s₁.preempt + 1 + 2
      omega
    | inside passed ahead e left right key hsplit hslots hne hlimit hpassed hgap =>
      subst hsplit
      have hcontents : contents (passed ++ e :: ahead) =
          (contents passed ++ left) ++ (right ++ contents ahead) := by
        rw [contents_append, contents_cons, hslots]
        simp only [List.append_assoc]
      have hroom := hsound₂.linked.room hhinted hcontents hpassed hlimit
        (Linked.gap_ahead (List.append_assoc before passed _ ▸ hsound₂.linked) hslots hne hgap)
      have hvalid := hslot key hroom
      rw [← List.append_assoc] at hsound₂ hfuel hroom ⊢
      obtain ⟨ret, s', entries', preempt, hmono, hrun, hinsertion⟩ :=
        hsound₂.tryHole_eq hvalid ha (hlevel ▸ htoken) hfuel
      refine ⟨_, _, _, entries', by simp only [hrun, Option.bind_some]; rfl,
        hinsertion.holeInserted hsound₂ ?_ hroom⟩
      have hmono' : s₁.preempt + 1 ≤ preempt := hmono
      omega

end Insert

end ParallelPrograms.ExtentList
