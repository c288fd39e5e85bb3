import ParallelPrograms.ExtentList.Linked

/-!
# Looking up a range

The search for a leaf goes from the highest level down, and passes the leaves that end at the key
or before. It finds the leaf that has the key between its smallest and its largest key, if there is
one, at the level of this leaf. Only this leaf is searched for an extent that overlaps the range.
-/

namespace ParallelPrograms.ExtentList

open LinkedList Sequence

variable {α : Type} {s : State α} {entries passed between rest lo : List (Entry α)} {e : Entry α}
  {key size fuel : ℕ} {t : SlSlot α}

namespace Linked

/-- **The inner loop of `skiplist_lookup_leaf`** passes the leaves of `between`. -/
theorem lookupWalk_eq {level rounds : ℕ} (h : Linked s (passed ++ between ++ rest))
    (hcut : Cut key (passed ++ between) rest) (hlevel : level < skipMaxlevel) (hfuel : 0 < fuel)
    (hrounds : between.length < rounds) :
    s.lookupWalk fuel key level rounds (lastAt level passed) =
      some (match rest.find? fun e ↦ level ≤ e.height with
        | none => .down (lastAt level (passed ++ between))
        | some e =>
          if key < e.minKey then .down (lastAt level (passed ++ between))
          else .done (lastAt level (passed ++ between)) e.addr) := by
  obtain ⟨rounds, rfl⟩ := Nat.exists_eq_add_one.mpr (Nat.zero_lt_of_lt hrounds)
  induction between generalizing passed rounds with
  | nil =>
    rw [List.append_nil] at h hcut ⊢
    rw [State.lookupWalk, slNextLeaf_eq h.nodes hlevel (h.chains level hlevel) hfuel]
    cases hfind : rest.find? fun e ↦ level ≤ e.height with
    | none => rfl
    | some e =>
      have he : e ∈ passed ++ rest := List.mem_append_right _ (List.mem_of_find?_eq_some hfind)
      have hmax := hcut.above e (List.mem_of_find?_eq_some hfind)
      have hprev := findLivePrev_find? h.nodes hlevel (h.chains level hlevel) hfind hfuel
      have hdead := h.nodes.getDead (lastAt_mem level passed rest)
      have hdead' := h.nodes.getDead (mem_nodesAt he (Nat.zero_le _))
      change s.findLivePrev fuel (.leaf e.addr) level = _ at hprev
      change s.getDead (.leaf e.addr) = _ at hdead'
      simp only [Option.map_some, Option.bind_eq_bind, Option.bind_some, h.slMaxKey he,
        h.slMinKey he, hprev, hdead, hdead', ge_iff_le, hmax.not_ge, if_false]
      by_cases hmin : key < e.minKey
      · simp [hmin]
      · simp [hmin]
  | cons e between ih =>
    have hassoc : passed ++ e :: between = passed ++ [e] ++ between := by simp
    rw [hassoc] at h hcut ⊢
    rw [List.length_cons] at hrounds
    by_cases hle : level ≤ e.height
    · obtain ⟨rounds, rfl⟩ := Nat.exists_eq_add_one.mpr (show 0 < rounds by omega)
      have hrest := ih h hcut rounds (by omega)
      have he : e ∈ passed ++ [e] ++ between ++ rest := by simp
      have hmax := hcut.below e (by simp)
      have hsplit : passed ++ [e] ++ between ++ rest = passed ++ (e :: between ++ rest) := by simp
      have hnext := slNextLeaf_eq (hsplit ▸ h.nodes) hlevel (hsplit ▸ h.chains level hlevel) hfuel
      rw [List.cons_append, List.find?_cons_of_pos (by simpa using hle)] at hnext
      rw [lastAt_concat_of_le hle] at hrest
      rw [State.lookupWalk, hnext]
      simp only [Option.map_some, Option.bind_eq_bind, Option.bind_some, h.slMaxKey he, ge_iff_le,
        hmax, if_true]
      exact hrest
    · rw [← lastAt_concat_of_lt (Nat.lt_of_not_le hle) passed]
      exact ih h hcut rounds (by omega)

/-- Where the search for a leaf ends. -/
def located (key : ℕ) (lo : List (Entry α)) : List (Entry α) → State.LookupEnd
  | [] => .down (lastAt 0 lo)
  | e :: _ => if key < e.minKey then .down (lastAt 0 lo) else .done (lastAt e.height lo) e.addr

/-- **The outer loop of `skiplist_lookup_leaf`** -/
theorem lookupLevels_eq {level : ℕ} (h : Linked s (lo ++ rest)) (hcut : Cut key lo rest)
    (hlevel : level < skipMaxlevel) (hsplit : lo = passed ++ between)
    (hfirst : ∀ e rest', rest = e :: rest' → e.minKey ≤ key → e.height ≤ level)
    (hfuel : lo.length < fuel) :
    s.lookupLevels fuel key (level + 1) (lastAt level passed) = some (located key lo rest) := by
  have hlen : between.length < fuel := by
    rw [hsplit, List.length_append] at hfuel
    omega
  have hwalk := lookupWalk_eq (hsplit ▸ h) (hsplit ▸ hcut) hlevel (Nat.zero_lt_of_lt hfuel) hlen
  rw [← hsplit] at hwalk
  induction level generalizing passed between with
  | zero =>
    rw [State.lookupLevels, hwalk]
    cases rest with
    | nil => rfl
    | cons e rest' =>
      rw [List.find?_cons_of_pos (by simp), located]
      dsimp only
      split_ifs with hmin
      · rfl
      · rw [Nat.le_zero.mp (hfirst e rest' rfl (Nat.le_of_not_lt hmin))]
        rfl
  | succ level ih =>
    -- the search goes on from the last leaf of this level
    have hdown : (∀ e rest', rest = e :: rest' → e.minKey ≤ key → e.height ≤ level) →
        s.lookupLevels fuel key (level + 1) (lastAt (level + 1) lo) =
          some (located key lo rest) := by
      intro hfirst'
      obtain ⟨passed', between', hsplit', -, hlast⟩ := exists_passed Node.head level lo
      have hlen' : between'.length < fuel := by
        rw [hsplit', List.length_append] at hfuel
        omega
      have hlevel' : level < skipMaxlevel := by omega
      have hwalk' := lookupWalk_eq (hsplit' ▸ h) (hsplit' ▸ hcut) hlevel'
        (Nat.zero_lt_of_lt hfuel) hlen'
      rw [← hsplit'] at hwalk'
      rw [lastAt, hlast]
      exact ih hlevel' hsplit' hfirst' hlen' hwalk'
    rw [State.lookupLevels, hwalk]
    cases hfind : rest.find? fun e ↦ level + 1 ≤ e.height with
    | none =>
      refine hdown fun e rest' hrest _ ↦ ?_
      have hlow := List.find?_eq_none.mp hfind e (by simp [hrest])
      simpa [Nat.lt_succ_iff] using hlow
    | some e' =>
      dsimp only
      split_ifs with hmin
      · refine hdown fun e rest' hrest hkey ↦ Nat.le_of_lt_succ ?_
        exact height_lt_of_find? hfind hrest fun heq ↦ absurd (heq ▸ hmin) hkey.not_gt
      · obtain ⟨rest', rfl⟩ := h.first_of_find? hcut hfind hmin
        have hle := (exists_of_find? hfind).1
        have hheight := hfirst e' rest' rfl (Nat.le_of_not_lt hmin)
        rw [located, if_neg hmin, hheight.antisymm hle]
        rfl

/-- **`skiplist_lookup_leaf`** -/
theorem skiplistLookupLeaf_eq (rounds : ℕ) (h : Linked s (lo ++ rest)) (hcut : Cut key lo rest)
    (hfuel : lo.length < fuel) : s.skiplistLookupLeaf fuel key (rounds + 1) =
      some (match rest with
        | [] => (none, lastAt 0 lo)
        | e :: _ =>
          if key < e.minKey then (none, lastAt 0 lo) else (some e.addr, lastAt e.height lo)) := by
  have hlevels := h.lookupLevels_eq hcut h.bound (List.nil_append lo).symm
    (fun e rest' hrest _ ↦ h.low e (by simp [hrest])) hfuel
  rw [lastAt, nodesAt_nil, lastOf_nil] at hlevels
  rw [State.skiplistLookupLeaf, hlevels]
  cases rest with
  | nil => rfl
  | cons e rest' =>
    rw [located]
    dsimp only
    split_ifs with hmin <;> rfl

/-- The leaf that has the key between its smallest and its largest one. -/
structure Home (key : ℕ) (e : Entry α) : Prop where
  min : e.minKey ≤ key
  max : key < e.maxKey

/-- A key is in no extent outside of its home. -/
theorem mem_home (h : Linked s (lo ++ rest)) (hcut : Cut key lo rest)
    (ht : t ∈ contents (lo ++ rest)) (hkey : t.key ≤ key) (hstop : key < t.stop) :
    ∃ e rest', rest = e :: rest' ∧ Home key e ∧ t ∈ e.slots := by
  obtain ⟨e, he, hslot⟩ := mem_contents.mp ht
  have hmin := (h.minKey_le he hslot).trans hkey
  have hmax := hstop.trans_le (h.stop_le_maxKey he hslot)
  rcases List.mem_append.mp he with hlo | hrest
  · exact absurd (hcut.below e hlo) hmax.not_ge
  · cases rest with
    | nil => simp at hrest
    | cons e' rest' =>
      rcases List.mem_cons.mp hrest with rfl | hrest
      · exact ⟨e, rest', rfl, ⟨hmin, hmax⟩, hslot⟩
      · exact absurd (h.key_lt_minKey hcut hrest) hmin.not_gt

/-- A search for the leaf, and whether the key has a home. -/
theorem exists_located (rounds : ℕ) (h : Linked s entries) (key : ℕ) (hfuel : entries.length < fuel) :
    (∃ e ∈ entries, ∃ p, s.skiplistLookupLeaf fuel key (rounds + 1) = some (some e.addr, p) ∧
      Home key e ∧ ∀ t ∈ contents entries, t.key ≤ key → key < t.stop → t ∈ e.slots) ∨
    (∃ p, s.skiplistLookupLeaf fuel key (rounds + 1) = some (none, p)) ∧
      ∀ t ∈ contents entries, t.key ≤ key → t.stop ≤ key := by
  obtain ⟨lo, rest, rfl, hcut⟩ := h.exists_cut key
  have hlen : lo.length < fuel := by
    rw [List.length_append] at hfuel
    omega
  have hlookup := h.skiplistLookupLeaf_eq rounds hcut hlen
  have hhome := fun t ht hkey hstop ↦ h.mem_home (t := t) hcut ht hkey hstop
  cases rest with
  | nil =>
    refine .inr ⟨⟨_, hlookup⟩, fun t ht hkey ↦ Nat.le_of_not_lt fun hstop ↦ ?_⟩
    obtain ⟨e, rest', hrest, -⟩ := hhome t ht hkey hstop
    exact List.cons_ne_nil _ _ hrest.symm
  | cons e rest' =>
    dsimp only at hlookup
    split_ifs at hlookup with hmin
    · refine .inr ⟨⟨_, hlookup⟩, fun t ht hkey ↦ Nat.le_of_not_lt fun hstop ↦ ?_⟩
      obtain ⟨e', rest'', hrest, hhome', -⟩ := hhome t ht hkey hstop
      rw [List.cons.injEq] at hrest
      exact absurd (hrest.1 ▸ hmin) hhome'.min.not_gt
    · refine .inl ⟨e, by simp, _, hlookup, ⟨Nat.le_of_not_lt hmin, hcut.above e (by simp)⟩, ?_⟩
      intro t ht hkey hstop
      obtain ⟨e', rest'', hrest, -, hslot⟩ := hhome t ht hkey hstop
      rw [List.cons.injEq] at hrest
      rwa [hrest.1]

theorem verifyKeyInLeaf_eq (h : Linked s entries) (he : e ∈ entries) (hhome : Home key e)
    (hrange : key + size < 2 ^ 64) : s.verifyKeyInLeaf e.addr key size = some true := by
  have hmin := h.slMinKey he
  have hmax := h.slMaxKey he
  rw [State.slMinKey, h.getLeaf he, Option.map_some, Option.some.injEq] at hmin
  rw [State.slMaxKey, h.getLeaf he, Option.map_some, Option.some.injEq] at hmax
  have hdead := h.nodes.getDead (mem_nodesAt he (Nat.zero_le _))
  change s.getDead (.leaf e.addr) = _ at hdead
  have hlow := hhome.min
  simp only [State.verifyKeyInLeaf, hdead, h.getLeaf he, hmin, hmax, ulong_eq hrange,
    Option.bind_eq_bind, Option.bind_some, ge_iff_le, hhome.max.not_ge, Bool.false_eq_true, if_false,
    decide_false, Bool.or_false]
  rw [decide_eq_false (by omega)]
  rfl

end Linked

/-- What a lookup of a range may return. It looks at one leaf only, so it finds every extent that
has the first key of the range, but not every extent that overlaps the range. -/
structure Looked (slots : List (SlSlot α)) (key size : ℕ) (ret : Option (SlSlot α)) : Prop where
  sound : ∀ t, ret = some t → t ∈ slots ∧ Overlaps key size t
  complete : ret = none → ∀ t ∈ slots, ¬ (t.key ≤ key ∧ key < t.stop)

namespace Linked

/-- What a search of the home returns is an answer of the lookup. -/
theorem looked (h : Linked s entries) (he : e ∈ entries) (hsize : 0 < size)
    (hall : ∀ t ∈ contents entries, t.key ≤ key → key < t.stop → t ∈ e.slots) {r : ℕ × ℕ}
    (hr : Searched e.slots key size r) :
    Looked (contents entries) key size (if r.1 = 0 then (s.leaves e.addr).ptrs r.2 else none) := by
  cases hr with
  | found i t ht hmeets =>
    rw [if_pos rfl, (h.holds e he).ptrs ht]
    refine ⟨fun u hu ↦ ?_, fun hnone ↦ absurd hnone (Option.some_ne_none t)⟩
    rw [Option.some.injEq] at hu
    exact hu ▸ ⟨mem_contents.mpr ⟨e, he, List.mem_of_getElem? ht⟩, hmeets⟩
  | missing left right hslots hgap =>
    rw [if_neg (by simp)]
    refine ⟨fun u hu ↦ absurd hu.symm (Option.some_ne_none u), fun _ t ht ⟨hkey, hstop⟩ ↦ ?_⟩
    have hmem := hall t ht hkey hstop
    exact hgap.not_meets (hslots ▸ hmem) ⟨by omega, hstop⟩

/-- `skiplist_lookup` in the home of the key -/
theorem skiplistLookup_home (rounds : ℕ) (h : Linked s entries)
    (hfree : ∀ n, s.present n = true → s.locked n = false) (he : e ∈ entries) {p : Node}
    (hleaf : s.skiplistLookupLeaf fuel key fuel = some (some e.addr, p)) (hhome : Home key e)
    (hrange : key + size < 2 ^ 64) {r : ℕ × ℕ}
    (hsearch : (s.leaves e.addr).leafSlotLocked key size = some r) :
    s.skiplistLookup fuel key size (rounds + 1) =
      some (if r.1 = 0 then (s.leaves e.addr).ptrs r.2 else none, s) := by
  have hpresent : s.present (.leaf e.addr) = true := h.nodes.allocated e he
  have hlock := State.slLockNode_eq hpresent (hfree _ hpresent)
  set s₁ := s.withLocks (Function.update s.locked (.leaf e.addr) true)
  have hverify : s₁.verifyKeyInLeaf e.addr key size = some true :=
    (h.withLocks _).verifyKeyInLeaf_eq he hhome hrange
  have hget : s₁.getLeaf e.addr = some (s.leaves e.addr) := h.getLeaf he
  have hunlock : s₁.slUnlockNode (some (.leaf e.addr)) = some s :=
    State.unlock_locked hpresent (hfree _ hpresent)
  rw [State.skiplistLookup, hleaf]
  simp only [Option.bind_eq_bind, Option.bind_some, hlock, hverify, if_true, hget, hsearch,
    hunlock]
  rfl

/-- `skiplist_lookup_rcu` in the home of the key -/
theorem skiplistLookupRcu_home (rounds : ℕ) (h : Linked s entries) (he : e ∈ entries) {p : Node}
    (hleaf : s.skiplistLookupLeaf fuel key fuel = some (some e.addr, p)) (hhome : Home key e)
    (hrange : key + size < 2 ^ 64) {r : ℕ × ℕ}
    (hsearch : (s.leaves e.addr).leafSlot key size = some r) :
    s.skiplistLookupRcu fuel key size (rounds + 1) =
      some (if r.1 = 0 then (s.leaves e.addr).ptrs r.2 else none) := by
  obtain ⟨ret, slot⟩ := r
  rw [State.skiplistLookupRcu, hleaf]
  simp only [Option.bind_eq_bind, Option.bind_some, h.getLeaf he, hsearch,
    h.verifyKeyInLeaf_eq he hhome hrange, if_true]
  split_ifs <;> rfl

/-- Where no leaf has the key, nothing is looked up. -/
theorem looked_none (hnone : ∀ t ∈ contents entries, t.key ≤ key → t.stop ≤ key) :
    Looked (contents entries) key size none :=
  ⟨fun t ht ↦ absurd ht.symm (Option.some_ne_none t),
    fun _ t ht ⟨hkey, hstop⟩ ↦ (hnone t ht hkey).not_gt hstop⟩

/-- **`skiplist_lookup`** -/
theorem skiplistLookup_eq (rounds : ℕ) (h : Linked s entries)
    (hfree : ∀ n, s.present n = true → s.locked n = false) (hsize : 0 < size)
    (hrange : key + size < 2 ^ 64) (hfuel : entries.length < fuel) :
    ∃ ret, s.skiplistLookup fuel key size (rounds + 1) = some (ret, s) ∧
      Looked (contents entries) key size ret := by
  obtain ⟨tries, htries⟩ := Nat.exists_eq_add_one.mpr (Nat.zero_lt_of_lt hfuel)
  have hlocated := h.exists_located tries key hfuel
  rw [← htries] at hlocated
  rcases hlocated with ⟨e, he, p, hleaf, hhome, hall⟩ | ⟨⟨p, hleaf⟩, hnone⟩
  · obtain ⟨r, hsearch, hr⟩ :=
      (h.holds e he).leafSlotLocked_spec (h.extents_of_mem he) hrange
    exact ⟨_, h.skiplistLookup_home rounds hfree he hleaf hhome hrange hsearch,
      h.looked he hsize hall hr⟩
  · exact ⟨none, by rw [State.skiplistLookup, hleaf]; rfl, looked_none hnone⟩

/-- **`skiplist_lookup_rcu`** -/
theorem skiplistLookupRcu_eq (rounds : ℕ) (h : Linked s entries) (hsize : 0 < size)
    (hrange : key + size < 2 ^ 64) (hfuel : entries.length < fuel) :
    ∃ ret, s.skiplistLookupRcu fuel key size (rounds + 1) = some ret ∧
      Looked (contents entries) key size ret := by
  obtain ⟨tries, htries⟩ := Nat.exists_eq_add_one.mpr (Nat.zero_lt_of_lt hfuel)
  have hlocated := h.exists_located tries key hfuel
  rw [← htries] at hlocated
  rcases hlocated with ⟨e, he, p, hleaf, hhome, hall⟩ | ⟨⟨p, hleaf⟩, hnone⟩
  · obtain ⟨r, hsearch, hr⟩ :=
      (h.holds e he).leafSlot_spec (h.extents_of_mem he) (h.nonempty e he) hrange
    exact ⟨_, h.skiplistLookupRcu_home rounds he hleaf hhome hrange hsearch,
      h.looked he hsize hall hr⟩
  · exact ⟨none, by rw [State.skiplistLookupRcu, hleaf]; rfl, looked_none hnone⟩

/-- The lookup with a lock and the one without find something for the same ranges, and for a single
key they find the same extent. -/
theorem lookups_agree (rounds : ℕ) (h : Linked s entries)
    (hfree : ∀ n, s.present n = true → s.locked n = false) (hrange : key + size < 2 ^ 64)
    (hfuel : entries.length < fuel) :
    ∃ ret ret', s.skiplistLookup fuel key size (rounds + 1) = some (ret, s) ∧
      s.skiplistLookupRcu fuel key size (rounds + 1) = some ret' ∧ (ret = none ↔ ret' = none) ∧
        (size = 1 → ret = ret') := by
  obtain ⟨tries, htries⟩ := Nat.exists_eq_add_one.mpr (Nat.zero_lt_of_lt hfuel)
  have hlocated := h.exists_located tries key hfuel
  rw [← htries] at hlocated
  rcases hlocated with ⟨e, he, p, hleaf, hhome, -⟩ | ⟨⟨p, hleaf⟩, -⟩
  · have hholds := h.holds e he
    rcases leaf_searches_agree hholds (h.extents_of_mem he) (h.nonempty e he) hrange with
      ⟨i, hlocked, hrcu, -⟩ | ⟨i, j, t, u, hlocked, hrcu, ht, hu, -, -, hsame⟩
    · exact ⟨_, _, h.skiplistLookup_home rounds hfree he hleaf hhome hrange hlocked,
        h.skiplistLookupRcu_home rounds he hleaf hhome hrange hrcu, Iff.rfl, fun _ ↦ rfl⟩
    · refine ⟨_, _, h.skiplistLookup_home rounds hfree he hleaf hhome hrange hlocked,
        h.skiplistLookupRcu_home rounds he hleaf hhome hrange hrcu, ?_⟩
      simp only [if_true, hholds.ptrs ht, hholds.ptrs hu]
      exact ⟨by simp, fun hsize ↦ by rw [hsame hsize]⟩
  · exact ⟨none, none, by rw [State.skiplistLookup, hleaf]; rfl,
      by rw [State.skiplistLookupRcu, hleaf]; rfl, Iff.rfl, fun _ ↦ rfl⟩

end Linked

end ParallelPrograms.ExtentList
