import ParallelPrograms.SkipList.Runs

/-!
# The calls that fail

A call of `sl_insert` or `sl_erase` that returns an error code should leave the list as it was.
`sl_erase` of a key that is not stored and `sl_insert` without memory do. `sl_insert` of a stored
key does when the drawn level is at most the level of the node that has the key. Otherwise
the freed node stays linked in the levels above the found node, and `list->level` may have been
raised.
-/

namespace ParallelPrograms.SkipList

open LinkedList

/-- The list is as before, and no link leads to the node that the call has allocated and freed. -/
structure Intact (list list' : SlList) (call : Call) : Prop where
  same : list' = list
  unlinked : ∀ key val randomSeed a, call = .insert key val randomSeed (some a) →
    ¬ Dangling list' a

/-- When the key of the new node is stored, the drawn level is at most the level of the node that
has it. -/
def ReachesDrawnLevel (list : SlList) (call : Call) : Prop :=
  ∀ key val randomSeed a, call = .insert key val randomSeed (some a) →
    ∀ b node, list.heap.nodes b = some node → node.key = key → randomLevel randomSeed ≤ node.level

/-- The entry with the key is the only one. -/
theorem Cut.eq_of_key {key : Key} {lo hi : List Entry} {e e' : Entry} (h : Cut key lo (some e) hi)
    (he : e' ∈ lo ++ e :: hi) (hkey : e'.2.key = key) : e' = e := by
  by_contra hne
  have hother : e' ∈ lo ++ hi := by
    simp only [List.mem_append, List.mem_cons] at he ⊢
    tauto
  exact h.key_ne hother hkey

section Calls

variable {list list' : SlList} {entries : List Entry} {call : Call} {fuel : ℕ} {c : ℤ} {a : Addr}

/-- Every link of the list leads to the head or to a node. -/
theorem Linked.not_dangling (h : Linked list entries) (ha : list.heap.nodes a = none) :
    ¬ Dangling list a := by
  intro ⟨pos, hvalid, hlink⟩
  obtain ⟨hpos, hhead, hnode⟩ := (list.heap.valid_iff pos).mp hvalid
  obtain ⟨block, index⟩ := pos
  lift index to ℕ using hpos
  have hring : index < slMaxlevel ∧ ⟨block, index⟩ ∈ Link.head index :: linksAt index entries := by
    cases block with
    | none => exact ⟨Int.ofNat_lt.mp (hhead rfl), List.mem_cons_self⟩
    | some b =>
      obtain ⟨node, hb, hlevel⟩ := hnode b rfl
      have he := (h.nodes b node).mp hb
      have hlevel : index ≤ node.level := Int.ofNat_le.mp hlevel
      have hlt : node.level < slMaxlevel := h.levels _ he
      exact ⟨by omega, List.mem_cons_of_mem _ (mem_linksAt.mpr ⟨_, he, hlevel, rfl⟩)⟩
  obtain ⟨hindex, hmem⟩ := hring
  have hblock : ∀ pos ∈ Link.head index :: linksAt index entries, pos.block ≠ some a := by
    intro pos hpos heq
    rcases List.mem_cons.mp hpos with rfl | hpos
    · cases heq
    · obtain ⟨e, he, -, rfl⟩ := mem_linksAt.mp hpos
      simp [← Option.some.inj heq, h.stores e he] at ha
  have hcycle := h.rings index hindex
  rcases hlink with hnext | hprev
  · exact hblock _ (hcycle.forward.next_mem_ring hmem) hnext
  · apply hblock _ _ hprev
    simpa using hcycle.backward.next_mem_ring (by simpa using hmem)

theorem Linked.intact (h : Linked list entries) (hfresh : call.Fresh list) :
    Intact list list call := by
  refine ⟨rfl, ?_⟩
  rintro key val randomSeed a rfl
  exact h.not_dangling hfresh

/-- A key that is not stored can be inserted. -/
theorem Linked.slInsert_code {lo hi : List Entry} {key : Key} {val : Ptr} {randomSeed : UInt32}
    (h : Linked list (lo ++ hi)) (hcut : Cut key lo none hi) (hfuel : lo.length < fuel)
    (ha : list.heap.nodes a = none)
    (hinsert : slInsert fuel list key val randomSeed (some a) = some (list', c)) : c = 0 := by
  obtain ⟨heap, hnew, -⟩ := h.insertFrom_new hcut hfuel val randomSeed ha
  obtain ⟨_, hfrom, hrest⟩ := Option.bind_eq_some_iff.mp hinsert
  rw [hnew] at hfrom
  obtain rfl := Option.some.inj hfrom
  simp only [if_true, Option.ite_none_left_eq_some, Option.some.injEq, Prod.mk.injEq] at hrest
  exact hrest.2.2.symm

/-- **One call that fails.** -/
theorem Linked.failed_iff (h : Linked list entries) (hfresh : call.Fresh list)
    (hstep : step fuel list call = some (list', .code c)) (hc : c ≠ 0) :
    Intact list list' call ↔ ReachesDrawnLevel list call := by
  have hstep := step_more_rounds (Nat.le_max_left fuel (entries.length + 1)) hstep
  have hfuel : entries.length < max fuel (entries.length + 1) := by omega
  generalize max fuel (entries.length + 1) = fuel at hstep hfuel
  have hintact : list' = list → ReachesDrawnLevel list call →
      (Intact list list' call ↔ ReachesDrawnLevel list call) := fun heq hreaches ↦
    iff_of_true (heq ▸ h.intact hfresh) hreaches
  cases call with
  | search key => simp [step] at hstep
  | insert key val randomSeed malloc =>
    simp only [step, Option.map_eq_some_iff, Prod.mk.injEq, Answer.code.injEq] at hstep
    obtain ⟨⟨_, _⟩, hinsert, rfl, rfl⟩ := hstep
    cases malloc with
    | none =>
      have hsame := congrArg Prod.fst (Option.some.inj hinsert)
      apply hintact hsame.symm
      rintro _ _ _ _ ⟨⟩
    | some a =>
      obtain ⟨lo, same, hi, rfl, hcut, hlo⟩ := h.sorted.exists_cut_lt key hfuel
      cases same with
      | none =>
        rw [Option.toList_none, List.nil_append] at h
        exact absurd (h.slInsert_code hcut hlo hfresh hinsert) hc
      | some e =>
        rw [Option.toList_some, List.singleton_append] at h
        have he : list.heap.nodes e.1 = some e.2 := h.stores e (by simp)
        rcases Nat.lt_or_ge e.2.level (randomLevel randomSeed) with hlt | hreach
        · obtain ⟨list', hinsert', hdangling⟩ := h.slInsert_dangling hcut hlo val hfresh hlt
          obtain ⟨rfl, -⟩ := Prod.ext_iff.mp (Option.some.inj (hinsert.symm.trans hinsert'))
          apply iff_of_false
          · exact fun hintact ↦ hintact.unlinked key val randomSeed a rfl hdangling
          · intro hreaches
            have := hreaches key val randomSeed a rfl e.1 e.2 he (hcut.same e rfl)
            omega
        · have hinsert' := h.slInsert_reached hcut hlo val hfresh hreach
          obtain ⟨rfl, -⟩ := Prod.ext_iff.mp (Option.some.inj (hinsert.symm.trans hinsert'))
          apply hintact rfl
          rintro _ _ _ _ ⟨⟩ b node hb hkey
          -- the key belongs to one node
          have hmem := (h.nodes b node).mp hb
          obtain rfl := hcut.eq_of_key hmem hkey
          exact hreach
  | erase key =>
    simp only [step, Option.map_eq_some_iff, Prod.mk.injEq, Answer.code.injEq] at hstep
    obtain ⟨⟨_, _⟩, herase, rfl, rfl⟩ := hstep
    obtain ⟨lo, same, hi, rfl, hcut, hlo⟩ := h.sorted.exists_cut_lt key hfuel
    cases same with
    | none =>
      rw [Option.toList_none, List.nil_append] at h
      have hnone := h.slErase_none hcut hlo
      have hsame := congrArg Prod.fst (Option.some.inj (herase.symm.trans hnone))
      apply hintact hsame
      rintro _ _ _ _ ⟨⟩
    | some e =>
      rw [Option.toList_some, List.singleton_append] at h
      obtain ⟨list'', herase', -⟩ := h.slErase_some hcut hlo
      have hcode := congrArg Prod.snd (Option.some.inj (herase.symm.trans herase'))
      exact absurd hcode hc

end Calls

/-- **A call that fails leaves the list as it was** exactly when the drawn level is at most the
level of the node that has the key. Calls that fail without memory, or because there is no such
node, always do. -/
theorem failed_call_intact_iff {next prev : Link → Link} {start list list' : SlList}
    {calls : List Call} {call : Call} {fuel : ℕ} {c : ℤ}
    (halloc : slListAlloc next prev = some start) (hcalls : Succeeds start calls list)
    (hfresh : call.Fresh list) (hstep : step fuel list call = some (list', .code c)) (hc : c ≠ 0) :
    Intact list list' call ↔ ReachesDrawnLevel list call := by
  obtain ⟨entries, hlinked, -⟩ := hcalls.linked halloc
  exact hlinked.failed_iff hfresh hstep hc

/-- The list with the key 5 in a node of level 0. -/
def oneKey : SlList := ((slInsert 7 emptyList 5 50 0 (some 1)).getD (emptyList, 0)).1

theorem step_oneKey : step 7 emptyList (.insert 5 50 0 (some 1)) = some (oneKey, .code 0) := by
  have hcode : (slInsert 7 emptyList 5 50 0 (some 1)).map Prod.snd = some 0 := by decide +kernel
  obtain ⟨⟨list, _⟩, hinsert, rfl⟩ := Option.map_eq_some_iff.mp hcode
  have hlist : oneKey = list := by rw [oneKey, hinsert, Option.getD_some]
  rw [step, hinsert, hlist, Option.map_some]

theorem succeeds_oneKey : Succeeds emptyList [.insert 5 50 0 (some 1)] oneKey := by
  have hfresh : (Call.insert 5 50 0 (some 1)).Fresh emptyList := rfl
  exact Succeeds.nil.snoc hfresh step_oneKey

theorem fresh_oneKey (val : Ptr) (randomSeed : UInt32) :
    (Call.insert 5 val randomSeed (some 2)).Fresh oneKey := by
  change oneKey.heap.nodes 2 = none
  decide +kernel

theorem failed_call_intact_oneKey : ∃ list,
    step 7 oneKey (.insert 5 60 0 (some 2)) = some (list, .code (-17)) ∧
      Intact oneKey list (.insert 5 60 0 (some 2)) := by
  have halloc : slListAlloc id id = some emptyList := rfl
  have hcode : (step 7 oneKey (.insert 5 60 0 (some 2))).map Prod.snd = some (.code (-17)) := by
    decide +kernel
  obtain ⟨⟨list, _⟩, hstep, rfl⟩ := Option.map_eq_some_iff.mp hcode
  have hreaches : ReachesDrawnLevel oneKey (.insert 5 60 0 (some 2)) := by
    rintro _ _ _ _ ⟨⟩ b node - -
    exact Nat.zero_le _
  exact ⟨list, hstep, (failed_call_intact_iff halloc succeeds_oneKey (fresh_oneKey 60 0) hstep
    (by decide)).mpr hreaches⟩

/-- The key 5 is inserted a second time, at level 1. -/
theorem failed_insert_not_intact :
    ¬ ∀ next prev start calls list call fuel list' c, slListAlloc next prev = some start →
      Succeeds start calls list → Call.Fresh list call →
      step fuel list call = some (list', .code c) → c ≠ 0 → Intact list list' call := by
  intro hintact
  have hcode : (step 7 oneKey (.insert 5 60 1 (some 2))).map (fun r ↦ (r.1.level, r.2)) =
      some (1, .code (-17)) := by decide +kernel
  obtain ⟨⟨list, _⟩, hstep, hresult⟩ := Option.map_eq_some_iff.mp hcode
  obtain ⟨hlevel, rfl⟩ := Prod.ext_iff.mp hresult
  have halloc : slListAlloc id id = some emptyList := rfl
  have hsame := (hintact id id emptyList _ oneKey _ 7 list (-17) halloc succeeds_oneKey
    (fresh_oneKey 60 1) hstep (by decide)).same
  rw [hsame] at hlevel
  exact absurd hlevel (by decide +kernel)

end ParallelPrograms.SkipList
