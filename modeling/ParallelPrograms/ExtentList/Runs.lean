import ParallelPrograms.ExtentList.Refinement

/-!
# Runs of the extent skip list

From `sl_init_list` on, the list refines the set of extents. So no call of a run gets stuck: the one
thread never waits for itself, follows a null pointer, touches a leaf that has been freed or frees one
twice, and no assertion of the code fails. Only the preemption counter is not kept, because the code
calls `get_cpu_var` without `put_cpu_var`.
-/

namespace ParallelPrograms.ExtentList

open LinkedList Sequence Refinement

variable {α : Type}

/-- Nothing has been allocated. -/
structure State.Blank (s : State α) : Prop where
  allocated : ∀ a, s.allocated a = false
  preload : ∀ token, s.preload token = none
  freed : s.freed = []

/-- A state in which nothing has been allocated. -/
def State.blank : State α where
  level := 0
  allocated _ := false
  leaves _ := ⟨0, 0, fun _ ↦ 0, fun _ ↦ none⟩
  height _ := 0
  dead _ := false
  locked _ := false
  next _ _ := none
  prev _ _ := none
  preload _ := none
  freed := []
  preempt := 0

theorem State.blank_blank : (State.blank : State α).Blank := ⟨fun _ ↦ rfl, fun _ ↦ rfl, rfl⟩

/-- **`sl_init_list`** makes an empty list. -/
theorem State.Blank.sound {s : State α} (h : s.Blank) : Sound s.slInitList [] := by
  have hnot : ∀ o a, ¬ Owns s.slInitList [] o a := by
    intro o a ho
    cases o with
    | list => simp [Owns] at ho
    | preload token => exact absurd ((h.preload token).symm.trans ho) (by simp)
    | callRcu =>
      have hmem : a ∈ s.freed := ho
      simp [h.freed] at hmem
  refine ⟨⟨?_, fun level hlevel ↦ ?_, by simp, by simp, ⟨.nil, by simp⟩, by simp, ?_⟩, ?_, ?_⟩
  · exact ⟨by simp, by simp, by simp, by simp [State.slInitList], by simp [State.slInitList]⟩
  · rw [ChainAt, nodesAt_nil, Chain.nil_iff]
    simp [State.slInitList, hlevel, hlevel.le]
  · exact (by decide : 0 < skipMaxlevel)
  · refine ⟨fun a ↦ ?_, fun a o o' ho ↦ absurd ho (hnot o a), ?_, fun token a ha ↦ ?_⟩
    · have hfree : s.slInitList.allocated a = false := h.allocated a
      simp [hfree, hnot]
    · change s.freed.Nodup
      simp [h.freed]
    · exact absurd ha (hnot (.preload token) a)
  · intro n hn
    cases n with
    | head => simp [State.slInitList]
    | leaf a => exact absurd ((h.allocated a).symm.trans hn) (by simp)

section Spec

variable {S S' : ExtentSet α} {calls : List (Call α)} {answers : List (Answer α)} {t : SlSlot α}
  {align : ℕ}

/-- An extent stays in the set until a call of `skiplist_delete` returns it. -/
theorem mem_of_specRun (hrun : SpecRun Spec S calls answers S') (ht : t ∈ S)
    (hkept : ∀ (i key size : ℕ) beyond, calls[i]? = some (Call.delete key size beyond) →
      answers[i]? ≠ some (Answer.slot (some t))) : t ∈ S' := by
  induction hrun with
  | nil => exact ht
  | cons hcall _ ih =>
    refine ih (hcall.mem ht fun key size beyond hdelete heq ↦ ?_) fun i ↦ hkept (i + 1)
    exact hkept 0 key size beyond (by simp [hdelete]) (by simp [heq])

theorem aligned_of_specRun (hrun : SpecRun Spec S calls answers S')
    (hcalls : ∀ call ∈ calls, call.Aligned align) (h : ∀ t ∈ S, t.Aligned align) :
    ∀ t ∈ S', t.Aligned align := by
  induction hrun with
  | nil => exact h
  | cons hcall _ ih =>
    obtain ⟨hfirst, hrest⟩ := List.forall_mem_cons.mp hcalls
    exact ih hrest (hcall.aligned hfirst h)

end Spec

section Runs

variable {s s' : State α} {fuel top : ℕ} {calls before between : List (Call α)} {call : Call α}
  {answers : List (Answer α)}

/-- A run from `sl_init_list` on. -/
theorem run_stores (h : s.Blank) (htop : top < 2 ^ 64) (hfuel : calls.length + 1 < fuel)
    (hcalls : AdmissibleRun (step fuel) (Admissible top) s.slInitList calls) :
    ∃ s' S answers, run (step fuel) s.slInitList calls = some (s', answers) ∧
      SpecRun Spec ∅ calls answers S ∧ Stores top calls.length s' S := by
  have hstores : Stores top 0 s.slInitList (∅ : ExtentSet α) :=
    ⟨[], h.sound, ExtentSet.ext (Set.eq_empty_of_forall_notMem fun t ↦ List.not_mem_nil), le_rfl,
      fun t ht ↦ absurd ht ExtentSet.not_mem_empty⟩
  obtain ⟨s', S, answers, hrun, hspec, hstores'⟩ :=
    (step_refines htop).run hstores (show 0 + calls.length ≤ fuel - 1 by omega) hcalls
  exact ⟨s', S, answers, hrun, hspec, by rwa [Nat.zero_add] at hstores'⟩

/-- **The extent skip list is a set of separate extents.** Every admissible run from `sl_init_list` on
gets through and answers every call as the set allows. Then the levels of the list are in order, and
its leaves hold the extents of the set. -/
theorem extentList_refines_set (h : s.Blank) (htop : top < 2 ^ 64)
    (hfuel : calls.length + 1 < fuel)
    (hcalls : AdmissibleRun (step fuel) (Admissible top) s.slInitList calls) :
    ∃ s' answers entries, ∃ hlinked : Linked s' entries,
      run (step fuel) s.slInitList calls = some (s', answers) ∧
        SpecRun Spec ∅ calls answers hlinked.stored := by
  obtain ⟨s', S, answers, hrun, hspec, entries, hsound, rfl, -⟩ := run_stores h htop hfuel hcalls
  exact ⟨s', answers, entries, hsound.linked, hrun, hspec⟩

/-- Two extents are inserted. -/
def twoInserts : List (Call ℕ) :=
  [.insert 4096 4096 (some 7) ⟨1, some 1, some 2⟩, .insert 0 4096 (some 8) ⟨3, some 3, some 4⟩]

/-- One more extent does not fit, a hole is found behind, and all extents are deleted again, which
empties their leaf. -/
def someCalls : List (Call ℕ) :=
  twoInserts ++ [.insert 100 5 (some 9) ⟨0, some 5, none⟩,
    .insertHole 0 16384 4096 4096 ⟨0, 0, 10⟩ ⟨0, some 5, none⟩, .lookup 4100 10,
    .delete 4100 1 (0, none), .delete 5 1 (0, none), .lookupRcu 8192 1, .delete 8192 1 (0, none),
    .slFreeRcu 1]

theorem extentList_refines_set_someCalls :
    ∃ s' answers entries, ∃ hlinked : Linked s' entries,
      run (step 12) (State.blank : State ℕ).slInitList someCalls = some (s', answers) ∧
        SpecRun Spec ∅ someCalls answers hlinked.stored :=
  extentList_refines_set State.blank_blank (show 65536 < 2 ^ 64 by decide) (by decide)
    (by decide +kernel)

example : (run (step 12) (State.blank : State ℕ).slInitList someCalls).map Prod.snd =
    some [.code 0, .code 0, .code (-17), .hole 0 ⟨8192, 4096, 10⟩, .slot (some ⟨4096, 4096, 7⟩),
      .slot (some ⟨4096, 4096, 7⟩), .slot (some ⟨0, 4096, 8⟩), .slot (some ⟨8192, 4096, 10⟩),
      .slot (some ⟨8192, 4096, 10⟩), .done] := by
  decide +kernel

/-- **No leaf is lost or used twice.** After every admissible run the leaves that are allocated are
those of the list, of the preload area, and those given to `call_rcu` and not freed yet, and no leaf
is in two of these places. No lock is held, and there are at most as many leaves in the list as there
were calls. -/
theorem extentList_owns_leaves (h : s.Blank) (htop : top < 2 ^ 64)
    (hfuel : calls.length + 1 < fuel)
    (hcalls : AdmissibleRun (step fuel) (Admissible top) s.slInitList calls) :
    ∃ s' answers entries, run (step fuel) s.slInitList calls = some (s', answers) ∧
      Linked s' entries ∧ Memory s' entries ∧ s'.Unlocked ∧ entries.length ≤ calls.length := by
  obtain ⟨s', S, answers, hrun, -, entries, hsound, -, hlength, -⟩ := run_stores h htop hfuel hcalls
  exact ⟨s', answers, entries, hrun, hsound.linked, hsound.memory, hsound.unlocked, hlength⟩

theorem extentList_owns_leaves_someCalls :
    ∃ s' answers entries,
      run (step 12) (State.blank : State ℕ).slInitList someCalls = some (s', answers) ∧
        Linked s' entries ∧ Memory s' entries ∧ s'.Unlocked ∧ entries.length ≤ someCalls.length :=
  extentList_owns_leaves State.blank_blank (show 65536 < 2 ^ 64 by decide) (by decide)
    (by decide +kernel)

/-- The counter goes up with every call that comes to `skiplist_preload`. -/
abbrev Leaks (count : ℤ) (call : Call α) (_ : Answer α) (count' : ℤ) : Prop :=
  count' = count + if call.preloads then 1 else 0

theorem count_of_specRun {count count' : ℤ} (hrun : SpecRun Leaks count calls answers count') :
    count' = count + calls.countP Call.preloads := by
  induction hrun with
  | nil => simp
  | cons hcall _ ih =>
    rw [ih, hcall, List.countP_cons]
    split_ifs <;> push_cast <;> omega

theorem step_leaks (htop : top < 2 ^ 64) :
    Refines (step (α := α) fuel) (Admissible top) Leaks
      (fun n s count ↦ (∃ S, Stores top n s S) ∧ count ≤ s.preempt) (fuel - 1) := by
  rintro n hn s count call ⟨⟨S, entries, hsound, rfl, hlength, hbound⟩, hcount⟩ hcall
  obtain ⟨s', answer, entries', hstep, hcalled⟩ :=
    hsound.step_eq htop hbound hcall (show entries.length + 1 < fuel by omega)
  have hmore := hcalled.length
  have hpreempt := hcalled.preempt
  exact ⟨s', _, answer, hstep, rfl, ⟨_, entries', hcalled.sound, rfl, by omega,
    hcalled.spec.stop_le hcall hbound⟩, by omega⟩

/-- **Preemption stays disabled.** With every call that comes to `skiplist_preload` the preemption
counter goes up for good, although the callers pair `skiplist_preload` with `preempt_enable`. -/
theorem preemption_stays_disabled (h : s.Blank) (htop : top < 2 ^ 64)
    (hfuel : calls.length + 1 < fuel)
    (hcalls : AdmissibleRun (step fuel) (Admissible top) s.slInitList calls) :
    ∃ s' answers, run (step fuel) s.slInitList calls = some (s', answers) ∧
      s.preempt + calls.countP Call.preloads ≤ s'.preempt := by
  have hstores : Stores top 0 s.slInitList (∅ : ExtentSet α) :=
    ⟨[], h.sound, ExtentSet.ext (Set.eq_empty_of_forall_notMem fun t ↦ List.not_mem_nil), le_rfl,
      fun t ht ↦ absurd ht ExtentSet.not_mem_empty⟩
  obtain ⟨s', count, answers, hrun, hspec, -, hcount⟩ := (step_leaks htop).run
    ⟨⟨_, hstores⟩, Int.le_refl s.preempt⟩ (show 0 + calls.length ≤ fuel - 1 by omega) hcalls
  exact ⟨s', answers, hrun, count_of_specRun hspec ▸ hcount⟩

theorem preemption_stays_disabled_someCalls :
    ∃ s' answers,
      run (step 12) (State.blank : State ℕ).slInitList someCalls = some (s', answers) ∧
        (0 : ℤ) + someCalls.countP Call.preloads ≤ s'.preempt :=
  preemption_stays_disabled State.blank_blank (show 65536 < 2 ^ 64 by decide) (by decide)
    (by decide +kernel)

/-- The range of the call. -/
def Call.Asks (k n : ℕ) : Call α → Prop
  | .lookup key size | .lookupRcu key size | .delete key size _ => key = k ∧ size = n
  | .insert .. | .insertHole .. | .slFreeRcu _ => False

/-- **What is inserted is found until it is deleted.** After `skiplist_insert` has returned 0, and
while no call of `skiplist_delete` returns the extent, every lookup or deletion of a range inside of
it answers with this extent, whatever the other calls do. -/
theorem inserted_until_deleted {key size k n : ℕ} {entry : α} {alloc : Alloc} (h : s.Blank)
    (htop : top < 2 ^ 64)
    (hcalls : AdmissibleRun (step fuel) (Admissible top) s.slInitList
      (before ++ Call.insert key size (some entry) alloc :: (between ++ [call])))
    (hfuel : before.length + between.length + 3 < fuel)
    (hrun : run (step fuel) s.slInitList
      (before ++ Call.insert key size (some entry) alloc :: (between ++ [call])) = some (s', answers))
    (hinserted : answers[before.length]? = some (.code 0))
    (hkept : ∀ (i k n : ℕ) beyond, between[i]? = some (Call.delete k n beyond) →
      answers[before.length + 1 + i]? ≠ some (Answer.slot (some ⟨key, size, entry⟩)))
    (hasks : call.Asks k n) (hn : 0 < n) (hkey : key ≤ k) (hstop : k + n ≤ key + size) :
    answers.getLast? = some (.slot (some ⟨key, size, entry⟩)) := by
  obtain ⟨s₁, S, answers', hrun', hspec, -⟩ := run_stores h htop
    (by simp only [List.length_append, List.length_cons, List.length_nil]; omega) hcalls
  rw [hrun, Option.some.injEq, Prod.mk.injEq] at hrun'
  obtain ⟨-, rfl⟩ := hrun'
  obtain ⟨answers₁, answers₂, S₁, rfl, hbefore, hspec⟩ := hspec.split
  cases hspec with
  | @cons _ S₂ _ _ _ answer _ hinsert hspec =>
    obtain ⟨answers₃, answers₄, S₃, rfl, hbetween, hspec⟩ := hspec.split
    obtain ⟨last, rfl, hlast⟩ := hspec.of_singleton
    rw [← hbefore.length] at hinserted hkept
    rw [List.getElem?_append_right le_rfl, Nat.sub_self, List.getElem?_cons_zero,
      Option.some.injEq] at hinserted
    have hmem : (⟨key, size, entry⟩ : SlSlot α) ∈ S₂ := by
      cases hinsert with
      | inserted => exact ExtentSet.mem_insert.mpr (.inl rfl)
      | noLeaf => exact absurd (Answer.code.inj hinserted) (by decide)
      | overlapped => exact absurd (Answer.code.inj hinserted) (by decide)
    have hmem' : (⟨key, size, entry⟩ : SlSlot α) ∈ S₃ := by
      refine mem_of_specRun hbetween hmem fun i k n beyond hdelete ↦ ?_
      have hi : i < answers₃.length :=
        hbetween.length ▸ (List.getElem?_eq_some_iff.mp hdelete).1
      have hnot := hkept i k n beyond hdelete
      rw [List.getElem?_append_right (by omega), Nat.add_assoc, Nat.add_sub_cancel_left,
        Nat.add_comm 1, List.getElem?_cons_succ, List.getElem?_append_left hi] at hnot
      exact hnot
    have hanswer : last = .slot (some ⟨key, size, entry⟩) := by
      cases hlast with
      | lookup _ _ ret hret | lookupRcu _ _ ret hret | delete _ _ _ ret hret =>
        obtain ⟨rfl, rfl⟩ := hasks
        rw [hret.eq_some hmem' hkey hstop hn]
      | _ => exact hasks.elim
    rw [hanswer, ← List.cons_append, ← List.append_assoc, List.getLast?_concat]

theorem inserted_until_deleted_twoInserts :
    ∃ s' answers, run (step 6) (State.blank : State ℕ).slInitList
        ([] ++ Call.insert 4096 4096 (some 7) ⟨1, some 1, some 2⟩ ::
          ([.insert 0 4096 (some 8) ⟨3, some 3, some 4⟩, .delete 0 4 (0, none)] ++
            [.delete 5000 9 (0, none)])) = some (s', answers) ∧
      answers.getLast? = some (.slot (some ⟨4096, 4096, 7⟩)) := by
  obtain ⟨⟨s', answers⟩, hrun, hanswers⟩ := Option.map_eq_some_iff.mp
    (show (run (step 6) (State.blank : State ℕ).slInitList
        ([] ++ Call.insert 4096 4096 (some 7) ⟨1, some 1, some 2⟩ ::
          ([.insert 0 4096 (some 8) ⟨3, some 3, some 4⟩, .delete 0 4 (0, none)] ++
            [.delete 5000 9 (0, none)]))).map Prod.snd =
      some [.code 0, .code 0, .slot (some ⟨0, 4096, 8⟩), .slot (some ⟨4096, 4096, 7⟩)] by
      decide +kernel)
  subst hanswers
  refine ⟨s', _, hrun, inserted_until_deleted (k := 5000) (n := 9) State.blank_blank
    (show 65536 < 2 ^ 64 by decide) (by decide +kernel) (by decide) hrun rfl
    (fun i k n beyond hdelete ↦ ?_) ⟨rfl, rfl⟩ (by decide) (by decide) (by decide)⟩
  obtain ⟨hi, heq⟩ := List.getElem?_eq_some_iff.mp hdelete
  obtain rfl | rfl : i = 0 ∨ i = 1 := by
    simp only [List.length_cons, List.length_nil] at hi
    omega
  · cases heq
  · simp

/-- **`skiplist_insert_hole` finds the room that there is.** After a run in which only aligned extents
have been inserted, a call with a hint that is not inside of an extent does not return `-EAGAIN`. It
returns 0 if a leaf can be allocated and there is room between the hint and the limit. -/
theorem insertHole_finds_room {hint limit size i : ℕ} {slot : SlSlot α} {alloc : Alloc} (h : s.Blank)
    (htop : top < 2 ^ 64) (hfuel : calls.length + 2 < fuel)
    (hcalls : AdmissibleRun (step fuel) (Admissible top) s.slInitList
      (calls ++ [.insertHole hint limit size (2 ^ i) slot alloc]))
    (haligned : ∀ call ∈ calls, call.Aligned (2 ^ i)) :
    ∃ s' S answers code slot', run (step fuel) s.slInitList
        (calls ++ [.insertHole hint limit size (2 ^ i) slot alloc]) =
          some (s', answers ++ [.hole code slot']) ∧ SpecRun Spec ∅ calls answers S ∧
      ((∀ t ∈ S, ¬ (t.key < hint ∧ hint < t.stop)) → code ≠ -eagain ∧
        (alloc.leaf ≠ none → (∃ a, 2 ^ i ∣ a ∧ hint ≤ a ∧ a + size ≤ limit ∧ S.FreeAt a size) →
          code = 0)) := by
  obtain ⟨s', S', answers, hrun, hspec, -⟩ := run_stores h htop
    (by simp only [List.length_append, List.length_cons, List.length_nil]; omega) hcalls
  obtain ⟨answers₁, answers₂, S, rfl, hbefore, hspec⟩ := hspec.split
  obtain ⟨answer, rfl, hlast⟩ := hspec.of_singleton
  obtain ⟨code, slot', rfl⟩ : ∃ code slot', answer = .hole code slot' := by
    cases hlast <;> exact ⟨_, _, rfl⟩
  refine ⟨s', S, answers₁, code, slot', hrun, hbefore, fun hhint ↦ ?_⟩
  have hall := aligned_of_specRun hbefore haligned fun t ht ↦ absurd ht ExtentSet.not_mem_empty
  have hne := hlast.ne_eagain (Nat.two_pow_pos i) hall hhint
  exact ⟨hne, fun hleaf hroom ↦ (hlast.eq_zero hleaf hroom).resolve_right hne⟩

theorem insertHole_finds_room_twoInserts :
    ∃ s' S answers code slot', run (step 6) (State.blank : State ℕ).slInitList
        (twoInserts ++ [.insertHole 0 16384 4096 (2 ^ 12) ⟨0, 0, 10⟩ ⟨0, some 5, none⟩]) =
          some (s', answers ++ [.hole code slot']) ∧ SpecRun Spec ∅ twoInserts answers S ∧
      ((∀ t ∈ S, ¬ (t.key < 0 ∧ 0 < t.stop)) → code ≠ -eagain ∧
        (some 5 ≠ none → (∃ a, 2 ^ 12 ∣ a ∧ 0 ≤ a ∧ a + 4096 ≤ 16384 ∧ S.FreeAt a 4096) →
          code = 0)) :=
  insertHole_finds_room State.blank_blank (show 65536 < 2 ^ 64 by decide) (by decide)
    (by decide +kernel) (by simp [twoInserts, Call.Aligned])

/-- **The lookup under RCU agrees with the one that takes a lock.** In every state that a run reaches
they find something for the same ranges, and for a single key they find the same extent. -/
theorem skiplistLookups_agree {key size : ℕ} (h : s.Blank) (htop : top < 2 ^ 64)
    (hfuel : calls.length + 1 < fuel)
    (hcalls : AdmissibleRun (step fuel) (Admissible top) s.slInitList calls)
    (hrange : key + size < 2 ^ 64) :
    ∃ s' answers ret ret', run (step fuel) s.slInitList calls = some (s', answers) ∧
      s'.skiplistLookup fuel key size fuel = some (ret, s') ∧
      s'.skiplistLookupRcu fuel key size fuel = some ret' ∧ (ret = none ↔ ret' = none) ∧
        (size = 1 → ret = ret') := by
  obtain ⟨s', S, answers, hrun, -, entries, hsound, -, hlength, -⟩ := run_stores h htop hfuel hcalls
  have hfuel' : entries.length < fuel := by omega
  obtain ⟨rounds, rfl⟩ := Nat.exists_eq_add_one.mpr (Nat.zero_lt_of_lt hfuel')
  obtain ⟨ret, ret', hlookup, hrcu, hagree, hsame⟩ :=
    hsound.linked.lookups_agree rounds hsound.unlocked hrange hfuel'
  exact ⟨s', answers, ret, ret', hrun, hlookup, hrcu, hagree, hsame⟩

theorem skiplistLookups_agree_twoInserts :
    ∃ s' answers ret ret',
      run (step 6) (State.blank : State ℕ).slInitList twoInserts = some (s', answers) ∧
        s'.skiplistLookup 6 4100 1 6 = some (ret, s') ∧
        s'.skiplistLookupRcu 6 4100 1 6 = some ret' ∧ (ret = none ↔ ret' = none) ∧
          (1 = 1 → ret = ret') :=
  skiplistLookups_agree State.blank_blank (show 65536 < 2 ^ 64 by decide) (by decide)
    (by decide +kernel) (by decide)

end Runs

end ParallelPrograms.ExtentList
