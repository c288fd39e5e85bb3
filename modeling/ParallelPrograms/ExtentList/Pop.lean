import ParallelPrograms.ExtentList.Benchmark

/-!
# Popping extents

`pop_one_skiplist` of `skiplist_test.c` deletes up to 128 extents behind a key and inserts them
again. It does not look at the result of `kzalloc`: without the array the first extent that it
deletes is stored through NULL. When there is no memory for a leaf it returns at once, and the
extents that it has not inserted yet are lost: they are in no list, and nobody frees them.
-/

namespace ParallelPrograms.ExtentList

open Sequence Refinement

variable {α : Type}

namespace State

/-- The loop of `pop_one_skiplist` that deletes, with `count` rounds left and `beyond` behind the
arrays of the leaves. `array` says whether `kzalloc` has returned the array of the victims. -/
def popFrom (fuel nrVictims key : ℕ) (array : Bool) (beyond : ℕ → ℕ × Option (SlSlot α)) :
    ℕ → ℕ → List (SlSlot α) → State α → Option (List (SlSlot α) × State α)
  | 0, _, victims, s => some (victims, s)
  | count + 1, loops, victims, s =>
    if victims.length < nrVictims then do
      let (slot, s) ← s.skiplistDelete fuel (ulong (key + (loops + 1) * 4096)) 1024 (beyond loops)
        fuel
      match slot with
      | none => popFrom fuel nrVictims key array beyond count (loops + 1) victims s
      | some slot =>
        -- `victims[found] = slot`
        if array then
          popFrom fuel nrVictims key array beyond count (loops + 1) (victims ++ [slot]) s
        else none
    else some (victims, s)

/-- The loop of `pop_one_skiplist` that inserts the victims from number `i` on. -/
def reinsert (fuel : ℕ) (allocs : ℕ → Alloc) :
    List (SlSlot α) → ℕ → State α → Option (ℤ × State α)
  | [], _, s => some (0, s)
  | victim :: victims, i, s => do
    let (preloadToken, s) := s.skiplistPreload (allocs i).randseed (allocs i).leaf (allocs i).leaf0
    if preloadToken < 0 then return (preloadToken, s)
    else
      let (ret, s) ← s.skiplistInsert fuel victim preloadToken.toNat
      if ret ≠ 0 then return (ret, s.preemptEnable)
      else reinsert fuel allocs victims (i + 1) s.preemptEnable

/-- `pop_one_skiplist(skiplist, key)` -/
def popOneSkiplist (fuel items key : ℕ) (array : Bool) (beyond : ℕ → ℕ × Option (SlSlot α))
    (allocs : ℕ → Alloc) (s : State α) : Option (ℤ × State α) := do
  let (victims, s) ← s.popFrom fuel (min 128 (items / 2)) key array beyond 256 0 []
  s.reinsert fuel allocs victims 0

end State

/-- The insertions of the second loop. -/
def reinsertCalls (allocs : ℕ → Alloc) : List (SlSlot α) → ℕ → List (Call α)
  | [], _ => []
  | victim :: victims, i =>
    .insert victim.key victim.size (some victim.entry) (allocs i) ::
      reinsertCalls allocs victims (i + 1)

/-- The second loop, from victim number `i` on, stops at the victim `j` places further on, for which
`skiplist_preload` allocates no leaf. -/
structure LeafMissing (fuel : ℕ) (allocs : ℕ → Alloc) (victims : List (SlSlot α)) (i : ℕ)
    (s : State α) (j : ℕ) (s' : State α) : Prop where
  lt : j < victims.length
  leaf : (allocs (i + j)).leaf = none
  preload : ∃ s₁, s.reinsert fuel allocs (victims.take j) i = some (0, s₁) ∧
    s₁.skiplistPreload (allocs (i + j)).randseed (allocs (i + j)).leaf (allocs (i + j)).leaf0 =
      (-enomem, s')

section Pop

variable {s s' : State α} {slots rest victims : List (SlSlot α)} {allocs : ℕ → Alloc}
  {beyond : ℕ → ℕ × Option (SlSlot α)} {array : Bool} {i fuel items nrVictims key top : ℕ}

/-- A victim is inserted like a new extent. -/
theorem State.reinsert_cons (victim : SlSlot α) :
    s.reinsert fuel allocs (victim :: victims) i =
      (s.insertOneSkiplist fuel victim.key victim.size (some victim.entry) (allocs i)).bind fun r ↦
        if r.1 ≠ 0 then some r else r.2.reinsert fuel allocs victims (i + 1) := by
  rw [State.reinsert, State.insertOneSkiplist]
  generalize s.skiplistPreload (allocs i).randseed (allocs i).leaf (allocs i).leaf0 = preloaded
  obtain ⟨token, s₁⟩ := preloaded
  by_cases htoken : token < 0
  · simp [htoken, htoken.ne]
  · simp only [htoken, if_false]
    cases s₁.skiplistInsert fuel victim token.toNat with
    | none => rfl
    | some r =>
      by_cases hret : r.1 = 0
      · simp [hret]
      · simp [hret]

/-- A stop later on. -/
theorem LeafMissing.cons {s₁ : State α} {victim : SlSlot α} {j : ℕ}
    (h : LeafMissing fuel allocs victims (i + 1) s₁ j s')
    (hrun : s.insertOneSkiplist fuel victim.key victim.size (some victim.entry) (allocs i) =
      some (0, s₁)) : LeafMissing fuel allocs (victim :: victims) i s (j + 1) s' := by
  obtain ⟨hlt, hleaf, s₂, hbefore, hpreload⟩ := h
  have hindex : i + 1 + j = i + (j + 1) := by omega
  rw [hindex] at hleaf hpreload
  refine ⟨Nat.succ_lt_succ hlt, hleaf, s₂, ?_, hpreload⟩
  rw [List.take_succ_cons, State.reinsert_cons, hrun]
  exact hbefore

/-- **The first loop** keeps the extents that it does not delete. Without the array it gets through
when there is nothing to delete. -/
theorem Keeps.popFrom_eq (count loops : ℕ) (h : Keeps s rest) (hperm : (victims ++ rest).Perm slots)
    (hkey : key + (loops + count) * 4096 + 1024 < 2 ^ 64) (hfuel : slots.length + 1 < fuel) :
    ∃ found s' rest', s.popFrom fuel nrVictims key true beyond count loops victims =
        some (victims ++ found, s') ∧ Keeps s' rest' ∧ (victims ++ found ++ rest').Perm slots ∧
      s.popFrom fuel nrVictims key false beyond count loops victims =
        if found = [] then some (victims, s') else none := by
  induction count generalizing loops victims s rest with
  | zero => exact ⟨[], s, rest, by rw [List.append_nil]; rfl, h, by rwa [List.append_nil], rfl⟩
  | succ count ih =>
    rw [State.popFrom, State.popFrom]
    by_cases hmore : victims.length < nrVictims
    · rw [if_pos hmore, if_pos hmore]
      have hlength : rest.length + 1 < fuel := by
        have := hperm.length_eq
        rw [List.length_append] at this
        omega
      have hnext : key + (loops + 1) * 4096 ≤ key + (loops + (count + 1)) * 4096 := by omega
      have hrange : key + (loops + 1) * 4096 + 1024 < 2 ^ 64 :=
        (Nat.add_le_add_right hnext 1024).trans_lt hkey
      have hulong : ulong (key + (loops + 1) * 4096) = key + (loops + 1) * 4096 :=
        ulong_eq (Nat.lt_of_add_right_lt hrange)
      obtain ⟨ret, s₁, rest₁, hdelete, h₁, hperm₁, -⟩ := h.skiplistDelete_eq (beyond loops)
        (show 0 < 1024 by decide) hrange hlength
      have hkey' : key + (loops + 1 + count) * 4096 + 1024 < 2 ^ 64 := by
        rw [Nat.add_right_comm loops 1 count]
        exact hkey
      simp only [hulong, hdelete, Option.bind_eq_bind, Option.bind_some]
      cases ret with
      | none => exact ih (loops + 1) h₁ ((hperm₁.append_left victims).trans hperm) hkey'
      | some slot =>
        have hperm₂ : (victims ++ [slot] ++ rest₁).Perm slots := by
          rw [List.append_assoc]
          exact (hperm₁.append_left victims).trans hperm
        obtain ⟨found, s', rest', hpop, h', hperm', -⟩ := ih (loops + 1) h₁ hperm₂ hkey'
        rw [List.append_assoc victims, List.singleton_append] at hpop hperm'
        exact ⟨slot :: found, s', rest', hpop, h', hperm', rfl⟩
    · rw [if_neg hmore, if_neg hmore]
      exact ⟨[], s, rest, by rw [List.append_nil], h, by rwa [List.append_nil], rfl⟩

/-- **The second loop** inserts all victims, or stops for want of memory. -/
theorem Keeps.reinsert_eq (h : Keeps s rest) (hslots : Extents slots)
    (hperm : (victims ++ rest).Perm slots) (htop : top < 2 ^ 64) (hfuel : slots.length < fuel)
    (hcalls : AdmissibleRun (step fuel) (Admissible top) s (reinsertCalls allocs victims i)) :
    ∃ ret s' slots' lost, s.reinsert fuel allocs victims i = some (ret, s') ∧ Keeps s' slots' ∧
      (lost ++ slots').Perm slots ∧ (ret = 0 ∧ lost = [] ∨
        ret = -enomem ∧ ∃ j, LeafMissing fuel allocs victims i s j s' ∧ lost = victims.drop j) := by
  induction victims generalizing s rest i with
  | nil => exact ⟨0, s, rest, [], rfl, h, hperm, .inl ⟨rfl, rfl⟩⟩
  | cons victim victims ih =>
    rw [reinsertCalls] at hcalls
    obtain ⟨⟨hsize, hle, halloc⟩, hrest⟩ := hcalls
    have hvictim : victim ∈ slots := hperm.subset (by simp)
    have hnodup : (victim :: (victims ++ rest)).Nodup :=
      hperm.nodup_iff.mpr (hslots.apart.nodup hslots.nonempty)
    have hfree : ∀ t ∈ rest, ¬ Overlaps victim.key victim.size t := by
      intro t ht hmeets
      have hmem : t ∈ slots := hperm.subset (by simp [ht])
      obtain rfl := hslots.apart.separate.eq_of_meets hvictim hmem (hslots.nonempty t hmem)
        (Nat.lt_add_of_pos_right hsize) le_rfl le_rfl hmeets
      exact (List.nodup_cons.mp hnodup).1 (List.mem_append_right _ ht)
    have hlength : rest.length < fuel := by
      have := hperm.length_eq
      rw [List.length_append] at this
      omega
    have hfits := hle.trans_lt htop
    obtain ⟨ret, s₁, slots₁, hrun, h₁, hret⟩ := h.insertOneSkiplist_eq victim.entry hfree halloc
      hsize hfits hlength
    rw [State.reinsert_cons, hrun, Option.bind_some]
    rcases hret with ⟨rfl, hperm₁⟩ | ⟨rfl, hnone, rfl⟩
    · have hperm₂ : (victims ++ slots₁).Perm slots :=
        ((hperm₁.append_left victims).trans List.perm_middle).trans hperm
      obtain ⟨ret, s', slots', lost, hre, h', hlost, hret⟩ := ih h₁ hperm₂
        (hrest _ (step_insert hrun))
      refine ⟨ret, s', slots', lost, hre, h', hlost, ?_⟩
      rcases hret with hdone | ⟨hret, j, hmissing, hdrop⟩
      · exact .inl hdone
      · exact .inr ⟨hret, j + 1, hmissing.cons hrun, hdrop⟩
    · have hpreload := h.skiplistPreload_of_enomem halloc hsize hfits hlength hrun
      exact ⟨-enomem, s₁, slots₁, victim :: victims, rfl, h₁, hperm,
        .inr ⟨rfl, 0, ⟨Nat.succ_pos _, hnone, s, rfl, hpreload⟩, rfl⟩⟩

/-- **`pop_one_skiplist` restores the list or loses extents.** Whatever the list holds, the call
gets through if and only if the array of the victims was allocated or nothing is deleted. It returns
0 when all extents are back, and then the list holds what it held before. Otherwise
`skiplist_preload` has allocated no leaf for some victim, the call returns `-ENOMEM`, and this
victim and those behind it are neither in the list nor given back. -/
theorem popOneSkiplist_restores_or_loses (h : Keeps s slots)
    (hkey : key + 256 * 4096 + 1024 < 2 ^ 64) (htop : top < 2 ^ 64)
    (hfuel : slots.length + 1 < fuel)
    (hcalls : ∀ r ∈ s.popFrom fuel (min 128 (items / 2)) key true beyond 256 0 [],
      AdmissibleRun (step fuel) (Admissible top) r.2 (reinsertCalls allocs r.1 0)) :
    ∃ victims s₁ rest, s.popFrom fuel (min 128 (items / 2)) key true beyond 256 0 [] =
        some (victims, s₁) ∧ Keeps s₁ rest ∧ (victims ++ rest).Perm slots ∧
      (array = false → victims ≠ [] →
        s.popOneSkiplist fuel items key array beyond allocs = none) ∧
      (array = true ∨ victims = [] → ∃ ret s' slots' lost,
        s.popOneSkiplist fuel items key array beyond allocs = some (ret, s') ∧ Keeps s' slots' ∧
          (lost ++ slots').Perm slots ∧ (ret = 0 ∧ slots' = slots ∨
            ret = -enomem ∧ lost ≠ [] ∧ ∃ j, LeafMissing fuel allocs victims 0 s₁ j s' ∧
              lost = victims.drop j)) := by
  have hkey' : key + (0 + 256) * 4096 + 1024 < 2 ^ 64 := by
    rw [Nat.zero_add]
    exact hkey
  obtain ⟨victims, s₁, rest, hpop, h₁, hperm, hnull⟩ := h.popFrom_eq 256 0
    (show ([] ++ slots).Perm slots from .refl _) hkey' hfuel
  rw [List.nil_append] at hpop hperm
  refine ⟨victims, s₁, rest, hpop, h₁, hperm, ?_, fun hthrough ↦ ?_⟩
  · rintro rfl hne
    rw [State.popOneSkiplist, hnull, if_neg hne]
    rfl
  · obtain ⟨ret, s', slots', lost, hre, h', hlost, hret⟩ := h₁.reinsert_eq h.extents hperm htop
      (Nat.lt_of_succ_lt hfuel) (hcalls _ hpop)
    have hfirst : s.popFrom fuel (min 128 (items / 2)) key array beyond 256 0 [] =
        some (victims, s₁) := by
      cases array with
      | true => exact hpop
      | false =>
        obtain rfl := hthrough.resolve_left Bool.false_ne_true
        exact hnull
    refine ⟨ret, s', slots', lost, by rw [State.popOneSkiplist, hfirst]; exact hre, h', hlost, ?_⟩
    rcases hret with ⟨rfl, rfl⟩ | ⟨rfl, j, hmissing, rfl⟩
    · exact .inl ⟨rfl, h'.eq_of_perm h.extents hlost⟩
    · have hlt := hmissing.lt
      exact .inr ⟨rfl, by simpa using hlt, j, hmissing, rfl⟩

/-- The second of three items is popped: without the array through NULL, with it there is memory to
insert it again. -/
theorem popOneSkiplist_restores_or_loses_three :
    ∃ s : State ℕ, Keeps s (itemsFrom id 0 3) ∧
      s.popOneSkiplist 5 3 0 false (fun _ ↦ (0, none)) (fun i ↦ someAllocs (i + 3)) = none ∧
      ∃ s', s.popOneSkiplist 5 3 0 true (fun _ ↦ (0, none)) (fun i ↦ someAllocs (i + 3)) =
        some (0, s') ∧ Keeps s' (itemsFrom id 0 3) := by
  have hempty : Keeps (State.blank : State ℕ).slInitList (itemsFrom id 0 0) :=
    ⟨[], State.blank_blank.sound, rfl⟩
  have hadmissible : AdmissibleRun (step 5) (Admissible 12288) (State.blank : State ℕ).slInitList
      (fillCalls id someAllocs 0 3) := by
    decide +kernel
  obtain ⟨s, hfill, h⟩ := hempty.fillFrom_eq 3 (by decide) (by decide)
    (fun i _ ↦ Option.some_ne_none _) hadmissible
  have hfresh : ∀ r ∈ (State.blank : State ℕ).slInitList.fillFrom 5 (fun i ↦ some (id i)) someAllocs
      3 0, ∀ r' ∈ r.2.popFrom 5 (min 128 (3 / 2)) 0 true (fun _ ↦ (0, none)) 256 0 [],
        r'.1 ≠ [] ∧ AdmissibleRun (step 5) (Admissible 12288) r'.2
          (reinsertCalls (fun i ↦ someAllocs (i + 3)) r'.1 0) := by
    decide +kernel
  have hpopped := hfresh (0, s) hfill
  have hkey : 0 + 256 * 4096 + 1024 < 2 ^ 64 := by decide
  have htop : 12288 < 2 ^ 64 := by decide
  have hfuel : (itemsFrom (id : ℕ → ℕ) 0 3).length + 1 < 5 := by decide
  have hcalls := fun r hr ↦ (hpopped r hr).2
  obtain ⟨victims, s₁, _, hpop, -, -, hnull, -⟩ :=
    @popOneSkiplist_restores_or_loses ℕ s _ _ _ false _ _ _ _ h hkey htop hfuel hcalls
  obtain ⟨_, _, _, -, -, -, -, hthrough⟩ :=
    @popOneSkiplist_restores_or_loses ℕ s _ _ _ true _ _ _ _ h hkey htop hfuel hcalls
  obtain ⟨ret, s', slots', lost, hrun, h', -, hret⟩ := hthrough (.inl rfl)
  refine ⟨s, h, hnull rfl (hpopped _ hpop).1, s', ?_⟩
  rcases hret with ⟨rfl, rfl⟩ | ⟨-, -, j, hmissing, -⟩
  · exact ⟨hrun, h'⟩
  · exact absurd hmissing.leaf (Option.some_ne_none _)

end Pop

end ParallelPrograms.ExtentList
