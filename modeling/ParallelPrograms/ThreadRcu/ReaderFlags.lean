import ParallelPrograms.ThreadRcu.GracePeriod

/-!
# The flags of readers that are gone

`rcu_read_lock` stores 1 into the slot of the index it reads, and `rcu_read_unlock` stores 0 into
the slot of the index it reads. When the index has been incremented an odd number of times in
between, the unlock misses the flag. The reader is then outside with a flag that a later scan of
`synchronize_rcu` waits for. No flag is left behind as long as every unlock reads an index that
selects the slot of its section's flag.
-/

namespace ParallelPrograms.ThreadRcu

open Concurrency

variable {Rid Uid : Type*} [DecidableEq Rid] [DecidableEq Uid] {nodes : List Rid}
  {s : State Rid Uid}

/-- An unlock that reads the index finds the flag of its section in the slot that the index
selects. -/
def UnlocksOwnSlot (s : State Rid Uid) : Action Rid Uid → Prop
  | .unlockRead r => s.nesting r (slot s.idx) = 1
  | _ => True

/-- The slots of a thread with a flag in slot `i`. -/
def flagIn (i : Fin 2) : Fin 2 → ℤ := Function.update (fun _ ↦ 0) i 1

/-- The slots of a thread, by where it is. -/
def ReaderPc.Flags (slots : Fin 2 → ℤ) : ReaderPc → Prop
  | outside | locking _ => slots = fun _ ↦ 0
  | inside => ∃ i, slots = flagIn i
  | unlocking idx => slots = flagIn (slot idx)

/-- Every thread has its flag in one slot while it is in its section, and none otherwise. -/
def Flagged (s : State Rid Uid) : Prop := ∀ r, (s.readers r).Flags (s.nesting r)

theorem update_flagIn (i : Fin 2) : Function.update (flagIn i) i 0 = fun _ ↦ 0 := by
  funext j
  simp [flagIn]

theorem flagIn_eq_one_iff {i j : Fin 2} : flagIn i j = 1 ↔ j = i := by
  simp [flagIn, Function.update_apply]

omit [DecidableEq Rid] [DecidableEq Uid] in
theorem flagged_initial : Flagged (initial Rid Uid) := fun _ ↦ rfl

omit [DecidableEq Uid] in
/-- One thread moves and writes to its own slots. -/
theorem Flagged.move (h : Flagged s) {s' : State Rid Uid} {r : Rid} {pc : ReaderPc}
    {slots : Fin 2 → ℤ} (hreaders : s'.readers = Function.update s.readers r pc)
    (hnesting : s'.nesting = Function.update s.nesting r slots) (hflags : pc.Flags slots) :
    Flagged s' := by
  intro r'
  rw [hreaders, hnesting]
  by_cases heq : r' = r
  · subst heq
    simpa using hflags
  · simpa [heq] using h r'

theorem Flagged.update (h : Flagged s) {a : Action Rid Uid} (hguard : guard nodes s a)
    (hslot : UnlocksOwnSlot s a) : Flagged (update nodes s a) := by
  cases a with
  | lockRead r =>
    have hr := h r
    rw [hguard.2] at hr
    exact h.move rfl (Function.update_eq_self ..).symm hr
  | lockWrite r =>
    obtain ⟨idx, hpc⟩ := hguard
    have hr := h r
    rw [hpc] at hr
    simp only [ThreadRcu.update, hpc]
    exact h.move rfl rfl ⟨slot idx, by rw [hr]; rfl⟩
  | unlockRead r =>
    obtain ⟨i, hr⟩ : ∃ i, s.nesting r = flagIn i := by
      have hr := h r
      rwa [show s.readers r = .inside from hguard] at hr
    have hi : slot s.idx = i := by
      rw [← flagIn_eq_one_iff, ← hr]
      exact hslot
    have hflags : (ReaderPc.unlocking s.idx).Flags (s.nesting r) := by
      rw [hr, ← hi]
      rfl
    exact h.move rfl (Function.update_eq_self ..).symm hflags
  | unlockWrite r =>
    obtain ⟨idx, hpc⟩ := hguard
    have hr := h r
    rw [hpc] at hr
    simp only [ThreadRcu.update, hpc]
    exact h.move rfl rfl (by rw [hr]; exact update_flagIn _)
  | readIdx | readSlot =>
    simp only [ThreadRcu.update]
    split <;> first | exact h | split_ifs <;> exact h
  | _ => exact h

/-- The accesses of a scan that never waits. -/
def scan (u : Uid) (rest : List Rid) : List (Action Rid Uid) :=
  rest.flatMap fun _ ↦ [.readIdx u, .readSlot u]

omit [DecidableEq Rid] [DecidableEq Uid] in
theorem Flagged.outside (h : Flagged s) {r : Rid} (houtside : s.readers r = .outside) (i : Fin 2) :
    s.nesting r i = 0 := by
  have hr := h r
  rw [houtside] at hr
  exact congrFun hr i

theorem scan_passes (h : Flagged s) (houtside : ∀ r, s.readers r = .outside) {u : Uid}
    {rest : List Rid} (hu : s.updaters u = .scanning rest) :
    (machine Rid Uid nodes).Legal s (scan u rest) ∧
      ((machine Rid Uid nodes).final s (scan u rest)).updaters u = .scanning [] := by
  induction rest generalizing s with
  | nil => exact ⟨trivial, hu⟩
  | cons node rest ih =>
    have hslot : ¬ s.nesting node (slot s.idx) % 2 = 1 := by
      rw [h.outside (houtside node)]
      decide
    have hread : update nodes s (.readIdx u) = s.gotoUpdater u (.testing s.idx node rest) := by
      simp only [update, hu]
    have htest : update nodes (s.gotoUpdater u (.testing s.idx node rest)) (.readSlot u) =
        (s.gotoUpdater u (.testing s.idx node rest)).gotoUpdater u (.scanning rest) := by
      simp only [update, State.gotoUpdater_updaters, if_true, State.gotoUpdater_nesting, hslot,
        if_false]
    obtain ⟨hlegal, hfinal⟩ := ih
      (s := (s.gotoUpdater u (.testing s.idx node rest)).gotoUpdater u (.scanning rest)) h houtside
      (Function.update_self ..)
    rw [scan, List.flatMap_cons, ← scan, List.cons_append, List.singleton_append,
      Machine.legal_cons, Machine.legal_cons, Machine.final_cons, Machine.final_cons,
      machine_update, machine_update, hread, htest]
    refine ⟨⟨⟨node, rest, hu⟩, ⟨s.idx, node, rest, ?_⟩, hlegal⟩, hfinal⟩
    exact Function.update_self ..

/-- A thread outside its section, and not inside a lock or an unlock, has no flag. When no thread
is reading, a scan takes one round for each node. -/
structure NoStaleFlag (nodes : List Rid) (s : State Rid Uid) : Prop where
  outside : ∀ r, s.readers r = .outside → ∀ i, s.nesting r i = 0
  passes : (∀ r, s.readers r = .outside) → ∀ u rest, s.updaters u = .scanning rest →
    (machine Rid Uid nodes).Legal s (scan u rest) ∧
      ((machine Rid Uid nodes).final s (scan u rest)).updaters u = .scanning []

theorem Flagged.noStaleFlag (h : Flagged s) : NoStaleFlag nodes s :=
  ⟨fun _ hr ↦ h.outside hr, fun houtside _ _ hu ↦ scan_passes h houtside hu⟩

theorem flagged_of_meets {history : List (Action Rid Uid)}
    (hlegal : (machine Rid Uid nodes).Legal (initial Rid Uid) history)
    (hslots : (machine Rid Uid nodes).Meets UnlocksOwnSlot (initial Rid Uid) history) :
    Flagged (after nodes history) := by
  apply Machine.meets_induction (fun _ s ↦ Flagged s) flagged_initial _ hlegal hslots
  exact fun history a _ ih hguard hslot ↦ ih.update hguard hslot

/-- The reader has missed its flag. -/
def Missed (r : Rid) (s : State Rid Uid) : Prop :=
  ∃ idx i, s.readers r = .unlocking idx ∧ i ≠ slot idx ∧ s.nesting r i = 1

theorem Missed.update {r : Rid} (h : Missed r s) {a : Action Rid Uid} (hguard : guard nodes s a)
    (ha : a ≠ .unlockWrite r) : Missed r (update nodes s a) := by
  obtain ⟨idx, i, hpc, hne, hflag⟩ := h
  refine ⟨idx, i, ?_, hne, ?_⟩ <;> cases a <;> grind [ThreadRcu.update, guard]

/-- The unlock that misses its flag leaves it behind. -/
theorem Missed.unlockWrite {r : Rid} (h : Missed r s) :
    ¬ NoStaleFlag nodes (ThreadRcu.update nodes s (.unlockWrite r)) := by
  obtain ⟨idx, i, hpc, hne, hflag⟩ := h
  intro hclear
  have hslots := hclear.outside r
  simp only [ThreadRcu.update, hpc, State.gotoReader_readers, if_true, forall_const] at hslots
  have hzero := hslots i
  rw [State.gotoReader_nesting, State.setNesting_nesting, if_neg fun h ↦ hne h.2] at hzero
  omega

/-- An unlock that reads the wrong slot leaves a stale flag when it completes. -/
theorem meets_of_noStaleFlag {history : List (Action Rid Uid)}
    (hlegal : (machine Rid Uid nodes).Legal (initial Rid Uid) history)
    (hdone : ∀ r, (after nodes history).readers r = .outside)
    (hclear : ∀ before, before <+: history → NoStaleFlag nodes (after nodes before)) :
    (machine Rid Uid nodes).Meets UnlocksOwnSlot (initial Rid Uid) history := by
  by_contra hnot
  obtain ⟨before, a, rest, rfl, hmeets, hbad⟩ := Machine.exists_of_not_meets _ hnot
  obtain ⟨hbefore, hguard, -⟩ := (Machine.legal_append ..).mp hlegal
  obtain ⟨r, rfl, hslot⟩ : ∃ r, a = .unlockRead r ∧
      (after nodes before).nesting r (slot (after nodes before).idx) ≠ 1 := by
    cases a with
    | unlockRead r => exact ⟨r, rfl, hbad⟩
    | _ => exact absurd trivial hbad
  have hinside : (after nodes before).readers r = .inside := hguard
  obtain ⟨i, hi⟩ : ∃ i, (after nodes before).nesting r = flagIn i := by
    have hr := flagged_of_meets hbefore hmeets r
    rwa [hinside] at hr
  rw [hi] at hslot
  have hmissed : Missed r (after nodes (before ++ [.unlockRead r])) := by
    rw [after_append]
    refine ⟨(after nodes before).idx, i, Function.update_self .., ?_, ?_⟩
    · rintro rfl
      exact hslot (flagIn_eq_one_iff.mpr rfl)
    · exact (congrFun hi i).trans (flagIn_eq_one_iff.mpr rfl)
  rw [List.append_cons] at hlegal hclear hdone
  obtain ⟨hrun, hrest⟩ := legal_after hlegal
  have hend : ¬ Missed r
      ((machine Rid Uid nodes).final (after nodes (before ++ [.unlockRead r])) rest) := by
    rintro ⟨idx, -, hpc, -⟩
    rw [← after_append, hdone] at hpc
    cases hpc
  obtain ⟨first, a, second, rfl, rfl, hlast⟩ := hrun.exists_stop (Missed r)
    (fun a ↦ a = .unlockWrite r) (fun _ s a _ hs ha hguard ↦ hs.update hguard ha) hrest hmissed hend
  rw [List.append_cons first, ← List.append_assoc, ← List.append_assoc] at hclear
  have hlater := hclear _ (List.prefix_append _ second)
  rw [after_append, after_append] at hlater
  exact hlast.unlockWrite hlater

/-- **No flag is left behind** in a run in which every unlock reads the slot of its section's
flag. When all sections of a run have ended, the converse holds too. -/
theorem no_stale_flag_iff (nodes : List Rid) {history : List (Action Rid Uid)}
    (hlegal : (machine Rid Uid nodes).Legal (initial Rid Uid) history) :
    ((machine Rid Uid nodes).Meets UnlocksOwnSlot (initial Rid Uid) history →
      ∀ before, before <+: history → NoStaleFlag nodes (after nodes before)) ∧
    ((∀ r, (after nodes history).readers r = .outside) →
      (∀ before, before <+: history → NoStaleFlag nodes (after nodes before)) →
        (machine Rid Uid nodes).Meets UnlocksOwnSlot (initial Rid Uid) history) := by
  refine ⟨fun hslots before hbefore ↦ ?_, meets_of_noStaleFlag hlegal⟩
  have hflagged := flagged_of_meets (hlegal.of_prefix hbefore) (hslots.of_prefix hbefore)
  exact hflagged.noStaleFlag

/-- The section sees one increment of the index, before its lock. -/
def lateHistory : List (Action Unit Unit) :=
  [.call (), .acquire (), .readIdx (), .readSlot (), .flip (), .lockRead (), .lockWrite (),
    .release (), .unlockRead (), .unlockWrite ()]

theorem no_stale_flag_late : NoStaleFlag [()] (after [()] lateHistory) := by
  have hlegal : (machine Unit Unit [()]).Legal (initial Unit Unit) lateHistory :=
    ⟨rfl, ⟨rfl, rfl⟩, ⟨(), [], rfl⟩, ⟨0, (), [], rfl⟩, rfl, ⟨by decide, rfl⟩, ⟨1, rfl⟩, rfl, rfl,
      ⟨1, rfl⟩, trivial⟩
  have hslots : (machine Unit Unit [()]).Meets UnlocksOwnSlot (initial Unit Unit) lateHistory :=
    ⟨trivial, trivial, trivial, trivial, trivial, trivial, trivial, trivial, rfl, trivial, trivial⟩
  exact (no_stale_flag_iff [()] hlegal).1 hslots lateHistory List.prefix_rfl

/-- The index is incremented while the section is open, after the scan has passed the thread. -/
def staleHistory : List (Action Unit Unit) :=
  [.call (), .acquire (), .readIdx (), .readSlot (), .lockRead (), .lockWrite (), .flip (),
    .release (), .unlockRead (), .unlockWrite ()]

theorem stale_flag :
    ¬ ∀ history, (machine Unit Unit [()]).Legal (initial Unit Unit) history →
      NoStaleFlag [()] (after [()] history) := by
  intro hclear
  have hlegal : (machine Unit Unit [()]).Legal (initial Unit Unit) staleHistory :=
    ⟨rfl, ⟨rfl, rfl⟩, ⟨(), [], rfl⟩, ⟨0, (), [], rfl⟩, ⟨by decide, rfl⟩, ⟨0, rfl⟩, rfl, rfl, rfl,
      ⟨1, rfl⟩, trivial⟩
  have hzero := (hclear staleHistory hlegal).outside () rfl 0
  exact absurd hzero (by decide)

end ParallelPrograms.ThreadRcu
