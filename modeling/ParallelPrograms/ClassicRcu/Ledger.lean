import ParallelPrograms.ClassicRcu.Model
import Mathlib.Data.List.Nodup

/-!
# What becomes of the assigned objects

An object is published when it is stored to `gp`, collected when it is put on the list, and
returned when `lrcu_assign_pointer` returns it as the old pointer. The lock keeps the collections
and the returns in one order. When every collection takes the object that is in `gp` at that moment,
the published objects are the collected ones, in order, and then the current one. A collection of
any other object collects it a second time, because every object that an updater can have read from
`gp` has been collected as soon as it is no longer in `gp`.
-/

namespace ParallelPrograms.ClassicRcu

open Concurrency

variable {Cpu Rid Uid Wid Obj : Type*}

namespace Action

/-- The object that the action stores to `gp`. -/
def published? : Action Cpu Rid Uid Wid Obj → Option Obj
  | store _ newp => some newp
  | _ => none

/-- The object that the action puts on the list. -/
def collected? : Action Cpu Rid Uid Wid Obj → Option Obj
  | collect _ oldp => oldp
  | _ => none

/-- The object that `lrcu_assign_pointer` returns. -/
def returned? : Action Cpu Rid Uid Wid Obj → Option Obj
  | unlock _ rev => rev
  | _ => none

end Action

/-- The objects that have been in `gp`, oldest first. -/
def published (start : State Cpu Rid Uid Wid Obj) (history : List (Action Cpu Rid Uid Wid Obj)) :
    List Obj := start.gp.toList ++ history.filterMap Action.published?

/-- The objects that have been collected, oldest first. -/
def collected (history : List (Action Cpu Rid Uid Wid Obj)) : List Obj :=
  history.filterMap Action.collected?

/-- The objects that calls of `lrcu_assign_pointer` have returned, oldest first. -/
def returned (history : List (Action Cpu Rid Uid Wid Obj)) : List Obj :=
  history.filterMap Action.returned?

section Logs

variable (start : State Cpu Rid Uid Wid Obj) (history : List (Action Cpu Rid Uid Wid Obj))
  (a : Action Cpu Rid Uid Wid Obj)

@[simp, grind =]
theorem published_concat :
    published start (history ++ [a]) = published start history ++ a.published?.toList := by
  simp [published, List.filterMap_append, List.filterMap_cons, List.append_assoc]
  cases a.published? <;> rfl

@[simp, grind =]
theorem collected_concat :
    collected (history ++ [a]) = collected history ++ a.collected?.toList := by
  simp [collected, List.filterMap_append, List.filterMap_cons]
  cases a.collected? <;> rfl

@[simp, grind =]
theorem returned_concat : returned (history ++ [a]) = returned history ++ a.returned?.toList := by
  simp [returned, List.filterMap_append, List.filterMap_cons]
  cases a.returned? <;> rfl

end Logs

/-- Every published object is either the current one or has been returned by exactly one call. -/
def Conserved [DecidableEq Obj] (start : State Cpu Rid Uid Wid Obj)
    (history : List (Action Cpu Rid Uid Wid Obj)) (s : State Cpu Rid Uid Wid Obj) : Prop :=
  ∀ p ∈ published start history, (returned history).count p = if s.gp = some p then 0 else 1

/-- `gp` holds the collected object at the moment of the collection. -/
def Current (s : State Cpu Rid Uid Wid Obj) (a : Action Cpu Rid Uid Wid Obj) : Prop :=
  ∀ u oldp, a = .collect u oldp → s.gp = oldp

/-! ## What a step does -/

/-- The new object, until it is published. -/
def UpdaterPc.newp? : UpdaterPc Cpu Obj → Option Obj
  | owning newp | collecting newp _ | publishing newp _ => some newp
  | idle | unlocking _ | returned _ | visiting .. | emptying .. | freeing _ => none

/-- The old object, from its collection until it is freed. -/
def UpdaterPc.oldp? : UpdaterPc Cpu Obj → Option Obj
  | publishing _ rev | unlocking rev | returned rev => rev
  | visiting oldp _ | emptying oldp _ | freeing oldp => some oldp
  | idle | owning _ | collecting .. => none

/-- What the updater has read from `gp` but not yet collected. -/
def UpdaterPc.argument? : UpdaterPc Cpu Obj → Option (Option Obj)
  | collecting _ oldp => some oldp
  | idle | owning _ | publishing .. | unlocking _ | returned _ | visiting .. | emptying ..
  | freeing _ => none

/-- `list_lock` is owned by whoever is between `spin_lock` and `spin_unlock`. -/
structure Locked (s : State Cpu Rid Uid Wid Obj) : Prop where
  updaters : ∀ u, (s.updaters u).Holding ↔ s.listLock = some (.inl u)
  workers : ∀ w, (s.workers w).Holding ↔ s.listLock = some (.inr w)

theorem Fresh.locked {s : State Cpu Rid Uid Wid Obj} (h : Fresh s) : Locked s := by
  constructor
  · intro u
    simp [h.updaters, h.listLock, UpdaterPc.Holding]
  · intro w
    simp [h.workers, h.listLock, WorkerPc.Holding]

section Steps

variable [DecidableEq Rid] [DecidableEq Uid] [DecidableEq Wid] {online : List Cpu}
  {start s : State Cpu Rid Uid Wid Obj} {history : List (Action Cpu Rid Uid Wid Obj)}
  {a : Action Cpu Rid Uid Wid Obj} {u : Uid} {newp p : Obj} {oldp : Option Obj}

theorem Locked.update (h : Locked s) (hguard : guard online s a) : Locked (update online s a) := by
  have hupdaters := h.updaters
  have hworkers := h.workers
  constructor
  · intro v
    have := hupdaters v
    cases a <;> grind [guard, ClassicRcu.update, UpdaterPc.Holding, WorkerPc.Holding]
  · intro v
    have := hworkers v
    cases a <;> grind [guard, ClassicRcu.update, UpdaterPc.Holding, WorkerPc.Holding]

/-- A collection puts the argument in a free slot and returns it. -/
theorem update_collect (hguard : guard online s (.collect u oldp)) :
    ∃ newp i, s.updaters u = .collecting newp oldp ∧ s.list i = none ∧
      update online s (.collect u oldp) =
        ((s.setList (Function.update s.list i oldp)).setListLock (some (.inl u))).goto u
          (.publishing newp oldp) := by
  obtain ⟨⟨newp, hpc⟩, -, hfree⟩ := hguard
  obtain ⟨i, hi, hcollect⟩ := lrcuCollectOldPointer_free oldp hfree
  refine ⟨newp, i, hpc, hi, ?_⟩
  simp only [update, hpc, hcollect]

theorem update_overflow (hguard : guard online s (.overflow u)) :
    ∃ newp oldp, s.updaters u = .collecting newp oldp ∧ update online s (.overflow u) =
      ((s.setList s.list).setListLock (some (.inl u))).goto u (.publishing newp none) := by
  obtain ⟨⟨newp, oldp, hpc⟩, -, hfull⟩ := hguard
  refine ⟨newp, oldp, hpc, ?_⟩
  simp only [update, hpc, lrcuCollectOldPointer_full oldp hfull]

theorem gp_update (hguard : guard online s a) :
    (update online s a).gp = a.published?.or s.gp := by
  cases a <;> grind [guard, update, Action.published?]

theorem allocated_update :
    p ∈ (update online s a).allocated ↔ p ∈ s.allocated ∨ ∃ u, a = .kmalloc u p := by
  cases a <;> grind [update]

theorem newp?_update (hguard : guard online s a)
    (h : ((update online s a).updaters u).newp? = some newp) :
    a = .kmalloc u newp ∨ (s.updaters u).newp? = some newp ∧ a ≠ .store u newp := by
  cases a <;> grind [guard, update, UpdaterPc.newp?]

theorem oldp?_update (hguard : guard online s a)
    (h : ((update online s a).updaters u).oldp? = some p) :
    a = .collect u (some p) ∨ (s.updaters u).oldp? = some p ∧ a ≠ .kfree u p := by
  cases a with
  | collect v oldp =>
    obtain ⟨newp, i, hpc, -, hupdate⟩ := update_collect hguard
    grind [UpdaterPc.oldp?]
  | overflow v =>
    obtain ⟨newp, oldp, hpc, hupdate⟩ := update_overflow hguard
    grind [UpdaterPc.oldp?]
  | _ => grind [guard, update, UpdaterPc.oldp?]

theorem argument?_update (hguard : guard online s a)
    (h : ((update online s a).updaters u).argument? = some oldp) :
    (s.updaters u).argument? = some oldp ∨ a = .load u ∧ oldp = s.gp := by
  cases a <;> grind [guard, update, UpdaterPc.argument?]

omit [DecidableEq Rid] [DecidableEq Uid] [DecidableEq Wid] in
theorem exists_of_published? (hguard : guard online s a) (h : a.published? = some newp) :
    ∃ u oldp, a = .store u newp ∧ s.updaters u = .publishing newp (some oldp) := by
  cases a <;> grind [guard, Action.published?]

omit [DecidableEq Rid] [DecidableEq Uid] [DecidableEq Wid] in
theorem exists_of_collected? (hguard : guard online s a) (h : a.collected? = some p) :
    ∃ u, a = .collect u (some p) ∧ (s.updaters u).argument? = some (some p) ∧
      s.listLock = none := by
  cases a <;> grind [guard, Action.collected?, UpdaterPc.argument?]

end Steps

/-! ## The objects of the updaters -/

/-- Every object that an updater has read from `gp` was published, and its new object was not. -/
structure Booked (start : State Cpu Rid Uid Wid Obj) (history : List (Action Cpu Rid Uid Wid Obj))
    (s : State Cpu Rid Uid Wid Obj) : Prop where
  nodup : (published start history).Nodup
  allocated : ∀ p ∈ published start history, p ∈ s.allocated
  gp : ∀ p, s.gp = some p → p ∈ published start history
  argument : ∀ u p, (s.updaters u).argument? = some (some p) → p ∈ published start history
  oldp : ∀ u p, (s.updaters u).oldp? = some p → p ∈ published start history
  newp : ∀ u newp, (s.updaters u).newp? = some newp →
    newp ∈ s.allocated ∧ newp ∉ published start history
  distinct : ∀ u v newp, (s.updaters u).newp? = some newp → (s.updaters v).newp? = some newp →
    u = v

theorem Fresh.booked {start : State Cpu Rid Uid Wid Obj} (h : Fresh start) :
    Booked start [] start := by
  have hnil : published start [] = start.gp.toList := List.append_nil _
  constructor
  · rw [hnil]
    cases start.gp <;> simp
  all_goals grind [Fresh, UpdaterPc.newp?, UpdaterPc.oldp?, UpdaterPc.argument?]

section Steps

variable [DecidableEq Rid] [DecidableEq Uid] [DecidableEq Wid] {online : List Cpu}
  {start s : State Cpu Rid Uid Wid Obj} {history : List (Action Cpu Rid Uid Wid Obj)}
  {a : Action Cpu Rid Uid Wid Obj}

theorem Booked.step (h : Booked start history s) (hguard : guard online s a) :
    Booked start (history ++ [a]) (update online s a) := by
  have hpublished : ∀ newp, a.published? = some newp →
      newp ∈ s.allocated ∧ newp ∉ published start history ∧
        ∃ u, a = .store u newp ∧ (s.updaters u).newp? = some newp := by
    intro newp ha
    obtain ⟨u, oldp, rfl, hpc⟩ := exists_of_published? hguard ha
    have hnewp : (s.updaters u).newp? = some newp := by rw [hpc, UpdaterPc.newp?]
    exact ⟨(h.newp u newp hnewp).1, (h.newp u newp hnewp).2, u, rfl, hnewp⟩
  have hmem : ∀ p, p ∈ published start (history ++ [a]) ↔
      p ∈ published start history ∨ a.published? = some p := by
    intro p
    rw [published_concat, List.mem_append, Option.mem_toList]
  constructor
  · rw [published_concat, List.nodup_append]
    refine ⟨h.nodup, by cases a.published? <;> simp, ?_⟩
    intro p hp newp hnewp heq
    exact (hpublished newp (Option.mem_toList.mp hnewp)).2.1 (heq ▸ hp)
  · intro p hp
    apply allocated_update.mpr
    exact .inl (((hmem p).mp hp).elim (h.allocated p) fun ha ↦ (hpublished p ha).1)
  · intro p hp
    rw [gp_update hguard, Option.or_eq_some_iff] at hp
    exact (hmem p).mpr (hp.symm.imp (fun hgp ↦ h.gp p hgp.2) id)
  · intro u p hp
    apply (hmem p).mpr
    obtain hbefore | ⟨-, hgp⟩ := argument?_update hguard hp
    · exact .inl (h.argument u p hbefore)
    · exact .inl (h.gp p hgp.symm)
  · intro u p hp
    apply (hmem p).mpr
    obtain rfl | ⟨hbefore, -⟩ := oldp?_update hguard hp
    · obtain ⟨newp, i, hpc, -⟩ := update_collect hguard
      exact .inl (h.argument u p (by rw [hpc, UpdaterPc.argument?]))
    · exact .inl (h.oldp u p hbefore)
  · intro u newp hp
    rw [allocated_update, hmem]
    obtain rfl | ⟨hbefore, hstore⟩ := newp?_update hguard hp
    · refine ⟨.inr ⟨u, rfl⟩, ?_⟩
      intro hor
      obtain hold | ha := hor
      · exact hguard.2 (h.allocated newp hold)
      · cases ha
    · obtain ⟨hallocated, hfresh⟩ := h.newp u newp hbefore
      refine ⟨.inl hallocated, ?_⟩
      intro hor
      obtain hold | ha := hor
      · exact hfresh hold
      · obtain ⟨-, -, v, rfl, hv⟩ := hpublished newp ha
        exact hstore (by rw [h.distinct u v newp hbefore hv])
  · intro u v newp hu hv
    obtain rfl | ⟨hbefore, -⟩ := newp?_update hguard hu
    · obtain heq | ⟨hbefore, -⟩ := newp?_update hguard hv
      · cases heq
        rfl
      · exact absurd (h.newp v newp hbefore).1 hguard.2
    · obtain rfl | ⟨hbefore', -⟩ := newp?_update hguard hv
      · exact absurd (h.newp u newp hbefore).1 hguard.2
      · exact h.distinct u v newp hbefore hbefore'

end Steps

/-! ## Conservation -/

/-- What the assignment that holds the lock has collected and not yet returned. -/
def UpdaterPc.rev? : UpdaterPc Cpu Obj → Option Obj
  | publishing _ rev | unlocking rev => rev
  | idle | owning _ | collecting .. | returned _ | visiting .. | emptying .. | freeing _ => none

def State.pending (s : State Cpu Rid Uid Wid Obj) : Option Obj :=
  match s.listLock with
  | some (.inl u) => (s.updaters u).rev?
  | _ => none

/-- `gp`, unless its object is collected and waits for the store. -/
def State.current (s : State Cpu Rid Uid Wid Obj) : Option Obj :=
  match s.listLock with
  | some (.inl u) =>
    match s.updaters u with
    | .publishing _ (some _) => none
    | _ => s.gp
  | _ => s.gp

section Steps

variable [DecidableEq Rid] [DecidableEq Uid] [DecidableEq Wid] {online : List Cpu}
  {start s : State Cpu Rid Uid Wid Obj} {history : List (Action Cpu Rid Uid Wid Obj)}
  {a : Action Cpu Rid Uid Wid Obj}

theorem pending_update (hlocked : Locked s) (hguard : guard online s a) :
    s.pending.toList ++ a.collected?.toList =
      a.returned?.toList ++ (update online s a).pending.toList := by
  have hupdaters := hlocked.updaters
  have hworkers := hlocked.workers
  cases a with
  | collect u oldp =>
    obtain ⟨newp, i, hpc, -, hupdate⟩ := update_collect hguard
    have hlock := hguard.2.1
    simp [hupdate, State.pending, hlock, State.goto_updaters, UpdaterPc.rev?, Action.collected?,
      Action.returned?]
  | overflow u =>
    obtain ⟨newp, oldp, hpc, hupdate⟩ := update_overflow hguard
    have hlock := hguard.2.1
    simp [hupdate, State.pending, hlock, State.goto_updaters, UpdaterPc.rev?, Action.collected?,
      Action.returned?]
  | _ =>
    grind [guard, update, State.pending, UpdaterPc.rev?, UpdaterPc.Holding, WorkerPc.Holding,
      Action.collected?, Action.returned?]

theorem current_update (hlocked : Locked s) (hguard : guard online s a) (hcurrent : Current s a) :
    s.current.toList ++ a.published?.toList =
      a.collected?.toList ++ (update online s a).current.toList := by
  have hupdaters := hlocked.updaters
  have hworkers := hlocked.workers
  cases a with
  | collect u oldp =>
    obtain ⟨newp, i, hpc, -, hupdate⟩ := update_collect hguard
    have hlock := hguard.2.1
    have hgp := hcurrent u oldp rfl
    cases oldp <;> simp [hupdate, State.current, hlock, State.goto_updaters, hgp,
      Action.collected?, Action.published?]
  | overflow u =>
    obtain ⟨newp, oldp, hpc, hupdate⟩ := update_overflow hguard
    have hlock := hguard.2.1
    simp [hupdate, State.current, hlock, State.goto_updaters, Action.collected?,
      Action.published?]
  | _ =>
    grind [guard, update, State.current, UpdaterPc.Holding, WorkerPc.Holding,
      Action.collected?, Action.published?]

end Steps

section Runs

variable [DecidableEq Rid] [DecidableEq Uid] [DecidableEq Wid] {online : List Cpu}
  {start : State Cpu Rid Uid Wid Obj} {history : List (Action Cpu Rid Uid Wid Obj)}

theorem run_locked (hstart : Fresh start)
    (hlegal : (machine Rid Uid Wid Obj online).Legal start history) :
    Locked ((machine Rid Uid Wid Obj online).final start history) :=
  Machine.legal_induction (fun _ s ↦ Locked s) hstart.locked
    (fun _ _ _ hlocked hguard ↦ hlocked.update hguard) hlegal

theorem run_booked (hstart : Fresh start)
    (hlegal : (machine Rid Uid Wid Obj online).Legal start history) :
    Booked start history ((machine Rid Uid Wid Obj online).final start history) :=
  Machine.legal_induction (fun history s ↦ Booked start history s) hstart.booked
    (fun _ _ _ hbooked hguard ↦ hbooked.step hguard) hlegal

/-- What has been collected has been returned, or the holder of the lock is about to. -/
theorem run_collected (hstart : Fresh start)
    (hlegal : (machine Rid Uid Wid Obj online).Legal start history) :
    collected history = returned history ++
      ((machine Rid Uid Wid Obj online).final start history).pending.toList := by
  apply Machine.legal_induction (fun history s ↦
    collected history = returned history ++ s.pending.toList) _ _ hlegal
  · simp [State.pending, hstart.listLock, collected, returned]
  · intro history a hhistory ih hguard
    have hlocked := run_locked hstart hhistory
    rw [collected_concat, ih, List.append_assoc, pending_update hlocked hguard, returned_concat,
      List.append_assoc]
    rfl

/-- What has been published has been collected, or is current. -/
theorem run_published (hstart : Fresh start)
    (hlegal : (machine Rid Uid Wid Obj online).Legal start history)
    (hmeets : (machine Rid Uid Wid Obj online).Meets Current start history) :
    published start history = collected history ++
      ((machine Rid Uid Wid Obj online).final start history).current.toList := by
  apply Machine.meets_induction (fun history s ↦
    published start history = collected history ++ s.current.toList) _ _ hlegal hmeets
  · simp [State.current, hstart.listLock, collected, published]
  · intro history a hhistory ih hguard hcurrent
    have hlocked := run_locked hstart hhistory
    rw [published_concat, ih, List.append_assoc, current_update hlocked hguard hcurrent,
      collected_concat, List.append_assoc]
    rfl

/-- `gp` never becomes NULL again. -/
theorem run_nonNull (hnull : start.gp ≠ none)
    (hstart : Fresh start) (hlegal : (machine Rid Uid Wid Obj online).Legal start history) :
    ((machine Rid Uid Wid Obj online).final start history).gp ≠ none ∧ ∀ u,
      (((machine Rid Uid Wid Obj online).final start history).updaters u).argument? ≠
        some none := by
  apply Machine.legal_induction
    (fun _ s ↦ s.gp ≠ none ∧ ∀ u, (s.updaters u).argument? ≠ some none) _ _ hlegal
  · simp [hnull, hstart.updaters, UpdaterPc.argument?]
  · intro history a _ ih hguard
    obtain ⟨hgp, hargument⟩ := ih
    constructor
    · rw [machine_update, gp_update hguard]
      intro hnone
      exact hgp (Option.or_eq_none_iff.mp hnone).2
    · intro u hu
      obtain hbefore | ⟨-, hnone⟩ := argument?_update hguard hu
      · exact hargument u hbefore
      · exact hgp hnone.symm

/-- An object that is collected when it is not in `gp` has been collected before. -/
theorem collected_of_not_current (hstart : Fresh start) (hnull : start.gp ≠ none)
    (hlegal : (machine Rid Uid Wid Obj online).Legal start history)
    (hmeets : (machine Rid Uid Wid Obj online).Meets Current start history)
    {a : Action Cpu Rid Uid Wid Obj}
    (hguard : guard online ((machine Rid Uid Wid Obj online).final start history) a)
    (hstale : ¬ Current ((machine Rid Uid Wid Obj online).final start history) a) :
    ∃ p, a.collected? = some p ∧ p ∈ collected history := by
  obtain ⟨u, oldp, rfl, hgp⟩ : ∃ u oldp, a = .collect u oldp ∧
      ((machine Rid Uid Wid Obj online).final start history).gp ≠ oldp := by
    simpa [Current] using hstale
  obtain ⟨⟨newp, hpc⟩, hlock, -⟩ := hguard
  have hargument := run_nonNull hnull hstart hlegal
  cases oldp with
  | none => exact absurd (by rw [hpc, UpdaterPc.argument?]) (hargument.2 u)
  | some p =>
    have hpublished := (run_booked hstart hlegal).argument u p (by rw [hpc, UpdaterPc.argument?])
    rw [run_published hstart hlegal hmeets, List.mem_append, State.current, hlock] at hpublished
    refine ⟨p, rfl, hpublished.resolve_right ?_⟩
    intro hcurrent
    exact hgp (Option.mem_toList.mp hcurrent)

end Runs

section Claims

variable [DecidableEq Rid] [DecidableEq Uid] [DecidableEq Wid] [DecidableEq Obj]
  {online : List Cpu} {start s : State Cpu Rid Uid Wid Obj}
  {history : List (Action Cpu Rid Uid Wid Obj)}

omit [DecidableEq Rid] [DecidableEq Uid] [DecidableEq Wid] [DecidableEq Obj] in
theorem pending_of_not_assigning (hdone : ∀ u, ¬ (s.updaters u).Assigning) :
    s.pending = none := by
  unfold State.pending
  split
  · next u _ =>
    have := hdone u
    cases hpc : s.updaters u <;> simp_all [UpdaterPc.rev?, UpdaterPc.Assigning]
  · rfl

omit [DecidableEq Rid] [DecidableEq Uid] [DecidableEq Wid] [DecidableEq Obj] in
theorem current_of_not_assigning (hdone : ∀ u, ¬ (s.updaters u).Assigning) :
    s.current = s.gp := by
  unfold State.current
  split
  · next u _ =>
    have := hdone u
    cases hpc : s.updaters u <;> simp_all [UpdaterPc.Assigning]
  · rfl

/-- Whenever no assignment is in progress, every published object is current or has been returned
once, exactly in the runs in which every assignment collects what is in `gp`. -/
theorem conserved_iff_current (hstart : Fresh start) (hnull : start.gp ≠ none)
    (hlegal : (machine Rid Uid Wid Obj online).Legal start history)
    (hdone : ∀ u,
      ¬ (((machine Rid Uid Wid Obj online).final start history).updaters u).Assigning) :
    Conserved start history ((machine Rid Uid Wid Obj online).final start history) ↔
      (machine Rid Uid Wid Obj online).Meets Current start history := by
  have hreturned : collected history = returned history := by
    have := run_collected hstart hlegal
    rwa [pending_of_not_assigning hdone, Option.toList_none, List.append_nil] at this
  constructor
  · intro hconserved
    by_contra hnot
    obtain ⟨before, a, after, rfl, hbefore, hstale⟩ := Machine.exists_of_not_meets _ hnot
    obtain ⟨hlegalBefore, hguard, -⟩ := (Machine.legal_append ..).mp hlegal
    obtain ⟨p, ha, hp⟩ := collected_of_not_current hstart hnull hlegalBefore hbefore hguard hstale
    have hpublished : p ∈ published start (before ++ a :: after) := by
      rw [published, List.filterMap_append, ← List.append_assoc, ← published,
        run_published hstart hlegalBefore hbefore]
      exact List.mem_append_left _ (List.mem_append_left _ hp)
    have htwice : 2 ≤ (collected (before ++ a :: after)).count p := by
      have hsplit : collected (before ++ a :: after) =
          collected before ++ (p :: collected after) := by
        simp [collected, List.filterMap_append, ha]
      rw [hsplit, List.count_append, List.count_cons_self]
      have := List.one_le_count_iff.mpr hp
      omega
    have honce := hconserved p hpublished
    rw [← hreturned] at honce
    split at honce <;> omega
  · intro hmeets p hp
    have hsplit := run_published hstart hlegal hmeets
    rw [current_of_not_assigning hdone, hreturned] at hsplit
    have hcount : (published start history).count p = 1 :=
      List.count_eq_one_of_mem (run_booked hstart hlegal).nodup hp
    rw [hsplit, List.count_append] at hcount
    by_cases hgp : ((machine Rid Uid Wid Obj online).final start history).gp = some p
    · rw [hgp, Option.toList_some, List.count_singleton_self] at hcount
      rw [if_pos hgp]
      omega
    · rw [List.count_eq_zero_of_not_mem (fun hmem ↦ hgp (Option.mem_toList.mp hmem))] at hcount
      rw [if_neg hgp]
      exact hcount

end Claims

/-- Two updaters, one after the other. -/
def serialHistory : List (Action Unit Unit Bool Unit ℕ) :=
  [.kmalloc false 1, .kmalloc true 2, .load false, .collect false (some 0), .store false 1,
    .unlock false (some 0), .load true, .collect true (some 1), .store true 2,
    .unlock true (some 1)]

theorem conserved_serial : Conserved (initial Unit Unit Bool Unit 0) serialHistory
    ((machine Unit Bool Unit ℕ [()]).final (initial Unit Unit Bool Unit 0) serialHistory) := by
  have hlegal : (machine Unit Bool Unit ℕ [()]).Legal (initial Unit Unit Bool Unit 0)
      serialHistory :=
    ⟨⟨rfl, by decide⟩, ⟨rfl, by decide⟩, ⟨1, rfl⟩, ⟨⟨1, rfl⟩, rfl, 0, rfl⟩, ⟨0, rfl⟩, rfl,
      ⟨2, rfl⟩, ⟨⟨2, rfl⟩, rfl, 1, rfl⟩, ⟨1, rfl⟩, rfl, trivial⟩
  have hmeets : (machine Unit Bool Unit ℕ [()]).Meets Current (initial Unit Unit Bool Unit 0)
      serialHistory := by
    simp [serialHistory, Current, update, initial, State.goto]
  exact (conserved_iff_current (initial_fresh 0) (by decide) hlegal (by decide)).mpr hmeets

/-- Both updaters read the first object before one of them collects it. -/
def racingHistory : List (Action Unit Unit Bool Unit ℕ) :=
  [.kmalloc false 1, .kmalloc true 2, .load false, .load true, .collect false (some 0),
    .store false 1, .unlock false (some 0), .collect true (some 0), .store true 2,
    .unlock true (some 0)]

theorem conserved_fails :
    ¬ ∀ history, (machine Unit Bool Unit ℕ [()]).Legal (initial Unit Unit Bool Unit 0) history →
      (∀ u, .overflow u ∉ history) →
      (∀ u, ¬ (((machine Unit Bool Unit ℕ [()]).final (initial Unit Unit Bool Unit 0)
        history).updaters u).Assigning) →
      Conserved (initial Unit Unit Bool Unit 0) history
        ((machine Unit Bool Unit ℕ [()]).final (initial Unit Unit Bool Unit 0) history) := by
  intro hconserved
  have hlegal : (machine Unit Bool Unit ℕ [()]).Legal (initial Unit Unit Bool Unit 0)
      racingHistory :=
    ⟨⟨rfl, by decide⟩, ⟨rfl, by decide⟩, ⟨1, rfl⟩, ⟨2, rfl⟩, ⟨⟨1, rfl⟩, rfl, 0, rfl⟩,
      ⟨0, rfl⟩, rfl, ⟨⟨2, rfl⟩, rfl, 1, rfl⟩, ⟨0, rfl⟩, rfl, trivial⟩
  have hcount := hconserved racingHistory hlegal (by decide) (by decide) 0 (by decide)
  exact absurd hcount (by decide)

end ParallelPrograms.ClassicRcu
