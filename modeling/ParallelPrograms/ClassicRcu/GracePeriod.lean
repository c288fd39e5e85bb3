import ParallelPrograms.ClassicRcu.Ledger

/-!
# Grace periods of classic RCU

An updater that calls `synchronize_lrcu` has replaced its old object in `gp` before, so a section
that holds the object was open at the call. The section ends before the updater has run on its CPU,
while sections that begin on the CPUs behind the updater can no longer get the object.

A worker of `call_lrcu` runs on all CPUs first and takes its list afterwards. An object that is
collected when the worker has already passed the CPU of an open section goes to the callback with
the rest of the list.
-/

namespace ParallelPrograms.ClassicRcu

open Concurrency

variable {Cpu Rid Uid Wid Obj : Type*}

/-- The object that the action frees. -/
def Action.freed? : Action Cpu Rid Uid Wid Obj → Option Obj
  | kfree _ oldp | callback _ oldp => some oldp
  | _ => none

/-- The CPUs that the updater still runs on before it frees its old object. -/
def UpdaterPc.ahead (online : List Cpu) : UpdaterPc Cpu Obj → List Cpu
  | visiting _ cpus => cpus
  | emptying .. | freeing _ => []
  | idle | owning _ | collecting .. | publishing .. | unlocking _ | returned _ => online

/-- The sections that hold an old object are on CPUs ahead of the updater that frees it. -/
structure Protected (online : List Cpu) (s : State Cpu Rid Uid Wid Obj) : Prop where
  placed : ∀ r cpu held, s.readers r = .inside cpu held → cpu ∈ online
  replaced : ∀ u p, (s.updaters u).oldp? = some p → s.gp = some p →
    ∃ newp, s.updaters u = .publishing newp (some p)
  ahead : ∀ u p, (s.updaters u).oldp? = some p → ∀ r cpu held, s.readers r = .inside cpu held →
    p ∈ held → cpu ∈ (s.updaters u).ahead online

theorem Fresh.protected {s : State Cpu Rid Uid Wid Obj} (h : Fresh s) (online : List Cpu) :
    Protected online s := by
  constructor <;> simp [h.readers, h.updaters, UpdaterPc.oldp?]

section Steps

variable [DecidableEq Rid] [DecidableEq Uid] [DecidableEq Wid] {online : List Cpu}
  {start s : State Cpu Rid Uid Wid Obj} {history : List (Action Cpu Rid Uid Wid Obj)}
  {a : Action Cpu Rid Uid Wid Obj} {r : Rid} {u : Uid} {cpu : Cpu} {p : Obj} {held : List Obj}

/-- A section begins with nothing, and gets what is in `gp`. -/
theorem inside_update (hguard : guard online s a)
    (h : (update online s a).readers r = .inside cpu held) :
    a = .readLock r cpu ∧ cpu ∈ online ∧ held = [] ∨
      ∃ before, s.readers r = .inside cpu before ∧
        ∀ p ∈ held, p ∈ before ∨ a = .dereference r ∧ s.gp = some p := by
  cases a <;> grind [guard, update]

/-- The store leaves the state `publishing`. -/
theorem publishing_update (hguard : guard online s a) {newp : Obj}
    (h : s.updaters u = .publishing newp (some p)) :
    a = .store u newp ∨ (update online s a).updaters u = .publishing newp (some p) := by
  cases a <;> grind [guard, update]

/-- The updater leaves the CPUs ahead one by one. -/
theorem ahead_update (hguard : guard online s a) (hold : (s.updaters u).oldp? = some p)
    (hold' : ((update online s a).updaters u).oldp? = some p)
    (h : cpu ∈ (s.updaters u).ahead online) :
    a = .runOn u cpu ∨ cpu ∈ ((update online s a).updaters u).ahead online := by
  cases a <;> grind [guard, update, UpdaterPc.oldp?, UpdaterPc.ahead]

theorem Protected.step (h : Protected online s) (hbooked : Booked start history s)
    (hguard : guard online s a) : Protected online (update online s a) := by
  constructor
  · intro r cpu held hinside
    obtain ⟨-, honline, -⟩ | ⟨before, hbefore, -⟩ := inside_update hguard hinside
    · exact honline
    · exact h.placed r cpu before hbefore
  · intro u p hold hgp
    obtain rfl | ⟨hbefore, -⟩ := oldp?_update hguard hold
    · obtain ⟨newp, i, -, -, hupdate⟩ := update_collect hguard
      exact ⟨newp, by rw [hupdate, State.goto_updaters, if_pos rfl]⟩
    · rw [gp_update hguard, Option.or_eq_some_iff] at hgp
      obtain hpublished | ⟨hnone, hgp⟩ := hgp
      · -- a new object is not an old one
        obtain ⟨v, oldp, -, hpc⟩ := exists_of_published? hguard hpublished
        have hnew := (hbooked.newp v p (by rw [hpc, UpdaterPc.newp?])).2
        exact absurd (hbooked.oldp u p hbefore) hnew
      · obtain ⟨newp, hpc⟩ := h.replaced u p hbefore hgp
        obtain rfl | hafter := publishing_update hguard hpc
        · cases hnone
        · exact ⟨newp, hafter⟩
  · intro u p hold r cpu held hinside hp
    obtain rfl | ⟨hbefore, -⟩ := oldp?_update hguard hold
    · obtain ⟨newp, i, -, -, hupdate⟩ := update_collect hguard
      rw [hupdate] at hinside
      rw [hupdate, State.goto_updaters, if_pos rfl]
      exact h.placed r cpu held hinside
    · obtain ⟨-, -, rfl⟩ | ⟨earlier, hearlier, hheld⟩ := inside_update hguard hinside
      · cases hp
      · have hahead : cpu ∈ (s.updaters u).ahead online := by
          obtain hin | ⟨-, hgp⟩ := hheld p hp
          · exact h.ahead u p hbefore r cpu earlier hearlier hin
          · obtain ⟨newp, hpc⟩ := h.replaced u p hbefore hgp
            rw [hpc]
            exact h.placed r cpu earlier hearlier
        obtain rfl | hafter := ahead_update hguard hbefore hold hahead
        · exact absurd hearlier (hguard.2 r earlier)
        · exact hafter

/-- A reader that is inside a section stays in it until `lrcu_read_unlock`. -/
theorem stays_inside (hguard : guard online s a) (hinside : s.readers r = .inside cpu held)
    (ha : a ≠ .readUnlock r) : ∃ held', (update online s a).readers r = .inside cpu held' := by
  cases a <;> grind [guard, update]

end Steps

section Runs

variable [DecidableEq Rid] [DecidableEq Uid] [DecidableEq Wid] {online : List Cpu}
  {start : State Cpu Rid Uid Wid Obj} {history : List (Action Cpu Rid Uid Wid Obj)}

theorem run_protected (hstart : Fresh start)
    (hlegal : (machine Rid Uid Wid Obj online).Legal start history) :
    Protected online ((machine Rid Uid Wid Obj online).final start history) :=
  Machine.legal_induction (fun _ s ↦ Protected online s) (hstart.protected online)
    (fun _ _ hhistory hprotected hguard ↦
      hprotected.step (run_booked hstart hhistory) hguard) hlegal

/-- No updater frees an object that a reader may still use. -/
theorem kfree_unheld (hstart : Fresh start)
    (hlegal : (machine Rid Uid Wid Obj online).Legal start history) {u : Uid} {p : Obj}
    (hguard : guard online ((machine Rid Uid Wid Obj online).final start history) (.kfree u p))
    {r : Rid} {cpu : Cpu} {held : List Obj}
    (hinside : ((machine Rid Uid Wid Obj online).final start history).readers r =
      .inside cpu held) : p ∉ held := by
  intro hp
  have hahead := (run_protected hstart hlegal).ahead u p (by rw [hguard, UpdaterPc.oldp?]) r cpu
    held hinside hp
  rw [hguard] at hahead
  cases hahead

end Runs

/-- With one updater, an object is freed only after every section that got it has ended. -/
theorem freed_unheld [DecidableEq Rid] {online : List Cpu} {start : State Cpu Rid Unit Empty Obj}
    {before rest : List (Action Cpu Rid Unit Empty Obj)} {a : Action Cpu Rid Unit Empty Obj}
    {p : Obj} (hstart : Fresh start)
    (hlegal : (machine Rid Unit Empty Obj online).Legal start (before ++ a :: rest))
    (hfreed : a.freed? = some p) (r : Rid) (cpu : Cpu) (held : List Obj)
    (hinside : ((machine Rid Unit Empty Obj online).final start before).readers r =
      .inside cpu held) : p ∉ held := by
  obtain ⟨hbefore, hguard, -⟩ := (Machine.legal_append ..).mp hlegal
  cases a with
  | kfree u oldp =>
    obtain rfl : oldp = p := Option.some.inj hfreed
    exact kfree_unheld hstart hbefore hguard hinside
  | callback w => exact w.elim
  | _ => cases hfreed

/-- A reader gets the old object before it is replaced. A section that begins behind the updater, on
a CPU that it has run on, gets the new object. -/
def replacedHistory : List (Action Bool Bool Unit Empty ℕ) :=
  ([.readLock false false, .dereference false, .kmalloc () 1, .load (), .collect () (some 0),
    .store () 1, .unlock () (some 0), .synchronize (), .readUnlock false, .runOn () false,
    .readLock true false, .dereference true, .runOn () true, .lockList ()] :
      List (Action Bool Bool Unit Empty ℕ)) ++
    List.replicate 10 (Action.empty ()) ++
    ([.unlockList ()] : List (Action Bool Bool Unit Empty ℕ))

theorem freed_unheld_replaced :
    ((machine Bool Unit Empty ℕ [false, true]).final (initial Bool Bool Unit Empty 0)
      replacedHistory).readers true = .inside false [1] ∧ 0 ∉ [1] := by
  have hlegal : (machine Bool Unit Empty ℕ [false, true]).Legal (initial Bool Bool Unit Empty 0)
      (replacedHistory ++ .kfree () 0 :: []) := by
    refine ⟨⟨rfl, by decide⟩, ⟨false, [], rfl⟩, ⟨rfl, by decide⟩, ⟨1, rfl⟩,
      ⟨⟨1, rfl⟩, rfl, 0, rfl⟩, ⟨0, rfl⟩, rfl, ⟨0, rfl⟩, ⟨false, [0], rfl⟩, ⟨⟨0, [true], rfl⟩, ?_⟩,
      ⟨rfl, by decide⟩, ⟨false, [], rfl⟩, ⟨⟨0, [], rfl⟩, ?_⟩, ⟨⟨0, rfl⟩, rfl⟩, ⟨0, _, _, rfl⟩,
      ⟨0, _, _, rfl⟩, ⟨0, _, _, rfl⟩, ⟨0, _, _, rfl⟩, ⟨0, _, _, rfl⟩, ⟨0, _, _, rfl⟩,
      ⟨0, _, _, rfl⟩, ⟨0, _, _, rfl⟩, ⟨0, _, _, rfl⟩, ⟨0, _, _, rfl⟩, ⟨0, rfl⟩, rfl, trivial⟩
    · intro r held
      cases r <;> nofun
    · intro r held
      cases r <;> nofun
  have hinside : ((machine Bool Unit Empty ℕ [false, true]).final (initial Bool Bool Unit Empty 0)
      replacedHistory).readers true = .inside false [1] := rfl
  exact ⟨hinside, freed_unheld (initial_fresh 0) hlegal rfl true false [1] hinside⟩

/-! ## `call_lrcu` -/

/-- Whenever the callback gets an object, every section that was open when the object was
collected has ended. -/
def WaitsForSections [DecidableEq Rid] [DecidableEq Uid] [DecidableEq Wid] (online : List Cpu)
    (start : State Cpu Rid Uid Wid Obj) (history : List (Action Cpu Rid Uid Wid Obj)) : Prop :=
  ∀ before u p between w rest,
    history = before ++ .collect u (some p) :: (between ++ .callback w p :: rest) →
    ∀ r cpu held, ((machine Rid Uid Wid Obj online).final start before).readers r =
      .inside cpu held → .readUnlock r ∈ between

/-- At a collection, every CPU that is inside a section is still ahead of every worker. -/
def Ahead (s : State Cpu Rid Uid Wid Obj) (a : Action Cpu Rid Uid Wid Obj) : Prop :=
  ∀ u p, a = .collect u (some p) → ∀ w cpus, s.workers w = .visiting cpus →
    ∀ r cpu held, s.readers r = .inside cpu held → cpu ∈ cpus

/-- The section on `cpu` is open, and no worker takes the list before it ends. -/
structure Blocked (cpu : Cpu) (r : Rid) (s : State Cpu Rid Uid Wid Obj) : Prop where
  inside : ∃ held, s.readers r = .inside cpu held
  workers : ∀ w, s.workers w = .idle ∨ ∃ cpus, s.workers w = .visiting cpus ∧ cpu ∈ cpus

section Workers

variable [DecidableEq Rid] [DecidableEq Uid] [DecidableEq Wid] {online : List Cpu}
  {start s : State Cpu Rid Uid Wid Obj} {history : List (Action Cpu Rid Uid Wid Obj)}
  {a : Action Cpu Rid Uid Wid Obj} {r : Rid} {cpu : Cpu}

theorem Blocked.update (h : Blocked cpu r s) (honline : cpu ∈ online) (hguard : guard online s a)
    (ha : a ≠ .readUnlock r) : Blocked cpu r (update online s a) := by
  obtain ⟨⟨held, hinside⟩, hworkers⟩ := h
  refine ⟨stays_inside hguard hinside ha, ?_⟩
  intro v
  have := hworkers v
  cases a <;> grind [guard, ClassicRcu.update, State.Quiescent]

theorem Blocked.final (h : Blocked cpu r s) (honline : cpu ∈ online)
    (hlegal : (machine Rid Uid Wid Obj online).Legal s history)
    (hstays : .readUnlock r ∉ history) :
    Blocked cpu r ((machine Rid Uid Wid Obj online).final s history) := by
  induction history generalizing s with
  | nil => exact h
  | cons a history ih =>
    obtain ⟨ha, hrest⟩ := List.ne_and_not_mem_of_not_mem_cons hstays
    exact ih (h.update honline hlegal.1 ha.symm) hlegal.2 hrest

/-- A collection while no worker has passed an open section. -/
theorem blocked_of_ahead (hlocked : Locked s) {u : Uid} {p : Obj}
    (hguard : guard online s (.collect u (some p))) (hahead : Ahead s (.collect u (some p)))
    {held : List Obj} (hinside : s.readers r = .inside cpu held) :
    Blocked cpu r (update online s (.collect u (some p))) := by
  refine ⟨stays_inside hguard hinside nofun, ?_⟩
  intro w
  obtain ⟨newp, i, -, -, hupdate⟩ := update_collect hguard
  have hworker : ¬ (s.workers w).Holding := by
    rw [hlocked.workers, hguard.2.1]
    nofun
  rw [hupdate]
  cases hpc : s.workers w with
  | idle => exact .inl hpc
  | visiting cpus => exact .inr ⟨cpus, hpc, hahead u p rfl w cpus hpc r cpu held hinside⟩
  | draining slots => exact absurd (by rw [hpc]; trivial) hworker
  | clearing i slots => exact absurd (by rw [hpc]; trivial) hworker

/-- `call_lrcu` waits for the sections open at every collection at which no worker has passed one
of them. -/
theorem waitsForSections (hstart : Fresh start)
    (hlegal : (machine Rid Uid Wid Obj online).Legal start history)
    (hmeets : (machine Rid Uid Wid Obj online).Meets Ahead start history) :
    WaitsForSections online start history := by
  intro before u p between w rest hhistory r cpu held hinside
  subst hhistory
  obtain ⟨hbefore, hguard, hafter⟩ := (Machine.legal_append ..).mp hlegal
  rw [machine_guard] at hguard
  obtain ⟨hbetween, hcallback, -⟩ := (Machine.legal_append ..).mp hafter
  obtain ⟨-, hahead, -⟩ := (Machine.meets_append ..).mp hmeets
  by_contra hstays
  have hplaced := (run_protected hstart hbefore).placed r cpu held hinside
  have hcollected := blocked_of_ahead (run_locked hstart hbefore) hguard hahead hinside
  have hblocked := hcollected.final hplaced hbetween hstays
  obtain ⟨i, slots, hdraining, -⟩ := hcallback
  obtain hidle | ⟨cpus, hvisiting, -⟩ := hblocked.workers w
  · exact nomatch hidle.symm.trans hdraining
  · exact nomatch hvisiting.symm.trans hdraining

end Workers

/-- The worker is called while a section is open, and has its CPU ahead. -/
def waitingHistory : List (Action Bool Unit Unit Unit ℕ) :=
  [.readLock () false, .dereference (), .call (), .kmalloc () 1, .load (), .collect () (some 0),
    .store () 1, .unlock () (some 0), .readUnlock (), .workerRunOn () false, .workerRunOn () true,
    .workerLock (), .callback () 0]

theorem waitsForSections_waiting :
    WaitsForSections [false, true] (initial Bool Unit Unit Unit 0) waitingHistory := by
  have hlegal : (machine Unit Unit Unit ℕ [false, true]).Legal (initial Bool Unit Unit Unit 0)
      waitingHistory :=
    ⟨⟨rfl, by decide⟩, ⟨false, [], rfl⟩, rfl, ⟨rfl, by decide⟩, ⟨1, rfl⟩, ⟨⟨1, rfl⟩, rfl, 0, rfl⟩,
      ⟨0, rfl⟩, rfl, ⟨false, [0], rfl⟩, ⟨⟨[true], rfl⟩, nofun⟩, ⟨⟨[], rfl⟩, nofun⟩, ⟨rfl, rfl⟩,
      ⟨0, _, rfl, rfl⟩, trivial⟩
  have hmeets : (machine Unit Unit Unit ℕ [false, true]).Meets Ahead
      (initial Bool Unit Unit Unit 0) waitingHistory := by
    simp [waitingHistory, Ahead, update, initial, State.gotoReader, State.goto, State.gotoWorker]
  exact waitsForSections (initial_fresh 0) hlegal hmeets

/-- The worker has run on the first CPU when a section begins there, and updater and worker go on on
the second one. -/
def passedHistory : List (Action Bool Unit Unit Unit ℕ) :=
  [.call (), .workerRunOn () false, .readLock () false, .dereference (), .kmalloc () 1, .load (),
    .collect () (some 0), .store () 1, .unlock () (some 0), .workerRunOn () true, .workerLock (),
    .callback () 0]

theorem call_lrcu_passes :
    ¬ ∀ history, (machine Unit Unit Unit ℕ [false, true]).Legal (initial Bool Unit Unit Unit 0)
        history →
      WaitsForSections [false, true] (initial Bool Unit Unit Unit 0) history := by
  intro hwaits
  have hlegal : (machine Unit Unit Unit ℕ [false, true]).Legal (initial Bool Unit Unit Unit 0)
      passedHistory :=
    ⟨rfl, ⟨⟨[true], rfl⟩, nofun⟩, ⟨rfl, by decide⟩, ⟨false, [], rfl⟩, ⟨rfl, by decide⟩, ⟨1, rfl⟩,
      ⟨⟨1, rfl⟩, rfl, 0, rfl⟩, ⟨0, rfl⟩, rfl, ⟨⟨[], rfl⟩, nofun⟩, ⟨rfl, rfl⟩, ⟨0, _, rfl, rfl⟩,
      trivial⟩
  have hmem := hwaits passedHistory hlegal (passedHistory.take 6) () 0
    [.store () 1, .unlock () (some 0), .workerRunOn () true, .workerLock ()] () [] rfl () false [0]
    rfl
  exact absurd hmem (by decide)

end ParallelPrograms.ClassicRcu
