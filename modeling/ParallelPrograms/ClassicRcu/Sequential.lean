import ParallelPrograms.ClassicRcu.Callbacks

/-!
# Calls one at a time

`lrcu_assign_pointer`, `synchronize_lrcu` and `__call_lrcu` as functions on `lrcu_data`, for
callers that do not overlap. The pointer that `__lrcu_collect_old_pointer` returns is at once the
old value and the sign that there was a free slot. An old value `NULL` is therefore taken for a full
list, and the new value is not stored.

Each function is what a thread does that takes all steps of its call without interruption.
-/

namespace ParallelPrograms.ClassicRcu

open Concurrency

variable {Obj : Type*}

/-- `struct lrcu_data` without the callback. -/
structure LrcuData (Obj : Type*) where
  list : Slot → Option Obj
  /-- `list_lock` is taken. -/
  listLock : Bool

/-- `spin_lock(&lrcu_data->list_lock)`, which does not return when the lock is taken. -/
def LrcuData.spinLock (ld : LrcuData Obj) : Option (LrcuData Obj) :=
  if ld.listLock then none else some { ld with listLock := true }

/-- `spin_unlock(&lrcu_data->list_lock)` -/
def LrcuData.spinUnlock (ld : LrcuData Obj) : LrcuData Obj := { ld with listLock := false }

/-- `lrcu_assign_pointer(ptr, newp, ldp)`, where `ptr` holds `oldp`: the structure, what `ptr` holds
afterwards, and the returned pointer. -/
def lrcuAssignPointer (ld : LrcuData Obj) (oldp newp : Option Obj) :
    Option (LrcuData Obj × Option Obj × Option Obj) := do
  let ld ← ld.spinLock
  let (list, rev) := lrcuCollectOldPointer ld.list oldp
  -- `if (READ_ONCE(__l_r_rev))`
  let ptr := if rev.isSome then newp else oldp
  return (({ ld with list } : LrcuData Obj).spinUnlock, ptr, rev)

/-- The loop of `synchronize_lrcu` over the given slots. -/
def emptySlots (slots : List Slot) (list : Slot → Option Obj) : Slot → Option Obj :=
  slots.foldl (fun list i ↦ Function.update list i none) list

/-- `synchronize_lrcu(lrcu_data)` -/
def synchronizeLrcu (ld : LrcuData Obj) : Option (LrcuData Obj) := do
  let ld ← ld.spinLock
  return ({ ld with list := emptySlots (List.finRange nrLrcuProtected) ld.list } :
    LrcuData Obj).spinUnlock

/-- The loop of `__call_lrcu` over the given slots, with the pointers that the callback gets. -/
def drainSlots : List Slot → (Slot → Option Obj) → (Slot → Option Obj) × List Obj
  | [], list => (list, [])
  | i :: slots, list =>
    match list i with
    | some p =>
      let (list, passed) := drainSlots slots (Function.update list i none)
      (list, p :: passed)
    | none => drainSlots slots list

/-- `__call_lrcu(lrcu_data)`, with the pointers that the callback gets. -/
def callLrcu (ld : LrcuData Obj) : Option (LrcuData Obj × List Obj) := do
  let ld ← ld.spinLock
  let (list, passed) := drainSlots (List.finRange nrLrcuProtected) ld.list
  return (({ ld with list } : LrcuData Obj).spinUnlock, passed)

/-- What calls that do not overlap make of an empty list. -/
inductive Reachable : LrcuData Obj → Prop
  | init : Reachable ⟨fun _ ↦ none, false⟩
  | assign {ld ld' : LrcuData Obj} {oldp newp ptr ret : Option Obj} (before : Reachable ld)
      (returns : lrcuAssignPointer ld oldp newp = some (ld', ptr, ret)) : Reachable ld'
  | synchronize {ld ld' : LrcuData Obj} (before : Reachable ld)
      (returns : synchronizeLrcu ld = some ld') : Reachable ld'
  | call {ld ld' : LrcuData Obj} {passed : List Obj} (before : Reachable ld)
      (returns : callLrcu ld = some (ld', passed)) : Reachable ld'

/-- An assignment that finds a free slot stores the new value, keeps the old one in this slot and
returns it. Without a free slot it changes nothing and returns NULL. The lock is given back. -/
structure Assigns (ld : LrcuData Obj) (oldp newp : Option Obj) (ld' : LrcuData Obj)
    (ptr ret : Option Obj) : Prop where
  room : (∃ i, ld.list i = none) → ptr = newp ∧ ret = oldp ∧
    ∃ i, ld.list i = none ∧ ld'.list = Function.update ld.list i oldp
  full : (∀ i, ld.list i ≠ none) → ptr = oldp ∧ ld'.list = ld.list ∧ ret = none
  released : ld'.listLock = false

section Calls

variable {ld ld' : LrcuData Obj} {oldp newp ptr ret : Option Obj}

theorem LrcuData.spinLock_eq (hfree : ld.listLock = false) :
    ld.spinLock = some { ld with listLock := true } := by
  simp [spinLock, hfree]

/-- Every call gives the lock back. -/
theorem Reachable.free (h : Reachable ld) : ld.listLock = false := by
  cases h with
  | init => rfl
  | assign before returns =>
    simp only [lrcuAssignPointer, Option.bind_eq_bind, Option.bind_eq_some_iff, Option.pure_def,
      Option.some.injEq, Prod.mk.injEq] at returns
    obtain ⟨_, -, rfl, -⟩ := returns
    rfl
  | synchronize before returns =>
    simp only [synchronizeLrcu, Option.bind_eq_bind, Option.bind_eq_some_iff, Option.pure_def,
      Option.some.injEq] at returns
    obtain ⟨_, -, rfl⟩ := returns
    rfl
  | call before returns =>
    simp only [callLrcu, Option.bind_eq_bind, Option.bind_eq_some_iff, Option.pure_def,
      Option.some.injEq, Prod.mk.injEq] at returns
    obtain ⟨_, -, rfl, -⟩ := returns
    rfl

theorem lrcuAssignPointer_room (hfree : ld.listLock = false) (oldp newp : Option Obj)
    (hroom : ∃ i, ld.list i = none) : ∃ i, ld.list i = none ∧ lrcuAssignPointer ld oldp newp =
      some (⟨Function.update ld.list i oldp, false⟩, if oldp.isSome then newp else oldp, oldp) := by
  obtain ⟨i, hi, hcollect⟩ := lrcuCollectOldPointer_free oldp hroom
  refine ⟨i, hi, ?_⟩
  simp [lrcuAssignPointer, LrcuData.spinLock_eq hfree, hcollect, LrcuData.spinUnlock]

theorem lrcuAssignPointer_full (hfree : ld.listLock = false) (oldp newp : Option Obj)
    (hfull : ∀ i, ld.list i ≠ none) :
    lrcuAssignPointer ld oldp newp = some (⟨ld.list, false⟩, oldp, none) := by
  simp [lrcuAssignPointer, LrcuData.spinLock_eq hfree, lrcuCollectOldPointer_full oldp hfull,
    LrcuData.spinUnlock]

/-- **`lrcu_assign_pointer`** does what it should exactly when it is not called to replace NULL by
an object while there is a free slot. -/
theorem lrcu_assign_pointer_iff (hreach : Reachable ld) (oldp newp : Option Obj) :
    (∃ ld' ptr ret, lrcuAssignPointer ld oldp newp = some (ld', ptr, ret) ∧
      Assigns ld oldp newp ld' ptr ret) ↔
      oldp ≠ none ∨ newp = none ∨ ∀ i, ld.list i ≠ none := by
  have hfree := hreach.free
  by_cases hroom : ∃ i, ld.list i = none
  · have hnotFull : ¬ ∀ i, ld.list i ≠ none := fun hfull ↦ hroom.elim hfull
    obtain ⟨i, hi, hcall⟩ := lrcuAssignPointer_room hfree oldp newp hroom
    constructor
    · rintro ⟨ld', ptr, ret, hcall', hassigns⟩
      obtain ⟨hptr, -⟩ := hassigns.room hroom
      have heq := Option.some.inj (hcall.symm.trans hcall')
      cases oldp with
      | some p => exact .inl nofun
      | none =>
        right
        left
        exact hptr.symm.trans (congrArg (fun r ↦ r.2.1) heq).symm
    · intro hcondition
      refine ⟨_, _, _, hcall, ?_, fun hfull ↦ absurd hfull hnotFull, rfl⟩
      intro _
      refine ⟨?_, rfl, i, hi, rfl⟩
      cases oldp with
      | some p => rfl
      | none =>
        rcases hcondition with hold | rfl | hfull
        · exact absurd rfl hold
        · rfl
        · exact absurd hfull hnotFull
  · have hfull : ∀ i, ld.list i ≠ none := fun i hi ↦ hroom ⟨i, hi⟩
    apply iff_of_true _ (.inr (.inr hfull))
    exact ⟨_, _, _, lrcuAssignPointer_full hfree oldp newp hfull, fun h ↦ absurd h hroom,
      fun _ ↦ ⟨rfl, rfl, rfl⟩, rfl⟩

end Calls

/-- The first assignment to an empty list. -/
theorem lrcu_assign_pointer_first : ∃ ld' ptr ret,
    lrcuAssignPointer ⟨fun _ ↦ none, false⟩ (some 1) (some 2) = some (ld', ptr, ret) ∧
      Assigns ⟨fun _ ↦ none, false⟩ (some 1) (some 2) ld' ptr ret :=
  (lrcu_assign_pointer_iff .init (some 1) (some 2)).mpr (.inl nofun)

/-- A pointer that holds NULL keeps it, with all slots free. -/
theorem lrcu_assign_pointer_null : ¬ ∀ (ld : LrcuData ℕ) oldp newp, Reachable ld →
    ∃ ld' ptr ret, lrcuAssignPointer ld oldp newp = some (ld', ptr, ret) ∧
      Assigns ld oldp newp ld' ptr ret := by
  intro h
  obtain ⟨ld', ptr, ret, hcall, hassigns⟩ := h ⟨fun _ ↦ none, false⟩ none (some 2) .init
  have hptr : ptr = none := congrArg (fun r ↦ r.elim none fun r ↦ r.2.1) hcall.symm
  have hstored := (hassigns.room ⟨0, rfl⟩).1
  rw [hptr] at hstored
  cases hstored

/-! ## Calls without interruption -/

namespace Calls

section Alone

variable {Tid Ptr : Type*} [DecidableEq Tid] [DecidableEq Ptr] {s : State Tid Ptr Obj} {t : Tid}

/-- No call is under way. -/
structure Quiet (s : State Tid Ptr Obj) : Prop where
  threads : ∀ t, s.threads t = .idle
  listLock : s.listLock = none

/-- The structure when no call is under way. -/
def State.data (s : State Tid Ptr Obj) : LrcuData Obj := ⟨s.list, false⟩

omit [DecidableEq Ptr] in
/-- The list and the pointers have changed, and the thread is where it was before its call. -/
theorem Quiet.goto {s' : State Tid Ptr Obj} (h : Quiet s) (hthreads : s'.threads = s.threads)
    (hlock : s'.listLock = s.listLock) (t : Tid) : Quiet (s'.goto t .idle) where
  threads u := by
    by_cases hu : u = t <;> simp [State.goto_threads, hthreads, h.threads, hu]
  listLock := hlock.trans h.listLock

/-- The steps of `lrcu_assign_pointer`. -/
def assignSteps (t : Tid) (ptr : Ptr) (newp : Option Obj) : List (Action Tid Ptr Obj) :=
  [.assign t ptr newp, .collect t, .publish t, .unlock t]

/-- What the steps of an assignment lead to. -/
theorem assign_final (hquiet : Quiet s) (t : Tid) (ptr : Ptr) (newp : Option Obj)
    {list : Slot → Option Obj} {rev : Option Obj}
    (hcollect : lrcuCollectOldPointer s.list (s.pointers ptr) = (list, rev)) :
    (machine Tid Ptr Obj).Legal s (assignSteps t ptr newp) ∧
    (machine Tid Ptr Obj).final s (assignSteps t ptr newp) =
      ((s.setList list).setPointers (Function.update s.pointers ptr
        (if rev.isSome then newp else s.pointers ptr))).goto t .idle := by
  have hthreads := hquiet.threads
  have hlock := hquiet.listLock
  constructor
  · cases rev <;>
      simp [assignSteps, guard, update, hthreads, hlock, hcollect, State.goto_threads]
  · cases rev <;>
      simp [assignSteps, update, hcollect, State.goto, State.setList, State.setListLock,
        State.setPointers, hlock]

theorem assign_alone (hquiet : Quiet s) (t : Tid) (ptr : Ptr) (newp : Option Obj) :
    (machine Tid Ptr Obj).Legal s (assignSteps t ptr newp) ∧
    Quiet ((machine Tid Ptr Obj).final s (assignSteps t ptr newp)) ∧
    ∃ value ret, lrcuAssignPointer s.data (s.pointers ptr) newp =
        some (((machine Tid Ptr Obj).final s (assignSteps t ptr newp)).data, value, ret) ∧
      ((machine Tid Ptr Obj).final s (assignSteps t ptr newp)).pointers =
        Function.update s.pointers ptr value := by
  rcases hcollect : lrcuCollectOldPointer s.list (s.pointers ptr) with ⟨list, rev⟩
  obtain ⟨hlegal, hfinal⟩ := assign_final hquiet t ptr newp hcollect
  rw [hfinal]
  refine ⟨hlegal, ?_, if rev.isSome then newp else s.pointers ptr, rev, ?_, rfl⟩
  · apply hquiet.goto <;> rfl
  · simp [lrcuAssignPointer, LrcuData.spinLock, LrcuData.spinUnlock, State.data, hcollect]

/-- The steps of `synchronize_lrcu`. -/
def synchronizeSteps (t : Tid) : List (Action Tid Ptr Obj) :=
  [.synchronize t, .lockList t] ++ (List.replicate nrLrcuProtected (.empty t) ++ [.unlockList t])

theorem emptying_alone {slots : List Slot} (ht : s.threads t = .emptying slots) :
    (machine Tid Ptr Obj).Legal s (List.replicate slots.length (.empty t)) ∧
    (machine Tid Ptr Obj).final s (List.replicate slots.length (.empty t)) =
      (s.setList (emptySlots slots s.list)).goto t (.emptying []) := by
  induction slots generalizing s with
  | nil =>
    refine ⟨trivial, ?_⟩
    have hgoto : s.goto t (.emptying []) = s := by
      rw [State.goto, ← ht, Function.update_eq_self]
    exact hgoto.symm
  | cons i slots ih =>
    have hupdate : update s (.empty t) =
        (s.setList (Function.update s.list i none)).goto t (.emptying slots) := by
      simp [update, ht]
    have ht' : (update s (.empty t)).threads t = .emptying slots := by
      rw [hupdate, State.goto_threads, if_pos rfl]
    obtain ⟨hlegal, hfinal⟩ := ih ht'
    refine ⟨⟨⟨i, slots, ht⟩, hlegal⟩, ?_⟩
    rw [List.length_cons, List.replicate_succ, Machine.final_cons, machine_update, hfinal, hupdate]
    simp [State.goto, State.setList, emptySlots]

theorem synchronize_alone (hquiet : Quiet s) (t : Tid) :
    (machine Tid Ptr Obj).Legal s (synchronizeSteps t) ∧
    Quiet ((machine Tid Ptr Obj).final s (synchronizeSteps t)) ∧
    synchronizeLrcu s.data = some ((machine Tid Ptr Obj).final s (synchronizeSteps t)).data ∧
    ((machine Tid Ptr Obj).final s (synchronizeSteps t)).pointers = s.pointers := by
  have hthreads := hquiet.threads
  have hlock := hquiet.listLock
  have ht : ((machine Tid Ptr Obj).final s [.synchronize t, .lockList t]).threads t =
      .emptying (List.finRange nrLrcuProtected) := by
    simp [update, State.goto_threads]
  obtain ⟨hlegal, hempty⟩ := emptying_alone ht
  rw [List.length_finRange] at hlegal hempty
  have hfinal : (machine Tid Ptr Obj).final s (synchronizeSteps t) =
      (s.setList (emptySlots (List.finRange nrLrcuProtected) s.list)).goto t .idle := by
    rw [synchronizeSteps, Machine.final_append, Machine.final_append, hempty]
    simp [update, State.goto, State.setList, State.setListLock, hlock]
  have hlegal' : (machine Tid Ptr Obj).Legal s (synchronizeSteps t) := by
    rw [synchronizeSteps, Machine.legal_append, Machine.legal_append, hempty]
    refine ⟨?_, hlegal, ?_⟩ <;> simp [guard, update, hthreads, hlock, State.goto_threads]
  rw [hfinal]
  refine ⟨hlegal', ?_, ?_, rfl⟩
  · apply hquiet.goto <;> rfl
  · simp [synchronizeLrcu, LrcuData.spinLock, LrcuData.spinUnlock, State.data]

/-- The pointer that the event passes to a callback. -/
def Event.passed? : Event Obj → Option Obj
  | passed _ p => some p
  | stored .. | removed .. => none

theorem draining_alone {slots : List Slot} (ht : s.threads t = .draining slots) :
    ∃ more, (machine Tid Ptr Obj).Legal s more ∧
      (machine Tid Ptr Obj).final s more =
        (s.setList (drainSlots slots s.list).1).goto t (.draining []) ∧
      (events s more).filterMap Event.passed? = (drainSlots slots s.list).2 := by
  induction slots generalizing s with
  | nil =>
    refine ⟨[], trivial, ?_, rfl⟩
    have hgoto : s.goto t (.draining []) = s := by
      rw [State.goto, ← ht, Function.update_eq_self]
    exact hgoto.symm
  | cons i slots ih =>
    have hguard : guard s (.drain t) := ⟨i, slots, ht⟩
    cases hlist : s.list i with
    | none =>
      have hupdate : update s (.drain t) = s.goto t (.draining slots) := by
        simp [update, ht, hlist]
      have ht' : (s.goto t (.draining slots)).threads t = .draining slots := by
        rw [State.goto_threads, if_pos rfl]
      obtain ⟨more, hlegal, hfinal, hpassed⟩ := ih ht'
      refine ⟨.drain t :: more, ⟨hguard, ?_⟩, ?_, ?_⟩
      · rw [machine_update, hupdate]
        exact hlegal
      · rw [Machine.final_cons, machine_update, hupdate, hfinal]
        simp [State.goto, State.setList, drainSlots, hlist]
      · rw [events_cons, hupdate]
        simpa [event?, ht, hlist, drainSlots] using hpassed
    | some p =>
      have hupdate : update s (.drain t) = s.goto t (.clearing i slots) := by
        simp [update, ht, hlist]
      have hclear : update (s.goto t (.clearing i slots)) (.clear t) =
          (s.setList (Function.update s.list i none)).goto t (.draining slots) := by
        simp [update, State.goto, State.setList]
      have ht' : ((s.setList (Function.update s.list i none)).goto t
          (.draining slots)).threads t = .draining slots := by
        rw [State.goto_threads, if_pos rfl]
      obtain ⟨more, hlegal, hfinal, hpassed⟩ := ih ht'
      refine ⟨.drain t :: .clear t :: more, ⟨hguard, ?_, ?_⟩, ?_, ?_⟩
      · rw [machine_update, hupdate]
        exact ⟨i, slots, by rw [State.goto_threads, if_pos rfl]⟩
      · rw [machine_update, machine_update, hupdate, hclear]
        exact hlegal
      · rw [Machine.final_cons, Machine.final_cons, machine_update, machine_update, hupdate,
          hclear, hfinal]
        simp [State.goto, State.setList, drainSlots, hlist]
      · rw [events_cons, hupdate, events_cons, hclear]
        simpa [event?, ht, hlist, drainSlots, Event.passed?] using hpassed

/-- The pointers that the callbacks of a worker get are those of `__call_lrcu`. -/
theorem work_alone (hquiet : Quiet s) (t : Tid) : ∃ steps passed,
    (machine Tid Ptr Obj).Legal s steps ∧ Quiet ((machine Tid Ptr Obj).final s steps) ∧
    callLrcu s.data = some (((machine Tid Ptr Obj).final s steps).data, passed) ∧
    (events s steps).filterMap Event.passed? = passed ∧
    ((machine Tid Ptr Obj).final s steps).pointers = s.pointers := by
  have hthreads := hquiet.threads
  have hlock := hquiet.listLock
  have ht : ((machine Tid Ptr Obj).final s [.work t, .workerLock t]).threads t =
      .draining (List.finRange nrLrcuProtected) := by
    simp [update, State.goto_threads]
  obtain ⟨more, hlegal, hfinal, hpassed⟩ := draining_alone ht
  have hlist : ((machine Tid Ptr Obj).final s [.work t, .workerLock t]).list = s.list := by
    simp [update]
  rw [hlist] at hfinal hpassed
  have hfinal' : (machine Tid Ptr Obj).final s ([.work t, .workerLock t] ++ (more ++ [.exit t])) =
      (s.setList (drainSlots (List.finRange nrLrcuProtected) s.list).1).goto t .idle := by
    rw [Machine.final_append, Machine.final_append, hfinal]
    simp [update, State.goto, State.setList, State.setListLock, hlock]
  refine ⟨[.work t, .workerLock t] ++ (more ++ [.exit t]),
    (drainSlots (List.finRange nrLrcuProtected) s.list).2, ?_, ?_⟩
  · rw [Machine.legal_append, Machine.legal_append, hfinal]
    refine ⟨?_, hlegal, ?_⟩ <;> simp [guard, update, hthreads, hlock, State.goto_threads]
  · rw [hfinal']
    refine ⟨?_, ?_, ?_, rfl⟩
    · apply hquiet.goto <;> rfl
    · simp [callLrcu, LrcuData.spinLock, LrcuData.spinUnlock, State.data]
    · have hentry : events s [.work t, .workerLock t] = [] := rfl
      have hexit (s : State Tid Ptr Obj) : events s [.exit t] = [] := rfl
      rw [events_append, events_append, hentry, hexit, List.nil_append, List.append_nil, hpassed]

end Alone

end Calls

end ParallelPrograms.ClassicRcu
