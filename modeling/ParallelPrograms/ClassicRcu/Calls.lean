import ParallelPrograms.ClassicRcu.Model

/-!
# Calls in any order

Threads that call `lrcu_assign_pointer`, `synchronize_lrcu` and `__call_lrcu` of
`classic-rcu/rcu.h` on one `lrcu_data`, in any order, for any number of LRCU-protected pointers and
with any new values, `NULL` included. The visits of the CPUs do not use the structure and may take
any time, so `synchronize_lrcu` and `__call_lrcu` begin here at their `spin_lock`.

What happens to the slots is written down as a sequence of events. A callback gets what an
assignment has stored when the last event before it in its slot is this store. Then nothing is
passed to a callback twice and nothing that `synchronize_lrcu` has removed.
-/

namespace ParallelPrograms.ClassicRcu.Calls

open Concurrency

/-- Where a thread is, named after its next access. -/
inductive Pc (Ptr Obj : Type*) where
  | idle
  /-- `lrcu_assign_pointer(ptr, newp, ldp)` has read `ptr`, at `spin_lock`. -/
  | collecting (ptr : Ptr) (newp oldp : Option Obj)
  /-- At `if (READ_ONCE(__l_r_rev))`, with what `__lrcu_collect_old_pointer` has returned. -/
  | publishing (ptr : Ptr) (newp rev : Option Obj)
  /-- At `spin_unlock`. -/
  | unlocking (rev : Option Obj)
  /-- `synchronize_lrcu`, at `spin_lock`. -/
  | synchronizing
  /-- At `list[i] = NULL`, with the slots that are left. With no slot left it is at
  `spin_unlock`. -/
  | emptying (slots : List Slot)
  /-- `__call_lrcu`, at `spin_lock`. -/
  | working
  /-- At `if (list[i] != NULL)`, with the slots that are left. With no slot left it is at
  `spin_unlock`. -/
  | draining (slots : List Slot)
  /-- After the callback, at `list[i] = NULL`. -/
  | clearing (i : Slot) (slots : List Slot)
  deriving DecidableEq, Repr

structure State (Tid Ptr Obj : Type*) where
  /-- The LRCU-protected pointers. -/
  pointers : Ptr → Option Obj
  /-- `lrcu_data->list` -/
  list : Slot → Option Obj
  /-- The owner of `lrcu_data->list_lock`. -/
  listLock : Option Tid
  threads : Tid → Pc Ptr Obj

inductive Action (Tid Ptr Obj : Type*) where
  /-- `lrcu_assign_pointer` is called and reads the pointer. -/
  | assign (t : Tid) (ptr : Ptr) (newp : Option Obj)
  /-- `__lrcu_collect_old_pointer` -/
  | collect (t : Tid)
  /-- `smp_store_release`, unless `__l_r_rev` is NULL. -/
  | publish (t : Tid)
  /-- `spin_unlock` and the return of `lrcu_assign_pointer`. -/
  | unlock (t : Tid)
  /-- `synchronize_lrcu` is called. -/
  | synchronize (t : Tid)
  /-- `spin_lock` there. -/
  | lockList (t : Tid)
  /-- `list[i] = NULL` there. -/
  | empty (t : Tid)
  /-- `spin_unlock` there. -/
  | unlockList (t : Tid)
  /-- A worker begins `__call_lrcu`. -/
  | work (t : Tid)
  /-- `spin_lock` there. -/
  | workerLock (t : Tid)
  /-- `if (list[i] != NULL) callback(list[i])` -/
  | drain (t : Tid)
  /-- `list[i] = NULL` in `__call_lrcu`. -/
  | clear (t : Tid)
  /-- `spin_unlock` and the end of the worker. -/
  | exit (t : Tid)
  deriving DecidableEq, Repr

variable {Tid Ptr Obj : Type*}

/-- The thread is between `spin_lock` and `spin_unlock`. -/
def Pc.Holding : Pc Ptr Obj → Prop
  | publishing .. | unlocking _ | emptying _ | draining _ | clearing .. => True
  | idle | collecting .. | synchronizing | working => False

namespace State

variable (s : State Tid Ptr Obj)

@[simps -fullyApplied]
def setPointers (pointers : Ptr → Option Obj) : State Tid Ptr Obj := { s with pointers }

@[simps -fullyApplied]
def setList (list : Slot → Option Obj) : State Tid Ptr Obj := { s with list }

@[simps -fullyApplied]
def setListLock (listLock : Option Tid) : State Tid Ptr Obj := { s with listLock }

@[simps -fullyApplied pointers list listLock]
def goto [DecidableEq Tid] (t : Tid) (pc : Pc Ptr Obj) : State Tid Ptr Obj :=
  { s with threads := Function.update s.threads t pc }

theorem goto_threads [DecidableEq Tid] (t t' : Tid) (pc : Pc Ptr Obj) :
    (s.goto t pc).threads t' = if t' = t then pc else s.threads t' :=
  Function.update_apply ..

attribute [grind =] setPointers_pointers setPointers_list setPointers_listLock
  setPointers_threads setList_pointers setList_list setList_listLock setList_threads
  setListLock_pointers setListLock_list setListLock_listLock setListLock_threads goto_pointers
  goto_list goto_listLock goto_threads

end State

/-! ## The interleavings -/

def guard (s : State Tid Ptr Obj) : Action Tid Ptr Obj → Prop
  | .assign t _ _ | .synchronize t | .work t => s.threads t = .idle
  | .collect t => (∃ ptr newp oldp, s.threads t = .collecting ptr newp oldp) ∧ s.listLock = none
  | .publish t => ∃ ptr newp rev, s.threads t = .publishing ptr newp rev
  | .unlock t => ∃ rev, s.threads t = .unlocking rev
  | .lockList t => s.threads t = .synchronizing ∧ s.listLock = none
  | .empty t => ∃ i slots, s.threads t = .emptying (i :: slots)
  | .unlockList t => s.threads t = .emptying []
  | .workerLock t => s.threads t = .working ∧ s.listLock = none
  | .drain t => ∃ i slots, s.threads t = .draining (i :: slots)
  | .clear t => ∃ i slots, s.threads t = .clearing i slots
  | .exit t => s.threads t = .draining []

variable [DecidableEq Tid] [DecidableEq Ptr]

def update (s : State Tid Ptr Obj) : Action Tid Ptr Obj → State Tid Ptr Obj
  | .assign t ptr newp => s.goto t (.collecting ptr newp (s.pointers ptr))
  | .collect t =>
    match s.threads t with
    | .collecting ptr newp oldp =>
      let (list, rev) := lrcuCollectOldPointer s.list oldp
      ((s.setList list).setListLock (some t)).goto t (.publishing ptr newp rev)
    | _ => s
  | .publish t =>
    match s.threads t with
    | .publishing ptr newp (some oldp) =>
      (s.setPointers (Function.update s.pointers ptr newp)).goto t (.unlocking (some oldp))
    | .publishing _ _ none => s.goto t (.unlocking none)
    | _ => s
  | .unlock t => (s.setListLock none).goto t .idle
  | .synchronize t => s.goto t .synchronizing
  | .lockList t =>
    (s.setListLock (some t)).goto t (.emptying (List.finRange nrLrcuProtected))
  | .empty t =>
    match s.threads t with
    | .emptying (i :: slots) =>
      (s.setList (Function.update s.list i none)).goto t (.emptying slots)
    | _ => s
  | .unlockList t => (s.setListLock none).goto t .idle
  | .work t => s.goto t .working
  | .workerLock t =>
    (s.setListLock (some t)).goto t (.draining (List.finRange nrLrcuProtected))
  | .drain t =>
    match s.threads t with
    | .draining (i :: slots) =>
      match s.list i with
      | some _ => s.goto t (.clearing i slots)
      | none => s.goto t (.draining slots)
    | _ => s
  | .clear t =>
    match s.threads t with
    | .clearing i slots =>
      (s.setList (Function.update s.list i none)).goto t (.draining slots)
    | _ => s
  | .exit t => (s.setListLock none).goto t .idle

omit [DecidableEq Tid] [DecidableEq Ptr] in
/-- What `lrcu_data_init` returns when the slots of the memory from `kmalloc` hold `memory`. It
initialises the lock, and it does not write to the slots. -/
def lrcuDataInit (Tid : Type*) (memory : Slot → Option Obj) (pointers : Ptr → Option Obj) :
    State Tid Ptr Obj where
  pointers := pointers
  list := memory
  listLock := none
  threads _ := .idle

/-- The runs on a structure whose memory may have held anything. -/
def machine (Tid Ptr Obj : Type*) [DecidableEq Tid] [DecidableEq Ptr] :
    Machine (State Tid Ptr Obj) (Action Tid Ptr Obj) where
  init s := ∃ memory pointers, s = lrcuDataInit Tid memory pointers
  guard := guard
  update := update

@[simp, grind =]
theorem machine_guard (s : State Tid Ptr Obj) (a : Action Tid Ptr Obj) :
    (machine Tid Ptr Obj).guard s a = guard s a := rfl

@[simp, grind =]
theorem machine_update (s : State Tid Ptr Obj) (a : Action Tid Ptr Obj) :
    (machine Tid Ptr Obj).update s a = update s a := rfl

/-! ## What happens to the slots -/

inductive Event (Obj : Type*) where
  /-- `lrcu_assign_pointer` stores an old pointer. -/
  | stored (i : Slot) (p : Obj)
  /-- `__call_lrcu` passes a pointer to the callback. -/
  | passed (i : Slot) (p : Obj)
  /-- `synchronize_lrcu` removes a pointer. -/
  | removed (i : Slot) (p : Obj)
  deriving DecidableEq, Repr

def Event.slot : Event Obj → Slot
  | stored i _ | passed i _ | removed i _ => i

/-- The slot that `__lrcu_collect_old_pointer` finds. -/
def freeSlot (list : Slot → Option Obj) : Option Slot :=
  (List.finRange nrLrcuProtected).find? fun i ↦ (list i).isNone

omit [DecidableEq Tid] [DecidableEq Ptr] in
def event? (s : State Tid Ptr Obj) : Action Tid Ptr Obj → Option (Event Obj)
  | .collect t =>
    match s.threads t with
    | .collecting _ _ (some oldp) => (freeSlot s.list).map fun i ↦ .stored i oldp
    | _ => none
  | .drain t =>
    match s.threads t with
    | .draining (i :: _) => (s.list i).map fun p ↦ .passed i p
    | _ => none
  | .empty t =>
    match s.threads t with
    | .emptying (i :: _) => (s.list i).map fun p ↦ .removed i p
    | _ => none
  | _ => none

/-- The events of a run. -/
def events (start : State Tid Ptr Obj) (history : List (Action Tid Ptr Obj)) : List (Event Obj) :=
  (machine Tid Ptr Obj).observe (fun log s a ↦ log ++ (event? s a).toList) [] start history

/-- The last event in the slot is the store of the pointer. -/
def Awaiting (log : List (Event Obj)) (i : Slot) (p : Obj) : Prop :=
  ∃ before after, log = before ++ .stored i p :: after ∧ ∀ e ∈ after, e.slot ≠ i

/-- Every pointer that a callback gets was stored in its slot by an assignment, and it has neither
been passed to a callback nor been removed since then. -/
def CallbacksCollected (log : List (Event Obj)) : Prop :=
  ∀ before i p after, log = before ++ .passed i p :: after → Awaiting before i p

end ParallelPrograms.ClassicRcu.Calls
