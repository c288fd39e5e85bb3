import ParallelPrograms.Concurrency.Machine
import Mathlib.Data.Fintype.Basic
import Mathlib.Logic.Function.Basic
import Mathlib.Tactic.Simps.Basic

/-!
# Classic RCU

`lrcu_read_lock`, `lrcu_dereference`, `lrcu_read_unlock`, `lrcu_assign_pointer`,
`synchronize_lrcu` and `__call_lrcu` of `classic-rcu/rcu.h`, in the order in which the tasks of
`test_lrcu.c` call them. The read of `gp` that is the argument of `lrcu_assign_pointer`, the locked
collection, the store to `gp`, the unlock, the visit of a CPU, the clearing of a slot, the callback
and every `kfree` are actions of their own. Only the holder of `list_lock` uses the list, so the
search for a free slot is one action with the `spin_lock` before it.

`run_on(cpu)` returns at a moment when no reader is inside a section on that CPU. The set of the
online CPUs is fixed, and a section stays on its CPU. No code compares two objects, so what
`kmalloc` returns is taken as a new object each time, also where it reuses memory.
-/

namespace ParallelPrograms.ClassicRcu

open Concurrency

/-- `NR_LRCU_PROTECTED` -/
abbrev nrLrcuProtected : ℕ := 10

/-- A slot of `lrcu_data->list`. -/
abbrev Slot := Fin nrLrcuProtected

/-- Where a reader is. A section keeps the objects that `lrcu_dereference` has returned in it. -/
inductive ReaderPc (Cpu Obj : Type*) where
  | outside
  | inside (cpu : Cpu) (held : List Obj)
  deriving DecidableEq, Repr

/-- Where an updater is, named after its next access. -/
inductive UpdaterPc (Cpu Obj : Type*) where
  | idle
  /-- Has allocated `newp`. -/
  | owning (newp : Obj)
  /-- `lrcu_assign_pointer(gp, newp, ldp)` has read its argument, at `spin_lock`. -/
  | collecting (newp : Obj) (oldp : Option Obj)
  /-- At `if (READ_ONCE(__l_r_rev))`, with what `__lrcu_collect_old_pointer` has returned. -/
  | publishing (newp : Obj) (rev : Option Obj)
  /-- At `spin_unlock`. -/
  | unlocking (rev : Option Obj)
  /-- `lrcu_assign_pointer` has returned. -/
  | returned (oldp : Option Obj)
  /-- `synchronize_lrcu`, with the CPUs that it has not yet run on. -/
  | visiting (oldp : Obj) (cpus : List Cpu)
  /-- At `list[i] = NULL`, with the slots that are left. With no slot left it is at
  `spin_unlock`. -/
  | emptying (oldp : Obj) (slots : List Slot)
  /-- At `kfree(oldp)`. -/
  | freeing (oldp : Obj)
  deriving DecidableEq, Repr

/-- Where a worker of `call_lrcu` is. -/
inductive WorkerPc (Cpu : Type*) where
  | idle
  /-- With the CPUs that it has not yet run on. -/
  | visiting (cpus : List Cpu)
  /-- At `if (list[i] != NULL)`, with the slots that are left. With no slot left it is at
  `spin_unlock`. -/
  | draining (slots : List Slot)
  /-- After the callback, at `list[i] = NULL`. -/
  | clearing (i : Slot) (slots : List Slot)
  deriving DecidableEq, Repr

structure State (Cpu Rid Uid Wid Obj : Type*) where
  gp : Option Obj
  /-- `lrcu_data->list` -/
  list : Slot → Option Obj
  /-- The owner of `lrcu_data->list_lock`. -/
  listLock : Option (Uid ⊕ Wid)
  /-- The objects that `kmalloc` has returned so far. -/
  allocated : List Obj
  readers : Rid → ReaderPc Cpu Obj
  updaters : Uid → UpdaterPc Cpu Obj
  workers : Wid → WorkerPc Cpu

inductive Action (Cpu Rid Uid Wid Obj : Type*) where
  | readLock (r : Rid) (cpu : Cpu)
  /-- `lrcu_dereference(gp)` -/
  | dereference (r : Rid)
  | readUnlock (r : Rid)
  | kmalloc (u : Uid) (newp : Obj)
  /-- `lrcu_assign_pointer` is called and reads `gp`. -/
  | load (u : Uid)
  /-- `__lrcu_collect_old_pointer` puts `oldp` in a free slot. -/
  | collect (u : Uid) (oldp : Option Obj)
  /-- `__lrcu_collect_old_pointer` finds no free slot and returns NULL. -/
  | overflow (u : Uid)
  /-- `smp_store_release(&gp, newp)` -/
  | store (u : Uid) (newp : Obj)
  /-- `__l_r_rev` is NULL, nothing is stored. -/
  | keep (u : Uid)
  /-- `spin_unlock` and the return of `lrcu_assign_pointer`. -/
  | unlock (u : Uid) (rev : Option Obj)
  /-- Nothing has been assigned: `return -1`. -/
  | fail (u : Uid)
  /-- The updater leaves the old object to `call_lrcu`. -/
  | defer (u : Uid)
  /-- `synchronize_lrcu` is called. -/
  | synchronize (u : Uid)
  /-- `run_on(cpu)` of an updater. -/
  | runOn (u : Uid) (cpu : Cpu)
  /-- `spin_lock` in `synchronize_lrcu`. -/
  | lockList (u : Uid)
  /-- `list[i] = NULL` there. -/
  | empty (u : Uid)
  /-- `spin_unlock` there. -/
  | unlockList (u : Uid)
  | kfree (u : Uid) (oldp : Obj)
  /-- `call_lrcu` starts a worker. -/
  | call (w : Wid)
  /-- `run_on(cpu)` of a worker. -/
  | workerRunOn (w : Wid) (cpu : Cpu)
  /-- `spin_lock` in `__call_lrcu`. -/
  | workerLock (w : Wid)
  /-- The slot is NULL. -/
  | skip (w : Wid)
  /-- `callback(list[i])`, where the callback is `kfree`. -/
  | callback (w : Wid) (oldp : Obj)
  /-- `list[i] = NULL` in `__call_lrcu`. -/
  | clear (w : Wid)
  /-- `spin_unlock` and the end of the worker. -/
  | exit (w : Wid)
  deriving DecidableEq, Repr

variable {Cpu Rid Uid Wid Obj : Type*}

/-- The updater is between its read of `gp` and the return of `lrcu_assign_pointer`. -/
def UpdaterPc.Assigning : UpdaterPc Cpu Obj → Prop
  | collecting .. | publishing .. | unlocking _ => True
  | idle | owning _ | returned _ | visiting .. | emptying .. | freeing _ => False

instance : DecidablePred (UpdaterPc.Assigning : UpdaterPc Cpu Obj → Prop)
  | .collecting .. | .publishing .. | .unlocking _ => isTrue trivial
  | .idle | .owning _ | .returned _ | .visiting .. | .emptying .. | .freeing _ => isFalse id

/-- The updater is between `spin_lock` and `spin_unlock`. -/
def UpdaterPc.Holding : UpdaterPc Cpu Obj → Prop
  | publishing .. | unlocking _ | emptying .. => True
  | idle | owning _ | collecting .. | returned _ | visiting .. | freeing _ => False

/-- The worker is between `spin_lock` and `spin_unlock`. -/
def WorkerPc.Holding : WorkerPc Cpu → Prop
  | draining _ | clearing .. => True
  | idle | visiting _ => False

/-- `__lrcu_collect_old_pointer`: the list afterwards and the returned pointer. -/
def lrcuCollectOldPointer (list : Slot → Option Obj) (oldp : Option Obj) :
    (Slot → Option Obj) × Option Obj :=
  match (List.finRange nrLrcuProtected).find? fun i ↦ (list i).isNone with
  | some idx => (Function.update list idx oldp, oldp)
  | none => (list, none)

theorem lrcuCollectOldPointer_free {list : Slot → Option Obj} (oldp : Option Obj)
    (hfree : ∃ i, list i = none) : ∃ i, list i = none ∧
      lrcuCollectOldPointer list oldp = (Function.update list i oldp, oldp) := by
  unfold lrcuCollectOldPointer
  cases hfind : (List.finRange nrLrcuProtected).find? fun i ↦ (list i).isNone with
  | some idx =>
    have hidx := List.find?_some hfind
    exact ⟨idx, Option.isNone_iff_eq_none.mp hidx, rfl⟩
  | none =>
    obtain ⟨i, hi⟩ := hfree
    have hnone := List.find?_eq_none.mp hfind i (List.mem_finRange i)
    simp [hi] at hnone

theorem lrcuCollectOldPointer_full {list : Slot → Option Obj} (oldp : Option Obj)
    (hfull : ∀ i, list i ≠ none) : lrcuCollectOldPointer list oldp = (list, none) := by
  have hfind : ((List.finRange nrLrcuProtected).find? fun i ↦ (list i).isNone) = none := by
    apply List.find?_eq_none.mpr
    intro i _
    simpa using hfull i
  rw [lrcuCollectOldPointer, hfind]

namespace State

variable (s : State Cpu Rid Uid Wid Obj)

/-- No reader is inside a section on the CPU. -/
def Quiescent (cpu : Cpu) : Prop := ∀ r held, s.readers r ≠ .inside cpu held

@[simps]
def setGp (gp : Option Obj) : State Cpu Rid Uid Wid Obj := { s with gp }

@[simps]
def setList (list : Slot → Option Obj) : State Cpu Rid Uid Wid Obj := { s with list }

@[simps]
def setListLock (listLock : Option (Uid ⊕ Wid)) : State Cpu Rid Uid Wid Obj :=
  { s with listLock }

@[simps]
def setAllocated (allocated : List Obj) : State Cpu Rid Uid Wid Obj := { s with allocated }

attribute [grind =] setGp_gp setGp_list setGp_listLock setGp_allocated setGp_readers
  setGp_updaters setGp_workers setList_gp setList_list setList_listLock setList_allocated
  setList_readers setList_updaters setList_workers setListLock_gp setListLock_list
  setListLock_listLock setListLock_allocated setListLock_readers setListLock_updaters
  setListLock_workers setAllocated_gp setAllocated_list setAllocated_listLock
  setAllocated_allocated setAllocated_readers setAllocated_updaters setAllocated_workers

section Readers

variable [DecidableEq Rid]

@[simps gp list listLock allocated updaters workers]
def gotoReader (r : Rid) (pc : ReaderPc Cpu Obj) : State Cpu Rid Uid Wid Obj :=
  { s with readers := Function.update s.readers r pc }

theorem gotoReader_readers (r r' : Rid) (pc : ReaderPc Cpu Obj) :
    (s.gotoReader r pc).readers r' = if r' = r then pc else s.readers r' :=
  Function.update_apply ..

attribute [grind =] gotoReader_gp gotoReader_list gotoReader_listLock gotoReader_allocated
  gotoReader_readers gotoReader_updaters gotoReader_workers

end Readers

section Updaters

variable [DecidableEq Uid]

@[simps gp list listLock allocated readers workers]
def goto (u : Uid) (pc : UpdaterPc Cpu Obj) : State Cpu Rid Uid Wid Obj :=
  { s with updaters := Function.update s.updaters u pc }

theorem goto_updaters (u u' : Uid) (pc : UpdaterPc Cpu Obj) :
    (s.goto u pc).updaters u' = if u' = u then pc else s.updaters u' :=
  Function.update_apply ..

attribute [grind =] goto_gp goto_list goto_listLock goto_allocated goto_readers goto_updaters
  goto_workers

end Updaters

section Workers

variable [DecidableEq Wid]

@[simps gp list listLock allocated readers updaters]
def gotoWorker (w : Wid) (pc : WorkerPc Cpu) : State Cpu Rid Uid Wid Obj :=
  { s with workers := Function.update s.workers w pc }

theorem gotoWorker_workers (w w' : Wid) (pc : WorkerPc Cpu) :
    (s.gotoWorker w pc).workers w' = if w' = w then pc else s.workers w' :=
  Function.update_apply ..

attribute [grind =] gotoWorker_gp gotoWorker_list gotoWorker_listLock gotoWorker_allocated
  gotoWorker_readers gotoWorker_updaters gotoWorker_workers

end Workers

end State

/-! ## The interleavings -/

/-- The guards, for the online CPUs `online`. -/
def guard (online : List Cpu) (s : State Cpu Rid Uid Wid Obj) :
    Action Cpu Rid Uid Wid Obj → Prop
  | .readLock r cpu => s.readers r = .outside ∧ cpu ∈ online
  | .dereference r | .readUnlock r => ∃ cpu held, s.readers r = .inside cpu held
  | .kmalloc u newp => s.updaters u = .idle ∧ newp ∉ s.allocated
  | .load u => ∃ newp, s.updaters u = .owning newp
  | .collect u oldp =>
    (∃ newp, s.updaters u = .collecting newp oldp) ∧ s.listLock = none ∧ ∃ i, s.list i = none
  | .overflow u =>
    (∃ newp oldp, s.updaters u = .collecting newp oldp) ∧ s.listLock = none ∧
      ∀ i, s.list i ≠ none
  | .store u newp => ∃ oldp, s.updaters u = .publishing newp (some oldp)
  | .keep u => ∃ newp, s.updaters u = .publishing newp none
  | .unlock u rev => s.updaters u = .unlocking rev
  | .fail u => s.updaters u = .returned none
  | .defer u | .synchronize u => ∃ oldp, s.updaters u = .returned (some oldp)
  | .runOn u cpu => (∃ oldp cpus, s.updaters u = .visiting oldp (cpu :: cpus)) ∧ s.Quiescent cpu
  | .lockList u => (∃ oldp, s.updaters u = .visiting oldp []) ∧ s.listLock = none
  | .empty u => ∃ oldp i slots, s.updaters u = .emptying oldp (i :: slots)
  | .unlockList u => ∃ oldp, s.updaters u = .emptying oldp []
  | .kfree u oldp => s.updaters u = .freeing oldp
  | .call w => s.workers w = .idle
  | .workerRunOn w cpu => (∃ cpus, s.workers w = .visiting (cpu :: cpus)) ∧ s.Quiescent cpu
  | .workerLock w => s.workers w = .visiting [] ∧ s.listLock = none
  | .skip w => ∃ i slots, s.workers w = .draining (i :: slots) ∧ s.list i = none
  | .callback w oldp => ∃ i slots, s.workers w = .draining (i :: slots) ∧ s.list i = some oldp
  | .clear w => ∃ i slots, s.workers w = .clearing i slots
  | .exit w => s.workers w = .draining []

variable [DecidableEq Rid] [DecidableEq Uid] [DecidableEq Wid]

def update (online : List Cpu) (s : State Cpu Rid Uid Wid Obj) :
    Action Cpu Rid Uid Wid Obj → State Cpu Rid Uid Wid Obj
  | .readLock r cpu => s.gotoReader r (.inside cpu [])
  | .dereference r =>
    match s.readers r with
    | .inside cpu held => s.gotoReader r (.inside cpu (s.gp.toList ++ held))
    | .outside => s
  | .readUnlock r => s.gotoReader r .outside
  | .kmalloc u newp => (s.setAllocated (newp :: s.allocated)).goto u (.owning newp)
  | .load u =>
    match s.updaters u with
    | .owning newp => s.goto u (.collecting newp s.gp)
    | _ => s
  | .collect u _ | .overflow u =>
    match s.updaters u with
    | .collecting newp oldp =>
      let (list, rev) := lrcuCollectOldPointer s.list oldp
      ((s.setList list).setListLock (some (.inl u))).goto u (.publishing newp rev)
    | _ => s
  | .store u newp =>
    match s.updaters u with
    | .publishing _ rev => (s.setGp (some newp)).goto u (.unlocking rev)
    | _ => s
  | .keep u => s.goto u (.unlocking none)
  | .unlock u rev => (s.setListLock none).goto u (.returned rev)
  | .fail u | .defer u => s.goto u .idle
  | .synchronize u =>
    match s.updaters u with
    | .returned (some oldp) => s.goto u (.visiting oldp online)
    | _ => s
  | .runOn u _ =>
    match s.updaters u with
    | .visiting oldp (_ :: cpus) => s.goto u (.visiting oldp cpus)
    | _ => s
  | .lockList u =>
    match s.updaters u with
    | .visiting oldp _ =>
      (s.setListLock (some (.inl u))).goto u (.emptying oldp (List.finRange nrLrcuProtected))
    | _ => s
  | .empty u =>
    match s.updaters u with
    | .emptying oldp (i :: slots) =>
      (s.setList (Function.update s.list i none)).goto u (.emptying oldp slots)
    | _ => s
  | .unlockList u =>
    match s.updaters u with
    | .emptying oldp _ => (s.setListLock none).goto u (.freeing oldp)
    | _ => s
  | .kfree u _ => s.goto u .idle
  | .call w => s.gotoWorker w (.visiting online)
  | .workerRunOn w _ =>
    match s.workers w with
    | .visiting (_ :: cpus) => s.gotoWorker w (.visiting cpus)
    | _ => s
  | .workerLock w =>
    (s.setListLock (some (.inr w))).gotoWorker w (.draining (List.finRange nrLrcuProtected))
  | .skip w =>
    match s.workers w with
    | .draining (_ :: slots) => s.gotoWorker w (.draining slots)
    | _ => s
  | .callback w _ =>
    match s.workers w with
    | .draining (i :: slots) => s.gotoWorker w (.clearing i slots)
    | _ => s
  | .clear w =>
    match s.workers w with
    | .clearing i slots =>
      (s.setList (Function.update s.list i none)).gotoWorker w (.draining slots)
    | _ => s
  | .exit w => (s.setListLock none).gotoWorker w .idle

/-- After `lrcu_init`, with nothing started yet. The list may hold anything: `lrcu_data_init` does
not write to it. -/
structure Fresh (s : State Cpu Rid Uid Wid Obj) : Prop where
  gp : ∀ p ∈ s.gp, p ∈ s.allocated
  listLock : s.listLock = none
  readers : ∀ r, s.readers r = .outside
  updaters : ∀ u, s.updaters u = .idle
  workers : ∀ w, s.workers w = .idle

/-- With the object `gp` and an empty list. -/
def initial (Cpu Rid Uid Wid : Type*) {Obj : Type*} (gp : Obj) : State Cpu Rid Uid Wid Obj where
  gp := some gp
  list _ := none
  listLock := none
  allocated := [gp]
  readers _ := .outside
  updaters _ := .idle
  workers _ := .idle

omit [DecidableEq Rid] [DecidableEq Uid] [DecidableEq Wid] in
theorem initial_fresh (gp : Obj) : Fresh (initial Cpu Rid Uid Wid gp) where
  gp p hp := by
    obtain rfl : gp = p := Option.some.inj hp
    exact List.mem_cons_self
  listLock := rfl
  readers _ := rfl
  updaters _ := rfl
  workers _ := rfl

def machine (Rid Uid Wid Obj : Type*) [DecidableEq Rid] [DecidableEq Uid] [DecidableEq Wid]
    (online : List Cpu) :
    Machine (State Cpu Rid Uid Wid Obj) (Action Cpu Rid Uid Wid Obj) where
  init := Fresh
  guard := guard online
  update := update online

@[simp, grind =]
theorem machine_guard (online : List Cpu) (s : State Cpu Rid Uid Wid Obj)
    (a : Action Cpu Rid Uid Wid Obj) :
    (machine Rid Uid Wid Obj online).guard s a = guard online s a := rfl

@[simp, grind =]
theorem machine_update (online : List Cpu) (s : State Cpu Rid Uid Wid Obj)
    (a : Action Cpu Rid Uid Wid Obj) :
    (machine Rid Uid Wid Obj online).update s a = update online s a := rfl

end ParallelPrograms.ClassicRcu
