import ParallelPrograms.Concurrency.Machine
import Mathlib.Algebra.Group.Nat.Defs
import Mathlib.Logic.Function.Basic
import Mathlib.Tactic.Simps.Basic

/-!
# Transactional memory

`begin_tsm` and `commit_tsm` of `tsm.h`, and the transactions of `test_tsm.c`, which write
`pthread_self()` to the shared data in between. Each of the three accesses is one action.

In `machine` the threads begin, write and commit in any order, and a commit may take any key that
`begin_tsm` has returned to its thread. The threads of `test_tsm.c` take only the steps that meet
`InWork`.
-/

namespace ParallelPrograms.TransactionalMemory

open Concurrency

/-- `struct tsm` -/
structure Tsm where
  tick : UInt64
  deriving DecidableEq, Repr

/-- `TSM_INIT` -/
def tsmInit : Tsm := ⟨0⟩

/-- `begin_tsm` returns the tick before the addition. -/
def beginTsm (tp : Tsm) : Tsm × UInt64 := (⟨tp.tick + 1⟩, tp.tick)

/-- `commit_tsm` -/
def commitTsm (tp : Tsm) (lk : UInt64) : Bool :=
  let ttk := tp.tick
  if ttk = lk + 1 then true else false

@[simp]
theorem commitTsm_eq_true_iff {tp : Tsm} {lk : UInt64} :
    commitTsm tp lk = true ↔ tp.tick = lk + 1 := by
  simp [commitTsm]

/-- Where a thread is in `work`, named after its next access. -/
inductive Pc where
  /-- At `begin_tsm`. -/
  | beginning
  /-- At `WRITE_ONCE`, with its key. -/
  | writing (k : UInt64)
  /-- At `commit_tsm`. -/
  | committing (k : UInt64)
  /-- Has committed. -/
  | exited
  deriving DecidableEq, Repr

structure State (Tid : Type*) where
  tsm : Tsm
  /-- The thread whose `pthread_self()` is in `data`. -/
  data : Option Tid
  /-- The keys that `begin_tsm` has returned to a thread. -/
  keys : Tid → List UInt64
  threads : Tid → Pc

inductive Action (Tid : Type*) where
  | begin (t : Tid)
  | write (t : Tid)
  | commit (t : Tid) (lk : UInt64)
  deriving DecidableEq, Repr

variable {Tid : Type*}

def guard (s : State Tid) : Action Tid → Prop
  | .begin _ | .write _ => True
  | .commit t lk => lk ∈ s.keys t

/-- The loop of `work` in `test_tsm.c`. -/
def InWork (s : State Tid) : Action Tid → Prop
  | .begin t => s.threads t = .beginning
  | .write t => ∃ k, s.threads t = .writing k
  | .commit t lk => s.threads t = .committing lk

/-- `DEFINE_TSM(tsm)`, before the threads are created. -/
def initial (Tid : Type*) : State Tid where
  tsm := tsmInit
  data := none
  keys _ := []
  threads _ := .beginning

/-- The number of calls of `begin_tsm`. -/
def begins (history : List (Action Tid)) : ℕ :=
  history.countP fun
    | .begin _ => true
    | .write _ | .commit .. => false

@[simp]
theorem begins_append (first second : List (Action Tid)) :
    begins (first ++ second) = begins first + begins second := List.countP_append

variable [DecidableEq Tid]

def update (s : State Tid) : Action Tid → State Tid
  | .begin t =>
    let (tsm, k) := beginTsm s.tsm
    { s with
      tsm
      keys := Function.update s.keys t (k :: s.keys t)
      threads := Function.update s.threads t (.writing k) }
  | .write t =>
    { s with
      data := some t
      threads := Function.update s.threads t
        (match s.threads t with
          | .writing k => .committing k
          | pc => pc) }
  | .commit t lk =>
    { s with
      threads := Function.update s.threads t
        (if commitTsm s.tsm lk then .exited else .beginning) }

section Pointwise

variable (s : State Tid) (t u : Tid) (lk : UInt64)

theorem update_begin_keys : (update s (.begin t)).keys u =
    if u = t then s.tsm.tick :: s.keys t else s.keys u := Function.update_apply ..

theorem update_begin_threads : (update s (.begin t)).threads u =
    if u = t then .writing s.tsm.tick else s.threads u := Function.update_apply ..

theorem update_write_threads : (update s (.write t)).threads u =
    if u = t then (match s.threads t with
      | .writing k => .committing k
      | pc => pc) else s.threads u := Function.update_apply ..

theorem update_commit_threads : (update s (.commit t lk)).threads u =
    if u = t then (if commitTsm s.tsm lk then .exited else .beginning) else s.threads u :=
  Function.update_apply ..

end Pointwise

attribute [grind =] update_begin_keys update_begin_threads update_write_threads
  update_commit_threads

def machine (Tid : Type*) [DecidableEq Tid] : Machine (State Tid) (Action Tid) where
  init s := s = initial Tid
  guard := guard
  update := update

@[simp, grind =]
theorem machine_guard (s : State Tid) (a : Action Tid) :
    (machine Tid).guard s a = guard s a := rfl

@[simp, grind =]
theorem machine_update (s : State Tid) (a : Action Tid) :
    (machine Tid).update s a = update s a := rfl

/-- The tick counts the calls of `begin_tsm`, modulo `2 ^ 64`. -/
theorem tick_eq (history : List (Action Tid)) :
    ((machine Tid).final (initial Tid) history).tsm.tick = UInt64.ofNat (begins history) := by
  induction history using List.reverseRecOn with
  | nil => rfl
  | append_singleton history a ih =>
    rw [Machine.final_append, begins_append, UInt64.ofNat_add, ← ih]
    cases a with
    | begin t => rfl
    | write t => exact (UInt64.add_zero _).symm
    | commit t lk => exact (UInt64.add_zero _).symm

end ParallelPrograms.TransactionalMemory
