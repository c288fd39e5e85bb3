import ParallelPrograms.Concurrency.Machine
import Mathlib.Data.List.Basic
import Mathlib.Logic.Function.Basic
import Mathlib.Tactic.Simps.Basic

/-!
# Scoped locks

`scoped_lock`, `scoped_lock_lock` and `scoped_lock_unlock` of `scoped_lock.h` with the POSIX
mutexes below them. The relaxed load of the id of a slot, `pthread_mutex_lock`, the two stores to
the id, the load in the release and `pthread_mutex_unlock` are actions of their own. Sections of
one thread are nested, and the innermost one ends first.

`pthread_mutex_lock` blocks while the mutex is locked, also when its own thread has locked it. A
failed assertion ends the program, so no action is possible after it.
-/

namespace ParallelPrograms.ScopedLock

open Concurrency

/-- `SCOPED_LOCK_MAX_SIZE` -/
abbrev scopedLockMaxSize : ℕ := 32

/-- `SL_POSIX_MUTEX` -/
def slPosixMutex : UInt32 := 1

/-- `SL_TYPE_LOCK_MASK` -/
def slTypeLockMask : UInt32 := slPosixMutex

/-- `scoped_lock_t`. The id is `__COUNTER__ + 1`. -/
structure Lock where
  typeFlags : UInt32
  id : UInt32
  id_ne_zero : id ≠ 0
  deriving DecidableEq

/-- An index of `sl_posix_mutex`. -/
abbrev Slot := Fin scopedLockMaxSize

/-- `lock->id & (SCOPED_LOCK_MAX_SIZE - 1)` -/
def Lock.slot (lock : Lock) : Slot :=
  ⟨(lock.id &&& 31).toNat, by
    rw [UInt32.toNat_and]
    exact Nat.lt_succ_of_le Nat.and_le_right⟩

/-- `struct sl_posix_mutex`, with the thread that has locked the mutex. -/
structure Mutex (Tid : Type*) where
  owner : Option Tid
  id : UInt32

/-- Where a thread is, named after its next access. -/
inductive Phase where
  /-- Outside of the functions, possibly inside sections. -/
  | running
  /-- In `sl_acquire_posix_mutex_lock`, at the relaxed load. -/
  | loading (lock : Lock)
  /-- At `pthread_mutex_lock`. -/
  | locking (lock : Lock)
  /-- At the store of `lock->id`. -/
  | storing (lock : Lock)
  /-- In `sl_release_posix_mutex_lock`, at the load. -/
  | checking (lock : Lock)
  /-- At the store of `0`. -/
  | clearing (lock : Lock)
  /-- At `pthread_mutex_unlock`. -/
  | unlocking (lock : Lock)
  deriving DecidableEq

structure Thread where
  phase : Phase
  /-- The sections that the thread is inside, the innermost one first. -/
  sections : List Lock
  deriving DecidableEq

/-- The assertion that has failed. -/
inductive Failure where
  /-- `assert((type & SL_TYPE_LOCK_MASK))` or the last one of `scoped_lock_lock`. -/
  | type
  /-- The acquire has returned `-1`. -/
  | acquire
  /-- The release has returned `-1`, or the type is wrong in `scoped_lock_unlock`. -/
  | release
  deriving DecidableEq, Repr

structure State (Tid : Type*) where
  slots : Slot → Mutex Tid
  threads : Tid → Thread
  failed : Option Failure

inductive Action (Tid : Type*) where
  /-- `scoped_lock(type)` up to the call of `sl_acquire_posix_mutex_lock`. -/
  | enter (t : Tid) (lock : Lock)
  /-- The relaxed load and its test. -/
  | load (t : Tid)
  /-- `pthread_mutex_lock` -/
  | lock (t : Tid)
  /-- The store of the id, after which the section begins. -/
  | store (t : Tid)
  /-- The scope of the innermost section ends: `scoped_lock_unlock` up to the call of
  `sl_release_posix_mutex_lock`. -/
  | leave (t : Tid)
  /-- The load in the release and its test. -/
  | check (t : Tid)
  /-- The store of `0`. -/
  | clear (t : Tid)
  /-- `pthread_mutex_unlock` -/
  | unlock (t : Tid)
  deriving DecidableEq

variable {Tid : Type*}

namespace State

variable (s : State Tid)

@[simps]
def fail (failure : Failure) : State Tid := { s with failed := some failure }

@[simps threads failed]
def setOwner (i : Slot) (owner : Option Tid) : State Tid :=
  { s with slots := Function.update s.slots i { s.slots i with owner } }

@[simps threads failed]
def setId (i : Slot) (id : UInt32) : State Tid :=
  { s with slots := Function.update s.slots i { s.slots i with id } }

@[simps slots failed]
def goto [DecidableEq Tid] (t : Tid) (phase : Phase) (sections : List Lock) : State Tid :=
  { s with threads := Function.update s.threads t ⟨phase, sections⟩ }

theorem setOwner_slots (i j : Slot) (owner : Option Tid) :
    (s.setOwner i owner).slots j = if j = i then { s.slots i with owner } else s.slots j :=
  Function.update_apply ..

theorem setId_slots (i j : Slot) (id : UInt32) :
    (s.setId i id).slots j = if j = i then { s.slots i with id } else s.slots j :=
  Function.update_apply ..

theorem goto_threads [DecidableEq Tid] (t t' : Tid) (phase : Phase) (sections : List Lock) :
    (s.goto t phase sections).threads t' =
      if t' = t then ⟨phase, sections⟩ else s.threads t' :=
  Function.update_apply ..

attribute [grind =] fail_slots fail_threads fail_failed setOwner_slots setOwner_threads
  setOwner_failed setId_slots setId_threads setId_failed goto_slots goto_threads goto_failed

end State

/-! ## The interleavings -/

/-- The guards. A failed assertion disables every action. -/
def guard (s : State Tid) : Action Tid → Prop
  | .enter t _ => s.failed = none ∧ (s.threads t).phase = .running
  | .load t => s.failed = none ∧ ∃ lock, (s.threads t).phase = .loading lock
  | .lock t => s.failed = none ∧
      ∃ lock, (s.threads t).phase = .locking lock ∧ (s.slots lock.slot).owner = none
  | .store t => s.failed = none ∧ ∃ lock, (s.threads t).phase = .storing lock
  | .leave t => s.failed = none ∧ (s.threads t).phase = .running ∧ (s.threads t).sections ≠ []
  | .check t => s.failed = none ∧ ∃ lock, (s.threads t).phase = .checking lock
  | .clear t => s.failed = none ∧ ∃ lock, (s.threads t).phase = .clearing lock
  | .unlock t => s.failed = none ∧ ∃ lock, (s.threads t).phase = .unlocking lock

variable [DecidableEq Tid]

def update (s : State Tid) : Action Tid → State Tid
  | .enter t lock =>
    if lock.typeFlags &&& slTypeLockMask = 0 then s.fail .type
    else if lock.typeFlags &&& slPosixMutex ≠ 0 then
      s.goto t (.loading lock) (s.threads t).sections
    else s.fail .type
  | .load t =>
    match s.threads t with
    | ⟨.loading lock, sections⟩ =>
      let temp := (s.slots lock.slot).id
      if 0 = temp ∨ lock.id = temp then s.goto t (.locking lock) sections else s.fail .acquire
    | _ => s
  | .lock t =>
    match s.threads t with
    | ⟨.locking lock, sections⟩ =>
      (s.setOwner lock.slot (some t)).goto t (.storing lock) sections
    | _ => s
  | .store t =>
    match s.threads t with
    | ⟨.storing lock, sections⟩ =>
      (s.setId lock.slot lock.id).goto t .running (lock :: sections)
    | _ => s
  | .leave t =>
    match s.threads t with
    | ⟨.running, lock :: sections⟩ =>
      if lock.typeFlags &&& slPosixMutex ≠ 0 then s.goto t (.checking lock) sections
      else s.fail .release
    | _ => s
  | .check t =>
    match s.threads t with
    | ⟨.checking lock, sections⟩ =>
      if lock.id = (s.slots lock.slot).id then s.goto t (.clearing lock) sections
      else s.fail .release
    | _ => s
  | .clear t =>
    match s.threads t with
    | ⟨.clearing lock, sections⟩ =>
      (s.setId lock.slot 0).goto t (.unlocking lock) sections
    | _ => s
  | .unlock t =>
    match s.threads t with
    | ⟨.unlocking lock, sections⟩ => (s.setOwner lock.slot none).goto t .running sections
    | _ => s

omit [DecidableEq Tid] in
/-- After `scoped_lock_init`. -/
def initial (Tid : Type*) : State Tid where
  slots _ := ⟨none, 0⟩
  threads _ := ⟨.running, []⟩
  failed := none

def machine (Tid : Type*) [DecidableEq Tid] : Machine (State Tid) (Action Tid) where
  init s := s = initial Tid
  guard := guard
  update := update

@[simp, grind =]
theorem machine_guard (s : State Tid) (a : Action Tid) :
    (machine Tid).guard s a = guard s a := rfl

@[simp, grind =]
theorem machine_update (s : State Tid) (a : Action Tid) :
    (machine Tid).update s a = update s a := rfl

end ParallelPrograms.ScopedLock
