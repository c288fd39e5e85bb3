import ParallelPrograms.Concurrency.Machine
import Mathlib.Data.Nat.Count
import Mathlib.Logic.Function.Basic

/-!
# The centralized sense-reversing barrier

`barrier(b, n)` of `centralized_barrier.h`, one atomic action for each of its steps. The object
`b` holds the flag, the count and the mutex; `local_sense` is one variable of each thread, which
all barrier objects share. The objects are an arbitrary type, so that a machine can contain any
number of objects defined with `DEFINE_BARRIER`.

All threads follow one schedule: `schedule k` is the object of a thread's call number `k`
(from 0), and `none` where a thread makes no further call. A thread may stop anywhere, since no
interleaving is obliged to schedule it again.
-/

namespace ParallelPrograms.Barrier.Centralized

open Concurrency

/-- Where a thread is in `barrier(b, n)`. -/
inductive Phase (Obj : Type*) where
  /-- Between two calls. -/
  | outside
  /-- The sense is toggled; at `pthread_mutex_lock`. -/
  | locking (b : Obj)
  /-- At `b->count++` and the comparison with `n`. -/
  | counting (b : Obj)
  /-- The last arriver, at `b->count = 0`. -/
  | resetting (b : Obj)
  /-- The last arriver, at `pthread_mutex_unlock`. -/
  | releasing (b : Obj)
  /-- The last arriver, at the store of the flag. -/
  | publishing (b : Obj)
  /-- Not the last arriver, at `pthread_mutex_unlock`. -/
  | leaving (b : Obj)
  /-- Not the last arriver, at the load of the flag. -/
  | spinning (b : Obj)
  deriving DecidableEq, Repr

/-- The object whose call the thread is in. -/
def Phase.object? {Obj : Type*} : Phase Obj → Option Obj
  | outside => none
  | locking b | counting b | resetting b | releasing b | publishing b | leaving b | spinning b =>
    some b

structure Thread (Obj : Type*) where
  phase : Phase Obj
  localSense : ℤ
  /-- How many calls of `barrier` the thread has begun. -/
  calls : ℕ

/-- `struct barrier`. -/
structure Object (Tid : Type*) where
  flag : ℤ
  count : ℤ
  lock : Option Tid

/-- `BARRIER_INIT`. -/
def barrierInit (Tid : Type*) : Object Tid where
  flag := 0
  count := 0
  lock := none

structure State (Tid Obj : Type*) where
  threads : Tid → Thread Obj
  barriers : Obj → Object Tid

/-- The negation `!x` of C. -/
def logicalNot (x : ℤ) : ℤ := if x = 0 then 1 else 0

inductive Action (Tid Obj : Type*) where
  | toggle (t : Tid) (b : Obj)
  | lock (t : Tid) (b : Obj)
  | increment (t : Tid) (b : Obj)
  | reset (t : Tid) (b : Obj)
  | unlockLast (t : Tid) (b : Obj)
  | store (t : Tid) (b : Obj)
  | unlock (t : Tid) (b : Obj)
  /-- A flag load that does not match: the loop goes round again. -/
  | spin (t : Tid) (b : Obj)
  /-- A flag load that matches: the call returns. -/
  | leave (t : Tid) (b : Obj)
  deriving DecidableEq, Repr

variable {Tid Obj : Type*}

section Writes

variable (s : State Tid Obj)

section Thread

variable [DecidableEq Tid] (t u : Tid) (b : Obj) (phase : Phase Obj)

/-- Move one thread to another place of its code. -/
def State.goto : State Tid Obj where
  threads := Function.update s.threads t
    ⟨phase, (s.threads t).localSense, (s.threads t).calls⟩
  barriers := s.barriers

/-- `local_sense = !local_sense`, the first step of a call on `b`. -/
def State.toggleSense : State Tid Obj where
  threads := Function.update s.threads t
    ⟨.locking b, logicalNot (s.threads t).localSense, (s.threads t).calls + 1⟩
  barriers := s.barriers

@[simp, grind =]
theorem goto_barriers (c : Obj) : (s.goto t phase).barriers c = s.barriers c := rfl

@[grind =]
theorem goto_threads : (s.goto t phase).threads u =
    if u = t then ⟨phase, (s.threads t).localSense, (s.threads t).calls⟩ else s.threads u :=
  Function.update_apply ..

@[simp, grind =]
theorem toggleSense_barriers (c : Obj) : (s.toggleSense t b).barriers c = s.barriers c := rfl

@[grind =]
theorem toggleSense_threads : (s.toggleSense t b).threads u =
    if u = t then ⟨.locking b, logicalNot (s.threads t).localSense, (s.threads t).calls + 1⟩
    else s.threads u :=
  Function.update_apply ..

end Thread

section Barrier

variable [DecidableEq Obj] (b c : Obj)

def State.setFlag (flag : ℤ) : State Tid Obj where
  threads := s.threads
  barriers := Function.update s.barriers b ⟨flag, (s.barriers b).count, (s.barriers b).lock⟩

def State.setCount (count : ℤ) : State Tid Obj where
  threads := s.threads
  barriers := Function.update s.barriers b ⟨(s.barriers b).flag, count, (s.barriers b).lock⟩

def State.setLock (lock : Option Tid) : State Tid Obj where
  threads := s.threads
  barriers := Function.update s.barriers b ⟨(s.barriers b).flag, (s.barriers b).count, lock⟩

@[simp, grind =]
theorem setFlag_threads (flag : ℤ) (t : Tid) : (s.setFlag b flag).threads t = s.threads t := rfl

@[grind =]
theorem setFlag_barriers (flag : ℤ) : (s.setFlag b flag).barriers c =
    if c = b then ⟨flag, (s.barriers b).count, (s.barriers b).lock⟩ else s.barriers c :=
  Function.update_apply ..

@[simp, grind =]
theorem setCount_threads (count : ℤ) (t : Tid) : (s.setCount b count).threads t = s.threads t := rfl

@[grind =]
theorem setCount_barriers (count : ℤ) : (s.setCount b count).barriers c =
    if c = b then ⟨(s.barriers b).flag, count, (s.barriers b).lock⟩ else s.barriers c :=
  Function.update_apply ..

@[simp, grind =]
theorem setLock_threads (lock : Option Tid) (t : Tid) :
    (s.setLock b lock).threads t = s.threads t := rfl

@[grind =]
theorem setLock_barriers (lock : Option Tid) : (s.setLock b lock).barriers c =
    if c = b then ⟨(s.barriers b).flag, (s.barriers b).count, lock⟩ else s.barriers c :=
  Function.update_apply ..

end Barrier

end Writes

/-! ## The interleavings -/

variable [DecidableEq Tid] [DecidableEq Obj]

def initial (Tid Obj : Type*) : State Tid Obj where
  threads _ := ⟨.outside, 0, 0⟩
  barriers _ := barrierInit Tid

def guard (schedule : ℕ → Option Obj) (s : State Tid Obj) : Action Tid Obj → Prop
  | .toggle t b => (s.threads t).phase = .outside ∧ schedule (s.threads t).calls = some b
  | .lock t b => (s.threads t).phase = .locking b ∧ (s.barriers b).lock = none
  | .increment t b => (s.threads t).phase = .counting b
  | .reset t b => (s.threads t).phase = .resetting b
  | .unlockLast t b => (s.threads t).phase = .releasing b
  | .store t b => (s.threads t).phase = .publishing b
  | .unlock t b => (s.threads t).phase = .leaving b
  | .spin t b =>
    (s.threads t).phase = .spinning b ∧ (s.barriers b).flag ≠ (s.threads t).localSense
  | .leave t b =>
    (s.threads t).phase = .spinning b ∧ (s.barriers b).flag = (s.threads t).localSense

def update (n : ℕ) (s : State Tid Obj) : Action Tid Obj → State Tid Obj
  | .toggle t b => s.toggleSense t b
  | .lock t b => (s.setLock b (some t)).goto t (.counting b)
  | .increment t b =>
    (s.setCount b ((s.barriers b).count + 1)).goto t
      (if (s.barriers b).count + 1 = n then .resetting b else .leaving b)
  | .reset t b => (s.setCount b 0).goto t (.releasing b)
  | .unlockLast t b => (s.setLock b none).goto t (.publishing b)
  | .store t b => (s.setFlag b (s.threads t).localSense).goto t .outside
  | .unlock t b => (s.setLock b none).goto t (.spinning b)
  | .spin _ _ => s
  | .leave t _ => s.goto t .outside

instance (schedule : ℕ → Option Obj) (s : State Tid Obj) (a : Action Tid Obj) :
    Decidable (guard schedule s a) := by
  cases a <;> unfold guard <;> infer_instance

/-- `n` threads that call `barrier(b, n)` along the schedule. -/
def machine (n : ℕ) (schedule : ℕ → Option Obj) :
    Machine (State (Fin n) Obj) (Action (Fin n) Obj) where
  init s := s = initial (Fin n) Obj
  guard := guard schedule
  update := update n

instance (n : ℕ) (schedule : ℕ → Option Obj) (s : State (Fin n) Obj) (a : Action (Fin n) Obj) :
    Decidable ((machine n schedule).guard s a) :=
  inferInstanceAs (Decidable (guard schedule s a))

@[simp, grind =]
theorem machine_guard (n : ℕ) (schedule : ℕ → Option Obj) (s : State (Fin n) Obj)
    (a : Action (Fin n) Obj) : (machine n schedule).guard s a = guard schedule s a := rfl

@[simp, grind =]
theorem machine_update (n : ℕ) (schedule : ℕ → Option Obj) (s : State (Fin n) Obj)
    (a : Action (Fin n) Obj) : (machine n schedule).update s a = update n s a := rfl

/-- How often `t` has incremented the count of `b`. -/
def increments (history : List (Action Tid Obj)) (t : Tid) (b : Obj) : ℕ :=
  history.count (.increment t b)

/-- How often a call of `t` on `b` has returned: by the store of the flag in the last arriver,
by a matching load in the others. -/
def returns (history : List (Action Tid Obj)) (t : Tid) (b : Obj) : ℕ :=
  history.count (.store t b) + history.count (.leave t b)

/-- No thread returns from its `k`-th call on `b` before every thread has incremented the count
of `b` in its own `k`-th call on `b`. -/
def Synchronizes (history : List (Action Tid Obj)) (b : Obj) : Prop :=
  ∀ t u, returns history t b ≤ increments history u b

end ParallelPrograms.Barrier.Centralized
