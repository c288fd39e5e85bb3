import ParallelPrograms.Concurrency.Machine
import Mathlib.Logic.Function.Basic
import Mathlib.Tactic.Simps.Basic

/-!
# The sequence lock

`write_seqlock`, `write_sequnlock`, `read_seqlock_excl`, `read_sequnlock_excl`, `read_seqbegin`
and `read_seqretry` of `seqlock.h`, with every access to the lock and to the protected record an
action of its own. The record has one value for each word. A writer stores any words in any order
inside its section. A reader copies the words in any order between `read_seqbegin` and
`read_seqretry`, and calls `read_seqretry` when it has all of them.

`seqcount` is an `atomic_int`, whose additions wrap around at 32 bits.
-/

namespace ParallelPrograms.SeqLock

open Concurrency

/-- Where a thread is. -/
inductive Pc (Word V : Type*) where
  | idle
  /-- `write_seqlock`, at the test-and-set of `__write_lock`. -/
  | locking
  /-- At the first increment of `seqcount`. -/
  | entering
  /-- Between the two increments, with the words stored so far. -/
  | writing (stored : List Word)
  /-- `write_sequnlock`, at the clear of `__write_lock`. -/
  | leaving
  /-- `read_seqlock_excl`, at the test-and-set. -/
  | lockingExcl
  /-- Before `read_sequnlock_excl`. -/
  | exclusive
  /-- `read_seqbegin`, at the load of `seqcount`. -/
  | beginning
  /-- The read section, with the value `read_seqbegin` returned and the words copied so far. -/
  | copying (seq : BitVec 32) (copy : Word → Option V)
  /-- `read_seqretry` has returned false. -/
  | finished (copy : Word → Option V)

structure State (Tid Word V : Type*) where
  seqcount : BitVec 32
  /-- `__write_lock` -/
  writeLock : Bool
  record : Word → V
  threads : Tid → Pc Word V

inductive Action (Tid Word V : Type*) where
  | writeSeqlock (t : Tid)
  | readSeqlockExcl (t : Tid)
  /-- One round of the loop on `atomic_flag_test_and_set`. -/
  | testAndSet (t : Tid)
  /-- The increment of `write_seqlock`. -/
  | enter (t : Tid)
  /-- The writer stores a word. -/
  | store (t : Tid) (word : Word) (value : V)
  /-- The increment of `write_sequnlock`. -/
  | leave (t : Tid)
  /-- `atomic_flag_clear` -/
  | clear (t : Tid)
  | readSeqbegin (t : Tid)
  /-- One round of the loop of `read_seqbegin`. -/
  | begin (t : Tid)
  /-- The reader copies a word. -/
  | load (t : Tid) (word : Word)
  /-- `read_seqretry`. When it returns true the reader is free to start over. -/
  | retry (t : Tid)
  /-- The reader drops its copy. -/
  | done (t : Tid)
  deriving DecidableEq, Repr

variable {Tid Word V : Type*}

/-- The thread is between its test-and-set and its clear of `__write_lock`. -/
def Pc.Holding : Pc Word V → Prop
  | entering | writing _ | leaving | exclusive => True
  | idle | locking | lockingExcl | beginning | copying .. | finished _ => False

/-- The writer is inside its write section: it has the lock, and not yet given it back. -/
def Pc.Writer : Pc Word V → Prop
  | entering | writing _ | leaving => True
  | idle | locking | lockingExcl | exclusive | beginning | copying .. | finished _ => False

instance : DecidablePred (Pc.Writer : Pc Word V → Prop)
  | .entering | .writing _ | .leaving => isTrue trivial
  | .idle | .locking | .lockingExcl | .exclusive | .beginning | .copying .. | .finished _ =>
    isFalse id

/-- The writer is between its two increments. -/
def Pc.Between : Pc Word V → Prop
  | writing _ => True
  | idle | locking | entering | leaving | lockingExcl | exclusive | beginning | copying ..
  | finished _ => False

/-- The writer may have stored words of its section. -/
def Pc.Stored : Pc Word V → Prop
  | writing _ | leaving => True
  | idle | locking | entering | lockingExcl | exclusive | beginning | copying .. | finished _ =>
    False

namespace State

variable (s : State Tid Word V)

@[simps]
def setSeqcount (seqcount : BitVec 32) : State Tid Word V := { s with seqcount }

@[simps]
def setWriteLock (writeLock : Bool) : State Tid Word V := { s with writeLock }

attribute [grind =] setSeqcount_seqcount setSeqcount_writeLock setSeqcount_record
  setSeqcount_threads setWriteLock_seqcount setWriteLock_writeLock setWriteLock_record
  setWriteLock_threads

@[simps seqcount writeLock threads]
def setRecord [DecidableEq Word] (word : Word) (value : V) : State Tid Word V :=
  { s with record := Function.update s.record word value }

@[grind =]
theorem setRecord_record [DecidableEq Word] (word word' : Word) (value : V) :
    (s.setRecord word value).record word' = if word' = word then value else s.record word' :=
  Function.update_apply ..

@[simps seqcount writeLock record]
def goto [DecidableEq Tid] (t : Tid) (pc : Pc Word V) : State Tid Word V :=
  { s with threads := Function.update s.threads t pc }

@[grind =]
theorem goto_threads [DecidableEq Tid] (t t' : Tid) (pc : Pc Word V) :
    (s.goto t pc).threads t' = if t' = t then pc else s.threads t' :=
  Function.update_apply ..

attribute [grind =] setRecord_seqcount setRecord_writeLock setRecord_threads goto_seqcount
  goto_writeLock goto_record

end State

variable [DecidableEq Tid] [DecidableEq Word]

def guard (s : State Tid Word V) : Action Tid Word V → Prop
  | .writeSeqlock t | .readSeqlockExcl t | .readSeqbegin t => s.threads t = .idle
  | .testAndSet t => s.threads t = .locking ∨ s.threads t = .lockingExcl
  | .enter t => s.threads t = .entering
  | .store t _ _ | .leave t => ∃ stored, s.threads t = .writing stored
  | .clear t => s.threads t = .leaving ∨ s.threads t = .exclusive
  | .begin t => s.threads t = .beginning
  | .load t _ => ∃ seq copy, s.threads t = .copying seq copy
  | .retry t => ∃ seq copy, s.threads t = .copying seq copy ∧ ∀ word, (copy word).isSome
  | .done t => ∃ copy, s.threads t = .finished copy

def update (s : State Tid Word V) : Action Tid Word V → State Tid Word V
  | .writeSeqlock t => s.goto t .locking
  | .readSeqlockExcl t => s.goto t .lockingExcl
  | .testAndSet t =>
    if s.writeLock then s
    else
      match s.threads t with
      | .locking => (s.setWriteLock true).goto t .entering
      | .lockingExcl => (s.setWriteLock true).goto t .exclusive
      | _ => s
  | .enter t => (s.setSeqcount (s.seqcount + 1)).goto t (.writing [])
  | .store t word value =>
    match s.threads t with
    | .writing stored => (s.setRecord word value).goto t (.writing (word :: stored))
    | _ => s
  | .leave t => (s.setSeqcount (s.seqcount + 1)).goto t .leaving
  | .clear t => (s.setWriteLock false).goto t .idle
  | .readSeqbegin t => s.goto t .beginning
  | .begin t =>
    -- `while (!(seq & 0x1))`
    if s.seqcount &&& 0x1 = 0 then s else s.goto t (.copying s.seqcount fun _ ↦ none)
  | .load t word =>
    match s.threads t with
    | .copying seq copy =>
      s.goto t (.copying seq (Function.update copy word (some (s.record word))))
    | _ => s
  | .retry t =>
    match s.threads t with
    | .copying seq copy => if seq = s.seqcount then s.goto t (.finished copy) else s.goto t .idle
    | _ => s
  | .done t => s.goto t .idle

/-- `DEFINE_SEQLOCK` and a record. -/
def initial (Tid : Type*) (record : Word → V) : State Tid Word V where
  seqcount := 0
  writeLock := false
  record := record
  threads _ := .idle

def machine (Tid : Type*) [DecidableEq Tid] (record : Word → V) :
    Machine (State Tid Word V) (Action Tid Word V) where
  init s := s = initial Tid record
  guard := guard
  update := update

@[simp, grind =]
theorem machine_guard (record : Word → V) (s : State Tid Word V) (a : Action Tid Word V) :
    (machine Tid record).guard s a = guard s a := rfl

@[simp, grind =]
theorem machine_update (record : Word → V) (s : State Tid Word V) (a : Action Tid Word V) :
    (machine Tid record).update s a = update s a := rfl

def Action.isEnter : Action Tid Word V → Bool
  | enter _ => true
  | _ => false

def Action.isLeave : Action Tid Word V → Bool
  | leave _ => true
  | _ => false

/-- The number of write sections that have begun. -/
def entered (history : List (Action Tid Word V)) : ℕ := history.countP Action.isEnter

/-- The number of write sections that have ended. -/
def left (history : List (Action Tid Word V)) : ℕ := history.countP Action.isLeave

omit [DecidableEq Tid] [DecidableEq Word] in
@[simp, grind =]
theorem entered_concat (history : List (Action Tid Word V)) (a : Action Tid Word V) :
    entered (history ++ [a]) = entered history + if a.isEnter then 1 else 0 := by
  simp [entered, List.countP_singleton]

omit [DecidableEq Tid] [DecidableEq Word] in
@[simp, grind =]
theorem left_concat (history : List (Action Tid Word V)) (a : Action Tid Word V) :
    left (history ++ [a]) = left history + if a.isLeave then 1 else 0 := by
  simp [left, List.countP_singleton]

end ParallelPrograms.SeqLock
