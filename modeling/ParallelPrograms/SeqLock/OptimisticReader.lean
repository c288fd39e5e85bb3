import ParallelPrograms.Concurrency.Machine
import Mathlib.Algebra.Group.Nat.Defs
import Mathlib.Logic.Function.Basic
import Mathlib.Tactic.Simps.Basic
import Mathlib.Tactic.Tauto

/-!
# The optimistic reader that may lock

`read_seqbegin_or_lock`, `need_seqretry` and `done_seqretry` of `seqlock.h` against any number of
writers. After more than ten rounds without an odd `seqcount` the reader takes `__write_lock` and
remembers this as the sequence number -1.

Two things break the rule that -1 means having the lock. The value -1 is odd, so the loop takes it
from `seqcount` without the lock. And `done_seqretry` calls `read_seqlock_excl` where it should
call `read_sequnlock_excl`: a reader that has the lock waits for itself.

A reader reads its data between the calls. It does not touch the lock or the counter there, so
these reads are left out.
-/

namespace ParallelPrograms.SeqLock.OptimisticReader

open Concurrency

/-- Where a thread is. -/
inductive Pc where
  /-- Outside, or finished. -/
  | idle
  /-- `write_seqlock`, at the test-and-set of `__write_lock`. -/
  | locking
  /-- At the first increment of `seqcount`. -/
  | entering
  /-- Between the two increments. -/
  | writing
  /-- `write_sequnlock`, at the clear of `__write_lock`. -/
  | leaving
  /-- `read_seqbegin_or_lock`, before a round of its loop. -/
  | trying (tryCnt : ℕ)
  /-- In `read_seqlock_excl`, after `*seq = -1`. -/
  | lockingExcl
  /-- Between `read_seqbegin_or_lock` and `need_seqretry`. -/
  | reading (seq : BitVec 32)
  /-- `need_seqretry` has returned false, before `done_seqretry`. -/
  | ending (seq : BitVec 32)
  /-- `done_seqretry`, in `read_seqlock_excl`. -/
  | lockingDone
  deriving DecidableEq, Repr

structure State (Tid : Type*) where
  seqcount : BitVec 32
  /-- The thread whose test-and-set has set `__write_lock`, while it is set. -/
  writeLock : Option Tid
  threads : Tid → Pc

inductive Action (Tid : Type*) where
  | writeSeqlock (t : Tid)
  /-- One round of the loop on `atomic_flag_test_and_set`. -/
  | testAndSet (t : Tid)
  /-- The increment of `write_seqlock`. -/
  | enter (t : Tid)
  /-- The increment of `write_sequnlock`. -/
  | leave (t : Tid)
  /-- `atomic_flag_clear` -/
  | clear (t : Tid)
  | readSeqbeginOrLock (t : Tid)
  /-- The load of `seqcount` in its loop. -/
  | load (t : Tid)
  /-- `need_seqretry`. When it returns true the reader starts over. -/
  | needSeqretry (t : Tid)
  | doneSeqretry (t : Tid)
  deriving DecidableEq, Repr

variable {Tid : Type*}

def Action.tid : Action Tid → Tid
  | writeSeqlock t | testAndSet t | enter t | leave t | clear t | readSeqbeginOrLock t | load t
  | needSeqretry t | doneSeqretry t => t

/-- The sequence number of the read section. -/
def Pc.seq? : Pc → Option (BitVec 32)
  | reading seq | ending seq => some seq
  | _ => none

/-- The thread is on its way from the test-and-set to the clear of `__write_lock`, or reads with
the sequence number -1. -/
def Pc.Holding : Pc → Prop
  | entering | writing | leaving => True
  | reading seq | ending seq => seq = -1
  | _ => False

/-- The thread is at a test-and-set. -/
def Pc.Spinning : Pc → Prop
  | locking | lockingExcl | lockingDone => True
  | _ => False

/-- The thread has finished, or it is at a test-and-set. -/
def Pc.Settled (pc : Pc) : Prop := pc = .idle ∨ pc.Spinning

/-- The writer has the lock. -/
def Pc.Writer : Pc → Prop
  | entering | writing | leaving => True
  | _ => False

namespace State

variable (s : State Tid)

@[simps]
def setSeqcount (seqcount : BitVec 32) : State Tid := { s with seqcount }

@[simps]
def setWriteLock (writeLock : Option Tid) : State Tid := { s with writeLock }

@[simps seqcount writeLock]
def goto [DecidableEq Tid] (t : Tid) (pc : Pc) : State Tid :=
  { s with threads := Function.update s.threads t pc }

@[grind =]
theorem goto_threads [DecidableEq Tid] (t t' : Tid) (pc : Pc) :
    (s.goto t pc).threads t' = if t' = t then pc else s.threads t' :=
  Function.update_apply ..

attribute [grind =] setSeqcount_seqcount setSeqcount_writeLock setSeqcount_threads
  setWriteLock_seqcount setWriteLock_writeLock setWriteLock_threads goto_seqcount goto_writeLock

end State

/-! ## The interleavings -/

def guard (s : State Tid) : Action Tid → Prop
  | .writeSeqlock t | .readSeqbeginOrLock t => s.threads t = .idle
  | .testAndSet t => (s.threads t).Spinning
  | .enter t => s.threads t = .entering
  | .leave t => s.threads t = .writing
  | .clear t => s.threads t = .leaving
  | .load t => ∃ tryCnt, s.threads t = .trying tryCnt
  | .needSeqretry t => ∃ seq, s.threads t = .reading seq
  | .doneSeqretry t => ∃ seq, s.threads t = .ending seq

variable [DecidableEq Tid]

/-- A round of the loop of `read_seqbegin_or_lock`, and the test of `try_cnt` of the next one. -/
def tryLoad (s : State Tid) (t : Tid) (tryCnt : ℕ) : State Tid :=
  -- `while (!(seqcnt & 0x1))`
  if s.seqcount &&& 0x1 = 0 then
    if tryCnt + 1 > 10 then s.goto t .lockingExcl else s.goto t (.trying (tryCnt + 1))
  else s.goto t (.reading s.seqcount)

def update (s : State Tid) : Action Tid → State Tid
  | .writeSeqlock t => s.goto t .locking
  | .testAndSet t =>
    if s.writeLock.isSome then s
    else
      match s.threads t with
      | .locking => (s.setWriteLock (some t)).goto t .entering
      | .lockingExcl => (s.setWriteLock (some t)).goto t (.reading (-1))
      | .lockingDone => (s.setWriteLock (some t)).goto t .idle
      | _ => s
  | .enter t => (s.setSeqcount (s.seqcount + 1)).goto t .writing
  | .leave t => (s.setSeqcount (s.seqcount + 1)).goto t .leaving
  | .clear t => (s.setWriteLock none).goto t .idle
  | .readSeqbeginOrLock t => s.goto t (.trying 0)
  | .load t =>
    match s.threads t with
    | .trying tryCnt => tryLoad s t tryCnt
    | _ => s
  | .needSeqretry t =>
    match s.threads t with
    | .reading seq =>
      if seq = -1 ∨ seq = s.seqcount then s.goto t (.ending seq) else s.goto t (.trying 0)
    | _ => s
  | .doneSeqretry t =>
    match s.threads t with
    | .ending seq => if seq ≠ -1 then s.goto t .idle else s.goto t .lockingDone
    | _ => s

/-- `DEFINE_SEQLOCK` -/
def initial (Tid : Type*) : State Tid where
  seqcount := 0
  writeLock := none
  threads _ := .idle

def machine (Tid : Type*) [DecidableEq Tid] : Machine (State Tid) (Action Tid) where
  init s := s = initial Tid
  guard := guard
  update := update

@[simp, grind =]
theorem machine_guard (s : State Tid) (a : Action Tid) :
    (machine Tid).guard s a = guard s a := rfl

@[simp, grind =]
theorem machine_update (s : State Tid) (a : Action Tid) :
    (machine Tid).update s a = update s a := rfl

/-! ## The lock and the sequence number -/

/-- The sequence number of a read section is -1 exactly when its reader has the lock, nobody has
the lock after the end, and while it is taken some thread does not wait for it. -/
structure LockMatches (s : State Tid) : Prop where
  seq : ∀ t seq, (s.threads t).seq? = some seq → (seq = -1 ↔ s.writeLock = some t)
  finished : ∀ t, s.threads t = .idle → s.writeLock ≠ some t
  progress : s.writeLock.isSome → ∃ t, s.threads t ≠ .idle ∧ ¬ (s.threads t).Spinning

/-- No reader takes -1 from `seqcount`, and none calls `done_seqretry` with it. -/
def SparesSentinel (s : State Tid) : Action Tid → Prop
  | .load _ => s.seqcount ≠ -1
  | .doneSeqretry t => s.threads t ≠ .ending (-1)
  | _ => True

/-- The lock belongs to the thread that is `Holding`, and nobody asks for it in
`done_seqretry`. -/
structure Inv (s : State Tid) : Prop where
  holder : ∀ t, s.writeLock = some t ↔ (s.threads t).Holding
  done : ∀ t, s.threads t ≠ .lockingDone

section Invariant

variable {s : State Tid} {t : Tid} {pc : Pc}

omit [DecidableEq Tid] in
theorem inv_initial : Inv (initial Tid) := ⟨fun _ ↦ ⟨nofun, False.elim⟩, fun _ ↦ nofun⟩

/-- A thread moves on and neither gets nor loses the lock. -/
theorem Inv.goto (h : Inv s) (hsame : pc.Holding ↔ (s.threads t).Holding)
    (hpc : pc ≠ .lockingDone) : Inv (s.goto t pc) where
  holder t' := by
    have hholder := h.holder t'
    grind
  done t' := by
    have hdone := h.done t'
    grind

/-- A test-and-set finds the lock free. -/
theorem Inv.take (h : Inv s) (hfree : s.writeLock = none) (hholding : pc.Holding)
    (hpc : pc ≠ .lockingDone) : Inv ((s.setWriteLock (some t)).goto t pc) where
  holder t' := by
    have hholder := h.holder t'
    grind
  done t' := by
    have hdone := h.done t'
    grind

theorem Inv.release (h : Inv s) (ht : (s.threads t).Holding) :
    Inv ((s.setWriteLock none).goto t .idle) where
  holder t' := by
    have howner := (h.holder t).mpr ht
    have hholder := h.holder t'
    grind [Pc.Holding]
  done t' := by
    have hdone := h.done t'
    grind

theorem Inv.testAndSet (h : Inv s) (hguard : guard s (.testAndSet t)) :
    Inv (update s (.testAndSet t)) := by
  by_cases hset : s.writeLock.isSome
  · simpa only [OptimisticReader.update, if_pos hset] using h
  · have hfree : s.writeLock = none := by simpa using hset
    cases hpc : s.threads t with
    | locking =>
      simp only [OptimisticReader.update, if_neg hset, hpc]
      exact h.take hfree trivial nofun
    | lockingExcl =>
      simp only [OptimisticReader.update, if_neg hset, hpc]
      exact h.take hfree rfl nofun
    | lockingDone => exact absurd hpc (h.done t)
    | _ => simp [guard, hpc, Pc.Spinning] at hguard

/-- An odd `seqcount` other than -1 starts a read section without the lock. -/
theorem Inv.load (h : Inv s) (hguard : guard s (.load t)) (hspares : s.seqcount ≠ -1) :
    Inv (update s (.load t)) := by
  obtain ⟨tryCnt, hpc⟩ := hguard
  have hholding : ¬ (s.threads t).Holding := by
    rw [hpc]
    exact id
  simp only [OptimisticReader.update, hpc, tryLoad]
  split_ifs
  · exact h.goto (iff_of_false id hholding) nofun
  · exact h.goto (iff_of_false id hholding) nofun
  · exact h.goto (iff_of_false hspares hholding) nofun

theorem Inv.needSeqretry (h : Inv s) (hguard : guard s (.needSeqretry t)) :
    Inv (update s (.needSeqretry t)) := by
  obtain ⟨seq, hpc⟩ := hguard
  simp only [OptimisticReader.update, hpc]
  split_ifs with hretry
  · exact h.goto (by rw [hpc]; rfl) nofun
  · have hholding : ¬ (s.threads t).Holding := by
      rw [hpc]
      exact fun heq ↦ hretry (.inl heq)
    exact h.goto (iff_of_false id hholding) nofun

theorem Inv.doneSeqretry (h : Inv s) (hguard : guard s (.doneSeqretry t))
    (hspares : s.threads t ≠ .ending (-1)) : Inv (update s (.doneSeqretry t)) := by
  obtain ⟨seq, hpc⟩ := hguard
  have hne : seq ≠ -1 := by
    rintro rfl
    exact hspares hpc
  have hholding : ¬ (s.threads t).Holding := by
    rw [hpc]
    exact hne
  simp only [OptimisticReader.update, hpc, if_pos hne]
  exact h.goto (iff_of_false id hholding) nofun

theorem Inv.update (h : Inv s) {a : Action Tid} (hguard : guard s a)
    (hspares : SparesSentinel s a) : Inv (update s a) := by
  cases a with
  | writeSeqlock t =>
    have hpc : s.threads t = .idle := hguard
    exact h.goto (by rw [hpc]; rfl) nofun
  | testAndSet t => exact h.testAndSet hguard
  | enter t =>
    have hpc : s.threads t = .entering := hguard
    have hinv : Inv (s.setSeqcount (s.seqcount + 1)) := ⟨h.holder, h.done⟩
    exact hinv.goto (by rw [State.setSeqcount_threads, hpc]; rfl) nofun
  | leave t =>
    have hpc : s.threads t = .writing := hguard
    have hinv : Inv (s.setSeqcount (s.seqcount + 1)) := ⟨h.holder, h.done⟩
    exact hinv.goto (by rw [State.setSeqcount_threads, hpc]; rfl) nofun
  | clear t =>
    have hpc : s.threads t = .leaving := hguard
    exact h.release (by rw [hpc]; trivial)
  | readSeqbeginOrLock t =>
    have hpc : s.threads t = .idle := hguard
    exact h.goto (by rw [hpc]; rfl) nofun
  | load t => exact h.load hguard hspares
  | needSeqretry t => exact h.needSeqretry hguard
  | doneSeqretry t => exact h.doneSeqretry hguard hspares

omit [DecidableEq Tid] in
theorem Inv.lockMatches (h : Inv s) : LockMatches s where
  seq t seq hseq := by
    rw [h.holder t]
    cases hpc : s.threads t with
    | reading seq' | ending seq' =>
      rw [hpc] at hseq
      cases hseq
      rfl
    | _ => simp [hpc, Pc.seq?] at hseq
  finished t hpc howner := by
    have hholding := (h.holder t).mp howner
    rw [hpc] at hholding
    exact hholding
  progress hset := by
    obtain ⟨t, howner⟩ := Option.isSome_iff_exists.mp hset
    have hholding := (h.holder t).mp howner
    refine ⟨t, ?_, ?_⟩ <;> cases hpc : s.threads t <;> simp_all [Pc.Holding, Pc.Spinning]

/-! ## The reader that waits for itself -/

/-- Thread `t` has the lock and waits for it, and nobody else is going to clear it. -/
structure Stuck (t : Tid) (s : State Tid) : Prop where
  pc : s.threads t = .lockingDone
  owner : s.writeLock = some t
  writers : ∀ t', ¬ (s.threads t').Writer

theorem Stuck.update (h : Stuck t s) {a : Action Tid} (hguard : guard s a) :
    Stuck t (update s a) := by
  obtain ⟨hpc, howner, hwriters⟩ := h
  constructor <;> cases a <;> grind [OptimisticReader.update, guard, tryLoad, Pc.Writer]

/-- `done_seqretry` calls `read_seqlock_excl` with the lock. -/
theorem Inv.stuck (h : Inv s) (hpc : s.threads t = .ending (-1)) :
    Stuck t (OptimisticReader.update s (.doneSeqretry t)) := by
  have howner := (h.holder t).mpr (by rw [hpc]; rfl)
  have hwriters (t' : Tid) (ht' : (s.threads t').Writer) : t' = t := by
    have hholding : (s.threads t').Holding := by
      cases hpc' : s.threads t' <;> simp_all [Pc.Writer, Pc.Holding]
    exact Option.some.inj (((h.holder t').mpr hholding).symm.trans howner)
  have hstep : OptimisticReader.update s (.doneSeqretry t) = s.goto t .lockingDone := by
    simp only [OptimisticReader.update, hpc, ne_eq, not_true_eq_false, if_false]
  rw [hstep]
  refine ⟨Function.update_self .., howner, fun t' ht' ↦ ?_⟩
  rw [State.goto_threads] at ht'
  split_ifs at ht' with heq
  · exact ht'
  · exact heq (hwriters t' ht')

/-- A load that takes -1 gives its reader the sequence number of a locked one. -/
theorem Inv.load_sentinel (h : Inv s) (hguard : guard s (.load t)) (hseqcount : s.seqcount = -1) :
    ¬ LockMatches (OptimisticReader.update s (.load t)) := by
  obtain ⟨tryCnt, hpc⟩ := hguard
  have hodd : ¬ (-1 : BitVec 32) &&& 0x1 = 0 := by
    decide
  have hstep : OptimisticReader.update s (.load t) = s.goto t (.reading (-1)) := by
    simp only [OptimisticReader.update, hpc, tryLoad, hseqcount, if_neg hodd]
  intro hmatches
  rw [hstep] at hmatches
  have howner := (hmatches.seq t (-1) (by simp [State.goto_threads, Pc.seq?])).mp rfl
  have hholding := (h.holder t).mp howner
  rw [hpc] at hholding
  exact hholding

/-! ## The deadlock -/

/-- With the `seqcount` that it is, thread `t` alone finishes or gets to a test-and-set. -/
def Settles (t : Tid) (s : State Tid) : Prop :=
  ∃ more pc, (machine Tid).Legal s more ∧ (machine Tid).final s more = s.goto t pc ∧ pc.Settled

theorem Settles.of_settled (h : (s.threads t).Settled) : Settles t s := by
  refine ⟨[], s.threads t, trivial, ?_, h⟩
  simp [State.goto]

theorem Settles.of_step (a : Action Tid) (hguard : guard s a)
    (hstep : OptimisticReader.update s a = s.goto t pc) (h : Settles t (s.goto t pc)) :
    Settles t s := by
  obtain ⟨more, pc', hlegal, hfinal, hsettled⟩ := h
  refine ⟨a :: more, pc', ⟨hguard, ?_⟩, ?_, hsettled⟩
  · rwa [machine_update, hstep]
  · rw [Machine.final_cons, machine_update, hstep, hfinal]
    simp [State.goto]

theorem settles_ending {seq : BitVec 32} (hpc : s.threads t = .ending seq) : Settles t s := by
  have hstep : OptimisticReader.update s (.doneSeqretry t) =
      s.goto t (if seq ≠ -1 then .idle else .lockingDone) := by
    simp only [OptimisticReader.update, hpc]
    split_ifs <;> rfl
  apply Settles.of_step (.doneSeqretry t) ⟨seq, hpc⟩ hstep
  apply Settles.of_settled
  rw [State.goto_threads, if_pos rfl]
  split_ifs
  · exact .inl rfl
  · exact .inr trivial

/-- A reader whose sequence number is -1, or that finds it again in `seqcount`, does not retry. -/
theorem settles_reading {seq : BitVec 32} (hpc : s.threads t = .reading seq)
    (hsame : seq = -1 ∨ seq = s.seqcount) : Settles t s := by
  have hstep : OptimisticReader.update s (.needSeqretry t) = s.goto t (.ending seq) := by
    simp only [OptimisticReader.update, hpc, if_pos hsame]
  apply Settles.of_step (.needSeqretry t) ⟨seq, hpc⟩ hstep
  exact settles_ending (Function.update_self ..)

/-- A round of the loop of `read_seqbegin_or_lock` ends it, or leads to the next round. -/
theorem settles_round (tryCnt : ℕ) (hpc : s.threads t = .trying tryCnt)
    (hnext : tryCnt < 10 → Settles t (s.goto t (.trying (tryCnt + 1)))) : Settles t s := by
  have hguard : guard s (.load t) := ⟨tryCnt, hpc⟩
  have hload : OptimisticReader.update s (.load t) = tryLoad s t tryCnt := by
    simp only [OptimisticReader.update, hpc]
  rw [tryLoad] at hload
  split_ifs at hload with heven hlast
  · apply Settles.of_step (.load t) hguard hload
    exact .of_settled (.inr (by simp [State.goto_threads, Pc.Spinning]))
  · exact .of_step (.load t) hguard hload (hnext (by omega))
  · apply Settles.of_step (.load t) hguard hload
    exact settles_reading (Function.update_self ..) (.inr rfl)

theorem settles_trying (tryCnt : ℕ) (hpc : s.threads t = .trying tryCnt) : Settles t s := by
  -- on the rounds that are left of the eleven
  induction hleft : 10 - tryCnt generalizing s tryCnt with
  | zero => exact settles_round tryCnt hpc fun hmore ↦ by omega
  | succ left ih =>
    exact settles_round tryCnt hpc fun _ ↦ ih (tryCnt + 1) (Function.update_self ..) (by omega)

/-- Without the lock of a writer nothing but a test-and-set keeps a thread from finishing. -/
theorem settles (hwriter : ¬ (s.threads t).Writer) : Settles t s := by
  cases hpc : s.threads t with
  | idle => exact .of_settled (.inl hpc)
  | locking | lockingExcl | lockingDone => exact .of_settled (.inr (by rw [hpc]; trivial))
  | entering | writing | leaving => exact absurd (by rw [hpc]; trivial) hwriter
  | trying tryCnt => exact settles_trying tryCnt hpc
  | reading seq =>
    by_cases hsame : seq = -1 ∨ seq = s.seqcount
    · exact settles_reading hpc hsame
    · have hstep : OptimisticReader.update s (.needSeqretry t) = s.goto t (.trying 0) := by
        simp only [OptimisticReader.update, hpc, if_neg hsame]
      apply Settles.of_step (.needSeqretry t) ⟨seq, hpc⟩ hstep
      exact settles_trying 0 (Function.update_self ..)
  | ending seq => exact settles_ending hpc

theorem Stuck.final (h : Stuck t s) {more : List (Action Tid)}
    (hlegal : (machine Tid).Legal s more) : Stuck t ((machine Tid).final s more) :=
  Machine.legal_induction (fun _ s ↦ Stuck t s) h
    (fun _ _ _ ih hguard ↦ ih.update hguard) hlegal

/-- The other threads finish one after the other, or get to a test-and-set. -/
theorem Stuck.exists_settled (h : Stuck t s) (others : List Tid) :
    ∃ more, (machine Tid).Legal s more ∧ ∀ u, u ∈ others ∨ (s.threads u).Settled →
      (((machine Tid).final s more).threads u).Settled := by
  induction others generalizing s with
  | nil => exact ⟨[], trivial, fun u hu ↦ hu.resolve_left List.not_mem_nil⟩
  | cons v others ih =>
    obtain ⟨first, pc, hfirst, hfinal, hpc⟩ := settles (h.writers v)
    have hstuck := h.final hfirst
    obtain ⟨second, hsecond, hsettled⟩ := ih hstuck
    refine ⟨first ++ second, (Machine.legal_append ..).mpr ⟨hfirst, hsecond⟩, fun u hu ↦ ?_⟩
    rw [Machine.final_append]
    apply hsettled
    rw [hfinal, State.goto_threads]
    split_ifs with huv
    · exact .inr hpc
    · exact hu.imp_left fun hmem ↦ (List.mem_cons.mp hmem).resolve_left huv

/-- Then the flag is set, and every thread that has not finished waits for it. -/
theorem Stuck.exists_deadlock (h : Stuck t s) (others : List Tid)
    (hothers : ∀ u ∉ others, s.threads u = .idle) :
    ∃ more, (machine Tid).Legal s more ∧ ¬ LockMatches ((machine Tid).final s more) := by
  obtain ⟨more, hlegal, hsettled⟩ := h.exists_settled others
  refine ⟨more, hlegal, fun hmatches ↦ ?_⟩
  obtain ⟨u, hidle, hspinning⟩ := hmatches.progress (by rw [(h.final hlegal).owner]; rfl)
  have hu : u ∈ others ∨ (s.threads u).Settled := by
    by_cases hmem : u ∈ others
    · exact .inl hmem
    · exact .inr (.inl (hothers u hmem))
  rcases hsettled u hu with h | h
  · exact hidle h
  · exact hspinning h

end Invariant

section Runs

variable {history : List (Action Tid)}

/-- A thread that has done nothing. -/
theorem threads_eq_idle (hlegal : (machine Tid).Legal (initial Tid) history) (t : Tid)
    (ht : t ∉ history.map Action.tid) :
    ((machine Tid).final (initial Tid) history).threads t = .idle := by
  refine Machine.legal_induction (fun history s ↦
    t ∉ history.map Action.tid → s.threads t = .idle) (fun _ ↦ rfl) ?_ hlegal ht
  intro history a _ ih hguard hnot
  rw [List.map_append, List.mem_append, not_or, List.map_singleton, List.mem_singleton] at hnot
  have hsame : (update ((machine Tid).final (initial Tid) history) a).threads t =
      ((machine Tid).final (initial Tid) history).threads t := by
    cases a <;> grind [OptimisticReader.update, tryLoad, Action.tid]
  exact hsame.trans (ih hnot.1)

theorem inv_of_meets (hlegal : (machine Tid).Legal (initial Tid) history)
    (hspares : (machine Tid).Meets SparesSentinel (initial Tid) history) :
    Inv ((machine Tid).final (initial Tid) history) := by
  apply Machine.meets_induction (fun _ s ↦ Inv s) inv_initial _ hlegal hspares
  exact fun _ a _ ih hguard hspare ↦ ih.update hguard hspare

/-- A reader that takes the sentinel shows at once, and one that calls `done_seqretry` with it
never ends. -/
theorem exists_stuck (hlegal : (machine Tid).Legal (initial Tid) history)
    (hmatches : ∀ before, before <+: history →
      LockMatches ((machine Tid).final (initial Tid) before))
    (hnot : ¬ (machine Tid).Meets SparesSentinel (initial Tid) history) :
    ∃ t, Stuck t ((machine Tid).final (initial Tid) history) := by
  obtain ⟨before, a, rest, rfl, hmeets, hbad⟩ := Machine.exists_of_not_meets _ hnot
  obtain ⟨hbefore, hguard, hrest⟩ := (Machine.legal_append ..).mp hlegal
  have hinv := inv_of_meets hbefore hmeets
  cases a with
  | load t =>
    have hnext : (machine Tid).final (initial Tid) (before ++ [.load t]) =
        update ((machine Tid).final (initial Tid) before) (.load t) := Machine.final_append ..
    have hlater := hmatches (before ++ [.load t]) ⟨rest, by simp⟩
    rw [hnext] at hlater
    exact absurd hlater (hinv.load_sentinel hguard (not_not.mp hbad))
  | doneSeqretry t =>
    refine ⟨t, ?_⟩
    rw [Machine.final_append, Machine.final_cons]
    exact (hinv.stuck (not_not.mp hbad)).final hrest
  | _ => exact absurd trivial hbad

/-- In a run that ends with all threads finished nobody has called `done_seqretry` with -1, and no
load has taken it. -/
theorem meets_of_lockMatches (hlegal : (machine Tid).Legal (initial Tid) history)
    (hidle : ∀ t, ((machine Tid).final (initial Tid) history).threads t = .idle)
    (hmatches : ∀ before, before <+: history →
      LockMatches ((machine Tid).final (initial Tid) before)) :
    (machine Tid).Meets SparesSentinel (initial Tid) history := by
  by_contra hnot
  obtain ⟨t, hstuck⟩ := exists_stuck hlegal hmatches hnot
  cases (hidle t).symm.trans hstuck.pc

/-- After a call of `done_seqretry` with -1 the run can go on to a deadlock. -/
theorem meets_of_continuations (hlegal : (machine Tid).Legal (initial Tid) history)
    (hmatches : ∀ more, (machine Tid).Legal (initial Tid) (history ++ more) →
      ∀ before, before <+: history ++ more →
        LockMatches ((machine Tid).final (initial Tid) before)) :
    (machine Tid).Meets SparesSentinel (initial Tid) history := by
  by_contra hnot
  have hhistory := hmatches [] (by rwa [List.append_nil])
  rw [List.append_nil] at hhistory
  obtain ⟨t, hstuck⟩ := exists_stuck hlegal hhistory hnot
  obtain ⟨more, hmore, hdeadlock⟩ := hstuck.exists_deadlock (history.map Action.tid)
    (threads_eq_idle hlegal)
  apply hdeadlock
  rw [← Machine.final_append]
  exact hmatches more ((Machine.legal_append ..).mpr ⟨hlegal, hmore⟩) _ List.prefix_rfl

/-- **The sequence number -1 means having the lock** in a run in which no reader takes -1 from
`seqcount` and none calls `done_seqretry` with -1. Conversely, a run meets this condition when the
rule holds in it and in all its continuations. For a run whose threads have all finished the rule
has to hold in the run alone: a thread that has called `done_seqretry` with -1 never finishes, so
this is about the loads. -/
theorem lockMatches_iff_spares (hlegal : (machine Tid).Legal (initial Tid) history) :
    ((machine Tid).Meets SparesSentinel (initial Tid) history → ∀ before, before <+: history →
      LockMatches ((machine Tid).final (initial Tid) before)) ∧
    ((∀ more, (machine Tid).Legal (initial Tid) (history ++ more) →
      ∀ before, before <+: history ++ more →
        LockMatches ((machine Tid).final (initial Tid) before)) →
          (machine Tid).Meets SparesSentinel (initial Tid) history) ∧
    ((∀ t, ((machine Tid).final (initial Tid) history).threads t = .idle) →
      (∀ before, before <+: history →
        LockMatches ((machine Tid).final (initial Tid) before)) →
          (machine Tid).Meets SparesSentinel (initial Tid) history) := by
  refine ⟨fun hspares before hbefore ↦ ?_, meets_of_continuations hlegal,
    meets_of_lockMatches hlegal⟩
  have hinv := inv_of_meets (hlegal.of_prefix hbefore) (hspares.of_prefix hbefore)
  exact hinv.lockMatches

end Runs

/-- A reader inside a write section. -/
def insideWriter : List (Action Bool) :=
  [.writeSeqlock true, .testAndSet true, .enter true, .readSeqbeginOrLock false, .load false,
    .needSeqretry false, .doneSeqretry false, .leave true, .clear true]

theorem lockMatches_insideWriter :
    LockMatches ((machine Bool).final (initial Bool) insideWriter) := by
  have hlegal : (machine Bool).Legal (initial Bool) insideWriter :=
    ⟨rfl, trivial, rfl, rfl, ⟨0, rfl⟩, ⟨1, rfl⟩, ⟨1, rfl⟩, rfl, rfl, trivial⟩
  have hload : (1 : BitVec 32) ≠ -1 := by
    decide
  have hdone : Pc.ending 1 ≠ .ending (-1) := by
    decide
  have hspares : (machine Bool).Meets SparesSentinel (initial Bool) insideWriter :=
    ⟨trivial, trivial, trivial, trivial, hload, trivial, hdone, trivial, trivial, trivial⟩
  exact (lockMatches_iff_spares hlegal).1 hspares insideWriter List.prefix_rfl

/-- One reader, alone. -/
def aloneHistory : List (Action Unit) :=
  .readSeqbeginOrLock () :: (List.replicate 11 (.load ()) ++
    [.testAndSet (), .needSeqretry (), .doneSeqretry ()])

theorem locked_reader_deadlock :
    ¬ ∀ history, (machine Unit).Legal (initial Unit) history →
      LockMatches ((machine Unit).final (initial Unit) history) := by
  intro h
  have hlegal : (machine Unit).Legal (initial Unit) aloneHistory :=
    ⟨rfl, ⟨0, rfl⟩, ⟨1, rfl⟩, ⟨2, rfl⟩, ⟨3, rfl⟩, ⟨4, rfl⟩, ⟨5, rfl⟩, ⟨6, rfl⟩, ⟨7, rfl⟩, ⟨8, rfl⟩,
      ⟨9, rfl⟩, ⟨10, rfl⟩, trivial, ⟨-1, rfl⟩, ⟨-1, rfl⟩, trivial⟩
  obtain ⟨t, -, hspinning⟩ := (h aloneHistory hlegal).progress rfl
  exact hspinning trivial

end ParallelPrograms.SeqLock.OptimisticReader
