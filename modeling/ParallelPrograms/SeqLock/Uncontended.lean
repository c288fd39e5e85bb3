import ParallelPrograms.SeqLock.Writers

/-!
# Reads without a writer

While no writer is inside its section, `seqcount` is even, whatever the number of sections that
have ended and however often it has wrapped around. The comment of `read_seqbegin` asks for an even
number at the beginning of the read section, but its loop goes on while the number is even. So
a read that no writer disturbs stays in this loop.
-/

namespace ParallelPrograms.SeqLock

open Concurrency

variable {Tid Word V : Type*} [DecidableEq Tid] [DecidableEq Word] {record : Word → V}
  {s : State Tid Word V} {history more : List (Action Tid Word V)} {t : Tid}

/-- No writer is inside its section, neither before nor after the step. -/
def Uncontended (s : State Tid Word V) (a : Action Tid Word V) : Prop :=
  Unwritten s ∧ Unwritten (update s a)

/-- The read section is executed once: the loop of `read_seqbegin` ends with the next load, with an
even number, and as long as no writer is inside its section `read_seqretry` returns false for
this number. -/
def ReadsOnce (record : Word → V) (s : State Tid Word V) (t : Tid) : Prop :=
  ∃ seq, (update s (.begin t)).threads t = .copying seq (fun _ ↦ none) ∧ seq.toNat % 2 = 0 ∧
    ∀ more copy, (machine Tid record).Legal (update s (.begin t)) (more ++ [.retry t]) →
      (machine Tid record).Meets Uncontended (update s (.begin t)) more →
      ((machine Tid record).final (update s (.begin t)) more).threads t = .copying seq copy →
      ((machine Tid record).final (update s (.begin t)) (more ++ [.retry t])).threads t =
        .finished copy

omit [DecidableEq Tid] [DecidableEq Word] in
theorem Unwritten.not_between (h : Unwritten s) : ¬ ∃ t, (s.threads t).Between := by
  rintro ⟨t, ht⟩
  apply h t
  cases hpc : s.threads t <;> rw [hpc] at ht <;> first | exact ht.elim | trivial

/-- The number is even when no writer is inside its section. -/
theorem seqcount_even (hrun : (machine Tid record).Run history s) (hunwritten : Unwritten s) :
    s.seqcount.toNat % 2 = 0 := by
  have hseqcount := (run_counted hrun).seqcount_free hunwritten.not_between
  rw [hseqcount, BitVec.toNat_ofNat]
  omega

/-- The load finds an even number, and the loop goes on. -/
theorem begin_eq (hrun : (machine Tid record).Run history s) (hunwritten : Unwritten s) :
    update s (.begin t) = s := by
  have hzero := (and_one_eq_zero_iff s.seqcount).mpr (seqcount_even hrun hunwritten)
  rw [update, if_pos hzero]

/-- No step without a writer takes a reader out of the loop. -/
theorem stays_beginning {a : Action Tid Word V} (hrun : (machine Tid record).Run history s)
    (hguard : guard s a) (hunwritten : Unwritten s) (ht : s.threads t = .beginning) :
    (update s a).threads t = .beginning := by
  cases a with
  | begin u => rwa [begin_eq hrun hunwritten]
  | _ => grind [guard, update]

/-- **A read that no writer disturbs never begins**: when the reader comes to the loop of
`read_seqbegin`, the next load does not end it, and the reader stays in the loop as long as no
writer is inside its section. -/
theorem uncontended_read_spins (hrun : (machine Tid record).Run history s)
    (hunwritten : Unwritten s) (ht : s.threads t = .beginning) :
    ¬ ReadsOnce record s t ∧
    ∀ more, (machine Tid record).Legal s more → (machine Tid record).Meets Uncontended s more →
      ((machine Tid record).final s more).threads t = .beginning := by
  constructor
  · rintro ⟨seq, hcopying, -⟩
    rw [begin_eq hrun hunwritten, ht] at hcopying
    cases hcopying
  · intro more hlegal hmeets
    induction more generalizing history s with
    | nil => exact ht
    | cons a more ih =>
      obtain ⟨hguard, hlegal⟩ := hlegal
      obtain ⟨⟨-, hafter⟩, hmeets⟩ := hmeets
      have hnow := stays_beginning hrun hguard hunwritten ht
      exact ih (hrun.snoc a hguard) hafter hnow hlegal hmeets

/-- A complete write section, and then a reader in `read_seqbegin`. -/
def readAfterWrite : List (Action Bool Unit Unit) :=
  [.writeSeqlock true, .testAndSet true, .enter true, .leave true, .clear true,
    .readSeqbegin false]

theorem readAfterWrite_legal : (machine Bool fun _ : Unit ↦ ()).Legal (initial Bool fun _ ↦ ())
    readAfterWrite :=
  ⟨rfl, .inl rfl, rfl, ⟨[], rfl⟩, .inl rfl, rfl, trivial⟩

theorem unwritten_readAfterWrite : Unwritten (after Bool (fun _ ↦ ()) readAfterWrite) := by
  intro t
  cases t <;> decide

theorem readAfterWrite_spins :
    ¬ ReadsOnce (fun _ ↦ ()) (after Bool (fun _ ↦ ()) readAfterWrite) false :=
  (uncontended_read_spins ⟨_, rfl, readAfterWrite_legal, rfl⟩ unwritten_readAfterWrite rfl).1

theorem uncontended_read_not_once :
    ¬ ∀ (history : List (Action Bool Unit Unit)) s t, (machine Bool fun _ ↦ ()).Run history s →
      Unwritten s → s.threads t = .beginning → ReadsOnce (fun _ ↦ ()) s t := by
  intro h
  have hpc : (update (after Bool (fun _ ↦ ()) readAfterWrite) (.begin false)).threads false =
      .beginning := rfl
  obtain ⟨seq, hcopying, -⟩ := h readAfterWrite (after Bool (fun _ ↦ ()) readAfterWrite) false
    ⟨_, rfl, readAfterWrite_legal, rfl⟩ unwritten_readAfterWrite rfl
  rw [hpc] at hcopying
  cases hcopying

end ParallelPrograms.SeqLock
