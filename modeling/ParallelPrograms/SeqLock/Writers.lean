import ParallelPrograms.SeqLock.Snapshot

/-!
# Writers and exclusive readers

The flag is taken by writers and by exclusive readers, and only writers increment `seqcount`, once
after they have taken the flag and once before they give it back. The counter therefore is twice
the number of the ended write sections, and one more while a section is open. Its parity does not
depend on how often it has wrapped around.
-/

namespace ParallelPrograms.SeqLock

open Concurrency

variable {Tid Word V : Type*}

/-- The thread that takes the action. -/
def Action.thread : Action Tid Word V → Tid
  | writeSeqlock t | readSeqlockExcl t | testAndSet t | enter t | store t _ _ | leave t | clear t
  | readSeqbegin t | begin t | load t _ | retry t | done t => t

/-- The thread is in `read_seqlock_excl`, or between it and the end of `read_sequnlock_excl`. -/
def Pc.Exclusive : Pc Word V → Prop
  | lockingExcl | exclusive => True
  | idle | locking | entering | writing _ | leaving | beginning | copying .. | finished _ => False

variable [DecidableEq Tid] [DecidableEq Word] {s : State Tid Word V} {record : Word → V}
  {history : List (Action Tid Word V)}

/-- An exclusive reader does not write to the counter. -/
theorem exclusive_seqcount {a : Action Tid Word V} (hguard : guard s a)
    (ha : (s.threads a.thread).Exclusive ∨ a = .readSeqlockExcl a.thread) :
    (update s a).seqcount = s.seqcount := by
  rw [update_seqcount, if_neg]
  cases a with
  | enter t =>
    have ht : s.threads t = .entering := hguard
    simp_all [Action.thread, Pc.Exclusive]
  | leave t =>
    obtain ⟨stored, ht⟩ := hguard
    simp_all [Action.thread, Pc.Exclusive]
  | _ => simp [Action.isEnter, Action.isLeave]

omit [DecidableEq Tid] [DecidableEq Word] in
/-- One section more has begun than ended while a writer is between its increments. -/
theorem Counted.seqcount_between (h : Counted history s) (hopen : ∃ t, (s.threads t).Between) :
    s.seqcount = BitVec.ofNat 32 (2 * left history + 1) := by
  obtain ⟨t, ht⟩ := hopen
  rw [h.seqcount, h.between t ht]
  congr 1
  omega

omit [DecidableEq Tid] [DecidableEq Word] in
theorem Counted.seqcount_free (h : Counted history s) (hopen : ¬ ∃ t, (s.threads t).Between) :
    s.seqcount = BitVec.ofNat 32 (2 * left history) := by
  rw [h.seqcount, h.free.resolve_right hopen]
  congr 1
  omega

/-- **The flag excludes, and the counter counts the write sections.** -/
theorem seqlock_writers (hrun : (machine Tid record).Run history s) :
    (∀ t u, (s.threads t).Holding → (s.threads u).Holding → t = u) ∧
    ((∃ t, (s.threads t).Between) → s.seqcount = BitVec.ofNat 32 (2 * left history + 1)) ∧
    ((¬ ∃ t, (s.threads t).Between) → s.seqcount = BitVec.ofNat 32 (2 * left history)) ∧
    (s.seqcount.toNat % 2 = 1 ↔ ∃ t, (s.threads t).Between) ∧
    ∀ a, guard s a → ((s.threads a.thread).Exclusive ∨ a = .readSeqlockExcl a.thread) →
      (update s a).seqcount = s.seqcount := by
  have hcounted := run_counted hrun
  refine ⟨(run_exclusion hrun).unique, hcounted.seqcount_between, hcounted.seqcount_free, ?_,
    fun a hguard ha ↦ exclusive_seqcount hguard ha⟩
  constructor
  · intro hodd
    by_contra hopen
    rw [hcounted.seqcount_free hopen, BitVec.toNat_ofNat] at hodd
    omega
  · intro hopen
    rw [hcounted.seqcount_between hopen, BitVec.toNat_ofNat]
    omega

/-- A write section, then a section of an exclusive reader, then an open write section. -/
def sectionsHistory : List (Action Bool Unit Unit) :=
  [.writeSeqlock false, .testAndSet false, .enter false, .readSeqlockExcl true, .testAndSet true,
    .leave false, .clear false, .testAndSet true, .clear true, .writeSeqlock false,
    .testAndSet false, .enter false]

theorem seqlock_writers_sections :
    (((machine Bool fun _ : Unit ↦ ()).final (initial Bool fun _ ↦ ()) sectionsHistory).seqcount =
      BitVec.ofNat 32 (2 * left sectionsHistory + 1)) := by
  have hlegal : (machine Bool fun _ : Unit ↦ ()).Legal (initial Bool fun _ ↦ ())
      sectionsHistory :=
    ⟨rfl, .inl rfl, rfl, rfl, .inr rfl, ⟨[], rfl⟩, .inl rfl, .inr rfl, .inr rfl, rfl, .inl rfl,
      rfl, trivial⟩
  exact (seqlock_writers ⟨initial Bool fun _ ↦ (), rfl, hlegal, rfl⟩).2.1 ⟨false, trivial⟩

end ParallelPrograms.SeqLock
