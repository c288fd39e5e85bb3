import ParallelPrograms.SeqLock.Model
import Mathlib.Data.BitVec
import Mathlib.Tactic.SplitIfs

/-!
# What a validated read has seen

`seqcount` is odd exactly while a writer is between its two increments. `read_seqbegin` waits
until it is odd, not until it is even, so every read section begins inside a write section. When
`read_seqretry` finds the same value again, that write section is still open. The copy then
consists of the words of the last record that stood while no writer was inside, except for the
words that the writer had stored before the reader loaded them.
-/

namespace ParallelPrograms.SeqLock

open Concurrency

variable {Tid Word V : Type*} [DecidableEq Tid] [DecidableEq Word] {s : State Tid Word V}
  {record : Word → V} {history : List (Action Tid Word V)}

/-! ## The lock and the counter -/

/-- At most one thread is between its test-and-set and its clear of `__write_lock`. -/
structure Exclusion (s : State Tid Word V) : Prop where
  locked : ∀ t, (s.threads t).Holding → s.writeLock = true
  unique : ∀ t u, (s.threads t).Holding → (s.threads u).Holding → t = u

theorem Exclusion.update (h : Exclusion s) {a : Action Tid Word V} (hguard : guard s a) :
    Exclusion (update s a) := by
  have hlocked := h.locked
  have hunique := h.unique
  constructor <;> cases a <;> grind [SeqLock.update, guard, Pc.Holding]

theorem run_exclusion (hrun : (machine Tid record).Run history s) : Exclusion s := by
  refine hrun.invariant Exclusion ?_ fun s a h hguard ↦ h.update hguard
  intro s heq
  subst heq
  exact ⟨fun _ h ↦ h.elim, fun _ _ h ↦ h.elim⟩

/-- `seqcount` counts the increments, and one more section has begun than ended exactly while a
writer is between its increments. -/
structure Counted (history : List (Action Tid Word V)) (s : State Tid Word V) : Prop where
  seqcount : s.seqcount = BitVec.ofNat 32 (entered history + left history)
  between : ∀ t, (s.threads t).Between → entered history = left history + 1
  free : entered history = left history ∨ ∃ t, (s.threads t).Between

omit [DecidableEq Word] in
theorem Pc.Between.holding {pc : Pc Word V} (h : pc.Between) : pc.Holding := by
  cases pc <;> first | exact h.elim | trivial

omit [DecidableEq Word] in
theorem Pc.Stored.holding {pc : Pc Word V} (h : pc.Stored) : pc.Holding := by
  cases pc <;> first | exact h.elim | trivial

theorem between_update {t : Tid} {a : Action Tid Word V} (h : (s.threads t).Between)
    (hguard : guard s a) (ha : a ≠ .leave t) : ((update s a).threads t).Between := by
  cases a <;> grind [update, guard, Pc.Between]

theorem update_seqcount {a : Action Tid Word V} : (update s a).seqcount =
    if a.isEnter ∨ a.isLeave then s.seqcount + 1 else s.seqcount := by
  cases a <;> grind -ext [update, Action.isEnter, Action.isLeave]

theorem Counted.update (h : Counted history s) (hexclusion : Exclusion s)
    {a : Action Tid Word V} (hguard : guard s a) : Counted (history ++ [a]) (update s a) := by
  have hunique : ∀ t u, (s.threads t).Between → (s.threads u).Holding → t = u :=
    fun t u ht hu ↦ hexclusion.unique t u ht.holding hu
  obtain ⟨hseqcount, hbetween, hfree⟩ := h
  constructor
  · rw [update_seqcount, hseqcount, entered_concat, left_concat]
    cases a <;> simp [Action.isEnter, Action.isLeave, BitVec.ofNat_add] <;> ac_rfl
  · cases a <;>
      grind [SeqLock.update, guard, Pc.Between, Pc.Holding, Action.isEnter, Action.isLeave]
  · rcases hfree with heq | ⟨t, ht⟩
    · cases a with
      | enter t => exact .inr ⟨t, by simp [SeqLock.update, State.goto, Pc.Between]⟩
      | leave t => grind [guard, Pc.Between]
      | _ => exact .inl (by simpa [Action.isEnter, Action.isLeave] using heq)
    · by_cases ha : a = .leave t
      · have := hbetween t ht
        grind [Action.isEnter, Action.isLeave]
      · exact .inr ⟨t, between_update ht hguard ha⟩

theorem run_counted (hrun : (machine Tid record).Run history s) : Counted history s := by
  refine hrun.induction Counted ?_ fun history s a hrun h hguard ↦
    h.update (run_exclusion hrun) hguard
  intro s heq
  subst heq
  exact ⟨rfl, fun _ h ↦ h.elim, .inl rfl⟩

omit [DecidableEq Tid] [DecidableEq Word] in
/-- Without a wrap around of the counter, its value is the number of increments. -/
theorem Counted.toNat (h : Counted history s) (hbound : entered history < 2 ^ 31) :
    s.seqcount.toNat = entered history + left history := by
  have hlt : entered history + left history < 2 ^ 32 := by
    rcases h.free with heq | ⟨t, ht⟩
    · omega
    · have := h.between t ht
      omega
  calc
    s.seqcount.toNat = (entered history + left history) % 2 ^ 32 := by
      rw [h.seqcount, BitVec.toNat_ofNat]
    _ = entered history + left history := Nat.mod_eq_of_lt hlt

/-! ## The copies -/

/-- The state after a history. -/
def after (Tid : Type*) [DecidableEq Tid] (record : Word → V)
    (history : List (Action Tid Word V)) : State Tid Word V :=
  (machine Tid record).final (initial Tid record) history

/-- An instant at which no writer is inside its write section. -/
def Unwritten (s : State Tid Word V) : Prop := ∀ t, ¬ (s.threads t).Writer

/-- The record has not changed since it was `base`, except for the words that the present writer
has stored. A copy that began in the present write section has the words of `base`. -/
structure Snapshot (base : Word → V) (s : State Tid Word V) : Prop where
  writing : ∀ t stored, s.threads t = .writing stored → ∀ word, word ∉ stored →
    s.record word = base word
  rest : (∀ t, ¬ (s.threads t).Stored) → ∀ word, s.record word = base word
  copying : ∀ t seq copy, s.threads t = .copying seq copy →
    seq.toNat ≤ s.seqcount.toNat ∧ seq.toNat % 2 = 1 ∧
      (seq = s.seqcount → ∀ word value, copy word = some value → value = base word)

/-- The word that a reader loads has not been stored in the present write section. -/
def LoadsUnstored (s : State Tid Word V) (a : Action Tid Word V) : Prop :=
  ∀ t word, a = .load t word → ∀ u stored, s.threads u = .writing stored → word ∉ stored

theorem and_one_eq_zero_iff (x : BitVec 32) : x &&& 0x1 = 0 ↔ x.toNat % 2 = 0 := by
  rw [← BitVec.toNat_inj, BitVec.toNat_and]
  simp [Nat.and_one_is_mod]

omit [DecidableEq Tid] [DecidableEq Word] in
theorem Counted.odd_iff (h : Counted history s) (hbound : entered history < 2 ^ 31) :
    s.seqcount.toNat % 2 = 1 ↔ ∃ t, (s.threads t).Between := by
  rw [h.toNat hbound]
  constructor
  · intro hodd
    exact h.free.resolve_left fun heq ↦ by omega
  · intro ⟨t, ht⟩
    have := h.between t ht
    omega

theorem Counted.toNat_update (h : Counted history s) (hexclusion : Exclusion s)
    {a : Action Tid Word V} (hguard : guard s a) (hbound : entered (history ++ [a]) < 2 ^ 31) :
    (SeqLock.update s a).seqcount.toNat =
      s.seqcount.toNat + if a.isEnter ∨ a.isLeave then 1 else 0 := by
  have hbefore : entered history < 2 ^ 31 := by
    rw [entered_concat] at hbound
    omega
  rw [(h.update hexclusion hguard).toNat hbound, h.toNat hbefore, entered_concat, left_concat]
  cases a <;> simp [Action.isEnter, Action.isLeave] <;> omega

theorem stored_update {t : Tid} {a : Action Tid Word V} (h : (s.threads t).Stored)
    (hguard : guard s a) (ha : a ≠ .clear t) : ((update s a).threads t).Stored := by
  cases a <;> grind [update, guard, Pc.Stored]

theorem record_update {a : Action Tid Word V} (hguard : guard s a)
    (hstored : ∀ t, ¬ ((update s a).threads t).Stored) (word : Word) :
    (update s a).record word = s.record word := by
  cases a with
  | store t word' value =>
    have := hstored t
    grind [update, guard, Pc.Stored]
  | _ => grind [update]

omit [DecidableEq Tid] [DecidableEq Word] in
/-- A writer at its first increment finds the record of the last instant without writers. -/
theorem Snapshot.record_entering {base : Word → V} (h : Snapshot base s)
    (hexclusion : Exclusion s) {t : Tid} (ht : s.threads t = .entering) (word : Word) :
    s.record word = base word := by
  refine h.rest (fun u hu ↦ ?_) word
  obtain rfl := hexclusion.unique t u (by rw [ht]; trivial) hu.holding
  rw [ht] at hu
  exact hu

/-- A step that does not give the lock back keeps the snapshot. -/
theorem Snapshot.update {base : Word → V} (h : Snapshot base s) (hexclusion : Exclusion s)
    (hodd : s.seqcount.toNat % 2 = 1 → ∃ t, (s.threads t).Between) {a : Action Tid Word V}
    (hguard : guard s a) (hload : LoadsUnstored s a) (hclear : ∀ t, a ≠ .clear t)
    (hsucc : (SeqLock.update s a).seqcount.toNat =
      s.seqcount.toNat + if a.isEnter ∨ a.isLeave then 1 else 0) :
    Snapshot base (SeqLock.update s a) := by
  constructor
  · have hunique := hexclusion.unique
    have hwriting := h.writing
    cases a with
    | enter t =>
      have := h.record_entering hexclusion hguard
      grind [SeqLock.update]
    | _ => grind [SeqLock.update, guard, Pc.Holding]
  · intro hstored word
    rw [record_update hguard hstored]
    exact h.rest (fun t ht ↦ hstored t (stored_update ht hguard (hclear t))) word
  · have hcopying := h.copying
    have hwriting := h.writing
    cases a with
    | begin t =>
      have hone := and_one_eq_zero_iff s.seqcount
      grind -ext [SeqLock.update, guard]
    | load t word =>
      obtain ⟨seq, copy, ht⟩ := hguard
      obtain ⟨hle, hmod, hcopy⟩ := hcopying t seq copy ht
      -- an odd counter means that a writer is inside, and it has not stored this word
      have hunstored : seq = s.seqcount → s.record word = base word := by
        intro heq
        subst heq
        obtain ⟨u, hu⟩ := hodd hmod
        cases hpc : s.threads u with
        | writing stored => exact hwriting u stored hpc word (hload t word rfl u stored hpc)
        | _ => exact absurd hu (by simp [hpc, Pc.Between])
      intro u seq' copy' hu
      simp only [SeqLock.update, ht, State.goto_threads, State.goto_seqcount] at hu ⊢
      by_cases hut : u = t
      · rw [if_pos hut, Pc.copying.injEq] at hu
        obtain ⟨rfl, rfl⟩ := hu
        refine ⟨hle, hmod, fun heq word' value hvalue ↦ ?_⟩
        by_cases hword : word' = word
        · subst hword
          rw [Function.update_self, Option.some.injEq] at hvalue
          rw [← hvalue, hunstored heq]
        · rw [Function.update_of_ne hword] at hvalue
          exact hcopy heq word' value hvalue
      · rw [if_neg hut] at hu
        exact hcopying u seq' copy' hu
    | _ => grind -ext [SeqLock.update, guard, Action.isEnter, Action.isLeave]

/-- The lock is given back: the record of this instant is the new base. -/
theorem Snapshot.clear {base : Word → V} (h : Snapshot base s) (hexclusion : Exclusion s)
    (hodd : s.seqcount.toNat % 2 = 1 → ∃ t, (s.threads t).Between) {t : Tid}
    (hguard : guard s (.clear t)) :
    Snapshot (SeqLock.update s (.clear t)).record (SeqLock.update s (.clear t)) := by
  have hcopying := h.copying
  have heven : ¬ s.seqcount.toNat % 2 = 1 := by
    intro hmod
    obtain ⟨u, hu⟩ := hodd hmod
    obtain rfl := hexclusion.unique t u (by rcases hguard with ht | ht <;> rw [ht] <;> trivial)
      hu.holding
    rcases hguard with ht | ht <;> rw [ht] at hu <;> exact hu
  constructor
  · intro u stored hu word hword
    rfl
  · intro hstored word
    rfl
  · grind -ext [SeqLock.update]

/-- A copy that `read_seqretry` has accepted is the record of an instant without writers. -/
def Untorn (record : Word → V) (history : List (Action Tid Word V)) (copy : Word → Option V) :
    Prop :=
  ∃ before, before <+: history ∧ Unwritten (after Tid record before) ∧
    ∀ word, copy word = some ((after Tid record before).record word)

theorem Untorn.append {copy : Word → Option V} (h : Untorn record history copy)
    (a : Action Tid Word V) : Untorn record (history ++ [a]) copy := by
  obtain ⟨before, hbefore, hrest⟩ := h
  exact ⟨before, hbefore.trans (List.prefix_append ..), hrest⟩

theorem run_after (hrun : (machine Tid record).Run history s) : after Tid record history = s := by
  obtain ⟨_, rfl, -, hfinal⟩ := hrun
  exact hfinal

omit [DecidableEq Word] in
theorem Pc.Writer.holding {pc : Pc Word V} (h : pc.Writer) : pc.Holding := by
  cases pc <;> first | exact h.elim | trivial

theorem unwritten_clear {t : Tid} (hexclusion : Exclusion s) (hguard : guard s (.clear t)) :
    Unwritten (update s (.clear t)) := by
  intro u hu
  have hunlocked := (hexclusion.update hguard).locked u hu.holding
  cases hunlocked

/-- `read_seqretry` returns false for a complete copy and an unchanged counter. -/
theorem finished_update {t : Tid} {copy : Word → Option V} {a : Action Tid Word V}
    (hguard : guard s a) (ht : (update s a).threads t = .finished copy)
    (hbefore : s.threads t ≠ .finished copy) :
    s.threads t = .copying s.seqcount copy ∧ ∀ word, (copy word).isSome := by
  cases a with
  | retry u =>
    obtain ⟨seq, copy', hu, hcopied⟩ := hguard
    simp only [update, hu] at ht
    split_ifs at ht with hseq
    · by_cases hut : t = u
      · subst hut
        rw [State.goto_threads, if_pos rfl, Pc.finished.injEq] at ht
        subst ht hseq
        exact ⟨hu, hcopied⟩
      · rw [State.goto_threads, if_neg hut] at ht
        exact absurd ht hbefore
    · grind
  | _ => grind [update, guard]

/-- What holds of a run in which the loads meet the condition. -/
structure Reads (record : Word → V) (history : List (Action Tid Word V)) (s : State Tid Word V) :
    Prop where
  snapshot : ∃ before, before <+: history ∧ Unwritten (after Tid record before) ∧
    Snapshot (after Tid record before).record s
  finished : ∀ t copy, s.threads t = .finished copy → Untorn record history copy

theorem Reads.update (h : Reads record history s) (hrun : (machine Tid record).Run history s)
    {a : Action Tid Word V} (hguard : guard s a) (hload : LoadsUnstored s a)
    (hbound : entered (history ++ [a]) < 2 ^ 31) :
    Reads record (history ++ [a]) (update s a) := by
  have hexclusion := run_exclusion hrun
  have hcounted := run_counted hrun
  have hodd := (hcounted.odd_iff (by rw [entered_concat] at hbound; omega)).mp
  obtain ⟨before, hbefore, hunwritten, hsnapshot⟩ := h.snapshot
  constructor
  · by_cases hclear : ∃ t, a = .clear t
    · obtain ⟨t, rfl⟩ := hclear
      have hafter := run_after (hrun.snoc (.clear t) hguard)
      refine ⟨_, List.prefix_rfl, ?_, ?_⟩ <;> rw [hafter]
      · exact unwritten_clear hexclusion hguard
      · exact hsnapshot.clear hexclusion hodd hguard
    · have hsucc := hcounted.toNat_update hexclusion hguard hbound
      exact ⟨before, hbefore.trans (List.prefix_append ..), hunwritten,
        hsnapshot.update hexclusion hodd hguard hload (by simpa using hclear) hsucc⟩
  · intro t copy ht
    by_cases hfinished : s.threads t = .finished copy
    · exact (h.finished t copy hfinished).append a
    · -- the retry that has just succeeded
      obtain ⟨hpc, hcopied⟩ := finished_update hguard ht hfinished
      refine ⟨before, hbefore.trans (List.prefix_append ..), hunwritten, fun word ↦ ?_⟩
      obtain ⟨value, hvalue⟩ := Option.isSome_iff_exists.mp (hcopied word)
      rw [hvalue, (hsnapshot.copying t _ copy hpc).2.2 rfl word value hvalue]

/-- **Reads are not torn** in a run whose readers load no word that the present writer has
already stored: what `read_seqretry` accepts is the record of an instant at which no writer was
inside its write section. -/
theorem read_section_untorn (hrun : ((machine Tid record).when LoadsUnstored).Run history s)
    (hbound : entered history < 2 ^ 31) {t : Tid} {copy : Word → Option V}
    (ht : s.threads t = .finished copy) : Untorn record history copy := by
  suffices h : entered history < 2 ^ 31 → Reads record history s from (h hbound).finished t copy ht
  apply hrun.induction (fun history s ↦ entered history < 2 ^ 31 → Reads record history s)
  · intro s heq _
    subst heq
    refine ⟨⟨[], List.prefix_rfl, fun u hu ↦ hu, ?_⟩, fun t copy ht ↦ nomatch ht⟩
    exact ⟨nofun, fun _ _ ↦ rfl, nofun⟩
  · intro history s a hrun ih ⟨hguard, hload⟩ hbound
    exact (ih (by rw [entered_concat] at hbound; omega)).update hrun.of_when hguard hload hbound

/-- The threads of the runs below. -/
inductive Party where
  | writer
  | reader
deriving DecidableEq

open Party

theorem Party.forall {p : Party → Prop} : (∀ t, p t) ↔ p writer ∧ p reader :=
  ⟨fun h ↦ ⟨h writer, h reader⟩, fun h t ↦ Party.casesOn t h.1 h.2⟩

/-- The reader reads two words while the writer is inside its section and has stored nothing. -/
def earlyHistory : List (Action Party Bool ℕ) :=
  [.writeSeqlock writer, .testAndSet writer, .enter writer, .readSeqbegin reader, .begin reader,
    .load reader false, .load reader true, .retry reader]

theorem legal_earlyHistory :
    ((machine Party fun _ ↦ 0).when LoadsUnstored).Legal (initial Party fun _ ↦ 0)
      earlyHistory := by
  simp [earlyHistory, guard, update, initial, LoadsUnstored, Party.forall, State.goto,
    State.setSeqcount, State.setWriteLock]

theorem read_section_untorn_early : Untorn (fun _ ↦ 0) earlyHistory fun _ ↦ some 0 := by
  refine read_section_untorn (s := after Party (fun _ ↦ 0) earlyHistory) (t := reader)
    ⟨_, rfl, legal_earlyHistory, rfl⟩ (by decide) ?_
  have hcopy : Function.update (Function.update (fun _ : Bool ↦ none) false (some 0)) true
      (some 0) = fun _ ↦ some 0 := by
    funext word
    cases word <;> rfl
  simp [after, earlyHistory, update, initial, State.goto, State.setSeqcount, State.setWriteLock,
    hcopy]

/-- The reader loads one word after its store and the other word before. -/
def tornHistory : List (Action Party Bool ℕ) :=
  [.writeSeqlock writer, .testAndSet writer, .enter writer, .store writer false 1,
    .readSeqbegin reader, .begin reader, .load reader false, .load reader true,
    .store writer true 1, .retry reader, .leave writer, .clear writer]

/-- The copy of `tornHistory`. -/
def tornCopy : Bool → Option ℕ :=
  Function.update (Function.update (fun _ ↦ none) false (some 1)) true (some 0)

/-- The record is never `1, 0` while the writer is outside its section. -/
theorem tornHistory_record : ∀ k < 13,
    ¬ ((after Party (fun _ ↦ 0) (tornHistory.take k)).threads writer).Writer →
    (after Party (fun _ ↦ 0) (tornHistory.take k)).record false =
      (after Party (fun _ ↦ 0) (tornHistory.take k)).record true := by
  decide

theorem read_section_torn : ¬ ∀ (history : List (Action Party Bool ℕ)) s,
    (machine Party fun _ ↦ 0).Run history s → entered history < 2 ^ 31 → ∀ t copy,
    s.threads t = .finished copy → Untorn (fun _ ↦ 0) history copy := by
  intro huntorn
  have hlegal : (machine Party fun _ ↦ 0).Legal (initial Party fun _ ↦ 0) tornHistory := by
    simp [tornHistory, guard, update, initial, State.goto, State.setRecord, State.setSeqcount,
      State.setWriteLock]
  have hfinished : (after Party (fun _ ↦ 0) tornHistory).threads reader = .finished tornCopy := by
    simp [after, tornHistory, tornCopy, update, initial, State.goto, State.setRecord,
      State.setSeqcount, State.setWriteLock]
  obtain ⟨before, hbefore, hunwritten, hcopy⟩ :=
    huntorn tornHistory _ ⟨_, rfl, hlegal, rfl⟩ (by decide) reader tornCopy hfinished
  have hlength : before.length < 13 := Nat.lt_succ_of_le hbefore.length_le
  obtain ⟨rest, hsplit⟩ := hbefore
  have hequal := tornHistory_record before.length hlength
  rw [← hsplit, List.take_left] at hequal
  have hwords := calc
    tornCopy false = some (_ : ℕ) := hcopy false
    _ = some _ := congrArg some (hequal (hunwritten writer))
    _ = tornCopy true := (hcopy true).symm
  exact absurd hwords (by decide)

end ParallelPrograms.SeqLock
