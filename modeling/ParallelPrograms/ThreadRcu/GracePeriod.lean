import ParallelPrograms.ThreadRcu.Model

/-!
# The grace period of thread-based RCU

The scan of `synchronize_rcu` waits for the readers whose flag is in the slot of the current
index. While the updater holds the lock the index is fixed, so a reader with its flag in that
slot keeps the scan from passing until it unlocks.

A reader may have its flag in the other slot, though: it reads the index, another grace period
increments it, and only then the reader stores its flag. The next grace period does not see this
section and returns while it is open. The grace period theorem therefore asks that the sections
to wait for are in the current slot when the updater gets the lock.
-/

namespace ParallelPrograms.ThreadRcu

open Concurrency

variable {Rid Uid : Type*} [DecidableEq Rid] [DecidableEq Uid] {nodes : List Rid}
  {s : State Rid Uid}

/-- The updater inside the lock is its owner, and only registered threads read. -/
structure Inv (nodes : List Rid) (s : State Rid Uid) : Prop where
  holder : ∀ u, (s.updaters u).Holding → s.sp = some u
  registered : ∀ r, s.readers r ≠ .outside → r ∈ nodes

theorem Inv.update (h : Inv nodes s) {a : Action Rid Uid} (hguard : guard nodes s a) :
    Inv nodes (update nodes s a) := by
  have hholder := h.holder
  have hregistered := h.registered
  constructor <;> cases a <;> grind [ThreadRcu.update, guard, UpdaterPc.Holding]

theorem run_inv {history : List (Action Rid Uid)} (hrun : (machine Rid Uid nodes).Run history s) :
    Inv nodes s := by
  refine hrun.invariant (Inv nodes) ?_ fun s a h hguard ↦ h.update hguard
  intro s heq
  subst heq
  exact ⟨fun u hu ↦ hu.elim, fun r hr ↦ absurd rfl hr⟩

/-- A section stays open until its unlock. -/
theorem open_update {r : Rid} {a : Action Rid Uid} (hopen : (s.readers r).Open)
    (hguard : guard nodes s a) (ha : a ≠ .unlockWrite r) :
    ((update nodes s a).readers r).Open := by
  cases a <;> grind [update, guard, ReaderPc.Open]

/-- The scan still has the node `r` in front of it, and a round that tests it has read the index
`idx`. -/
def UpdaterPc.Ahead (idx : UInt32) (r : Rid) : UpdaterPc Rid → Prop
  | scanning nodes => r ∈ nodes
  | testing idx' node nodes => idx' = idx ∧ (r = node ∨ r ∈ nodes)
  | idle | waiting | releasing => False

omit [DecidableEq Rid] in
theorem UpdaterPc.Ahead.holding {idx : UInt32} {r : Rid} {pc : UpdaterPc Rid}
    (h : pc.Ahead idx r) : pc.Holding := by
  cases pc <;> first | exact h.elim | trivial

/-- The updater waits for the section of `r`, whose flag is in the slot of `idx`. -/
structure Blocked (idx : UInt32) (r : Rid) (u : Uid) (s : State Rid Uid) : Prop where
  isOpen : (s.readers r).Open
  flagged : s.nesting r (slot idx) % 2 = 1
  current : s.idx = idx
  ahead : (s.updaters u).Ahead idx r

theorem Blocked.update {idx : UInt32} {r : Rid} {u : Uid} (h : Blocked idx r u s)
    (hinv : Inv nodes s) {a : Action Rid Uid} (hguard : guard nodes s a)
    (ha : a ≠ .unlockWrite r) : Blocked idx r u (update nodes s a) := by
  obtain ⟨hopen, hflagged, hcurrent, hahead⟩ := h
  have hholder := hinv.holder
  have hsp := hholder u hahead.holding
  refine ⟨open_update hopen hguard ha, ?_, ?_, ?_⟩
  · cases a <;> grind [ThreadRcu.update, guard, ReaderPc.Open]
  · cases a with
    | flip u' =>
      -- only the owner of the lock increments the index, and its scan is not over
      have hsp' := hholder u' (by rw [hguard]; trivial)
      grind [guard, UpdaterPc.Ahead]
    | _ => grind [ThreadRcu.update, guard]
  · cases a <;> grind [ThreadRcu.update, guard, UpdaterPc.Ahead]

/-- An updater that has called `synchronize_rcu` waits for the lock until it gets it. -/
theorem waiting_update {u : Uid} {a : Action Rid Uid} (hwaiting : s.updaters u = .waiting)
    (hguard : guard nodes s a) (ha : a ≠ .acquire u) :
    (update nodes s a).updaters u = .waiting := by
  cases a <;> grind [update, guard]

/-- The state of `rcu_data` and of the threads after a history. -/
def after (nodes : List Rid) (history : List (Action Rid Uid)) : State Rid Uid :=
  (machine Rid Uid nodes).final (initial Rid Uid) history

theorem after_append (nodes : List Rid) (before more : List (Action Rid Uid)) :
    after nodes (before ++ more) = (machine Rid Uid nodes).final (after nodes before) more :=
  Machine.final_append ..

theorem legal_after {before more : List (Action Rid Uid)}
    (hlegal : (machine Rid Uid nodes).Legal (initial Rid Uid) (before ++ more)) :
    (machine Rid Uid nodes).Run before (after nodes before) ∧
      (machine Rid Uid nodes).Legal (after nodes before) more := by
  obtain ⟨hbefore, hmore⟩ := ((machine Rid Uid nodes).legal_append ..).mp hlegal
  exact ⟨⟨_, rfl, hbefore, rfl⟩, hmore⟩

/-- Whenever a call of `synchronize_rcu` gets the lock, each section that was open at the call
and still is has its flag in the slot that the index selects. -/
def SlotsCurrent (nodes : List Rid) (history : List (Action Rid Uid)) : Prop :=
  ∀ before u waiting rest, history = before ++ .call u :: (waiting ++ .acquire u :: rest) →
    .acquire u ∉ waiting → ∀ r, ((after nodes before).readers r).Open → .unlockWrite r ∉ waiting →
    (after nodes (before ++ .call u :: waiting)).nesting r
      (slot (after nodes (before ++ .call u :: waiting)).idx) % 2 = 1

/-- Whenever a call of `synchronize_rcu` returns, each section that was open at the call has
executed its unlock. -/
def WaitsForReaders (nodes : List Rid) (history : List (Action Rid Uid)) : Prop :=
  ∀ before u during rest, history = before ++ .call u :: (during ++ .release u :: rest) →
    .release u ∉ during → ∀ r, ((after nodes before).readers r).Open → .unlockWrite r ∈ during

/-- The part of a call before it gets the lock. -/
theorem waiting_persists {before waiting : List (Action Rid Uid)} {u : Uid}
    (hlegal : (machine Rid Uid nodes).Legal (initial Rid Uid) (before ++ .call u :: waiting))
    (hacquire : .acquire u ∉ waiting) :
    (after nodes (before ++ .call u :: waiting)).updaters u = .waiting := by
  obtain ⟨hrun, hcall, hwaiting⟩ := legal_after hlegal
  rw [after_append]
  refine (hrun.snoc (.call u) hcall).persists (fun s ↦ s.updaters u = .waiting)
    (fun a ↦ a = .acquire u) ?_ hwaiting ?_ ?_
  · exact fun history s a _ hs ha hguard ↦ waiting_update hs hguard ha
  · intro a hmem heq
    subst heq
    exact hacquire hmem
  · grind [update]

theorem open_persists {before during : List (Action Rid Uid)} {r : Rid}
    (hlegal : (machine Rid Uid nodes).Legal (initial Rid Uid) (before ++ during))
    (hopen : ((after nodes before).readers r).Open) (hunlock : .unlockWrite r ∉ during) :
    ((after nodes (before ++ during)).readers r).Open := by
  obtain ⟨hrun, hduring⟩ := legal_after hlegal
  rw [after_append]
  refine hrun.persists (fun s ↦ (s.readers r).Open)
    (fun a ↦ a = .unlockWrite r) ?_ hduring ?_ hopen
  · exact fun history s a _ hs ha hguard ↦ open_update hs hguard ha
  · intro a hmem heq
    subst heq
    exact hunlock hmem

/-- From the moment the updater has the lock, a flag in the current slot blocks it. -/
theorem blocked_persists {before scan : List (Action Rid Uid)} {u : Uid} {r : Rid}
    (hlegal : (machine Rid Uid nodes).Legal (initial Rid Uid) (before ++ .acquire u :: scan))
    (hopen : ((after nodes before).readers r).Open)
    (hflag : (after nodes before).nesting r (slot (after nodes before).idx) % 2 = 1)
    (hunlock : .unlockWrite r ∉ scan) :
    Blocked (after nodes before).idx r u (after nodes (before ++ .acquire u :: scan)) := by
  obtain ⟨hrun, hacquire, hscan⟩ := legal_after hlegal
  rw [after_append]
  refine (hrun.snoc (.acquire u) hacquire).persists (Blocked (after nodes before).idx r u)
    (fun a ↦ a = .unlockWrite r) ?_ hscan ?_ ?_
  · exact fun history s a hrun hs ha hguard ↦ hs.update (run_inv hrun) hguard ha
  · intro a hmem heq
    subst heq
    exact hunlock hmem
  · have hmem := (run_inv hrun).registered r (by rintro heq; rw [heq] at hopen; exact hopen)
    constructor <;> grind [update, UpdaterPc.Ahead]

/-- **The grace period.** In every run in which the sections to wait for are in the current
slot whenever a call gets the lock, no call of `synchronize_rcu` returns before the sections
that were open when it began have executed their unlock. -/
theorem synchronize_rcu_waits (nodes : List Rid) {history : List (Action Rid Uid)}
    (hlegal : (machine Rid Uid nodes).Legal (initial Rid Uid) history)
    (hslots : SlotsCurrent nodes history) : WaitsForReaders nodes history := by
  intro before u during rest heq hreturn r hopen
  subst heq
  by_contra hunlock
  have hduring : (machine Rid Uid nodes).Legal (initial Rid Uid)
      (before ++ .call u :: during) ∧
      (after nodes (before ++ .call u :: during)).updaters u = .releasing := by
    rw [← List.cons_append, ← List.append_assoc, Machine.legal_append] at hlegal
    exact ⟨hlegal.1, hlegal.2.1⟩
  obtain ⟨hlegal, hreleasing⟩ := hduring
  by_cases hacquire : .acquire u ∈ during
  · obtain ⟨waiting, scan, rfl, hnot⟩ := List.eq_append_cons_of_mem hacquire
    simp only [List.mem_append, List.mem_cons, not_or] at hunlock
    have hflag := hslots before u waiting (scan ++ .release u :: rest) (by simp) hnot r hopen
      hunlock.1
    rw [← List.cons_append, ← List.append_assoc] at hlegal hreleasing
    have hopen' := open_persists (((machine Rid Uid nodes).legal_append ..).mp hlegal).1 hopen
      (by simpa using hunlock.1)
    have hblocked := blocked_persists hlegal hopen' hflag hunlock.2.2
    have hahead := hblocked.ahead
    rw [hreleasing] at hahead
    exact hahead
  · rw [waiting_persists hlegal hacquire] at hreleasing
    cases hreleasing

/-- The scan meets a reader and waits for it. -/
def waitingHistory : List (Action Unit Unit) :=
  [.lockRead (), .lockWrite (), .call (), .acquire (), .readIdx (), .readSlot (), .unlockRead (),
    .unlockWrite (), .readIdx (), .readSlot (), .flip (), .release ()]

theorem synchronize_rcu_waits_one_reader : WaitsForReaders [()] waitingHistory := by
  apply synchronize_rcu_waits [()]
  · simp [waitingHistory, guard, update, initial, slot, State.gotoReader, State.gotoUpdater,
      State.setNesting, State.setSp, State.setIdx]
  · intro before u waiting rest h hnot r _ _
    obtain ⟨rfl, hrest⟩ : before = waitingHistory.take 2 ∧
        waiting ++ .acquire u :: rest = waitingHistory.drop 3 := by
      simpa [waitingHistory, List.cons_eq_append_iff] using h
    cases waiting with
    | nil =>
      simp [waitingHistory, after, update, initial, slot, State.gotoReader, State.gotoUpdater,
        State.setNesting]
    | cons a waiting =>
      obtain ⟨rfl, -⟩ : a = .acquire u ∧ _ := List.cons.inj hrest
      exact absurd List.mem_cons_self hnot

/-- The index is incremented between the two accesses of `rcu_read_lock`, and the next grace
period passes the section. -/
def missedHistory : List (Action Unit Unit) :=
  [.lockRead (), .call (), .acquire (), .readIdx (), .readSlot (), .lockWrite (), .flip (),
    .release (), .call (), .acquire (), .readIdx (), .readSlot (), .flip (), .release ()]

theorem synchronize_rcu_misses :
    ¬ ∀ history, (machine Unit Unit [()]).Legal (initial Unit Unit) history →
      WaitsForReaders [()] history := by
  intro hwaits
  have hlegal : (machine Unit Unit [()]).Legal (initial Unit Unit) missedHistory := by
    simp [missedHistory, guard, update, initial, slot, State.gotoReader, State.gotoUpdater,
      State.setNesting, State.setSp, State.setIdx]
  have hmem := hwaits missedHistory hlegal (missedHistory.take 8) ()
    [.acquire (), .readIdx (), .readSlot (), .flip ()] [] rfl (by decide) () trivial
  exact absurd hmem (by decide)

end ParallelPrograms.ThreadRcu
