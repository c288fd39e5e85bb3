import ParallelPrograms.ThreadRcu.GracePeriod

/-!
# The walk of `rcu_clean`

One thread runs `rcu_clean` while the registered threads go on with `rcu_read_lock` and
`rcu_read_unlock`. For each node the walk tests the flag in the slot of the current index, sleeps
once for a fixed time when it is set, and frees the node. The loop of `synchronize_rcu` tests again
after it has waited, and here an `if` stands in the place of that `while`. A reader that is inside
when its node is tested may therefore be inside when its node is freed, and its unlock then writes
to freed memory.

Nobody is in `synchronize_rcu`, so the index does not change.
-/

namespace ParallelPrograms.ThreadRcu.Clean

open Concurrency

/-- Where the thread is that calls `rcu_clean`. -/
inductive CleanerPc (Rid : Type*) where
  | idle
  /-- At `spin_lock(&rcu_data.sp)`. -/
  | waiting
  /-- At the read of the index for the first node of `nodes`, with the other nodes from `tmp`. With
  no node left the loop is done and the next access is `rcu_data.head = NULL`. -/
  | walking (nodes : List Rid)
  /-- At the read of the nesting slot of `node`. -/
  | testing (idx : UInt32) (node : Rid) (nodes : List Rid)
  /-- In `usleep(10)`. -/
  | sleeping (node : Rid) (nodes : List Rid)
  /-- At `free(node)`. -/
  | freeing (node : Rid) (nodes : List Rid)
  /-- At `rcu_data.nr_thread = 0`. -/
  | resetting
  /-- At `spin_unlock(&rcu_data.sp)`. -/
  | releasing
  | done
  deriving DecidableEq, Repr

structure State (Rid : Type*) where
  /-- The index, the slots of the nodes and the readers. Nobody updates. -/
  rcu : ThreadRcu.State Rid Empty
  /-- The nodes from `rcu_data.head`. -/
  head : List Rid
  /-- `rcu_data.nr_thread` -/
  nrThread : UInt32
  /-- `rcu_data.sp` is taken. -/
  sp : Bool
  /-- The node is not freed. -/
  live : Rid → Bool
  cleaner : CleanerPc Rid

inductive Action (Rid : Type*) where
  /-- A step of `rcu_read_lock` or `rcu_read_unlock`. -/
  | reader (a : ThreadRcu.Action Rid Empty)
  /-- `rcu_clean` is called. -/
  | call
  | acquire
  | readIdx
  | readSlot (r : Rid)
  /-- `usleep` returns. -/
  | wake
  /-- `free(node)` -/
  | free (r : Rid)
  /-- `rcu_data.head = NULL` -/
  | clearHead
  /-- `rcu_data.nr_thread = 0` -/
  | clearNrThread
  | release
  deriving DecidableEq, Repr

variable {Rid : Type*}

namespace State

variable (s : State Rid)

@[simps]
def setRcu (rcu : ThreadRcu.State Rid Empty) : State Rid := { s with rcu }

@[simps]
def setHead (head : List Rid) : State Rid := { s with head }

@[simps]
def setNrThread (nrThread : UInt32) : State Rid := { s with nrThread }

@[simps]
def setSp (sp : Bool) : State Rid := { s with sp }

@[simps rcu head nrThread sp cleaner]
def kill [DecidableEq Rid] (r : Rid) : State Rid :=
  { s with live := Function.update s.live r false }

@[simps]
def goto (pc : CleanerPc Rid) : State Rid := { s with cleaner := pc }

attribute [grind =] setRcu_rcu setRcu_cleaner setHead_rcu setHead_cleaner setNrThread_rcu
  setNrThread_cleaner setSp_rcu setSp_cleaner kill_rcu kill_cleaner goto_rcu goto_cleaner

end State

variable [DecidableEq Rid]

/-- The guards, for the registered threads `nodes`. -/
def guard (nodes : List Rid) (s : State Rid) : Action Rid → Prop
  | .reader a => ThreadRcu.guard nodes s.rcu a
  | .call => s.cleaner = .idle
  | .acquire => s.cleaner = .waiting ∧ s.sp = false
  | .readIdx => ∃ node rest, s.cleaner = .walking (node :: rest)
  | .readSlot r => ∃ idx rest, s.cleaner = .testing idx r rest
  | .wake => ∃ node rest, s.cleaner = .sleeping node rest
  | .free r => ∃ rest, s.cleaner = .freeing r rest
  | .clearHead => s.cleaner = .walking []
  | .clearNrThread => s.cleaner = .resetting
  | .release => s.cleaner = .releasing

def update (nodes : List Rid) (s : State Rid) : Action Rid → State Rid
  | .reader a => s.setRcu (ThreadRcu.update nodes s.rcu a)
  | .call => s.goto .waiting
  | .acquire => (s.setSp true).goto (.walking s.head)
  | .readIdx =>
    match s.cleaner with
    | .walking (node :: rest) => s.goto (.testing s.rcu.idx node rest)
    | _ => s
  | .readSlot _ =>
    match s.cleaner with
    | .testing idx node rest =>
      -- `if (__rcu_thrd_nesting(node) & 0x1)`
      if s.rcu.nesting node (slot idx) % 2 = 1 then s.goto (.sleeping node rest)
      else s.goto (.freeing node rest)
    | _ => s
  | .wake =>
    match s.cleaner with
    | .sleeping node rest => s.goto (.freeing node rest)
    | _ => s
  | .free _ =>
    match s.cleaner with
    | .freeing node rest => (s.kill node).goto (.walking rest)
    | _ => s
  | .clearHead => (s.setHead []).goto .resetting
  | .clearNrThread => (s.setNrThread 0).goto .releasing
  | .release => (s.setSp false).goto .done

/-- After `rcu_init` of the threads in `nodes`, with any index. -/
def initial (nodes : List Rid) (idx : UInt32) : State Rid where
  rcu := (ThreadRcu.initial Rid Empty).setIdx idx
  head := nodes
  nrThread := nodes.length.toUInt32
  sp := false
  live _ := true
  cleaner := .idle

def machine (nodes : List Rid) (idx : UInt32) : Machine (State Rid) (Action Rid) where
  init s := s = initial nodes idx
  guard := guard nodes
  update := update nodes

variable {nodes : List Rid} {idx : UInt32} {s : State Rid}

@[simp, grind =]
theorem machine_guard (s : State Rid) (a : Action Rid) :
    (machine nodes idx).guard s a = guard nodes s a := rfl

@[simp, grind =]
theorem machine_update (s : State Rid) (a : Action Rid) :
    (machine nodes idx).update s a = update nodes s a := rfl

/-! ## The flags while the index is fixed -/

structure Inv (s : State Rid) : Prop where
  /-- The flag in the current slot says whether the section is open. -/
  flag : ∀ r, s.rcu.nesting r (slot s.rcu.idx) = if (s.rcu.readers r).Open then 1 else 0
  locking : ∀ r idx, s.rcu.readers r = .locking idx → idx = s.rcu.idx
  unlocking : ∀ r idx, s.rcu.readers r = .unlocking idx → idx = s.rcu.idx
  testing : ∀ idx node rest, s.cleaner = .testing idx node rest → idx = s.rcu.idx

theorem Inv.update (h : Inv s) {a : Action Rid} (hguard : guard nodes s a) :
    Inv (update nodes s a) := by
  have hflag := h.flag
  have hlocking := h.locking
  have hunlocking := h.unlocking
  have htesting := h.testing
  cases a with
  | reader a =>
    cases a with
    | lockRead | lockWrite | unlockRead | unlockWrite =>
      constructor <;> grind [Clean.update, Clean.guard, ThreadRcu.update, ThreadRcu.guard,
        ReaderPc.Open]
    | call u | acquire u | readIdx u | readSlot u | flip u | release u => exact u.elim
  | _ => constructor <;> grind [Clean.update]

omit [DecidableEq Rid] in
theorem inv_initial (nodes : List Rid) (idx : UInt32) : Inv (initial nodes idx) := by
  constructor
  · intro r
    rfl
  · intro r idx' hpc
    cases hpc
  · intro r idx' hpc
    cases hpc
  · intro idx' node rest hpc
    cases hpc

theorem legal_inv {history : List (Action Rid)}
    (hlegal : (machine nodes idx).Legal (initial nodes idx) history) :
    Inv ((machine nodes idx).final (initial nodes idx) history) := by
  apply (machine nodes idx).legal_induction (fun _ s ↦ Inv s) (inv_initial nodes idx) _ hlegal
  intro history a _ hinv hguard
  exact hinv.update hguard

omit [DecidableEq Rid] in
theorem Inv.flagged_iff (h : Inv s) (r : Rid) :
    s.rcu.nesting r (slot s.rcu.idx) % 2 = 1 ↔ (s.rcu.readers r).Open := by
  rw [h.flag]
  split_ifs with hopen <;> simp [hopen]

/-- Only registered threads are in sections. -/
theorem legal_registered {history : List (Action Rid)}
    (hlegal : (machine nodes idx).Legal (initial nodes idx) history) :
    ThreadRcu.Inv nodes ((machine nodes idx).final (initial nodes idx) history).rcu := by
  apply (machine nodes idx).legal_induction (fun _ s ↦ ThreadRcu.Inv nodes s.rcu) _ _ hlegal
  · constructor
    · intro u
      exact u.elim
    · intro r hr
      exact absurd rfl hr
  · intro history a _ hinv hguard
    cases a with
    | reader a => exact hinv.update hguard
    | readIdx | readSlot | wake | free =>
      simp only [machine_update, update]
      split <;> first | exact hinv | split_ifs <;> exact hinv
    | _ => exact hinv

/-! ## Nobody waits -/

/-- Between the test of the node of `r` in the state `s` and its `free`, the section that is open at
the test ends with a store to the live node. -/
def SectionEnds (nodes : List Rid) (idx : UInt32) (s : State Rid) (r : Rid)
    (during : List (Action Rid)) : Prop :=
  (s.rcu.readers r).Open → ∃ first second, during = first ++ .reader (.unlockWrite r) :: second ∧
    ((machine nodes idx).final s (.readSlot r :: first)).live r = true

/-- Every section that is open when the node of its reader is tested ends before the node is
freed. -/
def WaitsForReaders (nodes : List Rid) (idx : UInt32) (history : List (Action Rid)) : Prop :=
  ∀ before r during rest, history = before ++ .readSlot r :: (during ++ .free r :: rest) →
    .free r ∉ during →
    SectionEnds nodes idx ((machine nodes idx).final (initial nodes idx) before) r during

/-- The test does not find a flag, and the branch with `usleep` is not taken. -/
def NoFlag (s : State Rid) (a : Action Rid) : Prop :=
  ∀ idx r rest, a = .readSlot r → s.cleaner = .testing idx r rest →
    ¬ s.rcu.nesting r (slot idx) % 2 = 1

omit [DecidableEq Rid] in
/-- No section is open when the test finds no flag. -/
theorem Inv.not_open (h : Inv s) {r : Rid} {idx : UInt32} {rest : List Rid}
    (hpc : s.cleaner = .testing idx r rest) (hflag : NoFlag s (.readSlot r)) :
    ¬ (s.rcu.readers r).Open := by
  have hunset := hflag idx r rest rfl hpc
  rw [h.testing idx r rest hpc, h.flagged_iff] at hunset
  exact hunset

theorem waits_of_noFlag {history : List (Action Rid)}
    (hlegal : (machine nodes idx).Legal (initial nodes idx) history)
    (hmeets : (machine nodes idx).Meets NoFlag (initial nodes idx) history) :
    WaitsForReaders nodes idx history := by
  intro before r during rest heq _ hopen
  subst heq
  obtain ⟨hbefore, ⟨_, _, hpc⟩, -⟩ := ((machine nodes idx).legal_append ..).mp hlegal
  obtain ⟨-, hflag, -⟩ := ((machine nodes idx).meets_append ..).mp hmeets
  exact absurd hopen ((legal_inv hbefore).not_open hpc hflag)

/-- The sleep ends and the node is freed, wherever its reader is. -/
theorem flagged_free {r : Rid} {idx' : UInt32} {rest : List Rid}
    (hpc : s.cleaner = .testing idx' r rest) (hflag : s.rcu.nesting r (slot idx') % 2 = 1) :
    (machine nodes idx).Legal s [.readSlot r, .wake, .free r] := by
  have hsleep : update nodes s (.readSlot r) = s.goto (.sleeping r rest) := by
    simp [update, hpc, hflag]
  refine ⟨⟨idx', rest, hpc⟩, ⟨r, rest, ?_⟩, ⟨rest, ?_⟩, trivial⟩
  · rw [machine_update, hsleep]
    rfl
  · rw [machine_update, machine_update, hsleep]
    rfl

/-- An open section does not end while the thread in `rcu_clean` wakes up. -/
theorem not_sectionEnds {r : Rid} (hopen : (s.rcu.readers r).Open) :
    ¬ SectionEnds nodes idx s r [.wake] := by
  intro hends
  obtain ⟨first, second, heq, -⟩ := hends hopen
  have hmem : Action.reader (.unlockWrite r) ∈ [.wake] := by
    rw [heq]
    simp
  simp at hmem

/-- The free waits for the section of a reader in every run that goes on from the test exactly
when the test finds no flag. -/
theorem sectionEnds_iff (hinv : Inv s) {r : Rid} (htest : guard nodes s (.readSlot r)) :
    (∀ during, (machine nodes idx).Legal s (.readSlot r :: (during ++ [.free r])) →
      .free r ∉ during → SectionEnds nodes idx s r during) ↔ NoFlag s (.readSlot r) := by
  constructor
  · rintro hends idx' r' rest ⟨⟩ hpc hflag
    have hopen : (s.rcu.readers r).Open := by
      rwa [hinv.testing idx' r rest hpc, hinv.flagged_iff] at hflag
    exact not_sectionEnds hopen (hends [.wake] (flagged_free hpc hflag) (by simp))
  · intro hflag during _ _ hopen
    obtain ⟨_, _, hpc⟩ := htest
    exact absurd hopen (hinv.not_open hpc hflag)

/-- A reader is in its section when `rcu_clean` comes to its node, and it stays there. -/
def freeInSection (r : Rid) : List (Action Rid) :=
  [.reader (.lockRead r), .reader (.lockWrite r), .call, .acquire, .readIdx] ++
    .readSlot r :: ([.wake] ++ [.free r])

theorem freeInSection_legal (r : Rid) (nodes : List Rid) (idx : UInt32) :
    (machine (r :: nodes) idx).Legal (initial (r :: nodes) idx) (freeInSection r) := by
  simp [freeInSection, guard, ThreadRcu.guard, update, ThreadRcu.update, initial,
    ThreadRcu.initial, ThreadRcu.State.gotoReader, ThreadRcu.State.setNesting]

theorem freeInSection_not_waits (r : Rid) (nodes : List Rid) (idx : UInt32) :
    ¬ WaitsForReaders (r :: nodes) idx (freeInSection r) := by
  intro hwaits
  have hopen : (((machine (r :: nodes) idx).final (initial (r :: nodes) idx)
      [.reader (.lockRead r), .reader (.lockWrite r), .call, .acquire,
        .readIdx]).rcu.readers r).Open := by
    simp [update, ThreadRcu.update, initial, ThreadRcu.initial, ThreadRcu.State.gotoReader,
      ThreadRcu.State.setNesting, ReaderPc.Open]
  exact not_sectionEnds hopen (hwaits _ r [.wake] [] rfl (by simp))

/-- **`rcu_clean` does not wait.** It waits for the readers in a run in which no test finds a flag.
From every other test a run goes on in which it does not, and it waits in all runs only when no
thread is registered. -/
theorem rcu_clean_waits_iff (nodes : List Rid) (idx : UInt32) :
    (∀ history, (machine nodes idx).Legal (initial nodes idx) history →
      (machine nodes idx).Meets NoFlag (initial nodes idx) history →
      WaitsForReaders nodes idx history) ∧
    (∀ history r s, (machine nodes idx).Run history s → guard nodes s (.readSlot r) →
      ((∀ during, (machine nodes idx).Legal s (.readSlot r :: (during ++ [.free r])) →
        .free r ∉ during → SectionEnds nodes idx s r during) ↔ NoFlag s (.readSlot r))) ∧
    ((∀ history, (machine nodes idx).Legal (initial nodes idx) history →
      WaitsForReaders nodes idx history) ↔ nodes = []) := by
  refine ⟨fun history hlegal hmeets ↦ waits_of_noFlag hlegal hmeets, ?_, ?_, ?_⟩
  · rintro history r s ⟨_, rfl, hlegal, rfl⟩ htest
    exact sectionEnds_iff (legal_inv hlegal) htest
  · intro hwaits
    cases nodes with
    | nil => rfl
    | cons r nodes =>
      exact absurd (hwaits _ (freeInSection_legal r nodes idx))
        (freeInSection_not_waits r nodes idx)
  · intro hnodes history hlegal before r during rest heq _ hopen
    subst heq
    obtain ⟨hbefore, -⟩ := ((machine nodes idx).legal_append ..).mp hlegal
    have hmem := (legal_registered hbefore).registered r (by
      rintro houtside
      rw [houtside] at hopen
      exact hopen)
    rw [hnodes] at hmem
    cases hmem

/-- The only reader, in a section that `rcu_clean` does not wait for. -/
theorem rcu_clean_frees_node_in_use : ¬ ∀ (nodes : List Unit) idx history,
    (machine nodes idx).Legal (initial nodes idx) history → WaitsForReaders nodes idx history := by
  intro hwaits
  have hwaits' := hwaits [()] 0 _ (freeInSection_legal () [] 0)
  exact freeInSection_not_waits () [] 0 hwaits'

end ParallelPrograms.ThreadRcu.Clean
