import ParallelPrograms.Concurrency.Machine
import Mathlib.Algebra.Group.Nat.Defs
import Mathlib.Data.List.Nodup
import Mathlib.Logic.Function.Basic
import Mathlib.Tactic.Simps.Basic

/-!
# Registration of threads

Threads start, call `rcu_init` once each and exit. `rcu_init` identifies the thread by
`current_tid()`, which is the low half of `pthread_self()`, and `__rcu_node_add` refuses a `tid`
that is in the list from `rcu_data.head`. No node leaves the list before `rcu_clean`. A thread is
therefore refused when the low half of its `pthread_self()` is that of a thread that has
registered before it, whether this thread still runs or not, and its `__rcu_per_thrd_ptr` is then
NULL.

The list is modelled as the sequence of its nodes, and `indirect` as the number of nodes before
it. While a thread has the lock nobody else writes to the list.
-/

namespace ParallelPrograms.ThreadRcu.Registration

open Concurrency

/-- The null pointer is `0`. -/
abbrev Addr := ℕ

/-- Where a thread is. -/
inductive Pc where
  | unborn
  /-- Has not yet called `rcu_init`. -/
  | started
  /-- In `__rcu_node_add(tid)`, at `malloc`. -/
  | allocating (tid : UInt32)
  /-- At `spin_lock(&rcu_data.sp)`. -/
  | locking (node : Addr)
  /-- At `while (*indirect)`, with `passed` nodes before `indirect`. -/
  | walking (node : Addr) (passed : ℕ)
  /-- At `*indirect = node`. -/
  | linking (node : Addr)
  /-- At `rcu_data.nr_thread++`. -/
  | counting (node : Addr)
  /-- At the last `spin_unlock`. -/
  | unlocking (node : Addr)
  /-- The `tid` is in the list, at `spin_unlock`. -/
  | rejecting (node : Addr)
  /-- At `free(node)`. -/
  | discarding (node : Addr)
  /-- `rcu_init` has returned, with `__rcu_per_thrd_ptr`. -/
  | running (ptr : Addr)
  | exited
  deriving DecidableEq, Repr

structure State (Thread : Type*) where
  live : Addr → Bool
  /-- `node->tid` -/
  tid : Addr → UInt32
  /-- The nodes of the list from `rcu_data.head`. -/
  head : List Addr
  /-- `rcu_data.nr_thread` -/
  nrThread : UInt32
  /-- The owner of `rcu_data.sp`. -/
  sp : Option Thread
  /-- `pthread_self()` -/
  self : Thread → UInt64
  threads : Thread → Pc

inductive Action (Thread : Type*) where
  /-- A thread is created and gets a value of `pthread_self()`. -/
  | start (t : Thread) (self : UInt64)
  /-- `rcu_init()`, up to `malloc`. -/
  | callInit (t : Thread)
  /-- `node = malloc(sizeof(struct rcu_node))`, and the stores to its fields. -/
  | malloc (t : Thread) (node : Addr)
  | acquire (t : Thread)
  /-- The next access in `__rcu_node_add` after the lock. -/
  | run (t : Thread)
  | exit (t : Thread)
  deriving DecidableEq, Repr

variable {Thread : Type*}

def Pc.Alive : Pc → Prop
  | unborn | exited => False
  | _ => True

/-- The thread is between `spin_lock` and `spin_unlock`. -/
def Pc.Holding : Pc → Prop
  | walking .. | linking _ | counting _ | unlocking _ | rejecting _ => True
  | _ => False

/-- `current_tid()` -/
def State.currentTid (s : State Thread) (t : Thread) : UInt32 := (s.self t).toUInt32

namespace State

variable (s : State Thread)

@[simps live head nrThread sp self threads]
def setTid (n : Addr) (tid : UInt32) : State Thread :=
  { s with tid := Function.update s.tid n tid }

@[simps tid head nrThread sp self threads]
def setLive (n : Addr) (live : Bool) : State Thread :=
  { s with live := Function.update s.live n live }

@[simps]
def setHead (head : List Addr) : State Thread := { s with head }

@[simps]
def setNrThread (nrThread : UInt32) : State Thread := { s with nrThread }

@[simps]
def setSp (sp : Option Thread) : State Thread := { s with sp }

@[grind =]
theorem setTid_tid (n n' : Addr) (tid : UInt32) :
    (s.setTid n tid).tid n' = if n' = n then tid else s.tid n' :=
  Function.update_apply ..

@[grind =]
theorem setLive_live (n n' : Addr) (live : Bool) :
    (s.setLive n live).live n' = if n' = n then live else s.live n' :=
  Function.update_apply ..

attribute [grind =] setTid_live setTid_head setTid_nrThread setTid_sp setTid_self setTid_threads
  setLive_tid setLive_head setLive_nrThread setLive_sp setLive_self setLive_threads setHead_live
  setHead_tid setHead_head setHead_nrThread setHead_sp setHead_self setHead_threads
  setNrThread_live setNrThread_tid setNrThread_head setNrThread_nrThread setNrThread_sp
  setNrThread_self setNrThread_threads setSp_live setSp_tid setSp_head setSp_nrThread setSp_sp
  setSp_self setSp_threads

section Threads

variable [DecidableEq Thread]

@[simps live tid head nrThread sp threads]
def setSelf (t : Thread) (self : UInt64) : State Thread :=
  { s with self := Function.update s.self t self }

@[simps live tid head nrThread sp self]
def goto (t : Thread) (pc : Pc) : State Thread :=
  { s with threads := Function.update s.threads t pc }

@[grind =]
theorem setSelf_self (t t' : Thread) (self : UInt64) :
    (s.setSelf t self).self t' = if t' = t then self else s.self t' :=
  Function.update_apply ..

@[grind =]
theorem goto_threads (t t' : Thread) (pc : Pc) :
    (s.goto t pc).threads t' = if t' = t then pc else s.threads t' :=
  Function.update_apply ..

attribute [grind =] setSelf_live setSelf_tid setSelf_head setSelf_nrThread setSelf_sp
  setSelf_threads goto_live goto_tid goto_head goto_nrThread goto_sp goto_self

end Threads

end State

/-! ## The interleavings -/

/-- The guards. Threads that are alive have different values of `pthread_self()`. -/
def guard (s : State Thread) : Action Thread → Prop
  | .start t self =>
    s.threads t = .unborn ∧ ∀ t', (s.threads t').Alive → s.self t' ≠ self
  | .callInit t => s.threads t = .started
  | .malloc t node => (∃ tid, s.threads t = .allocating tid) ∧ s.live node = false ∧ node ≠ 0
  | .acquire t => (∃ node, s.threads t = .locking node) ∧ s.sp = none
  | .run t => (s.threads t).Holding ∨ ∃ node, s.threads t = .discarding node
  | .exit t => ∃ ptr, s.threads t = .running ptr

variable [DecidableEq Thread]

/-- The accesses of `__rcu_node_add` after the lock. -/
def run (s : State Thread) (t : Thread) : State Thread :=
  match s.threads t with
  | .walking node passed =>
    match s.head[passed]? with
    | some entry =>
      if s.tid entry = s.tid node then s.goto t (.rejecting node)
      else s.goto t (.walking node (passed + 1))
    | none => s.goto t (.linking node)
  | .linking node => (s.setHead (s.head ++ [node])).goto t (.counting node)
  | .counting node => (s.setNrThread (s.nrThread + 1)).goto t (.unlocking node)
  | .unlocking node => (s.setSp none).goto t (.running node)
  | .rejecting node => (s.setSp none).goto t (.discarding node)
  | .discarding node => (s.setLive node false).goto t (.running 0)
  | _ => s

def update (s : State Thread) : Action Thread → State Thread
  | .start t self => (s.setSelf t self).goto t .started
  | .callInit t => s.goto t (.allocating (s.currentTid t))
  | .malloc t node =>
    match s.threads t with
    | .allocating tid => ((s.setLive node true).setTid node tid).goto t (.locking node)
    | _ => s
  | .acquire t =>
    match s.threads t with
    | .locking node => (s.setSp (some t)).goto t (.walking node 0)
    | _ => s
  | .run t => run s t
  | .exit t => s.goto t .exited

/-- What `rcu_clean` leaves, before the first thread starts. -/
structure Fresh (s : State Thread) : Prop where
  head : s.head = []
  nrThread : s.nrThread = 0
  sp : s.sp = none
  threads : ∀ t, s.threads t = .unborn

def machine (Thread : Type*) [DecidableEq Thread] : Machine (State Thread) (Action Thread) where
  init := Fresh
  guard := guard
  update := update

@[simp, grind =]
theorem machine_guard (s : State Thread) (a : Action Thread) :
    (machine Thread).guard s a = guard s a := rfl

@[simp, grind =]
theorem machine_update (s : State Thread) (a : Action Thread) :
    (machine Thread).update s a = update s a := rfl

/-! ## The registered nodes -/

/-- The registered `tid`s. -/
def State.tids (s : State Thread) : List UInt32 := s.head.map s.tid

/-- What `rcu_init` and its callers rely on. The counter is behind the list while a call has
the lock. -/
structure Registered (s : State Thread) : Prop where
  pointer : ∀ t ptr, s.threads t = .running ptr → ptr ≠ 0 ∧ ptr ∈ s.head
  owner : ∀ t t' ptr, s.threads t = .running ptr → s.threads t' = .running ptr → t = t'
  distinct : s.tids.Nodup
  count : s.sp = none → s.nrThread.toNat = s.head.length

/-- A call that gets the lock finds no node with its `tid`, and room for one more in the
counter. -/
def FindsRoom (s : State Thread) : Action Thread → Prop
  | .acquire t => s.currentTid t ∉ s.tids ∧ s.head.length + 1 < 2 ^ 32
  | _ => True

/-- The node of a call before the store to `*indirect`. -/
def Pc.hidden? : Pc → Option Addr
  | locking node | walking node _ | linking node => some node
  | _ => none

/-- The node of a call that searches the list. -/
def Pc.searching? : Pc → Option Addr
  | walking node _ | linking node => some node
  | _ => none

/-- The node of a call or of a thread after the store to `*indirect`. -/
def Pc.listed? : Pc → Option Addr
  | counting node | unlocking node | running node => some node
  | _ => none

/-- The nodes of the list that `rcu_data.nr_thread` does not count yet. -/
def Pc.uncounted : Pc → ℕ
  | counting _ => 1
  | _ => 0

def State.uncounted (s : State Thread) : ℕ :=
  match s.sp with
  | some t => (s.threads t).uncounted
  | none => 0

/-- The invariant of the runs in which every call finds room. -/
structure Inv (s : State Thread) : Prop where
  holder : ∀ t, (s.threads t).Holding → s.sp = some t
  accepted : ∀ t node, s.threads t ≠ .rejecting node ∧ s.threads t ≠ .discarding node
  requested : ∀ t tid, s.threads t = .allocating tid → tid = s.currentTid t
  hidden : ∀ t node, (s.threads t).hidden? = some node →
    s.live node = true ∧ node ≠ 0 ∧ node ∉ s.head ∧ s.tid node = s.currentTid t
  hiddenOwner : ∀ t t' node, (s.threads t).hidden? = some node →
    (s.threads t').hidden? = some node → t = t'
  searching : ∀ t node, (s.threads t).searching? = some node →
    s.tid node ∉ s.tids ∧ s.head.length + 1 < 2 ^ 32
  listed : ∀ t node, (s.threads t).listed? = some node → node ∈ s.head
  listedOwner : ∀ t t' node, (s.threads t).listed? = some node →
    (s.threads t').listed? = some node → t = t'
  mallocd : ∀ node ∈ s.head, s.live node = true ∧ node ≠ 0
  distinct : s.tids.Nodup
  bounded : ∀ t node, s.threads t = .counting node → s.head.length < 2 ^ 32
  count : s.nrThread.toNat + s.uncounted = s.head.length

section

attribute [local grind] Pc.Holding Pc.hidden? Pc.searching? Pc.listed? Pc.uncounted
  State.uncounted State.currentTid

omit [DecidableEq Thread]

variable {s : State Thread}

@[local grind →]
theorem Pc.hidden?_of_searching? {pc : Pc} {node : Addr} (h : pc.searching? = some node) :
    pc.hidden? = some node := by
  cases pc <;> first | exact h | cases h

@[local grind →]
theorem Pc.holding_of_searching? {pc : Pc} {node : Addr} (h : pc.searching? = some node) :
    pc.Holding := by
  cases pc with
  | walking | linking => trivial
  | _ => cases h

theorem Pc.uncounted_of_not_holding {pc : Pc} (h : ¬ pc.Holding) : pc.uncounted = 0 := by
  cases pc with
  | counting => exact absurd trivial h
  | _ => rfl

theorem State.uncounted_eq_zero (h : ∀ t, ¬ (s.threads t).Holding) : s.uncounted = 0 := by
  unfold State.uncounted
  split
  · exact Pc.uncounted_of_not_holding (h _)
  · rfl

@[local grind =]
theorem tids_goto [DecidableEq Thread] (t : Thread) (pc : Pc) : (s.goto t pc).tids = s.tids := rfl

@[local grind =]
theorem tids_setSelf [DecidableEq Thread] (t : Thread) (self : UInt64) :
    (s.setSelf t self).tids = s.tids := rfl

@[local grind =]
theorem tids_setSp (sp : Option Thread) : (s.setSp sp).tids = s.tids := rfl

@[local grind =]
theorem tids_setNrThread (nrThread : UInt32) : (s.setNrThread nrThread).tids = s.tids := rfl

@[local grind =]
theorem tids_setLive (node : Addr) (live : Bool) : (s.setLive node live).tids = s.tids := rfl

@[local grind =]
theorem tids_setTid {node : Addr} (tid : UInt32) (h : node ∉ s.head) :
    (s.setTid node tid).tids = s.tids := by
  apply List.map_congr_left
  intro entry hentry
  rw [State.setTid_tid, if_neg]
  rintro rfl
  exact h hentry

@[local grind =]
theorem tids_setHead_append (node : Addr) :
    (s.setHead (s.head ++ [node])).tids = s.tids ++ [s.tid node] := List.map_append

theorem Fresh.inv (h : Fresh s) : Inv s := by
  obtain ⟨hhead, hnrThread, hsp, hthreads⟩ := h
  constructor <;> simp [hthreads, hhead, hnrThread, hsp, State.tids, State.uncounted, Pc.Holding,
    Pc.hidden?, Pc.searching?, Pc.listed?]

theorem Inv.registered (h : Inv s) : Registered s where
  pointer t ptr hpc := by
    have hmem := h.listed t ptr (by rw [hpc]; rfl)
    exact ⟨(h.mallocd ptr hmem).2, hmem⟩
  owner t t' ptr hpc hpc' := h.listedOwner t t' ptr (by rw [hpc]; rfl) (by rw [hpc']; rfl)
  distinct := h.distinct
  count hsp := by
    have hcount := h.count
    rwa [State.uncounted, hsp] at hcount

variable [DecidableEq Thread] {t : Thread}

/-- One thread moves on, with its node. -/
theorem Inv.goto (h : Inv s) {pc : Pc} (hholding : pc.Holding → s.sp = some t)
    (haccepted : ∀ node, pc ≠ .rejecting node ∧ pc ≠ .discarding node)
    (hrequested : ∀ tid, pc = .allocating tid → tid = s.currentTid t)
    (hhidden : ∀ node, pc.hidden? = some node → (s.threads t).hidden? = some node)
    (hsearching : ∀ node, pc.searching? = some node →
      s.tid node ∉ s.tids ∧ s.head.length + 1 < 2 ^ 32)
    (hlisted : ∀ node, pc.listed? = some node → (s.threads t).listed? = some node)
    (huncounted : (s.threads t).uncounted = 0 ∧ pc.uncounted = 0) : Inv (s.goto t pc) := by
  constructor <;> grind [Inv]

omit [DecidableEq Thread] in
/-- The lock is taken and released while no call is between the two. -/
theorem Inv.setSp (h : Inv s) {sp : Option Thread} (hfree : ∀ t, ¬ (s.threads t).Holding) :
    Inv (s.setSp sp) where
  __ := h
  holder t ht := absurd ht (hfree t)
  count := by
    have hcount := h.count
    rw [State.uncounted_eq_zero hfree] at hcount
    rwa [State.uncounted_eq_zero (s := s.setSp sp) hfree]

theorem Inv.setSelf (h : Inv s) (hpc : s.threads t = .unborn) {self : UInt64} :
    Inv (s.setSelf t self) where
  __ := h
  requested t' tid ht' := by
    have hrequested := h.requested t' tid ht'
    grind
  hidden t' node ht' := by
    have hhidden := h.hidden t' node ht'
    grind

/-- No entry has the `tid` that is searched for. -/
theorem Inv.run_walking (h : Inv s) {node : Addr} {passed : ℕ}
    (hpc : s.threads t = .walking node passed) : Inv (run s t) := by
  have hnew := (h.searching t node (by rw [hpc]; rfl)).1
  cases hentry : s.head[passed]? with
  | none =>
    simp only [run, hpc, hentry]
    apply h.goto <;> grind [Inv]
  | some entry =>
    have hne : s.tid entry ≠ s.tid node := by
      intro heq
      apply hnew
      rw [← heq]
      exact List.mem_map_of_mem (List.mem_of_getElem? hentry)
    simp only [run, hpc, hentry, if_neg hne]
    apply h.goto <;> grind [Inv]

theorem Inv.run_linking (h : Inv s) {node : Addr} (hpc : s.threads t = .linking node) :
    Inv (run s t) := by
  obtain ⟨hnew, hlength⟩ := h.searching t node (by rw [hpc]; rfl)
  have hsp := h.holder t (by rw [hpc]; trivial)
  simp only [run, hpc]
  constructor <;> grind [Inv]

theorem Inv.run_counting (h : Inv s) {node : Addr} (hpc : s.threads t = .counting node) :
    Inv (run s t) := by
  have hsp := h.holder t (by rw [hpc]; trivial)
  have hcount : (s.nrThread + 1).toNat = s.head.length := by
    have hbefore := h.count
    simp only [State.uncounted, hsp, hpc, Pc.uncounted] at hbefore
    rw [UInt32.toNat_add, UInt32.toNat_one, hbefore, Nat.mod_eq_of_lt (h.bounded t node hpc)]
  simp only [run, hpc]
  constructor <;> grind [Inv]

theorem Inv.run_unlocking (h : Inv s) {node : Addr} (hpc : s.threads t = .unlocking node) :
    Inv (run s t) := by
  have hsp := h.holder t (by rw [hpc]; trivial)
  have hinv : Inv (s.goto t (.running node)) := by
    apply h.goto <;> grind
  have hfree : ∀ t', ¬ ((s.goto t (.running node)).threads t').Holding := by
    grind [Inv]
  simp only [run, hpc]
  exact hinv.setSp hfree

theorem Inv.run (h : Inv s)
    (hguard : (s.threads t).Holding ∨ ∃ node, s.threads t = .discarding node) :
    Inv (run s t) := by
  cases hpc : s.threads t with
  | walking node passed => exact h.run_walking hpc
  | linking node => exact h.run_linking hpc
  | counting node => exact h.run_counting hpc
  | unlocking node => exact h.run_unlocking hpc
  | rejecting node => exact absurd hpc (h.accepted t node).1
  | discarding node => exact absurd hpc (h.accepted t node).2
  | _ => simp [hpc, Pc.Holding] at hguard

theorem Inv.update (h : Inv s) {a : Action Thread} (hguard : guard s a) (hroom : FindsRoom s a) :
    Inv (update s a) := by
  cases a with
  | start t self =>
    have hpc : s.threads t = .unborn := hguard.1
    apply (h.setSelf hpc).goto <;> grind
  | callInit t =>
    have hpc : s.threads t = .started := hguard
    apply h.goto <;> grind
  | malloc t node =>
    obtain ⟨⟨tid, hpc⟩, hdead, hnonnull⟩ := hguard
    constructor <;> simp only [Registration.update, hpc] <;> grind [Inv]
  | acquire t =>
    obtain ⟨⟨node, hpc⟩, hsp⟩ := hguard
    have hinv : Inv (s.setSp (some t)) := by
      apply h.setSp
      intro t' ht'
      cases hsp.symm.trans (h.holder t' ht')
    have hhidden := (h.hidden t node (by rw [hpc]; rfl)).2.2.2
    simp only [Registration.update, hpc]
    apply hinv.goto <;> grind [FindsRoom]
  | run t => exact h.run hguard
  | exit t =>
    obtain ⟨ptr, hpc⟩ : ∃ ptr, s.threads t = .running ptr := hguard
    apply h.goto <;> grind

end

/-- **Every thread is registered under its own node** in the runs in which every call finds
room. -/
theorem registered_of_finds_room {history : List (Action Thread)} {s : State Thread}
    (hrun : ((machine Thread).when FindsRoom).Run history s) : Registered s := by
  have hinv : Inv s := by
    apply hrun.invariant Inv
    · intro s hs
      exact Fresh.inv hs
    · intro s a ih hguard
      exact ih.update hguard.1 hguard.2
  exact hinv.registered

/-- Before the first thread. -/
def created : State Bool where
  live := fun _ ↦ false
  tid := fun _ ↦ 0
  head := []
  nrThread := 0
  sp := none
  self := fun _ ↦ 0
  threads := fun _ ↦ .unborn

theorem created_fresh : Fresh created := ⟨rfl, rfl, rfl, fun _ ↦ rfl⟩

/-- A thread starts and calls `rcu_init`, with `accesses` accesses after the lock. -/
def calls (t : Bool) (self : UInt64) (node : Addr) (accesses : ℕ) : List (Action Bool) :=
  [.start t self, .callInit t, .malloc t node, .acquire t] ++ List.replicate accesses (.run t)

theorem registered_two :
    Registered ((machine Bool).final created (calls false 7 64 4 ++ calls true 8 128 5)) := by
  have hlegal : (machine Bool).Legal created (calls false 7 64 4 ++ calls true 8 128 5) :=
    ⟨⟨rfl, fun _ h ↦ h.elim⟩, rfl, ⟨⟨7, rfl⟩, rfl, by decide⟩, ⟨⟨64, rfl⟩, rfl⟩,
      .inl trivial, .inl trivial, .inl trivial, .inl trivial,
      ⟨rfl, fun | false, _ => by decide | true, h => h.elim⟩, rfl, ⟨⟨8, rfl⟩, rfl, by decide⟩,
      ⟨⟨128, rfl⟩, rfl⟩,
      .inl trivial, .inl trivial, .inl trivial, .inl trivial, .inl trivial, trivial⟩
  have hroom : (machine Bool).Meets FindsRoom created
      (calls false 7 64 4 ++ calls true 8 128 5) :=
    ⟨trivial, trivial, trivial, ⟨by decide, by decide⟩, trivial, trivial, trivial, trivial,
      trivial, trivial, trivial, ⟨by decide, by decide⟩, trivial, trivial, trivial, trivial,
      trivial, trivial⟩
  exact registered_of_finds_room
    (Machine.run_when_iff.mpr ⟨created, created_fresh, hlegal, hroom, rfl⟩)

/-- Two threads that run at the same time, with values of `pthread_self()` that differ in the
high half only. -/
def collidingHistory : List (Action Bool) :=
  calls false 0x7f0000001700 64 4 ++ calls true 0x7f0100001700 128 3

theorem colliding_threads :
    ¬ ∀ history (s : State Bool), (machine Bool).Run history s → Registered s := by
  intro h
  have hlegal : (machine Bool).Legal created collidingHistory :=
    ⟨⟨rfl, fun _ h ↦ h.elim⟩, rfl, ⟨⟨_, rfl⟩, rfl, by decide⟩, ⟨⟨64, rfl⟩, rfl⟩,
      .inl trivial, .inl trivial, .inl trivial, .inl trivial,
      ⟨rfl, fun | false, _ => by decide | true, h => h.elim⟩, rfl, ⟨⟨_, rfl⟩, rfl, by decide⟩,
      ⟨⟨128, rfl⟩, rfl⟩,
      .inl trivial, .inl trivial, .inr ⟨128, rfl⟩, trivial⟩
  have hregistered := h collidingHistory _ ⟨created, created_fresh, hlegal, rfl⟩
  exact (hregistered.pointer true 0 rfl).1 rfl

end ParallelPrograms.ThreadRcu.Registration
