import ParallelPrograms.Concurrency.ThreadTable
import ParallelPrograms.HazardPointer.Model
import Mathlib.Algebra.Order.Group.Int

/-!
# Thread indices

`get_tid` of `harzard_pointer.c`. The counter `__tid` starts at `HP_TID_UNINIT`, the value that
marks a thread without an index, and `atomic_fetch_add_explicit` returns the value before the
addition. So the first call of `get_tid` returns `HP_TID_UNINIT`, which selects the element
before the first one of `thread_info`, and its thread still has no index afterwards. All later
calls return indices as they should, for up to `HP_MAX_THREAD_RL` threads.
-/

namespace ParallelPrograms.HazardPointer.ThreadIndex

open Concurrency

/-- `HP_TID_UNINIT` -/
abbrev hpTidUninit : ℤ := -1

/-- Where a thread is in `get_tid`. -/
inductive Pc where
  | idle
  /-- At the atomic addition of `__update_tid`. -/
  | updating
  deriving DecidableEq, Repr

structure State (Thread : Type*) where
  /-- `__tid` -/
  counter : ℤ
  /-- The thread-local `tid`. -/
  tid : Thread → ℤ
  threads : Thread → Pc
  /-- What the calls of `get_tid` have returned, with the thread, in order. -/
  returned : List (Thread × ℤ)
  /-- The assertion has failed. -/
  aborted : Bool

inductive Action (Thread : Type*) where
  /-- The call of `get_tid`, with its return when the thread has an index. -/
  | getTid (t : Thread)
  /-- `atomic_fetch_add_explicit(&__tid, 1, …)`, the assertion and the return. -/
  | updateTid (t : Thread)
  deriving DecidableEq, Repr

variable {Thread : Type*}

def guard (s : State Thread) : Action Thread → Prop
  | .getTid t => s.aborted = false ∧ s.threads t = .idle
  | .updateTid t => s.aborted = false ∧ s.threads t = .updating

variable [DecidableEq Thread]

def State.goto (s : State Thread) (t : Thread) (pc : Pc) : State Thread :=
  { s with threads := Function.update s.threads t pc }

def State.returns (s : State Thread) (t : Thread) (value : ℤ) : State Thread :=
  { s with returned := s.returned ++ [(t, value)] }

/-- `tid = atomic_fetch_add_explicit(&__tid, 1, memory_order_consume)` -/
def State.fetchAdd (s : State Thread) (t : Thread) : State Thread :=
  { s with counter := s.counter + 1, tid := Function.update s.tid t s.counter }

def update (s : State Thread) : Action Thread → State Thread
  | .getTid t => if s.tid t = hpTidUninit then s.goto t .updating else s.returns t (s.tid t)
  | .updateTid t =>
    if s.counter < hpMaxThreadRl then ((s.fetchAdd t).goto t .idle).returns t s.counter
    else { s.fetchAdd t with aborted := true }

/-- Before the first call. -/
structure Fresh (s : State Thread) : Prop where
  counter : s.counter = hpTidUninit
  tid : ∀ t, s.tid t = hpTidUninit
  threads : ∀ t, s.threads t = .idle
  returned : s.returned = []
  aborted : s.aborted = false

def machine (Thread : Type*) [DecidableEq Thread] : Machine (State Thread) (Action Thread) where
  init := Fresh
  guard := guard
  update := update

@[simp]
theorem machine_guard (s : State Thread) (a : Action Thread) :
    (machine Thread).guard s a = guard s a := rfl

@[simp]
theorem machine_update (s : State Thread) (a : Action Thread) :
    (machine Thread).update s a = update s a := rfl

/-! ## The indices -/

/-- Every value is an index, the calls of one thread return the same value, and no two threads
have a value in common. -/
structure Indexed (returned : List (Thread × ℤ)) : Prop where
  range : ∀ entry ∈ returned, 0 ≤ entry.2 ∧ entry.2 < hpMaxThreadRl
  same : ∀ entry ∈ returned, ∀ entry' ∈ returned, entry.1 = entry'.1 → entry.2 = entry'.2
  apart : ∀ entry ∈ returned, ∀ entry' ∈ returned, entry.2 = entry'.2 → entry.1 = entry'.1

/-- Nothing has been returned, or the first value was `HP_TID_UNINIT`. -/
def Started (s : State Thread) : Prop :=
  (s.counter = hpTidUninit ∧ s.returned = [] ∧ ∀ t, s.tid t = hpTidUninit) ∨
    ∃ t rest, s.returned = (t, hpTidUninit) :: rest

theorem Started.update {s : State Thread} (h : Started s) (a : Action Thread) :
    Started (update s a) := by
  rcases h with ⟨hcounter, hreturned, htid⟩ | ⟨t, rest, hreturned⟩
  · cases a with
    | getTid t =>
      rw [ThreadIndex.update, if_pos (htid t)]
      exact .inl ⟨hcounter, hreturned, htid⟩
    | updateTid t =>
      have hlt : s.counter < hpMaxThreadRl := by
        rw [hcounter]
        decide
      rw [ThreadIndex.update, if_pos hlt]
      refine .inr ⟨t, [], ?_⟩
      simp [State.returns, State.goto, State.fetchAdd, hreturned, hcounter]
  · right
    cases a <;> simp only [ThreadIndex.update] <;> split_ifs <;>
      simp [State.returns, State.goto, State.fetchAdd, hreturned]

omit [DecidableEq Thread] in
theorem Fresh.started {s : State Thread} (h : Fresh s) : Started s :=
  .inl ⟨h.counter, h.returned, h.tid⟩

/-- **The first thread gets no index**: no run in which a call of `get_tid` has returned gives
every thread an index of its own. -/
theorem indexed_iff_no_return {history : List (Action Thread)} {s : State Thread}
    (hrun : (machine Thread).Run history s) : Indexed s.returned ↔ s.returned = [] := by
  have hstarted : Started s := by
    apply hrun.invariant Started
    · intro s hs
      exact Fresh.started hs
    · intro s a ih _
      exact ih.update a
  constructor
  · intro hindexed
    rcases hstarted with ⟨-, hnil, -⟩ | ⟨t, rest, hreturned⟩
    · exact hnil
    · have hmem : (t, hpTidUninit) ∈ s.returned := by
        rw [hreturned]
        exact List.mem_cons_self
      have hrange : 0 ≤ hpTidUninit := (hindexed.range _ hmem).1
      exact absurd hrange (by decide)
  · intro hnil
    rw [hnil]
    constructor <;> nofun

/-- Before the first call of two threads. -/
def created : State Bool where
  counter := hpTidUninit
  tid := fun _ ↦ hpTidUninit
  threads := fun _ ↦ .idle
  returned := []
  aborted := false

theorem created_fresh : Fresh created := ⟨rfl, fun _ ↦ rfl, fun _ ↦ rfl, rfl, rfl⟩

/-- The two threads call `get_tid` at the same time. -/
def bothCalls : List (Action Bool) :=
  [.getTid false, .getTid true, .updateTid true, .updateTid false]

theorem bothCalls_legal : (machine Bool).Legal created bothCalls :=
  ⟨⟨rfl, rfl⟩, ⟨rfl, rfl⟩, ⟨rfl, rfl⟩, ⟨rfl, rfl⟩, trivial⟩

theorem not_indexed_bothCalls : ¬ Indexed ((machine Bool).final created bothCalls).returned := by
  rw [indexed_iff_no_return ⟨created, created_fresh, bothCalls_legal, rfl⟩]
  exact List.cons_ne_nil _ _

theorem first_thread_index :
    ¬ ∀ history (s : State Bool), (machine Bool).Run history s → Indexed s.returned := by
  intro h
  have hindexed := h bothCalls _ ⟨created, created_fresh, bothCalls_legal, rfl⟩
  have hrange := hindexed.range (true, hpTidUninit) List.mem_cons_self
  exact absurd hrange.1 (by decide)

/-! ## The indices after the first call -/

section Later

variable [Fintype Thread] {s : State Thread}

omit [DecidableEq Thread] in
/-- The threads that have an index. -/
def indexedThreads (tid : Thread → ℤ) : ℕ := population tid (· ≠ hpTidUninit)

/-- After the first return the counter is the number of threads that have an index. -/
structure Inv (s : State Thread) : Prop where
  before : s.returned = [] → s.counter = hpTidUninit
  count : s.returned ≠ [] → s.counter = indexedThreads s.tid
  cached : ∀ t, s.tid t ≠ hpTidUninit → 0 ≤ s.tid t ∧ s.tid t < s.counter
  owner : ∀ t t', s.tid t ≠ hpTidUninit → s.tid t = s.tid t' → t = t'
  updating : ∀ t, s.threads t = .updating → s.tid t = hpTidUninit
  logged : ∀ entry ∈ s.returned.tail, s.tid entry.1 = entry.2 ∧ entry.2 ≠ hpTidUninit
  aborted : s.aborted = false

omit [DecidableEq Thread] in
theorem Fresh.inv (h : Fresh s) : Inv s where
  before _ := h.counter
  count hne := absurd h.returned hne
  cached t hne := absurd (h.tid t) hne
  owner t _ hne := absurd (h.tid t) hne
  updating t _ := h.tid t
  logged := by
    rw [h.returned]
    nofun
  aborted := h.aborted

/-- The first return stores `HP_TID_UNINIT` once more. -/
theorem Inv.updateTid_first (h : Inv s) {t : Thread} (hnil : s.returned = []) :
    Inv (update s (.updateTid t)) := by
  have hcounter := h.before hnil
  have hnone (t' : Thread) : s.tid t' = hpTidUninit := by
    by_contra hne
    obtain ⟨hnonneg, hlt⟩ := h.cached t' hne
    rw [hcounter] at hlt
    exact absurd (hnonneg.trans_lt hlt) (by decide)
  have htid : Function.update s.tid t s.counter = s.tid := by
    rw [hcounter, ← hnone t, Function.update_eq_self]
  have hlt : s.counter < hpMaxThreadRl := by
    rw [hcounter]
    decide
  have hcount : indexedThreads s.tid = 0 := by
    rw [indexedThreads, population_eq_zero_iff]
    exact fun t' hne ↦ hne (hnone t')
  simp only [update, if_pos hlt, State.returns, State.goto, State.fetchAdd, htid, hnil]
  constructor
  · nofun
  · simp [hcount, hcounter]
  · exact fun t' hne ↦ absurd (hnone t') hne
  · exact fun t' _ hne ↦ absurd (hnone t') hne
  · exact fun t' _ ↦ hnone t'
  · nofun
  · exact h.aborted

/-- A later one gives its thread the number of threads that have an index already. -/
theorem Inv.updateTid_later (h : Inv s) (hcard : Fintype.card Thread ≤ hpMaxThreadRl)
    {t : Thread} (ht : s.threads t = .updating) (hne : s.returned ≠ []) :
    Inv (update s (.updateTid t)) := by
  have hcounter := h.count hne
  have hbefore := h.updating t ht
  have hmore : indexedThreads (Function.update s.tid t s.counter) = indexedThreads s.tid + 1 := by
    apply population_update_gain
    · exact not_not.mpr hbefore
    · have huninit : hpTidUninit = -1 := rfl
      omega
  have hroom : indexedThreads (Function.update s.tid t s.counter) ≤ hpMaxThreadRl :=
    (population_le_card ..).trans hcard
  have hlt : s.counter < hpMaxThreadRl := by
    omega
  simp only [update, if_pos hlt, State.returns, State.goto, State.fetchAdd]
  constructor
  · simp
  · intro _
    rw [hmore, hcounter]
    rfl
  · intro t' ht'
    have hcached := h.cached t'
    simp only [Function.update_apply] at ht' ⊢
    split_ifs at ht' ⊢ <;> omega
  · intro t' t'' ht' heq
    have howner := h.owner t' t''
    have hcached := h.cached t'
    have hcached' := h.cached t''
    simp only [Function.update_apply] at ht' heq
    grind
  · intro t' ht'
    have hupdating := h.updating t'
    simp only [Function.update_apply] at ht' ⊢
    grind
  · intro entry hentry
    have hlogged := h.logged entry
    rw [List.tail_append_of_ne_nil hne, List.mem_append, List.mem_singleton] at hentry
    simp only [Function.update_apply]
    grind
  · exact h.aborted

theorem Inv.getTid (h : Inv s) {t : Thread} :
    Inv (update s (.getTid t)) := by
  by_cases hnone : s.tid t = hpTidUninit
  · rw [update, if_pos hnone]
    have hupdating (t' : Thread) (ht' : (s.goto t .updating).threads t' = .updating) :
        s.tid t' = hpTidUninit := by
      have hbefore := h.updating t'
      simp only [State.goto, Function.update_apply] at ht'
      grind
    exact ⟨h.before, h.count, h.cached, h.owner, hupdating, h.logged, h.aborted⟩
  · have hne : s.returned ≠ [] := by
      intro hnil
      obtain ⟨hnonneg, hlt⟩ := h.cached t hnone
      rw [h.before hnil] at hlt
      exact absurd (hnonneg.trans_lt hlt) (by decide)
    have hlogged : ∀ entry ∈ (s.returned ++ [(t, s.tid t)]).tail,
        s.tid entry.1 = entry.2 ∧ entry.2 ≠ hpTidUninit := by
      intro entry hentry
      rw [List.tail_append_of_ne_nil hne, List.mem_append, List.mem_singleton] at hentry
      rcases hentry with hmem | rfl
      · exact h.logged entry hmem
      · exact ⟨rfl, hnone⟩
    rw [update, if_neg hnone]
    exact ⟨by simp [State.returns], fun _ ↦ h.count hne, h.cached, h.owner, h.updating, hlogged,
      h.aborted⟩

theorem Inv.update (h : Inv s) (hcard : Fintype.card Thread ≤ hpMaxThreadRl)
    {a : Action Thread} (hguard : guard s a) : Inv (update s a) := by
  cases a with
  | getTid t => exact h.getTid
  | updateTid t =>
    by_cases hnil : s.returned = []
    · exact h.updateTid_first hnil
    · exact h.updateTid_later hcard hguard.2 hnil

omit [DecidableEq Thread] in
theorem Inv.indexed (h : Inv s) (hcard : Fintype.card Thread ≤ hpMaxThreadRl) :
    Indexed s.returned.tail where
  range entry hentry := by
    obtain ⟨htid, hne⟩ := h.logged entry hentry
    have hreturned : s.returned ≠ [] := by
      rintro hnil
      rw [hnil] at hentry
      cases hentry
    have hcount := h.count hreturned
    obtain ⟨hnonneg, hlt⟩ := h.cached entry.1 (htid ▸ hne)
    have hroom : indexedThreads s.tid ≤ hpMaxThreadRl := (population_le_card ..).trans hcard
    rw [← htid]
    exact ⟨hnonneg, by omega⟩
  same entry hentry entry' hentry' heq := by
    rw [← (h.logged entry hentry).1, ← (h.logged entry' hentry').1, heq]
  apart entry hentry entry' hentry' heq := by
    obtain ⟨htid, hne⟩ := h.logged entry hentry
    apply h.owner _ _ (htid ▸ hne)
    rw [htid, (h.logged entry' hentry').1, heq]

/-- The values after the first one are indices, one for each thread. -/
theorem indexed_after_first (hcard : Fintype.card Thread ≤ hpMaxThreadRl)
    {history : List (Action Thread)} (hrun : (machine Thread).Run history s) :
    s.aborted = false ∧ Indexed s.returned.tail := by
  have hinv : Inv s := by
    apply hrun.invariant Inv
    · intro s hs
      exact Fresh.inv hs
    · intro s a ih hguard
      exact ih.update hcard hguard
  exact ⟨hinv.aborted, hinv.indexed hcard⟩

end Later

end ParallelPrograms.HazardPointer.ThreadIndex
