import ParallelPrograms.Barrier.Centralized
import ParallelPrograms.Concurrency.ThreadTable
import Mathlib.Algebra.Group.Even
import Mathlib.Algebra.Order.Ring.Int
import Mathlib.Tactic.Push

/-!
# Episodes of the barrier

The calls of all threads proceed in lockstep: call number `e` of the schedule is one episode,
and an episode is over when its last arriver stores the flag. `Episode e` describes every state
between the store that ends episode `e - 1` and the store that ends episode `e`. Slow threads
may still spin in the call of the episode before; their sense already matches the flag.

The argument needs the sense of a thread in episode `e`, the parity of `e + 1`, to differ from
the flag that the object still carries from its previous episode. A schedule with this property
is called balanced. A schedule of one object is balanced.
-/

namespace ParallelPrograms.Barrier.Centralized

open Concurrency

variable {Obj : Type*} [DecidableEq Obj]

/-- How many of the first `k` calls of the schedule are on `b`. -/
def turns (schedule : ℕ → Option Obj) (b : Obj) (k : ℕ) : ℕ :=
  Nat.count (fun j ↦ schedule j = some b) k

/-- Every call on an object is preceded by an even number of calls on the other objects. -/
def Balanced (schedule : ℕ → Option Obj) : Prop :=
  ∀ k b, schedule k = some b → Even (Nat.count (fun j ↦ schedule j ≠ some b) k)

theorem turns_succ (schedule : ℕ → Option Obj) (b : Obj) (k : ℕ) :
    turns schedule b (k + 1) = turns schedule b k + if schedule k = some b then 1 else 0 :=
  Nat.count_succ ..

theorem turns_add_others (schedule : ℕ → Option Obj) (b : Obj) (k : ℕ) :
    turns schedule b k + Nat.count (fun j ↦ schedule j ≠ some b) k = k := by
  induction k with
  | zero => rfl
  | succ k ih =>
    rw [turns_succ, Nat.count_succ]
    by_cases h : schedule k = some b
    · rw [if_pos h, if_neg (not_not.mpr h)]
      omega
    · rw [if_neg h, if_pos h]
      omega

theorem Balanced.turns_mod_two {schedule : ℕ → Option Obj} (h : Balanced schedule) {k : ℕ} {b : Obj}
    (hk : schedule k = some b) : turns schedule b k % 2 = k % 2 := by
  obtain ⟨r, hr⟩ := h k b hk
  have hsum := turns_add_others schedule b k
  omega

/-- A schedule of a single object is balanced. -/
theorem balanced_const (b : Obj) : Balanced fun _ ↦ some b := by
  intro k c hk
  obtain rfl := Option.some.inj hk
  have hnone : Nat.count (fun _ ↦ some b ≠ some b) k = 0 := by
    rw [Nat.count_iff_forall_not]
    simp
  exact hnone ▸ Even.zero

/-! ## Kinds of phases -/

/-- The last arriver, from its reset of the count up to its store of the flag. -/
def Phase.closing : Phase Obj → Bool
  | resetting _ | releasing _ | publishing _ => true
  | _ => false

/-- Counted, but not as the last one. -/
def Phase.waiting : Phase Obj → Bool
  | leaving _ | spinning _ => true
  | _ => false

/-- Between the toggle of the sense and the increment of the count. -/
def Phase.entering : Phase Obj → Bool
  | locking _ | counting _ => true
  | _ => false

/-- The object whose mutex the thread holds. -/
def Phase.holding : Phase Obj → Option Obj
  | counting b | resetting b | releasing b | leaving b => some b
  | _ => none

omit [DecidableEq Obj] in
@[grind →]
theorem Phase.closing_of_waiting {phase : Phase Obj} (h : phase.waiting = true) :
    phase.closing = false := by
  cases phase <;> simp_all [waiting, closing]

/-- The thread has been counted in episode `e`. -/
def Thread.Arrived (e : ℕ) (thread : Thread Obj) : Prop :=
  thread.calls = e + 1 ∧ thread.phase.entering = false

instance (e : ℕ) : DecidablePred fun thread : Thread Obj ↦ thread.Arrived e :=
  fun _ ↦ inferInstanceAs (Decidable (_ ∧ _))

/-- Where a thread can be in episode `e`: it has begun `e` or `e + 1` calls, and with `e` calls
it is outside or still has to notice the flag of the episode before. -/
structure ThreadOk (schedule : ℕ → Option Obj) (e : ℕ) (thread : Thread Obj) : Prop where
  sense : thread.localSense = (thread.calls % 2 : ℕ)
  place : (thread.calls = e + 1 ∧ thread.phase.object? = schedule e ∧ thread.phase ≠ .outside) ∨
    (thread.calls = e ∧ (thread.phase = .outside ∨
      ∃ k b, e = k + 1 ∧ schedule k = some b ∧
        (thread.phase = .leaving b ∨ thread.phase = .spinning b)))

section ThreadOk

omit [DecidableEq Obj]

variable {schedule : ℕ → Option Obj} {e : ℕ} {thread : Thread Obj}

theorem ThreadOk.current (h : ThreadOk schedule e thread) {b : Obj}
    (hobject : thread.phase.object? = some b) (hwaiting : thread.phase.waiting = false) :
    thread.calls = e + 1 ∧ schedule e = some b := by
  rcases h.place with ⟨hcalls, hturn, -⟩ | ⟨-, hout | ⟨k, c, -, -, hlate | hlate⟩⟩
  · exact ⟨hcalls, hturn ▸ hobject⟩
  · simp [hout, Phase.object?] at hobject
  all_goals simp [hlate, Phase.waiting] at hwaiting

theorem ThreadOk.waiting (h : ThreadOk schedule e thread)
    (harrived : thread.Arrived e) (hclosing : thread.phase.closing = false) :
    thread.calls = e + 1 ∧ thread.phase.waiting := by
  obtain ⟨hcalls, hentering⟩ := harrived
  have hinside : thread.phase ≠ .outside := by
    rcases h.place with hplace | ⟨hlate, -⟩
    · exact hplace.2.2
    · omega
  refine ⟨hcalls, ?_⟩
  revert hentering hclosing hinside
  cases thread.phase <;> simp [Phase.entering, Phase.closing, Phase.waiting]

/-- A move inside the call of the current episode keeps `ThreadOk`. -/
theorem ThreadOk.move (h : ThreadOk schedule e thread) (phase : Phase Obj)
    (hcalls : thread.calls = e + 1) (hobject : phase.object? = schedule e)
    (hinside : phase ≠ .outside) : ThreadOk schedule e ⟨phase, thread.localSense, thread.calls⟩ :=
  ⟨h.sense, .inl ⟨hcalls, hobject, hinside⟩⟩

theorem ThreadOk.unlock (h : ThreadOk schedule e thread) {b : Obj}
    (hphase : thread.phase = .leaving b) :
    ThreadOk schedule e ⟨.spinning b, thread.localSense, thread.calls⟩ := by
  refine ⟨h.sense, ?_⟩
  rcases h.place with ⟨hcalls, hobject, -⟩ | ⟨hcalls, hout | ⟨k, c, hk, hturn, hlate | hlate⟩⟩
  · exact .inl ⟨hcalls, by rw [← hobject, hphase]; rfl, by simp⟩
  · simp [hphase] at hout
  · obtain rfl : b = c := by simpa [hphase] using hlate
    exact .inr ⟨hcalls, .inr ⟨k, b, hk, hturn, .inr rfl⟩⟩
  · simp [hphase] at hlate

end ThreadOk

/-- The states of episode `e`. -/
structure Episode (n : ℕ) (schedule : ℕ → Option Obj) (e : ℕ) (s : State (Fin n) Obj) : Prop where
  flag : ∀ b, (s.barriers b).flag = (turns schedule b e % 2 : ℕ)
  thread : ∀ t, ThreadOk schedule e (s.threads t)
  lock : ∀ t b, (s.threads t).phase.holding = some b → (s.barriers b).lock = some t
  /-- The last arriver is alone: everyone else waits in this episode. -/
  closing : ∀ t, (s.threads t).phase.closing → ∀ u, u ≠ t →
    (s.threads u).calls = e + 1 ∧ (s.threads u).phase.waiting
  not_full : (∀ t, (s.threads t).phase.closing = false) →
    population s.threads (Thread.Arrived e) < n
  count : ∀ b, (∀ t, (s.threads t).phase ≠ .resetting b) → (s.barriers b).count =
    if schedule e = some b ∧ ∀ t, (s.threads t).phase.closing = false
      then population s.threads (Thread.Arrived e) else 0

variable {n : ℕ} {schedule : ℕ → Option Obj} {e : ℕ} {s : State (Fin n) Obj}

theorem logicalNot_mod_two (k : ℕ) : logicalNot (k % 2 : ℕ) = ((k + 1) % 2 : ℕ) := by
  unfold logicalNot
  split_ifs <;> omega

theorem episode_initial (hn : 0 < n) : Episode n schedule 0 (initial (Fin n) Obj) := by
  have hnone : population (initial (Fin n) Obj).threads (Thread.Arrived 0) = 0 := by
    rw [population_eq_zero_iff]
    simp [initial, Thread.Arrived]
  constructor
  · simp [initial, barrierInit, turns]
  · exact fun t ↦ ⟨by simp [initial], .inr ⟨rfl, .inl rfl⟩⟩
  · simp [initial, Phase.holding]
  · simp [initial, Phase.closing]
  · exact fun _ ↦ hnone ▸ hn
  · intro b _
    rw [hnone, ite_self]
    rfl

/-! ## What one action does to an episode -/

/-- A thread moves, or toggles its sense, outside the closing phases, and no count changes. -/
theorem Episode.quiet (h : Episode n schedule e s) {s' : State (Fin n) Obj} {t : Fin n}
    (hothers : ∀ u, u ≠ t → s'.threads u = s.threads u)
    (hold : (s.threads t).phase.closing = false) (hnew : (s'.threads t).phase.closing = false)
    (hthread : ThreadOk schedule e (s'.threads t))
    (hpopulation : population s'.threads (Thread.Arrived e) =
      population s.threads (Thread.Arrived e))
    (hwaiting : (s.threads t).calls = e + 1 → (s.threads t).phase.waiting →
      (s'.threads t).calls = e + 1 ∧ (s'.threads t).phase.waiting)
    (hflag : ∀ b, (s'.barriers b).flag = (s.barriers b).flag)
    (hcount : ∀ b, (s'.barriers b).count = (s.barriers b).count)
    (hlock : ∀ u b, (s'.threads u).phase.holding = some b → (s'.barriers b).lock = some u) :
    Episode n schedule e s' := by
  have hclosing : ∀ u, (s'.threads u).phase.closing = (s.threads u).phase.closing := by grind
  constructor
  · intro b
    rw [hflag, h.flag]
  · have := h.thread
    grind
  · exact hlock
  · have := h.closing
    grind
  · have := h.not_full
    grind
  · intro b hb
    have hreset : ∀ u, (s.threads u).phase ≠ .resetting b := by
      intro u hu
      by_cases hut : u = t
      · simp [← hut, hu, Phase.closing] at hold
      · exact hb u (hothers u hut ▸ hu)
    simp only [hcount, hclosing, hpopulation]
    exact h.count b hreset

/-- A thread that is about to increment is not counted yet, and nobody is closing. -/
theorem Episode.no_closing (h : Episode n schedule e s) {t : Fin n}
    (ht : (s.threads t).phase.waiting = false) (hclosing : (s.threads t).phase.closing = false)
    (u : Fin n) : (s.threads u).phase.closing = false := by
  by_contra hu
  rw [Bool.not_eq_false] at hu
  have hne : t ≠ u := by
    intro heq
    subst heq
    exact absurd hu (by simp [hclosing])
  exact absurd (h.closing u hu t hne).2 (by simp [ht])

/-- `b->count++` and the comparison with `n`: the thread is counted, and it is the last arriver
exactly when everyone is counted. -/
theorem Episode.increment (h : Episode n schedule e s) {t : Fin n} {b : Obj}
    (ht : (s.threads t).phase = .counting b) :
    Episode n schedule e (Centralized.update n s (.increment t b)) := by
  have hopen := h.no_closing (t := t) (by rw [ht]; rfl) (by rw [ht]; rfl)
  obtain ⟨hcalls, hturn⟩ := (h.thread t).current (by rw [ht]; rfl) (by rw [ht]; rfl)
  have hcount : ∀ c, (s.barriers c).count =
      if schedule e = some c then population s.threads (Thread.Arrived e) else 0 := by
    intro c
    rw [h.count c fun u hu ↦ by simpa [hu, Phase.closing] using hopen u]
    simp [hopen]
  obtain ⟨phase, hphase⟩ : ∃ phase : Phase Obj, phase =
      if (s.barriers b).count + 1 = n then .resetting b else .leaving b := ⟨_, rfl⟩
  have hkind : phase = .resetting b ∨ phase = .leaving b := by
    rw [hphase]
    split_ifs <;> simp
  have hfull : phase.closing ↔ population s.threads (Thread.Arrived e) + 1 = n := by
    rw [hphase, hcount b, if_pos hturn]
    split_ifs with hlast <;> simp only [Phase.closing] <;> grind
  have hthreads : ∀ u, (Centralized.update n s (.increment t b)).threads u =
      if u = t then ⟨phase, (s.threads t).localSense, (s.threads t).calls⟩
      else s.threads u := by
    intro u
    rw [hphase]
    exact Function.update_apply ..
  have hpopulation : population (Centralized.update n s (.increment t b)).threads
      (Thread.Arrived e) = population s.threads (Thread.Arrived e) + 1 := by
    refine population_update_gain _ _ ?_ ⟨hcalls, ?_⟩
    · simp [Thread.Arrived, ht, Phase.entering]
    · rw [← hphase]
      rcases hkind with hk | hk <;> rw [hk] <;> rfl
  have hobject : phase.object? = some b := by rcases hkind with hk | hk <;> rw [hk] <;> rfl
  have hholding : phase.holding = some b := by rcases hkind with hk | hk <;> rw [hk] <;> rfl
  constructor
  · have := h.flag
    grind [Centralized.update]
  · have := h.thread
    have := (h.thread t).move phase hcalls (hobject.trans hturn.symm)
      (by rcases hkind with hk | hk <;> simp [hk])
    grind
  · have := h.lock
    have := h.lock t b (by rw [ht]; rfl)
    grind [Centralized.update]
  · -- the last arriver sees that everyone is counted, hence waits
    have hall := population_eq_card_iff
      (Centralized.update n s (.increment t b)).threads (Thread.Arrived e)
    rw [Fintype.card_fin, hpopulation, ← hfull] at hall
    have := fun u ↦ (h.thread u).waiting
    grind
  · have := population_le_card
      (Centralized.update n s (.increment t b)).threads (Thread.Arrived e)
    have := hthreads t
    grind [Fintype.card_fin]
  · grind [Centralized.update]

/-- The last arriver moves on to its store of the flag, with the count at 0. -/
theorem Episode.close (h : Episode n schedule e s) {s' : State (Fin n) Obj} {t : Fin n} {b : Obj}
    {phase : Phase Obj} (hthreads : ∀ u, s'.threads u = (s.goto t phase).threads u)
    (hbarriers : ∀ c, s'.barriers c = if c = b then s'.barriers b else s.barriers c)
    (hold : (s.threads t).phase = .resetting b ∨ (s.threads t).phase = .releasing b)
    (hphase : phase = .releasing b ∧ (s'.barriers b).lock = some t ∨ phase = .publishing b)
    (hflag : (s'.barriers b).flag = (s.barriers b).flag) (hcount : (s'.barriers b).count = 0) :
    Episode n schedule e s' := by
  have hkind : (s.threads t).phase.closing ∧ (s.threads t).phase.waiting = false ∧
      (s.threads t).phase.object? = some b ∧ (s.threads t).phase.holding = some b := by
    rcases hold with hp | hp <;> rw [hp] <;> exact ⟨rfl, rfl, rfl, rfl⟩
  have hkind' : phase.closing ∧ phase.object? = some b ∧ phase ≠ .outside ∧
      ∀ c, phase ≠ .resetting c := by
    rcases hphase with ⟨hp, -⟩ | hp <;> rw [hp] <;> simp [Phase.closing, Phase.object?]
  have hholding : ∀ c, phase.holding = some c → c = b ∧ (s'.barriers b).lock = some t := by
    rcases hphase with ⟨hp, hl⟩ | hp <;> rw [hp]
    · exact fun c hc ↦ ⟨(Option.some.inj hc).symm, hl⟩
    · exact fun c hc ↦ nomatch hc
  obtain ⟨hcalls, hturn⟩ := (h.thread t).current hkind.2.2.1 hkind.2.1
  have hwait := h.closing t hkind.1
  constructor
  · have := h.flag
    grind
  · have := h.thread
    have := (h.thread t).move phase hcalls
    grind
  · have := h.lock
    have := h.lock t b
    grind
  · grind
  · intro hopen
    have := hopen t
    grind
  · -- everybody but the last arriver waits, so no other object is being reset
    intro c hc
    rw [if_neg fun hopen ↦ by have := hopen.2 t; grind]
    by_cases hcb : c = b
    · grind
    · have hother := h.count c fun u hu ↦ by
        by_cases hut : u = t
        · rw [← hut, hu] at hkind
          exact hcb (Option.some.inj hkind.2.2.1)
        · simpa [hu, Phase.waiting] using (hwait u hut).2
      rw [if_neg fun hopen ↦ by have := hopen.2 t; grind] at hother
      grind

/-- From its reset of the count on, the last arriver leaves all counts at 0. -/
theorem Episode.count_eq_zero (h : Episode n schedule e s) {t : Fin n} {b : Obj}
    (ht : (s.threads t).phase = .releasing b ∨ (s.threads t).phase = .publishing b) (c : Obj) :
    (s.barriers c).count = 0 := by
  have hkind : (s.threads t).phase.closing ∧ (s.threads t).phase ≠ .resetting c := by
    rcases ht with hp | hp <;> rw [hp] <;> exact ⟨rfl, by simp⟩
  rw [h.count c fun u hu ↦ ?_, if_neg fun hopen ↦ by simpa [hkind.1] using hopen.2 t]
  · rfl
  · by_cases hut : u = t
    · exact hkind.2 (hut ▸ hu)
    · simpa [hu, Phase.waiting] using (h.closing t hkind.1 u hut).2

/-- The store of the flag ends the episode: everyone else still waits, with the sense that the
flag now has. -/
theorem Episode.store (hbalanced : Balanced schedule) (h : Episode n schedule e s) {t : Fin n}
    {b : Obj} (ht : (s.threads t).phase = .publishing b) :
    Episode n schedule (e + 1) (Centralized.update n s (.store t b)) := by
  obtain ⟨hcalls, hturn⟩ := (h.thread t).current (by rw [ht]; rfl) (by rw [ht]; rfl)
  have hwait := h.closing t (by rw [ht]; rfl)
  have hsense := (h.thread t).sense
  have hparity := hbalanced.turns_mod_two hturn
  have hempty : population (Centralized.update n s (.store t b)).threads
      (Thread.Arrived (e + 1)) = 0 := by
    rw [population_eq_zero_iff]
    intro u ⟨hu, _⟩
    grind [Centralized.update]
  have hcount := h.count_eq_zero (.inr ht)
  constructor
  · have := h.flag
    have := turns_succ schedule
    grind [Centralized.update]
  · intro u
    by_cases hut : u = t
    · exact ⟨by grind [Centralized.update], .inr ⟨by grind [Centralized.update],
        .inl (by grind [Centralized.update])⟩⟩
    · have hu : (Centralized.update n s (.store t b)).threads u = s.threads u := by
        grind [Centralized.update]
      rw [hu]
      obtain ⟨hlate, hphase⟩ := hwait u hut
      have hobject : (s.threads u).phase.object? = some b := by
        rcases (h.thread u).place with ⟨-, hobject, -⟩ | ⟨hcalls, -⟩
        · exact hobject.trans hturn
        · omega
      refine ⟨(h.thread u).sense, .inr ⟨hlate, .inr ⟨e, b, rfl, hturn, ?_⟩⟩⟩
      revert hphase hobject
      cases (s.threads u).phase <;> simp [Phase.waiting, Phase.object?]
  · have := h.lock
    grind [Centralized.update, Phase.holding]
  · intro v hv
    have := hwait v
    grind [Centralized.update, Phase.closing]
  · intro _
    rw [hempty]
    exact t.pos
  · grind [Centralized.update]

/-- `local_sense = !local_sense` begins the call of the current episode. -/
theorem Episode.toggle (h : Episode n schedule e s) {t : Fin n} {b : Obj}
    (hguard : guard schedule s (.toggle t b)) :
    Episode n schedule e (Centralized.update n s (.toggle t b)) := by
  obtain ⟨ht, hturn⟩ := hguard
  have hcalls : (s.threads t).calls = e := by
    rcases (h.thread t).place with ⟨-, -, hinside⟩ | ⟨hcalls, -⟩
    · exact absurd ht hinside
    · exact hcalls
  have hthread : (Centralized.update n s (.toggle t b)).threads t =
      ⟨.locking b, logicalNot (s.threads t).localSense, (s.threads t).calls + 1⟩ :=
    Function.update_self ..
  refine h.quiet (t := t) (fun u hu ↦ Function.update_of_ne hu ..) (by rw [ht]; rfl)
    (by rw [hthread]; rfl) ?_ (population_update_same _ _ ?_) (by omega) (fun _ ↦ rfl)
    (fun _ ↦ rfl) ?_
  · rw [hthread, (h.thread t).sense, logicalNot_mod_two, hcalls]
    exact ⟨rfl, .inl ⟨rfl, (hcalls ▸ hturn).symm, by simp⟩⟩
  · simp [Thread.Arrived, Phase.entering, hcalls]
  · have := h.lock
    grind [Centralized.update, Phase.holding]

/-- A thread moves to a place of the same kind within its call, or leaves the call. -/
theorem Episode.move (h : Episode n schedule e s) {s' : State (Fin n) Obj} {t : Fin n}
    {phase : Phase Obj} (hthreads : s'.threads = (s.goto t phase).threads)
    (hclosing : (s.threads t).phase.closing = false ∧ phase.closing = false)
    (hentering : phase.entering = (s.threads t).phase.entering)
    (hwaiting : (s.threads t).calls = e + 1 → (s.threads t).phase.waiting → phase.waiting)
    (hthread : ThreadOk schedule e ⟨phase, (s.threads t).localSense, (s.threads t).calls⟩)
    (hflag : ∀ b, (s'.barriers b).flag = (s.barriers b).flag)
    (hcount : ∀ b, (s'.barriers b).count = (s.barriers b).count)
    (hlock : ∀ u b, (s'.threads u).phase.holding = some b → (s'.barriers b).lock = some u) :
    Episode n schedule e s' := by
  have hself : s'.threads t = ⟨phase, (s.threads t).localSense, (s.threads t).calls⟩ := by
    rw [hthreads, goto_threads, if_pos rfl]
  refine h.quiet (t := t) (fun u hu ↦ ?_) hclosing.1 ?_ (hself ▸ hthread) ?_ ?_ hflag hcount hlock
  · rw [hthreads, goto_threads, if_neg hu]
  · rw [hself]
    exact hclosing.2
  · rw [hthreads]
    exact population_update_same _ _ (by simp only [Thread.Arrived, hentering])
  · rw [hself]
    exact fun hcalls hwait ↦ ⟨hcalls, hwaiting hcalls hwait⟩

/-- A thread that reads its own sense from the flag is one episode behind. -/
theorem Episode.late_of_flag (h : Episode n schedule e s) (hbalanced : Balanced schedule)
    {t : Fin n} {b : Obj} (ht : (s.threads t).phase = .spinning b)
    (hflag : (s.barriers b).flag = (s.threads t).localSense) : (s.threads t).calls = e := by
  rcases (h.thread t).place with ⟨hcalls, hobject, -⟩ | ⟨hcalls, -⟩
  · rw [ht] at hobject
    have hparity := hbalanced.turns_mod_two hobject.symm
    rw [h.flag, (h.thread t).sense, hcalls] at hflag
    omega
  · exact hcalls

theorem Episode.step (hbalanced : Balanced schedule) (h : Episode n schedule e s)
    {a : Action (Fin n) Obj} (hguard : guard schedule s a) :
    ∃ e', Episode n schedule e' (Centralized.update n s a) := by
  have hlock := h.lock
  cases a with
  | toggle t b => exact ⟨e, h.toggle hguard⟩
  | lock t b =>
    obtain ⟨ht, hfree⟩ := hguard
    obtain ⟨hcalls, hturn⟩ := (h.thread t).current (by rw [ht]; rfl) (by rw [ht]; rfl)
    refine ⟨e, h.move rfl ⟨by rw [ht]; rfl, rfl⟩ (by rw [ht]; rfl) (by simp [ht, Phase.waiting])
      ((h.thread t).move _ hcalls hturn.symm (by simp)) ?_ ?_ ?_⟩
    · grind [Centralized.update]
    · grind [Centralized.update]
    · grind [Centralized.update, Phase.holding]
  | increment t b => exact ⟨e, h.increment hguard⟩
  | reset t b =>
    refine ⟨e, h.close (t := t) (b := b) (fun _ ↦ rfl) ?_ (.inl hguard) (.inl ⟨rfl, ?_⟩) ?_ ?_⟩
    all_goals grind [Centralized.update, Phase.holding, guard]
  | unlockLast t b =>
    refine ⟨e, h.close (t := t) (b := b) (fun _ ↦ rfl) ?_ (.inr hguard) (.inr rfl) ?_ ?_⟩
    · grind [Centralized.update]
    · grind [Centralized.update]
    · have := h.count_eq_zero (.inl hguard)
      grind [Centralized.update]
  | store t b => exact ⟨e + 1, h.store hbalanced hguard⟩
  | unlock t b =>
    have ht : (s.threads t).phase = .leaving b := hguard
    refine ⟨e, h.move rfl ⟨by rw [ht]; rfl, rfl⟩ (by rw [ht]; rfl) (fun _ _ ↦ rfl)
      ((h.thread t).unlock ht) ?_ ?_ ?_⟩
    · grind [Centralized.update]
    · grind [Centralized.update]
    · have := hlock t b (by rw [ht]; rfl)
      grind [Centralized.update, Phase.holding]
  | spin t b => exact ⟨e, h⟩
  | leave t b =>
    obtain ⟨ht, hflag⟩ := hguard
    have hcalls := h.late_of_flag hbalanced ht hflag
    refine ⟨e, h.move rfl ⟨by rw [ht]; rfl, rfl⟩ (by rw [ht]; rfl) (by omega)
      ⟨(h.thread t).sense, .inr ⟨hcalls, .inl rfl⟩⟩ (fun _ ↦ rfl) (fun _ ↦ rfl) ?_⟩
    grind [Centralized.update, Phase.holding]

/-! ## Runs -/

variable {history : List (Action (Fin n) Obj)}

theorem run_episode (hbalanced : Balanced schedule) (hn : 0 < n)
    (hrun : (machine n schedule).Run history s) : ∃ e, Episode n schedule e s := by
  apply hrun.invariant (fun s ↦ ∃ e, Episode n schedule e s)
  · intro s heq
    subst heq
    exact ⟨0, episode_initial hn⟩
  · intro s a ⟨e, h⟩ hguard
    exact h.step hbalanced hguard

/-- The increments of a thread, in terms of its place in the schedule. -/
theorem run_increments (hrun : (machine n schedule).Run history s) (t : Fin n) (b : Obj) :
    increments history t b + (if (s.threads t).phase.entering ∧ (s.threads t).phase.object? = some b
      then 1 else 0) = turns schedule b (s.threads t).calls := by
  refine hrun.induction (fun history s ↦ increments history t b +
    (if (s.threads t).phase.entering ∧ (s.threads t).phase.object? = some b then 1 else 0) =
      turns schedule b (s.threads t).calls) ?_ ?_
  · intro s heq
    subst heq
    rfl
  · intro history s a _ ih hguard
    have hsucc := turns_succ schedule b (s.threads t).calls
    simp only [increments, List.count_append, List.count_singleton] at ih ⊢
    cases a <;> grind [guard, Centralized.update, Phase.entering, Phase.object?]

theorem run_returns (hrun : (machine n schedule).Run history s) (t : Fin n) (b : Obj) :
    returns history t b + (if (s.threads t).phase.object? = some b then 1 else 0) =
      turns schedule b (s.threads t).calls := by
  refine hrun.induction (fun history s ↦ returns history t b +
    (if (s.threads t).phase.object? = some b then 1 else 0) =
      turns schedule b (s.threads t).calls) ?_ ?_
  · intro s heq
    subst heq
    rfl
  · intro history s a _ ih hguard
    have hsucc := turns_succ schedule b (s.threads t).calls
    simp only [returns, List.count_append, List.count_singleton] at ih ⊢
    cases a <;> grind [guard, Centralized.update, Phase.object?]

/-- In episode `e` a thread has returned at most from the calls of the episodes before. -/
theorem Episode.returns_le (h : Episode n schedule e s)
    (hrun : (machine n schedule).Run history s) (t : Fin n) (b : Obj) :
    returns history t b ≤ turns schedule b e := by
  have hreturns := run_returns hrun t b
  rcases (h.thread t).place with ⟨hcalls, hobject, -⟩ | ⟨hcalls, -⟩
  · rw [hcalls, hobject, turns_succ] at hreturns
    omega
  · rw [hcalls] at hreturns
    omega

/-- In episode `e` every thread has been counted in all calls of the episodes before. -/
theorem Episode.le_increments (h : Episode n schedule e s)
    (hrun : (machine n schedule).Run history s) (t : Fin n) (b : Obj) :
    turns schedule b e ≤ increments history t b := by
  have hincrements := run_increments hrun t b
  rcases (h.thread t).place with ⟨hcalls, hobject, -⟩ | ⟨hcalls, hphase⟩
  · rw [hcalls, hobject, turns_succ] at hincrements
    split_ifs at hincrements <;> first | omega | simp_all
  · have hentering : (s.threads t).phase.entering = false := by
      rcases hphase with hp | ⟨k, c, -, -, hp | hp⟩ <;> rw [hp] <;> rfl
    rw [hcalls, hentering] at hincrements
    simp at hincrements
    omega

theorem synchronizes (hbalanced : Balanced schedule) (hn : 0 < n)
    (hrun : (machine n schedule).Run history s) (b : Obj) : Synchronizes history b := by
  obtain ⟨e, h⟩ := run_episode hbalanced hn hrun
  intro t u
  calc
    returns history t b ≤ turns schedule b e := h.returns_le hrun t b
    _ ≤ increments history u b := h.le_increments hrun u b

/-- While nobody holds the mutex, the count is the number of threads counted so far. -/
theorem Episode.count_bounds (h : Episode n schedule e s) (hn : 0 < n) {b : Obj}
    (hlock : (s.barriers b).lock = none) :
    0 ≤ (s.barriers b).count ∧ (s.barriers b).count ≤ n - 1 := by
  have hcount := h.count b fun t ht ↦ by
    simpa [hlock] using h.lock t b (by rw [ht]; rfl)
  rw [hcount]
  split_ifs with hopen
  · have := h.not_full hopen.2
    omega
  · omega

/-- Not everybody can spin on a flag that does not match: the last one counted would have
become the last arriver. -/
theorem Episode.not_stuck (hbalanced : Balanced schedule) (h : Episode n schedule e s) :
    ¬ ∀ t, ∃ b, (s.threads t).phase = .spinning b ∧
      (s.barriers b).flag ≠ (s.threads t).localSense := by
  intro hstuck
  have hopen : ∀ t, (s.threads t).phase.closing = false := by
    intro t
    obtain ⟨b, ht, -⟩ := hstuck t
    rw [ht]
    rfl
  have hlt := h.not_full hopen
  have hall : ∀ t, (s.threads t).Arrived e := by
    intro t
    obtain ⟨b, ht, hflag⟩ := hstuck t
    refine ⟨?_, by rw [ht]; rfl⟩
    rcases (h.thread t).place with ⟨hcalls, -⟩ | ⟨hcalls, hout | ⟨k, c, hk, hturn, hp⟩⟩
    · exact hcalls
    · simp [hout] at ht
    · -- a thread still in the episode before finds the flag of that episode
      obtain rfl : c = b := by rcases hp with hp | hp <;> simp_all
      have hparity := hbalanced.turns_mod_two hturn
      rw [h.flag, (h.thread t).sense, hcalls, hk, turns_succ, if_pos hturn] at hflag
      omega
  rw [(population_eq_card_iff _ _).mpr hall, Fintype.card_fin] at hlt
  omega

/-- The barrier on one object: nobody returns from its `k`-th call before everybody is counted
in its own `k`-th call, the count outside the lock stays below `n`, and the threads are never
all spinning on a flag that does not match. -/
theorem barrier_one_object (hn : 1 ≤ n) {history : List (Action (Fin n) Unit)}
    {s : State (Fin n) Unit} (hrun : (machine n fun _ ↦ some ()).Run history s) :
    Synchronizes history () ∧
    ((s.barriers ()).lock = none → 0 ≤ (s.barriers ()).count ∧ (s.barriers ()).count ≤ n - 1) ∧
    ¬ ∀ t, (s.threads t).phase = .spinning () ∧
      (s.barriers ()).flag ≠ (s.threads t).localSense := by
  have hbalanced := balanced_const ()
  obtain ⟨e, h⟩ := run_episode hbalanced hn hrun
  refine ⟨synchronizes hbalanced hn hrun (), h.count_bounds hn, fun hstuck ↦ ?_⟩
  exact h.not_stuck hbalanced fun t ↦ ⟨(), hstuck t⟩

/-- One crossing of two threads, the second one last. -/
def crossing : List (Action (Fin 2) Unit) :=
  [.toggle 0 (), .lock 0 (), .increment 0 (), .unlock 0 (), .spin 0 (), .toggle 1 (), .lock 1 (),
    .increment 1 (), .reset 1 (), .unlockLast 1 (), .store 1 (), .leave 0 ()]

theorem barrier_one_object_crossing :
    Synchronizes crossing () ∧ returns crossing 0 () = 1 :=
  ⟨(barrier_one_object (n := 2) (by decide)
    ⟨initial (Fin 2) Unit, rfl, by decide, rfl⟩).1, by decide⟩

end ParallelPrograms.Barrier.Centralized
