import ParallelPrograms.Barrier.Episodes

/-!
# Several barrier objects

All barrier objects share the one `local_sense` of a thread. The sense of a thread in its call
number `k` is the parity of `k + 1`, counted over all objects, while the flag of an object keeps
the parity of the last call on that object. The two differ, as the spin loop needs, exactly when
an even number of calls on other objects came before. Otherwise the first thread that arrives
finds its own sense in the flag and returns alone.

The converse direction builds the run that fails: all threads cross the earlier calls one round
after the other, and then one thread crosses alone.
-/

namespace ParallelPrograms.Barrier.Centralized

open Concurrency

variable {Obj : Type*} [DecidableEq Obj] {n : ℕ} {schedule : ℕ → Option Obj} {k : ℕ} {b : Obj}

/-! ## One call without interruption -/

section Solo

variable (schedule) {s : State (Fin n) Obj} {t : Fin n}

/-- A call that is not the last one, up to the spin loop. -/
theorem solo_arrive (ht : (s.threads t).phase = .outside)
    (hturn : schedule (s.threads t).calls = some b) (hlock : (s.barriers b).lock = none)
    (hcount : (s.barriers b).count + 1 ≠ n) :
    (machine n schedule).Legal s [.toggle t b, .lock t b, .increment t b, .unlock t b] ∧
    (machine n schedule).final s [.toggle t b, .lock t b, .increment t b, .unlock t b] =
      ⟨Function.update s.threads t
          ⟨.spinning b, logicalNot (s.threads t).localSense, (s.threads t).calls + 1⟩,
        Function.update s.barriers b ⟨(s.barriers b).flag, (s.barriers b).count + 1, none⟩⟩ := by
  simp [guard, update, State.toggleSense, State.setLock, State.setCount, State.goto, *]

/-- The call of the last arriver. -/
theorem solo_last (ht : (s.threads t).phase = .outside)
    (hturn : schedule (s.threads t).calls = some b) (hlock : (s.barriers b).lock = none)
    (hcount : (s.barriers b).count + 1 = n) :
    (machine n schedule).Legal s
      [.toggle t b, .lock t b, .increment t b, .reset t b, .unlockLast t b, .store t b] ∧
    (machine n schedule).final s
      [.toggle t b, .lock t b, .increment t b, .reset t b, .unlockLast t b, .store t b] =
      ⟨Function.update s.threads t
          ⟨.outside, logicalNot (s.threads t).localSense, (s.threads t).calls + 1⟩,
        Function.update s.barriers b ⟨logicalNot (s.threads t).localSense, 0, none⟩⟩ := by
  simp [guard, update, State.toggleSense, State.setLock, State.setCount, State.setFlag,
    State.goto, *]

end Solo

/-! ## A round of all threads -/

/-- All threads have crossed the first `k` calls and none has begun the next one. -/
def rest (n : ℕ) (schedule : ℕ → Option Obj) (k : ℕ) : State (Fin n) Obj where
  threads _ := ⟨.outside, (k % 2 : ℕ), k⟩
  barriers b := ⟨(turns schedule b k % 2 : ℕ), 0, none⟩

/-- The first `j` threads are counted in call number `k`, and spin. -/
def gathering (n : ℕ) (schedule : ℕ → Option Obj) (k : ℕ) (b : Obj) (j : ℕ) :
    State (Fin n) Obj where
  threads t := if t.val < j then ⟨.spinning b, ((k + 1) % 2 : ℕ), k + 1⟩
    else ⟨.outside, (k % 2 : ℕ), k⟩
  barriers c := ⟨(turns schedule c k % 2 : ℕ), if c = b then j else 0, none⟩

/-- The flag of call number `k` is stored, and the first `j` threads have read it. -/
def dispersing (n : ℕ) (schedule : ℕ → Option Obj) (k : ℕ) (b : Obj) (j : ℕ) :
    State (Fin n) Obj where
  threads t := if t.val < j ∨ t.val + 1 = n then ⟨.outside, ((k + 1) % 2 : ℕ), k + 1⟩
    else ⟨.spinning b, ((k + 1) % 2 : ℕ), k + 1⟩
  barriers c := ⟨(turns schedule c (k + 1) % 2 : ℕ), 0, none⟩

theorem gathering_step (schedule : ℕ → Option Obj) (hturn : schedule k = some b) {j : ℕ}
    (hj : j + 1 < n) :
    ∃ history, (machine n schedule).Legal (gathering n schedule k b j) history ∧
      (machine n schedule).final (gathering n schedule k b j) history =
        gathering n schedule k b (j + 1) := by
  have hself : (gathering n schedule k b j).threads ⟨j, by omega⟩ =
      ⟨.outside, (k % 2 : ℕ), k⟩ := if_neg (lt_irrefl j)
  have hbarrier : (gathering n schedule k b j).barriers b =
      ⟨(turns schedule b k % 2 : ℕ), j, none⟩ := by simp [gathering]
  obtain ⟨hlegal, hfinal⟩ := solo_arrive schedule (b := b)
    (s := gathering n schedule k b j) (t := ⟨j, by omega⟩) (by rw [hself])
    (by rw [hself]; exact hturn) (by rw [hbarrier]) (by rw [hbarrier]; simp only; omega)
  refine ⟨_, hlegal, hfinal.trans ?_⟩
  rw [hself, hbarrier, logicalNot_mod_two]
  unfold gathering
  congr 1
  · funext u
    grind [Function.update_apply]
  · funext c
    grind [Function.update_apply]

/-- The last arriver stores the flag. -/
theorem gathering_last (hturn : schedule k = some b) (hparity : turns schedule b k % 2 = k % 2)
    {j : ℕ} (hj : j + 1 = n) :
    ∃ history, (machine n schedule).Legal (gathering n schedule k b j) history ∧
      (machine n schedule).final (gathering n schedule k b j) history =
        dispersing n schedule k b 0 := by
  have hself : (gathering n schedule k b j).threads ⟨j, by omega⟩ =
      ⟨.outside, (k % 2 : ℕ), k⟩ := if_neg (lt_irrefl j)
  have hbarrier : (gathering n schedule k b j).barriers b =
      ⟨(turns schedule b k % 2 : ℕ), j, none⟩ := by simp [gathering]
  obtain ⟨hlegal, hfinal⟩ := solo_last schedule (b := b)
    (s := gathering n schedule k b j) (t := ⟨j, by omega⟩) (by rw [hself])
    (by rw [hself]; exact hturn) (by rw [hbarrier]) (by rw [hbarrier]; simp only; omega)
  refine ⟨_, hlegal, hfinal.trans ?_⟩
  have hsucc := fun c ↦ turns_succ schedule c k
  rw [hself, logicalNot_mod_two]
  unfold gathering dispersing
  congr 1
  · funext u
    grind [Function.update_apply]
  · funext c
    grind [Function.update_apply]

theorem dispersing_step (hturn : schedule k = some b) (hparity : turns schedule b k % 2 = k % 2)
    {j : ℕ} (hj : j + 1 < n) :
    (machine n schedule).Legal (dispersing n schedule k b j) [.leave ⟨j, by omega⟩ b] ∧
      (machine n schedule).final (dispersing n schedule k b j) [.leave ⟨j, by omega⟩ b] =
        dispersing n schedule k b (j + 1) := by
  have hself : (dispersing n schedule k b j).threads ⟨j, by omega⟩ =
      ⟨.spinning b, ((k + 1) % 2 : ℕ), k + 1⟩ := if_neg (by simp; omega)
  have hsucc := turns_succ schedule b k
  constructor
  · refine ⟨⟨by rw [hself], ?_⟩, trivial⟩
    rw [hself]
    grind [dispersing]
  · simp only [Machine.final_cons, Machine.final_nil, machine_update, update, State.goto, hself]
    unfold dispersing
    congr 1
    funext u
    grind [Function.update_apply]

/-- All threads cross call number `k`. -/
theorem round (hn : 0 < n) (hturn : schedule k = some b)
    (hparity : turns schedule b k % 2 = k % 2) :
    ∃ history, (machine n schedule).Legal (rest n schedule k) history ∧
      (machine n schedule).final (rest n schedule k) history = rest n schedule (k + 1) := by
  have hgather : ∀ j, j < n → ∃ history, (machine n schedule).Legal (rest n schedule k) history ∧
      (machine n schedule).final (rest n schedule k) history = gathering n schedule k b j := by
    intro j
    induction j with
    | zero => exact fun _ ↦ ⟨[], trivial, by simp [rest, gathering]⟩
    | succ j ih =>
      intro hj
      obtain ⟨first, hfirst, hmiddle⟩ := ih (by omega)
      obtain ⟨second, hsecond, hlast⟩ := gathering_step schedule hturn hj
      exact ⟨first ++ second, by simp [*], by simp [*]⟩
  have hdisperse : ∀ j, j < n → ∃ history,
      (machine n schedule).Legal (rest n schedule k) history ∧
      (machine n schedule).final (rest n schedule k) history = dispersing n schedule k b j := by
    intro j
    induction j with
    | zero =>
      intro _
      obtain ⟨first, hfirst, hmiddle⟩ := hgather (n - 1) (by omega)
      obtain ⟨second, hsecond, hlast⟩ :=
        gathering_last (n := n) (j := n - 1) hturn hparity (by omega)
      exact ⟨first ++ second, by simp [*], by simp [*]⟩
    | succ j ih =>
      intro hj
      obtain ⟨first, hfirst, hmiddle⟩ := ih (by omega)
      obtain ⟨hsecond, hlast⟩ := dispersing_step (n := n) (j := j) hturn hparity (by omega)
      exact ⟨first ++ [.leave ⟨j, by omega⟩ b], by simp_all, by simp_all⟩
  obtain ⟨history, hlegal, hfinal⟩ := hdisperse (n - 1) (by omega)
  refine ⟨history, hlegal, hfinal.trans ?_⟩
  unfold dispersing rest
  congr 1
  funext u
  grind

/-- The rounds of a balanced beginning of the schedule. -/
theorem run_rest (schedule : ℕ → Option Obj) (hn : 0 < n)
    (hbefore : ∀ j < k, ∃ b, schedule j = some b ∧ turns schedule b j % 2 = j % 2) :
    ∃ history, (machine n schedule).Run history (rest n schedule k) := by
  induction k with
  | zero =>
    refine ⟨[], Machine.Run.nil ?_⟩
    simp [machine, rest, initial, barrierInit, turns]
  | succ k ih =>
    obtain ⟨first, hfirst⟩ := ih fun j hj ↦ hbefore j (by omega)
    obtain ⟨b, hturn, hparity⟩ := hbefore k (by omega)
    obtain ⟨second, hlegal, hfinal⟩ := round hn hturn hparity
    exact ⟨first ++ second, hfinal ▸ hfirst.append hlegal⟩

/-- A thread whose sense equals the flag on arrival crosses alone. -/
theorem cross_alone (hn : 2 ≤ n) (hturn : schedule k = some b)
    (hparity : turns schedule b k % 2 ≠ k % 2) {history : List (Action (Fin n) Obj)}
    (hrun : (machine n schedule).Run history (rest n schedule k)) :
    ∃ history s, (machine n schedule).Run history s ∧ ¬ Synchronizes history b := by
  let first : Fin n := ⟨0, by omega⟩
  let second : Fin n := ⟨1, by omega⟩
  have hne : second ≠ first := by simp [first, second]
  obtain ⟨hlegal, hfinal⟩ := solo_arrive schedule
    (s := rest n schedule k) (t := first) rfl hturn rfl (by simp only [rest]; omega)
  have harrived := hrun.append hlegal
  rw [hfinal] at harrived
  have hcrossed := harrived.snoc (.leave first b)
    (by
      simp only [machine_guard, guard, Function.update_self, rest, logicalNot_mod_two]
      exact ⟨trivial, by omega⟩)
  refine ⟨_, _, hcrossed, fun hsync ↦ ?_⟩
  have hreturns := run_returns hcrossed first b
  have hincrements := run_increments hcrossed second b
  have hle := hsync first second
  have hsucc := turns_succ schedule b k
  simp only [machine_update, update, goto_threads, if_pos, if_neg hne, Function.update_self,
    Function.update_of_ne hne, rest, Phase.object?, Phase.entering] at hreturns hincrements
  simp only [reduceCtorEq, and_false, if_false, add_zero] at hreturns hincrements
  rw [if_pos hturn] at hsucc
  omega

/-- All objects of a schedule of calls synchronize, in every interleaving, exactly when every
call is preceded by an even number of calls on the other objects. -/
theorem barriers_synchronize_iff (hn : 2 ≤ n) (calls : List Obj) :
    (∀ history s, (machine n fun k ↦ calls[k]?).Run history s →
      ∀ b, Synchronizes history b) ↔ Balanced fun k ↦ calls[k]? := by
  constructor
  · intro hsync
    by_contra hnot
    have hbad : ∃ k b, calls[k]? = some b ∧ turns (fun k ↦ calls[k]?) b k % 2 ≠ k % 2 := by
      simp only [Balanced, not_forall] at hnot
      obtain ⟨k, b, hturn, hodd⟩ := hnot
      have hsum := turns_add_others (fun k ↦ calls[k]?) b k
      rw [Nat.not_even_iff] at hodd
      exact ⟨k, b, hturn, by omega⟩
    classical
    obtain ⟨b, hturn, hparity⟩ := Nat.find_spec hbad
    obtain ⟨history, hrun⟩ := run_rest (n := n) (k := Nat.find hbad) (fun k ↦ calls[k]?)
      (by omega) fun j hj ↦ by
        have hlength := (List.getElem?_eq_some_iff.mp hturn).1
        have hnotbad := Nat.find_min hbad hj
        refine ⟨calls[j], List.getElem?_eq_getElem (hj.trans hlength), ?_⟩
        by_contra hne
        exact hnotbad ⟨calls[j], List.getElem?_eq_getElem (hj.trans hlength), hne⟩
    obtain ⟨history', s, hrun', hfail⟩ := cross_alone hn hturn hparity hrun
    exact hfail (hsync history' s hrun' b)
  · exact fun hbalanced history s hrun b ↦ synchronizes hbalanced (by omega) hrun b

theorem barriers_synchronize_iff_twice :
    (∀ history s, (machine 2 fun k ↦ [false, false, true, true][k]?).Run history s →
      ∀ b, Synchronizes history b) ↔ Balanced fun k ↦ [false, false, true, true][k]? :=
  barriers_synchronize_iff (by decide) [false, false, true, true]

/-- Two threads cross `b1` once and then call `b2`: the first one to arrive at `b2` returns
although the other has not been counted there. -/
theorem barriers_interfere :
    ¬ ∀ history s, (machine 2 fun k ↦ [false, true][k]?).Run history s →
      ∀ b, Synchronizes history b := by
  intro hsync
  have hfail := hsync
    [.toggle 0 false, .lock 0 false, .increment 0 false, .unlock 0 false, .toggle 1 false,
      .lock 1 false, .increment 1 false, .reset 1 false, .unlockLast 1 false, .store 1 false,
      .leave 0 false, .toggle 0 true, .lock 0 true, .increment 0 true, .unlock 0 true,
      .leave 0 true]
    _ ⟨initial (Fin 2) Bool, rfl, by decide, rfl⟩ true 0 1
  exact absurd hfail (by decide)

end ParallelPrograms.Barrier.Centralized
