import ParallelPrograms.TransactionalMemory.Conflict

/-!
# What a committed transaction has written

A transaction of `test_tsm.c` writes to the shared data before it commits, and the commit looks at
the tick only. A transaction that another one has overtaken is going to fail, but it may still
write, and its write hides that of the newer transaction if it falls between the write and the
commit of that one. Without such a write the data holds what the committing thread has written.
-/

namespace ParallelPrograms.TransactionalMemory

open Concurrency

variable {Tid : Type*}

/-- The key of the transaction that the thread is in. -/
def Pc.key? : Pc → Option UInt64
  | writing k | committing k => some k
  | beginning | exited => none

/-- No thread whose commit is going to fail writes while another thread has written and its commit
would succeed. -/
def Unhidden (s : State Tid) (a : Action Tid) : Prop :=
  ∀ u k, a = .write u → s.threads u = .writing k → commitTsm s.tsm k = false →
    ∀ v k', s.threads v = .committing k' → commitTsm s.tsm k' = false

section Work

variable [DecidableEq Tid]

/-- The interleavings of the threads of `test_tsm.c`. -/
def work (Tid : Type*) [DecidableEq Tid] : Machine (State Tid) (Action Tid) :=
  (machine Tid).when InWork

/-- Whenever a commit succeeds, the data holds what its thread has written. -/
def Visible (history : List (Action Tid)) : Prop :=
  ∀ before t k rest, history = before ++ .commit t k :: rest →
    commitTsm ((work Tid).final (initial Tid) before).tsm k = true →
    ((work Tid).final (initial Tid) before).data = some t

/-- The keys of the threads are numbers below `n`, the number of the calls so far. -/
structure Keyed (n : ℕ) (s : State Tid) : Prop where
  tick : s.tsm.tick = UInt64.ofNat n
  below : ∀ t k, (s.threads t).key? = some k → k ∈ s.keys t ∧ ∃ m, m < n ∧ k = UInt64.ofNat m
  distinct : ∀ t u k, (s.threads t).key? = some k → (s.threads u).key? = some k → t = u

/-- The newest transaction has its write in the data. -/
def Written (s : State Tid) : Prop :=
  ∀ t k, s.threads t = .committing k → commitTsm s.tsm k = true → s.data = some t

variable {n : ℕ} {s : State Tid} {a : Action Tid} {history : List (Action Tid)} {t u : Tid}
  {k : UInt64}

omit [DecidableEq Tid] in
theorem keyed_initial : Keyed 0 (initial Tid) := by
  constructor <;> simp [initial, tsmInit, Pc.key?]

/-- `begin_tsm` returns the tick, and no other access changes the key. -/
theorem key?_update (hwork : InWork s a) (h : ((update s a).threads t).key? = some k) :
    a = .begin t ∧ k = s.tsm.tick ∨ (s.threads t).key? = some k ∧ a ≠ .begin t := by
  cases a <;> grind [Pc.key?, InWork]

/-- The thread whose write is pending is the one that has just written, or it was pending. -/
theorem committing_update (hwork : InWork s a) (h : (update s a).threads t = .committing k) :
    a = .write t ∧ s.threads t = .writing k ∨
      s.threads t = .committing k ∧ a ≠ .write t ∧ a ≠ .begin t := by
  cases a <;> grind [InWork]

theorem mem_keys_update (h : k ∈ s.keys t) : k ∈ (update s a).keys t := by
  cases a with
  | begin u => grind
  | write u => exact h
  | commit u lk => exact h

omit [DecidableEq Tid] in
/-- The next key is a new one. -/
theorem Keyed.ne_tick (h : Keyed n s) (hbound : n < 2 ^ 64) (ht : (s.threads t).key? = some k) :
    k ≠ s.tsm.tick := by
  obtain ⟨-, m, hm, rfl⟩ := h.below t k ht
  rw [h.tick, Ne, ofNat_inj_of_lt (by omega) hbound]
  omega

theorem Keyed.update (h : Keyed n s) (hwork : InWork s a) (hbound : n + begins [a] < 2 ^ 64) :
    Keyed (n + begins [a]) (update s a) := by
  constructor
  · rw [UInt64.ofNat_add, ← h.tick]
    cases a with
    | begin t => rfl
    | write t => exact (UInt64.add_zero _).symm
    | commit t lk => exact (UInt64.add_zero _).symm
  · intro t k hk
    obtain ⟨rfl, rfl⟩ | ⟨hk, -⟩ := key?_update hwork hk
    · refine ⟨?_, n, Nat.lt_succ_self n, h.tick⟩
      rw [update_begin_keys, if_pos rfl]
      exact List.mem_cons_self
    · obtain ⟨hmem, m, hm, rfl⟩ := h.below t k hk
      exact ⟨mem_keys_update hmem, m, by omega, rfl⟩
  · intro t u k ht hu
    obtain ⟨rfl, rfl⟩ | ⟨hbefore, -⟩ := key?_update hwork ht
    · obtain ⟨heq, -⟩ | ⟨hbefore, -⟩ := key?_update hwork hu
      · cases heq
        rfl
      · exact absurd rfl (h.ne_tick (by omega) hbefore)
    · obtain ⟨rfl, rfl⟩ | ⟨hbefore', -⟩ := key?_update hwork hu
      · exact absurd rfl (h.ne_tick (by omega) hbefore)
      · exact h.distinct t u k hbefore hbefore'

theorem Written.update (h : Written s) (hkeyed : Keyed n s) (hwork : InWork s a)
    (hunhidden : Unhidden s a) (hbound : n + begins [a] < 2 ^ 64) : Written (update s a) := by
  intro v k hv hcommit
  obtain ⟨rfl, -⟩ | ⟨hpending, hwrite, -⟩ := committing_update hwork hv
  · rfl
  have hkey : (s.threads v).key? = some k := by rw [hpending]; rfl
  cases a with
  | begin t =>
    -- the call moves the tick past every pending key
    have htick : s.tsm.tick + 1 = k + 1 := commitTsm_eq_true_iff.mp hcommit
    exact absurd ((UInt64.add_left_inj 1).mp htick).symm (hkeyed.ne_tick (by omega) hkey)
  | write t =>
    obtain ⟨k', hwriting⟩ := hwork
    have htick : s.tsm.tick = k + 1 := commitTsm_eq_true_iff.mp hcommit
    cases hnewest : commitTsm s.tsm k' with
    | false =>
      have hhidden := hunhidden t k' rfl hwriting hnewest v k hpending
      exact nomatch hcommit.symm.trans hhidden
    | true =>
      obtain rfl : k' = k :=
        (UInt64.add_left_inj 1).mp ((commitTsm_eq_true_iff.mp hnewest).symm.trans htick)
      have heq := hkeyed.distinct t v k' (by rw [hwriting]; rfl) hkey
      exact absurd (congrArg Action.write heq) hwrite
  | commit t lk => exact h v k hpending hcommit

theorem run_keyed (hlegal : (work Tid).Legal (initial Tid) history)
    (hbound : begins history < 2 ^ 64) :
    Keyed (begins history) ((work Tid).final (initial Tid) history) := by
  revert hbound
  apply Machine.legal_induction
    (fun history s ↦ begins history < 2 ^ 64 → Keyed (begins history) s) _ _ hlegal
  · intro _
    exact keyed_initial
  · intro history a _ ih hguard hbound
    rw [begins_append] at hbound ⊢
    exact (ih (by omega)).update hguard.2 hbound

theorem run_written (hlegal : (work Tid).Legal (initial Tid) history)
    (hbound : begins history < 2 ^ 64)
    (hmeets : (work Tid).Meets Unhidden (initial Tid) history) :
    Written ((work Tid).final (initial Tid) history) := by
  revert hbound
  apply Machine.meets_induction (fun history s ↦ begins history < 2 ^ 64 → Written s) _ _ hlegal
    hmeets
  · intro _ t k hpending
    cases hpending
  · intro history a hhistory ih hguard hunhidden hbound
    rw [begins_append] at hbound
    exact (ih (by omega)).update (run_keyed hhistory (by omega)) hguard.2 hunhidden hbound

theorem visible_of_meets (hlegal : (work Tid).Legal (initial Tid) history)
    (hbound : begins history < 2 ^ 64)
    (hmeets : (work Tid).Meets Unhidden (initial Tid) history) : Visible history := by
  intro before t k rest hhistory hcommit
  subst hhistory
  obtain ⟨hbefore, ⟨-, hcommitting⟩, -⟩ := (Machine.legal_append ..).mp hlegal
  rw [begins_append] at hbound
  exact run_written hbefore (by omega) ((Machine.meets_append ..).mp hmeets).1 t k hcommitting
    hcommit

/-- A write that hides another one, followed by the commit of the other thread. -/
theorem exists_hidden (hlegal : (work Tid).Legal (initial Tid) history)
    (hbound : begins history < 2 ^ 64)
    (hwrite : (work Tid).guard ((work Tid).final (initial Tid) history) (.write u))
    (hhides : ¬ Unhidden ((work Tid).final (initial Tid) history) (.write u)) :
    ∃ v k, (work Tid).Legal (initial Tid) (history ++ [.write u, .commit v k]) ∧
      ¬ Visible (history ++ [.write u, .commit v k]) := by
  obtain ⟨v, k, hpending, hcommit⟩ : ∃ v k,
      ((work Tid).final (initial Tid) history).threads v = .committing k ∧
        commitTsm ((work Tid).final (initial Tid) history).tsm k = true := by
    by_contra hnot
    apply hhides
    intro u' k' _ _ _ v k hpending
    by_contra hcommit
    exact hnot ⟨v, k, hpending, (Bool.not_eq_false _).mp hcommit⟩
  have hkeyed := run_keyed hlegal hbound
  have hne : v ≠ u := by
    rintro rfl
    obtain ⟨-, k', hwriting⟩ := hwrite
    exact nomatch hwriting.symm.trans hpending
  have hmem := (hkeyed.below v k (by rw [hpending]; rfl)).1
  have hafter : ((work Tid).final (initial Tid) (history ++ [.write u])).threads v =
      .committing k := by
    rw [Machine.final_append]
    exact (update_write_threads ..).trans ((if_neg hne).trans hpending)
  refine ⟨v, k, (Machine.legal_append ..).mpr ⟨hlegal, hwrite, ⟨?_, ?_⟩, trivial⟩, ?_⟩
  · exact hmem
  · rw [Machine.final_append] at hafter
    exact hafter
  · intro hvisible
    have hdata := hvisible (history ++ [.write u]) v k [] (by simp) (by
      rw [Machine.final_append]
      exact hcommit)
    rw [Machine.final_append] at hdata
    exact hne (Option.some.inj hdata).symm

/-- **A successful commit finds the write of its own transaction** in every run in which no write
of a doomed transaction hides the write of the newest one. A write that hides it can always be
followed by a successful commit that does not find its own write. -/
theorem committed_write_visible (hlegal : (work Tid).Legal (initial Tid) history)
    (hbound : begins history < 2 ^ 64) :
    ((work Tid).Meets Unhidden (initial Tid) history → Visible history) ∧
    (∀ u, (work Tid).guard ((work Tid).final (initial Tid) history) (.write u) →
      ¬ Unhidden ((work Tid).final (initial Tid) history) (.write u) →
      ∃ v k, (work Tid).Legal (initial Tid) (history ++ [.write u, .commit v k]) ∧
        ¬ Visible (history ++ [.write u, .commit v k])) :=
  ⟨visible_of_meets hlegal hbound, fun _ ↦ exists_hidden hlegal hbound⟩

end Work

/-- The overtaken transaction writes first, so its write is overwritten. -/
def overwrittenHistory : List (Action Bool) :=
  [.begin false, .begin true, .write false, .write true, .commit true 1, .commit false 0]

theorem committed_write_visible_overwritten : Visible overwrittenHistory := by
  have hlegal : (work Bool).Legal (initial Bool) overwrittenHistory :=
    ⟨⟨trivial, rfl⟩, ⟨trivial, rfl⟩, ⟨trivial, 0, rfl⟩, ⟨trivial, 1, rfl⟩,
      ⟨List.mem_cons_self, rfl⟩, ⟨List.mem_cons_self, rfl⟩, trivial⟩
  have hmeets : (work Bool).Meets Unhidden (initial Bool) overwrittenHistory := by
    refine ⟨nofun, nofun, ?_, ?_, nofun, nofun, trivial⟩
    · intro u k hu _ _ v k' hv
      cases v <;> cases hv
    · intro u k hu hk hcommit
      cases hu
      cases hk
      cases hcommit
  exact (committed_write_visible hlegal (by decide)).1 hmeets

/-- The overtaken transaction writes after the other one. -/
def hiddenHistory : List (Action Bool) :=
  [.begin false, .begin true, .write true, .write false, .commit true 1, .commit false 0]

theorem committed_write_hidden :
    ¬ ∀ history, (work Bool).Legal (initial Bool) history → begins history < 2 ^ 64 →
      Visible history := by
  intro hvisible
  have hlegal : (work Bool).Legal (initial Bool) hiddenHistory :=
    ⟨⟨trivial, rfl⟩, ⟨trivial, rfl⟩, ⟨trivial, 1, rfl⟩, ⟨trivial, 0, rfl⟩,
      ⟨List.mem_cons_self, rfl⟩, ⟨List.mem_cons_self, rfl⟩, trivial⟩
  have hdata := hvisible hiddenHistory hlegal (by decide) (hiddenHistory.take 4) true 1
    [.commit false 0] rfl rfl
  exact absurd hdata (by decide)

end ParallelPrograms.TransactionalMemory
