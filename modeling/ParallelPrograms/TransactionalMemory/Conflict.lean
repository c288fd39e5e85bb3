import ParallelPrograms.TransactionalMemory.Model
import Mathlib.Order.Nat

/-!
# Conflicting transactions

The tick counts the calls of `begin_tsm`, so the key of a transaction is the number of the calls
before its own, and a commit succeeds exactly when the tick has not moved past the next number. As
long as the tick does not wrap around, a key belongs to one call, and a commit fails from the next
call on.
-/

namespace ParallelPrograms.TransactionalMemory

open Concurrency

variable {Tid : Type*} [DecidableEq Tid]

/-- The state in which the action number `i` is taken. -/
def stateAt (history : List (Action Tid)) (i : ℕ) : State Tid :=
  (machine Tid).final (initial Tid) (history.take i)

/-- Action number `i` is a `begin_tsm` of `t` that returns `lk`. -/
def Begins (history : List (Action Tid)) (t : Tid) (i : ℕ) (lk : UInt64) : Prop :=
  history[i]? = some (.begin t) ∧ (beginTsm (stateAt history i).tsm).2 = lk

/-- Action number `c` is a `commit_tsm` of `t` with the key `lk` that returns `result`. -/
def Commits (history : List (Action Tid)) (t : Tid) (c : ℕ) (lk : UInt64) (result : Bool) : Prop :=
  history[c]? = some (.commit t lk) ∧ commitTsm (stateAt history c).tsm lk = result

/-- No `begin_tsm` takes place between the actions number `i` and `c`. -/
def Undisturbed (history : List (Action Tid)) (i c : ℕ) : Prop :=
  ∀ j u, i < j → j < c → history[j]? ≠ some (.begin u)

variable {history : List (Action Tid)} {t u : Tid} {i j c : ℕ} {lk lk' : UInt64} {result : Bool}

/-! ## Counting -/

section Counting

omit [DecidableEq Tid]

theorem begins_take_split (history : List (Action Tid)) (hic : i < c) : begins (history.take c) =
    begins (history.take (i + 1)) + begins ((history.take c).drop (i + 1)) := by
  have hsplit := begins_append ((history.take c).take (i + 1)) ((history.take c).drop (i + 1))
  rwa [List.take_append_drop, List.take_take, Nat.min_eq_left hic] at hsplit

theorem begins_take_le (history : List (Action Tid)) (i : ℕ) :
    begins (history.take i) ≤ begins history := by
  have hsplit := begins_append (history.take i) (history.drop i)
  rw [List.take_append_drop] at hsplit
  omega

theorem begins_take_succ (h : history[i]? = some (.begin t)) :
    begins (history.take (i + 1)) = begins (history.take i) + 1 := by
  rw [List.take_add_one, h, begins_append]
  rfl

/-- The actions after number `i` and before number `c`. -/
theorem mem_between {a : Action Tid} : a ∈ (history.take c).drop (i + 1) ↔
    ∃ j, i < j ∧ j < c ∧ history[j]? = some a := by
  rw [List.mem_iff_getElem?]
  constructor
  · intro h
    obtain ⟨k, hk⟩ := h
    rw [List.getElem?_drop, List.getElem?_take] at hk
    split_ifs at hk with hlt
    · exact ⟨i + 1 + k, by omega, hlt, hk⟩
  · intro h
    obtain ⟨j, hij, hjc, hj⟩ := h
    refine ⟨j - (i + 1), ?_⟩
    rw [List.getElem?_drop, Nat.add_sub_cancel' hij, List.getElem?_take, if_pos hjc, hj]

/-- Exactly when there is no call in between, the numbers of the calls agree. -/
theorem begins_take_eq_iff (hic : i < c) :
    begins (history.take c) = begins (history.take (i + 1)) ↔ Undisturbed history i c := by
  have hsplit := begins_take_split history hic
  have hzero : begins ((history.take c).drop (i + 1)) = 0 ↔ Undisturbed history i c := by
    rw [begins, List.countP_eq_zero]
    constructor
    · intro h j u hij hjc hj
      exact h _ (mem_between.mpr ⟨j, hij, hjc, hj⟩) rfl
    · intro h a ha
      obtain ⟨j, hij, hjc, hj⟩ := mem_between.mp ha
      cases a with
      | begin u => exact absurd hj (h j u hij hjc)
      | write u => nofun
      | commit u lk => nofun
  rw [← hzero]
  omega

theorem begins_take_lt (h : history[i]? = some (.begin t)) (hij : i < j) :
    begins (history.take i) < begins (history.take j) := by
  have hsplit := begins_take_split history hij
  rw [begins_take_succ h] at hsplit
  omega

end Counting

/-! ## Keys -/

theorem ofNat_inj_of_lt {a b : ℕ} (ha : a < 2 ^ 64) (hb : b < 2 ^ 64) :
    UInt64.ofNat a = UInt64.ofNat b ↔ a = b := by
  constructor
  · intro h
    have hmod := congrArg UInt64.toNat h
    rwa [UInt64.toNat_ofNat_of_lt' ha, UInt64.toNat_ofNat_of_lt' hb] at hmod
  · exact congrArg UInt64.ofNat

theorem Begins.key (h : Begins history t i lk) : lk = UInt64.ofNat (begins (history.take i)) := by
  rw [← h.2, ← tick_eq]
  rfl

/-- A key belongs to one call. -/
theorem Begins.unique (h : Begins history t i lk) (h' : Begins history u j lk)
    (hbound : begins history < 2 ^ 64) : i = j := by
  have hkey := h.key.symm.trans h'.key
  rw [ofNat_inj_of_lt ((begins_take_le history i).trans_lt hbound)
    ((begins_take_le history j).trans_lt hbound)] at hkey
  obtain hlt | rfl | hgt := Nat.lt_trichotomy i j
  · exact absurd hkey (begins_take_lt h.1 hlt).ne
  · rfl
  · exact absurd hkey (begins_take_lt h'.1 hgt).ne'

theorem Begins.append (h : Begins history t i lk) (more : List (Action Tid)) :
    Begins (history ++ more) t i lk := by
  obtain ⟨hi, hkey⟩ := h
  have hlt : i < history.length := (List.getElem?_eq_some_iff.mp hi).1
  refine ⟨(List.getElem?_append_left hlt).trans hi, ?_⟩
  rw [stateAt, List.take_append_of_le_length hlt.le]
  exact hkey

/-- The keys of a thread are those that its calls have returned. -/
theorem exists_begins (hkey : lk ∈ ((machine Tid).final (initial Tid) history).keys t) :
    ∃ i, i < history.length ∧ Begins history t i lk := by
  induction history using List.reverseRecOn with
  | nil => cases hkey
  | append_singleton history a ih =>
    rw [Machine.final_append] at hkey
    have hbefore : lk ∈ ((machine Tid).final (initial Tid) history).keys t →
        ∃ i, i < (history ++ [a]).length ∧ Begins (history ++ [a]) t i lk := by
      intro hkey
      obtain ⟨i, hi, hbegins⟩ := ih hkey
      exact ⟨i, by simp only [List.length_append]; omega, hbegins.append [a]⟩
    cases a with
    | begin u =>
      change lk ∈ Function.update ((machine Tid).final (initial Tid) history).keys u
        (((machine Tid).final (initial Tid) history).tsm.tick ::
          ((machine Tid).final (initial Tid) history).keys u) t at hkey
      rw [Function.update_apply] at hkey
      split_ifs at hkey with htu
      · obtain rfl | hkey := List.mem_cons.mp hkey
        · refine ⟨history.length, by simp, by simp [htu], ?_⟩
          rw [stateAt, List.take_left]
          rfl
        · exact hbefore (htu ▸ hkey)
      · exact hbefore hkey
    | write u => exact hbefore hkey
    | commit u lk => exact hbefore hkey

/-- Every commit has the key of an earlier call of its thread. -/
theorem Commits.exists_begins (hlegal : (machine Tid).Legal (initial Tid) history)
    (h : Commits history u c lk result) : ∃ i, i < c ∧ Begins history u i lk := by
  have hlt : c < history.length := (List.getElem?_eq_some_iff.mp h.1).1
  have hsplit : history = history.take c ++ .commit u lk :: history.drop (c + 1) := by
    conv_lhs => rw [← List.take_append_drop c history, List.drop_eq_getElem_cons hlt]
    rw [(List.getElem?_eq_some_iff.mp h.1).2]
  rw [hsplit] at hlegal
  obtain ⟨-, hkey, -⟩ := (Machine.legal_append ..).mp hlegal
  obtain ⟨i, hi, hbegins⟩ := TransactionalMemory.exists_begins hkey
  rw [List.length_take, Nat.min_eq_left hlt.le] at hi
  have happend := hbegins.append (history.drop c)
  rw [List.take_append_drop] at happend
  exact ⟨i, hi, happend⟩

/-- A commit succeeds exactly when there has been no call since the call that returned the key. -/
theorem Commits.result_iff (h : Commits history u c lk result) (hbegins : Begins history t i lk)
    (hic : i < c) (hbound : begins history < 2 ^ 64) :
    result = true ↔ Undisturbed history i c := by
  rw [← h.2, commitTsm_eq_true_iff, stateAt, tick_eq, hbegins.key, ← begins_take_eq_iff hic,
    begins_take_succ hbegins.1]
  have hsucc : UInt64.ofNat (begins (history.take i)) + 1 =
      UInt64.ofNat (begins (history.take i) + 1) := (UInt64.ofNat_add ..).symm
  rw [hsucc, ofNat_inj_of_lt ((begins_take_le history c).trans_lt hbound)]
  rw [← begins_take_succ hbegins.1]
  exact (begins_take_le history (i + 1)).trans_lt hbound

/-- **Conflicting transactions never both commit.** A commit succeeds exactly when no call of
`begin_tsm` has followed the one that returned its key. So of two overlapping transactions the
first one fails from the call of the second one on, and the committed ones do not overlap. -/
theorem conflicting_transactions (hlegal : (machine Tid).Legal (initial Tid) history)
    (hbound : begins history < 2 ^ 64) :
    (∀ u c lk result, Commits history u c lk result → (∃ i, Begins history u i lk) ∧
      ∀ t i, Begins history t i lk → i < c ∧ (result = true ↔ Undisturbed history i c)) ∧
    (∀ t i u j lk lk', Begins history t i lk → Begins history u j lk' → i < j →
      ∀ v c result, Commits history v c lk result → j < c → result = false) ∧
    (∀ t i c u j d lk lk', Begins history t i lk → Commits history t c lk true →
      Begins history u j lk' → Commits history u d lk' true → i ≠ j → c < j ∨ d < i) := by
  have hiff : ∀ t i u c lk result, Begins history t i lk → Commits history u c lk result →
      i < c ∧ (result = true ↔ Undisturbed history i c) := by
    intro t i u c lk result hbegins hcommits
    obtain ⟨i', hic, hbegins'⟩ := hcommits.exists_begins hlegal
    obtain rfl := hbegins.unique hbegins' hbound
    exact ⟨hic, hcommits.result_iff hbegins hic hbound⟩
  refine ⟨?_, ?_, ?_⟩
  · intro u c lk result hcommits
    obtain ⟨i, -, hbegins⟩ := hcommits.exists_begins hlegal
    exact ⟨⟨i, hbegins⟩, fun t i hbegins ↦ hiff t i u c lk result hbegins hcommits⟩
  · intro t i u j lk lk' hbegins hbegins' hij v c result hcommits hjc
    by_contra hresult
    have hundisturbed := ((hiff t i v c lk result hbegins hcommits).2).mp
      ((Bool.not_eq_false _).mp hresult)
    exact hundisturbed j u hij hjc hbegins'.1
  · intro t i c u j d lk lk' hbegins hcommits hbegins' hcommits' hne
    obtain ⟨hic, hundisturbed⟩ := hiff t i t c lk true hbegins hcommits
    obtain ⟨hjd, hundisturbed'⟩ := hiff u j u d lk' true hbegins' hcommits'
    obtain hij | hji := Nat.lt_or_gt_of_ne hne
    · -- the second call comes after the commit of the first transaction
      have hnot : ¬ j < c := fun hjc ↦ hundisturbed.mp rfl j u hij hjc hbegins'.1
      have hcj : c ≠ j := by
        intro heq
        rw [heq] at hcommits
        exact nomatch hbegins'.1.symm.trans hcommits.1
      omega
    · have hnot : ¬ i < d := fun hid ↦ hundisturbed'.mp rfl i t hji hid hbegins.1
      have hdi : d ≠ i := by
        intro heq
        rw [heq] at hcommits'
        exact nomatch hbegins.1.symm.trans hcommits'.1
      omega

/-- The first transaction is overtaken and retries after the second one has committed. -/
def overtakenHistory : List (Action Bool) :=
  [.begin false, .begin true, .commit false 0, .commit true 1, .begin false, .commit false 2]

theorem conflicting_transactions_overtaken :
    Begins overtakenHistory false 0 0 ∧ Commits overtakenHistory false 2 0 false ∧
      ¬ Undisturbed overtakenHistory 0 2 := by
  have hlegal : (machine Bool).Legal (initial Bool) overtakenHistory :=
    ⟨trivial, trivial, List.mem_cons_self, List.mem_cons_self, trivial, List.mem_cons_self,
      trivial⟩
  have hbegins : Begins overtakenHistory false 0 0 := ⟨rfl, rfl⟩
  have hcommits : Commits overtakenHistory false 2 0 false := ⟨rfl, rfl⟩
  have hiff := ((conflicting_transactions hlegal (by decide)).1 false 2 0 false hcommits).2 false 0
    hbegins
  refine ⟨hbegins, hcommits, ?_⟩
  intro hundisturbed
  exact Bool.false_ne_true (hiff.2.mpr hundisturbed)

end ParallelPrograms.TransactionalMemory
