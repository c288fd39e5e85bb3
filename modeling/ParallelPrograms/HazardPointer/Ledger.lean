import ParallelPrograms.HazardPointer.RetireCall
import Mathlib.Data.List.Perm.Lattice

/-!
# The retire ledger of one thread

A thread that runs alone calls `hp_protect_release`, `hp_protect_clear` and `hp_retirelist`. The
ledger is right when every retired pointer is either one of the first `rl.size` entries of the
list or has been passed to `delete_func`, once. A call of `hp_retirelist` keeps it right exactly
when the loop finds nothing freeable past the entries, where earlier calls have left their
traces, and moves no entry that it should have deleted.
-/

namespace ParallelPrograms.HazardPointer

open Concurrency Sequence

/-- What the calls of one thread work on. -/
structure Solo where
  hp : Table
  rl : RetireList
  /-- The arguments of `delete_func` so far. -/
  deleted : List Ptr

inductive Call where
  | protectRelease (k : Fin hpMaxPtr) (ptr : Ptr)
  | protectClear
  | retirelist (ptr : Ptr)
  deriving DecidableEq, Repr

/-- One call of thread `t`, or nothing when an assertion fails. -/
def step (t : Tid) (s : Solo) : Call → Option Solo
  | .protectRelease k ptr =>
    some ⟨Function.update s.hp t (Function.update (s.hp t) k ptr), s.rl, s.deleted⟩
  | .protectClear => some ⟨fun _ _ ↦ 0, s.rl, s.deleted⟩
  | .retirelist ptr =>
    (hpRetirelist s.hp s.rl ptr).map fun result ↦ ⟨s.hp, result.1, s.deleted ++ result.2⟩

/-- The calls one after the other. -/
def run (t : Tid) (s : Solo) (calls : List Call) : Option Solo := calls.foldlM (step t) s

/-- The pointers passed to `hp_retirelist`. -/
def retired (calls : List Call) : List Ptr :=
  calls.filterMap fun
    | .retirelist ptr => some ptr
    | _ => none

/-- The first `rl.size` entries are the retired pointers not yet deleted, each once, and every
deleted pointer was retired and is deleted once. -/
structure Ledger (calls : List Call) (s : Solo) : Prop where
  nodup : s.rl.entries.Nodup
  pending : ∀ p, p ∈ s.rl.entries ↔ p ∈ retired calls ∧ p ∉ s.deleted
  once : s.deleted.Nodup
  onlyRetired : ∀ p ∈ s.deleted, p ∈ retired calls

/-- The call finds nothing freeable past the entries and the new pointer, and moves none of them
that it should have deleted. -/
def CompactsCleanly (hp : Table) (rl : RetireList) (ptr : Ptr) : Prop :=
  (∀ i, rl.size < i → i < hpMaxThreadRl → freeable hp (rl.list i) = false) ∧
    ∀ p ∈ moved (freeable hp) (rl.entries ++ [ptr]), freeable hp p = false

/-- The invariant of the runs with a right ledger. The cells past the entries hold zero or
pointers that were retired at some time. -/
structure Booked (calls : List Call) (s : Solo) : Prop where
  perm : (s.deleted ++ s.rl.entries).Perm (retired calls)
  cells : ∀ i < hpMaxThreadRl, s.rl.list i = 0 ∨ s.rl.list i ∈ retired calls

section Calls

variable {calls : List Call} {s s' : Solo} {t : Tid} {ptr : Ptr}

@[simp]
theorem retired_append (first second : List Call) :
    retired (first ++ second) = retired first ++ retired second := List.filterMap_append

theorem ledger_iff_perm (hnodup : (retired calls).Nodup) :
    Ledger calls s ↔ (s.deleted ++ s.rl.entries).Perm (retired calls) := by
  constructor
  · intro h
    have hdisjoint : s.deleted.Disjoint s.rl.entries := fun p hdeleted hentry ↦
      ((h.pending p).mp hentry).2 hdeleted
    apply (List.perm_ext_iff_of_nodup (h.once.append h.nodup hdisjoint) hnodup).mpr
    intro p
    have hpending := h.pending p
    have hretired := h.onlyRetired p
    rw [List.mem_append]
    tauto
  · intro hperm
    have happend := hperm.nodup_iff.mpr hnodup
    have hmem : ∀ p, p ∈ s.deleted ∨ p ∈ s.rl.entries ↔ p ∈ retired calls := fun p ↦ by
      rw [← List.mem_append, hperm.mem_iff]
    obtain ⟨honce, hentries, hdisjoint⟩ := List.nodup_append.mp happend
    refine ⟨hentries, fun p ↦ ?_, honce, fun p hp ↦ (hmem p).mp (.inl hp)⟩
    have := hmem p
    have := fun h h' ↦ hdisjoint p h p h' rfl
    tauto

theorem Booked.ledger (h : Booked calls s) (hnodup : (retired calls).Nodup) : Ledger calls s :=
  (ledger_iff_perm hnodup).mpr h.perm

/-- The number of pending pointers is `rl.size`. -/
theorem Ledger.pending_length (h : Ledger calls s) (hnodup : (retired calls).Nodup) :
    ((retired calls).filter (· ∉ s.deleted)).length = s.rl.size := by
  have hperm : ((retired calls).filter (· ∉ s.deleted)).Perm s.rl.entries := by
    apply (List.perm_ext_iff_of_nodup (hnodup.filter _) h.nodup).mpr
    intro p
    rw [h.pending, List.mem_filter, decide_eq_true_eq]
  calc
    ((retired calls).filter (· ∉ s.deleted)).length = s.rl.entries.length := hperm.length_eq
    _ = s.rl.size := s.rl.length_entries

theorem RetireList.push_size {rl : RetireList} (hroom : rl.size + 1 < hpMaxThreadRl) :
    (rl.push ptr).size = rl.size + 1 :=
  Nat.mod_eq_of_lt (hroom.trans (by norm_num))

theorem RetireList.push_entries {rl : RetireList} (hroom : rl.size + 1 < hpMaxThreadRl) :
    (rl.push ptr).entries = rl.entries ++ [ptr] := by
  rw [RetireList.entries, RetireList.push_size hroom, List.range_succ, List.map_append]
  congr 1
  · apply List.map_congr_left
    intro i hi
    rw [RetireList.push_list, if_neg (List.mem_range.mp hi).ne]
  · simp [RetireList.push_list]

theorem step_retirelist (t : Tid) (ptr : Ptr) (hroom : s.rl.size + 1 < hpMaxThreadRl) :
    step t s (.retirelist ptr) = some ⟨s.hp, (sweep s.hp (s.rl.push ptr) hpMaxThreadRl).1,
      s.deleted ++ (sweep s.hp (s.rl.push ptr) hpMaxThreadRl).2⟩ := by
  rw [step, hpRetirelist, RetireList.push_size hroom, if_pos hroom, Option.map_some]

/-- Two visits of the same freeable value delete it twice. -/
theorem eq_of_nodup_deleted {hp : Table} {list : ℕ → Ptr} {m i j : ℕ}
    (hnodup : (((List.range m).map list).filter (freeable hp)).Nodup) (hi : i < m) (hj : j < m)
    (hfree : freeable hp (list i)) (heq : list j = list i) : j = i := by
  rw [List.filter_map] at hnodup
  refine List.inj_on_of_nodup_map hnodup ?_ ?_ heq <;>
    simp [hi, hj, hfree, heq]

/-- A freeable value past the entries is zero, or deleted a second time. -/
theorem Booked.stale (h : Booked calls s) (hroom : s.rl.size + 1 < hpMaxThreadRl)
    (hnull : 0 ∉ retired (calls ++ [.retirelist ptr]))
    (hstep : step t s (.retirelist ptr) = some s')
    (hledger : Ledger (calls ++ [.retirelist ptr]) s') {i : ℕ} (hi : s.rl.size < i)
    (hlt : i < hpMaxThreadRl) : freeable s.hp (s.rl.list i) = false := by
  rw [step_retirelist t ptr hroom, Option.some.injEq] at hstep
  subst hstep
  obtain ⟨-, honce, hdisjoint⟩ := List.nodup_append.mp hledger.once
  have hpushed : ∀ j, j ≠ s.rl.size → (s.rl.push ptr).list j = s.rl.list j := fun j hj ↦ by
    rw [RetireList.push_list, if_neg hj]
  by_contra hfree
  rw [Bool.not_eq_false, ← hpushed i hi.ne'] at hfree
  have hdeleted := sweep_deleted s.hp (s.rl.push ptr) hpMaxThreadRl
  have hmem : s.rl.list i ∈ (sweep s.hp (s.rl.push ptr) hpMaxThreadRl).2 := by
    rw [hdeleted, ← hpushed i hi.ne', List.mem_filter, List.mem_map]
    exact ⟨⟨i, List.mem_range.mpr hlt, rfl⟩, hfree⟩
  rcases h.cells i hlt with hzero | hretired
  · exact hnull (hzero ▸ hledger.onlyRetired _ (List.mem_append_right _ hmem))
  · rcases List.mem_append.mp (h.perm.mem_iff.mpr hretired) with hbefore | hentry
    · exact hdisjoint _ hbefore _ hmem rfl
    · obtain ⟨j, hj, heq⟩ := List.mem_map.mp hentry
      have hj := List.mem_range.mp hj
      rw [hdeleted] at honce
      rw [← hpushed i hi.ne', ← hpushed j hj.ne] at heq
      have := eq_of_nodup_deleted honce hlt (hj.trans (by omega)) hfree heq
      omega

/-- What a call does when nothing past the entries is freeable. -/
theorem step_of_stale (hroom : s.rl.size + 1 < hpMaxThreadRl)
    (hstale : ∀ i, s.rl.size < i → i < hpMaxThreadRl → freeable s.hp (s.rl.list i) = false)
    (hstep : step t s (.retirelist ptr) = some s') :
    s'.deleted = s.deleted ++ (s.rl.entries ++ [ptr]).filter (freeable s.hp) ∧
      s'.rl.entries = swept (freeable s.hp) (s.rl.entries ++ [ptr]) := by
  rw [step_retirelist t ptr hroom, Option.some.injEq] at hstep
  subst hstep
  have hle : (s.rl.push ptr).size ≤ hpMaxThreadRl := by
    rw [RetireList.push_size hroom]
    omega
  have hstale' : ∀ i, (s.rl.push ptr).size ≤ i → i < hpMaxThreadRl →
      freeable s.hp ((s.rl.push ptr).list i) = false := by
    intro i hi hlt
    rw [RetireList.push_size hroom] at hi
    rw [RetireList.push_list, if_neg (by omega)]
    exact hstale i hi hlt
  have hdeleted := sweep_deleted_of_stale s.hp (s.rl.push ptr) hle hstale'
  have hentries := sweep_entries_of_stale s.hp (s.rl.push ptr) hle (by norm_num) hstale'
  rw [RetireList.push_entries hroom] at hdeleted hentries
  simp only [hdeleted, hentries, and_self]

/-- The books balance after the call exactly when the sweep leaves the entries to keep. -/
theorem Booked.perm_iff (h : Booked calls s) (removed : Ptr → Bool) (remaining : List Ptr) :
    (s.deleted ++ (s.rl.entries ++ [ptr]).filter removed ++ remaining).Perm
      (retired (calls ++ [.retirelist ptr])) ↔
    remaining.Perm ((s.rl.entries ++ [ptr]).filter fun p ↦ !removed p) := by
  have hbefore : (s.deleted ++ (s.rl.entries ++ [ptr])).Perm
      (retired (calls ++ [.retirelist ptr])) := by
    rw [retired_append, ← List.append_assoc]
    exact h.perm.append_right _
  have hsplit : (s.deleted ++ (s.rl.entries ++ [ptr]).filter removed ++
      (s.rl.entries ++ [ptr]).filter fun p ↦ !removed p).Perm
      (s.deleted ++ (s.rl.entries ++ [ptr])) := by
    rw [List.append_assoc]
    exact (List.filter_append_perm ..).append_left _
  calc
    _ ↔ (s.deleted ++ (s.rl.entries ++ [ptr]).filter removed ++ remaining).Perm
        (s.deleted ++ (s.rl.entries ++ [ptr]).filter removed ++
          (s.rl.entries ++ [ptr]).filter fun p ↦ !removed p) :=
      (hsplit.trans hbefore).symm.congr_right _
    _ ↔ remaining.Perm ((s.rl.entries ++ [ptr]).filter fun p ↦ !removed p) :=
      List.perm_append_left_iff _

/-- A call keeps the ledger right exactly when it compacts cleanly. -/
theorem Booked.ledger_iff (h : Booked calls s) (hroom : s.rl.size + 1 < hpMaxThreadRl)
    (hnodup : (retired (calls ++ [.retirelist ptr])).Nodup)
    (hnull : 0 ∉ retired (calls ++ [.retirelist ptr]))
    (hstep : step t s (.retirelist ptr) = some s') :
    Ledger (calls ++ [.retirelist ptr]) s' ↔ CompactsCleanly s.hp s.rl ptr := by
  constructor
  · intro hledger
    have hstale := fun i hi hlt ↦ h.stale hroom hnull hstep hledger (i := i) hi hlt
    obtain ⟨hdeleted, hentries⟩ := step_of_stale hroom hstale hstep
    have hperm := (ledger_iff_perm hnodup).mp hledger
    rw [hdeleted, hentries, h.perm_iff, swept_perm_filter_iff] at hperm
    exact ⟨hstale, hperm⟩
  · intro ⟨hstale, hmoved⟩
    obtain ⟨hdeleted, hentries⟩ := step_of_stale hroom hstale hstep
    rw [ledger_iff_perm hnodup, hdeleted, hentries, h.perm_iff, swept_perm_filter_iff]
    exact hmoved

/-- A clean call keeps the invariant. -/
theorem Booked.retirelist (h : Booked calls s) (hroom : s.rl.size + 1 < hpMaxThreadRl)
    (hclean : CompactsCleanly s.hp s.rl ptr) (hstep : step t s (.retirelist ptr) = some s') :
    Booked (calls ++ [.retirelist ptr]) s' := by
  obtain ⟨hstale, hmoved⟩ := hclean
  obtain ⟨hdeleted, hentries⟩ := step_of_stale hroom hstale hstep
  constructor
  · rw [hdeleted, hentries, h.perm_iff, swept_perm_filter_iff]
    exact hmoved
  · intro i hi
    have hsize : (s.rl.push ptr).size = s.rl.size + 1 := RetireList.push_size hroom
    have hfreed : freed s.hp (s.rl.push ptr) hpMaxThreadRl ≤ (s.rl.push ptr).size := by
      apply freed_le_size
      · omega
      · intro j hj hlt
        rw [RetireList.push_list, if_neg (by omega)]
        exact hstale j (by omega) hlt
    obtain ⟨q, hq, hvalue⟩ := sweep_values s.hp (s.rl.push ptr) hfreed (by omega) hi
    rw [step_retirelist t ptr hroom, Option.some.injEq] at hstep
    subst hstep
    simp only [hvalue, RetireList.push_list, retired_append, List.mem_append]
    split_ifs
    · exact .inr (.inr (by simp [retired]))
    · exact (h.cells q hq).imp_right .inl

theorem run_concat (t : Tid) (s : Solo) (calls : List Call) (call : Call) :
    run t s (calls ++ [call]) = (run t s calls).bind fun s ↦ step t s call := by
  simp [run, List.foldlM_append]

end Calls

/-- An `hp_t` whose retire list has size zero and zero in all its cells. The slots may hold
anything. -/
structure Empty (s : Solo) : Prop where
  size : s.rl.size = 0
  cells : ∀ i < hpMaxThreadRl, s.rl.list i = 0
  deleted : s.deleted = []

theorem Empty.booked {s : Solo} (h : Empty s) : Booked [] s where
  perm := by simp [h.deleted, RetireList.entries, h.size, retired]
  cells i hi := .inl (h.cells i hi)

/-- A call that retires nothing. -/
theorem Booked.of_not_retirelist {calls : List Call} {s : Solo} (h : Booked calls s) (t : Tid)
    {call : Call} (hcall : ∀ ptr, call ≠ .retirelist ptr) :
    ∃ s', step t s call = some s' ∧ Booked (calls ++ [call]) s' := by
  cases call with
  | protectRelease k ptr =>
    exact ⟨_, rfl, by simpa [retired] using h.perm, by simpa [retired] using h.cells⟩
  | protectClear =>
    exact ⟨_, rfl, by simpa [retired] using h.perm, by simpa [retired] using h.cells⟩
  | retirelist ptr => exact absurd rfl (hcall ptr)

section Runs

variable {t : Tid} {start : Solo} {calls : List Call}

/-- The retired pointers are distinct and not NULL, and fewer than `HP_MAX_THREAD_RL` of them are
pending at any time. -/
structure Proper (t : Tid) (start : Solo) (calls : List Call) : Prop where
  nodup : (retired calls).Nodup
  notNull : 0 ∉ retired calls
  room : ∀ before ptr, before ++ [.retirelist ptr] <+: calls → ∀ s, run t start before = some s →
    ((retired before).filter (· ∉ s.deleted)).length + 1 < hpMaxThreadRl

theorem Proper.truncate {before : List Call} (h : Proper t start calls)
    (hbefore : before <+: calls) : Proper t start before where
  nodup := h.nodup.sublist (hbefore.sublist.filterMap _)
  notNull hmem := h.notNull ((hbefore.sublist.filterMap _).mem hmem)
  room first ptr hfirst := h.room first ptr (hfirst.trans hbefore)

theorem Proper.size {before : List Call} {ptr : Ptr} {s : Solo}
    (h : Proper t start (before ++ [.retirelist ptr])) (hrun : run t start before = some s)
    (hbooked : Booked before s) : s.rl.size + 1 < hpMaxThreadRl := by
  have hnodup := (h.truncate (List.prefix_append ..)).nodup
  have hroom := h.room before ptr List.prefix_rfl s hrun
  rwa [(hbooked.ledger hnodup).pending_length hnodup] at hroom

/-- The books of a run whose calls compact cleanly. -/
theorem booked_of_clean (hempty : Empty start) (h : Proper t start calls)
    (hclean : ∀ before ptr, before ++ [.retirelist ptr] <+: calls →
      ∃ s, run t start before = some s ∧ CompactsCleanly s.hp s.rl ptr) :
    ∃ s, run t start calls = some s ∧ Booked calls s := by
  induction calls using List.reverseRecOn with
  | nil => exact ⟨start, rfl, hempty.booked⟩
  | append_singleton before call ih =>
    obtain ⟨s, hrun, hbooked⟩ := ih (h.truncate (List.prefix_append ..)) fun first ptr hfirst ↦
      hclean first ptr (hfirst.trans (List.prefix_append ..))
    by_cases hcall : ∃ ptr, call = .retirelist ptr
    · obtain ⟨ptr, rfl⟩ := hcall
      obtain ⟨_, hrun', hclean⟩ := hclean before ptr List.prefix_rfl
      obtain rfl := Option.some.inj (hrun.symm.trans hrun')
      have hroom := h.size hrun hbooked
      have hstep := step_retirelist t ptr hroom
      exact ⟨_, by rw [run_concat, hrun]; exact hstep, hbooked.retirelist hroom hclean hstep⟩
    · obtain ⟨s', hstep, hbooked'⟩ := hbooked.of_not_retirelist t (by simpa using hcall)
      exact ⟨s', by rw [run_concat, hrun]; exact hstep, hbooked'⟩

/-- The books of a run with a right ledger after each call, and its last call. -/
theorem clean_of_ledger {before : List Call} {ptr : Ptr} {s s' : Solo}
    (h : Proper t start (before ++ [.retirelist ptr])) (hrun : run t start before = some s)
    (hbooked : Booked before s) (hrun' : run t start (before ++ [.retirelist ptr]) = some s')
    (hledger : Ledger (before ++ [.retirelist ptr]) s') : CompactsCleanly s.hp s.rl ptr := by
  rw [run_concat, hrun, Option.bind_some] at hrun'
  exact (hbooked.ledger_iff (h.size hrun hbooked) h.nodup h.notNull hrun').mp hledger

/-- **The retire ledger.** In every run of one thread whose retired pointers are distinct and not
NULL, with fewer than `HP_MAX_THREAD_RL` of them pending, the ledger is right after each call
exactly when every call of `hp_retirelist` compacts cleanly. -/
theorem ledger_iff_compactsCleanly (hempty : Empty start) (h : Proper t start calls) :
    (∀ before, before <+: calls → ∃ s, run t start before = some s ∧ Ledger before s) ↔
      ∀ before ptr, before ++ [.retirelist ptr] <+: calls →
        ∃ s, run t start before = some s ∧ CompactsCleanly s.hp s.rl ptr := by
  constructor
  · intro hledger
    induction calls using List.reverseRecOn with
    | nil => simp
    | append_singleton calls call ih =>
      have hcalls : calls <+: calls ++ [call] := List.prefix_append ..
      have hclean := ih (h.truncate hcalls) fun before hbefore ↦
        hledger before (hbefore.trans hcalls)
      intro before ptr hbefore
      rcases List.prefix_concat_iff.mp hbefore with heq | hbefore
      · obtain ⟨rfl, hcall⟩ := List.append_inj' heq rfl
        obtain rfl := List.singleton_inj.mp hcall
        obtain ⟨s, hrun, hbooked⟩ := booked_of_clean hempty (h.truncate hcalls) hclean
        obtain ⟨s', hrun', hledger'⟩ := hledger _ List.prefix_rfl
        exact ⟨s, hrun, clean_of_ledger h hrun hbooked hrun' hledger'⟩
      · exact hclean before ptr hbefore
  · intro hclean before hbefore
    have h' := h.truncate hbefore
    obtain ⟨s, hrun, hbooked⟩ := booked_of_clean hempty h' fun first ptr hfirst ↦
      hclean first ptr (hfirst.trans hbefore)
    exact ⟨s, hrun, hbooked.ledger h'.nodup⟩

end Runs

/-- A fresh list and no protected pointer. -/
def soloNew : Solo where
  hp _ _ := 0
  rl := ⟨0, fun _ ↦ 0⟩
  deleted := []

theorem empty_soloNew : Empty soloNew := ⟨rfl, fun _ _ ↦ rfl, rfl⟩

/-- A short run has room for all its pointers. -/
theorem Proper.of_length {t : Tid} {start : Solo} {calls : List Call}
    (hnodup : (retired calls).Nodup) (hnull : 0 ∉ retired calls)
    (hlength : calls.length < hpMaxThreadRl) : Proper t start calls := by
  refine ⟨hnodup, hnull, fun before ptr hbefore s _ ↦ ?_⟩
  have hle := hbefore.length_le
  have hfilter := (List.length_filter_le (· ∉ s.deleted) (retired before)).trans
    (List.length_filterMap_le ..)
  rw [List.length_append, List.length_singleton] at hle
  omega

theorem ledger_iff_compactsCleanly_two :
    (∀ before, before <+: [.retirelist 1, .retirelist 2] →
      ∃ s, run 0 soloNew before = some s ∧ Ledger before s) ↔
    ∀ before ptr, before ++ [.retirelist ptr] <+: [.retirelist 1, .retirelist 2] →
      ∃ s, run 0 soloNew before = some s ∧ CompactsCleanly s.hp s.rl ptr :=
  ledger_iff_compactsCleanly empty_soloNew
    (.of_length (by decide) (by decide) (by decide))

/-- The pointer `2` stays in the second cell after it has been deleted. -/
def doubleFree : List Call :=
  [.protectRelease 0 1, .retirelist 1, .protectClear, .retirelist 2, .retirelist 3]

theorem retire_ledger_broken : ¬ ∀ t start calls, Empty start → Proper t start calls →
    ∀ before, before <+: calls → ∃ s, run t start before = some s ∧ Ledger before s := by
  intro hledger
  obtain ⟨s, hrun, hs⟩ := hledger 0 soloNew doubleFree empty_soloNew
    (.of_length (by decide) (by decide) (by decide)) doubleFree List.prefix_rfl
  have hdeleted : (run 0 soloNew doubleFree).map Solo.deleted = some [1, 2, 3, 2] := by
    decide +kernel
  rw [hrun, Option.map_some, Option.some.injEq] at hdeleted
  have honce := hs.once
  rw [hdeleted] at honce
  exact absurd honce (by decide)

end ParallelPrograms.HazardPointer
