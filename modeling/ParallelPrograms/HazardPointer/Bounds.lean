import ParallelPrograms.HazardPointer.Refinement

/-!
# The bounds of the retire lists

`hp_new` allocates the lists with `calloc` but leaves `rl.size` as it finds it in the memory that
`aligned_alloc` returns. The first `hp_retirelist` of a thread writes at that index before its
assertion. Later the loop removes entries without looking at `rl.size`: when an old copy past the
end of the list is freeable, `--thi->rl.size` may take zero to the largest `size_t`, and the
`memmove` reads there.

When the size of a thread that retires pointers starts at zero, and no entry is removed from an
empty list, its `rl.size` is the number of its calls of `hp_retirelist` less the number of deleted
pointers.
-/

namespace ParallelPrograms.HazardPointer

open Concurrency

/-- What `hp_new` returns. `rl.size` is whatever the allocated memory holds. -/
structure Created (s : State) : Prop where
  hp : ∀ j k, s.hp j k = 0
  size : ∀ t, (s.rl t).size < 2 ^ 64
  list : ∀ t, ∀ i < hpMaxThreadRl, (s.rl t).list i = 0
  threads : ∀ t, s.threads t = .idle
  aborted : s.aborted = false

/-- The load of `obj` at the start of round `i`. -/
def roundAccess (i : ℕ) : List ℕ := if i < hpMaxThreadRl then [i] else []

/-- The indices at which a step reads or writes `rl.list`. -/
def accessed (s : State) : Action → List ℕ
  | .retire t ptr =>
    (s.rl t).size :: if ((s.rl t).push ptr).size < hpMaxThreadRl then roundAccess 0 else []
  | .load t =>
    match s.threads t with
    | .scanning i obj (slot :: _) => if s.hp slot.1 slot.2 = obj then roundAccess (i + 1) else []
    | _ => []
  | .delete t _ =>
    match s.threads t with
    | .scanning i _ _ => ((s.rl t).compact i).size :: i :: roundAccess (i + 1)
    | _ => []
  | _ => []

/-- The step accesses cells of the list only, and leaves a size in range when it ends a call. -/
structure InBounds (s : State) (a : Action) : Prop where
  index : ∀ i ∈ accessed s a, i < hpMaxThreadRl
  size : (update s a).threads a.tid = .idle → ((update s a).rl a.tid).size ≤ 127

/-- The list is not empty when an entry is removed. -/
def RemovesEntry (s : State) : Action → Prop
  | .delete t _ => (s.rl t).size ≠ 0
  | _ => True

instance (s : State) (a : Action) : Decidable (RemovesEntry s a) := by
  cases a <;> unfold RemovesEntry <;> infer_instance

/-- The return of a call that does not touch the list. -/
def Action.SparesList : Action → Prop
  | .protect .. | .fence _ => True
  | _ => False

/-- The number of pointers that the thread has retired. -/
def retires (t : Tid) (history : List Action) : ℕ :=
  history.countP fun
    | .retire u _ => u = t
    | _ => false

/-- The number of pointers that it has deleted. -/
def deletes (t : Tid) (history : List Action) : ℕ :=
  history.countP fun
    | .delete u _ => u = t
    | _ => false

/-- At every time fewer than `HP_MAX_THREAD_RL` retired pointers of a thread are not deleted. -/
def FewPending (history : List Action) : Prop :=
  ∀ before, before <+: history → ∀ t, retires t before < deletes t before + hpMaxThreadRl

/-- The size grows from what the memory held by the number of pending pointers. Only lists that
started at size zero are scanned. -/
structure Sized (start : State) (history : List Action) (s : State) : Prop where
  size : ∀ t, (s.rl t).size + deletes t history = (start.rl t).size + retires t history
  hand : ∀ t i obj rest, s.threads t = .scanning i obj rest →
    i < hpMaxThreadRl ∧ (start.rl t).size = 0
  spared : ∀ t, (start.rl t).size ≠ 0 → deletes t history = 0

variable {start s : State} {history : List Action} {a : Action}

theorem FewPending.of_prefix {before : List Action} (h : FewPending history)
    (hbefore : before <+: history) : FewPending before :=
  fun first hfirst ↦ h first (hfirst.trans hbefore)

theorem roundAccess_lt {i j : ℕ} (h : j ∈ roundAccess i) : j < hpMaxThreadRl := by
  unfold roundAccess at h
  split_ifs at h with hi
  · rw [List.mem_singleton] at h
    rwa [h]
  · cases h

theorem Pc.visit_scanning_lt {rl : RetireList} {i i' : ℕ} {obj : Ptr}
    {rest : List (Tid × Fin hpMaxPtr)} (h : Pc.visit rl i = .scanning i' obj rest) :
    i' < hpMaxThreadRl := by
  unfold Pc.visit at h
  split_ifs at h with hi
  cases h
  exact hi

theorem Created.sized (h : Created start) : Sized start [] start where
  size _ := rfl
  hand t i obj rest hscan := by
    rw [h.threads] at hscan
    cases hscan
  spared _ _ := rfl

@[simp]
theorem retires_append (t : Tid) (first second : List Action) :
    retires t (first ++ second) = retires t first + retires t second := List.countP_append

@[simp]
theorem deletes_append (t : Tid) (first second : List Action) :
    deletes t (first ++ second) = deletes t first + deletes t second := List.countP_append

theorem retires_retire (t : Tid) (ptr : Ptr) : retires t [.retire t ptr] = 1 := by
  simp [retires]

theorem deletes_delete (t : Tid) (obj : Ptr) : deletes t [.delete t obj] = 1 := by
  simp [deletes]

theorem retires_of_ne {t : Tid} (h : a.tid ≠ t) : retires t [a] = 0 := by
  cases a <;> simp_all [retires, Action.tid]

theorem deletes_of_ne {t : Tid} (h : a.tid ≠ t) : deletes t [a] = 0 := by
  cases a <;> simp_all [deletes, Action.tid]

theorem retires_eq_zero {t : Tid} (h : ∀ ptr, .retire t ptr ∉ history) : retires t history = 0 := by
  apply List.countP_eq_zero.mpr
  intro a ha
  cases a with
  | retire u ptr =>
    simp only [decide_eq_true_eq]
    rintro rfl
    exact h ptr ha
  | _ => exact Bool.false_ne_true

theorem Sized.size_lt (h : Sized start history s) (hfew : FewPending history) {t : Tid}
    (hzero : (start.rl t).size = 0) : (s.rl t).size < hpMaxThreadRl := by
  have hsize := h.size t
  have hpending := hfew history List.prefix_rfl t
  omega

/-- There is room for one more pointer. -/
theorem Sized.room (h : Sized start history s) {t : Tid} {ptr : Ptr}
    (hfew : FewPending (history ++ [.retire t ptr])) (hzero : (start.rl t).size = 0) :
    (s.rl t).size + 1 < hpMaxThreadRl := by
  have hsize := h.size t
  have hpending := hfew _ List.prefix_rfl t
  have hnone : deletes t [.retire t ptr] = 0 := rfl
  rw [retires_append, deletes_append, retires_retire] at hpending
  omega

/-- The size of a thread that has retired nothing is what the memory held. -/
theorem Sized.size_eq (h : Sized start history s) {t : Tid} (hnonzero : (start.rl t).size ≠ 0)
    (hretire : ∀ ptr, .retire t ptr ∉ history) : (s.rl t).size = (start.rl t).size := by
  have hsize := h.size t
  rwa [h.spared t hnonzero, retires_eq_zero hretire, Nat.add_zero, Nat.add_zero] at hsize

/-- Rounds start below `HP_MAX_THREAD_RL`, and in the lists of threads that retire. -/
theorem Sized.hand_update (h : Sized start history s) (hguard : guard s a)
    (hzero : ∀ t ptr, a = .retire t ptr → (start.rl t).size = 0) (t : Tid) (i : ℕ) (obj : Ptr)
    (rest : List (Tid × Fin hpMaxPtr)) (hscan : (update s a).threads t = .scanning i obj rest) :
    i < hpMaxThreadRl ∧ (start.rl t).size = 0 := by
  by_cases htid : a.tid = t
  · subst htid
    cases a with
    | retire t ptr =>
      simp only [update, Action.tid] at hscan
      split_ifs at hscan
      · rw [State.goto_threads, if_pos rfl] at hscan
        exact ⟨Pc.visit_scanning_lt hscan, hzero t ptr rfl⟩
      · exact h.hand t i obj rest hscan
    | load t =>
      obtain ⟨-, i', obj', slot, rest', hpc⟩ := hguard
      simp only [update, hpc, Action.tid] at hscan
      split_ifs at hscan <;> rw [State.goto_threads, if_pos rfl] at hscan
      · exact ⟨Pc.visit_scanning_lt hscan, (h.hand t i' obj' _ hpc).2⟩
      · cases hscan
        exact h.hand t i obj _ hpc
    | delete t obj' =>
      obtain ⟨-, i', hpc⟩ := hguard
      simp only [update, hpc, Action.tid, State.goto_threads, if_true] at hscan
      exact ⟨Pc.visit_scanning_lt hscan, (h.hand t i' obj' _ hpc).2⟩
    | protect t k ptr => exact h.hand t i obj rest hscan
    | callClear t => simp [update, Action.tid, State.goto_threads] at hscan
    | clearStore t =>
      obtain ⟨-, slot, rest', hpc⟩ := hguard
      simp [update, hpc, Action.tid, State.goto_threads] at hscan
    | fence t => simp [update, Action.tid, State.goto_threads] at hscan
  · rw [(others_step hguard htid).1] at hscan
    exact h.hand t i obj rest hscan

/-- A deletion removes the last entry. -/
theorem Sized.compact_size (h : Sized start history s) (hfew : FewPending history) {t : Tid}
    (hzero : (start.rl t).size = 0) (hpos : (s.rl t).size ≠ 0) (i : ℕ) :
    ((s.rl t).compact i).size = (s.rl t).size - 1 :=
  RetireList.compact_size (Nat.pos_of_ne_zero hpos) ((h.size_lt hfew hzero).trans (by norm_num))

/-- The size goes with the retired and the deleted pointers. -/
theorem Sized.size_update (h : Sized start history s) (hguard : guard s a)
    (hzero : ∀ t ptr, a = .retire t ptr → (start.rl t).size = 0) (hremoves : RemovesEntry s a)
    (hfew : FewPending (history ++ [a])) (t : Tid) :
    ((update s a).rl t).size + deletes t (history ++ [a]) =
      (start.rl t).size + retires t (history ++ [a]) := by
  have hsize := h.size t
  rw [retires_append, deletes_append]
  by_cases htid : a.tid = t
  · subst htid
    cases a with
    | retire t ptr =>
      have hroom := h.room hfew (hzero t ptr rfl)
      have hpush : ((s.rl t).push ptr).size = (s.rl t).size + 1 := RetireList.push_size hroom
      have hnone : deletes t [.retire t ptr] = 0 := rfl
      simp only [update, Action.tid, hpush, hroom, if_true, State.goto_rl, State.setRl_rl,
        retires_retire, hnone] at hsize ⊢
      omega
    | delete t obj =>
      obtain ⟨-, i, hpc⟩ := hguard
      have hpos : (s.rl t).size ≠ 0 := hremoves
      have hcompact := h.compact_size (hfew.of_prefix (List.prefix_append history _))
        (h.hand t i obj [] hpc).2 hpos i
      have hnone : retires t [.delete t obj] = 0 := rfl
      simp only [update, hpc, Action.tid, State.goto_rl, State.setRl_rl, if_true, hcompact,
        deletes_delete, hnone] at hsize ⊢
      omega
    | load t =>
      obtain ⟨-, i, obj, slot, rest, hpc⟩ := hguard
      simp only [update, hpc]
      split_ifs <;> exact hsize
    | clearStore t =>
      obtain ⟨-, slot, rest, hpc⟩ := hguard
      simp only [update, hpc]
      exact hsize
    | protect | callClear | fence => exact hsize
  · rw [(others_step hguard htid).2, retires_of_ne htid, deletes_of_ne htid]
    exact hsize

theorem Sized.spared_update (h : Sized start history s) (hguard : guard s a) (t : Tid)
    (hnonzero : (start.rl t).size ≠ 0) : deletes t (history ++ [a]) = 0 := by
  rw [deletes_append, h.spared t hnonzero, Nat.zero_add]
  by_cases htid : a.tid = t
  · subst htid
    cases a with
    | delete t obj =>
      obtain ⟨-, i, hpc⟩ := hguard
      exact absurd (h.hand t i obj [] hpc).2 hnonzero
    | _ => rfl
  · exact deletes_of_ne htid

theorem Sized.update (h : Sized start history s) (hguard : guard s a)
    (hzero : ∀ t ptr, a = .retire t ptr → (start.rl t).size = 0) (hremoves : RemovesEntry s a)
    (hfew : FewPending (history ++ [a])) : Sized start (history ++ [a]) (update s a) where
  size := h.size_update hguard hzero hremoves hfew
  hand := h.hand_update hguard hzero
  spared := h.spared_update hguard

theorem Sized.accessed_lt (h : Sized start history s) (hguard : guard s a)
    (hzero : ∀ t ptr, a = .retire t ptr → (start.rl t).size = 0) (hremoves : RemovesEntry s a)
    (hfew : FewPending (history ++ [a])) : ∀ i ∈ accessed s a, i < hpMaxThreadRl := by
  have hbefore := hfew.of_prefix (List.prefix_append history [a])
  cases a with
  | retire t ptr =>
    have hroom := h.room hfew (hzero t ptr rfl)
    rw [accessed, List.forall_mem_cons]
    refine ⟨(Nat.le_succ _).trans_lt hroom, fun i hi ↦ ?_⟩
    split_ifs at hi
    · exact roundAccess_lt hi
    · cases hi
  | load t =>
    obtain ⟨-, i, obj, slot, rest, hscan⟩ := hguard
    simp only [accessed, hscan]
    intro i' hi'
    split_ifs at hi'
    · exact roundAccess_lt hi'
    · cases hi'
  | delete t obj =>
    obtain ⟨-, i, hscan⟩ := hguard
    obtain ⟨hi, hstart⟩ := h.hand t i obj [] hscan
    simp only [accessed, hscan, h.compact_size hbefore hstart hremoves, List.forall_mem_cons]
    exact ⟨(Nat.sub_le _ _).trans_lt (h.size_lt hbefore hstart), hi,
      fun i' hi' ↦ roundAccess_lt hi'⟩
  | _ => nofun

/-- A step of `hp_retirelist` is a step of a thread whose list started at size zero. -/
theorem Sized.size_eq_zero (h : Sized start history s) (hguard : guard s a)
    (hzero : ∀ t ptr, a = .retire t ptr → (start.rl t).size = 0)
    (hidle : (HazardPointer.update s a).threads a.tid = .idle) (hspares : ¬ a.SparesList) :
    (start.rl a.tid).size = 0 := by
  cases a with
  | retire t ptr => exact hzero t ptr rfl
  | load t =>
    obtain ⟨-, i, obj, slot, rest, hscan⟩ := hguard
    exact (h.hand t i obj _ hscan).2
  | delete t obj =>
    obtain ⟨-, i, hscan⟩ := hguard
    exact (h.hand t i obj _ hscan).2
  | callClear t => simp [HazardPointer.update, Action.tid, State.goto_threads] at hidle
  | clearStore t =>
    obtain ⟨-, slot, rest, hpc⟩ := hguard
    simp [HazardPointer.update, hpc, Action.tid, State.goto_threads] at hidle
  | protect | fence => exact absurd trivial hspares

/-- Also the lists that are not scanned have a size in range, if the memory held one. -/
theorem Sized.size_le (h : Sized start history s) (hfew : FewPending history) {t : Tid}
    (hzero : ∀ ptr, .retire t ptr ∈ history → (start.rl t).size = 0)
    (hsmall : (start.rl t).size ≤ 127) : (s.rl t).size ≤ 127 := by
  by_cases hstart : (start.rl t).size = 0
  · exact Nat.le_of_lt_succ (h.size_lt hfew hstart)
  · rwa [h.size_eq hstart fun ptr hmem ↦ hstart (hzero ptr hmem)]

theorem Sized.inBounds (h : Sized start history s) (hguard : guard s a)
    (hzero : ∀ t ptr, .retire t ptr ∈ history ++ [a] → (start.rl t).size = 0)
    (hsmall : a.SparesList → (start.rl a.tid).size ≤ 127) (hremoves : RemovesEntry s a)
    (hfew : FewPending (history ++ [a])) : InBounds s a := by
  have hnow : ∀ t ptr, a = .retire t ptr → (start.rl t).size = 0 :=
    fun t ptr ha ↦ hzero t ptr (by simp [ha])
  refine ⟨h.accessed_lt hguard hnow hremoves hfew, fun hidle ↦ ?_⟩
  apply (h.update hguard hnow hremoves hfew).size_le hfew (hzero a.tid)
  by_cases hspares : a.SparesList
  · exact hsmall hspares
  · rw [h.size_eq_zero hguard hnow hidle hspares]
    exact Nat.zero_le _

/-- A call that does not touch the list leaves what the memory held. -/
theorem Sized.size_le_of_inBounds (h : Sized start history s) (hguard : guard s a)
    (hzero : ∀ ptr, .retire a.tid ptr ∈ history → (start.rl a.tid).size = 0)
    (hspares : a.SparesList) (hbounds : InBounds s a) : (start.rl a.tid).size ≤ 127 := by
  by_cases hstart : (start.rl a.tid).size = 0
  · rw [hstart]
    exact Nat.zero_le _
  · have hsize := hbounds.size
    cases a with
    | protect t k ptr =>
      rw [← h.size_eq hstart fun ptr hmem ↦ hstart (hzero ptr hmem)]
      exact hsize hguard.2
    | fence t =>
      rw [← h.size_eq hstart fun ptr hmem ↦ hstart (hzero ptr hmem)]
      exact hsize (Function.update_self ..)
    | _ => exact hspares.elim

/-- A removal from an empty list reads far behind it. -/
theorem InBounds.removesEntry (h : InBounds s a) (hguard : guard s a) : RemovesEntry s a := by
  cases a with
  | delete t obj =>
    obtain ⟨-, i, hscan⟩ := hguard
    have haccessed := h.index
    simp only [accessed, hscan, List.forall_mem_cons] at haccessed
    intro hzero
    have hlt : ((s.rl t).size + (2 ^ 64 - 1)) % 2 ^ 64 < hpMaxThreadRl := haccessed.1
    rw [hzero] at hlt
    exact absurd hlt (by decide)
  | _ => trivial

/-- The sizes in a run in which no entry is removed from an empty list. -/
theorem sized_run (hcreated : Created start) (hlegal : machine.Legal start history)
    (hzero : ∀ t ptr, .retire t ptr ∈ history → (start.rl t).size = 0)
    (hfew : FewPending history) (hremoves : machine.Meets RemovesEntry start history) :
    Sized start history (machine.final start history) := by
  have hinv := Machine.meets_induction (M := machine) (fun history s ↦ FewPending history →
    (∀ t ptr, .retire t ptr ∈ history → (start.rl t).size = 0) → Sized start history s) ?_ ?_
    hlegal hremoves
  · exact hinv hfew hzero
  · exact fun _ _ ↦ hcreated.sized
  · intro history a _ ih hguard hremoves hfew hzero
    have hsized := ih (hfew.of_prefix (List.prefix_append history [a]))
      fun t ptr hmem ↦ hzero t ptr (List.mem_append_left _ hmem)
    exact hsized.update hguard (fun t ptr ha ↦ hzero t ptr (by simp [ha])) hremoves hfew

/-- **The retire lists stay in bounds** when `aligned_alloc` has returned memory with size zero for
every thread that retires a pointer, if and only if no entry is removed from an empty list, and
the threads that return from the other two functions find a size in range in the memory. -/
theorem in_bounds_iff_removes (hcreated : Created start) (hlegal : machine.Legal start history)
    (hzero : ∀ t ptr, .retire t ptr ∈ history → (start.rl t).size = 0)
    (hfew : FewPending history) :
    machine.Meets InBounds start history ↔
      machine.Meets RemovesEntry start history ∧
        ∀ a ∈ history, a.SparesList → (start.rl a.tid).size ≤ 127 := by
  constructor
  · intro hbounds
    have hremoves := hlegal.meets_imp hbounds fun _ _ hguard hin ↦ hin.removesEntry hguard
    refine ⟨hremoves, fun a ha hspares ↦ ?_⟩
    obtain ⟨before, after, rfl⟩ := List.append_of_mem ha
    obtain ⟨hbefore, hguard, -⟩ := (machine.legal_append ..).mp hlegal
    obtain ⟨-, hin, -⟩ := (machine.meets_append ..).mp hbounds
    have hsized := sized_run hcreated hbefore
      (fun t ptr hmem ↦ hzero t ptr (List.mem_append_left _ hmem))
      (hfew.of_prefix (List.prefix_append before _)) ((machine.meets_append ..).mp hremoves).1
    exact hsized.size_le_of_inBounds hguard
      (fun ptr hmem ↦ hzero a.tid ptr (List.mem_append_left _ hmem)) hspares hin
  · rintro ⟨hremoves, hsmall⟩
    induction history using List.reverseRecOn with
    | nil => trivial
    | append_singleton history a ih =>
      obtain ⟨hbefore, hguard, -⟩ := (machine.legal_append ..).mp hlegal
      obtain ⟨hremoves, hnow, -⟩ := (machine.meets_append ..).mp hremoves
      have hfewBefore := hfew.of_prefix (List.prefix_append history [a])
      have hzeroBefore : ∀ t ptr, .retire t ptr ∈ history → (start.rl t).size = 0 :=
        fun t ptr hmem ↦ hzero t ptr (List.mem_append_left _ hmem)
      have hbounds := ih hbefore hzeroBefore hfewBefore hremoves
        fun b hb ↦ hsmall b (List.mem_append_left _ hb)
      have hsized := sized_run hcreated hbefore hzeroBefore hfewBefore hremoves
      have hin := hsized.inBounds hguard hzero (hsmall a (by simp)) hnow hfew
      exact (machine.meets_append ..).mpr ⟨hbounds, hin, trivial⟩

/-- What `hp_new` returns when the memory holds `size t` in the `rl.size` of thread `t`. -/
def hpNewWith (size : Tid → ℕ) : State where
  hp _ _ := 0
  rl t := ⟨size t, fun _ ↦ 0⟩
  threads _ := .idle
  aborted := false

theorem created_hpNewWith {size : Tid → ℕ} (hsize : ∀ t, size t < 2 ^ 64) :
    Created (hpNewWith size) :=
  ⟨fun _ _ ↦ rfl, hsize, fun _ _ _ ↦ rfl, fun _ ↦ rfl, rfl⟩

theorem fewPending_of_retires (h : ∀ t, retires t history < hpMaxThreadRl) :
    FewPending history := by
  intro before hbefore t
  have hle : retires t before ≤ retires t history := hbefore.sublist.countP_le
  exact (hle.trans_lt (h t)).trans_le (Nat.le_add_left _ _)

/-- Thread `2` retires pointers, thread `0` protects one, and the others do nothing. -/
def sizeFound (t : Tid) : ℕ := if t = 2 then 0 else if t = 0 then 100 else 200

theorem in_bounds_twoCalls :
    machine.Meets InBounds (hpNewWith sizeFound) (.protect 0 0 5 :: (keptCall ++ deletedCall)) := by
  have hlegal : machine.Legal (hpNewWith sizeFound)
      (.protect 0 0 5 :: (keptCall ++ deletedCall)) := by
    decide +kernel
  have hactions : ∀ a ∈ .protect 0 0 5 :: (keptCall ++ deletedCall),
      a.tid = 2 ∨ a = .protect 0 0 5 := by
    decide +kernel
  have hretires : ∀ t ptr, .retire t ptr ∈ .protect 0 0 5 :: (keptCall ++ deletedCall) → t = 2 := by
    intro t ptr hmem
    rcases hactions _ hmem with h | h
    · exact h
    · cases h
  have hfew : FewPending (.protect 0 0 5 :: (keptCall ++ deletedCall)) := by
    apply fewPending_of_retires
    intro t
    by_cases ht : t = 2
    · subst ht
      decide +kernel
    · rw [retires_eq_zero fun ptr hmem ↦ ht (hretires t ptr hmem)]
      decide
  apply (in_bounds_iff_removes (created_hpNewWith (by decide)) hlegal (fun t ptr hmem ↦ ?_)
    hfew).mpr ⟨by decide +kernel, fun a ha _ ↦ ?_⟩
  · rw [hretires t ptr hmem]
    rfl
  · rcases hactions a ha with h | h <;> grind [Action.tid, hpNewWith, sizeFound]

/-- The memory held 200. -/
theorem retire_list_out_of_bounds :
    ¬ ∀ start history, Created start → machine.Legal start history → FewPending history →
      machine.Meets InBounds start history := by
  intro h
  have hlegal : machine.Legal (hpNewWith fun _ ↦ 200) [.retire 0 5] := ⟨⟨rfl, rfl⟩, trivial⟩
  obtain ⟨hbounds, -⟩ := h _ _ (created_hpNewWith (by decide)) hlegal
    (fewPending_of_retires (by decide))
  have hlt := hbounds.index 200 List.mem_cons_self
  exact absurd hlt (by decide)

end ParallelPrograms.HazardPointer
