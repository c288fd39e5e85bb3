import ParallelPrograms.HazardPointer.Model
import Mathlib.Tactic.NormNum

/-!
# What a hazard slot protects

A scan deletes a pointer after it has loaded every slot and found the pointer in none. A slot that
holds the pointer from before the scan reaches it until the scan has loaded it therefore keeps
`delete_func` away. The owner of the slot does not change it, but `hp_protect_clear` of any other
thread does: its loops store zero into the slots of all threads. A protection lasts as long as no
such store hits its slot.
-/

namespace ParallelPrograms.HazardPointer

open Concurrency

variable {s : State} {t : Tid} {k : Fin hpMaxPtr} {ptr : Ptr}

/-- Every scan that has `ptr` in its hand is still before the slot. -/
def Unseen (t : Tid) (k : Fin hpMaxPtr) (ptr : Ptr) (s : State) : Prop :=
  ∀ u i rest, s.threads u = .scanning i ptr rest → (t, k) ∈ rest

/-- The step does not clear the slot `k` of thread `t`. -/
def SparesSlot (t : Tid) (k : Fin hpMaxPtr) (s : State) (a : Action) : Prop :=
  ∀ u, a = .clearStore u → ∀ rest, s.threads u ≠ .clearing ((t, k) :: rest)

/-- Thread `t` has `ptr` in its slot `k`, and no scan has overlooked it. -/
structure Protected (t : Tid) (k : Fin hpMaxPtr) (ptr : Ptr) (s : State) : Prop where
  slot : s.hp t k = ptr
  unseen : Unseen t k ptr s

theorem Pc.visit_eq_scanning {rl : RetireList} {i i' : ℕ} {obj : Ptr}
    {rest : List (Tid × Fin hpMaxPtr)} (h : Pc.visit rl i = .scanning i' obj rest) :
    i' = i ∧ obj = rl.list i ∧ rest = slots := by
  unfold Pc.visit at h
  split_ifs at h
  cases h
  exact ⟨rfl, rfl, rfl⟩

/-- The scan of a pointer moves on by one slot, or to the next pointer of the list. -/
theorem scanning_update {u : Tid} {a : Action} {i : ℕ} {obj : Ptr}
    {rest : List (Tid × Fin hpMaxPtr)} (hguard : guard s a)
    (h : (update s a).threads u = .scanning i obj rest) :
    s.threads u = .scanning i obj rest ∨
      (rest = slots ∧ obj = ((update s a).rl u).list i) ∨
      ∃ slot, a = .load u ∧ s.threads u = .scanning i obj (slot :: rest) ∧
        s.hp slot.1 slot.2 ≠ obj := by
  cases a with
  | retire v p =>
    simp only [update] at h ⊢
    split_ifs at h ⊢
    · by_cases hv : u = v
      · rw [State.goto_threads, if_pos hv] at h
        obtain ⟨rfl, rfl, rfl⟩ := Pc.visit_eq_scanning h
        simp [hv, State.setRl_rl]
      · rw [State.goto_threads, if_neg hv] at h
        exact .inl h
    · exact .inl h
  | load v =>
    obtain ⟨-, i', obj', slot, rest', hv⟩ := hguard
    simp only [update, hv] at h ⊢
    by_cases huv : u = v
    · subst huv
      split_ifs at h ⊢ with heq
      · rw [State.goto_threads, if_pos rfl] at h
        obtain ⟨rfl, rfl, rfl⟩ := Pc.visit_eq_scanning h
        simp
      · rw [State.goto_threads, if_pos rfl] at h
        cases h
        exact .inr (.inr ⟨slot, rfl, hv, heq⟩)
    · refine .inl ?_
      split_ifs at h <;> rwa [State.goto_threads, if_neg huv] at h
  | delete v p =>
    obtain ⟨-, i', hv⟩ := hguard
    simp only [update, hv] at h ⊢
    by_cases huv : u = v
    · rw [State.goto_threads, if_pos huv] at h
      obtain ⟨rfl, rfl, rfl⟩ := Pc.visit_eq_scanning h
      simp [huv, State.setRl_rl]
    · rw [State.goto_threads, if_neg huv] at h
      exact .inl h
  | _ => grind [update, guard]

theorem Protected.update (h : Protected t k ptr s) {a : Action} (hguard : guard s a)
    (hprotect : ∀ p, a = .protect t k p → p = ptr) (hspares : SparesSlot t k s a) :
    Protected t k ptr (update s a) := by
  obtain ⟨hslot, hunseen⟩ := h
  constructor
  · cases a <;> grind [HazardPointer.update, guard, SparesSlot]
  · intro u i rest hscan
    rcases scanning_update hguard hscan with hsame | ⟨rfl, -⟩ | ⟨slot, rfl, hbefore, hne⟩
    · exact hunseen u i rest hsame
    · exact mem_slots (t, k)
    · -- the slot that the load has just passed does not hold the pointer
      rcases List.mem_cons.mp (hunseen u i _ hbefore) with rfl | hmem
      · exact absurd hslot hne
      · exact hmem

/-- A protected pointer is not deleted. -/
theorem Protected.not_delete (h : Protected t k ptr s) (u : Tid) : ¬ guard s (.delete u ptr) := by
  intro ⟨_, i, hscan⟩
  exact List.not_mem_nil (h.unseen u i [] hscan)

/-- **Hazard pointers protect** while `hp_protect_clear` spares the slot. Thread `t` stores `ptr`
into its slot before any scan that has `ptr` in its hand gets past the slot. As long as `t` stores
no other pointer there and no `hp_protect_clear` stores to the slot, `delete_func` is not called
on `ptr`. -/
theorem not_deleted_of_protect {during : List Action} (hunseen : Unseen t k ptr s)
    (hlegal : machine.Legal s (.protect t k ptr :: during))
    (hprotect : ∀ p, .protect t k p ∈ during → p = ptr)
    (hspares : machine.Meets (SparesSlot t k) (update s (.protect t k ptr)) during) (u : Tid) :
    .delete u ptr ∉ during := by
  obtain ⟨-, hlegal⟩ := hlegal
  have hprotected : Protected t k ptr (update s (.protect t k ptr)) := by
    refine ⟨?_, hunseen⟩
    simp [update, State.setSlot_hp]
  rw [machine_update] at hlegal
  generalize update s (.protect t k ptr) = s' at *
  induction during generalizing s' with
  | nil => exact List.not_mem_nil
  | cons a during ih =>
    obtain ⟨hguard, hlegal⟩ := hlegal
    obtain ⟨hspare, hspares⟩ := hspares
    have hnext := hprotected.update hguard
      (fun p hp ↦ hprotect p (hp ▸ List.mem_cons_self)) hspare
    rintro (_ | ⟨_, hmem⟩)
    · exact hprotected.not_delete u hguard
    · exact ih (fun p hp ↦ hprotect p (List.mem_cons_of_mem _ hp)) _ hspares hlegal hnext hmem

/-! ## Pointers that have not been retired -/

/-- The pointer is in no retire list and in no scan's hand. -/
structure Absent (ptr : Ptr) (s : State) : Prop where
  list : ∀ u i, (s.rl u).list i ≠ ptr
  scan : ∀ u i obj rest, s.threads u = .scanning i obj rest → obj ≠ ptr

theorem Absent.update (h : Absent ptr s) {a : Action} (hguard : guard s a)
    (hretire : ∀ u, a ≠ .retire u ptr) : Absent ptr (update s a) := by
  have hlist : ∀ u i, ((HazardPointer.update s a).rl u).list i ≠ ptr := by
    have := h.list
    cases a <;> grind [HazardPointer.update]
  refine ⟨hlist, fun u i obj rest hscan ↦ ?_⟩
  rcases scanning_update hguard hscan with hsame | ⟨-, rfl⟩ | ⟨slot, -, hbefore, -⟩
  · exact h.scan u i obj rest hsame
  · exact hlist u i
  · exact h.scan u i obj _ hbefore

/-- The condition on the scans holds of every pointer but NULL that has not been retired, as long
as no cell past the end of a list happens to hold it. -/
theorem unseen_of_not_retired {initial : State} {before : List Action} (hinit : Fresh initial)
    (hlegal : machine.Legal initial before) (hnull : ptr ≠ 0)
    (hpast : ∀ u i, hpMaxThreadRl ≤ i → (initial.rl u).list i ≠ ptr)
    (hretire : ∀ u, .retire u ptr ∉ before) :
    Unseen t k ptr (machine.final initial before) := by
  have habsent : Absent ptr (machine.final initial before) := by
    refine (Machine.Run.nil hinit).persists (Absent ptr) (fun a ↦ ∃ u, a = .retire u ptr) ?_ hlegal
      ?_ ?_
    · exact fun _ s a _ h hstop hguard ↦ h.update hguard fun u hu ↦ hstop ⟨u, hu⟩
    · rintro a hmem ⟨u, rfl⟩
      exact hretire u hmem
    · refine ⟨fun u i ↦ ?_, fun u i obj rest hscan ↦ ?_⟩
      · by_cases hi : i < hpMaxThreadRl
        · rw [hinit.list u i hi]
          exact hnull.symm
        · exact hpast u i (not_lt.mp hi)
      · rw [hinit.threads] at hscan
        cases hscan
  exact fun u i rest hscan ↦ absurd rfl (habsent.scan u i ptr rest hscan)

/-! ## The clearing of another thread's slot -/

/-- A fresh `hp_t`. -/
def hpNew : State where
  hp _ _ := 0
  rl _ := ⟨0, fun _ ↦ 0⟩
  threads _ := .idle
  aborted := false

theorem fresh_hpNew : Fresh hpNew :=
  ⟨fun _ _ ↦ rfl, fun _ ↦ rfl, fun _ _ _ ↦ rfl, fun _ ↦ rfl, rfl⟩

/-- Thread `2` retires `5` while a slot holds it. -/
def keptCall : List Action := .retire 2 5 :: List.replicate 255 (.load 2)

/-- Then it retires `6`, which no slot holds. -/
def deletedCall : List Action :=
  .retire 2 6 :: .load 2 :: loads 2 slots ++ .delete 2 6 :: List.replicate 252 (.load 2)

/-- Both calls return, and only the protected pointer is left. -/
theorem not_deleted_of_protect_hpNew :
    (machine.final hpNew (.protect 0 0 5 :: (keptCall ++ deletedCall))).threads 2 = .idle ∧
      .delete 2 6 ∈ keptCall ++ deletedCall ∧ .delete 2 5 ∉ keptCall ++ deletedCall := by
  have hlegal : machine.Legal hpNew (.protect 0 0 5 :: (keptCall ++ deletedCall)) := by
    decide +kernel
  have hactions : ∀ a ∈ keptCall ++ deletedCall,
      a = .retire 2 5 ∨ a = .retire 2 6 ∨ a = .load 2 ∨ a = .delete 2 6 := by
    decide +kernel
  have hspares : machine.Meets (SparesSlot 0 0) (update hpNew (.protect 0 0 5))
      (keptCall ++ deletedCall) := by
    apply hlegal.2.meets
    intro s a ha _ u hclear
    rcases hactions a ha with rfl | rfl | rfl | rfl <;> cases hclear
  refine ⟨by decide +kernel, by decide +kernel,
    not_deleted_of_protect (by simp [Unseen, hpNew]) hlegal (fun p hp ↦ ?_) hspares 2⟩
  rcases hactions _ hp with h | h | h | h <;> cases h

/-- Thread `1` clears the slot of thread `0`, and thread `2` retires the pointer. -/
def clearedHistory : List Action :=
  [.callClear 1, .clearStore 1, .retire 2 5] ++ (loads 2 slots ++ [.delete 2 5])

theorem legal_clearedHistory : machine.Legal hpNew ([.protect 0 0 5] ++ clearedHistory) := by
  have hstart : machine.Legal hpNew
      ([.protect 0 0 5] ++ [.callClear 1, .clearStore 1, .retire 2 5]) :=
    ⟨⟨rfl, rfl⟩, ⟨rfl, rfl⟩, ⟨rfl, (0, 0), slots.tail, rfl⟩, ⟨rfl, rfl⟩, trivial⟩
  obtain ⟨s, hs⟩ : ∃ s, s = machine.final hpNew
      ([.protect 0 0 5] ++ [.callClear 1, .clearStore 1, .retire 2 5]) := ⟨_, rfl⟩
  have hcleared : ∀ j k, s.hp j k = 0 := by
    intro j k
    subst hs
    change (((hpNew.setSlot 0 0 5).goto 1 (.clearing slots)).setSlot 0 0 0).hp j k = 0
    simp only [State.setSlot_hp, State.goto_hp]
    split_ifs <;> rfl
  have hscan : s.threads 2 = .scanning 0 5 slots := by
    subst hs
    rfl
  obtain ⟨hloads, hfinal⟩ := scan_unmatched (by subst hs; rfl) hscan fun slot _ ↦ by
    rw [hcleared]
    decide
  rw [clearedHistory, ← List.append_assoc, Machine.legal_append,
    Machine.legal_append _ _ (loads _ _), ← hs, hfinal]
  exact ⟨hstart, hloads, ⟨by subst hs; rfl, 0, by simp [State.goto_threads]⟩, trivial⟩

theorem hazard_pointer_cleared :
    ¬ ∀ (initial : State) before during t k ptr, Fresh initial →
      machine.Legal initial (before ++ .protect t k ptr :: during) →
      (∀ u, .retire u ptr ∉ before) → (∀ p, .protect t k p ∉ during) → .callClear t ∉ during →
      ∀ u, .delete u ptr ∉ during := by
  intro hprotects
  refine hprotects hpNew [] clearedHistory 0 0 5 fresh_hpNew legal_clearedHistory (by simp) ?_ ?_ 2
    ?_
  · simp [clearedHistory, loads]
  · simp [clearedHistory, loads]
  · simp [clearedHistory]

end ParallelPrograms.HazardPointer
