import ParallelPrograms.ClassicRcu.Calls

/-!
# What the callbacks get

`list_lock` keeps the collections, the removals and the drains of the list apart, and each of them
leaves in a slot only what the last assignment has stored there. So the callbacks get stored
pointers in every run whose list begins with `NULL` in all slots. `lrcu_data_init` does not write to
the list, and a worker passes whatever the memory from `kmalloc` held to the callback.
-/

namespace ParallelPrograms.ClassicRcu.Calls

open Concurrency

variable {Tid Ptr Obj : Type*}

/-! ## The log -/

section Log

variable {log : List (Event Obj)} {e : Event Obj} {i : Slot} {p : Obj}

theorem Awaiting.stored (log : List (Event Obj)) (i : Slot) (p : Obj) :
    Awaiting (log ++ [.stored i p]) i p :=
  ⟨log, [], rfl, nofun⟩

theorem Awaiting.append (h : Awaiting log i p) (he : e.slot ≠ i) : Awaiting (log ++ [e]) i p := by
  obtain ⟨before, after, rfl, hafter⟩ := h
  refine ⟨before, after ++ [e], by simp, ?_⟩
  intro e' he'
  rcases List.mem_append.mp he' with hmem | hmem
  · exact hafter e' hmem
  · rwa [List.mem_singleton.mp hmem]

theorem CallbacksCollected.append (h : CallbacksCollected log)
    (he : ∀ i p, e = .passed i p → Awaiting log i p) : CallbacksCollected (log ++ [e]) := by
  intro before i p after hlog
  cases after using List.reverseRecOn with
  | nil =>
    obtain ⟨rfl, hlast⟩ := List.append_inj' hlog rfl
    exact he i p (List.singleton_inj.mp hlast)
  | append_singleton after e' =>
    rw [← List.cons_append, ← List.append_assoc] at hlog
    obtain ⟨rfl, -⟩ := List.append_inj' hlog rfl
    exact h before i p after rfl

end Log

/-! ## The invariant -/

/-- `list_lock` is owned by whoever is between `spin_lock` and `spin_unlock`. -/
def Locked (s : State Tid Ptr Obj) : Prop := ∀ t, (s.threads t).Holding ↔ s.listLock = some t

/-- A pointer in the list waits for its callback, or its callback has just been called. -/
structure Inv (log : List (Event Obj)) (s : State Tid Ptr Obj) : Prop where
  locked : Locked s
  listed : ∀ i p, s.list i = some p →
    Awaiting log i p ∨ ∃ t slots, s.threads t = .clearing i slots
  collected : CallbacksCollected log

section Steps

variable [DecidableEq Tid] [DecidableEq Ptr] {s : State Tid Ptr Obj} {a : Action Tid Ptr Obj}
  {log : List (Event Obj)} {t : Tid} {i : Slot} {slots : List Slot} {p : Obj}

theorem Locked.update (h : Locked s) (hguard : guard s a) : Locked (update s a) := by
  intro t
  have := h t
  cases a <;> grind [guard, Calls.update, Pc.Holding, Locked]

omit [DecidableEq Tid] [DecidableEq Ptr] in
theorem Locked.unique (h : Locked s) {t u : Tid} (ht : (s.threads t).Holding)
    (hu : (s.threads u).Holding) : t = u :=
  Option.some.inj (((h t).mp ht).symm.trans ((h u).mp hu))

omit [DecidableEq Tid] [DecidableEq Ptr] in
theorem lrcuCollectOldPointer_eq (list : Slot → Option Obj) (oldp : Option Obj) :
    lrcuCollectOldPointer list oldp =
      (freeSlot list).elim (list, none) fun i ↦ (Function.update list i oldp, oldp) := by
  unfold lrcuCollectOldPointer freeSlot
  cases (List.finRange nrLrcuProtected).find? fun i ↦ (list i).isNone <;> rfl

/-- What a step does to a slot: nothing, or it becomes NULL, or a pointer is stored there, or its
pointer is passed to the callback. -/
theorem slot_update (hguard : guard s a) (j : Slot) :
    ((update s a).list j = s.list j ∧ ∀ e, event? s a = some e → e.slot ≠ j) ∨
    (update s a).list j = none ∨
    (∃ p, (update s a).list j = some p ∧ event? s a = some (.stored j p)) ∨
    ∃ t slots, (update s a).threads t = .clearing j slots := by
  cases a with
  | collect t =>
    obtain ⟨⟨ptr, newp, oldp, ht⟩, -⟩ := hguard
    cases hslot : freeSlot s.list with
    | none =>
      left
      cases oldp <;> simp [update, event?, ht, lrcuCollectOldPointer_eq, hslot]
    | some i =>
      by_cases hij : j = i
      · subst hij
        cases oldp <;> simp [update, event?, ht, lrcuCollectOldPointer_eq, hslot]
      · left
        cases oldp <;>
          simp [update, event?, ht, lrcuCollectOldPointer_eq, hslot, hij, Ne.symm hij, Event.slot]
  | empty t =>
    obtain ⟨i, slots, ht⟩ := hguard
    by_cases hij : j = i
    · right
      left
      simp [update, ht, hij]
    · left
      cases hlist : s.list i <;> simp [update, event?, ht, hlist, hij, Ne.symm hij, Event.slot]
  | clear t =>
    obtain ⟨i, slots, ht⟩ := hguard
    by_cases hij : j = i <;> simp [update, event?, ht, hij]
  | drain t =>
    obtain ⟨i, slots, ht⟩ := hguard
    cases hlist : s.list i with
    | none =>
      left
      simp [update, event?, ht, hlist]
    | some p =>
      by_cases hij : j = i
      · right
        right
        right
        exact ⟨t, slots, by simp [update, ht, hlist, hij, State.goto_threads]⟩
      · left
        simp [update, event?, ht, hlist, Ne.symm hij, Event.slot]
  | _ =>
    left
    refine ⟨?_, nofun⟩
    grind [update, guard]

omit [DecidableEq Tid] [DecidableEq Ptr] in
theorem exists_draining (h : event? s a = some (.passed i p)) :
    ∃ t slots, s.threads t = .draining (i :: slots) ∧ s.list i = some p := by
  cases a <;> grind [event?, Option.map_eq_some_iff]

theorem clear_list (ht : s.threads t = .clearing i slots) :
    (update s (.clear t)).list i = none := by
  simp [update, ht]

/-- A thread that is about to clear a slot goes on to clear it. -/
theorem clearing_update (hguard : guard s a) (ht : s.threads t = .clearing i slots)
    (ha : a ≠ .clear t) : (update s a).threads t = .clearing i slots := by
  cases a <;> grind [guard, update]

theorem Inv.update (h : Inv log s) (hguard : guard s a) :
    Inv (log ++ (event? s a).toList) (Calls.update s a) := by
  refine ⟨h.locked.update hguard, ?_, ?_⟩
  · intro j q hq
    rcases slot_update hguard j with ⟨hsame, hother⟩ | hnull | ⟨p, hp, he⟩ | hclearing
    · rw [hsame] at hq
      rcases h.listed j q hq with hawaiting | ⟨t, slots, ht⟩
      · left
        cases he : event? s a with
        | none => simpa using hawaiting
        | some e => exact hawaiting.append (hother e he)
      · right
        refine ⟨t, slots, clearing_update hguard ht ?_⟩
        rintro rfl
        rw [clear_list ht] at hsame
        rw [← hsame] at hq
        cases hq
    · rw [hnull] at hq
      cases hq
    · left
      obtain rfl : p = q := Option.some.inj (hp.symm.trans hq)
      rw [he]
      exact .stored log j p
    · exact .inr hclearing
  · cases he : event? s a with
    | none => simpa using h.collected
    | some e =>
      apply h.collected.append
      rintro i p rfl
      obtain ⟨t, slots, ht, hp⟩ := exists_draining he
      -- two threads in the list at the same time
      refine (h.listed i p hp).resolve_right ?_
      rintro ⟨u, slots', hu⟩
      obtain rfl : t = u := h.locked.unique (by rw [ht]; trivial) (by rw [hu]; trivial)
      rw [ht] at hu
      cases hu

end Steps

/-! ## Runs -/

section Runs

variable [DecidableEq Tid] [DecidableEq Ptr] {memory : Slot → Option Obj}
  {pointers : Ptr → Option Obj} {history : List (Action Tid Ptr Obj)} {s : State Tid Ptr Obj}

theorem events_concat (start : State Tid Ptr Obj) (history : List (Action Tid Ptr Obj))
    (a : Action Tid Ptr Obj) : events start (history ++ [a]) =
      events start history ++ (event? ((machine Tid Ptr Obj).final start history) a).toList :=
  Machine.observe_concat ..

theorem events_cons (s : State Tid Ptr Obj) (a : Action Tid Ptr Obj)
    (history : List (Action Tid Ptr Obj)) :
    events s (a :: history) = (event? s a).toList ++ events (update s a) history := by
  rw [events, Machine.observe, Machine.observe_eq_append, List.nil_append]
  rfl

theorem events_append (s : State Tid Ptr Obj) (before after : List (Action Tid Ptr Obj)) :
    events s (before ++ after) =
      events s before ++ events ((machine Tid Ptr Obj).final s before) after := by
  induction before generalizing s with
  | nil => rfl
  | cons a before ih =>
    rw [List.cons_append, events_cons, events_cons, ih, List.append_assoc]
    rfl

/-- A list that begins with NULL in all slots. -/
theorem run_inv (hnull : ∀ i, memory i = none)
    (hlegal : (machine Tid Ptr Obj).Legal (lrcuDataInit Tid memory pointers) history) :
    Inv (events (lrcuDataInit Tid memory pointers) history)
      ((machine Tid Ptr Obj).final (lrcuDataInit Tid memory pointers) history) := by
  apply Machine.legal_induction
    (fun history s ↦ Inv (events (lrcuDataInit Tid memory pointers) history) s) _ _ hlegal
  · refine ⟨fun t ↦ iff_of_false id nofun, ?_, ?_⟩
    · intro i p hp
      change memory i = some p at hp
      rw [hnull] at hp
      cases hp
    · intro before i p after hnil
      simp [events] at hnil
  · intro history a _ ih hguard
    rw [events_concat]
    exact ih.update hguard

/-- A worker that has come to the list passes the first pointer that it finds to the callback. -/
theorem exists_passed {t : Tid} {slots : List Slot} (ht : s.threads t = .draining slots)
    (hfound : ∃ i ∈ slots, s.list i ≠ none) :
    ∃ more i p, (machine Tid Ptr Obj).Legal s more ∧ events s more = [.passed i p] := by
  induction slots generalizing s with
  | nil =>
    obtain ⟨i, hi, -⟩ := hfound
    cases hi
  | cons i slots ih =>
    have hguard : guard s (.drain t) := ⟨i, slots, ht⟩
    cases hlist : s.list i with
    | some p =>
      refine ⟨[.drain t], i, p, ⟨hguard, trivial⟩, ?_⟩
      simp [events, Machine.observe, event?, ht, hlist]
    | none =>
      have hupdate : update s (.drain t) = s.goto t (.draining slots) := by
        simp [update, ht, hlist]
      have hrest : ∃ j ∈ slots, (s.goto t (.draining slots)).list j ≠ none := by
        obtain ⟨j, hj, hne⟩ := hfound
        rcases List.mem_cons.mp hj with rfl | hj
        · exact absurd hlist hne
        · exact ⟨j, hj, hne⟩
      have hthread : (s.goto t (.draining slots)).threads t = .draining slots := by
        rw [State.goto_threads, if_pos rfl]
      obtain ⟨more, j, p, hlegal, hevents⟩ := ih hthread hrest
      refine ⟨.drain t :: more, j, p, ⟨hguard, ?_⟩, ?_⟩
      · rw [machine_update, hupdate]
        exact hlegal
      · have hnone : event? s (.drain t) = none := by
          simp [event?, ht, hlist]
        rw [events_cons, hnone, hupdate, hevents, Option.toList_none, List.nil_append]

/-- **The callbacks get collected pointers** in every run exactly when the memory from `kmalloc`
holds NULL in all slots of the list. -/
theorem callbacks_collected_iff (memory : Slot → Option Obj) (pointers : Ptr → Option Obj) :
    (∀ history, (machine Tid Ptr Obj).Legal (lrcuDataInit Tid memory pointers) history →
      CallbacksCollected (events (lrcuDataInit Tid memory pointers) history)) ↔
      IsEmpty Tid ∨ ∀ i, memory i = none := by
  constructor
  · intro hcollected
    by_contra hnot
    obtain ⟨hthreads, hmemory⟩ := not_or.mp hnot
    obtain ⟨t⟩ := not_isEmpty_iff.mp hthreads
    obtain ⟨i, hi⟩ := not_forall.mp hmemory
    let start : State Tid Ptr Obj := lrcuDataInit Tid memory pointers
    have hworker : (machine Tid Ptr Obj).Legal start [.work t, .workerLock t] := by
      simp [start, lrcuDataInit, guard, update, State.goto_threads]
    have ht : ((machine Tid Ptr Obj).final start [.work t, .workerLock t]).threads t =
        .draining (List.finRange nrLrcuProtected) := by
      simp [update, State.goto_threads]
    obtain ⟨more, j, p, hlegal, hevents⟩ := exists_passed ht ⟨i, List.mem_finRange i, hi⟩
    have hlog : events start ([.work t, .workerLock t] ++ more) = [.passed j p] := hevents
    obtain ⟨before, after, hnil, -⟩ :=
      hcollected _ ((Machine.legal_append ..).mpr ⟨hworker, hlegal⟩) [] j p [] hlog
    simp at hnil
  · rintro (hthreads | hnull) history hlegal
    · cases history with
      | nil =>
        intro before i p after hnil
        simp [events] at hnil
      | cons a history =>
        cases a <;> exact hthreads.elim ‹Tid›
    · exact (run_inv hnull hlegal).collected

end Runs

/-- Memory in which the first slot holds something. -/
def usedMemory : Slot → Option ℕ := Function.update (fun _ ↦ none) 0 (some 7)

/-- The first thing that happens is a callback. -/
theorem callback_of_memory :
    ¬ ∀ (memory : Slot → Option ℕ) (pointers : Unit → Option ℕ) history,
      (machine Unit Unit ℕ).Legal (lrcuDataInit Unit memory pointers) history →
        CallbacksCollected (events (lrcuDataInit Unit memory pointers) history) := by
  intro hcollected
  have hlegal : (machine Unit Unit ℕ).Legal (lrcuDataInit Unit usedMemory fun _ ↦ none)
      [.work (), .workerLock (), .drain ()] :=
    ⟨rfl, ⟨rfl, rfl⟩, ⟨0, _, rfl⟩, trivial⟩
  obtain ⟨before, after, hnil, -⟩ := hcollected _ _ _ hlegal [] 0 7 [] rfl
  simp at hnil

end ParallelPrograms.ClassicRcu.Calls
