import ParallelPrograms.ClassicRcu.GracePeriod
import Mathlib.Data.List.Pairwise

/-!
# Who frees the collected objects

An updater that calls `synchronize_lrcu` frees its old object itself, and the emptying of the list
frees nothing. A worker of `call_lrcu` frees what it finds on the list. An object is on the list
only while its updater has still to free it, so whatever the worker finds there is freed again.
Without such a find every object is freed by the one updater that got it, when the assignments do
not overlap.
-/

namespace ParallelPrograms.ClassicRcu

open Concurrency

variable {Cpu Rid Uid Wid Obj : Type*}

/-- The freed objects, oldest first. -/
def freed (history : List (Action Cpu Rid Uid Wid Obj)) : List Obj :=
  history.filterMap Action.freed?

/-- An assignment begins only when no other one is in progress. -/
def Serial (s : State Cpu Rid Uid Wid Obj) (a : Action Cpu Rid Uid Wid Obj) : Prop :=
  ∀ u, a = .load u → ∀ v, ¬ (s.updaters v).Assigning

/-- A worker that tests a slot finds NULL in it. -/
def FindsNull (s : State Cpu Rid Uid Wid Obj) (a : Action Cpu Rid Uid Wid Obj) : Prop :=
  ∀ w, (a = .skip w ∨ ∃ p, a = .callback w p) →
    ∀ i slots, s.workers w = .draining (i :: slots) → s.list i = none

/-! ## Assignments that do not overlap -/

/-- At most one assignment is in progress, and it has read the current object. -/
structure Alone (s : State Cpu Rid Uid Wid Obj) : Prop where
  one : ∀ u v, (s.updaters u).Assigning → (s.updaters v).Assigning → u = v
  argument : ∀ u oldp, (s.updaters u).argument? = some oldp → s.gp = oldp

theorem UpdaterPc.assigning_of_argument? {pc : UpdaterPc Cpu Obj} {oldp : Option Obj}
    (h : pc.argument? = some oldp) : pc.Assigning := by
  cases pc <;> simp_all [argument?, Assigning]

section Serial

variable [DecidableEq Rid] [DecidableEq Uid] [DecidableEq Wid] {online : List Cpu}
  {start s : State Cpu Rid Uid Wid Obj} {history : List (Action Cpu Rid Uid Wid Obj)}
  {a : Action Cpu Rid Uid Wid Obj} {u : Uid}

theorem assigning_update (hguard : guard online s a)
    (h : ((update online s a).updaters u).Assigning) :
    (s.updaters u).Assigning ∨ a = .load u := by
  cases a <;> grind [guard, update, UpdaterPc.Assigning]

theorem Alone.step (h : Alone s) (hguard : guard online s a) (hserial : Serial s a) :
    Alone (update online s a) := by
  constructor
  · intro u v hu hv
    obtain hbefore | rfl := assigning_update hguard hu
    · obtain hbefore' | rfl := assigning_update hguard hv
      · exact h.one u v hbefore hbefore'
      · exact absurd hbefore (hserial v rfl u)
    · obtain hbefore | heq := assigning_update hguard hv
      · exact absurd hbefore (hserial u rfl v)
      · cases heq
        rfl
  · intro u oldp hargument
    rw [gp_update hguard]
    obtain hbefore | ⟨rfl, rfl⟩ := argument?_update hguard hargument
    · cases hpublished : a.published? with
      | none => exact h.argument u oldp hbefore
      | some newp =>
        obtain ⟨v, rev, -, hpc⟩ := exists_of_published? hguard hpublished
        obtain rfl := h.one u v (UpdaterPc.assigning_of_argument? hbefore)
          (by rw [hpc]; trivial)
        rw [hpc] at hbefore
        cases hbefore
    · rfl

/-- Assignments that do not overlap collect what is in `gp`. -/
theorem run_current (hstart : Fresh start)
    (hlegal : (machine Rid Uid Wid Obj online).Legal start history)
    (hmeets : (machine Rid Uid Wid Obj online).Meets Serial start history) :
    (machine Rid Uid Wid Obj online).Meets Current start history := by
  have hboth := Machine.meets_induction
    (fun history s ↦ (machine Rid Uid Wid Obj online).Meets Current start history ∧ Alone s)
    ⟨trivial, ?_⟩ ?_ hlegal hmeets
  · exact hboth.1
  · constructor <;> simp [hstart.updaters, UpdaterPc.Assigning, UpdaterPc.argument?]
  · intro history a _ ih hguard hserial
    obtain ⟨hcurrent, halone⟩ := ih
    refine ⟨(Machine.meets_append ..).mpr ⟨hcurrent, ?_, trivial⟩, halone.step hguard hserial⟩
    intro u oldp ha
    subst ha
    obtain ⟨newp, hpc⟩ := hguard.1
    exact halone.argument u oldp (by rw [hpc, UpdaterPc.argument?])

end Serial

/-! ## The owner of an old object -/

/-- The slots that the updater still empties before it frees its old object. -/
def UpdaterPc.slots : UpdaterPc Cpu Obj → List Slot
  | emptying _ slots => slots
  | freeing _ => []
  | idle | owning _ | collecting .. | publishing .. | unlocking _ | returned _ | visiting .. =>
    List.finRange nrLrcuProtected

/-- Every collected object has one owner until it is freed. -/
structure Owned (history : List (Action Cpu Rid Uid Wid Obj)) (s : State Cpu Rid Uid Wid Obj) :
    Prop where
  nodup : (freed history).Nodup
  taken : ∀ p ∈ freed history, p ∈ collected history
  owner : ∀ u p, (s.updaters u).oldp? = some p → p ∈ collected history ∧ p ∉ freed history
  distinct : ∀ u v p, (s.updaters u).oldp? = some p → (s.updaters v).oldp? = some p → u = v

/-- What is on the list is not yet freed by its owner, and so is what a callback got. -/
structure Doomed (history : List (Action Cpu Rid Uid Wid Obj)) (s : State Cpu Rid Uid Wid Obj) :
    Prop where
  listed : ∀ i p, s.list i = some p →
    ∃ u, (s.updaters u).oldp? = some p ∧ i ∈ (s.updaters u).slots
  called : ∀ w p, .callback w p ∈ history →
    (∃ u, .kfree u p ∈ history) ∨ ∃ u, (s.updaters u).oldp? = some p

section Owners

variable [DecidableEq Rid] [DecidableEq Uid] [DecidableEq Wid] {online : List Cpu}
  {start s : State Cpu Rid Uid Wid Obj} {history : List (Action Cpu Rid Uid Wid Obj)}
  {a : Action Cpu Rid Uid Wid Obj} {u : Uid} {p : Obj} {i : Slot}

omit [DecidableEq Rid] [DecidableEq Uid] [DecidableEq Wid] in
@[simp]
theorem freed_concat : freed (history ++ [a]) = freed history ++ a.freed?.toList := by
  simp [freed, List.filterMap_append, List.filterMap_cons]
  cases a.freed? <;> rfl

omit [DecidableEq Rid] [DecidableEq Uid] [DecidableEq Wid] in
/-- Without callbacks, what is freed is freed by its owner. -/
theorem exists_of_freed? (hguard : guard online s a) (hnull : FindsNull s a)
    (h : a.freed? = some p) : ∃ u, a = .kfree u p ∧ (s.updaters u).oldp? = some p := by
  cases a with
  | kfree u oldp =>
    obtain rfl : oldp = p := Option.some.inj h
    exact ⟨u, rfl, by rw [hguard, UpdaterPc.oldp?]⟩
  | callback w oldp =>
    obtain ⟨i, slots, hpc, hslot⟩ := hguard
    rw [hnull w (.inr ⟨oldp, rfl⟩) i slots hpc] at hslot
    cases hslot
  | _ => cases h

/-- What is collected is collected for the first time. -/
theorem not_mem_collected (hstart : Fresh start)
    (hlegal : (machine Rid Uid Wid Obj online).Legal start history)
    (hmeets : (machine Rid Uid Wid Obj online).Meets Current start history)
    (hguard : guard online ((machine Rid Uid Wid Obj online).final start history) a)
    (hcurrent : Current ((machine Rid Uid Wid Obj online).final start history) a)
    (h : a.collected? = some p) : p ∉ collected history := by
  obtain ⟨u, rfl, -, hlock⟩ := exists_of_collected? hguard h
  have hnodup := (run_booked hstart hlegal).nodup
  rw [run_published hstart hlegal hmeets, State.current, hlock, hcurrent u (some p) rfl] at hnodup
  intro hp
  exact List.disjoint_of_nodup_append hnodup hp List.mem_cons_self

theorem Owned.step (h : Owned history s) (hguard : guard online s a) (hnull : FindsNull s a)
    (hfresh : ∀ p, a.collected? = some p → p ∉ collected history) :
    Owned (history ++ [a]) (update online s a) := by
  have hfreed := fun p ↦ exists_of_freed? (p := p) hguard hnull
  constructor
  · rw [freed_concat, List.nodup_append]
    refine ⟨h.nodup, by cases a.freed? <;> simp, ?_⟩
    intro p hp q hq heq
    obtain ⟨u, -, hold⟩ := hfreed q (Option.mem_toList.mp hq)
    exact (h.owner u q hold).2 (heq ▸ hp)
  · intro p hp
    rw [freed_concat, List.mem_append] at hp
    rw [collected_concat, List.mem_append]
    obtain hp | hp := hp
    · exact .inl (h.taken p hp)
    · obtain ⟨u, -, hold⟩ := hfreed p (Option.mem_toList.mp hp)
      exact .inl (h.owner u p hold).1
  · intro u p hold
    rw [collected_concat, List.mem_append, freed_concat, List.mem_append]
    obtain rfl | ⟨hbefore, ha⟩ := oldp?_update hguard hold
    · refine ⟨.inr List.mem_cons_self, ?_⟩
      intro hor
      obtain hp | hp := hor
      · exact hfresh p rfl (h.taken p hp)
      · cases hp
    · refine ⟨.inl (h.owner u p hbefore).1, ?_⟩
      intro hor
      obtain hp | hp := hor
      · exact (h.owner u p hbefore).2 hp
      · obtain ⟨v, rfl, hv⟩ := hfreed p (Option.mem_toList.mp hp)
        exact ha (by rw [h.distinct u v p hbefore hv])
  · intro u v p hu hv
    obtain rfl | ⟨hbefore, -⟩ := oldp?_update hguard hu
    · obtain heq | ⟨hbefore, -⟩ := oldp?_update hguard hv
      · cases heq
        rfl
      · exact absurd (h.owner v p hbefore).1 (hfresh p rfl)
    · obtain rfl | ⟨hbefore', -⟩ := oldp?_update hguard hv
      · exact absurd (h.owner u p hbefore).1 (hfresh p rfl)
      · exact h.distinct u v p hbefore hbefore'

/-- An owner keeps its object and the slot of the object until the slot is emptied. -/
theorem listed_update (hguard : guard online s a) (hdefer : a ≠ .defer u)
    (hslot : (update online s a).list i = some p) (hold : (s.updaters u).oldp? = some p)
    (hi : i ∈ (s.updaters u).slots) : ((update online s a).updaters u).oldp? = some p ∧
      i ∈ ((update online s a).updaters u).slots := by
  cases a <;> grind [guard, update, UpdaterPc.oldp?, UpdaterPc.slots]

/-- A slot is filled by a collection only. -/
theorem list_update (hguard : guard online s a) (hslot : (update online s a).list i = some p) :
    s.list i = some p ∨ ∃ u, a = .collect u (some p) := by
  cases a with
  | collect u oldp =>
    obtain ⟨newp, j, -, -, hupdate⟩ := update_collect hguard
    rw [hupdate] at hslot
    grind
  | overflow u =>
    obtain ⟨newp, oldp, -, hupdate⟩ := update_overflow hguard
    rw [hupdate] at hslot
    exact .inl hslot
  | _ => grind [guard, update]

/-- An owner frees its object before it gives it up. -/
theorem oldp?_kept (hguard : guard online s a) (hdefer : a ≠ .defer u)
    (hold : (s.updaters u).oldp? = some p) :
    a = .kfree u p ∨ ((update online s a).updaters u).oldp? = some p := by
  cases a <;> grind [guard, update, UpdaterPc.oldp?]

theorem Doomed.step (h : Doomed history s) (hguard : guard online s a)
    (hdefer : ∀ u, a ≠ .defer u) : Doomed (history ++ [a]) (update online s a) := by
  constructor
  · intro i p hslot
    obtain hbefore | ⟨u, rfl⟩ := list_update hguard hslot
    · obtain ⟨u, hold, hi⟩ := h.listed i p hbefore
      exact ⟨u, listed_update hguard (hdefer u) hslot hold hi⟩
    · obtain ⟨newp, j, -, -, hupdate⟩ := update_collect hguard
      refine ⟨u, ?_⟩
      rw [hupdate, State.goto_updaters, if_pos rfl]
      exact ⟨rfl, List.mem_finRange i⟩
  · intro w p hcalled
    have howner : ∀ u, (s.updaters u).oldp? = some p →
        (∃ u, .kfree u p ∈ history ++ [a]) ∨
          ∃ u, ((update online s a).updaters u).oldp? = some p := by
      intro u hold
      obtain rfl | hkept := oldp?_kept hguard (hdefer u) hold
      · exact .inl ⟨u, List.mem_append_right _ List.mem_cons_self⟩
      · exact .inr ⟨u, hkept⟩
    obtain hbefore | hnow := List.mem_append.mp hcalled
    · obtain ⟨u, hfreed⟩ | ⟨u, hold⟩ := h.called w p hbefore
      · exact .inl ⟨u, List.mem_append_left _ hfreed⟩
      · exact howner u hold
    · obtain rfl := List.mem_singleton.mp hnow
      obtain ⟨i, slots, -, hslot⟩ := hguard
      obtain ⟨u, hold, -⟩ := h.listed i p hslot
      exact howner u hold

end Owners

/-! ## Runs -/

section Runs

variable [DecidableEq Rid] [DecidableEq Uid] [DecidableEq Wid] {online : List Cpu}
  {start : State Cpu Rid Uid Wid Obj} {history : List (Action Cpu Rid Uid Wid Obj)}

theorem run_owned (hstart : Fresh start)
    (hlegal : (machine Rid Uid Wid Obj online).Legal start history)
    (hcurrent : (machine Rid Uid Wid Obj online).Meets Current start history)
    (hnull : (machine Rid Uid Wid Obj online).Meets FindsNull start history) :
    Owned history ((machine Rid Uid Wid Obj online).final start history) := by
  revert hcurrent
  apply Machine.meets_induction (fun history s ↦
    (machine Rid Uid Wid Obj online).Meets Current start history → Owned history s) _ _ hlegal hnull
  · intro _
    constructor <;> simp [freed, hstart.updaters, UpdaterPc.oldp?]
  · intro history a hhistory ih hguard hnull hcurrent
    obtain ⟨hbefore, hnow, -⟩ := (Machine.meets_append ..).mp hcurrent
    exact (ih hbefore).step hguard hnull
      fun p ↦ not_mem_collected hstart hhistory hbefore hguard hnow

theorem run_doomed (hempty : ∀ i, start.list i = none)
    (hlegal : (machine Rid Uid Wid Obj online).Legal start history)
    (hdefer : ∀ u, .defer u ∉ history) :
    Doomed history ((machine Rid Uid Wid Obj online).final start history) := by
  revert hdefer
  apply Machine.legal_induction
    (fun history s ↦ (∀ u, .defer u ∉ history) → Doomed history s) _ _ hlegal
  · intro _
    constructor <;> simp [hempty]
  · intro history a _ ih hguard hdefer
    apply (ih fun u hu ↦ hdefer u (List.mem_append_left _ hu)).step hguard
    rintro u rfl
    exact hdefer u (List.mem_append_right _ List.mem_cons_self)

omit [DecidableEq Rid] [DecidableEq Uid] [DecidableEq Wid] in
/-- An object that a callback and an updater have freed is freed twice. -/
theorem not_nodup_freed {w : Wid} {u : Uid} {p : Obj} (hcallback : .callback w p ∈ history)
    (hkfree : .kfree u p ∈ history) : ¬ (freed history).Nodup := by
  intro hnodup
  have hpairwise : history.Pairwise fun a b ↦ ∀ p, a.freed? = some p → ∀ q, b.freed? = some q →
      p ≠ q := List.pairwise_filterMap.mp hnodup
  have : Std.Symm fun a b : Action Cpu Rid Uid Wid Obj ↦
      ∀ p, a.freed? = some p → ∀ q, b.freed? = some q → p ≠ q :=
    ⟨fun a b h p hp q hq heq ↦ h q hq p hp heq.symm⟩
  exact hpairwise.forall hcallback hkfree nofun p rfl p rfl rfl

omit [DecidableEq Rid] [DecidableEq Uid] [DecidableEq Wid] in
theorem exists_callback {s : State Cpu Rid Uid Wid Obj} {a : Action Cpu Rid Uid Wid Obj}
    (hguard : guard online s a) (hfinds : ¬ FindsNull s a) : ∃ w p, a = .callback w p := by
  by_contra hnot
  apply hfinds
  intro w ha i slots hpc
  obtain rfl | ⟨p, rfl⟩ := ha
  · obtain ⟨j, rest, hpc', hslot⟩ := hguard
    obtain ⟨rfl, -⟩ : i = j ∧ slots = rest := by simpa using hpc.symm.trans hpc'
    exact hslot
  · exact absurd ⟨w, p, rfl⟩ hnot

/-- A worker that finds an object frees it a second time. -/
theorem findsNull_of_nodup (hempty : ∀ i, start.list i = none)
    (hlegal : (machine Rid Uid Wid Obj online).Legal start history)
    (hdefer : ∀ u, .defer u ∉ history)
    (hdone : ∀ u, ((machine Rid Uid Wid Obj online).final start history).updaters u = .idle)
    (hnodup : (freed history).Nodup) :
    (machine Rid Uid Wid Obj online).Meets FindsNull start history := by
  by_contra hnot
  obtain ⟨before, a, after, rfl, -, hfinds⟩ := Machine.exists_of_not_meets _ hnot
  obtain ⟨-, hguard, -⟩ := (Machine.legal_append ..).mp hlegal
  obtain ⟨w, p, rfl⟩ := exists_callback hguard hfinds
  have hmem : .callback w p ∈ before ++ .callback w p :: after :=
    List.mem_append_right _ List.mem_cons_self
  obtain ⟨u, hkfree⟩ | ⟨u, hold⟩ := (run_doomed hempty hlegal hdefer).called w p hmem
  · exact not_nodup_freed hmem hkfree hnodup
  · rw [hdone] at hold
    cases hold

/-- With assignments that do not overlap, nothing is freed twice when the workers find the list
empty. When the updaters have finished, the converse holds too. -/
theorem freed_nodup_iff (hstart : Fresh start) (hempty : ∀ i, start.list i = none)
    (hlegal : (machine Rid Uid Wid Obj online).Legal start history)
    (hserial : (machine Rid Uid Wid Obj online).Meets Serial start history)
    (hdefer : ∀ u, .defer u ∉ history) :
    ((machine Rid Uid Wid Obj online).Meets FindsNull start history → (freed history).Nodup) ∧
    ((∀ u, ((machine Rid Uid Wid Obj online).final start history).updaters u = .idle) →
      (freed history).Nodup → (machine Rid Uid Wid Obj online).Meets FindsNull start history) :=
  ⟨fun hnull ↦ (run_owned hstart hlegal (run_current hstart hlegal hserial) hnull).nodup,
    findsNull_of_nodup hempty hlegal hdefer⟩

omit [DecidableEq Uid] in
/-- The assignments of one updater do not overlap. -/
theorem meets_serial_of_one {start : State Cpu Rid Unit Wid Obj}
    {history : List (Action Cpu Rid Unit Wid Obj)}
    (hlegal : (machine Rid Unit Wid Obj online).Legal start history) :
    (machine Rid Unit Wid Obj online).Meets Serial start history := by
  apply hlegal.meets
  intro s a _ hguard u ha v
  subst ha
  obtain ⟨newp, hpc⟩ := hguard
  rw [hpc]
  exact id

end Runs

/-- The worker finds an empty list, and then the updater frees its old object. -/
def ownHistory : List (Action Unit Unit Unit Unit ℕ) :=
  ([.call (), .workerRunOn () (), .workerLock ()] : List (Action Unit Unit Unit Unit ℕ)) ++
    List.replicate 10 (Action.skip ()) ++
    ([.exit (), .kmalloc () 1, .load (), .collect () (some 0), .store () 1, .unlock () (some 0),
      .synchronize (), .runOn () (), .lockList ()] : List (Action Unit Unit Unit Unit ℕ)) ++
    List.replicate 10 (Action.empty ()) ++
    ([.unlockList (), .kfree () 0] : List (Action Unit Unit Unit Unit ℕ))

theorem freed_nodup_own : (freed ownHistory).Nodup := by
  have hlegal : (machine Unit Unit Unit ℕ [()]).Legal (initial Unit Unit Unit Unit 0)
      ownHistory :=
    ⟨rfl, ⟨⟨[], rfl⟩, nofun⟩, ⟨rfl, rfl⟩, ⟨_, _, rfl, rfl⟩, ⟨_, _, rfl, rfl⟩, ⟨_, _, rfl, rfl⟩,
      ⟨_, _, rfl, rfl⟩, ⟨_, _, rfl, rfl⟩, ⟨_, _, rfl, rfl⟩, ⟨_, _, rfl, rfl⟩, ⟨_, _, rfl, rfl⟩,
      ⟨_, _, rfl, rfl⟩, ⟨_, _, rfl, rfl⟩, rfl, ⟨rfl, by decide⟩, ⟨1, rfl⟩,
      ⟨⟨1, rfl⟩, rfl, 0, rfl⟩, ⟨0, rfl⟩, rfl, ⟨0, rfl⟩, ⟨⟨0, [], rfl⟩, nofun⟩, ⟨⟨0, rfl⟩, rfl⟩,
      ⟨0, _, _, rfl⟩, ⟨0, _, _, rfl⟩, ⟨0, _, _, rfl⟩, ⟨0, _, _, rfl⟩, ⟨0, _, _, rfl⟩,
      ⟨0, _, _, rfl⟩, ⟨0, _, _, rfl⟩, ⟨0, _, _, rfl⟩, ⟨0, _, _, rfl⟩, ⟨0, _, _, rfl⟩, ⟨0, rfl⟩,
      rfl, trivial⟩
  have hnull : (machine Unit Unit Unit ℕ [()]).Meets FindsNull (initial Unit Unit Unit Unit 0)
      ownHistory := by
    apply hlegal.meets
    intro s a ha hguard
    by_contra hfinds
    obtain ⟨w, p, rfl⟩ := exists_callback hguard hfinds
    simp [ownHistory] at ha
  exact (freed_nodup_iff (initial_fresh 0) (fun _ ↦ rfl) hlegal (meets_serial_of_one hlegal)
    (by decide)).1 hnull

/-- The worker finds the old object before the updater empties the list. -/
def foundHistory : List (Action Unit Unit Unit Unit ℕ) :=
  ([.kmalloc () 1, .load (), .collect () (some 0), .store () 1, .unlock () (some 0), .call (),
    .workerRunOn () (), .workerLock (), .callback () 0, .clear ()] :
      List (Action Unit Unit Unit Unit ℕ)) ++
    List.replicate 9 (Action.skip ()) ++
    ([.exit (), .synchronize (), .runOn () (), .lockList ()] :
      List (Action Unit Unit Unit Unit ℕ)) ++
    List.replicate 10 (Action.empty ()) ++
    ([.unlockList (), .kfree () 0] : List (Action Unit Unit Unit Unit ℕ))

theorem freed_twice :
    ¬ ∀ history, (machine Unit Unit Unit ℕ [()]).Legal (initial Unit Unit Unit Unit 0) history →
      (machine Unit Unit Unit ℕ [()]).Meets Serial (initial Unit Unit Unit Unit 0) history →
      (∀ u, .defer u ∉ history) → (freed history).Nodup := by
  intro hfreed
  have hlegal : (machine Unit Unit Unit ℕ [()]).Legal (initial Unit Unit Unit Unit 0)
      foundHistory :=
    ⟨⟨rfl, by decide⟩, ⟨1, rfl⟩, ⟨⟨1, rfl⟩, rfl, 0, rfl⟩, ⟨0, rfl⟩, rfl, rfl, ⟨⟨[], rfl⟩, nofun⟩,
      ⟨rfl, rfl⟩, ⟨0, _, rfl, rfl⟩, ⟨0, _, rfl⟩, ⟨_, _, rfl, rfl⟩, ⟨_, _, rfl, rfl⟩,
      ⟨_, _, rfl, rfl⟩, ⟨_, _, rfl, rfl⟩, ⟨_, _, rfl, rfl⟩, ⟨_, _, rfl, rfl⟩, ⟨_, _, rfl, rfl⟩,
      ⟨_, _, rfl, rfl⟩, ⟨_, _, rfl, rfl⟩, rfl, ⟨0, rfl⟩, ⟨⟨0, [], rfl⟩, nofun⟩, ⟨⟨0, rfl⟩, rfl⟩,
      ⟨0, _, _, rfl⟩, ⟨0, _, _, rfl⟩, ⟨0, _, _, rfl⟩, ⟨0, _, _, rfl⟩, ⟨0, _, _, rfl⟩,
      ⟨0, _, _, rfl⟩, ⟨0, _, _, rfl⟩, ⟨0, _, _, rfl⟩, ⟨0, _, _, rfl⟩, ⟨0, _, _, rfl⟩, ⟨0, rfl⟩,
      rfl, trivial⟩
  have hnodup := hfreed foundHistory hlegal (meets_serial_of_one hlegal) (by decide)
  exact absurd hnodup (by decide)

end ParallelPrograms.ClassicRcu
