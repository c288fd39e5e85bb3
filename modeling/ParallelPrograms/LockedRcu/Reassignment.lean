import ParallelPrograms.Concurrency.Machine
import Mathlib.Logic.Function.Basic
import Mathlib.Tactic.Simps.Basic

/-!
# Assigning an object again

`rcu_assign_pointer` and `synchronize_rcu` of `locked-rcu/rcupdate.h`, with any allocated object
at each assignment. The search of `rcu_assign_pointer` for an object that is retired already goes
through the list from `head->node`. The published object is not in that list, so assigning it
once more retires it and publishes it again, and the next `synchronize_rcu` frees it.

The list is modelled as the sequence of the objects of its nodes, and `current` as the number of
nodes before it. While an updater has the lock nobody else writes to the list. There are no
readers, and the counts of the nodes are 0.
-/

namespace ParallelPrograms.LockedRcu.Reassignment

open Concurrency

/-- Where an updater is, named after its next access. -/
inductive Pc (Obj : Type*) where
  | idle
  /-- `rcu_assign_pointer(head, newval)`, at `spin_lock`. -/
  | locking (newval : Obj)
  /-- At `while (READ_ONCE(*current))`, with `passed` nodes before `current`. -/
  | walking (newval : Obj) (passed : ℕ)
  /-- At `WRITE_ONCE(*current, head->current)`, after the last node. -/
  | retiring (newval : Obj)
  /-- At `WRITE_ONCE(head->current, node)`. -/
  | publishing (newval : Obj)
  /-- `synchronize_rcu(head)`, at `spin_lock`. -/
  | waiting
  /-- At `want_free = head->node`. -/
  | starting
  /-- At `while (want_free)`, with the objects of the nodes from `want_free` on. -/
  | freeing (wantFree : List Obj)
  /-- At `spin_unlock`. -/
  | unlocking
  deriving DecidableEq, Repr

structure State (Obj Uid : Type*) where
  live : Obj → Bool
  /-- The objects of the nodes from `head->node` on. -/
  node : List Obj
  /-- `head->current->obj` -/
  current : Obj
  /-- The owner of `head->sp`. -/
  sp : Option Uid
  updaters : Uid → Pc Obj

inductive Action (Obj Uid : Type*) where
  /-- A caller allocates an object. -/
  | malloc (obj : Obj)
  | callAssign (u : Uid) (newval : Obj)
  | callSynchronize (u : Uid)
  /-- `spin_lock(&head->sp)` -/
  | acquire (u : Uid)
  /-- The next access of the updater that has the lock. -/
  | run (u : Uid)
  deriving DecidableEq, Repr

variable {Obj Uid : Type*}

/-- The updater is between `spin_lock` and `spin_unlock`. -/
def Pc.Holding : Pc Obj → Prop
  | idle | locking _ | waiting => False
  | _ => True

namespace State

variable (s : State Obj Uid)

@[simps]
def setNode (node : List Obj) : State Obj Uid := { s with node }

@[simps]
def setCurrent (current : Obj) : State Obj Uid := { s with current }

@[simps]
def setSp (sp : Option Uid) : State Obj Uid := { s with sp }

@[simps node current sp updaters]
def setLive [DecidableEq Obj] (obj : Obj) (live : Bool) : State Obj Uid :=
  { s with live := Function.update s.live obj live }

@[simps live node current sp]
def goto [DecidableEq Uid] (u : Uid) (pc : Pc Obj) : State Obj Uid :=
  { s with updaters := Function.update s.updaters u pc }

@[grind =]
theorem goto_updaters [DecidableEq Uid] (u u' : Uid) (pc : Pc Obj) :
    (s.goto u pc).updaters u' = if u' = u then pc else s.updaters u' :=
  Function.update_apply ..

attribute [grind =] setNode_live setNode_node setNode_current setNode_sp setNode_updaters
  setCurrent_live setCurrent_node setCurrent_current setCurrent_sp setCurrent_updaters setSp_live
  setSp_node setSp_current setSp_sp setSp_updaters setLive_node setLive_current setLive_sp
  setLive_updaters goto_live goto_node goto_current goto_sp

end State

/-! ## The interleavings -/

/-- The guards. An object can be assigned unless it has been freed. -/
def guard (s : State Obj Uid) : Action Obj Uid → Prop
  | .malloc obj => s.live obj = false
  | .callAssign u newval => s.updaters u = .idle ∧ s.live newval = true
  | .callSynchronize u => s.updaters u = .idle
  | .acquire u =>
    ((∃ newval, s.updaters u = .locking newval) ∨ s.updaters u = .waiting) ∧ s.sp = none
  | .run u => (s.updaters u).Holding

variable [DecidableEq Obj] [DecidableEq Uid]

/-- The accesses of the updater that has the lock. -/
def run (s : State Obj Uid) (u : Uid) : State Obj Uid :=
  match s.updaters u with
  | .walking newval passed =>
    match s.node[passed]? with
    | some obj =>
      -- we don't want to remove the same object as newval
      if obj = newval then s.goto u .unlocking else s.goto u (.walking newval (passed + 1))
    | none => s.goto u (.retiring newval)
  | .retiring newval => (s.setNode (s.node ++ [s.current])).goto u (.publishing newval)
  | .publishing newval => (s.setCurrent newval).goto u .unlocking
  | .starting => s.goto u (.freeing s.node)
  | .freeing (obj :: rest) => (s.setLive obj false).goto u (.freeing rest)
  | .freeing [] => (s.setNode []).goto u .unlocking
  | .unlocking => (s.setSp none).goto u .idle
  | _ => s

def update (s : State Obj Uid) : Action Obj Uid → State Obj Uid
  | .malloc obj => s.setLive obj true
  | .callAssign u newval => s.goto u (.locking newval)
  | .callSynchronize u => s.goto u .waiting
  | .acquire u =>
    match s.updaters u with
    | .locking newval => (s.setSp (some u)).goto u (.walking newval 0)
    | .waiting => (s.setSp (some u)).goto u .starting
    | _ => s
  | .run u => run s u

/-- What `__rcu_init` sets up from an object. -/
structure Fresh (s : State Obj Uid) : Prop where
  current : s.live s.current = true
  node : s.node = []
  sp : s.sp = none
  updaters : ∀ u, s.updaters u = .idle

def machine (Obj Uid : Type*) [DecidableEq Obj] [DecidableEq Uid] :
    Machine (State Obj Uid) (Action Obj Uid) where
  init := Fresh
  guard := guard
  update := update

@[simp, grind =]
theorem machine_guard (s : State Obj Uid) (a : Action Obj Uid) :
    (machine Obj Uid).guard s a = guard s a := rfl

@[simp, grind =]
theorem machine_update (s : State Obj Uid) (a : Action Obj Uid) :
    (machine Obj Uid).update s a = update s a := rfl

/-! ## The published object -/

/-- The published object is not retired, save between the two stores of an assignment, and no
scan is about to free it. -/
structure KeepsPublished (s : State Obj Uid) : Prop where
  notRetired : (∀ u newval, s.updaters u ≠ .publishing newval) → s.current ∉ s.node
  notFreed : ∀ u obj rest, s.updaters u = .freeing (obj :: rest) → obj ≠ s.current

/-- An assignment that gets the lock assigns another object than the published one. -/
def AssignsAnother (s : State Obj Uid) : Action Obj Uid → Prop
  | .acquire u => s.updaters u ≠ .locking s.current
  | _ => True

/-- What the updater that has the lock knows. -/
def Critical (s : State Obj Uid) : Pc Obj → Prop
  | .idle | .locking _ | .waiting => True
  | .walking newval passed =>
    s.current ∉ s.node ∧ newval ≠ s.current ∧ newval ∉ s.node.take passed
  | .retiring newval => s.current ∉ s.node ∧ newval ≠ s.current ∧ newval ∉ s.node
  | .publishing newval => newval ∉ s.node
  | .starting | .unlocking => s.current ∉ s.node
  | .freeing wantFree => s.current ∉ s.node ∧ wantFree ⊆ s.node

/-- The owner of the lock is the updater between `spin_lock` and `spin_unlock`. -/
def Exclusive (s : State Obj Uid) : Prop := ∀ u, (s.updaters u).Holding ↔ s.sp = some u

/-- The invariant of the runs that never assign the published object. -/
structure Inv (s : State Obj Uid) : Prop where
  exclusive : Exclusive s
  free : s.sp = none → s.current ∉ s.node
  critical : ∀ u, Critical s (s.updaters u)

section Invariant

variable {s m : State Obj Uid} {u : Uid} {pc : Pc Obj}

omit [DecidableEq Obj] [DecidableEq Uid] in
theorem critical_of_not_holding (h : ¬ pc.Holding) : Critical s pc := by
  cases pc with
  | idle | locking | waiting => trivial
  | _ => exact absurd trivial h

omit [DecidableEq Obj] in
/-- An updater moves to `pc`, while it has the lock or nobody has it. -/
theorem Exclusive.move (h : Exclusive s) (hsp : s.sp = none ∨ s.sp = some u)
    (hm : m.updaters = s.updaters)
    (hpc : pc.Holding ∧ m.sp = some u ∨ ¬ pc.Holding ∧ m.sp = none) : Exclusive (m.goto u pc) := by
  intro v
  rw [State.goto_updaters, State.goto_sp, hm]
  have hv := h v
  grind

omit [DecidableEq Obj] in
/-- A call starts, before its `spin_lock`. -/
theorem Exclusive.call (h : Exclusive s) (hu : ¬ (s.updaters u).Holding) (hpc : ¬ pc.Holding) :
    Exclusive (s.goto u pc) := by
  intro v
  rw [State.goto_updaters, State.goto_sp]
  have hv := h v
  grind

theorem Exclusive.run (h : Exclusive s) (hu : (s.updaters u).Holding) : Exclusive (run s u) := by
  have hsp := (h u).mp hu
  cases hpc : s.updaters u with
  | idle | locking | waiting => simp [hpc, Pc.Holding] at hu
  | walking newval passed =>
    simp only [Reassignment.run, hpc]
    split
    · split_ifs <;> exact h.move (.inr hsp) rfl (.inl ⟨trivial, hsp⟩)
    · exact h.move (.inr hsp) rfl (.inl ⟨trivial, hsp⟩)
  | freeing wantFree =>
    cases wantFree <;> simp only [Reassignment.run, hpc] <;>
      exact h.move (.inr hsp) rfl (.inl ⟨trivial, hsp⟩)
  | unlocking =>
    simp only [Reassignment.run, hpc]
    exact h.move (.inr hsp) rfl (.inr ⟨id, rfl⟩)
  | _ =>
    simp only [Reassignment.run, hpc]
    exact h.move (.inr hsp) rfl (.inl ⟨trivial, hsp⟩)

theorem Exclusive.update (h : Exclusive s) {a : Action Obj Uid} (hguard : guard s a) :
    Exclusive (update s a) := by
  cases a with
  | malloc obj => exact h
  | callAssign u newval =>
    have hpc : s.updaters u = .idle := hguard.1
    exact h.call (by rw [hpc]; exact id) id
  | callSynchronize u =>
    have hpc : s.updaters u = .idle := hguard
    exact h.call (by rw [hpc]; exact id) id
  | acquire u =>
    obtain ⟨⟨newval, hpc⟩ | hpc, hsp⟩ := hguard <;> simp only [Reassignment.update, hpc] <;>
      exact h.move (.inl hsp) rfl (.inl ⟨trivial, rfl⟩)
  | run u => exact h.run hguard

omit [DecidableEq Obj] [DecidableEq Uid] in
theorem Fresh.exclusive (h : Fresh s) : Exclusive s := by
  intro u
  rw [h.updaters, h.sp]
  exact ⟨False.elim, nofun⟩

omit [DecidableEq Obj] [DecidableEq Uid] in
theorem Fresh.inv (h : Fresh s) : Inv s where
  exclusive := h.exclusive
  free _ := by
    rw [h.node]
    exact List.not_mem_nil
  critical u := by
    rw [h.updaters]
    trivial

omit [DecidableEq Obj] in
theorem Inv.move (h : Inv s) (hsp : s.sp = none ∨ s.sp = some u) (hm : m.updaters = s.updaters)
    (hpc : pc.Holding ∧ m.sp = some u ∨ ¬ pc.Holding ∧ m.sp = none ∧ m.current ∉ m.node)
    (hcritical : Critical m pc) : Inv (m.goto u pc) where
  exclusive := h.exclusive.move hsp hm (hpc.imp_right fun hpc ↦ ⟨hpc.1, hpc.2.1⟩)
  free hnone := by
    obtain ⟨-, hsome⟩ | ⟨-, -, hfree⟩ := hpc
    · cases hsome.symm.trans hnone
    · exact hfree
  critical v := by
    rw [State.goto_updaters, hm]
    split_ifs with heq
    · exact hcritical
    · apply critical_of_not_holding
      have hv := h.exclusive v
      grind

omit [DecidableEq Obj] in
theorem Inv.call (h : Inv s) (hu : ¬ (s.updaters u).Holding) (hpc : ¬ pc.Holding) :
    Inv (s.goto u pc) where
  exclusive := h.exclusive.call hu hpc
  free := h.free
  critical v := by
    rw [State.goto_updaters]
    split_ifs
    · exact critical_of_not_holding hpc
    · exact h.critical v

/-- One round of the search. -/
theorem Inv.run_walking (h : Inv s) {newval : Obj} {passed : ℕ}
    (hpc : s.updaters u = .walking newval passed) : Inv (run s u) := by
  have hsp := (h.exclusive u).mp (by rw [hpc]; trivial)
  obtain ⟨hcurrent, hne, hpassed⟩ : Critical s (.walking newval passed) := hpc ▸ h.critical u
  cases hentry : s.node[passed]? with
  | none =>
    have hall : s.node.take passed = s.node :=
      List.take_of_length_le (List.getElem?_eq_none_iff.mp hentry)
    rw [hall] at hpassed
    simp only [run, hpc, hentry]
    exact h.move (.inr hsp) rfl (.inl ⟨trivial, hsp⟩) ⟨hcurrent, hne, hpassed⟩
  | some obj =>
    simp only [run, hpc, hentry]
    split_ifs with heq
    · exact h.move (.inr hsp) rfl (.inl ⟨trivial, hsp⟩) hcurrent
    · have hmore : newval ∉ s.node.take (passed + 1) := by
        rw [List.take_add_one, hentry]
        grind
      exact h.move (.inr hsp) rfl (.inl ⟨trivial, hsp⟩) ⟨hcurrent, hne, hmore⟩

theorem Inv.run (h : Inv s) (hu : (s.updaters u).Holding) : Inv (run s u) := by
  have hsp := (h.exclusive u).mp hu
  have hcritical := h.critical u
  cases hpc : s.updaters u with
  | idle | locking | waiting => simp [hpc, Pc.Holding] at hu
  | walking newval passed => exact h.run_walking hpc
  | retiring newval =>
    obtain ⟨hcurrent, hne, hnew⟩ : Critical s (.retiring newval) := hpc ▸ hcritical
    have hmore : newval ∉ s.node ++ [s.current] := by
      simp [hne, hnew]
    simp only [Reassignment.run, hpc]
    exact h.move (.inr hsp) rfl (.inl ⟨trivial, hsp⟩) hmore
  | publishing newval =>
    rw [hpc] at hcritical
    simp only [Reassignment.run, hpc]
    exact h.move (.inr hsp) rfl (.inl ⟨trivial, hsp⟩) hcritical
  | starting =>
    rw [hpc] at hcritical
    simp only [Reassignment.run, hpc]
    exact h.move (.inr hsp) rfl (.inl ⟨trivial, hsp⟩) ⟨hcritical, List.Subset.refl _⟩
  | freeing wantFree =>
    obtain ⟨hcurrent, hsub⟩ : Critical s (.freeing wantFree) := hpc ▸ hcritical
    cases wantFree with
    | nil =>
      simp only [Reassignment.run, hpc]
      exact h.move (.inr hsp) rfl (.inl ⟨trivial, hsp⟩) List.not_mem_nil
    | cons obj rest =>
      simp only [Reassignment.run, hpc]
      exact h.move (.inr hsp) rfl (.inl ⟨trivial, hsp⟩)
        ⟨hcurrent, fun _ hobj ↦ hsub (List.mem_cons_of_mem obj hobj)⟩
  | unlocking =>
    rw [hpc] at hcritical
    simp only [Reassignment.run, hpc]
    exact h.move (.inr hsp) rfl (.inr ⟨id, rfl, hcritical⟩) trivial

theorem Inv.update (h : Inv s) {a : Action Obj Uid} (hguard : guard s a)
    (hanother : AssignsAnother s a) : Inv (update s a) := by
  cases a with
  | malloc obj => exact ⟨h.exclusive, h.free, fun u ↦ h.critical u⟩
  | callAssign u newval =>
    have hpc : s.updaters u = .idle := hguard.1
    exact h.call (by rw [hpc]; exact id) id
  | callSynchronize u =>
    have hpc : s.updaters u = .idle := hguard
    exact h.call (by rw [hpc]; exact id) id
  | acquire u =>
    obtain ⟨⟨newval, hpc⟩ | hpc, hsp⟩ := hguard
    · have hne : newval ≠ s.current := by
        rintro rfl
        exact hanother hpc
      simp only [Reassignment.update, hpc]
      exact h.move (.inl hsp) rfl (.inl ⟨trivial, rfl⟩) ⟨h.free hsp, hne, List.not_mem_nil⟩
    · simp only [Reassignment.update, hpc]
      exact h.move (.inl hsp) rfl (.inl ⟨trivial, rfl⟩) (h.free hsp)
  | run u => exact h.run hguard

omit [DecidableEq Obj] [DecidableEq Uid] in
/-- Only the store to `*current` puts the published node on the list. -/
theorem Critical.not_mem (h : Critical s pc) (hpc : pc.Holding)
    (hne : ∀ newval, pc ≠ .publishing newval) : s.current ∉ s.node := by
  cases pc with
  | idle | locking | waiting => cases hpc
  | publishing newval => exact absurd rfl (hne newval)
  | walking | retiring | freeing => exact h.1
  | starting | unlocking => exact h

omit [DecidableEq Obj] [DecidableEq Uid] in
theorem Inv.keepsPublished (h : Inv s) : KeepsPublished s where
  notRetired hnone := by
    cases hsp : s.sp with
    | none => exact h.free hsp
    | some u => exact (h.critical u).not_mem ((h.exclusive u).mpr hsp) (hnone u)
  notFreed u obj rest hpc := by
    obtain ⟨hcurrent, hsub⟩ : Critical s (.freeing (obj :: rest)) := hpc ▸ h.critical u
    rintro rfl
    exact hcurrent (hsub List.mem_cons_self)

/-- An assignment of the published object, which is not retired yet, up to its last store. -/
def Doomed (s : State Obj Uid) : Pc Obj → Prop
  | .walking newval _ => newval = s.current ∧ s.current ∉ s.node
  | .retiring newval => newval = s.current
  | .publishing newval => newval ∈ s.node
  | _ => False

omit [DecidableEq Obj] [DecidableEq Uid] in
theorem Doomed.holding (h : Doomed s pc) : pc.Holding := by
  cases pc with
  | walking | retiring | publishing => trivial
  | _ => exact h.elim

/-- Its last store publishes a retired object. -/
theorem Doomed.publishes (h : Exclusive s) {newval : Obj} (hpc : s.updaters u = .publishing newval)
    (hretired : newval ∈ s.node) : ¬ KeepsPublished (run s u) := by
  have hsp := (h u).mp (by rw [hpc]; trivial)
  simp only [run, hpc]
  intro hkeeps
  apply hkeeps.notRetired _ hretired
  intro v newval' hv
  rw [State.goto_updaters] at hv
  split_ifs at hv with heq
  have hv' := (h v).mp (by rw [show s.updaters v = _ from hv]; trivial)
  exact heq (Option.some.inj (hv'.symm.trans hsp))

theorem Doomed.run (h : Exclusive s) (hdoomed : Doomed s (s.updaters u)) :
    Doomed (run s u) ((run s u).updaters u) ∨ ¬ KeepsPublished (run s u) := by
  cases hpc : s.updaters u with
  | walking newval passed =>
    obtain ⟨rfl, hcurrent⟩ : Doomed s (.walking newval passed) := hpc ▸ hdoomed
    left
    cases hentry : s.node[passed]? with
    | none => grind [Doomed, Reassignment.run]
    | some obj =>
      have hne : obj ≠ s.current := by
        rintro rfl
        exact hcurrent (List.mem_of_getElem? hentry)
      grind [Doomed, Reassignment.run]
  | retiring newval =>
    left
    grind [Doomed, Reassignment.run]
  | publishing newval =>
    rw [hpc] at hdoomed
    exact .inr (publishes h hpc hdoomed)
  | _ =>
    rw [hpc] at hdoomed
    cases hdoomed

theorem Doomed.update (h : Exclusive s) (hdoomed : Doomed s (s.updaters u)) {a : Action Obj Uid}
    (hguard : guard s a) :
    Doomed (update s a) ((update s a).updaters u) ∨ ¬ KeepsPublished (update s a) := by
  have hsp := (h u).mp hdoomed.holding
  have hcall (v : Uid) (pc : Pc Obj) (hv : ¬ (s.updaters v).Holding) :
      Doomed (s.goto v pc) ((s.goto v pc).updaters u) := by
    have hne : u ≠ v := by
      rintro rfl
      exact hv hdoomed.holding
    rwa [State.goto_updaters, if_neg hne]
  cases a with
  | malloc obj => exact .inl hdoomed
  | callAssign v newval =>
    have hpc : s.updaters v = .idle := hguard.1
    exact .inl (hcall v _ (by rw [hpc]; exact id))
  | callSynchronize v =>
    have hpc : s.updaters v = .idle := hguard
    exact .inl (hcall v _ (by rw [hpc]; exact id))
  | acquire v => cases hsp.symm.trans hguard.2
  | run v =>
    have heq : v = u := Option.some.inj (((h v).mp hguard).symm.trans hsp)
    subst heq
    exact hdoomed.run h

end Invariant

section Runs

variable {start : State Obj Uid} {history : List (Action Obj Uid)}

theorem exclusive_of_legal (hstart : Fresh start) (hlegal : (machine Obj Uid).Legal start history) :
    Exclusive ((machine Obj Uid).final start history) := by
  apply Machine.legal_induction (fun _ s ↦ Exclusive s) hstart.exclusive _ hlegal
  exact fun _ a _ ih hguard ↦ ih.update hguard

theorem inv_of_meets (hstart : Fresh start) (hlegal : (machine Obj Uid).Legal start history)
    (hanother : (machine Obj Uid).Meets AssignsAnother start history) :
    Inv ((machine Obj Uid).final start history) := by
  apply Machine.meets_induction (fun _ s ↦ Inv s) hstart.inv _ hlegal hanother
  exact fun _ a _ ih hguard hother ↦ ih.update hguard hother

/-- An assignment of the published object shows once it is complete. -/
theorem meets_of_keepsPublished (hstart : Fresh start)
    (hlegal : (machine Obj Uid).Legal start history)
    (hidle : ∀ u, ((machine Obj Uid).final start history).updaters u = .idle)
    (hkeeps : ∀ before, before <+: history →
      KeepsPublished ((machine Obj Uid).final start before)) :
    (machine Obj Uid).Meets AssignsAnother start history := by
  by_contra hnot
  obtain ⟨before, a, rest, rfl, hmeets, hbad⟩ := Machine.exists_of_not_meets _ hnot
  obtain ⟨hbefore, hguard, -⟩ := (Machine.legal_append ..).mp hlegal
  have hinv := inv_of_meets hstart hbefore hmeets
  set s := (machine Obj Uid).final start before
  obtain ⟨u, rfl, hpc⟩ : ∃ u, a = .acquire u ∧ s.updaters u = .locking s.current := by
    cases a with
    | acquire u => exact ⟨u, rfl, not_not.mp hbad⟩
    | _ => exact absurd trivial hbad
  have hdoomed : Doomed (update s (.acquire u)) ((update s (.acquire u)).updaters u) := by
    have hfree := hinv.free hguard.2
    simp only [update, hpc, State.goto_updaters, if_true]
    exact ⟨rfl, hfree⟩
  rw [List.append_cons] at hlegal hkeeps hidle
  have hend : (∀ first, first <+: (before ++ [.acquire u]) ++ rest →
      KeepsPublished ((machine Obj Uid).final start first)) →
      Doomed ((machine Obj Uid).final start ((before ++ [.acquire u]) ++ rest))
        (((machine Obj Uid).final start ((before ++ [.acquire u]) ++ rest)).updaters u) := by
    apply Machine.legal_persists (fun history s ↦ (∀ first, first <+: history →
      KeepsPublished ((machine Obj Uid).final start first)) → Doomed s (s.updaters u)) _ _ hlegal
    · intro _
      rw [Machine.final_append]
      exact hdoomed
    · intro history a hhistory ih hguard hall
      have hlast := hall _ List.prefix_rfl
      rw [Machine.final_append] at hlast
      have hbefore := ih fun first hfirst ↦ hall first (hfirst.trans (List.prefix_append ..))
      exact (hbefore.update (exclusive_of_legal hstart hhistory) hguard).resolve_right
        (not_not.mpr hlast)
  have hholding := (hend hkeeps).holding
  rw [hidle] at hholding
  exact hholding

/-- **The published object is never retired** in a run in which no assignment that gets the lock
assigns it again. When all calls of a run have returned, the converse holds too. -/
theorem keepsPublished_iff (hstart : Fresh start)
    (hlegal : (machine Obj Uid).Legal start history) :
    ((machine Obj Uid).Meets AssignsAnother start history → ∀ before, before <+: history →
      KeepsPublished ((machine Obj Uid).final start before)) ∧
    ((∀ u, ((machine Obj Uid).final start history).updaters u = .idle) →
      (∀ before, before <+: history → KeepsPublished ((machine Obj Uid).final start before)) →
        (machine Obj Uid).Meets AssignsAnother start history) := by
  refine ⟨fun hanother before hbefore ↦ ?_, meets_of_keepsPublished hstart hlegal⟩
  have hinv := inv_of_meets hstart (hlegal.of_prefix hbefore) (hanother.of_prefix hbefore)
  exact hinv.keepsPublished

end Runs

/-- `__rcu_init` with the object 1. -/
def created : State ℕ Unit where
  live := fun obj ↦ obj == 1
  node := []
  current := 1
  sp := none
  updaters := fun _ ↦ .idle

theorem created_fresh : Fresh created := ⟨rfl, rfl, rfl, fun _ ↦ rfl⟩

/-- The object 2 is assigned, then the retired object 1, and a scan frees the object 1. -/
def retiredAgain : List (Action ℕ Unit) :=
  [.malloc 2, .callAssign () 2, .acquire (), .run (), .run (), .run (), .run (),
    .callAssign () 1, .acquire (), .run (), .run (),
    .callSynchronize (), .acquire (), .run (), .run (), .run (), .run ()]

theorem keepsPublished_retiredAgain :
    KeepsPublished ((machine ℕ Unit).final created retiredAgain) := by
  have hlegal : (machine ℕ Unit).Legal created retiredAgain :=
    ⟨rfl, ⟨rfl, rfl⟩, ⟨.inl ⟨2, rfl⟩, rfl⟩, trivial, trivial, trivial, trivial,
      ⟨rfl, rfl⟩, ⟨.inl ⟨1, rfl⟩, rfl⟩, trivial, trivial,
      rfl, ⟨.inr rfl, rfl⟩, trivial, trivial, trivial, trivial, trivial⟩
  have hanother : (machine ℕ Unit).Meets AssignsAnother created retiredAgain :=
    ⟨trivial, trivial, nofun, trivial, trivial, trivial, trivial, trivial, nofun, trivial, trivial,
      trivial, nofun, trivial, trivial, trivial, trivial, trivial⟩
  exact (keepsPublished_iff created_fresh hlegal).1 hanother retiredAgain List.prefix_rfl

/-- The published object is assigned once more. The next scan is about to free it. -/
def publishedAgain : List (Action ℕ Unit) :=
  [.callAssign () 1, .acquire (), .run (), .run (), .run (), .run (),
    .callSynchronize (), .acquire (), .run ()]

theorem published_freed :
    ¬ ∀ history (s : State ℕ Unit), (machine ℕ Unit).Run history s → KeepsPublished s := by
  intro h
  have hlegal : (machine ℕ Unit).Legal created publishedAgain :=
    ⟨⟨rfl, rfl⟩, ⟨.inl ⟨1, rfl⟩, rfl⟩, trivial, trivial, trivial, trivial, rfl,
      ⟨.inr rfl, rfl⟩, trivial, trivial⟩
  have hkeeps := h publishedAgain _ ⟨created, created_fresh, hlegal, rfl⟩
  exact hkeeps.notFreed () 1 [] rfl rfl

end ParallelPrograms.LockedRcu.Reassignment
