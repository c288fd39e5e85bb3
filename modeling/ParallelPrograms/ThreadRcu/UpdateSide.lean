import ParallelPrograms.ThreadRcu.Model
import Mathlib.Data.List.Nodup

/-!
# The update side of thread-based RCU

`update_rcu` of `update_side.c`, which is also `updater_side` of `main.c`: allocate an object,
publish it in `foo` with `rcu_assign_pointer`, call `synchronize_rcu` and free the object that the
exchange has returned. The steps of `synchronize_rcu`, and those of the readers, are the actions
of `ThreadRcu.machine`.

An object is one allocation. When `malloc` returns the address of a freed object again, this is
another object.
-/

namespace ParallelPrograms.ThreadRcu.UpdateSide

open Concurrency

/-- Where an updater is in `update_rcu`. -/
inductive Stage (Obj : Type*) where
  | idle
  /-- Has allocated `newval`, at `rcu_assign_pointer(foo, newval)`. -/
  | owning (newval : Obj)
  /-- At the call of `synchronize_rcu`. -/
  | exchanged (oldp : Obj)
  /-- In `synchronize_rcu`. -/
  | synchronizing (oldp : Obj)
  /-- At `free(oldp)`. -/
  | freeing (oldp : Obj)
  deriving DecidableEq, Repr

structure State (Rid Uid Obj : Type*) where
  rcu : ThreadRcu.State Rid Uid
  foo : Obj
  stages : Uid → Stage Obj
  /-- What `malloc` has returned so far. -/
  allocated : List Obj
  /-- The arguments of `free` so far. -/
  freed : List Obj

inductive Action (Rid Uid Obj : Type*) where
  /-- A step of a reader, or of an updater in `synchronize_rcu`. -/
  | rcu (a : ThreadRcu.Action Rid Uid)
  /-- `newval = malloc(sizeof(struct test))` -/
  | malloc (u : Uid) (newval : Obj)
  /-- `oldp = rcu_assign_pointer(foo, newval)`, an atomic exchange. -/
  | assignPointer (u : Uid)
  /-- `free(oldp)` -/
  | free (u : Uid) (oldp : Obj)
  deriving DecidableEq, Repr

variable {Rid Uid Obj : Type*}

def Action.rcu? : Action Rid Uid Obj → Option (ThreadRcu.Action Rid Uid)
  | rcu a => some a
  | malloc .. | assignPointer _ | free .. => none

/-- The object that the updater has taken out of `foo` and not yet freed. -/
def Stage.oldp? : Stage Obj → Option Obj
  | exchanged oldp | synchronizing oldp | freeing oldp => some oldp
  | idle | owning _ => none

namespace State

variable (s : State Rid Uid Obj)

@[simps foo stages allocated freed]
def setRcu (rcu : ThreadRcu.State Rid Uid) : State Rid Uid Obj := { s with rcu }

@[simps]
def setFoo (foo : Obj) : State Rid Uid Obj := { s with foo }

@[simps]
def allocate (obj : Obj) : State Rid Uid Obj := { s with allocated := s.allocated ++ [obj] }

@[simps]
def release (obj : Obj) : State Rid Uid Obj := { s with freed := s.freed ++ [obj] }

@[simps rcu foo allocated freed]
def goto [DecidableEq Uid] (u : Uid) (stage : Stage Obj) : State Rid Uid Obj :=
  { s with stages := Function.update s.stages u stage }

@[grind =]
theorem goto_stages [DecidableEq Uid] (u u' : Uid) (stage : Stage Obj) :
    (s.goto u stage).stages u' = if u' = u then stage else s.stages u' :=
  Function.update_apply ..

attribute [grind =] setRcu_foo setRcu_stages setRcu_allocated setRcu_freed setFoo_rcu setFoo_foo
  setFoo_stages setFoo_allocated setFoo_freed allocate_rcu allocate_foo allocate_stages
  allocate_allocated allocate_freed release_rcu release_foo release_stages release_allocated
  release_freed goto_rcu goto_foo goto_allocated goto_freed

/-- The call of `synchronize_rcu` and its return move the updater on. -/
def advance [DecidableEq Uid] : ThreadRcu.Action Rid Uid → State Rid Uid Obj
  | .call u =>
    match s.stages u with
    | .exchanged oldp => s.goto u (.synchronizing oldp)
    | _ => s
  | .release u =>
    match s.stages u with
    | .synchronizing oldp => s.goto u (.freeing oldp)
    | _ => s
  | _ => s

end State

variable [DecidableEq Rid] [DecidableEq Uid]

def guard (nodes : List Rid) (s : State Rid Uid Obj) : Action Rid Uid Obj → Prop
  | .rcu (.call u) =>
    (∃ oldp, s.stages u = .exchanged oldp) ∧ ThreadRcu.guard nodes s.rcu (.call u)
  | .rcu a => ThreadRcu.guard nodes s.rcu a
  | .malloc u newval => s.stages u = .idle ∧ newval ∉ s.allocated
  | .assignPointer u => ∃ newval, s.stages u = .owning newval
  | .free u oldp => s.stages u = .freeing oldp

def update (nodes : List Rid) (s : State Rid Uid Obj) : Action Rid Uid Obj → State Rid Uid Obj
  | .rcu a => (s.setRcu (ThreadRcu.update nodes s.rcu a)).advance a
  | .malloc u newval => (s.allocate newval).goto u (.owning newval)
  | .assignPointer u =>
    match s.stages u with
    | .owning newval => (s.setFoo newval).goto u (.exchanged s.foo)
    | _ => s
  | .free u oldp => (s.release oldp).goto u .idle

/-- The start of the updaters, with an object in `foo`. -/
structure Fresh (s : State Rid Uid Obj) : Prop where
  rcu : s.rcu = ThreadRcu.initial Rid Uid
  stages : ∀ u, s.stages u = .idle
  allocated : s.allocated = [s.foo]
  freed : s.freed = []

def machine (Rid Uid Obj : Type*) [DecidableEq Rid] [DecidableEq Uid] (nodes : List Rid) :
    Machine (State Rid Uid Obj) (Action Rid Uid Obj) where
  init := Fresh
  guard := guard nodes
  update := update nodes

@[simp, grind =]
theorem machine_guard (nodes : List Rid) (s : State Rid Uid Obj) (a : Action Rid Uid Obj) :
    (machine Rid Uid Obj nodes).guard s a = guard nodes s a := rfl

@[simp, grind =]
theorem machine_update (nodes : List Rid) (s : State Rid Uid Obj) (a : Action Rid Uid Obj) :
    (machine Rid Uid Obj nodes).update s a = update nodes s a := rfl

/-! ## The places of an object -/

inductive Place (Uid : Type*) where
  /-- The updater has allocated the object and not yet published it. -/
  | owned (u : Uid)
  /-- The object is in `foo`. -/
  | published
  /-- The updater holds the object as `oldp`. -/
  | held (u : Uid)
  | freed
  deriving DecidableEq, Repr

def State.At (s : State Rid Uid Obj) (obj : Obj) : Place Uid → Prop
  | .owned u => s.stages u = .owning obj
  | .published => s.foo = obj
  | .held u => (s.stages u).oldp? = some obj
  | .freed => obj ∈ s.freed

/-- `own` says where every allocated object is, and no object has been freed twice. -/
structure Partition (s : State Rid Uid Obj) (own : Obj → Option (Place Uid)) : Prop where
  at_iff : ∀ obj place, s.At obj place ↔ own obj = some place
  allocated : ∀ obj, obj ∈ s.allocated ↔ own obj ≠ none
  once : s.freed.Nodup

section Steps

variable {nodes : List Rid} {s : State Rid Uid Obj} {u : Uid} {obj newval oldp : Obj}
  {place : Place Uid}

omit [DecidableEq Rid] [DecidableEq Uid] in
/-- A place other than `freed` has room for one object. -/
theorem State.At.eq_of_ne_freed {obj' : Obj} (h : s.At obj place) (h' : s.At obj' place)
    (hfreed : place ≠ .freed) : obj = obj' := by
  cases place <;> grind [State.At]

omit [DecidableEq Rid] in
/-- In `synchronize_rcu` the updater holds on to the object. -/
theorem at_advance (a : ThreadRcu.Action Rid Uid) :
    (s.advance a).At obj place ↔ s.At obj place := by
  cases a <;> cases place <;> grind [State.advance, State.At, Stage.oldp?]

omit [DecidableEq Rid] in
theorem advance_frame (a : ThreadRcu.Action Rid Uid) : (s.advance a).rcu = s.rcu ∧
    (s.advance a).allocated = s.allocated ∧ (s.advance a).freed = s.freed := by
  cases a <;> grind [State.advance]

omit [DecidableEq Rid] in
theorem at_malloc (hu : s.stages u = .idle) :
    ((s.allocate newval).goto u (.owning newval)).At obj place ↔
      s.At obj place ∨ obj = newval ∧ place = .owned u := by
  cases place <;> grind [State.At, Stage.oldp?]

omit [DecidableEq Rid] in
/-- The exchange publishes the new object and hands the old one to the updater. -/
theorem at_assignPointer (hu : s.stages u = .owning newval) :
    ((s.setFoo newval).goto u (.exchanged s.foo)).At obj place ↔
      s.At obj place ∧ place ≠ .owned u ∧ place ≠ .published ∨
        obj = newval ∧ place = .published ∨ obj = s.foo ∧ place = .held u := by
  cases place <;> grind [State.At, Stage.oldp?]

omit [DecidableEq Rid] in
theorem at_free (hu : s.stages u = .freeing oldp) :
    ((s.release oldp).goto u .idle).At obj place ↔
      s.At obj place ∧ place ≠ .held u ∨ obj = oldp ∧ place = .freed := by
  cases place <;> grind [State.At, Stage.oldp?]

/-- **Every step moves the objects it works on to another place**, and leaves the others where they
are. -/
theorem Partition.update {own : Obj → Option (Place Uid)} (h : Partition s own)
    {a : Action Rid Uid Obj} (hguard : guard nodes s a) :
    ∃ own', Partition (update nodes s a) own' := by
  classical
  obtain ⟨hat, hallocated, honce⟩ := h
  cases a with
  | rcu a =>
    obtain ⟨-, hsame, hsame'⟩ := advance_frame (s := s.setRcu (ThreadRcu.update nodes s.rcu a)) a
    refine ⟨own, fun obj place ↦ ?_, fun obj ↦ ?_, ?_⟩
    · rw [← hat]
      exact at_advance a
    · rw [← hallocated, UpdateSide.update, hsame]
      rfl
    · rw [UpdateSide.update, hsame']
      exact honce
  | malloc u newval =>
    obtain ⟨hu, hnew⟩ := hguard
    refine ⟨Function.update own newval (some (.owned u)), fun obj place ↦ ?_, fun obj ↦ ?_, honce⟩
    · rw [UpdateSide.update, at_malloc hu, hat]
      grind [Function.update_apply]
    · grind [UpdateSide.update, Function.update_apply]
  | assignPointer u =>
    obtain ⟨newval, hu⟩ := hguard
    have howned : own newval = some (.owned u) := (hat ..).mp hu
    have hfoo : own s.foo = some .published := (hat ..).mp rfl
    have hsame : ∀ obj, own obj = some (.owned u) → obj = newval := fun obj h ↦
      ((hat ..).mpr h).eq_of_ne_freed ((hat ..).mpr howned) nofun
    have hsame' : ∀ obj, own obj = some .published → obj = s.foo := fun obj h ↦
      ((hat ..).mpr h).eq_of_ne_freed ((hat ..).mpr hfoo) nofun
    simp only [UpdateSide.update, hu]
    refine ⟨Function.update (Function.update own s.foo (some (.held u))) newval (some .published),
      fun obj place ↦ ?_, fun obj ↦ ?_, honce⟩
    · rw [at_assignPointer hu, hat]
      grind [Function.update_apply]
    · grind [Function.update_apply]
  | free u oldp =>
    have hu : s.stages u = .freeing oldp := hguard
    have hheld : own oldp = some (.held u) := by
      rw [← hat, State.At, hu]
      rfl
    have hsame : ∀ obj, own obj = some (.held u) → obj = oldp := fun obj h ↦
      ((hat ..).mpr h).eq_of_ne_freed ((hat ..).mpr hheld) nofun
    have hfreed : oldp ∉ s.freed := fun hmem ↦ by
      have hfreed : own oldp = some .freed := (hat ..).mp hmem
      simp [hheld] at hfreed
    refine ⟨Function.update own oldp (some .freed), fun obj place ↦ ?_, fun obj ↦ ?_, ?_⟩
    · rw [UpdateSide.update, at_free hu, hat]
      grind [Function.update_apply]
    · grind [UpdateSide.update, Function.update_apply]
    · exact List.nodup_append.mpr ⟨honce, List.nodup_singleton oldp, by grind⟩

end Steps

theorem run_partition {nodes : List Rid} {history : List (Action Rid Uid Obj)}
    {s : State Rid Uid Obj} (hrun : (machine Rid Uid Obj nodes).Run history s) :
    ∃ own, Partition s own := by
  classical
  apply hrun.invariant (fun s ↦ ∃ own, Partition s own)
  · intro start hfresh
    have hstages := hfresh.stages
    refine ⟨fun obj ↦ if obj = start.foo then some .published else none, fun obj place ↦ ?_,
      fun obj ↦ ?_, ?_⟩
    · have := hfresh.freed
      cases place <;> grind [State.At, Stage.oldp?]
    · simp [hfresh.allocated]
    · rw [hfresh.freed]
      exact List.nodup_nil
  · intro s a ⟨own, hown⟩ hguard
    exact hown.update hguard

/-- The calls of `synchronize_rcu` are those of `ThreadRcu.machine`. -/
theorem run_rcu {nodes : List Rid} {history : List (Action Rid Uid Obj)} {s : State Rid Uid Obj}
    (hrun : (machine Rid Uid Obj nodes).Run history s) :
    (ThreadRcu.machine Rid Uid nodes).Run (history.filterMap Action.rcu?) s.rcu := by
  apply hrun.induction fun history s ↦
    (ThreadRcu.machine Rid Uid nodes).Run (history.filterMap Action.rcu?) s.rcu
  · intro start hfresh
    exact .nil hfresh.rcu
  · intro history s a _ ih hguard
    rw [List.filterMap_append]
    cases a with
    | rcu a =>
      have hrcu : (update nodes s (.rcu a)).rcu = ThreadRcu.update nodes s.rcu a :=
        (advance_frame a).1
      have hguard' : ThreadRcu.guard nodes s.rcu a := by cases a <;> grind [guard]
      rw [machine_update, hrcu]
      exact ih.snoc a hguard'
    | malloc u newval => simpa [update, Action.rcu?, List.filterMap_cons] using ih
    | assignPointer u =>
      obtain ⟨newval, hu⟩ := hguard
      simpa [update, hu, Action.rcu?, List.filterMap_cons] using ih
    | free u oldp => simpa [update, Action.rcu?, List.filterMap_cons] using ih

/-- **Every object is freed exactly once.** In every interleaving of any number of updaters each
object that `malloc` has returned is owned by an updater, published, held by one updater as
`oldp`, or freed, and `foo` is never freed. When all updaters are done, every object but `foo` has
been freed exactly once. -/
theorem updaters_free_once [DecidableEq Obj] (nodes : List Rid)
    {history : List (Action Rid Uid Obj)} {s : State Rid Uid Obj}
    (hrun : (machine Rid Uid Obj nodes).Run history s) :
    (∀ obj ∈ s.allocated, ∃! place, s.At obj place) ∧ s.freed.Nodup ∧ s.foo ∉ s.freed ∧
      ((∀ u, s.stages u = .idle) → ∀ obj ∈ s.allocated, obj ≠ s.foo → s.freed.count obj = 1) := by
  obtain ⟨own, hat, hallocated, honce⟩ := run_partition hrun
  have hplace : ∀ obj ∈ s.allocated, ∃ place, s.At obj place := fun obj hobj ↦ by
    obtain ⟨place, hplace⟩ := Option.ne_none_iff_exists'.mp ((hallocated obj).mp hobj)
    exact ⟨place, (hat ..).mpr hplace⟩
  have hunique : ∀ obj place place', s.At obj place → s.At obj place' → place = place' :=
    fun obj place place' h h' ↦
      Option.some.inj (((hat ..).mp h).symm.trans ((hat ..).mp h'))
  refine ⟨fun obj hobj ↦ ?_, honce, fun hfoo ↦ ?_, fun hidle obj hobj hne ↦ ?_⟩
  · obtain ⟨place, hplace⟩ := hplace obj hobj
    exact ⟨place, hplace, fun place' h ↦ hunique obj place' place h hplace⟩
  · exact nomatch hunique s.foo .published .freed rfl hfoo
  · obtain ⟨place, hplace⟩ := hplace obj hobj
    apply List.count_eq_one_of_mem honce
    cases place with
    | owned u => simp [State.At, hidle] at hplace
    | published => exact absurd hplace.symm hne
    | held u => simp [State.At, hidle, Stage.oldp?] at hplace
    | freed => exact hplace

/-- The object `0` in `foo` and nothing else allocated. -/
def start : State Unit Bool ℕ where
  rcu := ThreadRcu.initial Unit Bool
  foo := 0
  stages _ := .idle
  allocated := [0]
  freed := []

/-- Two updaters whose grace periods overlap. -/
def overlapHistory : List (Action Unit Bool ℕ) :=
  [.malloc true 1, .malloc false 2, .assignPointer true, .assignPointer false, .rcu (.call true),
    .rcu (.call false), .rcu (.acquire true), .rcu (.flip true), .rcu (.release true),
    .rcu (.acquire false), .rcu (.flip false), .rcu (.release false), .free false 1, .free true 0]

theorem updaters_free_once_overlap :
    ∃ s, (machine Unit Bool ℕ []).Run overlapHistory s ∧ (∀ u, s.stages u = .idle) ∧
      ∀ obj ∈ s.allocated, obj ≠ s.foo → s.freed.count obj = 1 := by
  have hlegal : (machine Unit Bool ℕ []).Legal start overlapHistory :=
    ⟨⟨rfl, by decide⟩, ⟨rfl, by decide⟩, ⟨1, rfl⟩, ⟨2, rfl⟩, ⟨⟨0, rfl⟩, rfl⟩, ⟨⟨1, rfl⟩, rfl⟩,
      ⟨rfl, rfl⟩, rfl, rfl, ⟨rfl, rfl⟩, rfl, rfl, rfl, rfl, trivial⟩
  have hrun : (machine Unit Bool ℕ []).Run overlapHistory
      ((machine Unit Bool ℕ []).final start overlapHistory) :=
    ⟨start, ⟨rfl, fun _ ↦ rfl, rfl, rfl⟩, hlegal, rfl⟩
  have hidle : ∀ u, ((machine Unit Bool ℕ []).final start overlapHistory).stages u = .idle := by
    decide
  exact ⟨_, hrun, hidle, (updaters_free_once [] hrun).2.2.2 hidle⟩

end ParallelPrograms.ThreadRcu.UpdateSide
