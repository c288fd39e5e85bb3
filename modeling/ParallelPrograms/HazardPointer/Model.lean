import ParallelPrograms.Concurrency.Machine
import Mathlib.Algebra.GroupWithZero.Nat
import Mathlib.Data.Fintype.Basic
import Mathlib.Logic.Function.Basic
import Mathlib.Tactic.Simps.Basic

/-!
# Hazard pointers

`hp_protect_release`, `hp_protect_clear` and `hp_retirelist` of `harzard_pointer.c`. Every thread
has an index below `HP_MAX_THREAD_RL` that selects its hazard slots and its retire list, so the
threads are these indices. The loads and stores of the shared slots and the calls of
`delete_func` are actions of their own. A retire list is accessed by its own thread only, so what
a call does to it happens together with the shared access before or after it.

The list has `HP_MAX_THREAD_RL` cells. `rl.size` is a `size_t`, and when it leaves the range of
the list the cells past its end are read and written, whatever they hold. A failing assertion
ends the program.
-/

namespace ParallelPrograms.HazardPointer

open Concurrency

/-- `HP_MAX_THREAD_RL` -/
abbrev hpMaxThreadRl : ℕ := 128

/-- `HP_MAX_PTR` -/
abbrev hpMaxPtr : ℕ := 4

instance : NeZero hpMaxThreadRl := ⟨Nat.succ_ne_zero 127⟩

instance : NeZero hpMaxPtr := ⟨Nat.succ_ne_zero 3⟩

/-- A thread, which is its index `get_tid()`. -/
abbrev Tid := Fin hpMaxThreadRl

/-- `uintptr_t` -/
abbrev Ptr := UInt64

/-- The contents of `hp->thread_info[j].hp[k]`. -/
abbrev Table := Tid → Fin hpMaxPtr → Ptr

/-- All hazard slots in the order of the loops over `j` and `k`. -/
def slots : List (Tid × Fin hpMaxPtr) :=
  (List.finRange hpMaxThreadRl).flatMap fun j ↦ (List.finRange hpMaxPtr).map fun k ↦ (j, k)

theorem mem_slots (slot : Tid × Fin hpMaxPtr) : slot ∈ slots := by
  simp only [slots, List.mem_flatMap, List.mem_map, List.mem_finRange, true_and]
  exact ⟨slot.1, slot.2, rfl⟩

/-! ## The retire list -/

/-- `retirelist_t`. The cells from `HP_MAX_THREAD_RL` on lie past the end of the array. -/
@[ext]
structure RetireList where
  size : ℕ
  list : ℕ → Ptr

/-- `thi->rl.list[thi->rl.size++] = ptr` -/
def RetireList.push (rl : RetireList) (ptr : Ptr) : RetireList where
  size := (rl.size + 1) % 2 ^ 64
  list := Function.update rl.list rl.size ptr

/-- `memmove(&thi->rl.list[i], &thi->rl.list[--thi->rl.size], sizeof(uintptr_t))` -/
def RetireList.compact (rl : RetireList) (i : ℕ) : RetireList where
  size := (rl.size + (2 ^ 64 - 1)) % 2 ^ 64
  list := Function.update rl.list i (rl.list ((rl.size + (2 ^ 64 - 1)) % 2 ^ 64))

@[grind =]
theorem RetireList.push_list (rl : RetireList) (ptr : Ptr) (i : ℕ) :
    (rl.push ptr).list i = if i = rl.size then ptr else rl.list i :=
  Function.update_apply ..

@[grind =]
theorem RetireList.compact_list (rl : RetireList) (i i' : ℕ) :
    (rl.compact i).list i' = if i' = i then rl.list (rl.compact i).size else rl.list i' :=
  Function.update_apply ..

/-! ## The interleavings -/

/-- Where a thread is. -/
inductive Pc where
  | idle
  /-- `hp_protect_clear`, at the store to the first slot of `rest`, or at the fence. -/
  | clearing (rest : List (Tid × Fin hpMaxPtr))
  /-- `hp_retirelist`, with `obj = thi->rl.list[i]`, at the load of the first slot of `rest`. With
  no slot left, `obj` is freeable. -/
  | scanning (i : ℕ) (obj : Ptr) (rest : List (Tid × Fin hpMaxPtr))
  deriving DecidableEq, Repr

structure State where
  hp : Table
  rl : Tid → RetireList
  threads : Tid → Pc
  /-- An assertion has failed. -/
  aborted : Bool

inductive Action where
  /-- `hp_protect_release(hp, k, ptr)` -/
  | protect (t : Tid) (k : Fin hpMaxPtr) (ptr : Ptr)
  /-- The call of `hp_protect_clear`. -/
  | callClear (t : Tid)
  /-- `atomic_store(&hp->thread_info[i].hp[j], 0)` -/
  | clearStore (t : Tid)
  /-- `atomic_thread_fence` and the return of `hp_protect_clear`. -/
  | fence (t : Tid)
  /-- The call of `hp_retirelist(hp, ptr)`, up to the first load of a slot. -/
  | retire (t : Tid) (ptr : Ptr)
  /-- `atomic_load(&hp->thread_info[j].hp[k])` -/
  | load (t : Tid)
  /-- `hp->delete_func((void *)obj)` -/
  | delete (t : Tid) (obj : Ptr)
  deriving DecidableEq, Repr

namespace State

variable (s : State)

@[simps rl threads aborted]
def setSlot (t : Tid) (k : Fin hpMaxPtr) (ptr : Ptr) : State :=
  { s with hp := Function.update s.hp t (Function.update (s.hp t) k ptr) }

@[simps hp threads aborted]
def setRl (t : Tid) (rl : RetireList) : State :=
  { s with rl := Function.update s.rl t rl }

@[simps hp rl aborted]
def goto (t : Tid) (pc : Pc) : State :=
  { s with threads := Function.update s.threads t pc }

@[simps]
def abort : State := { s with aborted := true }

@[grind =]
theorem setSlot_hp (t t' : Tid) (k k' : Fin hpMaxPtr) (ptr : Ptr) :
    (s.setSlot t k ptr).hp t' k' = if t' = t ∧ k' = k then ptr else s.hp t' k' := by
  simp only [setSlot, Function.update_apply]
  grind [Function.update_apply]

@[grind =]
theorem setRl_rl (t t' : Tid) (rl : RetireList) :
    (s.setRl t rl).rl t' = if t' = t then rl else s.rl t' :=
  Function.update_apply ..

@[grind =]
theorem goto_threads (t t' : Tid) (pc : Pc) :
    (s.goto t pc).threads t' = if t' = t then pc else s.threads t' :=
  Function.update_apply ..

attribute [grind =] setSlot_rl setSlot_threads setSlot_aborted setRl_hp setRl_threads
  setRl_aborted goto_hp goto_rl goto_aborted abort_hp abort_rl abort_threads abort_aborted

end State

/-- The start of round `i` of the outer loop, or the return. -/
def Pc.visit (rl : RetireList) (i : ℕ) : Pc :=
  if i < hpMaxThreadRl then .scanning i (rl.list i) slots else .idle

def guard (s : State) : Action → Prop
  | .protect t _ _ | .callClear t | .retire t _ => s.aborted = false ∧ s.threads t = .idle
  | .clearStore t => s.aborted = false ∧ ∃ slot rest, s.threads t = .clearing (slot :: rest)
  | .fence t => s.aborted = false ∧ s.threads t = .clearing []
  | .load t => s.aborted = false ∧ ∃ i obj slot rest, s.threads t = .scanning i obj (slot :: rest)
  | .delete t obj => s.aborted = false ∧ ∃ i, s.threads t = .scanning i obj []

def update (s : State) : Action → State
  | .protect t k ptr => s.setSlot t k ptr
  | .callClear t => s.goto t (.clearing slots)
  | .clearStore t =>
    match s.threads t with
    | .clearing (slot :: rest) => (s.setSlot slot.1 slot.2 0).goto t (.clearing rest)
    | _ => s
  | .fence t => s.goto t .idle
  | .retire t ptr =>
    if ((s.rl t).push ptr).size < hpMaxThreadRl then
      (s.setRl t ((s.rl t).push ptr)).goto t (.visit ((s.rl t).push ptr) 0)
    else (s.setRl t ((s.rl t).push ptr)).abort
  | .load t =>
    match s.threads t with
    | .scanning i obj (slot :: rest) =>
      if s.hp slot.1 slot.2 = obj then s.goto t (.visit (s.rl t) (i + 1))
      else s.goto t (.scanning i obj rest)
    | _ => s
  | .delete t _ =>
    match s.threads t with
    | .scanning i _ _ =>
      (s.setRl t ((s.rl t).compact i)).goto t (.visit ((s.rl t).compact i) (i + 1))
    | _ => s

/-- What `hp_new` sets up, with `rl.size` zero. The cells past the end of a list are not part of
the allocation. -/
structure Fresh (s : State) : Prop where
  hp : ∀ j k, s.hp j k = 0
  size : ∀ t, (s.rl t).size = 0
  list : ∀ t, ∀ i < hpMaxThreadRl, (s.rl t).list i = 0
  threads : ∀ t, s.threads t = .idle
  aborted : s.aborted = false

def machine : Machine State Action where
  init := Fresh
  guard := guard
  update := update

@[simp, grind =]
theorem machine_guard (s : State) (a : Action) : machine.guard s a = guard s a := rfl

@[simp, grind =]
theorem machine_update (s : State) (a : Action) : machine.update s a = update s a := rfl

instance (s : State) (a : Action) : Decidable (guard s a) :=
  match a with
  | .protect t _ _ | .callClear t | .retire t _ =>
    inferInstanceAs (Decidable (s.aborted = false ∧ s.threads t = .idle))
  | .clearStore t =>
    match h : s.threads t with
    | .clearing (slot :: rest) =>
      decidable_of_iff (s.aborted = false) ⟨fun ha ↦ ⟨ha, slot, rest, h⟩, And.left⟩
    | .clearing [] | .idle | .scanning .. => isFalse fun ⟨_, _, _, h'⟩ ↦ by simp_all
  | .fence t => inferInstanceAs (Decidable (s.aborted = false ∧ s.threads t = .clearing []))
  | .load t =>
    match h : s.threads t with
    | .scanning i obj (slot :: rest) =>
      decidable_of_iff (s.aborted = false) ⟨fun ha ↦ ⟨ha, i, obj, slot, rest, h⟩, And.left⟩
    | .scanning _ _ [] | .idle | .clearing _ => isFalse fun ⟨_, _, _, _, _, h'⟩ ↦ by simp_all
  | .delete t obj =>
    match h : s.threads t with
    | .scanning i obj' [] =>
      decidable_of_iff (s.aborted = false ∧ obj' = obj)
        ⟨fun ⟨ha, hobj⟩ ↦ ⟨ha, i, hobj ▸ h⟩, fun ⟨ha, _, h'⟩ ↦ ⟨ha, by simp_all⟩⟩
    | .scanning _ _ (_ :: _) | .idle | .clearing _ => isFalse fun ⟨_, _, h'⟩ ↦ by simp_all

instance (s : State) (a : Action) : Decidable (machine.guard s a) :=
  inferInstanceAs (Decidable (guard s a))

/-! ## A scan without interruption -/

/-- The loads of the slots `rest`. -/
def loads (t : Tid) (rest : List (Tid × Fin hpMaxPtr)) : List Action := rest.map fun _ ↦ .load t

/-- A scan whose pointer is in none of the remaining slots. -/
theorem scan_unmatched {s : State} {t : Tid} {i : ℕ} {obj : Ptr}
    {rest : List (Tid × Fin hpMaxPtr)} (haborted : s.aborted = false)
    (ht : s.threads t = .scanning i obj rest) (hrest : ∀ slot ∈ rest, s.hp slot.1 slot.2 ≠ obj) :
    machine.Legal s (loads t rest) ∧
      machine.final s (loads t rest) = s.goto t (.scanning i obj []) := by
  induction rest generalizing s with
  | nil =>
    refine ⟨trivial, ?_⟩
    simp [loads, State.goto, ← ht]
  | cons slot rest ih =>
    have hstep : update s (.load t) = s.goto t (.scanning i obj rest) := by
      simp only [update, ht, if_neg (hrest slot List.mem_cons_self)]
    obtain ⟨hlegal, hfinal⟩ := ih (s := s.goto t (.scanning i obj rest)) haborted
      (by simp [State.goto_threads]) fun slot' h ↦ hrest slot' (List.mem_cons_of_mem _ h)
    rw [loads, List.map_cons, Machine.legal_cons, Machine.final_cons, machine_update, hstep]
    refine ⟨⟨⟨haborted, i, obj, slot, rest, ht⟩, hlegal⟩, hfinal.trans ?_⟩
    simp [State.goto]

end ParallelPrograms.HazardPointer
