import ParallelPrograms.RcuList.Model

/-!
# Calls one at a time

The functions of `rculist.h` as functions on the pointers, for callers that do not overlap. A ring
represents the sequence of its elements. Insertions at both ends and deletions do on the ring what
they do on the sequence, whichever of the head and the first and the last node coincide, and
`list_for_each` visits the sequence.

Each function is what an updater does that takes all steps of its call without interruption.
-/

namespace ParallelPrograms.RcuList.Sequential

open Concurrency LinkedList

/-- The pointers of every `struct list_head`. -/
@[ext]
structure Heap (Node : Type*) where
  next : Node → Node
  prev : Node → Node

variable {Node : Type*} [DecidableEq Node]

namespace Heap

variable (h : Heap Node)

@[simps -fullyApplied]
def setNext (node value : Node) : Heap Node := { h with next := Function.update h.next node value }

@[simps -fullyApplied]
def setPrev (node value : Node) : Heap Node := { h with prev := Function.update h.prev node value }

end Heap

/-! ## The functions -/

/-- `list_init_rcu(node)` -/
def listInitRcu (node : Node) (h : Heap Node) : Heap Node := (h.setNext node node).setPrev node node

/-- `__list_add_rcu(new, prev, next)` -/
def listAddBetween (new prev next : Node) (h : Heap Node) : Heap Node :=
  (((h.setPrev next new).setNext new next).setPrev new prev).setNext prev new

theorem listAddBetween_next (new prev next : Node) (h : Heap Node) :
    (listAddBetween new prev next h).next =
      Function.update (Function.update h.next new next) prev new := rfl

theorem listAddBetween_prev (new prev next : Node) (h : Heap Node) :
    (listAddBetween new prev next h).prev =
      Function.update (Function.update h.prev next new) new prev := rfl

/-- `list_add_rcu(new, head)` -/
def listAddRcu (new head : Node) (h : Heap Node) : Heap Node :=
  listAddBetween new head (h.next head) h

/-- `list_add_tail_rcu(new, head)` -/
def listAddTailRcu (new head : Node) (h : Heap Node) : Heap Node :=
  listAddBetween new (h.prev head) head h

/-- `__list_del_rcu(prev, next)` -/
def listDelBetween (prev next : Node) (h : Heap Node) : Heap Node :=
  (h.setPrev next prev).setNext prev next

/-- `list_del_rcu(node)` -/
def listDelRcu (node : Node) (h : Heap Node) : Heap Node :=
  listInitRcu node (listDelBetween (h.prev node) (h.next node) h)

theorem listDelRcu_next (node : Node) (h : Heap Node) : (listDelRcu node h).next =
    Function.update (Function.update h.next (h.prev node) (h.next node)) node node := rfl

theorem listDelRcu_prev (node : Node) (h : Heap Node) : (listDelRcu node h).prev =
    Function.update (Function.update h.prev (h.next node) (h.prev node)) node node := rfl

/-- `list_for_each_from(pos, head)`, with the nodes for which the body runs. -/
def listForEachFrom (head : Node) (h : Heap Node) : ℕ → Node → Option (List Node)
  | 0, _ => none
  | fuel + 1, pos =>
    if pos = head then some []
    else (listForEachFrom head h fuel (h.next pos)).map fun visited ↦ pos :: visited

/-- `list_for_each(n, head)`, with a body that does not write to the list. -/
def listForEach (fuel : ℕ) (head : Node) (h : Heap Node) : Option (List Node) :=
  listForEachFrom head h fuel (h.next head)

/-- The loop of `list_for_each_safe(pos, n, head)`, with the heap afterwards. -/
def listForEachSafeFrom (body : Node → Heap Node → Heap Node) (head : Node) :
    ℕ → Node → Node → Heap Node → Option (Heap Node × List Node)
  | 0, _, _, _ => none
  | fuel + 1, pos, n, h =>
    if pos = head then some (h, [])
    else do
      let h := body pos h
      let (h, visited) ← listForEachSafeFrom body head fuel n (h.next n) h
      some (h, pos :: visited)

/-- `list_for_each_safe(pos, n, head)` -/
def listForEachSafe (body : Node → Heap Node → Heap Node) (fuel : ℕ) (head : Node) (h : Heap Node) :
    Option (Heap Node × List Node) :=
  listForEachSafeFrom body head fuel (h.next head) (h.next (h.next head)) h

/-! ## One call -/

/-- The ring from `head` represents `xs` after the call, `list_for_each` visits `xs` and stops, and
the rings without a node of `touched` are as before. -/
structure Yields (h h' : Heap Node) (touched : List Node) (head : Node) (xs : List Node) :
    Prop where
  ring : Ring h'.next h'.prev head xs
  visits : ∀ fuel, xs.length < fuel → listForEach fuel head h' = some xs
  untouched : ∀ other ys, Ring h.next h.prev other ys → (∀ n ∈ other :: ys, n ∉ touched) →
    Ring h'.next h'.prev other ys ∧
      ∀ n ∈ other :: ys, h'.next n = h.next n ∧ h'.prev n = h.prev n

section Loops

variable {h : Heap Node} {head : Node} {before after xs : List Node} {fuel : ℕ}

theorem listForEachFrom_eq (hcycle : Cycle h.next head (before ++ after))
    (hfuel : after.length < fuel) :
    listForEachFrom head h fuel (firstOf head after) = some after := by
  induction after generalizing before fuel with
  | nil =>
    obtain ⟨fuel, rfl⟩ := Nat.exists_eq_succ_of_ne_zero (Nat.ne_zero_of_lt hfuel)
    exact if_pos rfl
  | cons x after ih =>
    obtain ⟨fuel, rfl⟩ := Nat.exists_eq_succ_of_ne_zero (Nat.ne_zero_of_lt hfuel)
    have hne : x ≠ head := by
      rintro rfl
      exact hcycle.head_notMem (by simp)
    have hcycle' : Cycle h.next head (before ++ [x] ++ after) := by
      rwa [List.append_assoc]
    rw [firstOf_cons, listForEachFrom, if_neg hne, hcycle.next_mem,
      ih hcycle' (Nat.lt_of_succ_lt_succ hfuel), Option.map_some]

/-- **`list_for_each`** -/
theorem listForEach_eq (hring : Ring h.next h.prev head xs) (hfuel : xs.length < fuel) :
    listForEach fuel head h = some xs := by
  rw [listForEach, hring.forward.next_head]
  have hcycle : Cycle h.next head ([] ++ xs) := hring.forward
  exact listForEachFrom_eq hcycle hfuel

/-- **The loop of `list_for_each_safe`**, with a body that may write to the node that it gets. -/
theorem listForEachSafeFrom_eq {body : Node → Heap Node → Heap Node}
    (hbody : ∀ x h y, y ≠ x → (body x h).next y = h.next y)
    (hpath : ∀ passed x rest, after = passed ++ x :: rest → h.next x = firstOf head rest)
    (hnodup : (head :: after).Nodup) (hfuel : after.length < fuel) :
    listForEachSafeFrom body head fuel (firstOf head after) (h.next (firstOf head after)) h =
      some (after.foldl (fun h x ↦ body x h) h, after) := by
  induction after generalizing h fuel with
  | nil =>
    obtain ⟨fuel, rfl⟩ := Nat.exists_eq_succ_of_ne_zero (Nat.ne_zero_of_lt hfuel)
    exact if_pos rfl
  | cons x after ih =>
    obtain ⟨fuel, rfl⟩ := Nat.exists_eq_succ_of_ne_zero (Nat.ne_zero_of_lt hfuel)
    simp only [List.nodup_cons, List.mem_cons, not_or] at hnodup
    obtain ⟨⟨hhead, hheadAfter⟩, hx, hafter⟩ := hnodup
    have hnext : h.next x = firstOf head after := hpath [] x after rfl
    -- the body does not write to the nodes that are still to come
    have hpath' : ∀ passed y rest, after = passed ++ y :: rest →
        (body x h).next y = firstOf head rest := by
      intro passed y rest heq
      have hne : y ≠ x := by
        rintro rfl
        exact hx (by simp [heq])
      rw [hbody x h y hne]
      exact hpath (x :: passed) y rest (by rw [heq, List.cons_append])
    have hrest := ih hpath' (List.nodup_cons.mpr ⟨hheadAfter, hafter⟩)
      (Nat.lt_of_succ_lt_succ hfuel)
    rw [firstOf_cons, listForEachSafeFrom, if_neg (Ne.symm hhead), hnext]
    simp only [hrest, Option.bind_eq_bind, Option.bind_some, List.foldl_cons]

/-- **`list_for_each_safe`** -/
theorem listForEachSafe_eq {body : Node → Heap Node → Heap Node}
    (hbody : ∀ x h y, y ≠ x → (body x h).next y = h.next y)
    (hring : Ring h.next h.prev head xs) (hfuel : xs.length < fuel) :
    listForEachSafe body fuel head h = some (xs.foldl (fun h x ↦ body x h) h, xs) := by
  rw [listForEachSafe, hring.forward.next_head]
  apply listForEachSafeFrom_eq hbody _ hring.forward.nodup hfuel
  rintro passed x rest rfl
  exact hring.forward.next_mem

end Loops

section Calls

variable {h h' : Heap Node} {head new x : Node} {before after xs touched : List Node}

/-- What a call yields that writes only to the pointers of `touched`. -/
theorem Yields.of_ring (hring : Ring h'.next h'.prev head xs)
    (hframe : ∀ n ∉ touched, h'.next n = h.next n ∧ h'.prev n = h.prev n) :
    Yields h h' touched head xs where
  ring := hring
  visits _ hfuel := listForEach_eq hring hfuel
  untouched other ys hother hdisjoint := by
    have hsame : ∀ n ∈ other :: ys, h'.next n = h.next n ∧ h'.prev n = h.prev n :=
      fun n hn ↦ hframe n (hdisjoint n hn)
    exact ⟨hother.congr (fun n hn ↦ (hsame n hn).1) fun n hn ↦ (hsame n hn).2, hsame⟩

/-- An insertion at a seam of the ring. -/
theorem listAddBetween_yields (hring : Ring h.next h.prev head (before ++ after))
    (hnew : new ∉ head :: (before ++ after)) :
    Yields h (listAddBetween new (lastOf head before) (firstOf head after) h)
      (new :: head :: (before ++ after)) head (before ++ new :: after) := by
  have hlast := lastOf_mem_append head before after
  have hfirst := firstOf_mem_append head before after
  apply Yields.of_ring
  · rw [listAddBetween_next, listAddBetween_prev]
    refine hring.insert hnew ?_ ?_ ?_ ?_ ?_ ?_ <;> grind [Function.update_apply]
  · intro n hn
    rw [listAddBetween_next, listAddBetween_prev]
    grind [Function.update_apply]

theorem listAddRcu_yields (hring : Ring h.next h.prev head xs) (hnew : new ∉ head :: xs) :
    Yields h (listAddRcu new head h) (new :: head :: xs) head (new :: xs) := by
  have hstart : Ring h.next h.prev head ([] ++ xs) := hring
  rw [listAddRcu, hring.forward.next_head]
  exact listAddBetween_yields hstart hnew

theorem listAddTailRcu_yields (hring : Ring h.next h.prev head xs) (hnew : new ∉ head :: xs) :
    Yields h (listAddTailRcu new head h) (new :: head :: xs) head (xs ++ [new]) := by
  have hxs : xs = xs ++ [] := (List.append_nil xs).symm
  rw [listAddTailRcu, hring.prev_head]
  rw [hxs] at hring hnew
  have hyields := listAddBetween_yields hring hnew
  rwa [List.append_nil] at hyields

theorem listInitRcu_ring (node : Node) (h : Heap Node) :
    Ring (listInitRcu node h).next (listInitRcu node h).prev node [] := by
  constructor <;> exact Cycle.nil_iff.mpr (Function.update_self ..)

theorem listDelRcu_yields (hring : Ring h.next h.prev head (before ++ x :: after)) :
    Yields h (listDelRcu x h) (head :: (before ++ x :: after)) head (before ++ after) := by
  have hlast := lastOf_mem head before
  have hfirst := firstOf_mem head after
  have hnodup := hring.forward.nodup
  have hnotMem : x ∉ head :: (before ++ after) := by
    grind
  have hprev := hring.prev_mem
  have hnext := hring.forward.next_mem
  apply Yields.of_ring
  · rw [listDelRcu_next, listDelRcu_prev, hprev, hnext]
    refine hring.remove ?_ ?_ ?_ ?_ <;> grind [Function.update_apply]
  · intro n hn
    rw [listDelRcu_next, listDelRcu_prev, hprev, hnext]
    grind [Function.update_apply]

/-- The nodes of a ring occur once. -/
theorem listDelRcu_mem_yields (hring : Ring h.next h.prev head xs) (hx : x ∈ xs) :
    Yields h (listDelRcu x h) (head :: xs) head (xs.erase x) := by
  obtain ⟨before, after, rfl⟩ := List.append_of_mem hx
  have hbefore : x ∉ before := by
    have := hring.forward.nodup
    grind
  rw [List.erase_append_right _ hbefore, List.erase_cons_head]
  exact listDelRcu_yields hring

/-- **The list operations are the operations on sequences.** -/
theorem rcu_list_sequence (hring : Ring h.next h.prev head xs) :
    (∀ new ∉ head :: xs,
      Yields h (listAddRcu new head h) (new :: head :: xs) head (new :: xs)) ∧
    (∀ new ∉ head :: xs,
      Yields h (listAddTailRcu new head h) (new :: head :: xs) head (xs ++ [new])) ∧
    (∀ x ∈ xs, Yields h (listDelRcu x h) (head :: xs) head (xs.erase x) ∧
      Ring (listDelRcu x h).next (listDelRcu x h).prev x []) ∧
    ∀ fuel, xs.length < fuel → listForEach fuel head h = some xs := by
  refine ⟨fun new hnew ↦ listAddRcu_yields hring hnew,
    fun new hnew ↦ listAddTailRcu_yields hring hnew, ?_, fun fuel ↦ listForEach_eq hring⟩
  intro x hx
  exact ⟨listDelRcu_mem_yields hring hx, listInitRcu_ring ..⟩

/-- Three nodes behind a head. -/
def threeNodes : Heap ℕ :=
  listAddTailRcu 3 0 (listAddTailRcu 2 0 (listAddTailRcu 1 0 (listInitRcu 0 ⟨id, id⟩)))

theorem threeNodes_ring : Ring threeNodes.next threeNodes.prev 0 [1, 2, 3] := by
  have hempty := listInitRcu_ring 0 ⟨id, id⟩
  have hone := (listAddTailRcu_yields hempty (show 1 ∉ [0] by decide)).ring
  have htwo := (listAddTailRcu_yields hone (show 2 ∉ [0, 1] by decide)).ring
  exact (listAddTailRcu_yields htwo (show 3 ∉ [0, 1, 2] by decide)).ring

theorem rcu_list_sequence_threeNodes :
    Yields threeNodes (listAddRcu 4 0 threeNodes) [4, 0, 1, 2, 3] 0 [4, 1, 2, 3] ∧
    Yields threeNodes (listAddTailRcu 4 0 threeNodes) [4, 0, 1, 2, 3] 0 [1, 2, 3, 4] ∧
    Yields threeNodes (listDelRcu 2 threeNodes) [0, 1, 2, 3] 0 [1, 3] ∧
    Ring (listDelRcu 2 threeNodes).next (listDelRcu 2 threeNodes).prev 2 [] ∧
    listForEach 4 0 threeNodes = some [1, 2, 3] := by
  obtain ⟨hadd, haddTail, hdel, hvisits⟩ := rcu_list_sequence threeNodes_ring
  obtain ⟨hyields, halone⟩ := hdel 2 (by decide)
  exact ⟨hadd 4 (by decide), haddTail 4 (by decide), hyields, halone, hvisits 4 (by decide)⟩

end Calls

/-! ## Runs -/

inductive Call (Node : Type*) where
  | add (new : Node)
  | addTail (new : Node)
  | del (node : Node)
  deriving DecidableEq, Repr

namespace Call

/-- What the call does to the pointers. -/
def exec (head : Node) : Call Node → Heap Node → Heap Node
  | add new => listAddRcu new head
  | addTail new => listAddTailRcu new head
  | del node => listDelRcu node

/-- What it does to the sequence. -/
def apply : Call Node → List Node → List Node
  | add new, xs => new :: xs
  | addTail new, xs => xs ++ [new]
  | del node, xs => xs.erase node

/-- Nodes outside the ring are inserted, and nodes of the sequence are deleted. -/
def Admissible (head : Node) (xs : List Node) : Call Node → Prop
  | add new | addTail new => new ∉ head :: xs
  | del node => node ∈ xs

/-- The call in the step machine. -/
def action {Uid Rid : Type*} (u : Uid) : Call Node → Action Node Uid Rid
  | add new => .callAdd u new
  | addTail new => .callAddTail u new
  | del node => .callDel u node

/-- The number of its accesses. -/
def accesses : Call Node → ℕ
  | add _ | addTail _ => 5
  | del _ => 6

/-- The call and its accesses. -/
def steps {Uid Rid : Type*} (u : Uid) (call : Call Node) : List (Action Node Uid Rid) :=
  call.action u :: List.replicate call.accesses (.step u)

end Call

/-- Every call is admissible where it is made. -/
def AdmissibleRun (head : Node) (xs : List Node) : List (Call Node) → Prop
  | [] => True
  | call :: calls => call.Admissible head xs ∧ AdmissibleRun head (call.apply xs) calls

section Runs

variable {h : Heap Node} {head : Node} {xs : List Node} {calls : List (Call Node)}

theorem Call.exec_ring (hring : Ring h.next h.prev head xs) {call : Call Node}
    (hcall : call.Admissible head xs) :
    Ring (call.exec head h).next (call.exec head h).prev head (call.apply xs) := by
  cases call with
  | add new => exact (listAddRcu_yields hring hcall).ring
  | addTail new => exact (listAddTailRcu_yields hring hcall).ring
  | del node => exact (listDelRcu_mem_yields hring hcall).ring

/-- **A run of calls** does on the ring what it does on the sequence. -/
theorem run_ring (hring : Ring h.next h.prev head xs) (hcalls : AdmissibleRun head xs calls) :
    Ring (calls.foldl (fun h call ↦ call.exec head h) h).next
      (calls.foldl (fun h call ↦ call.exec head h) h).prev head
      (calls.foldl (fun xs call ↦ call.apply xs) xs) := by
  induction calls generalizing h xs with
  | nil => exact hring
  | cons call calls ih =>
    obtain ⟨hcall, hrest⟩ := hcalls
    exact ih (Call.exec_ring hring hcall) hrest

end Runs

/-! ## Calls without interruption -/

section Alone

variable {Uid Rid : Type*} [DecidableEq Uid] [DecidableEq Rid] {head : Node}
  {s : State Node Uid Rid} {u : Uid}

/-- The pointers in a state of the step machine. -/
@[simps]
def heap (s : State Node Uid Rid) : Heap Node := ⟨s.next, s.prev⟩

/-- A call that nobody interrupts. -/
theorem call_alone {call : Call Node} (hcall : guard head s (call.action u)) :
    (machine head).Legal s (call.steps u) ∧
      heap ((machine head).final s (call.steps u)) = call.exec head (heap s) ∧
      ((machine head).final s (call.steps u)).updaters u = .idle := by
  cases call <;> refine ⟨⟨hcall, ?_⟩, ?_, ?_⟩ <;>
    simp [Call.steps, Call.action, Call.accesses, machine, guard, update, updaterStep, heap,
      Call.exec, listAddRcu, listAddTailRcu, listAddBetween, listDelRcu, listDelBetween,
      listInitRcu, Heap.setNext, Heap.setPrev]

end Alone

end ParallelPrograms.RcuList.Sequential
