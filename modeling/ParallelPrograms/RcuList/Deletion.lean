import ParallelPrograms.RcuList.Shape

/-!
# Traversals against deletions

A node that has been taken out of the ring still points into it, so a reader that stands there
would find its way to the head. `list_del_rcu` does not leave it at that: `list_init_rcu(node)`
makes the node point to itself at once, without a grace period in between. A reader on the node
then stays there for ever. These are the only readers that get lost: the traversals are safe in
every run in which no reader stands on a node at the moment its `next` is reset.
-/

namespace ParallelPrograms.RcuList

open Concurrency LinkedList

variable {Node Rid : Type*} [DecidableEq Node] [DecidableEq Rid] {head : Node}
  {nodes : List Node} {s : State Node Unit Rid}

/-- No reader stands on the node whose `next` the step resets. -/
def ResetsUnvisited (s : State Node Unit Rid) (action : Action Node Unit Rid) : Prop :=
  action = .step () → ¬ s.Parked

omit [DecidableEq Rid] in
theorem Inv.exists_iterate_eq_head (h : Inv head nodes s) {r : Rid} {pos : Node}
    (hpos : (s.readers r).position = some pos) : ∃ k, s.next^[k] pos = head := by
  obtain ⟨k, hk⟩ := h.shape.cycle.exists_iterate_eq_head (h.next_mem hpos)
  exact ⟨k + 1, hk⟩

omit [DecidableEq Rid] in
/-- A reader on the node that is reset loses the head. -/
theorem Inv.lost (h : Inv head nodes s) {r : Rid} {node : Node}
    (hpc : s.updaters () = .initNext node) (hpos : (s.readers r).position = some node) :
    ((updaterStep head s ()).readers r).position = some node ∧
      ∀ k, (updaterStep head s ()).next^[k] node ≠ head := by
  have hshape := h.shape
  rw [hpc] at hshape
  have hne : node ≠ head := fun heq ↦ hshape.2.1 (heq ▸ List.mem_cons_self)
  simp only [updaterStep, hpc, State.goto_readers, State.setNext_readers, State.goto_next,
    State.setNext_next]
  refine ⟨hpos, fun k ↦ ?_⟩
  rwa [Function.iterate_fixed (Function.update_self ..)]

theorem exists_inv {history : List (Action Node Unit Rid)}
    (hrun : ((machine head).when ResetsUnvisited).Run history s) : ∃ nodes, Inv head nodes s := by
  apply hrun.invariant (fun s ↦ ∃ nodes, Inv head nodes s)
  · exact fun s hinit ↦ exists_inv_of_init hinit
  · intro s action ⟨nodes, hinv⟩ ⟨hguard, hok⟩
    by_cases hstep : action = .step ()
    · subst hstep
      obtain ⟨nodes', -, hinv'⟩ := hinv.step hguard (hok rfl)
      exact ⟨nodes', hinv'⟩
    · exact ⟨nodes, hinv.update_of_ne_step hguard hstep⟩

/-- **Traversal against deletion.** Every reader finds the head from its node, in every state of
a run, exactly when no step of the run resets the `next` of a node that a reader stands on. -/
theorem traversal_against_deletion_iff (head : Node) {initial : State Node Unit Rid}
    {history : List (Action Node Unit Rid)} (hinit : (machine head).init initial)
    (hlegal : (machine head).Legal initial history) :
    (∀ before, before <+: history → ∀ r pos,
      (((machine head).final initial before).readers r).position = some pos →
      ∃ k, ((machine head).final initial before).next^[k] pos = head) ↔
    (machine head).Meets ResetsUnvisited initial history := by
  constructor
  · intro hreach
    induction history using List.reverseRecOn with
    | nil => trivial
    | append_singleton history action ih =>
      obtain ⟨hlegalBefore, -⟩ := ((machine head).legal_append ..).mp hlegal
      have hmeets := ih hlegalBefore fun before hbefore ↦
        hreach before (hbefore.trans (List.prefix_append ..))
      rw [Machine.meets_append]
      refine ⟨hmeets, ?_, trivial⟩
      -- a reader on the reset node would be lost in the state after the step
      intro heq ⟨r, node, hpc, hpos⟩
      subst heq
      obtain ⟨nodes, hinv⟩ := exists_inv
        (Machine.run_when_iff.mpr ⟨_, hinit, hlegalBefore, hmeets, rfl⟩)
      obtain ⟨hstill, hlost⟩ := hinv.lost hpc hpos
      have hfinal : (machine head).final initial (history ++ [.step ()]) =
          updaterStep head ((machine head).final initial history) () := by
        rw [Machine.final_append]
        rfl
      obtain ⟨k, hk⟩ := hreach _ List.prefix_rfl r node (by rw [hfinal]; exact hstill)
      rw [hfinal] at hk
      exact hlost k hk
  · intro hmeets before hbefore r pos hpos
    obtain ⟨nodes, hinv⟩ := exists_inv (Machine.run_when_iff.mpr
      ⟨_, hinit, hlegal.of_prefix hbefore, hmeets.of_prefix hbefore, rfl⟩)
    exact hinv.exists_iterate_eq_head hpos

/-- The ring of the one node `1`. -/
def oneNode : State ℕ Unit Unit where
  next n := if n = 0 then 1 else 0
  prev n := if n = 0 then 1 else 0
  status n := if n = 1 then .linked else .fresh
  updaters _ := .idle
  readers _ := ⟨none, []⟩

theorem init_oneNode : (machine 0).init oneNode := by
  have hempty : Cycle id 0 ([] ++ []) := Cycle.nil_iff.mpr rfl
  have hring : Cycle (fun n ↦ if n = 0 then 1 else 0) 0 [1] :=
    hempty.insert (by decide) rfl rfl (by simp)
  refine ⟨⟨[1], ⟨hring, hring⟩, fun n _ ↦ by simp [oneNode]⟩, fun _ ↦ rfl, fun _ ↦ rfl⟩

/-- A reader stands on node `1` while `list_del_rcu` takes it out and resets it. -/
def lostHistory : List (Action ℕ Unit Unit) :=
  [.start (), .callDel () 1, .step (), .step (), .step (), .step (), .step ()]

theorem legal_lostHistory : (machine 0).Legal oneNode lostHistory := by
  simp [lostHistory, machine, guard, update, updaterStep, oneNode, Reader.Stopped]

theorem traversal_against_deletion_iff_oneNode :
    (∀ before, before <+: lostHistory → ∀ r pos,
      (((machine 0).final oneNode before).readers r).position = some pos →
      ∃ k, ((machine 0).final oneNode before).next^[k] pos = 0) ↔
    (machine 0).Meets ResetsUnvisited oneNode lostHistory :=
  traversal_against_deletion_iff 0 init_oneNode legal_lostHistory

theorem traversal_against_deletion_lost :
    ¬ ∀ (initial : State ℕ Unit Unit) history, (machine 0).init initial →
      (machine 0).Legal initial history → ∀ r pos,
      (((machine 0).final initial history).readers r).position = some pos →
      ∃ k, ((machine 0).final initial history).next^[k] pos = 0 := by
  intro hreach
  obtain ⟨k, hk⟩ := hreach oneNode lostHistory init_oneNode legal_lostHistory () 1 rfl
  rw [Function.iterate_fixed rfl] at hk
  exact absurd hk (by decide)

end ParallelPrograms.RcuList
