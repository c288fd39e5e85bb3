import ParallelPrograms.RcuList.Shape

/-!
# Traversals against insertions

Without deletions the ring only grows, at its two ends. A reader that started on the elements
`ring` has those of them in front of it that it has not visited, followed by what was added at
the tail since, until it reaches the head. What is added at the front, or at the tail after the
reader has left, is never seen by it.
-/

namespace ParallelPrograms.RcuList

open Concurrency LinkedList

variable {Node Rid : Type*} [DecidableEq Node] [DecidableEq Rid]

/-- No deletion is under way. -/
def Pc.Adding : Pc Node → Prop
  | idle | addReadNext _ | addReadPrev _ | addNextPrev .. | addNewNext .. | addNewPrev ..
  | addPublish .. => True
  | delReadPrev _ | delReadNext .. | delNextPrev .. | delPrevNext .. | initNext _
  | initPrev _ => False

/-- How far a reader is that started on the elements `ring`, when the elements are `nodes`. -/
def Traversal (head : Node) (ring nodes : List Node) (reader : Reader Node) : Prop :=
  ∃ front later ahead back, nodes = front ++ (reader.visited ++ ahead) ++ back ∧
    reader.visited ++ ahead = ring ++ later ∧ reader.position = some (firstOf head ahead) ∧
    (ahead ≠ [] → back = [])

section Traversal

variable {head : Node} {ring nodes nodes' : List Node} {reader : Reader Node}

omit [DecidableEq Node] in
theorem Traversal.start : Traversal head ring ring ⟨some (firstOf head ring), []⟩ :=
  ⟨[], [], ring, [], by simp, by simp, rfl, fun _ ↦ rfl⟩

omit [DecidableEq Node] in
/-- An insertion at the front is behind every reader. One at the tail is ahead of the readers
that are still under way. -/
theorem Traversal.edit {pc : Pc Node} (h : Traversal head ring nodes reader)
    (hedit : Edit pc nodes nodes') (hadding : pc.Adding) :
    Traversal head ring nodes' reader := by
  obtain ⟨front, later, ahead, back, rfl, hvisited, hpos, hback⟩ := h
  cases hedit with
  | same => exact ⟨front, later, ahead, back, rfl, hvisited, hpos, hback⟩
  | pushFront new => exact ⟨new :: front, later, ahead, back, rfl, hvisited, hpos, hback⟩
  | pushBack new =>
    cases ahead with
    | nil => exact ⟨front, later, [], back ++ [new], by simp, hvisited, hpos, by simp⟩
    | cons x ahead =>
      obtain rfl := hback (by simp)
      refine ⟨front, later ++ [new], x :: ahead ++ [new], [], by simp, ?_, hpos, fun _ ↦ rfl⟩
      rw [← List.append_assoc, ← List.append_assoc, hvisited]
  | erase before node after prev next hpc =>
    subst hpc
    exact hadding.elim

omit [DecidableEq Node] in
/-- One round of the loop moves one element from ahead of the reader to its visited ones. -/
theorem Traversal.advance {next : Node → Node} {pos : Node}
    (h : Traversal head ring nodes reader) (hcycle : Cycle next head nodes)
    (hpos : reader.position = some pos) (hne : pos ≠ head) :
    Traversal head ring nodes ⟨some (next pos), reader.visited ++ [pos]⟩ := by
  obtain ⟨front, later, ahead, back, rfl, hvisited, hahead, hback⟩ := h
  rw [hpos, Option.some.injEq] at hahead
  cases ahead with
  | nil => exact absurd hahead hne
  | cons x ahead =>
    obtain rfl : pos = x := hahead
    obtain rfl := hback (by simp)
    refine ⟨front, later, ahead, [], by simp, by simpa using hvisited, ?_, fun _ ↦ rfl⟩
    have hcycle' : Cycle next head ((front ++ reader.visited) ++ pos :: ahead) := by
      simpa using hcycle
    rw [hcycle'.next_mem]

omit [DecidableEq Node] in
/-- At the end of the loop the visited nodes are the elements of the start and later ones. -/
theorem Traversal.finished (h : Traversal head ring nodes reader)
    (hnodup : (head :: nodes).Nodup) (hpos : reader.position = some head) :
    ∃ later, reader.visited = ring ++ later ∧ reader.visited.Nodup ∧
      ∀ v ∈ later, v ∉ ring ∧ v ∈ nodes := by
  obtain ⟨front, later, ahead, back, rfl, hvisited, hahead, -⟩ := h
  rw [hpos, Option.some.injEq] at hahead
  cases ahead with
  | nil =>
    rw [List.append_nil] at hvisited hnodup
    have hnodup' : reader.visited.Nodup := (List.nodup_cons.mp hnodup).2.sublist (by simp)
    refine ⟨later, hvisited, hnodup', fun v hv ↦ ⟨fun hring ↦ ?_, by simp [hvisited, hv]⟩⟩
    rw [hvisited] at hnodup'
    exact (List.nodup_append.mp hnodup').2.2 v hring v hv rfl
  | cons x ahead =>
    rw [firstOf_cons] at hahead
    simp [hahead] at hnodup

end Traversal

section Runs

variable {head : Node} {s : State Node Unit Rid}

theorem adding_update (head : Node) {action : Action Node Unit Rid} (h : (s.updaters ()).Adding)
    (hdel : ∀ u node, action ≠ .callDel u node) :
    ((update head s action).updaters ()).Adding := by
  cases action with
  | callDel u node => exact absurd rfl (hdel u node)
  | step u =>
    simp only [update, updaterStep]
    cases hpc : s.updaters () <;> simp_all [Pc.Adding]
  | advance r =>
    simp only [update, readerStep]
    cases (s.readers r).position <;> exact h
  | _ => first | exact h | simp [update, Pc.Adding]

omit [DecidableEq Rid] in
theorem updaterStep_readers (u : Unit) : (updaterStep head s u).readers = s.readers := by
  unfold updaterStep
  cases s.updaters u <;> rfl

/-- A ring that is only inserted into. -/
structure Growing (head : Node) (nodes : List Node) (s : State Node Unit Rid) : Prop where
  inv : Inv head nodes s
  adding : (s.updaters ()).Adding

theorem Growing.update {nodes : List Node} {action : Action Node Unit Rid}
    (h : Growing head nodes s) (hguard : guard head s action)
    (hdel : ∀ u node, action ≠ .callDel u node) :
    ∃ nodes', Edit (s.updaters ()) nodes nodes' ∧ (action ≠ .step () → nodes' = nodes) ∧
      Growing head nodes' (update head s action) := by
  have hadding := adding_update head h.adding hdel
  by_cases hstep : action = .step ()
  · subst hstep
    have hparked : ¬ s.Parked := by
      intro ⟨r, node, hpc, _⟩
      simpa [hpc, Pc.Adding] using h.adding
    obtain ⟨nodes', hedit, hinv⟩ := h.inv.step hguard hparked
    exact ⟨nodes', hedit, fun hne ↦ absurd rfl hne, hinv, hadding⟩
  · exact ⟨nodes, .same, fun _ ↦ rfl, h.inv.update_of_ne_step hguard hstep, hadding⟩

/-- A step of any thread, seen by one reader that does not start anew. -/
theorem Growing.traversal_update {ring nodes : List Node} {r : Rid} {action : Action Node Unit Rid}
    (h : Growing head nodes s) (htraversal : Traversal head ring nodes (s.readers r))
    (hguard : guard head s action) (hdel : ∀ u node, action ≠ .callDel u node)
    (hstart : action ≠ .start r) :
    ∃ nodes', Growing head nodes' (RcuList.update head s action) ∧
      Traversal head ring nodes' ((RcuList.update head s action).readers r) := by
  obtain ⟨nodes', hedit, hsame, hgrowing⟩ := h.update hguard hdel
  refine ⟨nodes', hgrowing, ?_⟩
  cases action with
  | step u =>
    rw [RcuList.update, updaterStep_readers]
    exact htraversal.edit hedit h.adding
  | start r' =>
    obtain rfl := hsame (by simp)
    have hne : r ≠ r' := by
      intro heq
      subst heq
      exact hstart rfl
    simpa [RcuList.update, Function.update_of_ne hne] using htraversal
  | advance r' =>
    obtain rfl := hsame (by simp)
    obtain ⟨pos, hpos, hne⟩ := hguard
    simp only [RcuList.update, readerStep, hpos, State.setReader_readers]
    by_cases hr : r = r'
    · subst hr
      rw [Function.update_self]
      exact htraversal.advance h.inv.shape.cycle hpos hne
    · rwa [Function.update_of_ne hr]
  | callAdd | callAddTail | callDel | recycle =>
    obtain rfl := hsame (by simp)
    exact htraversal

theorem exists_growing {initial : State Node Unit Rid} {history : List (Action Node Unit Rid)}
    (hinit : (machine head).init initial) (hlegal : (machine head).Legal initial history)
    (hdel : ∀ u node, .callDel u node ∉ history) :
    ∃ nodes, Growing head nodes ((machine head).final initial history) := by
  refine (Machine.Run.nil hinit).persists (fun s ↦ ∃ nodes, Growing head nodes s)
    (fun action ↦ ∃ u node, action = .callDel u node) ?_ hlegal ?_ ?_
  · intro _ s action _ ⟨nodes, hgrowing⟩ hstop hguard
    obtain ⟨nodes', -, -, hgrowing'⟩ := hgrowing.update hguard (by simpa using hstop)
    exact ⟨nodes', hgrowing'⟩
  · rintro action hmem ⟨u, node, rfl⟩
    exact hdel u node hmem
  · obtain ⟨nodes, hinv⟩ := exists_inv_of_init hinit
    exact ⟨nodes, hinv, by simp [hinit.2.1, Pc.Adding]⟩

/-- A reader's traversal, from its start to any later moment before it starts anew. -/
theorem Growing.exists_traversal {history during : List (Action Node Unit Rid)} {r : Rid}
    {ring : List Node} (hrun : (machine head).Run history s) (h : Growing head ring s)
    (hguard : guard head s (.start r))
    (hlegal : (machine head).Legal (RcuList.update head s (.start r)) during)
    (hdel : ∀ u node, .callDel u node ∉ during) (hstart : .start r ∉ during) :
    ∃ nodes, Growing head nodes ((machine head).final s (.start r :: during)) ∧
      Traversal head ring nodes (((machine head).final s (.start r :: during)).readers r) := by
  refine (hrun.snoc (.start r) hguard).persists
    (fun s ↦ ∃ nodes, Growing head nodes s ∧ Traversal head ring nodes (s.readers r))
    (fun action ↦ (∃ u node, action = .callDel u node) ∨ action = .start r) ?_ hlegal ?_ ?_
  · intro _ s action _ ⟨nodes, hgrowing, htraversal⟩ hstop hguard
    simp only [not_or, not_exists] at hstop
    exact hgrowing.traversal_update htraversal hguard hstop.1 hstop.2
  · rintro action hmem (⟨u, node, rfl⟩ | rfl)
    · exact hdel u node hmem
    · exact hstart hmem
  · obtain ⟨nodes, -, hsame, hgrowing⟩ := h.update hguard (by simp)
    obtain rfl := hsame (by simp)
    refine ⟨_, hgrowing, ?_⟩
    have hfirst := h.inv.shape.cycle.next_head
    simpa [machine, RcuList.update, hfirst] using Traversal.start

omit [DecidableEq Rid] in
/-- From every place a reader can be at, the pointers lead through linked nodes to the head. -/
theorem Growing.exists_iterate_eq_head {nodes : List Node} (h : Growing head nodes s) {r : Rid}
    {pos : Node} (hpos : (s.readers r).position = some pos) :
    ∃ k, s.next^[k] pos = head ∧ ∀ j < k, s.status (s.next^[j] pos) = .linked := by
  have hcycle := h.inv.shape.cycle
  have hmem : pos ∈ head :: nodes := by
    rcases h.inv.reader r pos hpos with hmem | hinit
    · exact hmem
    · simpa [hinit, Pc.Adding] using h.adding
  rcases List.mem_cons.mp hmem with rfl | hmem
  · exact ⟨0, rfl, by simp⟩
  · obtain ⟨before, after, rfl⟩ := List.append_of_mem hmem
    obtain ⟨hhead, hpath⟩ := hcycle.iterate_eq before (pos :: after)
    refine ⟨_, hhead, fun j hj ↦ ?_⟩
    have hj' := List.mem_append_right before (hpath j hj)
    exact (h.inv.linked _ (ne_of_mem_of_not_mem hj' hcycle.head_notMem)).mpr hj'

end Runs

/-- **Traversal against insertion.** One updater inserts at both ends and any number of readers
run their loops. In every reached state the pointers lead from each reader's node through
linked nodes to the head. A reader whose loop has ended has visited the elements that were
linked when it started, in ring order, then nodes that were linked meanwhile, and none twice. -/
theorem traversal_against_insertion (head : Node) {initial : State Node Unit Rid}
    {history : List (Action Node Unit Rid)} (hinit : (machine head).init initial)
    (hlegal : (machine head).Legal initial history)
    (hdel : ∀ u node, .callDel u node ∉ history) :
    (∀ r pos, (((machine head).final initial history).readers r).position = some pos →
      ∃ k, ((machine head).final initial history).next^[k] pos = head ∧ ∀ j < k,
        ((machine head).final initial history).status
          (((machine head).final initial history).next^[j] pos) = .linked) ∧
    ∀ r before during, history = before ++ .start r :: during → .start r ∉ during →
      (((machine head).final initial history).readers r).position = some head →
      ∃ ring later, Cycle ((machine head).final initial before).next head ring ∧
        (∀ n, n ≠ head →
          (((machine head).final initial before).status n = .linked ↔ n ∈ ring)) ∧
        (((machine head).final initial history).readers r).visited = ring ++ later ∧
        (((machine head).final initial history).readers r).visited.Nodup ∧
        ∀ v ∈ later, ((machine head).final initial before).status v ≠ .linked ∧
          ((machine head).final initial history).status v = .linked := by
  constructor
  · intro r pos hpos
    obtain ⟨nodes, hgrowing⟩ := exists_growing hinit hlegal hdel
    exact hgrowing.exists_iterate_eq_head hpos
  · intro r before during heq hstart hended
    subst heq
    simp only [List.mem_append, List.mem_cons, not_or] at hdel
    obtain ⟨hbefore, hguard, hduring⟩ := ((machine head).legal_append ..).mp hlegal
    obtain ⟨ring, hring⟩ := exists_growing hinit hbefore fun u node ↦ (hdel u node).1
    obtain ⟨nodes, hgrowing, htraversal⟩ := hring.exists_traversal
      ((Machine.Run.nil hinit).append hbefore) hguard hduring (fun u node ↦ (hdel u node).2.2)
      hstart
    rw [Machine.final_append] at hended ⊢
    obtain ⟨later, hvisited, hnodup, hlater⟩ :=
      htraversal.finished hgrowing.inv.shape.cycle.nodup hended
    refine ⟨ring, later, hring.inv.shape.cycle, hring.inv.linked, hvisited, hnodup,
      fun v hv ↦ ?_⟩
    obtain ⟨hnew, hmem⟩ := hlater v hv
    have hne : v ≠ head := ne_of_mem_of_not_mem hmem hgrowing.inv.shape.cycle.head_notMem
    exact ⟨mt (hring.inv.linked v hne).mp hnew, (hgrowing.inv.linked v hne).mpr hmem⟩

/-- Nodes that no call has touched yet. -/
def untouched : State ℕ Unit Unit where
  next _ := 0
  prev _ := 0
  status _ := .fresh
  updaters _ := .idle
  readers _ := ⟨none, []⟩

/-- A reader runs over node `1` while node `2` is inserted at the tail. -/
theorem traversal_against_insertion_two_nodes :
    ∃ ring later, Cycle ((machine 0).final (listInitRcu 0 untouched)
        [.callAddTail () 1, .step (), .step (), .step (), .step (), .step ()]).next 0 ring ∧
      [1, 2] = ring ++ later := by
  have hinit : (machine 0).init (listInitRcu 0 untouched) :=
    init_listInitRcu 0 (fun _ _ ↦ nofun) (fun _ ↦ rfl) fun _ ↦ rfl
  have hlegal : (machine 0).Legal (listInitRcu 0 untouched)
      ([.callAddTail () 1, .step (), .step (), .step (), .step (), .step ()] ++ .start () ::
        [.callAddTail () 2, .step (), .step (), .step (), .step (), .step (), .advance (),
          .advance ()]) := by
    simp [machine, guard, update, updaterStep, readerStep, listInitRcu, untouched, Reader.Stopped]
  obtain ⟨ring, later, hcycle, -, hvisited, -⟩ :=
    (traversal_against_insertion 0 hinit hlegal (by simp)).2 () _ _ rfl (by simp) rfl
  exact ⟨ring, later, hcycle, hvisited⟩

end ParallelPrograms.RcuList
