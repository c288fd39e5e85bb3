import ParallelPrograms.RcuList.Model

/-!
# The ring under one updater

What the pointers look like at every single write of an insertion or a deletion. The forward
pointers form a cycle at all times. The backward pointers do so too, except that the node after
the place of an insertion or deletion may already have its new `prev`; the shape names the value
that would restore it.
-/

namespace ParallelPrograms.RcuList

open Concurrency LinkedList

variable {Node Rid : Type*} [DecidableEq Node]

/-- The two ends at which `list_add_rcu` and `list_add_tail_rcu` insert. -/
def AtEnd (head : Node) (nodes : List Node) (prev next : Node) : Prop :=
  (prev = head ∧ next = firstOf head nodes) ∨ (prev = lastOf head nodes ∧ next = head)

/-- `prev` and `next` are the neighbours of the element `node`. -/
def Around (head : Node) (nodes : List Node) (node prev next : Node) : Prop :=
  ∃ before after, nodes = before ++ node :: after ∧ prev = lastOf head before ∧
    next = firstOf head after

/-- The pointers of a ring of `nodes`, at each place of the updater's call. -/
def Shape (head : Node) (nodes : List Node) (next prev : Node → Node) : Pc Node → Prop
  | .idle => Ring next prev head nodes
  | .addReadNext new | .addReadPrev new => Ring next prev head nodes ∧ new ∉ head :: nodes
  | .addNextPrev new p n =>
    Ring next prev head nodes ∧ new ∉ head :: nodes ∧ AtEnd head nodes p n
  | .addNewNext new p n =>
    Ring next (Function.update prev n p) head nodes ∧ new ∉ head :: nodes ∧
      AtEnd head nodes p n ∧ prev n = new
  | .addNewPrev new p n =>
    Ring next (Function.update prev n p) head nodes ∧ new ∉ head :: nodes ∧
      AtEnd head nodes p n ∧ prev n = new ∧ next new = n
  | .addPublish new p n =>
    Ring next (Function.update prev n p) head nodes ∧ new ∉ head :: nodes ∧
      AtEnd head nodes p n ∧ prev n = new ∧ next new = n ∧ prev new = p
  | .delReadPrev node => Ring next prev head nodes ∧ node ∈ nodes
  | .delReadNext node p => Ring next prev head nodes ∧ node ∈ nodes ∧ p = prev node
  | .delNextPrev node p n => Ring next prev head nodes ∧ Around head nodes node p n
  | .delPrevNext node p n =>
    Ring next (Function.update prev n node) head nodes ∧ Around head nodes node p n ∧ prev n = p
  | .initNext node =>
    Ring next prev head nodes ∧ node ∉ head :: nodes ∧ next node ∈ head :: nodes
  | .initPrev node => Ring next prev head nodes ∧ node ∉ head :: nodes ∧ next node = node

/-- The ring of one updater and its readers. A reader stands in the ring, or on the node that
has just been unlinked. -/
structure Inv (head : Node) (nodes : List Node) (s : State Node Unit Rid) : Prop where
  shape : Shape head nodes s.next s.prev (s.updaters ())
  linked : ∀ n, n ≠ head → (s.status n = .linked ↔ n ∈ nodes)
  reader : ∀ r pos, (s.readers r).position = some pos →
    pos ∈ head :: nodes ∨ s.updaters () = .initNext pos

section Shape

variable {head : Node} {nodes : List Node} {next prev : Node → Node}

/-- The forward pointers are a cycle at every moment. -/
theorem Shape.cycle {pc : Pc Node} (h : Shape head nodes next prev pc) : Cycle next head nodes := by
  cases pc <;> first | exact h.1.forward | exact h.forward

omit [DecidableEq Node] in
theorem AtEnd.split {p n : Node} (h : AtEnd head nodes p n) :
    ∃ before after, nodes = before ++ after ∧ p = lastOf head before ∧ n = firstOf head after ∧
      (before = [] ∨ after = []) := by
  rcases h with ⟨hp, hn⟩ | ⟨hp, hn⟩
  · exact ⟨[], nodes, rfl, hp, hn, .inl rfl⟩
  · exact ⟨nodes, [], by simp, hp, hn, .inr rfl⟩

omit [DecidableEq Node] in
theorem AtEnd.prev_eq {p n : Node} (h : AtEnd head nodes p n) (hring : Ring next prev head nodes) :
    prev n = p := by
  obtain ⟨before, after, rfl, rfl, rfl, -⟩ := h.split
  exact hring.prev_seam

omit [DecidableEq Node] in
theorem AtEnd.next_mem {p n : Node} (h : AtEnd head nodes p n) : n ∈ head :: nodes := by
  rcases h with ⟨-, rfl⟩ | ⟨-, rfl⟩
  · exact firstOf_mem head nodes
  · exact List.mem_cons_self

/-- A write to a node outside the ring. -/
theorem ring_update_next (hring : Ring next prev head nodes) {node value : Node}
    (hnode : node ∉ head :: nodes) : Ring (Function.update next node value) prev head nodes :=
  hring.congr (fun _ hy ↦ Function.update_of_ne (ne_of_mem_of_not_mem hy hnode) ..) fun _ _ ↦ rfl

theorem ring_update_prev (hring : Ring next prev head nodes) {node value : Node}
    (hnode : node ∉ head :: nodes) : Ring next (Function.update prev node value) head nodes :=
  hring.congr (fun _ _ ↦ rfl) fun _ hy ↦ Function.update_of_ne (ne_of_mem_of_not_mem hy hnode) ..

/-- `next->prev = new` -/
theorem Shape.addNextPrev {new p n : Node} (h : Shape head nodes next prev (.addNextPrev new p n)) :
    Shape head nodes next (Function.update prev n new) (.addNewNext new p n) := by
  obtain ⟨hring, hnew, hend⟩ := h
  refine ⟨?_, hnew, hend, Function.update_self ..⟩
  rwa [Function.update_idem, ← hend.prev_eq hring, Function.update_eq_self]

/-- `new->next = next` -/
theorem Shape.addNewNext {new p n : Node} (h : Shape head nodes next prev (.addNewNext new p n)) :
    Shape head nodes (Function.update next new n) prev (.addNewPrev new p n) := by
  obtain ⟨hring, hnew, hend, hprevNext⟩ := h
  exact ⟨ring_update_next hring hnew, hnew, hend, hprevNext, Function.update_self ..⟩

/-- `new->prev = prev` -/
theorem Shape.addNewPrev {new p n : Node} (h : Shape head nodes next prev (.addNewPrev new p n)) :
    Shape head nodes next (Function.update prev new p) (.addPublish new p n) := by
  obtain ⟨hring, hnew, hend, hprevNext, hnextNew⟩ := h
  have hne : n ≠ new := ne_of_mem_of_not_mem hend.next_mem hnew
  refine ⟨?_, hnew, hend, by rwa [Function.update_of_ne hne], hnextNew, Function.update_self ..⟩
  rw [Function.update_comm hne.symm]
  exact ring_update_prev hring hnew

/-- The two reads of `list_del_rcu` find the neighbours. -/
theorem Shape.delReadNext {node p : Node} (h : Shape head nodes next prev (.delReadNext node p)) :
    Shape head nodes next prev (.delNextPrev node p (next node)) := by
  obtain ⟨hring, hnode, rfl⟩ := h
  obtain ⟨before, after, rfl⟩ := List.append_of_mem hnode
  exact ⟨hring, before, after, rfl, hring.prev_mem, hring.forward.next_mem⟩

/-- `next->prev = prev` -/
theorem Shape.delNextPrev {node p n : Node}
    (h : Shape head nodes next prev (.delNextPrev node p n)) :
    Shape head nodes next (Function.update prev n p) (.delPrevNext node p n) := by
  obtain ⟨hring, before, after, rfl, rfl, rfl⟩ := h
  refine ⟨?_, ⟨before, after, rfl, rfl, rfl⟩, Function.update_self ..⟩
  have hring' : Ring next prev head ((before ++ [node]) ++ after) := by simpa using hring
  have hprev : prev (firstOf head after) = node := by simpa using hring'.prev_seam
  rw [Function.update_idem]
  nth_rewrite 1 [← hprev]
  rwa [Function.update_eq_self]

/-- `node->next = node` -/
theorem Shape.initNext {node : Node} (h : Shape head nodes next prev (.initNext node)) :
    Shape head nodes (Function.update next node node) prev (.initPrev node) :=
  ⟨ring_update_next h.1 h.2.1, h.2.1, Function.update_self ..⟩

/-- `node->prev = node` -/
theorem Shape.initPrev {node : Node} (h : Shape head nodes next prev (.initPrev node)) :
    Shape head nodes next (Function.update prev node node) .idle :=
  ring_update_prev h.1 h.2.1

/-- `rcu_assign_pointer(prev->next, new)` completes an insertion at one end. -/
theorem Shape.publish {new p n : Node} (h : Shape head nodes next prev (.addPublish new p n)) :
    Shape head (new :: nodes) (Function.update next p new) prev .idle ∨
      Shape head (nodes ++ [new]) (Function.update next p new) prev .idle := by
  obtain ⟨hring, hnew, hend, hprevNext, hnextNew, hprevNew⟩ := h
  obtain ⟨before, after, rfl, rfl, rfl, hside⟩ := hend.split
  have hleft : new ≠ lastOf head before :=
    (ne_of_mem_of_not_mem (lastOf_mem_append head before after) hnew).symm
  have hinsert : Ring (Function.update next (lastOf head before) new) prev head
      (before ++ new :: after) :=
    hring.insert hnew (Function.update_self ..)
      (by rw [Function.update_of_ne hleft, hnextNew]) hprevNew hprevNext
      (fun y _ hy ↦ Function.update_of_ne hy ..) fun y _ hy ↦ (Function.update_of_ne hy ..).symm
  rcases hside with rfl | rfl
  · exact .inl hinsert
  · exact .inr (by simpa [Shape] using hinsert)

/-- `rcu_assign_pointer(prev->next, next)` takes a node out of the ring. -/
theorem Shape.unlink {node p n : Node} (h : Shape head nodes next prev (.delPrevNext node p n)) :
    ∃ before after, nodes = before ++ node :: after ∧
      Shape head (before ++ after) (Function.update next p n) prev (.initNext node) := by
  obtain ⟨hring, ⟨before, after, rfl, rfl, rfl⟩, hprevNext⟩ := h
  have hnodup := hring.forward.nodup
  have hnode : node ∉ head :: (before ++ after) := by
    simp only [List.nodup_cons, List.mem_append, List.mem_cons, List.nodup_middle] at hnodup ⊢
    tauto
  have hleft : node ≠ lastOf head before :=
    (ne_of_mem_of_not_mem (lastOf_mem_append head before after) hnode).symm
  refine ⟨before, after, rfl, hring.remove (Function.update_self ..) hprevNext
    (fun y _ hy ↦ Function.update_of_ne hy ..) fun y _ hy ↦ (Function.update_of_ne hy ..).symm,
    hnode, ?_⟩
  rw [Function.update_of_ne hleft, hring.forward.next_mem]
  exact firstOf_mem_append ..

end Shape

section Steps

variable {head : Node} {nodes : List Node} {s : State Node Unit Rid}

/-- What the next write of a call does to the elements of the ring. Only the last write of an
insertion and the last write of a deletion change them. -/
inductive Edit (pc : Pc Node) (nodes : List Node) : List Node → Prop where
  | same : Edit pc nodes nodes
  | pushFront (new prev next : Node) (hpc : pc = .addPublish new prev next) :
    Edit pc nodes (new :: nodes)
  | pushBack (new prev next : Node) (hpc : pc = .addPublish new prev next) :
    Edit pc nodes (nodes ++ [new])
  | erase (before : List Node) (node : Node) (after : List Node) (prev next : Node)
    (hpc : pc = .delPrevNext node prev next) (hnodes : nodes = before ++ node :: after) :
    Edit pc nodes (before ++ after)

/-- A node without the status of an element is not in the ring. -/
theorem Inv.notMem (h : Inv head nodes s) {n : Node} (hhead : n ≠ head)
    (hstatus : s.status n ≠ .linked) : n ∉ head :: nodes := by
  rw [List.mem_cons, ← h.linked n hhead]
  tauto

theorem Inv.callAdd (h : Inv head nodes s) {new : Node} (hidle : s.updaters () = .idle)
    (hfresh : s.status new = .fresh) (hne : new ≠ head) {pc : Pc Node}
    (hpc : pc = .addReadNext new ∨ pc = .addReadPrev new) :
    Inv head nodes ((s.setStatus new .inserting).goto () pc) := by
  have hnew := h.notMem hne (by simp [hfresh])
  have hshape := h.shape
  rw [hidle] at hshape
  refine ⟨?_, fun n hn ↦ ?_, fun r pos hpos ↦ ?_⟩
  · rcases hpc with rfl | rfl <;> simpa using ⟨hshape, hnew⟩
  · have hlinked := h.linked n hn
    simp only [State.goto_status, State.setStatus_status, Function.update_apply]
    grind
  · have := h.reader r pos hpos
    simp only [hidle, reduceCtorEq, or_false] at this
    exact .inl this

theorem Inv.callDel (h : Inv head nodes s) {node : Node} (hidle : s.updaters () = .idle)
    (hlinked : s.status node = .linked) (hne : node ≠ head) :
    Inv head nodes (s.goto () (.delReadPrev node)) := by
  have hshape := h.shape
  rw [hidle] at hshape
  refine ⟨?_, h.linked, fun r pos hpos ↦ ?_⟩
  · simpa using ⟨hshape, (h.linked node hne).mp hlinked⟩
  · have := h.reader r pos hpos
    simp only [hidle, reduceCtorEq, or_false] at this
    exact .inl this

/-- The nodes from which a reader can go on are those it may stand on. -/
theorem Inv.next_mem (h : Inv head nodes s) {r : Rid} {pos : Node}
    (hpos : (s.readers r).position = some pos) : s.next pos ∈ head :: nodes := by
  rcases h.reader r pos hpos with hmem | hinit
  · exact h.shape.cycle.next_mem_ring hmem
  · have hshape := h.shape
    rw [hinit] at hshape
    exact hshape.2.2

theorem Inv.setReader [DecidableEq Rid] (h : Inv head nodes s) (r : Rid) {pos : Node}
    (visited : List Node) (hpos : pos ∈ head :: nodes) :
    Inv head nodes (s.setReader r ⟨some pos, visited⟩) := by
  refine ⟨h.shape, h.linked, fun r' pos' hpos' ↦ ?_⟩
  by_cases hr : r' = r
  · subst hr
    simp only [State.setReader_readers, Function.update_self, Option.some.injEq] at hpos'
    exact .inl (hpos' ▸ hpos)
  · simp only [State.setReader_readers, Function.update_of_ne hr] at hpos'
    exact h.reader r' pos' hpos'

theorem Inv.recycle (h : Inv head nodes s) {node : Node} (hremoved : s.status node = .removed) :
    Inv head nodes (s.setStatus node .fresh) := by
  refine ⟨h.shape, fun n hn ↦ ?_, h.reader⟩
  have hlinked := h.linked n hn
  simp only [State.setStatus_status, Function.update_apply]
  grind

/-- Everything an updater does outside `step` keeps the elements. -/
theorem Inv.update_of_ne_step [DecidableEq Rid] (h : Inv head nodes s)
    {action : Action Node Unit Rid} (hguard : guard head s action) (hne : action ≠ .step ()) :
    Inv head nodes (update head s action) := by
  cases action with
  | callAdd u new => exact h.callAdd hguard.1 hguard.2.1 hguard.2.2 (.inl rfl)
  | callAddTail u new => exact h.callAdd hguard.1 hguard.2.1 hguard.2.2 (.inr rfl)
  | callDel u node => exact h.callDel hguard.1 hguard.2.1 hguard.2.2
  | step u => exact absurd rfl hne
  | start r =>
    exact h.setReader r [] (h.shape.cycle.next_mem_ring List.mem_cons_self)
  | advance r =>
    obtain ⟨pos, hpos, -⟩ := hguard
    simp only [update, readerStep, hpos]
    exact h.setReader r _ (h.next_mem hpos)
  | recycle node => exact h.recycle hguard.1

/-- A reader on the node being unlinked is the only one that the next write can strand. -/
def State.Parked (s : State Node Unit Rid) : Prop :=
  ∃ r node, s.updaters () = .initNext node ∧ (s.readers r).position = some node

/-- A write that leaves the elements as they are. -/
theorem Inv.of_shape (h : Inv head nodes s) (hparked : ¬ s.Parked) {next prev : Node → Node}
    {pc : Pc Node} (hshape : Shape head nodes next prev pc) :
    Inv head nodes { s with next, prev, updaters := Function.update s.updaters () pc } := by
  refine ⟨by simpa using hshape, h.linked, fun r pos hpos ↦ ?_⟩
  rcases h.reader r pos hpos with hmem | hinit
  · exact .inl hmem
  · exact absurd ⟨r, pos, hinit, hpos⟩ hparked

/-- The write that completes an insertion at either end. -/
theorem Inv.publish (h : Inv head nodes s) {new p n : Node}
    (hpc : s.updaters () = .addPublish new p n) :
    ∃ nodes', (nodes' = new :: nodes ∨ nodes' = nodes ++ [new]) ∧
      Inv head nodes' (((s.setNext p new).setStatus new .linked).goto () .idle) := by
  have hshape := h.shape
  rw [hpc] at hshape
  have key : ∀ nodes', (∀ x, x ∈ nodes' ↔ x = new ∨ x ∈ nodes) →
      Shape head nodes' (Function.update s.next p new) s.prev .idle →
      Inv head nodes' (((s.setNext p new).setStatus new .linked).goto () .idle) := by
    intro nodes' hmem hshape'
    refine ⟨by simpa using hshape', fun x hx ↦ ?_, fun r pos hpos ↦ ?_⟩
    · have hlinked := h.linked x hx
      simp only [State.goto_status, State.setStatus_status, State.setNext_status,
        Function.update_apply, hmem]
      grind
    · have := h.reader r pos hpos
      simp only [hpc, reduceCtorEq, or_false, List.mem_cons] at this
      simp only [List.mem_cons, hmem]
      tauto
  rcases hshape.publish with hshape' | hshape'
  · exact ⟨_, .inl rfl, key _ (by simp) hshape'⟩
  · exact ⟨_, .inr rfl, key _ (by simp [or_comm]) hshape'⟩

/-- The write that takes a node out. -/
theorem Inv.unlink (h : Inv head nodes s) {node p n : Node}
    (hpc : s.updaters () = .delPrevNext node p n) :
    ∃ before after, nodes = before ++ node :: after ∧ Inv head (before ++ after)
      (((s.setNext p n).setStatus node .removed).goto () (.initNext node)) := by
  have hshape := h.shape
  rw [hpc] at hshape
  obtain ⟨before, after, rfl, hshape'⟩ := hshape.unlink
  have hnode : node ∉ head :: (before ++ after) := hshape'.2.1
  refine ⟨before, after, rfl, by simpa using hshape', fun x hx ↦ ?_, fun r pos hpos ↦ ?_⟩
  · have hlinked := h.linked x hx
    simp only [State.goto_status, State.setStatus_status, State.setNext_status,
      Function.update_apply]
    grind
  · have := h.reader r pos hpos
    simp only [hpc, reduceCtorEq, or_false] at this
    simp only [State.goto_updaters, Function.update_self]
    grind

/-- The step lemma: a write that strands no reader keeps the ring, up to one element. -/
theorem Inv.step (h : Inv head nodes s) (hbusy : s.updaters () ≠ .idle) (hparked : ¬ s.Parked) :
    ∃ nodes', Edit (s.updaters ()) nodes nodes' ∧ Inv head nodes' (updaterStep head s ()) := by
  have hshape := h.shape
  unfold updaterStep
  cases hpc : s.updaters () with
  | idle => exact absurd hpc hbusy
  | addReadNext new =>
    rw [hpc] at hshape
    exact ⟨nodes, .same, h.of_shape hparked
      ⟨hshape.1, hshape.2, .inl ⟨rfl, hshape.1.forward.next_head⟩⟩⟩
  | addReadPrev new =>
    rw [hpc] at hshape
    exact ⟨nodes, .same, h.of_shape hparked
      ⟨hshape.1, hshape.2, .inr ⟨hshape.1.prev_head, rfl⟩⟩⟩
  | addNextPrev new p n =>
    rw [hpc] at hshape
    exact ⟨nodes, .same, h.of_shape hparked hshape.addNextPrev⟩
  | addNewNext new p n =>
    rw [hpc] at hshape
    exact ⟨nodes, .same, h.of_shape hparked hshape.addNewNext⟩
  | addNewPrev new p n =>
    rw [hpc] at hshape
    exact ⟨nodes, .same, h.of_shape hparked hshape.addNewPrev⟩
  | addPublish new p n =>
    obtain ⟨nodes', rfl | rfl, hinv⟩ := h.publish hpc
    · exact ⟨_, .pushFront new p n rfl, hinv⟩
    · exact ⟨_, .pushBack new p n rfl, hinv⟩
  | delReadPrev node =>
    rw [hpc] at hshape
    exact ⟨nodes, .same, h.of_shape hparked ⟨hshape.1, hshape.2, rfl⟩⟩
  | delReadNext node p =>
    rw [hpc] at hshape
    exact ⟨nodes, .same, h.of_shape hparked hshape.delReadNext⟩
  | delNextPrev node p n =>
    rw [hpc] at hshape
    exact ⟨nodes, .same, h.of_shape hparked hshape.delNextPrev⟩
  | delPrevNext node p n =>
    obtain ⟨before, after, hnodes, hinv⟩ := h.unlink hpc
    exact ⟨_, .erase before node after p n rfl hnodes, hinv⟩
  | initNext node =>
    rw [hpc] at hshape
    exact ⟨nodes, .same, h.of_shape hparked hshape.initNext⟩
  | initPrev node =>
    rw [hpc] at hshape
    exact ⟨nodes, .same, h.of_shape hparked hshape.initPrev⟩

/-- `list_init_rcu` makes the empty ring. -/
theorem init_listInitRcu [DecidableEq Rid] (head : Node)
    (hstatus : ∀ n, n ≠ head → s.status n ≠ .linked) (hidle : ∀ u, s.updaters u = .idle)
    (hreader : ∀ r, (s.readers r).position = none) : (machine head).init (listInitRcu head s) := by
  refine ⟨⟨[], ⟨Cycle.nil_iff.mpr ?_, Cycle.nil_iff.mpr ?_⟩, fun n hn ↦ ?_⟩, hidle, hreader⟩
  · simp [listInitRcu]
  · simp [listInitRcu]
  · simpa [listInitRcu] using hstatus n hn

theorem exists_inv_of_init [DecidableEq Rid] (h : (machine head).init s) :
    ∃ nodes, Inv head nodes s := by
  obtain ⟨⟨nodes, hring, hlinked⟩, hidle, hreader⟩ := h
  refine ⟨nodes, by simpa [hidle, Shape] using hring, hlinked, fun r pos hpos ↦ ?_⟩
  rw [hreader] at hpos
  cases hpos

end Steps

end ParallelPrograms.RcuList
