import ParallelPrograms.RcuList.Model

/-!
# Concurrent insertions at the tail

The updaters of `test_rculist.c` insert with `list_add_tail_rcu` and take no lock. Every insertion
reads `head->prev`, stores its node there, sets the two pointers of the node and publishes it in
the node that it has read. The stores to `head->prev` order the nodes, and each of them comes with
the predecessor that its call has read. What is stated here holds under every interleaving: the
predecessor is an earlier node of that order or the head, and a finished node has its `prev`
pointer on it.
-/

namespace ParallelPrograms.RcuList

open Concurrency LinkedList

variable {Node Uid Rid : Type*}

/-- The actions of threads that run `updater_side` or `reader_side`. -/
def Action.InBenchmark : Action Node Uid Rid → Prop
  | callAddTail .. | step _ | start _ | advance _ => True
  | callAdd .. | callDel .. | recycle _ => False

/-- The nodes of the calls of `list_add_tail_rcu`. -/
def added (history : List (Action Node Uid Rid)) : List Node :=
  history.filterMap fun
    | .callAddTail _ new => some new
    | _ => none

/-- Every node is as `list_init_rcu` leaves it, and no thread has started. -/
def prepared : State Node Uid Rid where
  next := id
  prev := id
  status _ := .fresh
  updaters _ := .idle
  readers _ := ⟨none, []⟩

/-- A store to `head->prev`, with the predecessor that its call has read. -/
def noteStore (log : List (Node × Node)) (s : State Node Uid Rid) :
    Action Node Uid Rid → List (Node × Node)
  | .step u => match s.updaters u with
    | .addNextPrev new prev _ => log ++ [(new, prev)]
    | _ => log
  | _ => log

/-- The nodes in the order of their stores. -/
def stored (log : List (Node × Node)) : List Node := log.map Prod.fst

@[simp] theorem stored_nil : stored ([] : List (Node × Node)) = [] := rfl

@[simp] theorem stored_append (log log' : List (Node × Node)) :
    stored (log ++ log') = stored log ++ stored log' := List.map_append

@[simp] theorem stored_cons (n p : Node) (log : List (Node × Node)) :
    stored ((n, p) :: log) = n :: stored log := rfl

theorem mem_stored {log : List (Node × Node)} {n : Node} :
    n ∈ stored log ↔ ∃ p, (n, p) ∈ log := by
  simp [stored]

/-- A node is stored with one predecessor. -/
theorem eq_of_mem_log {log : List (Node × Node)} {n p p' : Node}
    (hnodup : (stored log).Nodup) (hp : (n, p) ∈ log) (hp' : (n, p') ∈ log) : p = p' :=
  congrArg Prod.snd (List.inj_on_of_nodup_map hnodup hp hp' rfl)

@[simp] theorem added_nil : added ([] : List (Action Node Uid Rid)) = [] := rfl

theorem added_concat (history : List (Action Node Uid Rid)) (a : Action Node Uid Rid) :
    added (history ++ [a]) = added history ++ added [a] := List.filterMap_append

/-- What is known of an updater in `list_add_tail_rcu`. -/
def TailPc (head : Node) (log : List (Node × Node)) : Pc Node → Prop
  | .idle => True
  | .addReadPrev new => new ∉ stored log
  | .addNextPrev new prev next =>
    new ∉ stored log ∧ prev ∈ head :: stored log ∧ next = head
  | .addNewNext new prev next | .addNewPrev new prev next | .addPublish new prev next =>
    (new, prev) ∈ log ∧ next = head
  | _ => False

/-- Every node has one call, and the callers' view of it agrees with where the call is. -/
structure Calls (head : Node) (called : List Node) (s : State Node Uid Rid) : Prop where
  unique : ∀ u v n, (s.updaters u).node? = some n → (s.updaters v).node? = some n → u = v
  inserting : ∀ n, s.status n = .inserting ↔ ∃ u, (s.updaters u).node? = some n
  called : ∀ n, n ∈ called ↔ s.status n ≠ .fresh
  kept : ∀ n, s.status n ≠ .removed
  head : s.status head = .fresh

/-- The stores to `head->prev`: each node once, with an earlier node or the head before it. -/
structure Stores (head : Node) (log : List (Node × Node)) (s : State Node Uid Rid) : Prop where
  pc : ∀ u, TailPc head log (s.updaters u)
  nodup : (head :: stored log).Nodup
  called : ∀ n ∈ stored log, s.status n ≠ .fresh
  linked : ∀ n, s.status n = .linked → n ∈ stored log
  earlier : ∀ before n p after, log = before ++ (n, p) :: after → p ∈ head :: stored before

/-- The head has the node stored last in its `prev` pointer, a node the predecessor that its call
has read. A `next` pointer leads to the head or to a node that was published there, unless
`new->next = next` is still to come. -/
structure Pointers (head : Node) (log : List (Node × Node)) (s : State Node Uid Rid) : Prop where
  prev_head : s.prev head = lastOf head (stored log)
  prev_stored : ∀ n p, (n, p) ∈ log → s.prev n = p ∨
    ∃ u, s.updaters u = .addNewNext n p head ∨ s.updaters u = .addNewPrev n p head
  next_fresh : ∀ n, n ∉ head :: stored log → s.next n = n
  next_stored : ∀ n ∈ head :: stored log, s.next n = head ∨
    (s.next n = n ∧ ∃ u p, s.updaters u = .addNewNext n p head) ∨
    ∃ m, (m, n) ∈ log ∧ s.status m = .linked ∧ s.next n = m

/-- What holds in every state, however the insertions are interleaved. -/
structure Tracked (head : Node) (called : List Node) (log : List (Node × Node))
    (s : State Node Uid Rid) : Prop where
  calls : Calls head called s
  stores : Stores head log s
  pointers : Pointers head log s

section Lists

variable {head n p prev : Node} {called : List Node} {log before after : List (Node × Node)}
  {s : State Node Uid Rid}

theorem TailPc.concat {pc : Pc Node} {new prev : Node} (h : TailPc head log pc)
    (hne : pc.node? ≠ some new) : TailPc head (log ++ [(new, prev)]) pc := by
  cases pc with
  | addReadPrev n =>
    have hn : n ≠ new := by simpa [Pc.node?] using hne
    simpa [TailPc, hn] using h
  | addNextPrev n prev' next =>
    have hn : n ≠ new := by simpa [Pc.node?] using hne
    obtain ⟨hfresh, hprev, rfl⟩ := h
    refine ⟨by simpa [hn] using hfresh, ?_, rfl⟩
    rw [stored_append, ← List.cons_append]
    exact List.mem_append_left _ hprev
  | addNewNext n prev' next | addNewPrev n prev' next | addPublish n prev' next =>
    exact ⟨List.mem_append_left _ h.1, h.2⟩
  | _ => exact h

/-- The last store, or one that was there before. -/
theorem eq_or_of_concat_eq {x : Node × Node}
    (h : log ++ [x] = before ++ (n, p) :: after) :
    x = (n, p) ∧ before = log ∨ ∃ rest, log = before ++ (n, p) :: rest := by
  cases after using List.reverseRecOn with
  | nil =>
    obtain ⟨hlog, hx⟩ := List.append_inj' h rfl
    exact .inl ⟨by simpa using hx, hlog.symm⟩
  | append_singleton after y =>
    rw [← List.cons_append, ← List.append_assoc] at h
    exact .inr ⟨after, (List.append_inj' h rfl).1⟩

/-- The node of a call under way is neither the head nor a linked one. -/
theorem Calls.ne_of_status (h : Calls head called s) {u : Uid} {new : Node}
    (hnode : (s.updaters u).node? = some new) (hstatus : s.status n ≠ .inserting) : n ≠ new := by
  intro heq
  rw [heq] at hstatus
  exact hstatus ((h.inserting new).mpr ⟨u, hnode⟩)

theorem Stores.prev_mem (h : Stores head log s) (hmem : (n, prev) ∈ log) :
    prev ∈ head :: stored log := by
  obtain ⟨before, after, hlog⟩ := List.append_of_mem hmem
  rw [hlog, stored_append, ← List.cons_append]
  exact List.mem_append_left _ (h.earlier before n prev after hlog)

theorem Stores.ne_head (h : Stores head log s) (hmem : (n, prev) ∈ log) : n ≠ head := by
  intro heq
  subst heq
  exact (List.nodup_cons.mp h.nodup).1 (mem_stored.mpr ⟨prev, hmem⟩)

end Lists

section Updaters

variable [DecidableEq Uid] {head : Node} {called : List Node} {log : List (Node × Node)}
  {s s' : State Node Uid Rid} {u : Uid} {pc : Pc Node}

/-- An access inside a call. -/
theorem Calls.goto (h : Calls head called s) (hstatus : s'.status = s.status)
    (hupdaters : s'.updaters = Function.update s.updaters u pc)
    (hnode : pc.node? = (s.updaters u).node?) : Calls head called s' := by
  have hnodes : ∀ v, (s'.updaters v).node? = (s.updaters v).node? := by
    intro v
    rw [hupdaters]
    by_cases hv : v = u
    · rw [hv, Function.update_self, hnode]
    · rw [Function.update_of_ne hv]
  constructor
  · simpa only [hnodes] using h.unique
  · simpa only [hnodes, hstatus] using h.inserting
  · simpa only [hstatus] using h.called
  · simpa only [hstatus] using h.kept
  · rw [hstatus]
    exact h.head

/-- An access that stores nothing to `head->prev` and ends no call. -/
theorem Stores.goto (h : Stores head log s) (hstatus : s'.status = s.status)
    (hupdaters : s'.updaters = Function.update s.updaters u pc) (hpc : TailPc head log pc) :
    Stores head log s' := by
  constructor
  · intro v
    rw [hupdaters]
    by_cases hv : v = u
    · rw [hv, Function.update_self]
      exact hpc
    · rw [Function.update_of_ne hv]
      exact h.pc v
  · exact h.nodup
  · simpa only [hstatus] using h.called
  · simpa only [hstatus] using h.linked
  · exact h.earlier

/-- Accesses that leave the pointers alone. -/
theorem Pointers.congr (h : Pointers head log s) (hnext : s'.next = s.next)
    (hprev : s'.prev = s.prev) (hupdaters : s'.updaters = Function.update s.updaters u pc)
    (hpending : ∀ n p, s.updaters u ≠ .addNewNext n p head ∧ s.updaters u ≠ .addNewPrev n p head)
    (hlinked : ∀ n, s.status n = .linked → s'.status n = .linked) : Pointers head log s' := by
  constructor
  · rw [hprev]
    exact h.prev_head
  · intro n p hnp
    rw [hprev, hupdaters]
    simp only [Function.update_apply]
    grind [h.prev_stored n p hnp]
  · rw [hnext]
    exact h.next_fresh
  · intro n hn
    rw [hnext, hupdaters]
    simp only [Function.update_apply]
    grind [h.next_stored n hn]

end Updaters

section Steps

variable [DecidableEq Node] [DecidableEq Uid] {head new prev n : Node} {called : List Node}
  {log : List (Node × Node)} {s : State Node Uid Rid} {u : Uid}

theorem Calls.callAddTail (h : Calls head called s) (hidle : s.updaters u = .idle)
    (hfresh : s.status new = .fresh) (hne : new ≠ head) :
    Calls head (called ++ [new]) ((s.setStatus new .inserting).goto u (.addReadPrev new)) := by
  have hnew : ∀ v, (s.updaters v).node? ≠ some new := by
    intro v hv
    exact h.ne_of_status hv (by simp [hfresh]) rfl
  constructor
  · intro v w n hv hw
    simp only [State.goto_updaters, State.setStatus_updaters, Function.update_apply] at hv hw
    grind [h.unique, Pc.node?]
  · intro n
    simp only [State.goto_updaters, State.goto_status, State.setStatus_status,
      State.setStatus_updaters, Function.update_apply]
    grind [h.inserting n, Pc.node?]
  · intro n
    simp only [State.goto_status, State.setStatus_status, Function.update_apply]
    grind [h.called n]
  · intro n
    simp only [State.goto_status, State.setStatus_status, Function.update_apply]
    grind [h.kept n]
  · simp only [State.goto_status, State.setStatus_status, Function.update_of_ne hne.symm]
    exact h.head

theorem Calls.addPublish (h : Calls head called s) {next : Node}
    (hu : s.updaters u = .addPublish new prev next) :
    Calls head called (((s.setNext prev new).setStatus new .linked).goto u .idle) := by
  have hnode : (s.updaters u).node? = some new := by rw [hu]; rfl
  have hstatus := (h.inserting new).mpr ⟨u, hnode⟩
  have hne : head ≠ new := h.ne_of_status hnode (by simp [h.head])
  constructor
  · intro v w n hv hw
    simp only [State.goto_updaters, State.setStatus_updaters, State.setNext_updaters,
      Function.update_apply] at hv hw
    grind [h.unique, Pc.node?]
  · intro n
    simp only [State.goto_updaters, State.goto_status, State.setStatus_status,
      State.setStatus_updaters, State.setNext_updaters, State.setNext_status,
      Function.update_apply]
    grind [h.inserting n, h.unique, Pc.node?]
  · intro n
    simp only [State.goto_status, State.setStatus_status, State.setNext_status,
      Function.update_apply]
    grind [h.called n]
  · intro n
    simp only [State.goto_status, State.setStatus_status, State.setNext_status,
      Function.update_apply]
    grind [h.kept n]
  · simp only [State.goto_status, State.setStatus_status, State.setNext_status,
      Function.update_of_ne hne]
    exact h.head

omit [DecidableEq Uid] in
theorem Stores.setStatus (h : Stores head log s) (status : Status) (hfresh : status ≠ .fresh)
    (hlinked : status = .linked → n ∈ stored log) : Stores head log (s.setStatus n status) := by
  constructor
  · exact h.pc
  · exact h.nodup
  · intro m hm
    rw [State.setStatus_status, Function.update_apply]
    split_ifs
    · exact hfresh
    · exact h.called m hm
  · intro m hm
    rw [State.setStatus_status, Function.update_apply] at hm
    split_ifs at hm with hmn
    · rw [hmn]
      exact hlinked hm
    · exact h.linked m hm
  · exact h.earlier

/-- The store to `head->prev`. -/
theorem Stores.addNextPrev (h : Stores head log s) (hcalls : Calls head called s) {next : Node}
    (hu : s.updaters u = .addNextPrev new prev next) :
    Stores head (log ++ [(new, prev)])
      ((s.setPrev next new).goto u (.addNewNext new prev next)) := by
  have hnode : (s.updaters u).node? = some new := by rw [hu]; rfl
  have hpc := h.pc u
  rw [hu] at hpc
  obtain ⟨hfresh, hprev, rfl⟩ := hpc
  have hne : next ≠ new := hcalls.ne_of_status hnode (by simp [hcalls.head])
  constructor
  · intro v
    rw [State.goto_updaters, State.setPrev_updaters]
    by_cases hv : v = u
    · rw [hv, Function.update_self]
      exact ⟨by simp, rfl⟩
    · rw [Function.update_of_ne hv]
      exact (h.pc v).concat fun hnew ↦ hv (hcalls.unique v u new hnew hnode)
  · rw [stored_append, ← List.cons_append, List.nodup_append]
    refine ⟨h.nodup, List.nodup_singleton _, ?_⟩
    simp only [List.mem_cons, stored_cons, stored_nil, List.not_mem_nil, or_false]
    grind
  · intro n hn
    rw [stored_append, List.mem_append] at hn
    rcases hn with hn | hn
    · exact h.called n hn
    · obtain rfl : n = new := by simpa using hn
      rw [State.goto_status, State.setPrev_status, (hcalls.inserting n).mpr ⟨u, hnode⟩]
      simp
  · intro n hn
    rw [stored_append]
    exact List.mem_append_left _ (h.linked n hn)
  · intro before n p after hlog
    obtain ⟨heq, rfl⟩ | ⟨rest, hrest⟩ := eq_or_of_concat_eq hlog
    · obtain ⟨rfl, rfl⟩ := Prod.mk.inj heq
      exact hprev
    · exact h.earlier before n p rest hrest

theorem Pointers.addNextPrev (h : Pointers head log s) (hstores : Stores head log s)
    (hne : new ≠ head) (hu : s.updaters u = .addNextPrev new prev head)
    (hfresh : new ∉ stored log) :
    Pointers head (log ++ [(new, prev)])
      ((s.setPrev head new).goto u (.addNewNext new prev head)) := by
  constructor
  · simp
  · intro n p hnp
    simp only [State.goto_prev, State.goto_updaters, State.setPrev_prev, State.setPrev_updaters,
      Function.update_apply]
    rcases List.mem_append.mp hnp with hnp | hnp
    · have hn := hstores.ne_head hnp
      grind [h.prev_stored n p hnp]
    · obtain ⟨rfl, rfl⟩ : n = new ∧ p = prev := by simpa using hnp
      exact .inr ⟨u, by simp⟩
  · intro n hn
    apply h.next_fresh
    simp_all
  · intro n hn
    simp only [State.goto_next, State.goto_status, State.goto_updaters, State.setPrev_next,
      State.setPrev_status, State.setPrev_updaters, Function.update_apply]
    by_cases hnew : n = new
    · subst hnew
      exact .inr (.inl ⟨h.next_fresh n (by simp [hne, hfresh]), u, prev, by simp⟩)
    · have hmem : n ∈ head :: stored log := by simpa [hnew] using hn
      grind [h.next_stored n hmem]

theorem Pointers.addNewNext (h : Pointers head log s) (hmem : (new, prev) ∈ log)
    (hu : s.updaters u = .addNewNext new prev head) :
    Pointers head log ((s.setNext new head).goto u (.addNewPrev new prev head)) := by
  constructor
  · exact h.prev_head
  · intro n p hnp
    simp only [State.goto_prev, State.goto_updaters, State.setNext_prev, State.setNext_updaters,
      Function.update_apply]
    grind [h.prev_stored n p hnp]
  · intro n hn
    have hne : n ≠ new := by
      intro heq
      subst heq
      exact hn (List.mem_cons_of_mem _ (mem_stored.mpr ⟨prev, hmem⟩))
    rw [State.goto_next, State.setNext_next, Function.update_of_ne hne]
    exact h.next_fresh n hn
  · intro n hn
    simp only [State.goto_next, State.goto_status, State.goto_updaters, State.setNext_next,
      State.setNext_status, State.setNext_updaters, Function.update_apply]
    grind [h.next_stored n hn]

theorem Pointers.addNewPrev (h : Pointers head log s) (hstores : Stores head log s)
    (hmem : (new, prev) ∈ log) (hu : s.updaters u = .addNewPrev new prev head) :
    Pointers head log ((s.setPrev new prev).goto u (.addPublish new prev head)) := by
  have hne := hstores.ne_head hmem
  constructor
  · rw [State.goto_prev, State.setPrev_prev, Function.update_of_ne hne.symm]
    exact h.prev_head
  · intro n p hnp
    simp only [State.goto_prev, State.goto_updaters, State.setPrev_prev, State.setPrev_updaters,
      Function.update_apply]
    by_cases hn : n = new
    · subst hn
      rw [if_pos rfl]
      exact .inl (eq_of_mem_log (List.nodup_cons.mp hstores.nodup).2 hmem hnp)
    · grind [h.prev_stored n p hnp]
  · exact h.next_fresh
  · intro n hn
    simp only [State.goto_next, State.goto_status, State.goto_updaters, State.setPrev_next,
      State.setPrev_status, State.setPrev_updaters, Function.update_apply]
    grind [h.next_stored n hn]

theorem Pointers.addPublish (h : Pointers head log s) (hstores : Stores head log s)
    (hmem : (new, prev) ∈ log) {next : Node} (hu : s.updaters u = .addPublish new prev next) :
    Pointers head log (((s.setNext prev new).setStatus new .linked).goto u .idle) := by
  have hprev := hstores.prev_mem hmem
  constructor
  · exact h.prev_head
  · intro n p hnp
    simp only [State.goto_prev, State.goto_updaters, State.setStatus_prev,
      State.setStatus_updaters, State.setNext_prev, State.setNext_updaters, Function.update_apply]
    grind [h.prev_stored n p hnp]
  · intro n hn
    have hne : n ≠ prev := by
      intro heq
      subst heq
      exact hn hprev
    rw [State.goto_next, State.setStatus_next, State.setNext_next, Function.update_of_ne hne]
    exact h.next_fresh n hn
  · intro n hn
    simp only [State.goto_next, State.goto_status, State.goto_updaters, State.setStatus_next,
      State.setStatus_status, State.setStatus_updaters, State.setNext_next, State.setNext_status,
      State.setNext_updaters, Function.update_apply]
    by_cases hne : n = prev
    · subst hne
      exact .inr (.inr ⟨new, hmem, by simp⟩)
    · grind [h.next_stored n hn]

omit [DecidableEq Node] in
theorem Tracked.goto (h : Tracked head called log s) {pc : Pc Node}
    (hpc : TailPc head log pc) (hnode : pc.node? = (s.updaters u).node?)
    (hpending : ∀ n p, s.updaters u ≠ .addNewNext n p head ∧ s.updaters u ≠ .addNewPrev n p head) :
    Tracked head called log (s.goto u pc) :=
  ⟨h.calls.goto rfl rfl hnode, h.stores.goto rfl rfl hpc,
    h.pointers.congr rfl rfl rfl hpending fun _ hlinked ↦ hlinked⟩

theorem Tracked.callAddTail (h : Tracked head called log s) (hidle : s.updaters u = .idle)
    (hfresh : s.status new = .fresh) (hne : new ≠ head) :
    Tracked head (called ++ [new]) log
      ((s.setStatus new .inserting).goto u (.addReadPrev new)) := by
  have hnew : new ∉ stored log := fun hmem ↦ h.stores.called new hmem hfresh
  have hstores := h.stores.setStatus (n := new) .inserting (by simp) (by simp)
  refine ⟨h.calls.callAddTail hidle hfresh hne, hstores.goto rfl rfl hnew,
    h.pointers.congr rfl rfl rfl ?_ ?_⟩
  · intro n p
    simp [hidle]
  · intro n hn
    have hnew' : n ≠ new := by
      intro heq
      rw [heq, hfresh] at hn
      cases hn
    rw [State.goto_status, State.setStatus_status, Function.update_of_ne hnew', hn]

/-- One access of an updater. -/
theorem Tracked.step (h : Tracked head called log s) :
    Tracked head called (noteStore log s (.step u)) (updaterStep head s u) := by
  have hpc := h.stores.pc u
  simp only [updaterStep, noteStore]
  cases hu : s.updaters u with
  | idle => exact h
  | addReadPrev new =>
    rw [hu] at hpc
    have hprev : s.prev head ∈ head :: stored log := by
      rw [h.pointers.prev_head]
      exact lastOf_mem head (stored log)
    exact h.goto ⟨hpc, hprev, rfl⟩ (by rw [hu]; rfl) (by simp [hu])
  | addNextPrev new prev next =>
    have hstores := h.stores.addNextPrev h.calls hu
    rw [hu] at hpc
    obtain ⟨hfresh, -, rfl⟩ := hpc
    have hne := hstores.ne_head (n := new) (List.mem_append_right _ List.mem_cons_self)
    exact ⟨h.calls.goto rfl rfl (by rw [hu]; rfl), hstores,
      h.pointers.addNextPrev h.stores hne hu hfresh⟩
  | addNewNext new prev next =>
    rw [hu] at hpc
    obtain ⟨hmem, rfl⟩ := hpc
    exact ⟨h.calls.goto rfl rfl (by rw [hu]; rfl), h.stores.goto rfl rfl ⟨hmem, rfl⟩,
      h.pointers.addNewNext hmem hu⟩
  | addNewPrev new prev next =>
    rw [hu] at hpc
    obtain ⟨hmem, rfl⟩ := hpc
    exact ⟨h.calls.goto rfl rfl (by rw [hu]; rfl), h.stores.goto rfl rfl ⟨hmem, rfl⟩,
      h.pointers.addNewPrev h.stores hmem hu⟩
  | addPublish new prev next =>
    rw [hu] at hpc
    obtain ⟨hmem, rfl⟩ := hpc
    have hlinked := h.stores.setStatus (n := new) .linked (by simp)
      fun _ ↦ mem_stored.mpr ⟨prev, hmem⟩
    exact ⟨h.calls.addPublish hu, hlinked.goto rfl rfl trivial,
      h.pointers.addPublish h.stores hmem hu⟩
  | _ =>
    rw [hu] at hpc
    exact hpc.elim

omit [DecidableEq Node] [DecidableEq Uid] in
theorem Tracked.setReader [DecidableEq Rid] (h : Tracked head called log s) (r : Rid)
    (reader : Reader Node) : Tracked head called log (s.setReader r reader) where
  calls := ⟨h.calls.unique, h.calls.inserting, h.calls.called, h.calls.kept, h.calls.head⟩
  stores := ⟨h.stores.pc, h.stores.nodup, h.stores.called, h.stores.linked, h.stores.earlier⟩
  pointers := ⟨h.pointers.prev_head, h.pointers.prev_stored, h.pointers.next_fresh,
    h.pointers.next_stored⟩

omit [DecidableEq Node] [DecidableEq Uid] in
theorem Tracked.readerStep [DecidableEq Rid] (h : Tracked head called log s) (r : Rid) :
    Tracked head called log (readerStep s r) := by
  unfold RcuList.readerStep
  cases (s.readers r).position with
  | none => exact h
  | some pos => exact h.setReader r _

end Steps

section Runs

variable [DecidableEq Node] [DecidableEq Uid] [DecidableEq Rid] {head : Node}
  {history : List (Action Node Uid Rid)}

/-- The interleavings of the threads of `test_rculist.c`. -/
def benchmark (head : Node) : Machine (State Node Uid Rid) (Action Node Uid Rid) :=
  (machine head).when fun _ a ↦ a.InBenchmark

instance (head : Node) (s : State Node Uid Rid) (a : Action Node Uid Rid) :
    Decidable ((benchmark head).guard s a) :=
  match a with
  | .callAddTail u new =>
    inferInstanceAs (Decidable ((s.updaters u = .idle ∧ s.status new = .fresh ∧ new ≠ head) ∧ True))
  | .step u => inferInstanceAs (Decidable (s.updaters u ≠ .idle ∧ True))
  | .start r => inferInstanceAs (Decidable ((∀ pos ∈ (s.readers r).position, pos = head) ∧ True))
  | .advance r =>
    inferInstanceAs (Decidable ((∃ pos ∈ (s.readers r).position, pos ≠ head) ∧ True))
  | .callAdd _ _ | .callDel _ _ | .recycle _ => isFalse fun h ↦ h.2

/-- The stores to `head->prev` along a history, oldest first. -/
def stores (head : Node) (history : List (Action Node Uid Rid)) : List (Node × Node) :=
  (benchmark head).observe noteStore [] prepared history

theorem stores_concat (head : Node) (history : List (Action Node Uid Rid))
    (a : Action Node Uid Rid) : stores head (history ++ [a]) =
      noteStore (stores head history) ((benchmark head).final prepared history) a :=
  Machine.observe_concat ..

omit [DecidableEq Node] [DecidableEq Uid] [DecidableEq Rid] in
theorem tracked_prepared : Tracked head [] [] (prepared : State Node Uid Rid) where
  calls := by constructor <;> simp [prepared, Pc.node?]
  stores := by constructor <;> simp [prepared, TailPc]
  pointers := by constructor <;> simp [prepared]

/-- **What holds of concurrent insertions at the tail under every interleaving.** -/
theorem run_tracked (hlegal : (benchmark head).Legal prepared history) :
    Tracked head (added history) (stores head history)
      ((benchmark head).final prepared history) := by
  apply Machine.legal_induction
    (fun history s ↦ Tracked head (added history) (stores head history) s) tracked_prepared _ hlegal
  intro history a _ ih hguard
  rw [stores_concat, added_concat]
  obtain ⟨hguard, hbenchmark⟩ := hguard
  cases a with
  | callAddTail u new =>
    obtain ⟨hidle, hfresh, hne⟩ := hguard
    exact ih.callAddTail hidle hfresh hne
  | step u =>
    rw [show added [Action.step u] = ([] : List Node) from rfl, List.append_nil]
    exact ih.step
  | start r =>
    rw [show added [Action.start r] = ([] : List Node) from rfl, List.append_nil]
    exact ih.setReader r _
  | advance r =>
    rw [show added [Action.advance r] = ([] : List Node) from rfl, List.append_nil]
    exact ih.readerStep r
  | callAdd | callDel | recycle => exact hbenchmark.elim

end Runs

end ParallelPrograms.RcuList
