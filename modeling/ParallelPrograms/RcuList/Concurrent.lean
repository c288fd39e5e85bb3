import ParallelPrograms.RcuList.TailCalls

/-!
# When concurrent insertions lose no element

Two insertions disturb each other in two ways. One may store to `head->prev` after the other has
read it, so that both have the same predecessor, and only one of them stays reachable. Or one may
publish its node in a predecessor that has not yet set its own `next` pointer, and that store then
takes the node off the ring again. When neither happens, the ring holds the nodes in the order of
the stores to `head->prev`. When one of them happens, a node is lost for good.
-/

namespace ParallelPrograms.RcuList

open Concurrency LinkedList

variable {Node Uid Rid : Type*} {head : Node} {called before after : List Node}
  {log : List (Node × Node)} {s : State Node Uid Rid} {n p new prev : Node}

/-- At the store to `next->prev` that pointer is the one that was read, and at the publishing store
the predecessor points to `next`. -/
def Undisturbed (s : State Node Uid Rid) : Action Node Uid Rid → Prop
  | .step u => match s.updaters u with
    | .addNextPrev _ prev next => s.prev next = prev
    | .addPublish _ prev next => s.next prev = next
    | _ => True
  | _ => True

/-- The ring from the head contains each of `nodes` exactly once, along `next` and along `prev`. -/
def Complete (head : Node) (nodes : List Node) (s : State Node Uid Rid) : Prop :=
  (∃ ring, Cycle s.next head ring ∧ ∀ n, n ∈ ring ↔ n ∈ nodes) ∧
    ∃ ring, Cycle s.prev head ring ∧ ∀ n, n ∈ ring ↔ n ∈ nodes

/-- `n` was published in `p` too early: its pointer is going to be overwritten, or has been, unless
another node has the same predecessor. -/
def Overtaken (head n p : Node) (log : List (Node × Node)) (s : State Node Uid Rid) : Prop :=
  s.status n = .linked ∧ ((∃ u q, s.updaters u = .addNewNext p q head) ∨ s.next p = head ∨
    ∃ m, m ≠ n ∧ (m, p) ∈ log)

/-- Insertions that have not disturbed each other. -/
structure Chained (head : Node) (log : List (Node × Node)) (s : State Node Uid Rid) : Prop where
  lastOf : ∀ before n p after, log = before ++ (n, p) :: after → p = lastOf head (stored before)
  published : ∀ n p, (n, p) ∈ log → s.status n = .linked → s.next p = n
  pending : ∀ u n p, s.updaters u = .addNewNext n p head → s.next n = n

theorem exists_of_stored_eq (h : stored log = before ++ n :: after) :
    ∃ first p second, log = first ++ (n, p) :: second ∧ stored first = before := by
  obtain ⟨first, rest, rfl, hfirst, hrest⟩ := List.map_eq_append_iff.mp h
  obtain ⟨⟨_, p⟩, second, rfl, rfl, -⟩ := List.map_eq_cons_iff.mp hrest
  exact ⟨first, p, second, rfl, hfirst⟩

section Finished

theorem Tracked.linked_of_ne_fresh (h : Tracked head called log s)
    (hidle : ∀ u, s.updaters u = .idle) (hfresh : s.status n ≠ .fresh) : s.status n = .linked := by
  cases hstatus : s.status n with
  | fresh => exact absurd hstatus hfresh
  | inserting =>
    obtain ⟨u, hu⟩ := (h.calls.inserting n).mp hstatus
    rw [hidle u] at hu
    cases hu
  | linked => rfl
  | removed => exact absurd hstatus (h.calls.kept n)

/-- Without a call under way, the nodes of the calls are those that have been stored. -/
theorem Tracked.mem_stored_iff (h : Tracked head called log s)
    (hidle : ∀ u, s.updaters u = .idle) : n ∈ stored log ↔ n ∈ called := by
  rw [h.calls.called n]
  constructor
  · exact h.stores.called n
  · intro hfresh
    exact h.stores.linked n (h.linked_of_ne_fresh hidle hfresh)

theorem Tracked.prev_eq (h : Tracked head called log s) (hidle : ∀ u, s.updaters u = .idle)
    (hmem : (n, p) ∈ log) : s.prev n = p := by
  obtain hprev | ⟨u, hu⟩ := h.pointers.prev_stored n p hmem
  · exact hprev
  · simp [hidle u] at hu

theorem Tracked.next_eq (h : Tracked head called log s) (hidle : ∀ u, s.updaters u = .idle)
    (hmem : n ∈ head :: stored log) : s.next n = head ∨ (s.next n, n) ∈ log := by
  obtain hhead | ⟨-, u, p, hu⟩ | ⟨m, hm, -, hnext⟩ := h.pointers.next_stored n hmem
  · exact .inl hhead
  · simp [hidle u] at hu
  · rw [hnext]
    exact .inr hm

/-- Finished insertions that have not disturbed each other form a ring. -/
theorem Tracked.ring_of_chained (h : Tracked head called log s)
    (hidle : ∀ u, s.updaters u = .idle) (hchained : Chained head log s) :
    Ring s.next s.prev head (stored log) where
  backward := by
    apply Cycle.of_lastOf h.stores.nodup h.pointers.prev_head
    intro before n after hsplit
    obtain ⟨first, p, second, rfl, rfl⟩ := exists_of_stored_eq hsplit
    rw [h.prev_eq hidle (List.mem_append_right _ List.mem_cons_self)]
    exact hchained.lastOf first n p second rfl
  forward := by
    refine ⟨h.stores.nodup, fun before after hsplit ↦ ?_⟩
    cases after with
    | nil =>
      rw [List.append_nil] at hsplit
      rw [← hsplit]
      obtain hhead | hm := h.next_eq hidle (lastOf_mem head (stored log))
      · exact hhead
      · -- a node after the last one
        obtain ⟨first, second, hlog⟩ := List.append_of_mem hm
        have hlast := hchained.lastOf first _ _ second hlog
        have hnodup := h.stores.nodup
        rw [hlog, stored_append, stored_cons] at hlast hnodup
        exact absurd hlast.symm (Cycle.lastOf_ne_lastOf hnodup)
    | cons n after =>
      obtain ⟨first, p, second, rfl, rfl⟩ := exists_of_stored_eq hsplit
      have hmem : (n, p) ∈ first ++ (n, p) :: second := by simp
      rw [← hchained.lastOf first n p second rfl, firstOf_cons]
      apply hchained.published n p hmem
      exact h.linked_of_ne_fresh hidle (h.stores.called n (mem_stored.mpr ⟨p, hmem⟩))

/-- What comes later than an earlier element. -/
theorem mem_after {l first second : List Node} {m : Node} (hnodup : l.Nodup)
    (hn : l = before ++ n :: after) (hm : l = first ++ m :: second) (hmem : n ∈ first) :
    m ∈ after := by
  subst hn
  rcases List.append_eq_append_iff.mp hm with ⟨c, rfl, hc⟩ | ⟨c, rfl, hc⟩
  · rcases List.cons_eq_append_iff.mp hc with ⟨rfl, -⟩ | ⟨c, rfl, rfl⟩
    · rw [List.append_nil] at hmem
      exact absurd rfl ((List.nodup_append.mp hnodup).2.2 n hmem n List.mem_cons_self)
    · simp
  · have hc' : n ∈ c ++ n :: after := by simp
    rw [List.append_assoc] at hnodup
    exact absurd rfl ((List.nodup_append.mp hnodup).2.2 n hmem n hc')

/-- The rings along both pointers can only run in the order of the stores. -/
theorem Tracked.ring_of_complete (h : Tracked head called log s)
    (hidle : ∀ u, s.updaters u = .idle) (hcomplete : Complete head called s) :
    Ring s.next s.prev head (stored log) := by
  obtain ⟨⟨forward, hforward, hmemForward⟩, backward, hbackward, hmemBackward⟩ := hcomplete
  have hnodup := (List.nodup_cons.mp h.stores.nodup).2
  rw [← List.reverse_reverse forward] at hforward
  rw [← List.reverse_reverse backward] at hbackward
  have hback : backward.reverse = stored log := by
    apply hbackward.eq_of_earlier
    · intro x
      rw [List.mem_reverse, hmemBackward, h.mem_stored_iff hidle]
    · exact hnodup
    · intro before x after hsplit
      obtain ⟨first, p, second, rfl, rfl⟩ := exists_of_stored_eq hsplit
      rw [h.prev_eq hidle (List.mem_append_right _ List.mem_cons_self)]
      exact h.stores.earlier first x p second rfl
  have hforth : forward.reverse = (stored log).reverse := by
    apply hforward.eq_of_earlier
    · intro x
      rw [List.mem_reverse, List.mem_reverse, hmemForward, h.mem_stored_iff hidle]
    · exact List.nodup_reverse.mpr hnodup
    · intro before x after hsplit
      have hstored : stored log = after.reverse ++ x :: before.reverse := by
        rw [List.reverse_eq_iff.mp hsplit]
        simp
      have hx : x ∈ stored log := by simp [hstored]
      obtain hhead | hmem := h.next_eq hidle (List.mem_cons_of_mem _ hx)
      · exact List.mem_cons.mpr (.inl hhead)
      · obtain ⟨first, second, hlog⟩ := List.append_of_mem hmem
        have hfirst := h.stores.earlier first _ x second hlog
        have hnext : stored log = stored first ++ s.next x :: stored second := by
          rw [hlog, stored_append, stored_cons]
        have hne : x ≠ head := by
          intro heq
          rw [heq] at hx
          exact (List.nodup_cons.mp h.stores.nodup).1 hx
        have hlater := mem_after hnodup hstored hnext
          ((List.mem_cons.mp hfirst).resolve_left hne)
        exact List.mem_cons_of_mem _ (List.mem_reverse.mp hlater)
  rw [hforth, List.reverse_reverse] at hforward
  rw [hback] at hbackward
  exact ⟨hforward, hbackward⟩

/-- In a complete ring a predecessor points to the node that was published in it. -/
theorem Tracked.next_of_ring (h : Tracked head called log s) (hidle : ∀ u, s.updaters u = .idle)
    (hring : Ring s.next s.prev head (stored log)) (hmem : (n, p) ∈ log) : s.next p = n := by
  obtain ⟨first, second, rfl⟩ := List.append_of_mem hmem
  have hprev := h.prev_eq hidle hmem
  simp only [stored_append, stored_cons] at hring
  rw [hring.prev_mem] at hprev
  rw [← hprev]
  exact hring.forward.seam _ _ rfl

theorem Tracked.chained_of_ring {before' after' : List (Node × Node)}
    (h : Tracked head called log s) (hidle : ∀ u, s.updaters u = .idle)
    (hring : Ring s.next s.prev head (stored log)) (hlog : log = before' ++ (n, p) :: after') :
    p = lastOf head (stored before') := by
  have hprev := h.prev_eq hidle (hlog ▸ List.mem_append_right _ List.mem_cons_self)
  subst hlog
  simp only [stored_append, stored_cons] at hring
  rw [← hprev, hring.prev_mem]

/-- A node that was published too early is not in a complete ring. -/
theorem Tracked.not_overtaken (h : Tracked head called log s) (hidle : ∀ u, s.updaters u = .idle)
    (hring : Ring s.next s.prev head (stored log)) (hmem : (n, p) ∈ log) :
    ¬ Overtaken head n p log s := by
  have hnext := h.next_of_ring hidle hring hmem
  intro ⟨_, hlost⟩
  obtain ⟨u, q, hu⟩ | hhead | ⟨m, hne, hm⟩ := hlost
  · rw [hidle u] at hu
    cases hu
  · exact h.stores.ne_head hmem (hnext.symm.trans hhead)
  · exact hne ((h.next_of_ring hidle hring hm).symm.trans hnext)

end Finished

section Steps

variable [DecidableEq Node] [DecidableEq Uid] {u : Uid}

omit [DecidableEq Node] in
/-- An access that leaves the `next` pointers alone and ends no call. -/
theorem Chained.goto {s' : State Node Uid Rid} {pc : Pc Node} (h : Chained head log s)
    (hnext : s'.next = s.next) (hlinked : ∀ n, s'.status n = .linked → s.status n = .linked)
    (hupdaters : s'.updaters = Function.update s.updaters u pc)
    (hpc : ∀ n p, pc ≠ .addNewNext n p head) : Chained head log s' := by
  constructor
  · exact h.lastOf
  · intro n p hnp hn
    rw [hnext]
    exact h.published n p hnp (hlinked n hn)
  · intro v n p hv
    rw [hnext]
    rw [hupdaters, Function.update_apply] at hv
    split_ifs at hv
    · exact absurd hv (hpc n p)
    · exact h.pending v n p hv

theorem Chained.callAddTail (h : Chained head log s) :
    Chained head log ((s.setStatus new .inserting).goto u (.addReadPrev new)) := by
  refine h.goto rfl (fun n hn ↦ ?_) rfl (by simp)
  rw [State.goto_status, State.setStatus_status, Function.update_apply] at hn
  split_ifs at hn
  exact hn

/-- A call stores to `head->prev` what it has read there. -/
theorem Chained.addNextPrev (h : Chained head log s) (htracked : Tracked head called log s)
    (hu : s.updaters u = .addNextPrev new prev head) (hprev : s.prev head = prev) :
    Chained head (log ++ [(new, prev)])
      ((s.setPrev head new).goto u (.addNewNext new prev head)) := by
  have hnode : (s.updaters u).node? = some new := by rw [hu]; rfl
  constructor
  · intro before n p after hsplit
    obtain ⟨heq, rfl⟩ | ⟨rest, hrest⟩ := eq_or_of_concat_eq hsplit
    · obtain ⟨rfl, rfl⟩ := Prod.mk.inj heq
      rw [← hprev, htracked.pointers.prev_head]
    · exact h.lastOf before n p rest hrest
  · intro n p hnp hlinked
    rw [State.goto_status, State.setPrev_status] at hlinked
    rcases List.mem_append.mp hnp with hnp | hnp
    · exact h.published n p hnp hlinked
    · obtain ⟨rfl, rfl⟩ : n = new ∧ p = prev := by simpa using hnp
      exact absurd rfl (htracked.calls.ne_of_status hnode (by simp [hlinked]))
  · intro v n p hv
    rw [State.goto_next, State.setPrev_next]
    rw [State.goto_updaters, State.setPrev_updaters, Function.update_apply] at hv
    split_ifs at hv
    · -- the node is stored but its `next` pointer is still its own
      obtain ⟨rfl, rfl, -⟩ := Pc.addNewNext.inj hv
      have hpc := htracked.stores.pc u
      rw [hu] at hpc
      apply htracked.pointers.next_fresh
      rw [List.mem_cons, not_or]
      have hne : head ≠ new := htracked.calls.ne_of_status hnode (by simp [htracked.calls.head])
      exact ⟨hne.symm, hpc.1⟩
    · exact h.pending v n p hv

theorem Chained.addNewNext (h : Chained head log s) (htracked : Tracked head called log s)
    (hu : s.updaters u = .addNewNext new prev head) :
    Chained head log ((s.setNext new head).goto u (.addNewPrev new prev head)) := by
  have hnode : (s.updaters u).node? = some new := by rw [hu]; rfl
  constructor
  · exact h.lastOf
  · intro n p hnp hlinked
    rw [State.goto_status, State.setNext_status] at hlinked
    have hnext := h.published n p hnp hlinked
    have hne : p ≠ new := by
      intro heq
      rw [heq, h.pending u new prev hu] at hnext
      exact htracked.calls.ne_of_status hnode (by simp [hlinked]) hnext.symm
    rw [State.goto_next, State.setNext_next, Function.update_of_ne hne, hnext]
  · intro v n p hv
    rw [State.goto_updaters, State.setNext_updaters, Function.update_apply] at hv
    split_ifs at hv with hvu
    have hne : n ≠ new := by
      intro heq
      exact hvu (htracked.calls.unique v u new (by rw [hv, heq]; rfl) hnode)
    rw [State.goto_next, State.setNext_next, Function.update_of_ne hne]
    exact h.pending v n p hv

/-- A call publishes its node in a predecessor that points to the head. -/
theorem Chained.addPublish (h : Chained head log s) (htracked : Tracked head called log s)
    (hmem : (new, prev) ∈ log) (hnext : s.next prev = head) :
    Chained head log (((s.setNext prev new).setStatus new .linked).goto u .idle) := by
  have hnodup := (List.nodup_cons.mp htracked.stores.nodup).2
  constructor
  · exact h.lastOf
  · intro n p hnp hlinked
    simp only [State.goto_status, State.goto_next, State.setStatus_status, State.setStatus_next,
      State.setNext_status, State.setNext_next, Function.update_apply] at hlinked ⊢
    by_cases hn : n = new
    · subst hn
      rw [if_pos (eq_of_mem_log hnodup hnp hmem)]
    · rw [if_neg hn] at hlinked
      have hbefore := h.published n p hnp hlinked
      have hne : p ≠ prev := by
        intro heq
        rw [heq, hnext] at hbefore
        exact htracked.stores.ne_head hnp hbefore.symm
      rw [if_neg hne, hbefore]
  · intro v n p hv
    rw [State.goto_updaters, State.setStatus_updaters, State.setNext_updaters,
      Function.update_apply] at hv
    split_ifs at hv with hvu
    have hpending := h.pending v n p hv
    have hpc := htracked.stores.pc v
    rw [hv] at hpc
    have hne : n ≠ prev := by
      intro heq
      rw [heq, hnext, ← heq] at hpending
      exact htracked.stores.ne_head hpc.1 hpending.symm
    rw [State.goto_next, State.setStatus_next, State.setNext_next, Function.update_of_ne hne,
      hpending]

theorem Chained.step (h : Chained head log s) (htracked : Tracked head called log s)
    (hundisturbed : Undisturbed s (.step u)) :
    Chained head (noteStore log s (.step u)) (updaterStep head s u) := by
  have hpc := htracked.stores.pc u
  simp only [updaterStep, noteStore]
  cases hu : s.updaters u with
  | idle => exact h
  | addReadPrev new => exact h.goto rfl (fun _ hn ↦ hn) rfl (by simp)
  | addNextPrev new prev next =>
    rw [hu] at hpc
    obtain ⟨-, -, rfl⟩ := hpc
    simp only [Undisturbed, hu] at hundisturbed
    exact h.addNextPrev htracked hu hundisturbed
  | addNewNext new prev next =>
    rw [hu] at hpc
    obtain ⟨hmem, rfl⟩ := hpc
    exact h.addNewNext htracked hu
  | addNewPrev new prev next => exact h.goto rfl (fun _ hn ↦ hn) rfl (by simp)
  | addPublish new prev next =>
    rw [hu] at hpc
    obtain ⟨hmem, rfl⟩ := hpc
    simp only [Undisturbed, hu] at hundisturbed
    exact h.addPublish htracked hmem hundisturbed
  | _ =>
    rw [hu] at hpc
    exact hpc.elim

omit [DecidableEq Node] in
/-- An access other than `p->next = next`, which leaves `p->next` and linked nodes alone. -/
theorem Overtaken.goto {s' : State Node Uid Rid} {pc : Pc Node} {log' : List (Node × Node)}
    (h : Overtaken head n p log s) (hnext : s'.next p = s.next p)
    (hstatus : s.status n = .linked → s'.status n = .linked)
    (hupdaters : s'.updaters = Function.update s.updaters u pc)
    (hpc : ∀ q, s.updaters u ≠ .addNewNext p q head) (hlog : log ⊆ log') :
    Overtaken head n p log' s' := by
  obtain ⟨hlinked, hlost⟩ := h
  constructor
  · exact hstatus hlinked
  · obtain ⟨v, q, hv⟩ | hhead | ⟨m, hne, hm⟩ := hlost
    · have hvu : v ≠ u := by
        intro heq
        rw [heq] at hv
        exact hpc q hv
      exact .inl ⟨v, q, by rw [hupdaters, Function.update_of_ne hvu, hv]⟩
    · exact .inr (.inl (hnext.trans hhead))
    · exact .inr (.inr ⟨m, hne, hlog hm⟩)

theorem Overtaken.callAddTail (h : Overtaken head n p log s) (hidle : s.updaters u = .idle)
    (hfresh : s.status new = .fresh) :
    Overtaken head n p log ((s.setStatus new .inserting).goto u (.addReadPrev new)) := by
  refine h.goto rfl (fun hlinked ↦ ?_) rfl (by simp [hidle]) (List.Subset.refl log)
  have hne : n ≠ new := by
    intro heq
    rw [heq, hfresh] at hlinked
    cases hlinked
  rw [State.goto_status, State.setStatus_status, Function.update_of_ne hne, hlinked]

/-- The store that takes the node off the ring. -/
theorem Overtaken.addNewNext (h : Overtaken head n p log s)
    (hu : s.updaters u = .addNewNext new prev head) :
    Overtaken head n p log ((s.setNext new head).goto u (.addNewPrev new prev head)) := by
  by_cases hp : p = new
  · refine ⟨h.1, .inr (.inl ?_)⟩
    rw [State.goto_next, State.setNext_next, hp, Function.update_self]
  · refine h.goto ?_ id rfl ?_ (List.Subset.refl log)
    · rw [State.goto_next, State.setNext_next, Function.update_of_ne hp]
    · intro q hq
      rw [hu] at hq
      exact hp (Pc.addNewNext.inj hq).1.symm

/-- Another node that is published in `p` has the same predecessor. -/
theorem Overtaken.addPublish (h : Overtaken head n p log s) (hmem : (new, prev) ∈ log)
    (hne : n ≠ new) {next : Node} (hu : s.updaters u = .addPublish new prev next) :
    Overtaken head n p log (((s.setNext prev new).setStatus new .linked).goto u .idle) := by
  have hlinked : Function.update s.status new .linked n = .linked :=
    (Function.update_of_ne hne ..).trans h.1
  by_cases hp : p = prev
  · subst hp
    exact ⟨hlinked, .inr (.inr ⟨new, hne.symm, hmem⟩)⟩
  · refine h.goto ?_ (fun _ ↦ hlinked) rfl (by simp [hu]) (List.Subset.refl log)
    rw [State.goto_next, State.setStatus_next, State.setNext_next, Function.update_of_ne hp]

theorem Overtaken.step (h : Overtaken head n p log s) (htracked : Tracked head called log s) :
    Overtaken head n p (noteStore log s (.step u)) (updaterStep head s u) := by
  have hpc := htracked.stores.pc u
  simp only [updaterStep, noteStore]
  cases hu : s.updaters u with
  | idle => exact h
  | addReadPrev new => exact h.goto rfl id rfl (by simp [hu]) (List.Subset.refl log)
  | addNextPrev new prev next =>
    exact h.goto rfl id rfl (by simp [hu]) (List.subset_append_left log _)
  | addNewNext new prev next =>
    rw [hu] at hpc
    obtain ⟨-, rfl⟩ := hpc
    exact h.addNewNext hu
  | addNewPrev new prev next => exact h.goto rfl id rfl (by simp [hu]) (List.Subset.refl log)
  | addPublish new prev next =>
    rw [hu] at hpc
    have hnode : (s.updaters u).node? = some new := by rw [hu]; rfl
    exact h.addPublish hpc.1 (htracked.calls.ne_of_status hnode (by simp [h.1])) hu
  | _ =>
    rw [hu] at hpc
    exact hpc.elim

/-- Publishing in a predecessor that does not point to the head. -/
theorem Tracked.overtaken (h : Tracked head called log s) {next : Node}
    (hu : s.updaters u = .addPublish new prev next) (hnext : s.next prev ≠ next) :
    Overtaken head new prev log (updaterStep head s u) := by
  have hpc := h.stores.pc u
  rw [hu] at hpc
  obtain ⟨hmem, rfl⟩ := hpc
  have hnode : (s.updaters u).node? = some new := by rw [hu]; rfl
  have hupdate : updaterStep next s u =
      ((s.setNext prev new).setStatus new .linked).goto u .idle := by rw [updaterStep, hu]
  rw [hupdate]
  refine ⟨Function.update_self .., ?_⟩
  obtain hhead | ⟨-, v, q, hv⟩ | ⟨m, hm, hlinked, -⟩ :=
    h.pointers.next_stored prev (h.stores.prev_mem hmem)
  · exact absurd hhead hnext
  · have hne : v ≠ u := by
      intro heq
      rw [heq, hu] at hv
      cases hv
    exact .inl ⟨v, q, (Function.update_of_ne hne ..).trans hv⟩
  · have hne : m ≠ new := h.calls.ne_of_status hnode (by simp [hlinked])
    exact .inr (.inr ⟨m, hne, hm⟩)

end Steps

section Readers

variable [DecidableEq Rid] {r : Rid}

theorem Chained.readerStep (h : Chained head log s) : Chained head log (readerStep s r) := by
  unfold RcuList.readerStep
  cases (s.readers r).position with
  | none => exact h
  | some pos => exact ⟨h.lastOf, h.published, h.pending⟩

theorem Overtaken.readerStep (h : Overtaken head n p log s) :
    Overtaken head n p log (readerStep s r) := by
  unfold RcuList.readerStep
  cases (s.readers r).position with
  | none => exact h
  | some pos => exact h

end Readers

section Runs

variable [DecidableEq Node] [DecidableEq Uid] [DecidableEq Rid]
  {history : List (Action Node Uid Rid)}

/-- A later log extends an earlier one. -/
theorem stores_append (head : Node) (first second : List (Action Node Uid Rid)) :
    ∃ more, stores head (first ++ second) = stores head first ++ more := by
  induction second using List.reverseRecOn with
  | nil => exact ⟨[], by simp⟩
  | append_singleton second a ih =>
    obtain ⟨more, hmore⟩ := ih
    rw [← List.append_assoc, stores_concat, hmore]
    unfold noteStore
    split
    · split
      · exact ⟨_, List.append_assoc ..⟩
      · exact ⟨more, rfl⟩
    · exact ⟨more, rfl⟩

theorem run_chained (hlegal : (benchmark head).Legal prepared history)
    (hmeets : (benchmark head).Meets Undisturbed prepared history) :
    Chained head (stores head history) ((benchmark head).final prepared history) := by
  apply Machine.meets_induction (fun history s ↦ Chained head (stores head history) s) _ _ hlegal
    hmeets
  · constructor <;> simp [stores, prepared]
  · intro history a hhistory ih hguard hundisturbed
    rw [stores_concat]
    have htracked := run_tracked hhistory
    obtain ⟨-, hbenchmark⟩ := hguard
    cases a with
    | callAddTail u new => exact ih.callAddTail
    | step u => exact ih.step htracked hundisturbed
    | start r => exact ⟨ih.lastOf, ih.published, ih.pending⟩
    | advance r => exact ih.readerStep
    | callAdd | callDel | recycle => exact hbenchmark.elim

/-- A node that was published too early does not come back. -/
theorem legal_overtaken {first second : List (Action Node Uid Rid)}
    (hlegal : (benchmark head).Legal prepared (first ++ second))
    (hnow : Overtaken head n p (stores head first) ((benchmark head).final prepared first)) :
    Overtaken head n p (stores head (first ++ second))
      ((benchmark head).final prepared (first ++ second)) := by
  apply Machine.legal_persists (fun history s ↦ Overtaken head n p (stores head history) s) hnow _
    hlegal
  intro history a hhistory ih hguard
  rw [stores_concat]
  obtain ⟨hguard, hbenchmark⟩ := hguard
  cases a with
  | callAddTail u new =>
    obtain ⟨hidle, hfresh, -⟩ := hguard
    exact ih.callAddTail hidle hfresh
  | step u => exact ih.step (run_tracked hhistory)
  | start r => exact ih
  | advance r => exact ih.readerStep
  | callAdd | callDel | recycle => exact hbenchmark.elim

/-- A history that ends in a complete ring has met the condition at every step. -/
theorem meets_of_ring (hlegal : (benchmark head).Legal prepared history)
    (hidle : ∀ u, ((benchmark head).final prepared history).updaters u = .idle)
    (hring : Ring ((benchmark head).final prepared history).next
      ((benchmark head).final prepared history).prev head (stored (stores head history))) :
    (benchmark head).Meets Undisturbed prepared history := by
  by_contra hnot
  obtain ⟨before, a, after, rfl, -, hbad⟩ := Machine.exists_of_not_meets _ hnot
  have hfinal := run_tracked hlegal
  obtain ⟨hbefore, haction⟩ := (Machine.legal_append ..).mp hlegal
  have htracked := run_tracked hbefore
  rw [List.append_cons] at hlegal hidle hring hfinal
  obtain ⟨more, hmore⟩ := stores_append head (before ++ [a]) after
  apply hbad
  unfold Undisturbed
  split
  · rename_i u
    have hpc := htracked.stores.pc u
    split
    · rename_i new prev next hu
      rw [hu] at hpc
      obtain ⟨-, -, rfl⟩ := hpc
      have hlog : stores next (before ++ [.step u] ++ after) =
          stores next before ++ (new, prev) :: more := by
        rw [hmore, stores_concat]
        simp [noteStore, hu]
      rw [htracked.pointers.prev_head, hfinal.chained_of_ring hidle hring hlog]
    · rename_i new prev next hu
      by_contra hnext
      rw [hu] at hpc
      obtain ⟨hmem, rfl⟩ := hpc
      have hlog : stores next (before ++ [.step u]) = stores next before := by
        rw [stores_concat]
        simp [noteStore, hu]
      have hover : Overtaken next new prev (stores next (before ++ [.step u]))
          ((benchmark next).final prepared (before ++ [.step u])) := by
        rw [hlog, Machine.final_append]
        exact htracked.overtaken hu hnext
      apply hfinal.not_overtaken hidle hring _ (legal_overtaken hlegal hover)
      rw [hmore, hlog]
      exact List.mem_append_left _ hmem
    · trivial
  · trivial

/-- **Concurrent insertions lose no element exactly when they do not disturb each other.** -/
theorem complete_iff_undisturbed (hlegal : (benchmark head).Legal prepared history)
    (hidle : ∀ u, ((benchmark head).final prepared history).updaters u = .idle) :
    Complete head (added history) ((benchmark head).final prepared history) ↔
      (benchmark head).Meets Undisturbed prepared history := by
  have htracked := run_tracked hlegal
  constructor
  · intro hcomplete
    exact meets_of_ring hlegal hidle (htracked.ring_of_complete hidle hcomplete)
  · intro hmeets
    have hring := htracked.ring_of_chained hidle (run_chained hlegal hmeets)
    refine ⟨⟨_, hring.forward, fun n ↦ htracked.mem_stored_iff hidle⟩, _, hring.backward, ?_⟩
    intro n
    rw [List.mem_reverse, htracked.mem_stored_iff hidle]

/-- One insertion after the other. -/
def serialHistory : List (Action ℕ Bool Unit) :=
  [.callAddTail false 1, .step false, .step false, .step false, .step false, .step false,
    .callAddTail true 2, .step true, .step true, .step true, .step true, .step true]

theorem complete_serial :
    Complete 0 [1, 2] ((benchmark 0).final prepared serialHistory) := by
  have hlegal : (benchmark 0).Legal prepared serialHistory := by decide
  have hmeets : (benchmark 0).Meets Undisturbed prepared serialHistory :=
    ⟨trivial, trivial, rfl, trivial, trivial, rfl, trivial, trivial, rfl, trivial, trivial, rfl,
      trivial⟩
  exact (complete_iff_undisturbed hlegal (by decide)).mpr hmeets

/-- Both calls read `head->prev` before one of them stores to it. -/
def overlappingHistory : List (Action ℕ Bool Unit) :=
  [.callAddTail false 1, .callAddTail true 2, .step false, .step true, .step false, .step false,
    .step false, .step false, .step true, .step true, .step true, .step true]

/-- The node that was published first is lost. -/
theorem insertion_lost :
    (benchmark 0).Legal prepared overlappingHistory ∧
    (∀ u, ((benchmark 0).final prepared overlappingHistory).updaters u = .idle) ∧
    added overlappingHistory = [1, 2] ∧
    ¬ Complete 0 (added overlappingHistory) ((benchmark 0).final prepared overlappingHistory) := by
  refine ⟨by decide, by decide, rfl, ?_⟩
  intro ⟨⟨ring, hcycle, hmem⟩, _⟩
  have hone : 1 ∈ ring := (hmem 1).mpr (by decide)
  obtain ⟨before, after, rfl⟩ := List.append_of_mem hone
  have hseam := hcycle.seam before (1 :: after) rfl
  have hlast := lastOf_mem_append 0 before (1 :: after)
  rw [List.mem_cons, hmem] at hlast
  -- no pointer leads to the node
  have hnext : ∀ m ∈ [0, 1, 2], ((benchmark 0).final prepared overlappingHistory).next m ≠ 1 := by
    decide
  apply hnext _ _ hseam
  simpa [added, overlappingHistory] using hlast

end Runs

end ParallelPrograms.RcuList
