import ParallelPrograms.HazardPointer.Ledger
import ParallelPrograms.HazardPointer.Protection

/-!
# The calls of one thread as interleavings

The functions `hpRetirelist` and `step` describe calls that run without interruption. Here every
such call is a sequence of actions of the machine, in which the same thread takes all steps: the
slots, the list and the deleted pointers come out the same.
-/

namespace ParallelPrograms.HazardPointer

open Concurrency

def Action.tid : Action → Tid
  | protect t _ _ | callClear t | clearStore t | fence t | retire t _ | load t | delete t _ => t

/-- What an action leaves of a thread that does not take it. -/
theorem others_step {s : State} {t : Tid} {a : Action} (hguard : guard s a) (ha : a.tid ≠ t) :
    (update s a).threads t = s.threads t ∧ (update s a).rl t = s.rl t := by
  cases a <;> grind [update, Action.tid, guard]

/-- The arguments of `delete_func` in a history. -/
def deletions (history : List Action) : List Ptr :=
  history.filterMap fun
    | .delete _ obj => some obj
    | _ => none

/-- Thread `t` can go from `s` to `s'` alone, and deletes the pointers `deleted` on the way. -/
def Reaches (t : Tid) (s s' : State) (deleted : List Ptr) : Prop :=
  ∃ history, machine.Legal s history ∧ machine.final s history = s' ∧
    deletions history = deleted ∧ ∀ a ∈ history, a.tid = t

section Reaches

variable {t : Tid} {s s' s'' : State} {deleted deleted' : List Ptr}

theorem Reaches.refl (t : Tid) (s : State) : Reaches t s s [] :=
  ⟨[], trivial, rfl, rfl, by simp⟩

theorem Reaches.trans (h : Reaches t s s' deleted) (h' : Reaches t s' s'' deleted') :
    Reaches t s s'' (deleted ++ deleted') := by
  obtain ⟨first, hfirst, rfl, rfl, htid⟩ := h
  obtain ⟨second, hsecond, rfl, rfl, htid'⟩ := h'
  refine ⟨first ++ second, (machine.legal_append ..).mpr ⟨hfirst, hsecond⟩,
    machine.final_append .., List.filterMap_append, fun a ha ↦ ?_⟩
  rcases List.mem_append.mp ha with ha | ha
  · exact htid a ha
  · exact htid' a ha

theorem Reaches.single {a : Action} (hguard : guard s a) :
    Reaches a.tid s (update s a) (deletions [a]) :=
  ⟨[a], ⟨hguard, trivial⟩, rfl, rfl, by simp⟩

end Reaches

/-- What thread `t` sees: the slots, its own list and its own position. -/
structure State.Sees (s : State) (t : Tid) (hp : Table) (rl : RetireList) (pc : Pc) : Prop where
  aborted : s.aborted = false
  hp : s.hp = hp
  rl : s.rl t = rl
  pc : s.threads t = pc

/-- Alone, thread `t` gets from every state of the first view to some state of the second. -/
def Leads (t : Tid) (hp : Table) (rl : RetireList) (pc : Pc) (deleted : List Ptr) (hp' : Table)
    (rl' : RetireList) (pc' : Pc) : Prop :=
  ∀ s : State, s.Sees t hp rl pc → ∃ s' : State, s'.Sees t hp' rl' pc' ∧ Reaches t s s' deleted

section Leads

variable {t : Tid} {hp hp' hp'' : Table} {rl rl' rl'' : RetireList} {pc pc' pc'' : Pc}
  {deleted deleted' : List Ptr}

theorem Leads.refl : Leads t hp rl pc [] hp rl pc := fun s hs ↦ ⟨s, hs, .refl t s⟩

theorem Leads.trans (h : Leads t hp rl pc deleted hp' rl' pc')
    (h' : Leads t hp' rl' pc' deleted' hp'' rl'' pc'') :
    Leads t hp rl pc (deleted ++ deleted') hp'' rl'' pc'' := by
  intro s hs
  obtain ⟨s', hs', hreaches⟩ := h s hs
  obtain ⟨s'', hs'', hreaches'⟩ := h' s' hs'
  exact ⟨s'', hs'', hreaches.trans hreaches'⟩

/-- A single action. -/
theorem Leads.single {a : Action} (htid : a.tid = t)
    (h : ∀ s : State, s.Sees t hp rl pc → guard s a ∧ (update s a).Sees t hp' rl' pc') :
    Leads t hp rl pc (deletions [a]) hp' rl' pc' := by
  subst htid
  exact fun s hs ↦ ⟨update s a, (h s hs).2, .single (h s hs).1⟩

end Leads

section Calls

variable {t : Tid} {hp : Table} {rl : RetireList}

/-! ## The loops of `hp_retirelist` -/

/-- The loads up to the slot that holds the pointer, or through all slots. -/
theorem leads_scan (t : Tid) (hp : Table) (rl : RetireList) (i : ℕ) (obj : Ptr)
    (rest : List (Tid × Fin hpMaxPtr)) :
    Leads t hp rl (.scanning i obj rest) [] hp rl
      (if rest.all fun slot ↦ hp slot.1 slot.2 != obj then .scanning i obj []
        else .visit rl (i + 1)) := by
  induction rest with
  | nil => exact .refl
  | cons slot rest ih =>
    by_cases hslot : hp slot.1 slot.2 = obj
    · rw [if_neg (by simp [hslot])]
      refine Leads.single (a := .load t) rfl fun s hs ↦
        ⟨⟨hs.aborted, i, obj, slot, rest, hs.pc⟩, ?_⟩
      have hstep : update s (.load t) = s.goto t (.visit rl (i + 1)) := by
        simp only [update, hs.pc, hs.hp, hs.rl, if_pos hslot]
      rw [hstep]
      exact ⟨hs.aborted, hs.hp, hs.rl, Function.update_self ..⟩
    · have hload : Leads t hp rl (.scanning i obj (slot :: rest)) [] hp rl
          (.scanning i obj rest) := by
        refine Leads.single (a := .load t) rfl fun s hs ↦
          ⟨⟨hs.aborted, i, obj, slot, rest, hs.pc⟩, ?_⟩
        have hstep : update s (.load t) = s.goto t (.scanning i obj rest) := by
          simp only [update, hs.pc, hs.hp, if_neg hslot]
        rw [hstep]
        exact ⟨hs.aborted, hs.hp, hs.rl, Function.update_self ..⟩
      simpa [hslot] using hload.trans ih

/-- Round `i` of the outer loop. -/
theorem leads_visit (t : Tid) (hp : Table) (rl : RetireList) {i : ℕ} (hi : i < hpMaxThreadRl) :
    Leads t hp rl (.visit rl i) (visit hp (rl, []) i).2 hp (visit hp (rl, []) i).1
      (.visit (visit hp (rl, []) i).1 (i + 1)) := by
  have hscan := leads_scan t hp rl i (rl.list i) slots
  rw [Pc.visit, if_pos hi]
  unfold visit
  by_cases hfree : freeable hp (rl.list i)
  · have hdelete : Leads t hp rl (.scanning i (rl.list i) []) [rl.list i] hp (rl.compact i)
        (.visit (rl.compact i) (i + 1)) := by
      refine Leads.single (a := .delete t (rl.list i)) rfl fun s hs ↦ ⟨⟨hs.aborted, i, hs.pc⟩, ?_⟩
      have hstep : update s (.delete t (rl.list i)) =
          (s.setRl t (rl.compact i)).goto t (.visit (rl.compact i) (i + 1)) := by
        simp only [update, hs.pc, hs.rl]
      rw [hstep]
      exact ⟨hs.aborted, hs.hp, Function.update_self .., Function.update_self ..⟩
    rw [← freeable, if_pos hfree] at hscan
    simpa only [if_pos hfree, List.nil_append] using hscan.trans hdelete
  · rw [← freeable, if_neg hfree] at hscan
    simpa only [if_neg hfree] using hscan

theorem visit_append (deleted : List Ptr) (i : ℕ) :
    visit hp (rl, deleted) i = ((visit hp (rl, []) i).1, deleted ++ (visit hp (rl, []) i).2) := by
  unfold visit
  split_ifs <;> simp

/-- The rounds before round `i`. -/
theorem leads_sweep (t : Tid) (hp : Table) (rl : RetireList) {i : ℕ} (hi : i ≤ hpMaxThreadRl) :
    Leads t hp rl (.visit rl 0) (sweep hp rl i).2 hp (sweep hp rl i).1
      (.visit (sweep hp rl i).1 i) := by
  induction i with
  | zero => exact .refl
  | succ i ih =>
    have hround := leads_visit t hp (sweep hp rl i).1 (Nat.lt_of_succ_le hi)
    rw [sweep_succ, ← Prod.mk.eta (p := sweep hp rl i), visit_append]
    exact (ih (Nat.le_of_succ_le hi)).trans hround

/-! ## Whole calls -/

/-- A call of `hp_retirelist` whose assertion holds. -/
theorem leads_retire {ptr : Ptr} {rl' : RetireList} {deleted : List Ptr}
    (hcall : hpRetirelist hp rl ptr = some (rl', deleted)) :
    Leads t hp rl .idle deleted hp rl' .idle := by
  rw [hpRetirelist] at hcall
  split_ifs at hcall with hsize
  rw [Option.some.injEq] at hcall
  have hretire : Leads t hp rl .idle [] hp (rl.push ptr) (.visit (rl.push ptr) 0) := by
    refine Leads.single (a := .retire t ptr) rfl fun s hs ↦ ⟨⟨hs.aborted, hs.pc⟩, ?_⟩
    have hstep : update s (.retire t ptr) =
        (s.setRl t (rl.push ptr)).goto t (.visit (rl.push ptr) 0) := by
      simp only [update, hs.rl, if_pos hsize]
    rw [hstep]
    exact ⟨hs.aborted, hs.hp, Function.update_self .., Function.update_self ..⟩
  have hsweep := leads_sweep t hp (rl.push ptr) le_rfl
  rw [hcall] at hsweep
  have hidle : Pc.visit rl' hpMaxThreadRl = .idle := if_neg (lt_irrefl _)
  rw [hidle] at hsweep
  exact hretire.trans hsweep

/-- The stores of `hp_protect_clear` from some slot on. -/
theorem leads_clear (t : Tid) (hp : Table) (rl : RetireList) (rest : List (Tid × Fin hpMaxPtr)) :
    Leads t hp rl (.clearing rest) [] (fun j k ↦ if (j, k) ∈ rest then 0 else hp j k) rl .idle := by
  induction rest generalizing hp with
  | nil =>
    refine Leads.single (a := .fence t) rfl fun s hs ↦ ⟨⟨hs.aborted, hs.pc⟩, ?_⟩
    simp only [List.not_mem_nil, if_false]
    exact ⟨hs.aborted, hs.hp, hs.rl, Function.update_self ..⟩
  | cons slot rest ih =>
    let stored : Table :=
      Function.update hp slot.1 (Function.update (hp slot.1) slot.2 0)
    have hstore : Leads t hp rl (.clearing (slot :: rest)) [] stored rl (.clearing rest) := by
      refine Leads.single (a := .clearStore t) rfl fun s hs ↦
        ⟨⟨hs.aborted, slot, rest, hs.pc⟩, ?_⟩
      have hstep : update s (.clearStore t) =
          (s.setSlot slot.1 slot.2 0).goto t (.clearing rest) := by simp only [update, hs.pc]
      rw [hstep]
      exact ⟨hs.aborted, by simp [State.goto, State.setSlot, stored, hs.hp], hs.rl,
        Function.update_self ..⟩
    have hcleared : (fun j k ↦ if (j, k) ∈ slot :: rest then 0 else hp j k) =
        fun j k ↦ if (j, k) ∈ rest then 0 else stored j k := by
      funext j k
      simp only [stored, Function.update_apply, List.mem_cons, Prod.ext_iff]
      grind [Function.update_apply]
    rw [hcleared]
    exact hstore.trans (ih stored)

/-- One call. -/
theorem leads_step {call : Call} {start result : Solo} (hcall : step t start call = some result) :
    ∃ deleted, result.deleted = start.deleted ++ deleted ∧
      Leads t start.hp start.rl .idle deleted result.hp result.rl .idle := by
  cases call with
  | protectRelease k ptr =>
    obtain rfl := Option.some.inj hcall
    refine ⟨[], by simp, Leads.single (a := .protect t k ptr) rfl fun s hs ↦
      ⟨⟨hs.aborted, hs.pc⟩, hs.aborted, ?_, hs.rl, hs.pc⟩⟩
    simp [update, State.setSlot, hs.hp]
  | protectClear =>
    obtain rfl := Option.some.inj hcall
    have hbegin : Leads t start.hp start.rl .idle [] start.hp start.rl (.clearing slots) :=
      Leads.single (a := .callClear t) rfl fun s hs ↦
        ⟨⟨hs.aborted, hs.pc⟩, hs.aborted, hs.hp, hs.rl, Function.update_self ..⟩
    refine ⟨[], by simp, ?_⟩
    simpa [mem_slots] using hbegin.trans (leads_clear t start.hp start.rl slots)
  | retirelist ptr =>
    obtain ⟨⟨rl', deleted⟩, hretire, rfl⟩ := Option.map_eq_some_iff.mp hcall
    exact ⟨deleted, rfl, leads_retire hretire⟩

/-- **The machine runs the calls of one thread.** -/
theorem leads_run {calls : List Call} {start result : Solo}
    (hrun : run t start calls = some result) :
    ∃ deleted, result.deleted = start.deleted ++ deleted ∧
      Leads t start.hp start.rl .idle deleted result.hp result.rl .idle := by
  induction calls generalizing start with
  | nil =>
    obtain rfl := Option.some.inj hrun
    exact ⟨[], by simp, .refl⟩
  | cons call calls ih =>
    obtain ⟨middle, hcall, hcalls⟩ := Option.bind_eq_some_iff.mp hrun
    obtain ⟨first, hfirst, hleads⟩ := leads_step hcall
    obtain ⟨second, hsecond, hleads'⟩ := ih hcalls
    exact ⟨first ++ second, by rw [hsecond, hfirst, List.append_assoc], hleads.trans hleads'⟩

end Calls

end ParallelPrograms.HazardPointer
