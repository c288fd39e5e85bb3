import ParallelPrograms.HazardPointer.Refinement

/-!
# One call of `hp_retirelist` among other threads

A scan is not a snapshot: the slots change while a call goes through them. A round that deletes
its pointer has loaded every slot during the call, and each load found another value. A pointer
that one slot holds during the whole call is therefore not deleted.

The loop writes to the list that it walks. A round writes to its own cell only, so every round
judges what its cell held when the loop began, and a pointer that no slot holds during the call is
deleted as often as it occurs.
-/

namespace ParallelPrograms.HazardPointer

open Concurrency

variable {s : State} {t : Tid} {ptr value : Ptr} {during : List Action}

/-- Thread `t` is in a call of `hp_retirelist` and starts no other. Other threads do anything. -/
def WithinCall (t : Tid) (a : Action) : Prop :=
  a.tid = t → a = .load t ∨ ∃ obj, a = .delete t obj

/-- `hp_retirelist(hp, ptr)` by thread `t`, and `during` until it has returned or later. -/
structure RetireCall (t : Tid) (ptr : Ptr) (s : State) (during : List Action) : Prop where
  legal : machine.Legal s (.retire t ptr :: during)
  within : ∀ a ∈ during, WithinCall t a

/-- `p` holds in all states of the call, from its first store on. -/
def Throughout (t : Tid) (ptr : Ptr) (s : State) (during : List Action) (p : State → Prop) : Prop :=
  ∀ before, before <+: during →
    (machine.final s (.retire t ptr :: before)).threads t ≠ .idle →
      p (machine.final s (.retire t ptr :: before))

/-- The round of the outer loop. -/
def Pc.round : Pc → ℕ
  | scanning i _ _ => i
  | idle | clearing _ => hpMaxThreadRl

/-! ## The steps of a call -/

/-- What a step of a call does to its thread. -/
inductive CallStep (t : Tid) (s : State) (a : Action) : Prop where
  | other (htid : a.tid ≠ t) (hpc : (update s a).threads t = s.threads t)
      (hrl : (update s a).rl t = s.rl t)
  | pass (i : ℕ) (obj : Ptr) (slot : Tid × Fin hpMaxPtr) (rest : List (Tid × Fin hpMaxPtr))
      (ha : a = .load t) (hbefore : s.threads t = .scanning i obj (slot :: rest))
      (hne : s.hp slot.1 slot.2 ≠ obj) (hpc : (update s a).threads t = .scanning i obj rest)
      (hrl : (update s a).rl t = s.rl t)
  | keep (i : ℕ) (obj : Ptr) (slot : Tid × Fin hpMaxPtr) (rest : List (Tid × Fin hpMaxPtr))
      (ha : a = .load t) (hbefore : s.threads t = .scanning i obj (slot :: rest))
      (heq : s.hp slot.1 slot.2 = obj) (hpc : (update s a).threads t = .visit (s.rl t) (i + 1))
      (hrl : (update s a).rl t = s.rl t)
  | delete (i : ℕ) (obj : Ptr) (ha : a = .delete t obj)
      (hbefore : s.threads t = .scanning i obj [])
      (hpc : (update s a).threads t = .visit ((s.rl t).compact i) (i + 1))
      (hrl : (update s a).rl t = (s.rl t).compact i)

theorem call_step {a : Action} (hguard : guard s a) (hwithin : WithinCall t a) :
    CallStep t s a := by
  by_cases htid : a.tid = t
  · rcases hwithin htid with rfl | ⟨obj, rfl⟩
    · obtain ⟨-, i, obj, slot, rest, hbefore⟩ := hguard
      by_cases heq : s.hp slot.1 slot.2 = obj
      · apply CallStep.keep i obj slot rest rfl hbefore heq <;> grind [update]
      · apply CallStep.pass i obj slot rest rfl hbefore heq <;> grind [update]
    · obtain ⟨-, i, hbefore⟩ := hguard
      apply CallStep.delete i obj rfl hbefore <;> grind [update]
  · obtain ⟨hpc, hrl⟩ := others_step hguard htid
    exact .other htid hpc hrl

/-- The induction over a call in which `p` holds throughout. -/
theorem RetireCall.induction (h : RetireCall t ptr s during) {p : State → Prop}
    (hall : Throughout t ptr s during p) (inv : List Action → State → Prop)
    (hstart : inv [] (update s (.retire t ptr)))
    (hstep : ∀ history s' a, inv history s' → CallStep t s' a → (s'.threads t ≠ .idle → p s') →
      inv (history ++ [a]) (update s' a)) :
    inv during (machine.final s (.retire t ptr :: during)) := by
  have hmeets : machine.Meets (fun _ a ↦ WithinCall t a) (update s (.retire t ptr)) during :=
    h.legal.2.meets fun _ a ha _ ↦ h.within a ha
  have hinv := machine.meets_induction (fun history s' ↦
    Throughout t ptr s history p → inv history s') (fun _ ↦ hstart) ?_ h.legal.2 hmeets
  · exact hinv hall
  · intro history a _ ih hguard hwithin hall
    have hnow : (machine.final s (.retire t ptr :: history)).threads t ≠ .idle → _ :=
      hall history (List.prefix_append ..)
    have hbefore := ih fun before hbefore ↦ hall before (hbefore.trans (List.prefix_append ..))
    exact hstep history _ a hbefore (call_step hguard hwithin) hnow

/-- What every step of the call keeps holds throughout. -/
theorem RetireCall.throughout (h : RetireCall t ptr s during) {p : State → Prop}
    (hstart : p (update s (.retire t ptr)))
    (hstep : ∀ s', ∀ a ∈ during, guard s' a → p s' → p (update s' a)) :
    Throughout t ptr s during p := by
  intro before hbefore _
  obtain ⟨-, hduring⟩ := h.legal
  have hlegal := hduring.of_prefix hbefore
  have hmeets : machine.Meets (fun _ a ↦ a ∈ during) (update s (.retire t ptr)) before :=
    hlegal.meets fun _ a ha _ ↦ hbefore.subset ha
  exact Machine.meets_induction (fun _ s' ↦ p s') hstart
    (fun _ a _ ih hguard ha ↦ hstep _ a ha hguard ih) hlegal hmeets

/-- The call stores `ptr` at the end of the list, and starts with round `0`. -/
theorem retire_step (hsize : (s.rl t).size ≤ 126) :
    (update s (.retire t ptr)).threads t = .visit ((s.rl t).push ptr) 0 ∧
      (update s (.retire t ptr)).rl t = (s.rl t).push ptr := by
  have hroom : (s.rl t).size + 1 < hpMaxThreadRl := by
    change (s.rl t).size + 1 < 128
    omega
  have hpush : ((s.rl t).push ptr).size = (s.rl t).size + 1 := RetireList.push_size hroom
  simp only [update, if_pos (hpush ▸ hroom)]
  exact ⟨Function.update_self .., Function.update_self ..⟩

/-! ## Pointers that a slot holds -/

/-- A scan of the call that has `value` in its hand is still before the slot. -/
def Ahead (t j : Tid) (k : Fin hpMaxPtr) (value : Ptr) (s : State) : Prop :=
  ∀ i rest, s.threads t = .scanning i value rest → (j, k) ∈ rest

theorem Ahead.of_visit {j : Tid} {k : Fin hpMaxPtr} {rl : RetireList} {i : ℕ}
    (hpc : s.threads t = .visit rl i) : Ahead t j k value s := by
  intro i' rest hscan
  rw [hpc] at hscan
  obtain ⟨-, -, rfl⟩ := Pc.visit_eq_scanning hscan
  exact mem_slots (j, k)

/-- A scan does not get past the slot with the pointer that the slot holds. -/
theorem Ahead.update {j : Tid} {k : Fin hpMaxPtr} (h : Ahead t j k value s) {a : Action}
    (hstep : CallStep t s a) (hslot : s.threads t ≠ .idle → s.hp j k = value) :
    Ahead t j k value (update s a) := by
  cases hstep with
  | other _ hpc _ =>
    intro i rest hscan
    exact h i rest (hpc ▸ hscan)
  | pass i obj slot rest _ hbefore hne hpc _ =>
    intro i' rest' hscan
    rw [hpc] at hscan
    obtain ⟨rfl, rfl, rfl⟩ : i = i' ∧ obj = value ∧ rest = rest' := by
      simpa using hscan
    -- the slot that the load has just passed does not hold the pointer
    rcases List.mem_cons.mp (h i _ hbefore) with heq | hmem
    · rw [← heq, hslot (by rw [hbefore]; nofun)] at hne
      exact absurd rfl hne
    · exact hmem
  | keep i obj slot rest _ _ _ hpc _ => exact .of_visit hpc
  | delete i obj _ _ hpc _ => exact .of_visit hpc

theorem Ahead.ne_delete {j : Tid} {k : Fin hpMaxPtr} (h : Ahead t j k value s) {a : Action}
    (hstep : CallStep t s a) : a ≠ .delete t value := by
  rintro rfl
  cases hstep with
  | other htid _ _ => exact htid rfl
  | pass i obj slot rest ha | keep i obj slot rest ha => cases ha
  | delete i obj ha hbefore _ _ =>
    cases ha
    exact List.not_mem_nil (h i [] hbefore)

/-- A pointer in one slot during the whole call is not deleted by the call. -/
theorem RetireCall.not_delete (h : RetireCall t ptr s during) (hsize : (s.rl t).size ≤ 126)
    {j : Tid} {k : Fin hpMaxPtr} (hheld : Throughout t ptr s during fun s' ↦ s'.hp j k = value) :
    .delete t value ∉ during := by
  have hinv := h.induction hheld
    (fun history s' ↦ .delete t value ∉ history ∧ Ahead t j k value s') ?_ ?_
  · exact hinv.1
  · exact ⟨List.not_mem_nil, .of_visit (retire_step hsize).1⟩
  · rintro history s' a ⟨hnot, hahead⟩ hstep hslot
    refine ⟨?_, hahead.update hstep hslot⟩
    rw [List.mem_append, List.mem_singleton, not_or]
    exact ⟨hnot, (hahead.ne_delete hstep).symm⟩

/-! ## Pointers that no slot holds -/

/-- The cells that the call has not visited hold what they held when the loop began. -/
structure Visiting (t : Tid) (list : ℕ → Ptr) (s : State) : Prop where
  hand : ∀ i obj rest, s.threads t = .scanning i obj rest → i < hpMaxThreadRl ∧ obj = list i
  calling : ∀ rest, s.threads t ≠ .clearing rest
  ahead : ∀ j, (s.threads t).round ≤ j → j < hpMaxThreadRl → (s.rl t).list j = list j

theorem Pc.round_visit {rl : RetireList} {i : ℕ} (hi : i ≤ hpMaxThreadRl) :
    (Pc.visit rl i).round = i := by
  unfold Pc.visit
  split_ifs with hlt
  · rfl
  · exact le_antisymm (not_lt.mp hlt) hi

/-- A round starts. -/
theorem Visiting.of_visit {list : ℕ → Ptr} {rl : RetireList} {i : ℕ} (hi : i ≤ hpMaxThreadRl)
    (hpc : s.threads t = .visit rl i) (hrl : s.rl t = rl)
    (hahead : ∀ j, i ≤ j → j < hpMaxThreadRl → rl.list j = list j) : Visiting t list s where
  hand i' obj rest hscan := by
    rw [hpc] at hscan
    obtain ⟨rfl, rfl, -⟩ := Pc.visit_eq_scanning hscan
    have hi' : i' < hpMaxThreadRl := by
      by_contra hge
      rw [Pc.visit, if_neg hge] at hscan
      cases hscan
    exact ⟨hi', hahead i' le_rfl hi'⟩
  calling rest hclearing := by
    rw [hpc, Pc.visit] at hclearing
    split_ifs at hclearing
  ahead j := by
    rw [hpc, hrl, Pc.round_visit hi]
    exact hahead j

/-- A round writes to no cell after its own. -/
theorem Visiting.update {list : ℕ → Ptr} (h : Visiting t list s) {a : Action}
    (hstep : CallStep t s a) : Visiting t list (update s a) := by
  cases hstep with
  | other _ hpc hrl =>
    constructor
    · rw [hpc]
      exact h.hand
    · rw [hpc]
      exact h.calling
    · rw [hpc, hrl]
      exact h.ahead
  | pass i obj slot rest _ hbefore _ hpc hrl =>
    have hhand := h.hand i obj _ hbefore
    have hahead := h.ahead
    constructor <;> grind [Pc.round]
  | keep i obj slot rest _ hbefore _ hpc hrl =>
    have hi := (h.hand i obj _ hbefore).1
    apply Visiting.of_visit hi hpc hrl
    intro j hj
    apply h.ahead
    rw [hbefore]
    exact (Nat.le_succ i).trans hj
  | delete i obj _ hbefore hpc hrl =>
    have hi := (h.hand i obj _ hbefore).1
    apply Visiting.of_visit hi hpc hrl
    intro j hj
    rw [RetireList.compact_list, if_neg (Nat.ne_of_gt hj)]
    apply h.ahead
    rw [hbefore]
    exact (Nat.le_succ i).trans hj

theorem RetireCall.visiting (hsize : (s.rl t).size ≤ 126) :
    Visiting t ((s.rl t).push ptr).list (update s (.retire t ptr)) := by
  obtain ⟨hpc, hrl⟩ : (update s (.retire t ptr)).threads t = .visit ((s.rl t).push ptr) 0 ∧
      (update s (.retire t ptr)).rl t = (s.rl t).push ptr := retire_step hsize
  exact .of_visit (Nat.zero_le _) hpc hrl fun _ _ _ ↦ rfl

/-- A round that no slot stops deletes what its cell held when the loop began. -/
theorem Visiting.count_step {list : ℕ → Ptr} (h : Visiting t list s) {a : Action}
    (hstep : CallStep t s a) (hclear : s.threads t ≠ .idle → ∀ j k, s.hp j k ≠ value) :
    ((List.range ((HazardPointer.update s a).threads t).round).map list).count value =
      ((List.range (s.threads t).round).map list).count value +
        [a].count (.delete t value) := by
  cases hstep with
  | other htid hpc _ =>
    have hne : a ≠ .delete t value := by
      rintro rfl
      exact htid rfl
    rw [hpc, List.count_singleton, if_neg (by simpa using hne), Nat.add_zero]
  | pass i obj slot rest ha hbefore _ hpc _ =>
    rw [hpc, hbefore, ha]
    rfl
  | keep i obj slot rest ha hbefore heq hpc _ =>
    obtain ⟨hi, hobj⟩ := h.hand i obj _ hbefore
    have hne : list i ≠ value := by
      rw [← hobj, ← heq]
      exact hclear (by rw [hbefore]; nofun) slot.1 slot.2
    rw [hpc, Pc.round_visit hi, hbefore, ha, Pc.round, List.range_succ, List.map_append,
      List.count_append, List.map_singleton, List.count_singleton, if_neg (by simpa using hne)]
    rfl
  | delete i obj ha hbefore hpc _ =>
    obtain ⟨hi, hobj⟩ := h.hand i obj _ hbefore
    rw [hpc, Pc.round_visit hi, hbefore, ha, Pc.round, List.range_succ, List.map_append,
      List.count_append, List.map_singleton, List.count_singleton, List.count_singleton, hobj]
    simp

/-- A pointer in no slot during the call has been deleted once for each cell that held it when the
loop began, as far as the loop has got. -/
theorem RetireCall.count_delete (h : RetireCall t ptr s during) (hsize : (s.rl t).size ≤ 126)
    (hclear : Throughout t ptr s during fun s' ↦ ∀ j k, s'.hp j k ≠ value) :
    during.count (.delete t value) =
      ((List.range ((machine.final s (.retire t ptr :: during)).threads t).round).map
        ((s.rl t).push ptr).list).count value := by
  have hinv := h.induction hclear (fun history s' ↦ Visiting t ((s.rl t).push ptr).list s' ∧
    history.count (.delete t value) =
      ((List.range (s'.threads t).round).map ((s.rl t).push ptr).list).count value) ?_ ?_
  · exact hinv.2
  · refine ⟨RetireCall.visiting hsize, ?_⟩
    rw [(retire_step hsize).1, Pc.round_visit (Nat.zero_le _)]
    rfl
  · rintro history s' a ⟨hvisiting, hcount⟩ hstep hnone
    refine ⟨hvisiting.update hstep, ?_⟩
    rw [List.count_append, hcount, hvisiting.count_step hstep hnone]

/-! ## The end of a call -/

/-- The accesses that a call has still to make, at most. -/
def Pc.accesses : Pc → ℕ
  | scanning i _ rest => (hpMaxThreadRl - (i + 1)) * (slots.length + 1) + rest.length + 1
  | idle | clearing _ => 0

theorem Pc.accesses_visit (rl : RetireList) (i : ℕ) :
    (Pc.visit rl i).accesses = (hpMaxThreadRl - i) * (slots.length + 1) := by
  unfold Pc.visit
  split_ifs with hi
  · rw [Pc.accesses, Nat.add_assoc, ← Nat.succ_mul]
    congr 1
    omega
  · rw [Nat.sub_eq_zero_of_le (not_lt.mp hi), Nat.zero_mul]
    rfl

/-- Every access of the call leaves fewer of them. -/
theorem CallStep.accesses {a : Action} (hstep : CallStep t s a) :
    [a].countP (·.tid = t) + ((update s a).threads t).accesses ≤ (s.threads t).accesses := by
  cases hstep with
  | other htid hpc _ =>
    rw [hpc, List.countP_singleton, if_neg (by simpa using htid), Nat.zero_add]
  | pass i obj slot rest ha hbefore _ hpc _ =>
    rw [hpc, hbefore, ha]
    simp only [Pc.accesses, List.countP_singleton, List.length_cons, Action.tid, decide_true,
      if_true]
    omega
  | keep i obj slot rest ha hbefore _ hpc _ =>
    rw [hpc, hbefore, ha, Pc.accesses_visit]
    simp only [Pc.accesses, List.countP_singleton, List.length_cons, Action.tid, decide_true,
      if_true]
    omega
  | delete i obj ha hbefore hpc _ =>
    rw [hpc, hbefore, ha, Pc.accesses_visit]
    simp only [Pc.accesses, List.countP_singleton, Action.tid, decide_true, if_true]
    omega

/-- The call makes a bounded number of accesses. -/
theorem RetireCall.countP_le (h : RetireCall t ptr s during) (hsize : (s.rl t).size ≤ 126) :
    during.countP (·.tid = t) ≤ hpMaxThreadRl * (slots.length + 1) := by
  have hinv := h.induction (p := fun _ ↦ True) (fun _ _ _ ↦ trivial) (fun history s' ↦
    history.countP (·.tid = t) + (s'.threads t).accesses ≤
      hpMaxThreadRl * (slots.length + 1)) ?_ ?_
  · omega
  · rw [(retire_step hsize).1, Pc.accesses_visit, List.countP_nil, Nat.zero_add, Nat.sub_zero]
  · intro history s' a ih hstep _
    have hfewer := hstep.accesses
    rw [List.countP_append]
    omega

/-- Until it returns the call has a next access. -/
theorem RetireCall.exists_access (h : RetireCall t ptr s during) (hsize : (s.rl t).size ≤ 126)
    (hidle : (machine.final s (.retire t ptr :: during)).threads t ≠ .idle)
    (haborted : (machine.final s (.retire t ptr :: during)).aborted = false) :
    ∃ a, a.tid = t ∧ guard (machine.final s (.retire t ptr :: during)) a := by
  have hvisiting := h.induction (p := fun _ ↦ True) (fun _ _ _ ↦ trivial)
    (fun _ s' ↦ Visiting t ((s.rl t).push ptr).list s') (RetireCall.visiting hsize)
    fun _ _ _ ih hstep _ ↦ ih.update hstep
  generalize machine.final s (.retire t ptr :: during) = s' at *
  cases hpc : s'.threads t with
  | idle => exact absurd hpc hidle
  | clearing rest => exact absurd hpc (hvisiting.calling rest)
  | scanning i obj rest =>
    cases rest with
    | nil => exact ⟨.delete t obj, rfl, haborted, i, hpc⟩
    | cons slot rest => exact ⟨.load t, rfl, haborted, i, obj, slot, rest, hpc⟩

/-- **A call of `hp_retirelist` among other threads**, with room for one more pointer. A pointer
that one slot holds during the whole call is not deleted. Once the call has returned, every
pointer that was pending, and `ptr`, has been deleted if no slot held it at any time in the call.
The call returns after a bounded number of accesses. -/
theorem retire_call_scans (hsize : (s.rl t).size ≤ 126) (hcall : RetireCall t ptr s during) :
    (∀ value j k, Throughout t ptr s during (fun s' ↦ s'.hp j k = value) →
      .delete t value ∉ during) ∧
    ((machine.final s (.retire t ptr :: during)).threads t = .idle →
      ∀ value ∈ (s.rl t).entries ++ [ptr],
        Throughout t ptr s during (fun s' ↦ ∀ j k, s'.hp j k ≠ value) →
          .delete t value ∈ during) ∧
    during.countP (·.tid = t) ≤ hpMaxThreadRl * (slots.length + 1) ∧
    ((machine.final s (.retire t ptr :: during)).aborted = false →
      (machine.final s (.retire t ptr :: during)).threads t ≠ .idle →
        ∃ a, a.tid = t ∧ guard (machine.final s (.retire t ptr :: during)) a) := by
  refine ⟨fun value j k hheld ↦ hcall.not_delete hsize hheld, fun hidle value hvalue hclear ↦ ?_,
    hcall.countP_le hsize, fun haborted hidle ↦ hcall.exists_access hsize hidle haborted⟩
  have hroom : (s.rl t).size + 1 < hpMaxThreadRl := by
    change (s.rl t).size + 1 < 128
    omega
  have hcount := hcall.count_delete hsize hclear
  rw [hidle] at hcount
  rw [← RetireList.push_entries hroom, RetireList.entries] at hvalue
  have hcell : value ∈ (List.range hpMaxThreadRl).map ((s.rl t).push ptr).list := by
    apply List.map_subset _ _ hvalue
    intro i hi
    rw [RetireList.push_size hroom, List.mem_range] at hi
    exact List.mem_range.mpr (hi.trans hroom)
  apply List.count_pos_iff.mp
  rw [hcount]
  exact List.count_pos_iff.mpr hcell

/-- In its first call thread `2` has kept `5`, which thread `0` protects. -/
def keptState : State := machine.final hpNew (.protect 0 0 5 :: keptCall)

/-- In a second call it keeps `5` again and deletes `6`. Meanwhile thread `1` protects another
pointer. -/
def duringSecond : List Action :=
  .load 2 :: .protect 1 0 7 :: loads 2 slots ++ .delete 2 6 :: List.replicate 252 (.load 2)

theorem retire_call_scans_protected :
    (machine.final keptState (.retire 2 6 :: duringSecond)).threads 2 = .idle ∧
      .delete 2 5 ∉ duringSecond ∧ .delete 2 6 ∈ duringSecond := by
  have hactions : ∀ a ∈ duringSecond, a = .load 2 ∨ a = .protect 1 0 7 ∨ a = .delete 2 6 := by
    decide +kernel
  have hcall : RetireCall 2 6 keptState duringSecond := by
    refine ⟨by decide +kernel, fun a ha htid ↦ ?_⟩
    rcases hactions a ha with rfl | rfl | rfl
    · exact .inl rfl
    · cases htid
    · exact .inr ⟨6, rfl⟩
  have hidle : (machine.final keptState (.retire 2 6 :: duringSecond)).threads 2 = .idle := by
    decide +kernel
  have hpending : 6 ∈ (keptState.rl 2).entries ++ [6] := List.mem_append_right _ List.mem_cons_self
  obtain ⟨hkept, hdeleted, -⟩ := retire_call_scans (by decide +kernel) hcall
  refine ⟨hidle, hkept 5 0 0 (hcall.throughout ?_ ?_),
    hdeleted hidle 6 hpending (hcall.throughout ?_ ?_)⟩
  · decide +kernel
  · intro s a ha hguard
    rcases hactions a ha with rfl | rfl | rfl <;> grind [update, guard]
  · decide +kernel
  · intro s a ha hguard
    rcases hactions a ha with rfl | rfl | rfl <;> grind [update, guard]

end ParallelPrograms.HazardPointer
