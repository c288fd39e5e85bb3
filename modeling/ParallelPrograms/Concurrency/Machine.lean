import Mathlib.Data.List.Induction

/-!
# Interleavings of atomic actions

A concurrent program is a set of initial states together with its atomic actions. Each action
has a guard, which says when some thread can take it, and an update, which is the state it
leads to. An interleaving is the list of the actions taken, oldest first, and every statement
about all interleavings is a statement about all legal lists. No fairness is assumed here.

A restricted machine `M.when ok` keeps only the steps that meet a condition on the state before
the step. Its runs are exactly the runs of `M` all of whose steps meet that condition.
-/

namespace ParallelPrograms.Concurrency

/-- Initial states, and for each atomic action its guard and its effect. -/
structure Machine (State Action : Type*) where
  init : State → Prop
  guard : State → Action → Prop
  update : State → Action → State

namespace Machine

variable {State Action : Type*} (M : Machine State Action)

/-- The state after the actions of `history`, taken in order. -/
def final (state : State) (history : List Action) : State := history.foldl M.update state

/-- Every action of `history` is enabled at the moment it is taken. -/
def Legal (state : State) : List Action → Prop
  | [] => True
  | action :: history => M.guard state action ∧ Legal (M.update state action) history

instance [∀ state action, Decidable (M.guard state action)] (state : State)
    (history : List Action) : Decidable (M.Legal state history) := by
  induction history generalizing state with
  | nil => exact isTrue trivial
  | cons action history ih =>
    have := ih (M.update state action)
    exact inferInstanceAs (Decidable (_ ∧ _))

@[simp]
theorem final_nil (state : State) : M.final state [] = state := rfl

@[simp]
theorem final_cons (state : State) (action : Action) (history : List Action) :
    M.final state (action :: history) = M.final (M.update state action) history := rfl

@[simp]
theorem final_append (state : State) (first second : List Action) :
    M.final state (first ++ second) = M.final (M.final state first) second :=
  List.foldl_append

@[simp]
theorem legal_nil (state : State) : M.Legal state [] := trivial

@[simp]
theorem legal_cons (state : State) (action : Action) (history : List Action) :
    M.Legal state (action :: history) ↔
      M.guard state action ∧ M.Legal (M.update state action) history := Iff.rfl

@[simp]
theorem legal_append (state : State) (first second : List Action) :
    M.Legal state (first ++ second) ↔
      M.Legal state first ∧ M.Legal (M.final state first) second := by
  induction first generalizing state with
  | nil => simp
  | cons action first ih => simp [ih, and_assoc]

variable {M} in
theorem Legal.of_prefix {first history : List Action} {state : State}
    (hlegal : M.Legal state history) (hfirst : first <+: history) : M.Legal state first := by
  obtain ⟨second, rfl⟩ := hfirst
  exact ((M.legal_append ..).mp hlegal).1

/-- `history` leads from an initial state to `state`. -/
def Run (history : List Action) (state : State) : Prop :=
  ∃ start, M.init start ∧ M.Legal start history ∧ M.final start history = state

variable {M}

theorem Run.nil {state : State} (h : M.init state) : M.Run [] state :=
  ⟨state, h, trivial, rfl⟩

theorem Run.append {history more : List Action} {state : State} (hrun : M.Run history state)
    (hmore : M.Legal state more) : M.Run (history ++ more) (M.final state more) := by
  obtain ⟨start, hinit, hlegal, rfl⟩ := hrun
  exact ⟨start, hinit, (M.legal_append start history more).mpr ⟨hlegal, hmore⟩,
    M.final_append start history more⟩

theorem Run.snoc {history : List Action} {state : State} (hrun : M.Run history state)
    (action : Action) (hguard : M.guard state action) :
    M.Run (history ++ [action]) (M.update state action) :=
  hrun.append ⟨hguard, trivial⟩

/-- A run splits at every point of its history. -/
theorem Run.split {first second : List Action} {state : State}
    (hrun : M.Run (first ++ second) state) :
    ∃ middle, M.Run first middle ∧ M.Legal middle second ∧ M.final middle second = state := by
  obtain ⟨start, hinit, hlegal, hfinal⟩ := hrun
  rw [legal_append] at hlegal
  rw [final_append] at hfinal
  exact ⟨_, ⟨start, hinit, hlegal.1, rfl⟩, hlegal.2, hfinal⟩

/-- The induction over runs: what holds initially and is kept by every enabled action of a
reached state holds at the end of every run. -/
theorem Run.induction (inv : List Action → State → Prop)
    (hinit : ∀ state, M.init state → inv [] state)
    (hstep : ∀ history state action, M.Run history state → inv history state →
      M.guard state action → inv (history ++ [action]) (M.update state action))
    {history : List Action} {state : State} (hrun : M.Run history state) :
    inv history state := by
  induction history using List.reverseRecOn generalizing state with
  | nil =>
    obtain ⟨start, hstart, -, rfl⟩ := hrun
    exact hinit start hstart
  | append_singleton history action ih =>
    obtain ⟨middle, hmiddle, ⟨hguard, -⟩, rfl⟩ := hrun.split
    exact hstep history middle action hmiddle (ih hmiddle) hguard

/-- The same rule for a property of states alone. -/
theorem Run.invariant (inv : State → Prop) (hinit : ∀ state, M.init state → inv state)
    (hstep : ∀ state action, inv state → M.guard state action → inv (M.update state action))
    {history : List Action} {state : State} (hrun : M.Run history state) : inv state :=
  Run.induction (fun _ state ↦ inv state) hinit
    (fun _ state action _ hinv hguard ↦ hstep state action hinv hguard) hrun

/-- A property that only the actions in `stop` can end persists along a run without them. -/
theorem Run.persists (keeps : State → Prop) (stop : Action → Prop)
    (hstep : ∀ history state action, M.Run history state → keeps state → ¬ stop action →
      M.guard state action → keeps (M.update state action))
    {history more : List Action} {state : State} (hrun : M.Run history state)
    (hmore : M.Legal state more) (hstop : ∀ action ∈ more, ¬ stop action)
    (hkeeps : keeps state) : keeps (M.final state more) := by
  induction more generalizing history state with
  | nil => exact hkeeps
  | cons action more ih =>
    obtain ⟨hguard, hrest⟩ := hmore
    have hnow := hstep history state action hrun hkeeps
      (hstop action List.mem_cons_self) hguard
    exact ih (hrun.snoc action hguard) hrest
      (fun later hlater ↦ hstop later (List.mem_cons_of_mem _ hlater)) hnow

/-- A property that only the actions in `stop` can end, and that has ended, was ended by one. -/
theorem Run.exists_stop (keeps : State → Prop) (stop : Action → Prop)
    (hstep : ∀ history state action, M.Run history state → keeps state → ¬ stop action →
      M.guard state action → keeps (M.update state action))
    {history more : List Action} {state : State} (hrun : M.Run history state)
    (hmore : M.Legal state more) (hkeeps : keeps state) (hend : ¬ keeps (M.final state more)) :
    ∃ first action second, more = first ++ action :: second ∧ stop action ∧
      keeps (M.final state first) := by
  induction more generalizing history state with
  | nil => exact absurd hkeeps hend
  | cons action more ih =>
    obtain ⟨hguard, hrest⟩ := hmore
    by_cases hstop : stop action
    · exact ⟨[], action, more, rfl, hstop, hkeeps⟩
    · have hnow := hstep history state action hrun hkeeps hstop hguard
      obtain ⟨first, last, second, rfl, hlast, hbefore⟩ :=
        ih (hrun.snoc action hguard) hrest hnow hend
      exact ⟨action :: first, last, second, rfl, hlast, hbefore⟩

/-- What holds after a legal history and is kept by every step holds after each extension. -/
theorem legal_persists {start : State} (inv : List Action → State → Prop)
    {history more : List Action} (hnow : inv history (M.final start history))
    (hstep : ∀ history action, M.Legal start history → inv history (M.final start history) →
      M.guard (M.final start history) action →
      inv (history ++ [action]) (M.update (M.final start history) action))
    (hlegal : M.Legal start (history ++ more)) :
    inv (history ++ more) (M.final start (history ++ more)) := by
  induction more using List.reverseRecOn with
  | nil => simpa using hnow
  | append_singleton more action ih =>
    rw [← List.append_assoc] at hlegal ⊢
    obtain ⟨hhistory, haction, -⟩ := (M.legal_append ..).mp hlegal
    rw [final_append]
    exact hstep (history ++ more) action hhistory (ih hhistory) haction

/-- The induction over the legal histories from one state. -/
theorem legal_induction {start : State} (inv : List Action → State → Prop)
    (hstart : inv [] start)
    (hstep : ∀ history action, M.Legal start history → inv history (M.final start history) →
      M.guard (M.final start history) action →
      inv (history ++ [action]) (M.update (M.final start history) action))
    {history : List Action} (hlegal : M.Legal start history) :
    inv history (M.final start history) := by
  have hnow : inv [] (M.final start []) := hstart
  exact legal_persists inv hnow hstep hlegal

variable (M)

/-- What `record` writes down of every step, in addition to `log`. -/
def observe {Log : Type*} (record : Log → State → Action → Log) (log : Log) (state : State) :
    List Action → Log
  | [] => log
  | action :: history => observe record (record log state action) (M.update state action) history

@[simp]
theorem observe_nil {Log : Type*} (record : Log → State → Action → Log) (log : Log)
    (state : State) : M.observe record log state [] = log := rfl

theorem observe_concat {Log : Type*} (record : Log → State → Action → Log) (log : Log)
    (state : State) (history : List Action) (action : Action) :
    M.observe record log state (history ++ [action]) =
      record (M.observe record log state history) (M.final state history) action := by
  induction history generalizing log state with
  | nil => rfl
  | cons first history ih => exact ih ..

/-- What is written down of the steps comes after what was written down before. -/
theorem observe_eq_append {Event : Type*} (event? : State → Action → Option Event)
    (log : List Event) (state : State) (history : List Action) :
    M.observe (fun log state action ↦ log ++ (event? state action).toList) log state history =
      log ++ M.observe (fun log state action ↦ log ++ (event? state action).toList) [] state
        history := by
  induction history generalizing log state with
  | nil => exact (List.append_nil log).symm
  | cons action history ih =>
    rw [observe, observe, ih, ih ([] ++ _), List.nil_append, List.append_assoc]

/-- The machine whose steps are the steps of `M` that meet `ok`. -/
def when (ok : State → Action → Prop) : Machine State Action where
  init := M.init
  guard state action := M.guard state action ∧ ok state action
  update := M.update

/-- All steps of `history` meet `ok`, each in the state before it. -/
def Meets (ok : State → Action → Prop) (state : State) : List Action → Prop
  | [] => True
  | action :: history => ok state action ∧ Meets ok (M.update state action) history

instance (ok : State → Action → Prop) [∀ state action, Decidable (ok state action)]
    (state : State) (history : List Action) : Decidable (M.Meets ok state history) := by
  induction history generalizing state with
  | nil => exact isTrue trivial
  | cons action history ih =>
    have := ih (M.update state action)
    exact inferInstanceAs (Decidable (_ ∧ _))

@[simp]
theorem meets_nil (ok : State → Action → Prop) (state : State) : M.Meets ok state [] := trivial

@[simp]
theorem meets_cons (ok : State → Action → Prop) (state : State) (action : Action)
    (history : List Action) : M.Meets ok state (action :: history) ↔
      ok state action ∧ M.Meets ok (M.update state action) history := Iff.rfl

@[simp]
theorem meets_append (ok : State → Action → Prop) (state : State) (first second : List Action) :
    M.Meets ok state (first ++ second) ↔
      M.Meets ok state first ∧ M.Meets ok (M.final state first) second := by
  induction first generalizing state with
  | nil => simp
  | cons action first ih => simp [ih, and_assoc]

variable {M} in
theorem Meets.of_prefix {ok : State → Action → Prop} {first history : List Action}
    {state : State} (hmeets : M.Meets ok state history) (hfirst : first <+: history) :
    M.Meets ok state first := by
  obtain ⟨second, rfl⟩ := hfirst
  exact ((M.meets_append ..).mp hmeets).1

/-- The first step that does not meet the condition. -/
theorem exists_of_not_meets {ok : State → Action → Prop} {state : State} {history : List Action}
    (h : ¬ M.Meets ok state history) : ∃ before action after,
      history = before ++ action :: after ∧ M.Meets ok state before ∧
        ¬ ok (M.final state before) action := by
  induction history generalizing state with
  | nil => exact absurd trivial h
  | cons action history ih =>
    by_cases hok : ok state action
    · obtain ⟨before, bad, after, rfl, hmeets, hbad⟩ := ih fun hrest ↦ h ⟨hok, hrest⟩
      exact ⟨action :: before, bad, after, rfl, ⟨hok, hmeets⟩, hbad⟩
    · exact ⟨[], action, history, rfl, trivial, hok⟩

variable {M} in
/-- A condition that every guard implies. -/
theorem Legal.meets {ok : State → Action → Prop} {state : State} {history : List Action}
    (hlegal : M.Legal state history)
    (hok : ∀ state, ∀ action ∈ history, M.guard state action → ok state action) :
    M.Meets ok state history := by
  induction history generalizing state with
  | nil => trivial
  | cons action history ih =>
    exact ⟨hok state action List.mem_cons_self hlegal.1,
      ih hlegal.2 fun state later hlater ↦ hok state later (List.mem_cons_of_mem _ hlater)⟩

variable {M} in
/-- A condition that every enabled step has which meets another one. -/
theorem Legal.meets_imp {ok ok' : State → Action → Prop} {state : State} {history : List Action}
    (hlegal : M.Legal state history) (hmeets : M.Meets ok state history)
    (himp : ∀ state action, M.guard state action → ok state action → ok' state action) :
    M.Meets ok' state history := by
  induction history generalizing state with
  | nil => trivial
  | cons action history ih =>
    exact ⟨himp state action hlegal.1 hmeets.1, ih hlegal.2 hmeets.2⟩

variable {M} in
/-- The induction over the legal histories from one state whose steps all meet a condition. -/
theorem meets_induction {ok : State → Action → Prop} {start : State}
    (inv : List Action → State → Prop) (hstart : inv [] start)
    (hstep : ∀ history action, M.Legal start history → inv history (M.final start history) →
      M.guard (M.final start history) action → ok (M.final start history) action →
      inv (history ++ [action]) (M.update (M.final start history) action))
    {history : List Action} (hlegal : M.Legal start history) (hmeets : M.Meets ok start history) :
    inv history (M.final start history) := by
  revert hmeets
  apply M.legal_induction (fun history state ↦ M.Meets ok start history → inv history state) _ _
    hlegal
  · intro _
    exact hstart
  · intro history action hhistory ih hguard hmeets
    obtain ⟨hbefore, haction, -⟩ := (M.meets_append ..).mp hmeets
    exact hstep history action hhistory (ih hbefore) hguard haction

@[simp]
theorem when_update (ok : State → Action → Prop) : (M.when ok).update = M.update := rfl

@[simp]
theorem when_guard (ok : State → Action → Prop) (state : State) (action : Action) :
    (M.when ok).guard state action ↔ M.guard state action ∧ ok state action := Iff.rfl

@[simp]
theorem when_final (ok : State → Action → Prop) (state : State) (history : List Action) :
    (M.when ok).final state history = M.final state history := rfl

theorem legal_when (ok : State → Action → Prop) (state : State) (history : List Action) :
    (M.when ok).Legal state history ↔ M.Legal state history ∧ M.Meets ok state history := by
  induction history generalizing state with
  | nil => simp [Meets]
  | cons action history ih =>
    rw [legal_cons, legal_cons, when_guard, when_update, ih, Meets]
    exact and_and_and_comm

variable {M}

/-- A run whose steps all meet `ok` is a run of the restricted machine, and conversely. -/
theorem run_when_iff {ok : State → Action → Prop} {history : List Action} {state : State} :
    (M.when ok).Run history state ↔
      ∃ start, M.init start ∧ M.Legal start history ∧ M.Meets ok start history ∧
        M.final start history = state := by
  simp only [Run, legal_when, when_final, and_assoc]
  rfl

theorem Run.of_when {ok : State → Action → Prop} {history : List Action} {state : State}
    (hrun : (M.when ok).Run history state) : M.Run history state := by
  obtain ⟨start, hinit, hlegal, -, hfinal⟩ := run_when_iff.mp hrun
  exact ⟨start, hinit, hlegal, hfinal⟩

end Machine

end ParallelPrograms.Concurrency
