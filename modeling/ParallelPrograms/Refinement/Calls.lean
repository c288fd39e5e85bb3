import Mathlib.Data.Option.Basic
import Mathlib.Data.Nat.Basic

/-!
# Runs of calls

A component takes one call after the other. It answers a call and goes to its next state, or it gets
stuck. A specification has states of its own and says which answers are right. The component refines
it when related states stay related along every call that its caller may make.

The states are related up to a number of calls, because a component that is modelled with a bound on
its loops may need more rounds with every call.
-/

namespace ParallelPrograms.Refinement

variable {σ τ κ ρ : Type} (step : σ → κ → Option (σ × ρ)) (Admissible : σ → κ → Prop)
  (Spec : τ → κ → ρ → τ → Prop) (Rel : ℕ → σ → τ → Prop)

/-- The calls one after the other, with their answers. -/
def run (s : σ) : List κ → Option (σ × List ρ)
  | [] => some (s, [])
  | call :: calls => do
    let (s, answer) ← step s call
    let (s, answers) ← run s calls
    some (s, answer :: answers)

/-- Every call is admissible in the state in which it is made. -/
def AdmissibleRun (s : σ) : List κ → Prop
  | [] => True
  | call :: calls => Admissible s call ∧ ∀ r ∈ step s call, AdmissibleRun r.1 calls

instance [∀ s, DecidablePred (Admissible s)] (calls : List κ) :
    Decidable (AdmissibleRun step Admissible s calls) := by
  induction calls generalizing s with
  | nil => exact isTrue trivial
  | cons call calls ih =>
    exact inferInstanceAs (Decidable (Admissible s call ∧
      ∀ r ∈ step s call, AdmissibleRun step Admissible r.1 calls))

/-- A run of the specification. -/
inductive SpecRun : τ → List κ → List ρ → τ → Prop
  | nil (t : τ) : SpecRun t [] [] t
  | cons {t t' t'' : τ} {call : κ} {calls : List κ} {answer : ρ} {answers : List ρ}
      (hcall : Spec t call answer t') (hcalls : SpecRun t' calls answers t'') :
      SpecRun t (call :: calls) (answer :: answers) t''

/-- The component follows the specification for a number of calls. -/
def Refines (bound : ℕ) : Prop := ∀ n < bound, ∀ s t call, Rel n s t → Admissible s call →
  ∃ s' t' answer, step s call = some (s', answer) ∧ Spec t call answer t' ∧ Rel (n + 1) s' t'

variable {step Admissible Spec Rel} {s : σ} {t t' : τ} {call : κ} {calls calls' : List κ}
  {answers : List ρ} {n bound : ℕ}

/-- **A component that refines its specification does not get stuck**, and it answers every call of a
run as the specification does. -/
theorem Refines.run (h : Refines step Admissible Spec Rel bound) (hrel : Rel n s t)
    (hbound : n + calls.length ≤ bound) (hcalls : AdmissibleRun step Admissible s calls) :
    ∃ s' t' answers, run step s calls = some (s', answers) ∧ SpecRun Spec t calls answers t' ∧
      Rel (n + calls.length) s' t' := by
  induction calls generalizing s t n with
  | nil => exact ⟨s, t, [], rfl, .nil t, hrel⟩
  | cons call calls ih =>
    obtain ⟨hcall, hrest⟩ := hcalls
    rw [List.length_cons] at hbound ⊢
    obtain ⟨s', t', answer, hstep, hspec, hrel'⟩ := h n (by omega) s t call hrel hcall
    obtain ⟨s'', t'', answers, hrun, hspecs, hrel''⟩ := ih hrel' (by omega) (hrest _ hstep)
    refine ⟨s'', t'', answer :: answers, ?_, .cons hspec hspecs, ?_⟩
    · rw [Refinement.run, hstep]
      simp only [Option.bind_eq_bind, Option.bind_some, hrun]
    · rwa [Nat.add_assoc, Nat.add_comm 1] at hrel''

/-- Every call has an answer. -/
theorem SpecRun.length (h : SpecRun Spec t calls answers t') : answers.length = calls.length := by
  induction h with
  | nil => rfl
  | cons _ _ ih => rw [List.length_cons, List.length_cons, ih]

/-- A run of the specification can be cut anywhere. -/
theorem SpecRun.split (h : SpecRun Spec t (calls ++ calls') answers t') :
    ∃ answers₁ answers₂ t₁, answers = answers₁ ++ answers₂ ∧ SpecRun Spec t calls answers₁ t₁ ∧
      SpecRun Spec t₁ calls' answers₂ t' := by
  induction calls generalizing t answers with
  | nil => exact ⟨[], answers, t, rfl, .nil t, h⟩
  | cons call calls ih =>
    cases h with
    | cons hcall hcalls =>
      obtain ⟨answers₁, answers₂, t₁, rfl, hrun, hrest⟩ := ih hcalls
      exact ⟨_, answers₂, t₁, rfl, .cons hcall hrun, hrest⟩

/-- A run of one call. -/
theorem SpecRun.of_singleton (h : SpecRun Spec t [call] answers t') :
    ∃ answer, answers = [answer] ∧ Spec t call answer t' := by
  cases h with
  | cons hcall hcalls =>
    cases hcalls with
    | nil => exact ⟨_, rfl, hcall⟩

end ParallelPrograms.Refinement
