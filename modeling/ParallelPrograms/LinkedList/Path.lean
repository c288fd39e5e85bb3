import Mathlib.Data.List.Induction
import Mathlib.Data.List.Nodup
import Mathlib.Logic.Function.Basic

/-!
# Singly linked paths

A pointer function leads from a start pointer through a list of nodes in order to a stop pointer,
which is the null pointer for a whole list. A walk keeps the location that it reads next: the
start pointer itself, or the pointer inside the last node it has passed. Storing to the last
location changes where the path stops and nothing else.
-/

namespace ParallelPrograms.LinkedList

variable {Node : Type*}

/-- From `start` the pointers run through `nodes` in order to `stop`. -/
def Path (next : Node → Node) : Node → List Node → Node → Prop
  | start, [], stop => start = stop
  | start, node :: nodes, stop => start = node ∧ Path next (next node) nodes stop

/-- What a location holds, where `none` is the start pointer. -/
def follow (next : Node → Node) (start : Node) (location : Option Node) : Node :=
  location.elim start next

namespace Path

variable {next next' : Node → Node} {start stop null : Node} {before after nodes : List Node}

@[simp]
theorem nil_iff : Path next start [] stop ↔ start = stop := Iff.rfl

@[simp]
theorem cons_iff {node : Node} : Path next start (node :: nodes) stop ↔
    start = node ∧ Path next (next node) nodes stop := Iff.rfl

/-- Only the pointers of the path's nodes matter. -/
theorem congr (h : Path next start nodes stop) (heq : ∀ y ∈ nodes, next' y = next y) :
    Path next' start nodes stop := by
  induction nodes generalizing start with
  | nil => exact h
  | cons node nodes ih =>
    refine ⟨h.1, ih ?_ fun y hy ↦ heq y (List.mem_cons_of_mem _ hy)⟩
    rw [heq node List.mem_cons_self]
    exact h.2

theorem append_iff : Path next start (before ++ after) stop ↔
    ∃ middle, Path next start before middle ∧ Path next middle after stop := by
  induction before generalizing start with
  | nil => simp
  | cons node before ih => simp [ih, and_assoc]

theorem follow_last (h : Path next start nodes stop) :
    follow next start nodes.getLast? = stop := by
  cases nodes using List.reverseRecOn with
  | nil => exact h
  | append_singleton nodes node =>
    obtain ⟨middle, -, rfl, hstop⟩ := append_iff.mp h
    simpa [follow] using hstop

/-- Where the path is cut in two, the location before the cut leads to the rest. -/
theorem split (h : Path next start (before ++ after) stop) :
    Path next (follow next start before.getLast?) after stop := by
  obtain ⟨middle, hbefore, hafter⟩ := append_iff.mp h
  rwa [hbefore.follow_last]

/-- A path that stops at null and does not pass through it has no node exactly when it starts
there. -/
theorem eq_nil_iff (h : Path next start nodes null) (hnull : null ∉ nodes) :
    nodes = [] ↔ start = null := by
  cases nodes with
  | nil => simpa using h
  | cons node nodes =>
    obtain ⟨rfl, -⟩ := h
    simpa using (List.ne_of_not_mem_cons hnull).symm

/-- A store to the pointer of the last node. -/
theorem store_last [DecidableEq Node] {last : Node} (value : Node)
    (h : Path next start (nodes ++ [last]) stop) (hnodup : (nodes ++ [last]).Nodup) :
    Path (Function.update next last value) start (nodes ++ [last]) value := by
  obtain ⟨middle, hbefore, rfl, -⟩ := append_iff.mp h
  have hlast : middle ∉ nodes := fun hmem ↦
    (List.nodup_append.mp hnodup).2.2 _ hmem _ (List.mem_singleton_self _) rfl
  refine append_iff.mpr ⟨middle, hbefore.congr fun y hy ↦ ?_, rfl, Function.update_self ..⟩
  exact Function.update_of_ne (ne_of_mem_of_not_mem hy hlast) ..

end Path

end ParallelPrograms.LinkedList
