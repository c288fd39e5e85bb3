import ParallelPrograms.ExtentList.Operations
import ParallelPrograms.LinkedList.Chain
import ParallelPrograms.LinkedList.Tower
import Mathlib.Data.Nat.Basic
import Mathlib.Order.Basic

/-!
# The levels of the extent skip list

The leaves of the list are entries in the order of level 0. At every level the links lead through
the leaves that reach the level, in the same order. This module has what the functions return that
follow the links of one level.
-/

namespace ParallelPrograms.ExtentList

open LinkedList

variable {α : Type}

/-- A leaf of the list: its address, its level, and the extents it holds. -/
structure Entry (α : Type) where
  addr : Addr
  height : ℕ
  slots : List (SlSlot α)

/-- The node of the leaf. -/
def Entry.node (e : Entry α) : Node := .leaf e.addr

theorem Entry.node_ne_head (e : Entry α) : e.node ≠ .head := Node.noConfusion

/-- The nodes at a level. -/
abbrev nodesAt (level : ℕ) (entries : List (Entry α)) : List Node :=
  tower Entry.height Entry.node level entries

@[simp]
theorem nodesAt_nil (level : ℕ) : nodesAt level ([] : List (Entry α)) = [] := rfl

@[simp]
theorem nodesAt_append (level : ℕ) (before after : List (Entry α)) :
    nodesAt level (before ++ after) = nodesAt level before ++ nodesAt level after :=
  tower_append before after

theorem nodesAt_cons_of_le {level : ℕ} {e : Entry α} (h : level ≤ e.height)
    (entries : List (Entry α)) : nodesAt level (e :: entries) = e.node :: nodesAt level entries :=
  tower_cons_of_le h

theorem nodesAt_cons_of_lt {level : ℕ} {e : Entry α} (h : e.height < level)
    (entries : List (Entry α)) : nodesAt level (e :: entries) = nodesAt level entries :=
  tower_cons_of_lt h

/-- The last node at a level. -/
abbrev lastAt (level : ℕ) (entries : List (Entry α)) : Node :=
  lastOf .head (nodesAt level entries)

theorem lastAt_concat_of_le {level : ℕ} {e : Entry α} (h : level ≤ e.height)
    (entries : List (Entry α)) : lastAt level (entries ++ [e]) = e.node := by
  rw [lastAt, nodesAt_append, nodesAt_cons_of_le h, nodesAt_nil, lastOf_concat]

theorem lastAt_concat_of_lt {level : ℕ} {e : Entry α} (h : e.height < level)
    (entries : List (Entry α)) : lastAt level (entries ++ [e]) = lastAt level entries := by
  rw [lastAt, nodesAt_append, nodesAt_cons_of_lt h, nodesAt_nil, List.append_nil]

theorem slEntry_eq_some {n : Node} {a : Addr} (h : n.slEntry = some a) : n = .leaf a := by
  cases n with
  | head => simp [Node.slEntry] at h
  | leaf b => exact congrArg Node.leaf (Option.some.inj h)

/-- The nodes are allocated and alive. -/
structure Nodes (s : State α) (entries : List (Entry α)) : Prop where
  allocated : ∀ e ∈ entries, s.allocated e.addr = true
  height : ∀ e ∈ entries, s.height e.node = e.height
  alive : ∀ e ∈ entries, s.dead e.node = false
  headHeight : s.height .head = skipMaxlevel
  headAlive : s.dead .head = false

/-- The links at one level lead through the entries. -/
abbrev ChainAt (s : State α) (level : ℕ) (nodes : List Node) : Prop :=
  Chain (s.next level) (s.prev level) .head nodes

section Read

variable {s : State α} {entries before after : List (Entry α)} {e : Entry α} {level fuel : ℕ}
  {n : Node}

theorem Nodes.of_subset (h : Nodes s entries) {others : List (Entry α)} (hsub : others ⊆ entries) :
    Nodes s others where
  allocated e he := h.allocated e (hsub he)
  height e he := h.height e (hsub he)
  alive e he := h.alive e (hsub he)
  headHeight := h.headHeight
  headAlive := h.headAlive

theorem Nodes.present (h : Nodes s entries) (hn : n ∈ Node.head :: nodesAt level entries) :
    s.present n = true := by
  rcases List.mem_cons.mp hn with rfl | hn
  · rfl
  · obtain ⟨e, he, -, rfl⟩ := mem_tower.mp hn
    exact h.allocated e he

theorem Nodes.valid (h : Nodes s entries) (hlevel : level < skipMaxlevel)
    (hn : n ∈ Node.head :: nodesAt level entries) : s.valid n level = true := by
  rw [State.valid, h.present hn, Bool.true_and, decide_eq_true_eq]
  rcases List.mem_cons.mp hn with rfl | hn
  · rw [h.headHeight]
    exact hlevel.le
  · obtain ⟨e, he, hle, rfl⟩ := mem_tower.mp hn
    rwa [h.height e he]

theorem Nodes.getDead (h : Nodes s entries) (hn : n ∈ Node.head :: nodesAt level entries) :
    s.getDead n = some false := by
  rw [State.getDead, if_pos (h.present hn)]
  rcases List.mem_cons.mp hn with rfl | hn
  · rw [h.headAlive]
  · obtain ⟨e, he, -, rfl⟩ := mem_tower.mp hn
    rw [h.alive e he]

theorem mem_nodesAt (he : e ∈ entries) (hle : level ≤ e.height) :
    e.node ∈ Node.head :: nodesAt level entries :=
  List.mem_cons_of_mem _ (mem_tower.mpr ⟨e, he, hle, rfl⟩)

theorem lastAt_mem (level : ℕ) (before after : List (Entry α)) :
    lastAt level before ∈ Node.head :: nodesAt level (before ++ after) := by
  rw [nodesAt_append]
  exact lastOf_mem_append ..

/-- The first node at a level. -/
theorem exists_first (h : (nodesAt level after).head? = some n) : ∃ lower e rest,
    after = lower ++ e :: rest ∧ nodesAt level lower = [] ∧ level ≤ e.height ∧ n = e.node := by
  induction after with
  | nil => simp at h
  | cons e after ih =>
    by_cases hle : level ≤ e.height
    · rw [nodesAt_cons_of_le hle, List.head?_cons, Option.some.injEq] at h
      exact ⟨[], e, after, rfl, rfl, hle, h.symm⟩
    · rw [nodesAt_cons_of_lt (Nat.lt_of_not_le hle)] at h
      obtain ⟨lower, e', rest, rfl, hlower, hle', hn⟩ := ih h
      exact ⟨e :: lower, e', rest, rfl, by rwa [nodesAt_cons_of_lt (Nat.lt_of_not_le hle)], hle', hn⟩

theorem getNext_eq (hnodes : Nodes s (before ++ after)) (hlevel : level < skipMaxlevel)
    (hchain : ChainAt s level (nodesAt level (before ++ after))) :
    s.getNext level (lastAt level before) = some (nodesAt level after).head? := by
  rw [State.getNext, if_pos (hnodes.valid hlevel (lastAt_mem level before after)),
    hchain.forward _ _ (nodesAt_append level before after)]

theorem getPrev_eq (hnodes : Nodes s (before ++ e :: after)) (hlevel : level < skipMaxlevel)
    (hchain : ChainAt s level (nodesAt level (before ++ e :: after))) (hle : level ≤ e.height) :
    s.getPrev level e.node = some (some (lastAt level before)) := by
  have hmem : e.node ∈ Node.head :: nodesAt level (before ++ e :: after) :=
    mem_nodesAt (by simp) hle
  have htower : nodesAt level (before ++ e :: after) =
      nodesAt level before ++ e.node :: nodesAt level after := by
    rw [nodesAt_append, nodesAt_cons_of_le hle]
  rw [State.getPrev, if_pos (hnodes.valid hlevel hmem), hchain.backward _ _ _ htower]

/-- **`find_live_next`** -/
theorem findLiveNext_eq (hnodes : Nodes s (before ++ after)) (hlevel : level < skipMaxlevel)
    (hchain : ChainAt s level (nodesAt level (before ++ after))) (hfuel : 0 < fuel) :
    s.findLiveNext (lastAt level before) level fuel = some (nodesAt level after).head? := by
  obtain ⟨fuel, rfl⟩ := Nat.exists_eq_add_one.mpr hfuel
  rw [State.findLiveNext, getNext_eq hnodes hlevel hchain]
  cases hhead : (nodesAt level after).head? with
  | none => rfl
  | some n =>
    have hn : n ∈ Node.head :: nodesAt level (before ++ after) := by
      rw [nodesAt_append]
      exact List.mem_cons_of_mem _ (List.mem_append_right _ (List.mem_of_head? hhead))
    simp [hnodes.getDead hn]

/-- **`find_live_prev`** -/
theorem findLivePrev_eq (hnodes : Nodes s (before ++ e :: after)) (hlevel : level < skipMaxlevel)
    (hchain : ChainAt s level (nodesAt level (before ++ e :: after))) (hle : level ≤ e.height)
    (hfuel : 0 < fuel) :
    s.findLivePrev fuel e.node level = some (some (lastAt level before)) := by
  obtain ⟨fuel, rfl⟩ := Nat.exists_eq_add_one.mpr hfuel
  rw [State.findLivePrev, if_neg e.node_ne_head, State.livePrev,
    getPrev_eq hnodes hlevel hchain hle]
  simp [hnodes.getDead (lastAt_mem level before (e :: after))]

/-- **`sl_next_leaf`** -/
theorem slNextLeaf_eq (hnodes : Nodes s (before ++ after)) (hlevel : level < skipMaxlevel)
    (hchain : ChainAt s level (nodesAt level (before ++ after))) (hfuel : 0 < fuel) :
    s.slNextLeaf fuel (lastAt level before) level =
      some ((after.find? fun e ↦ level ≤ e.height).map Entry.addr) := by
  rw [State.slNextLeaf, findLiveNext_eq hnodes hlevel hchain hfuel, nodesAt, tower, List.head?_map,
    List.head?_filter]
  cases after.find? fun e ↦ level ≤ e.height with
  | none => rfl
  | some e => rfl

/-- The first entry of `after` that reaches the level. -/
theorem exists_of_find? (h : (after.find? fun e ↦ level ≤ e.height) = some e) :
    level ≤ e.height ∧ ∃ lower upper, after = lower ++ e :: upper ∧ nodesAt level lower = [] := by
  obtain ⟨hle, lower, upper, rfl, hlower⟩ := List.find?_eq_some_iff_append.mp h
  refine ⟨of_decide_eq_true hle, lower, upper, rfl, tower_eq_nil fun e' he' ↦ ?_⟩
  simpa using hlower e' he'

/-- The entries before it do not reach the level. -/
theorem height_lt_of_find? {e₀ : Entry α} {after' : List (Entry α)}
    (h : (after.find? fun e ↦ level ≤ e.height) = some e) (hafter : after = e₀ :: after')
    (hne : e₀ ≠ e) : e₀.height < level := by
  refine Nat.lt_of_not_le fun hle ↦ hne ?_
  rw [hafter, List.find?_cons_of_pos (by simpa using hle), Option.some.injEq] at h
  exact h

/-- The way back from the first entry of `after` that reaches the level. -/
theorem findLivePrev_find? (hnodes : Nodes s (before ++ after)) (hlevel : level < skipMaxlevel)
    (hchain : ChainAt s level (nodesAt level (before ++ after)))
    (hfind : (after.find? fun e ↦ level ≤ e.height) = some e) (hfuel : 0 < fuel) :
    s.findLivePrev fuel e.node level = some (some (lastAt level before)) := by
  obtain ⟨hle, lower, upper, rfl, hlower⟩ := exists_of_find? hfind
  have hlast : lastAt level (before ++ lower) = lastAt level before := by
    rw [lastAt, nodesAt_append, hlower, List.append_nil]
  rw [← List.append_assoc] at hnodes hchain
  rw [findLivePrev_eq hnodes hlevel hchain hle hfuel, hlast]

end Read

end ParallelPrograms.ExtentList
