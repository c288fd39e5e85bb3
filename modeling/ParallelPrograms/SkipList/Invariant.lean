import ParallelPrograms.SkipList.Update
import Mathlib.Tactic.IntervalCases

/-!
# The representation invariant of the skip list

`Linked list entries` says that the allocated nodes are the entries, that every ring holds the
entries that reach its level in key order, and that the size and the level of the list fit. Each
operation, with enough rounds for its inner loops, is described by what it does to the entries.
When the last node is erased, `list->level` becomes `-1`; before the first node is inserted it
is `0`.
-/

namespace ParallelPrograms.SkipList

open LinkedList

/-- The nodes of the list are `entries`, in key order. -/
structure Linked (list : SlList) (entries : List Entry) : Prop where
  sorted : Sorted entries
  nodes : ∀ a node, list.heap.nodes a = some node ↔ (a, node) ∈ entries
  levels : ∀ e ∈ entries, e.2.level < slMaxlevel
  rings : ∀ i < slMaxlevel, list.heap.RingAt i entries
  size : list.size = entries.length
  level : list.level = height entries ∨ entries = [] ∧ list.level = 0

theorem initHeads_rings {h : Heap} {n : ℕ} (hn : n ≤ slMaxlevel) :
    ∃ h', initHeads h n = some h' ∧ h'.nodes = h.nodes ∧ ∀ i < n, h'.RingAt i [] := by
  induction n with
  | zero => exact ⟨h, rfl, rfl, fun i hi ↦ absurd hi (Nat.not_lt_zero i)⟩
  | succ n ih =>
    obtain ⟨h', hinit, hnodes, hrings⟩ := ih (Nat.le_of_succ_le hn)
    have hvalid : h'.valid (.head n) = true := by
      rw [Heap.valid_iff]
      exact ⟨by simp, fun _ ↦ by simpa using Int.ofNat_lt.mpr hn, nofun⟩
    refine ⟨{ h' with
      next := Function.update h'.next (.head n) (.head n)
      prev := Function.update h'.prev (.head n) (.head n) }, ?_, hnodes, fun i hi ↦ ?_⟩
    · rw [initHeads] at hinit ⊢
      rw [List.range_succ, List.foldlM_append, hinit, Option.bind_eq_bind, Option.bind_some,
        List.foldlM_cons, Heap.listInit_eq hvalid]
      rfl
    · rcases (Nat.le_of_lt_succ hi).eq_or_lt with rfl | hlt
      · exact ⟨Cycle.nil_iff.mpr (by simp), Cycle.nil_iff.mpr (by simp)⟩
      · refine (hrings i hlt).congr ⟨rfl, fun pos hpos ↦ ?_⟩ hlt.ne
        have hne : pos ≠ .head n := fun heq ↦ hpos (congrArg Link.index heq)
        exact ⟨Function.update_of_ne hne .., Function.update_of_ne hne ..⟩

theorem randomLevel_lt (randomSeed : UInt32) : randomLevel randomSeed < slMaxlevel := by
  unfold randomLevel
  split_ifs with hmax
  · decide
  · exact Nat.lt_of_not_le hmax

/-- Every level can be drawn. -/
theorem exists_randomLevel_eq {level : ℕ} (h : level < slMaxlevel) :
    ∃ randomSeed, randomLevel randomSeed = level := by
  refine ⟨UInt32.ofNat (2 ^ level - 1), ?_⟩
  interval_cases level <;> decide

/-- **`sl_list_alloc`** -/
theorem slListAlloc_linked (next prev : Link → Link) :
    ∃ list, slListAlloc next prev = some list ∧ Linked list [] := by
  obtain ⟨h, hinit, hnodes, hrings⟩ :=
    initHeads_rings (h := ⟨fun _ ↦ none, next, prev⟩) (le_refl slMaxlevel)
  refine ⟨⟨0, 0, h⟩, by rw [slListAlloc, hinit]; rfl, ?_⟩
  exact ⟨List.Pairwise.nil, by simp [hnodes], by simp, hrings, rfl, .inr ⟨rfl, rfl⟩⟩

theorem linked_of_slListAlloc {next prev : Link → Link} {list : SlList}
    (halloc : slListAlloc next prev = some list) : Linked list [] := by
  obtain ⟨list', halloc', hlinked⟩ := slListAlloc_linked next prev
  rw [halloc, Option.some.injEq] at halloc'
  rwa [halloc']

/-- The outer loops start at the head of the highest level. -/
theorem before_start (level : ℤ) (lo : List Entry) (j : ℕ) (hj : (level + 1).toNat = j + 1) :
    Before j lo (.head level) := by
  obtain rfl : level = j := by omega
  exact before_head j lo

namespace Linked

variable {list : SlList} {entries lo hi : List Entry} {same : Option Entry} {e : Entry}
  {key : Key} {fuel : ℕ}

theorem stores (h : Linked list entries) : list.heap.Stores entries :=
  fun e he ↦ (h.nodes e.1 e.2).mpr he

/-- An address belongs to one node. -/
theorem eq_of_address (h : Linked list entries) {e' : Entry} (he : e ∈ entries)
    (he' : e' ∈ entries) (heq : e'.1 = e.1) : e' = e := by
  have hnode : some e'.2 = some e.2 := calc
    some e'.2 = list.heap.nodes e'.1 := (h.stores e' he').symm
    _ = list.heap.nodes e.1 := by rw [heq]
    _ = some e.2 := h.stores e he
  exact Prod.ext heq (Option.some.inj hnode)

theorem height_le_level (h : Linked list entries) : height entries ≤ list.level := by
  rcases h.level with hlevel | ⟨rfl, hlevel⟩
  · exact hlevel.ge
  · rw [hlevel]
    decide

theorem level_lt (h : Linked list entries) : list.level < slMaxlevel := by
  have hheight := height_lt h.levels
  rcases h.level with hlevel | ⟨-, hlevel⟩
  · omega
  · rw [hlevel]
    decide

theorem level_lt_start (h : Linked list entries) (he : e ∈ entries) :
    e.2.level < (list.level + 1).toNat := by
  have := level_le_height he
  have := h.height_le_level
  omega

theorem height_remove : height (lo ++ e :: hi) = max (e.2.level : ℤ) (height (lo ++ hi)) := by
  simp [max_left_comm]

/-- **`sl_search`** -/
theorem slSearch_eq (h : Linked list (lo ++ (same.toList ++ hi))) (hcut : Cut key lo same hi)
    (hfuel : lo.length < fuel) :
    slSearch fuel list key = some (same.elim 0 fun e ↦ e.2.val) := by
  refine searchFrom_eq h.rings h.stores hcut hfuel ?_ (fun e he ↦ ?_) (before_start _ lo)
  · have := h.level_lt
    omega
  · exact h.level_lt_start (by simp [Option.mem_def.mp he])

/-- A new node has an address of its own. -/
theorem ne_address (h : Linked list entries) {a : Addr} (ha : list.heap.nodes a = none) :
    ∀ e' ∈ entries, e'.1 ≠ a := by
  intro e' he' heq
  have hstores := h.stores e' he'
  rw [heq, ha] at hstores
  exact nomatch hstores

/-- The new node is not yet linked. -/
theorem stores_slNodeAlloc (h : Linked list entries) {a : Addr} (ha : list.heap.nodes a = none)
    (key : Key) (val : Ptr) (level : ℕ) : (list.heap.slNodeAlloc a key val level).Stores entries :=
  fun e' he' ↦ (Function.update_of_ne (h.ne_address ha e' he') ..).trans (h.stores e' he')

/-- The loop of `sl_insert`, for a key that is not in the list. -/
theorem insertFrom_new (h : Linked list (lo ++ hi)) (hcut : Cut key lo none hi)
    (hfuel : lo.length < fuel) (val : Ptr) (randomSeed : UInt32) {a : Addr}
    (ha : list.heap.nodes a = none) :
    ∃ heap, insertFrom fuel key a (randomLevel randomSeed + 1) (.head (randomLevel randomSeed))
        (list.heap.slNodeAlloc a key val (randomLevel randomSeed)) = some (heap, true) ∧
      heap.nodes = Function.update list.heap.nodes a (some ⟨key, val, randomLevel randomSeed⟩) ∧
      ∀ j < slMaxlevel, heap.RingAt j (lo ++ (a, ⟨key, val, randomLevel randomSeed⟩) :: hi) := by
  let e : Entry := (a, ⟨key, val, randomLevel randomSeed⟩)
  let h₀ := list.heap.slNodeAlloc a key val (randomLevel randomSeed)
  have habove : ∀ j < slMaxlevel, e.2.level + 1 ≤ j → h₀.RingAt j (lo ++ e :: hi) := by
    intro j hj hlt
    rw [Heap.RingAt, linksAt_append, linksAt_cons_of_lt hlt, ← linksAt_append]
    exact h.rings j hj
  have hstart : ∀ j, e.2.level + 1 = j + 1 → Before j lo (.head e.2.level) := fun j hj ↦ by
    obtain rfl := Nat.succ.inj hj
    exact before_head _ lo
  have hlevel : e.2.level < slMaxlevel := randomLevel_lt randomSeed
  exact insertFrom_eq habove (fun j hj ↦ h.rings j (by omega)) (h.stores_slNodeAlloc ha _ _ _)
    (Function.update_self ..) (h.ne_address ha) hcut hfuel le_rfl hlevel hstart

/-- **`sl_insert`** of a key that is not in the list. -/
theorem slInsert_eq (h : Linked list (lo ++ hi)) (hcut : Cut key lo none hi)
    (hfuel : lo.length < fuel) (val : Ptr) (randomSeed : UInt32) {a : Addr}
    (ha : list.heap.nodes a = none) (hsize : list.size < intMax) :
    ∃ list', slInsert fuel list key val randomSeed (some a) = some (list', 0) ∧
      Linked list' (lo ++ (a, ⟨key, val, randomLevel randomSeed⟩) :: hi) := by
  let e : Entry := (a, ⟨key, val, randomLevel randomSeed⟩)
  have hlevel : e.2.level < slMaxlevel := randomLevel_lt randomSeed
  have hfresh := h.ne_address ha
  obtain ⟨heap, hinsert, hnodes, hrings⟩ := h.insertFrom_new hcut hfuel val randomSeed ha
  refine ⟨⟨list.size + 1, if (e.2.level : ℤ) > list.level then e.2.level else list.level, heap⟩,
    ?_, ?_⟩
  · change Option.bind (insertFrom fuel key a (randomLevel randomSeed + 1) _ _) _ = _
    rw [hinsert, Option.bind_some]
    exact if_neg hsize.ne
  constructor
  case sorted =>
    obtain ⟨hlo, hhi, hlohi⟩ := List.pairwise_append.mp h.sorted
    apply List.pairwise_append.mpr
    refine ⟨hlo, List.pairwise_cons.mpr ⟨hcut.hi, hhi⟩, ?_⟩
    intro x hx y hy
    rcases List.mem_cons.mp hy with rfl | hy
    · exact hcut.lo x hx
    · exact hlohi x hx y hy
  case nodes =>
    intro a' node
    have hnode := h.nodes a' node
    have hne := hfresh (a', node)
    rw [hnodes, Function.update_apply]
    simp only [List.mem_append, List.mem_cons, Prod.ext_iff] at hnode hne ⊢
    split_ifs with haa
    · simp only [Option.some.injEq]
      tauto
    · tauto
  case levels =>
    intro e' he'
    have := h.levels e'
    grind
  case rings => exact hrings
  case size =>
    have := h.size
    simp only [List.length_append, List.length_cons] at this ⊢
    omega
  case level =>
    left
    change (if (e.2.level : ℤ) > list.level then (e.2.level : ℤ) else list.level) =
      height (lo ++ e :: hi)
    rw [height_remove]
    rcases h.level with hlevel | ⟨hnil, hlevel⟩
    · rw [hlevel]
      split_ifs <;> omega
    · rw [hlevel, hnil, show height [] = -1 from rfl]
      split_ifs <;> omega

/-- **`sl_erase`** of a key that is not in the list. -/
theorem slErase_none (h : Linked list (lo ++ hi)) (hcut : Cut key lo none hi)
    (hfuel : lo.length < fuel) : slErase fuel list key = some (list, -einval) := by
  refine eraseFrom_none h.rings h.stores hcut hfuel ?_ (before_start _ lo)
  have := h.level_lt
  omega

/-- **`sl_erase`** of the key of the entry `e`. -/
theorem slErase_some (h : Linked list (lo ++ e :: hi)) (hcut : Cut key lo (some e) hi)
    (hfuel : lo.length < fuel) :
    ∃ list', slErase fuel list key = some (list', 0) ∧ Linked list' (lo ++ hi) := by
  have hmem : e ∈ lo ++ e :: hi := by simp
  obtain ⟨heap, herase, hnodes, hrings⟩ := eraseFrom_some h.rings h.stores hcut hfuel
    (by have := h.level_lt; omega) (h.level_lt_start hmem) (before_start _ lo)
  have hsub : ∀ e' ∈ lo ++ hi, e' ∈ lo ++ e :: hi := by
    intro e' he'
    simp only [List.mem_append, List.mem_cons] at he' ⊢
    tauto
  have hother : ∀ e' ∈ lo ++ hi, e'.1 ≠ e.1 := by
    intro e' he' heq
    obtain rfl := h.eq_of_address hmem (hsub e' he') heq
    exact hcut.key_ne he' (hcut.same e' rfl)
  have hheight : list.level = max (e.2.level : ℤ) (height (lo ++ hi)) := by
    rcases h.level with hlevel | ⟨hnil, -⟩
    · rw [hlevel, height_remove]
    · simp at hnil
  refine ⟨_, herase, ?_⟩
  constructor
  case sorted => exact h.sorted.sublist (by simp)
  case nodes =>
    intro a node
    have hnode := h.nodes a node
    have hne := hother (a, node)
    rw [hnodes, Function.update_apply]
    simp only [List.mem_append, List.mem_cons, Prod.ext_iff] at hnode hne ⊢
    split_ifs with haa
    · simp only [false_iff]
      tauto
    · tauto
  case levels => exact fun e' he' ↦ h.levels e' (hsub e' he')
  case rings => exact hrings
  case size =>
    have := h.size
    simp only [List.length_append, List.length_cons] at this ⊢
    omega
  case level =>
    left
    have := neg_one_le_height (lo ++ hi)
    change list.level - (e.2.level + 1 - min (e.2.level + 1 : ℤ) (height (lo ++ hi) + 1)) =
      height (lo ++ hi)
    omega

end Linked

end ParallelPrograms.SkipList
