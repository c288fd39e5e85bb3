import ParallelPrograms.ExtentList.Links
import ParallelPrograms.ExtentList.LeafUpdate

/-!
# A list that is in order

The invariant of the extent skip list between two operations, and what it says about the keys. A
key cuts the list: the leaves that end at it or before come first, and only the first leaf behind
them may have the key between its smallest and its largest one.
-/

namespace ParallelPrograms.ExtentList

open LinkedList Sequence

variable {α : Type}

/-- All extents, in ascending order. -/
def contents (entries : List (Entry α)) : List (SlSlot α) := entries.flatMap Entry.slots

@[simp]
theorem contents_nil : contents ([] : List (Entry α)) = [] := rfl

@[simp]
theorem contents_cons (e : Entry α) (entries : List (Entry α)) :
    contents (e :: entries) = e.slots ++ contents entries := rfl

@[simp]
theorem contents_append (before after : List (Entry α)) :
    contents (before ++ after) = contents before ++ contents after := List.flatMap_append

theorem mem_contents {entries : List (Entry α)} {t : SlSlot α} :
    t ∈ contents entries ↔ ∃ e ∈ entries, t ∈ e.slots := List.mem_flatMap

/-- The key of the first extent of a leaf. -/
def Entry.minKey (e : Entry α) : ℕ := (e.slots.head?.map SlSlot.key).getD 0

/-- The end of the last extent of a leaf. -/
def Entry.maxKey (e : Entry α) : ℕ := (e.slots.getLast?.map SlSlot.stop).getD 0

/-- The invariant of the list. -/
structure Linked (s : State α) (entries : List (Entry α)) : Prop where
  nodes : Nodes s entries
  chains : ∀ level < skipMaxlevel, ChainAt s level (nodesAt level entries)
  holds : ∀ e ∈ entries, (s.leaves e.addr).Holds e.slots
  nonempty : ∀ e ∈ entries, e.slots ≠ []
  extents : Extents (contents entries)
  low : ∀ e ∈ entries, e.height ≤ s.level
  bound : s.level < skipMaxlevel

/-- The leaves of `lo` end at the key or before, and those of `rest` behind it. -/
structure Cut (key : ℕ) (lo rest : List (Entry α)) : Prop where
  below : ∀ e ∈ lo, e.maxKey ≤ key
  above : ∀ e ∈ rest, key < e.maxKey

namespace Linked

variable {s : State α} {entries lo rest : List (Entry α)} {e : Entry α} {key : ℕ} {t : SlSlot α}

/-- Locks, preloaded leaves and leaves that have been given back are not part of the list. -/
theorem congr {s' : State α} (h : Linked s entries) (hlevel : s'.level = s.level)
    (hallocated : s'.allocated = s.allocated) (hheight : s'.height = s.height)
    (hdead : s'.dead = s.dead) (hnext : s'.next = s.next) (hprev : s'.prev = s.prev)
    (hleaves : ∀ e ∈ entries, s'.leaves e.addr = s.leaves e.addr) : Linked s' entries where
  nodes := h.nodes.congr hallocated hheight hdead
  chains level hlt := by
    rw [ChainAt, hnext, hprev]
    exact h.chains level hlt
  holds e he := hleaves e he ▸ h.holds e he
  nonempty := h.nonempty
  extents := h.extents
  low e he := hlevel ▸ h.low e he
  bound := hlevel ▸ h.bound

theorem withLevel (h : Linked s entries) {level : ℕ} (hlevel : s.level ≤ level)
    (hbound : level < skipMaxlevel) : Linked { s with level := level } entries :=
  ⟨h.nodes.congr rfl rfl rfl, h.chains, h.holds, h.nonempty, h.extents,
    fun e he ↦ (h.low e he).trans hlevel, hbound⟩

theorem withLocks (h : Linked s entries) (locked : Node → Bool) :
    Linked (s.withLocks locked) entries :=
  h.congr rfl rfl rfl rfl rfl rfl fun _ _ ↦ rfl

/-! ## Keys -/

theorem extents_of_mem (h : Linked s entries) (he : e ∈ entries) : Extents e.slots := by
  obtain ⟨before, after, rfl⟩ := List.append_of_mem he
  refine h.extents.of_sublist ?_
  rw [contents_append, contents_cons]
  exact (List.sublist_append_left ..).trans (List.sublist_append_right ..)

theorem minKey_le (h : Linked s entries) (he : e ∈ entries) (ht : t ∈ e.slots) :
    e.minKey ≤ t.key := by
  obtain ⟨i, hi⟩ := List.mem_iff_getElem?.mp ht
  obtain ⟨u, hu⟩ := Option.ne_none_iff_exists'.mp (mt List.head?_eq_none_iff.mp (h.nonempty e he))
  have hle := (h.extents_of_mem he).key_le (Nat.zero_le i) (List.head?_eq_getElem? ▸ hu) hi
  rwa [Entry.minKey, hu]

theorem stop_le_maxKey (h : Linked s entries) (he : e ∈ entries) (ht : t ∈ e.slots) :
    t.stop ≤ e.maxKey := by
  obtain ⟨i, hi⟩ := List.mem_iff_getElem?.mp ht
  have hext := h.extents_of_mem he
  obtain ⟨u, hu⟩ :=
    Option.ne_none_iff_exists'.mp (mt List.getLast?_eq_none_iff.mp (h.nonempty e he))
  rw [Entry.maxKey, hu, Option.map_some, Option.getD_some]
  rw [List.getLast?_eq_getElem?] at hu
  have hlt := (List.getElem?_eq_some_iff.mp hi).1
  rcases (Nat.le_sub_one_of_lt hlt).eq_or_lt with rfl | hbefore
  · rw [hi, Option.some.injEq] at hu
    rw [hu]
  · have hvalid := hext.valid u (List.mem_of_getElem? hu)
    exact (hext.stop_le hbefore hi hu).trans hvalid.key_lt_stop.le

theorem minKey_lt_maxKey (h : Linked s entries) (he : e ∈ entries) : e.minKey < e.maxKey := by
  obtain ⟨t, ht⟩ := List.exists_mem_of_ne_nil _ (h.nonempty e he)
  have hvalid := (h.extents_of_mem he).valid t ht
  calc
    e.minKey ≤ t.key := h.minKey_le he ht
    _ < t.stop := hvalid.key_lt_stop
    _ ≤ e.maxKey := h.stop_le_maxKey he ht

theorem exists_first_slot (h : Linked s entries) (he : e ∈ entries) :
    ∃ t ∈ e.slots, e.minKey = t.key := by
  obtain ⟨t, ht⟩ := Option.ne_none_iff_exists'.mp (mt List.head?_eq_none_iff.mp (h.nonempty e he))
  exact ⟨t, List.mem_of_head? ht, by rw [Entry.minKey, ht]; rfl⟩

theorem exists_last_slot (h : Linked s entries) (he : e ∈ entries) :
    ∃ t ∈ e.slots, e.maxKey = t.stop := by
  obtain ⟨t, ht⟩ :=
    Option.ne_none_iff_exists'.mp (mt List.getLast?_eq_none_iff.mp (h.nonempty e he))
  exact ⟨t, List.mem_of_getLast? ht, by rw [Entry.maxKey, ht]; rfl⟩

/-- The leaves lie one behind the other. -/
theorem apart (h : Linked s entries) : Apart Entry.minKey Entry.maxKey entries := by
  have hpairs := (List.pairwise_flatMap.mp h.extents.apart).2
  refine hpairs.imp_of_mem fun he he' hcross ↦ ?_
  obtain ⟨t, ht, hmax⟩ := h.exists_last_slot he
  obtain ⟨u, hu, hmin⟩ := h.exists_first_slot he'
  rw [hmax, hmin]
  exact hcross t ht u hu

theorem exists_cut (h : Linked s entries) (key : ℕ) :
    ∃ lo rest, entries = lo ++ rest ∧ Cut key lo rest := by
  obtain ⟨lo, rest, hsplit, hbelow, habove⟩ :=
    h.apart.exists_cut (fun e he ↦ h.minKey_lt_maxKey he) key
  exact ⟨lo, rest, hsplit, hbelow, habove⟩

/-- Behind the first leaf that ends behind the key, all leaves start behind the key. -/
theorem key_lt_minKey (h : Linked s (lo ++ e :: rest)) (hcut : Cut key lo (e :: rest))
    {e' : Entry α} (he' : e' ∈ rest) : key < e'.minKey := by
  have hpairs := (List.pairwise_append.mp h.apart).2.1
  exact (hcut.above e List.mem_cons_self).trans_le ((List.pairwise_cons.mp hpairs).1 e' he')

/-- Only the first leaf behind the key can have it. -/
theorem first_of_find? (h : Linked s (lo ++ rest)) (hcut : Cut key lo rest) {level : ℕ}
    (hfind : (rest.find? fun e ↦ level ≤ e.height) = some e) (hmin : ¬ key < e.minKey) :
    ∃ rest', rest = e :: rest' := by
  have he := List.mem_of_find?_eq_some hfind
  cases rest with
  | nil => simp at he
  | cons e₀ rest' =>
    rcases List.mem_cons.mp he with rfl | hlater
    · exact ⟨rest', rfl⟩
    · exact absurd (h.key_lt_minKey hcut hlater) hmin

/-! ## Reading -/

theorem getLeaf (h : Linked s entries) (he : e ∈ entries) :
    s.getLeaf e.addr = some (s.leaves e.addr) := if_pos (h.nodes.allocated e he)

theorem leaf_max (h : Linked s entries) (he : e ∈ entries) :
    (s.leaves e.addr).max = e.maxKey := by
  obtain ⟨t, ht⟩ :=
    Option.ne_none_iff_exists'.mp (mt List.getLast?_eq_none_iff.mp (h.nonempty e he))
  rw [Entry.maxKey, ht, (h.holds e he).max t ht]
  rfl

theorem slMinKey (h : Linked s entries) (he : e ∈ entries) :
    s.slMinKey e.addr = some e.minKey := by
  obtain ⟨t, ht⟩ := Option.ne_none_iff_exists'.mp (mt List.head?_eq_none_iff.mp (h.nonempty e he))
  rw [State.slMinKey, h.getLeaf he, Option.map_some, Entry.minKey, ht,
    (h.holds e he).keys (List.head?_eq_getElem? ▸ ht)]
  rfl

theorem slMaxKey (h : Linked s entries) (he : e ∈ entries) :
    s.slMaxKey e.addr = some e.maxKey := by
  rw [State.slMaxKey, h.getLeaf he, Option.map_some, h.leaf_max he]

/-! ## Changing a leaf -/

/-- The leaves have different addresses. -/
theorem addr_ne (h : Linked s (lo ++ e :: rest)) {e' : Entry α} (he' : e' ∈ lo ++ rest) :
    e'.addr ≠ e.addr := by
  have hchain := (h.chains 0 (by decide)).nodup
  rw [List.nodup_cons, nodesAt_append, nodesAt_cons_of_le (Nat.zero_le _)] at hchain
  have hnotMem := (List.nodup_middle.mp hchain.2)
  rw [List.nodup_cons, ← nodesAt_append] at hnotMem
  intro heq
  refine hnotMem.1 (mem_tower.mpr ⟨e', he', Nat.zero_le _, ?_⟩)
  rw [Entry.node, Entry.node, heq]

end Linked

namespace State

@[simps -fullyApplied]
def withLeaves (s : State α) (leaves : Addr → SlLeaf α) : State α := { s with leaves := leaves }

variable {s : State α} {a : Addr}

theorem setLeaf_eq (leaf : SlLeaf α) (h : s.allocated a = true) :
    s.setLeaf a leaf = some (s.withLeaves (Function.update s.leaves a leaf)) := if_pos h

end State

/-- The extents of a leaf change. -/
theorem Linked.setLeaf {s : State α} {before after : List (Entry α)} {e : Entry α}
    (h : Linked s (before ++ e :: after)) {leaf : SlLeaf α} {slots : List (SlSlot α)}
    (hholds : leaf.Holds slots) (hne : slots ≠ [])
    (hext : Extents (contents (before ++ { e with slots := slots } :: after))) :
    Linked (s.withLeaves (Function.update s.leaves e.addr leaf))
      (before ++ { e with slots := slots } :: after) := by
  have hmem : ∀ e' ∈ before ++ { e with slots := slots } :: after,
      e' = { e with slots := slots } ∨ e' ∈ before ++ after := by
    intro e' he'
    simp only [List.mem_append, List.mem_cons] at he' ⊢
    tauto
  have hold : ∀ e' ∈ before ++ after, e' ∈ before ++ e :: after := by
    intro e' he'
    simp only [List.mem_append, List.mem_cons] at he' ⊢
    tauto
  have he : e ∈ before ++ e :: after := by simp
  constructor
  · constructor
    · intro e' he'
      rcases hmem e' he' with rfl | he'
      · exact h.nodes.allocated e he
      · exact h.nodes.allocated e' (hold e' he')
    · intro e' he'
      rcases hmem e' he' with rfl | he'
      · exact h.nodes.height e he
      · exact h.nodes.height e' (hold e' he')
    · intro e' he'
      rcases hmem e' he' with rfl | he'
      · exact h.nodes.alive e he
      · exact h.nodes.alive e' (hold e' he')
    · exact h.nodes.headHeight
    · exact h.nodes.headAlive
  · intro level hlevel
    have htower : nodesAt level (before ++ { e with slots := slots } :: after) =
        nodesAt level (before ++ e :: after) := tower_congr rfl rfl
    rw [htower]
    exact h.chains level hlevel
  · intro e' he'
    rcases hmem e' he' with rfl | he'
    · rw [State.withLeaves_leaves, Function.update_self]
      exact hholds
    · rw [State.withLeaves_leaves, Function.update_of_ne (h.addr_ne he')]
      exact h.holds e' (hold e' he')
  · intro e' he'
    rcases hmem e' he' with rfl | he'
    · exact hne
    · exact h.nonempty e' (hold e' he')
  · exact hext
  · intro e' he'
    rcases hmem e' he' with rfl | he'
    · exact h.low e he
    · exact h.low e' (hold e' he')
  · exact h.bound

end ParallelPrograms.ExtentList
