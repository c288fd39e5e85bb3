import ParallelPrograms.SkipList.Model
import ParallelPrograms.LinkedList.Tower
import Mathlib.Tactic.SplitIfs
import Mathlib.Tactic.Push

/-!
# The rings of a skip list

The nodes of a skip list are a list of entries in the order of level 0. The ring at level `i`
consists of the links with index `i` of the entries whose level is at least `i`. The functions on
links change one ring and leave the rings of all other levels alone, because links of different
levels have different indices.
-/

namespace ParallelPrograms.SkipList

open LinkedList

/-- An allocated node with its address. -/
abbrev Entry := Addr × SlNode

/-- The entries that have a link at level `i`. -/
def reaching (i : ℕ) (entries : List Entry) : List Entry := entries.filter fun e ↦ i ≤ e.2.level

/-- The links at level `i`. -/
abbrev linksAt (i : ℕ) (entries : List Entry) : List Link :=
  tower (fun e ↦ e.2.level) (fun e ↦ .node e.1 i) i entries

section LinksAt

variable {i : ℕ} {entries : List Entry} {e : Entry}

theorem linksAt_eq : linksAt i entries = (reaching i entries).map fun e ↦ .node e.1 i := rfl

@[simp]
theorem linksAt_nil : linksAt i [] = [] := rfl

@[simp]
theorem linksAt_append (lo hi : List Entry) :
    linksAt i (lo ++ hi) = linksAt i lo ++ linksAt i hi :=
  tower_append lo hi

theorem linksAt_cons_of_le (h : i ≤ e.2.level) :
    linksAt i (e :: entries) = .node e.1 i :: linksAt i entries :=
  tower_cons_of_le h

theorem linksAt_cons_of_lt (h : e.2.level < i) : linksAt i (e :: entries) = linksAt i entries :=
  tower_cons_of_lt h

theorem mem_linksAt {pos : Link} :
    pos ∈ linksAt i entries ↔ ∃ e ∈ entries, i ≤ e.2.level ∧ .node e.1 i = pos :=
  mem_tower

theorem index_of_mem_ring {pos : Link} (h : pos ∈ Link.head i :: linksAt i entries) :
    pos.index = i := by
  rcases List.mem_cons.mp h with rfl | h
  · rfl
  · obtain ⟨e, -, -, rfl⟩ := mem_linksAt.mp h
    rfl

end LinksAt

namespace Heap

/-- The ring at level `i` holds `entries`. -/
def RingAt (h : Heap) (i : ℕ) (entries : List Entry) : Prop :=
  Ring h.next h.prev (.head i) (linksAt i entries)

/-- The entries are allocated. -/
def Stores (h : Heap) (entries : List Entry) : Prop := ∀ e ∈ entries, h.nodes e.1 = some e.2

variable {h h' : Heap} {i : ℕ} {entries lo hi : List Entry} {pos new prev next : Link}

theorem valid_iff (h : Heap) (pos : Link) : h.valid pos = true ↔ 0 ≤ pos.index ∧
    (pos.block = none → pos.index < slMaxlevel) ∧
      ∀ a, pos.block = some a → ∃ node, h.nodes a = some node ∧ pos.index ≤ node.level := by
  obtain ⟨block, index⟩ := pos
  cases block <;> simp [valid, Option.any_eq_true]

theorem valid_of_mem_ring (hstores : h.Stores entries) (hi : i < slMaxlevel)
    (hpos : pos ∈ Link.head i :: linksAt i entries) : h.valid pos = true := by
  rw [valid_iff]
  rcases List.mem_cons.mp hpos with rfl | hpos
  · simpa using Int.ofNat_lt.mpr hi
  · obtain ⟨e, he, hlevel, rfl⟩ := mem_linksAt.mp hpos
    exact ⟨by simp, nofun, fun a ha ↦ ⟨e.2, by simpa [← Option.some.inj ha] using hstores e he,
      by simpa using hlevel⟩⟩

/-- Which links exist depends on the nodes only. -/
@[simp]
theorem valid_mk (next prev : Link → Link) : valid ⟨h.nodes, next, prev⟩ pos = h.valid pos := rfl

theorem getNext_eq (hpos : h.valid pos = true) : h.getNext pos = some (h.next pos) := if_pos hpos

theorem getPrev_eq (hpos : h.valid pos = true) : h.getPrev pos = some (h.prev pos) := if_pos hpos

theorem listInit_eq (hpos : h.valid pos = true) : h.listInit pos = some
    { h with next := Function.update h.next pos pos, prev := Function.update h.prev pos pos } := by
  simp [listInit, setNext, setPrev, hpos]

theorem listAdd_eq (hnew : h.valid new = true) (hprev : h.valid prev = true)
    (hnext : h.valid (h.next prev) = true) : h.listAdd new prev = some
      { h with
        next := Function.update (Function.update h.next new (h.next prev)) prev new
        prev := Function.update (Function.update h.prev (h.next prev) new) new prev } := by
  simp [listAdd, listAddBetween, getNext, setNext, setPrev, hnew, hprev, hnext]

theorem listDel_eq (hpos : h.valid pos = true) (hprev : h.valid (h.prev pos) = true)
    (hnext : h.valid (h.next pos) = true) : h.listDel pos = some
      { h with
        next := Function.update (Function.update h.next (h.prev pos) (h.next pos)) pos pos
        prev := Function.update (Function.update h.prev (h.next pos) (h.prev pos)) pos pos } := by
  simp [listDel, listDelBetween, listInit, getNext, getPrev, setNext, setPrev, hpos, hprev, hnext]

/-- Links of other levels are as before. -/
def SameExcept (h h' : Heap) (i : ℕ) : Prop :=
  h'.nodes = h.nodes ∧
    ∀ pos : Link, pos.index ≠ i → h'.next pos = h.next pos ∧ h'.prev pos = h.prev pos

theorem RingAt.congr {j : ℕ} (hring : h.RingAt j entries) (hsame : h.SameExcept h' i)
    (hne : j ≠ i) : h'.RingAt j entries := by
  have hindex : ∀ pos ∈ Link.head j :: linksAt j entries, pos.index ≠ i := fun pos hpos ↦ by
    rw [index_of_mem_ring hpos]
    exact_mod_cast hne
  exact Ring.congr hring (fun pos hpos ↦ (hsame.2 pos (hindex pos hpos)).1)
    fun pos hpos ↦ (hsame.2 pos (hindex pos hpos)).2

/-- `list_add` of a new link after the last of `lo`. -/
theorem listAdd_ring {e : Entry} (hring : h.RingAt i (lo ++ hi)) (hstores : h.Stores (lo ++ hi))
    (hlevel : i < slMaxlevel) (he : h.nodes e.1 = some e.2) (hreach : i ≤ e.2.level)
    (hnew : Link.node e.1 i ∉ linksAt i (lo ++ hi)) :
    ∃ h', h.listAdd (.node e.1 i) (lastOf (.head i) (linksAt i lo)) = some h' ∧
      h.SameExcept h' i ∧ h'.RingAt i (lo ++ e :: hi) := by
  have hring' : Ring h.next h.prev (.head i) (linksAt i lo ++ linksAt i hi) := by
    rw [← linksAt_append]
    exact hring
  have hseam := hring'.forward.seam _ _ rfl
  have hlast : lastOf (.head i) (linksAt i lo) ∈ Link.head i :: linksAt i (lo ++ hi) := by
    rw [linksAt_append]
    exact lastOf_mem_append ..
  have hfirst : firstOf (.head i) (linksAt i hi) ∈ Link.head i :: linksAt i (lo ++ hi) := by
    rw [linksAt_append]
    exact firstOf_mem_append ..
  have hnotMem : Link.node e.1 i ∉ Link.head i :: (linksAt i lo ++ linksAt i hi) := by
    rw [← linksAt_append]
    exact fun h ↦ (List.mem_cons.mp h).elim nofun hnew
  have hvalid : h.valid (.node e.1 i) = true := by
    rw [valid_iff]
    exact ⟨by simp, nofun, fun a ha ↦ ⟨e.2, by rw [← Option.some.inj ha, he], by simpa⟩⟩
  refine ⟨_, listAdd_eq hvalid (valid_of_mem_ring hstores hlevel hlast)
    (hseam ▸ valid_of_mem_ring hstores hlevel hfirst), ⟨rfl, fun pos hpos ↦ ?_⟩, ?_⟩
  · have := index_of_mem_ring hlast
    have := index_of_mem_ring hfirst
    grind [Function.update_apply, Link.node_index]
  · rw [RingAt, linksAt_append, linksAt_cons_of_le hreach, hseam]
    rw [linksAt_append] at hlast hfirst
    refine hring'.insert hnotMem ?_ ?_ ?_ ?_ ?_ ?_ <;> grind [Function.update_apply]

/-- `list_del` of a link. -/
theorem listDel_ring {e : Entry} (hring : h.RingAt i (lo ++ e :: hi))
    (hstores : h.Stores (lo ++ e :: hi)) (hlevel : i < slMaxlevel) (hreach : i ≤ e.2.level) :
    ∃ h', h.listDel (.node e.1 i) = some h' ∧ h.SameExcept h' i ∧ h'.RingAt i (lo ++ hi) := by
  have hring' : Ring h.next h.prev (.head i) (linksAt i lo ++ .node e.1 i :: linksAt i hi) := by
    rw [← linksAt_cons_of_le hreach, ← linksAt_append]
    exact hring
  have hmem : ∀ pos, pos ∈ Link.head i :: (linksAt i lo ++ .node e.1 i :: linksAt i hi) →
      pos ∈ Link.head i :: linksAt i (lo ++ e :: hi) := by
    rw [linksAt_append, linksAt_cons_of_le hreach]
    exact fun _ h ↦ h
  have hnext := hring'.forward.next_mem
  have hprev := hring'.prev_mem
  have hlast := hmem (lastOf (.head i) (linksAt i lo)) (lastOf_mem_append ..)
  have hfirst := hmem (firstOf (.head i) (linksAt i hi)) (by
    rw [List.append_cons]
    exact firstOf_mem_append ..)
  have hnodup := hring'.forward.nodup
  refine ⟨_, listDel_eq (valid_of_mem_ring hstores hlevel (hmem _ (by simp)))
    (hprev ▸ valid_of_mem_ring hstores hlevel hlast)
    (hnext ▸ valid_of_mem_ring hstores hlevel hfirst), ⟨rfl, fun pos hpos ↦ ?_⟩, ?_⟩
  · have := index_of_mem_ring hlast
    have := index_of_mem_ring hfirst
    grind [Function.update_apply, Link.node_index]
  · rw [RingAt, linksAt_append, hprev, hnext]
    have hnotMem : Link.node e.1 i ∉ Link.head i :: (linksAt i lo ++ linksAt i hi) := by
      grind
    have := lastOf_mem (.head i) (linksAt i lo)
    have := firstOf_mem (.head i) (linksAt i hi)
    refine hring'.remove ?_ ?_ ?_ ?_ <;> grind [Function.update_apply]

end Heap

end ParallelPrograms.SkipList
