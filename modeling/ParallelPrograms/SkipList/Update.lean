import ParallelPrograms.SkipList.Search
import Mathlib.Order.Lattice
import Mathlib.Tactic.NormNum

/-!
# Linking and unlinking

`sl_insert` links the new node from its highest level down, and `sl_erase` unlinks a node from its
highest level down. In between the levels above the current one are those of the list after the
operation, and the levels from the current one on are still those of the list before it.
-/

namespace ParallelPrograms.SkipList

open LinkedList

section Insert

variable {h : Heap} {i fuel : ℕ} {key : Key} {lo hi : List Entry} {pos : Link} {e : Entry}

/-- **The loop of `sl_insert`** from level `i - 1` on, for a key that is not in the list. -/
theorem insertFrom_eq (hdone : ∀ j < slMaxlevel, i ≤ j → h.RingAt j (lo ++ e :: hi))
    (hrings : ∀ j < i, h.RingAt j (lo ++ hi)) (hstores : h.Stores (lo ++ hi))
    (hnew : h.nodes e.1 = some e.2) (hfresh : ∀ e' ∈ lo ++ hi, e'.1 ≠ e.1)
    (hcut : Cut key lo none hi) (hfuel : lo.length < fuel) (hle : i ≤ e.2.level + 1)
    (hlevel : e.2.level < slMaxlevel) (hpos : ∀ j, i = j + 1 → Before j lo pos) :
    ∃ h', insertFrom fuel key e.1 i pos h = some (h', true) ∧ h'.nodes = h.nodes ∧
      ∀ j < slMaxlevel, h'.RingAt j (lo ++ e :: hi) := by
  induction i generalizing pos h with
  | zero => exact ⟨h, rfl, rfl, fun j hj ↦ hdone j hj (Nat.zero_le j)⟩
  | succ i ih =>
    have hlt : i < slMaxlevel := by omega
    have hring : h.RingAt i (lo ++ (Option.toList none ++ hi)) := hrings i (Nat.lt_succ_self i)
    obtain ⟨first, -, hnext, hwalk⟩ := round_eq hring hstores hlt hcut hfuel (hpos i rfl)
    have hnotMem : Link.node e.1 i ∉ linksAt i (lo ++ hi) := fun hmem ↦ by
      obtain ⟨e', he', -, heq⟩ := mem_linksAt.mp hmem
      exact hfresh e' he' (Option.some.inj (congrArg Link.block heq))
    obtain ⟨h', hadd, hsame, hring'⟩ :=
      Heap.listAdd_ring hring hstores hlt hnew (Nat.le_of_succ_le_succ hle) hnotMem
    rw [stop_passed hcut nofun] at hwalk
    simp only [insertFrom, hnext, Option.bind_eq_bind, Option.bind_some, hwalk,
      getPrev_eq_last hring hstores hlt nofun, hadd]
    rw [← hsame.1]
    refine ih (fun j hj hij ↦ ?_) (fun j hj ↦ ?_) ?_ ?_ (Nat.le_of_succ_le hle) (before_next i lo)
    · rcases hij.eq_or_lt with rfl | hij
      · exact hring'
      · exact (hdone j hj hij).congr hsame hij.ne'
    · exact (hrings j (Nat.lt_succ_of_lt hj)).congr hsame hj.ne
    · exact fun e' he' ↦ by rw [hsame.1, hstores e' he']
    · rw [hsame.1, hnew]

end Insert

/-! ## The highest level -/

/-- The highest level of the entries, `-1` when there are none. -/
def height (entries : List Entry) : ℤ :=
  entries.foldr (fun e level ↦ max (e.2.level : ℤ) level) (-1)

section Height

variable {entries lo hi : List Entry} {e : Entry}

@[simp]
theorem height_cons : height (e :: entries) = max (e.2.level : ℤ) (height entries) := rfl

theorem neg_one_le_height (entries : List Entry) : -1 ≤ height entries := by
  induction entries with
  | nil => exact le_rfl
  | cons e entries ih => exact ih.trans (le_max_right ..)

@[simp]
theorem height_append : height (lo ++ hi) = max (height lo) (height hi) := by
  induction lo with
  | nil => exact (max_eq_right (neg_one_le_height hi)).symm
  | cons e lo ih => calc
    height (e :: lo ++ hi) = max (e.2.level : ℤ) (height (lo ++ hi)) := rfl
    _ = max (e.2.level : ℤ) (max (height lo) (height hi)) := by rw [ih]
    _ = max (height (e :: lo)) (height hi) := (max_assoc ..).symm

theorem level_le_height (he : e ∈ entries) : (e.2.level : ℤ) ≤ height entries := by
  obtain ⟨lo, hi, rfl⟩ := List.append_of_mem he
  simp

theorem height_lt {i : ℕ} (h : ∀ e ∈ entries, e.2.level < i) : height entries < i := by
  induction entries with
  | nil => simp [height]; omega
  | cons e entries ih =>
    obtain ⟨he, hentries⟩ := List.forall_mem_cons.mp h
    exact max_lt (Int.ofNat_lt.mpr he) (ih hentries)

theorem linksAt_eq_nil_iff {i : ℕ} : linksAt i entries = [] ↔ height entries < i := by
  constructor
  · intro h
    apply height_lt
    intro e he
    by_contra hreach
    have hmem := mem_linksAt.mpr ⟨e, he, Nat.le_of_not_lt hreach, rfl⟩
    exact List.not_mem_nil (h ▸ hmem)
  · intro h
    apply tower_eq_nil
    intro e he
    have := level_le_height he
    omega

end Height

/-! ## Erasing -/

section Erase

variable {h : Heap} {i fuel : ℕ} {key : Key} {lo hi : List Entry} {pos : Link} {e : Entry}

/-- **The inner loop of `sl_erase`** from level `i - 1` on. Every level that becomes empty
decrements `list->level`. -/
theorem unlinkFrom_eq (level : ℤ) (hdone : ∀ j < slMaxlevel, i ≤ j → h.RingAt j (lo ++ hi))
    (hrings : ∀ j < i, h.RingAt j (lo ++ e :: hi)) (hstores : h.Stores (lo ++ e :: hi))
    (hle : i ≤ e.2.level + 1) (hlevel : e.2.level < slMaxlevel) :
    ∃ h', unlinkFrom i (.node e.1 (i - 1)) (level, h) =
        some (level - (i - min (i : ℤ) (height (lo ++ hi) + 1)), h') ∧
      h'.nodes = h.nodes ∧ ∀ j < slMaxlevel, h'.RingAt j (lo ++ hi) := by
  induction i generalizing h level with
  | zero =>
    have := neg_one_le_height (lo ++ hi)
    refine ⟨h, ?_, rfl, fun j hj ↦ hdone j hj (Nat.zero_le j)⟩
    rw [unlinkFrom, show min ((0 : ℕ) : ℤ) (height (lo ++ hi) + 1) = 0 by omega]
    simp
  | succ i ih =>
    have hlt : i < slMaxlevel := by omega
    obtain ⟨h', hdel, hsame, hring'⟩ :=
      Heap.listDel_ring (hrings i (Nat.lt_succ_self i)) hstores hlt (Nat.le_of_succ_le_succ hle)
    have hstores' : h'.Stores (lo ++ e :: hi) := fun e' he' ↦ by rw [hsame.1, hstores e' he']
    have hhead : h'.getNext (.head i) = some (firstOf (.head i) (linksAt i (lo ++ hi))) := calc
      h'.getNext (.head i) = some (h'.next (.head i)) :=
        Heap.getNext_eq (Heap.valid_of_mem_ring hstores' hlt List.mem_cons_self)
      _ = some (firstOf (.head i) (linksAt i (lo ++ hi))) := congrArg some hring'.forward.next_head
    have hempty : firstOf (.head i) (linksAt i (lo ++ hi)) = .head i ↔ height (lo ++ hi) < i := calc
      _ ↔ linksAt i (lo ++ hi) = [] := firstOf_eq_head_iff hring'.forward.head_notMem
      _ ↔ height (lo ++ hi) < i := linksAt_eq_nil_iff
    have hpred : (Link.node e.1 (↑(i + 1) - 1)).pred = .node e.1 (i - 1) := by
      simp [Link.ext_iff]
    have hdone' : ∀ j < slMaxlevel, i ≤ j → h'.RingAt j (lo ++ hi) := fun j hj hij ↦ by
      rcases hij.eq_or_lt with rfl | hij
      · exact hring'
      · exact (hdone j hj hij).congr hsame hij.ne'
    obtain ⟨h'', hunlink, hnodes, hrings''⟩ :=
      ih (if height (lo ++ hi) < i then level - 1 else level) hdone'
      (fun j hj ↦ (hrings j (Nat.lt_succ_of_lt hj)).congr hsame hj.ne) hstores'
      (Nat.le_of_succ_le hle)
    refine ⟨h'', ?_, hnodes.trans hsame.1, hrings''⟩
    have hindex : (↑(i + 1) - 1 : ℤ) = i := by simp
    have hcount : (if height (lo ++ hi) < i then level - 1 else level) -
        (i - min (i : ℤ) (height (lo ++ hi) + 1)) =
          level - (↑(i + 1) - min (↑(i + 1) : ℤ) (height (lo ++ hi) + 1)) := by
      split_ifs <;> omega
    rw [hcount] at hunlink
    rw [unlinkFrom, hpred, hindex, hdel]
    simp only [Option.bind_eq_bind, Option.bind_some, hhead, hempty, hunlink]

/-- **The loop of `sl_erase`** from level `i - 1` on, for a key that is not in the list. -/
theorem eraseFrom_none {list : SlList} (hrings : ∀ j < slMaxlevel, list.heap.RingAt j (lo ++ hi))
    (hstores : list.heap.Stores (lo ++ hi)) (hcut : Cut key lo none hi)
    (hfuel : lo.length < fuel) (hle : i ≤ slMaxlevel) (hpos : ∀ j, i = j + 1 → Before j lo pos) :
    eraseFrom fuel list key i pos = some (list, -einval) := by
  induction i generalizing pos with
  | zero => rfl
  | succ i ih =>
    have hring : list.heap.RingAt i (lo ++ (Option.toList none ++ hi)) := hrings i hle
    obtain ⟨first, hfirst, hnext, hwalk⟩ := round_eq hring hstores hle hcut hfuel (hpos i rfl)
    have hvalid := Heap.valid_of_mem_ring hstores hle hfirst
    rw [← walkSafe_eq hring hstores hle hfirst, stop_passed hcut nofun] at hwalk
    simp only [eraseFrom, hnext, Option.bind_eq_bind, Option.bind_some, Heap.getNext_eq hvalid,
      hwalk, getPrev_eq_last hring hstores hle nofun]
    exact ih (Nat.le_of_succ_le hle) (before_next i lo)

/-- **The loop of `sl_erase`** from level `i - 1` on, for the key of the entry `e`. -/
theorem eraseFrom_some {list : SlList}
    (hrings : ∀ j < slMaxlevel, list.heap.RingAt j (lo ++ e :: hi))
    (hstores : list.heap.Stores (lo ++ e :: hi)) (hcut : Cut key lo (some e) hi)
    (hfuel : lo.length < fuel) (hle : i ≤ slMaxlevel) (hreach : e.2.level < i)
    (hpos : ∀ j, i = j + 1 → Before j lo pos) :
    ∃ h', eraseFrom fuel list key i pos = some (⟨list.size - 1,
        list.level - (e.2.level + 1 - min (e.2.level + 1 : ℤ) (height (lo ++ hi) + 1)), h'⟩, 0) ∧
      h'.nodes = Function.update list.heap.nodes e.1 none ∧
        ∀ j < slMaxlevel, h'.RingAt j (lo ++ hi) := by
  induction i generalizing pos with
  | zero => exact absurd hreach (Nat.not_lt_zero _)
  | succ i ih =>
    have hring : list.heap.RingAt i (lo ++ ((some e).toList ++ hi)) := hrings i hle
    obtain ⟨first, hfirst, hnext, hwalk⟩ := round_eq hring hstores hle hcut hfuel (hpos i rfl)
    have hvalid := Heap.valid_of_mem_ring hstores hle hfirst
    rw [← walkSafe_eq hring hstores hle hfirst] at hwalk
    simp only [eraseFrom, hnext, Option.bind_eq_bind, Option.bind_some, Heap.getNext_eq hvalid,
      hwalk]
    rcases (Nat.le_of_lt_succ hreach).eq_or_lt with rfl | hlt
    · have hstop : stop key e.2.level ((some e).toList ++ hi) = .found (.node e.1 e.2.level) e :=
        stop_found hcut le_rfl
      have habove : ∀ j < slMaxlevel, e.2.level + 1 ≤ j → list.heap.RingAt j (lo ++ hi) := by
        intro j hj hlt
        have hring := hrings j hj
        rwa [Heap.RingAt, linksAt_append, linksAt_cons_of_lt hlt, ← linksAt_append] at hring
      obtain ⟨h', hunlink, hnodes, hrings'⟩ := unlinkFrom_eq list.level habove
        (fun j hj ↦ hrings j (by omega)) hstores le_rfl hle
      have hpos : Link.node e.1 (↑(e.2.level + 1) - 1) = .node e.1 e.2.level := by simp
      have hlive : (h'.nodes e.1).isSome = true := by
        rw [hnodes, hstores e (by simp)]
        rfl
      rw [hpos, Nat.cast_add_one] at hunlink
      refine ⟨{ h' with nodes := Function.update h'.nodes e.1 none }, ?_, ?_, hrings'⟩
      · rw [hstop]
        simp only [hunlink, Option.bind_some, Heap.free, hlive, if_true]
      · rw [hnodes]
    · rw [stop_passed hcut (by simpa using hlt)]
      simp only [getPrev_eq_last hring hstores hle (by simpa using hlt), Option.bind_some]
      exact ih (Nat.le_of_succ_le hle) hlt (before_next i lo)

end Erase

end ParallelPrograms.SkipList
