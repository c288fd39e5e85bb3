import ParallelPrograms.SkipList.Levels
import Mathlib.Algebra.Order.Ring.Int

/-!
# Walking through a level

The entries of a list in key order are cut at a key: `lo` holds the smaller keys, `same` the entry
with the key, if there is one, and `hi` the greater keys. In every level an inner loop that starts
behind an entry of `lo` ends at the first link of `same` and `hi`. The link before it belongs to
the last entry of `lo` in that level, and one level down this is a link from which the next loop
can start.
-/

namespace ParallelPrograms.SkipList

open LinkedList

/-- The entries in key order. -/
def Sorted (entries : List Entry) : Prop := entries.Pairwise fun e e' ↦ e.2.key < e'.2.key

/-- The keys of `lo` are smaller than `key`, and those of `hi` are greater. -/
structure Cut (key : Key) (lo : List Entry) (same : Option Entry) (hi : List Entry) : Prop where
  lo : ∀ e ∈ lo, e.2.key < key
  same : ∀ e ∈ same, e.2.key = key
  hi : ∀ e ∈ hi, key < e.2.key

theorem Sorted.exists_cut {entries : List Entry} (h : Sorted entries) (key : Key) :
    ∃ lo same hi, entries = lo ++ (same.toList ++ hi) ∧ Cut key lo same hi := by
  induction entries with
  | nil => exact ⟨[], none, [], rfl, by simp, by simp, by simp⟩
  | cons e entries ih =>
    obtain ⟨hhead, htail⟩ := List.pairwise_cons.mp h
    rcases lt_trichotomy e.2.key key with hlt | heq | hgt
    · obtain ⟨lo, same, hi, rfl, hcut⟩ := ih htail
      exact ⟨e :: lo, same, hi, rfl, List.forall_mem_cons.mpr ⟨hlt, hcut.lo⟩, hcut.same, hcut.hi⟩
    · exact ⟨[], some e, entries, rfl, by simp, by simpa, fun e' he' ↦ heq ▸ hhead e' he'⟩
    · refine ⟨[], none, e :: entries, rfl, by simp, by simp, fun e' he' ↦ ?_⟩
      rcases List.mem_cons.mp he' with rfl | he'
      · exact hgt
      · exact hgt.trans (hhead e' he')

/-- The other entries have other keys. -/
theorem Cut.key_ne {key : Key} {lo hi : List Entry} {same : Option Entry} {e : Entry}
    (h : Cut key lo same hi) (he : e ∈ lo ++ hi) : e.2.key ≠ key := by
  rcases List.mem_append.mp he with hlo | hhi
  · exact (h.lo e hlo).ne
  · exact (h.hi e hhi).ne'

/-- A walk with this much fuel gets past the smaller keys. -/
theorem Sorted.exists_cut_lt {entries : List Entry} (h : Sorted entries) (key : Key) {fuel : ℕ}
    (hfuel : entries.length < fuel) :
    ∃ lo same hi, entries = lo ++ (same.toList ++ hi) ∧ Cut key lo same hi ∧ lo.length < fuel := by
  obtain ⟨lo, same, hi, rfl, hcut⟩ := h.exists_cut key
  refine ⟨lo, same, hi, rfl, hcut, ?_⟩
  rw [List.length_append] at hfuel
  omega

/-- Where an inner loop at level `i` ends. -/
def stop (key : Key) (i : ℕ) (rest : List Entry) : Stop :=
  match reaching i rest with
  | [] => .passed (.head i)
  | e :: _ => if e.2.key = key then .found (.node e.1 i) e else .passed (.node e.1 i)

/-- `pos` is the head of level `i` or the link of an entry of `lo`. -/
def Before (i : ℕ) (lo : List Entry) (pos : Link) : Prop :=
  ∃ passed ahead, lo = passed ++ ahead ∧ pos = lastOf (.head i) (linksAt i passed)

theorem before_head (i : ℕ) (lo : List Entry) : Before i lo (.head i) := ⟨[], lo, rfl, rfl⟩

/-- One level down, the last link of `lo` may be followed by more entries of `lo`. -/
theorem before_pred (i : ℕ) (lo : List Entry) :
    Before i lo (lastOf (.head ↑(i + 1)) (linksAt (i + 1) lo)).pred := by
  obtain ⟨passed, ahead, hlo, -, hlast⟩ := @exists_passed _ _ (fun e : Entry ↦ e.2.level)
    (fun e ↦ Link.node e.1 ↑(i + 1)) (Link.head ↑(i + 1)) i lo
  refine ⟨passed, ahead, hlo, ?_⟩
  have hhead : (Link.head ↑(i + 1)).pred = .head i := by
    simp [Link.ext_iff]
  have hlinks : (tower (fun e : Entry ↦ e.2.level) (fun e ↦ .node e.1 ↑(i + 1)) i passed).map
      Link.pred = linksAt i passed := by
    rw [tower, List.map_map]
    simp [tower, Link.ext_iff, Function.comp_def]
  rw [hlast, ← hhead, ← hlinks, lastOf_map]

/-- The next round of an outer loop starts there. -/
theorem before_next (i : ℕ) (lo : List Entry) (j : ℕ) (hj : i = j + 1) :
    Before j lo (lastOf (.head i) (linksAt i lo)).pred := by
  subst hj
  exact before_pred j lo

section Walk

variable {h : Heap} {i fuel : ℕ} {key : Key} {entries : List Entry}

theorem listEntry_node {e : Entry} (he : h.nodes e.1 = some e.2) :
    h.listEntry (.node e.1 i) i = some e := by
  simp [Heap.listEntry, he]

/-- The inner loop. -/
theorem walk_eq {passed ahead rest : List Entry} (hring : h.RingAt i (passed ++ (ahead ++ rest)))
    (hstores : h.Stores (passed ++ (ahead ++ rest))) (hi : i < slMaxlevel)
    (hahead : ∀ e ∈ ahead, e.2.key < key) (hrest : ∀ e ∈ rest, key ≤ e.2.key)
    (hfuel : ahead.length < fuel) :
    walk h (.head i) key i fuel (firstOf (.head i) (linksAt i (ahead ++ rest))) =
      some (stop key i rest) := by
  induction ahead generalizing passed fuel with
  | nil =>
    obtain ⟨fuel, rfl⟩ := Nat.exists_eq_succ_of_ne_zero hfuel.ne'
    rw [List.nil_append, walk, stop, linksAt_eq]
    cases hreach : reaching i rest with
    | nil => simp
    | cons e _ =>
      have he : e ∈ rest := List.mem_of_mem_filter (hreach ▸ List.mem_cons_self)
      rw [List.map_cons, firstOf_cons, if_neg (by simp [Link.ext_iff]),
        listEntry_node (hstores e (by simp [he]))]
      rcases (hrest e he).eq_or_lt with heq | hlt
      · simp [heq]
      · simp [hlt, hlt.ne']
  | cons e ahead ih =>
    have hahead' : ∀ e' ∈ ahead, e'.2.key < key := fun e' h ↦ hahead e' (List.mem_cons_of_mem _ h)
    have hassoc : passed ++ (e :: ahead ++ rest) = passed ++ [e] ++ (ahead ++ rest) := by simp
    rw [hassoc] at hring hstores
    by_cases hreach : i ≤ e.2.level
    · obtain ⟨fuel, rfl⟩ := Nat.exists_eq_succ_of_ne_zero (Nat.ne_zero_of_lt hfuel)
      have hmem : Link.node e.1 i ∈ Link.head i :: linksAt i (passed ++ [e] ++ (ahead ++ rest)) :=
        List.mem_cons_of_mem _ (mem_linksAt.mpr ⟨e, by simp, hreach, rfl⟩)
      have hlinks : linksAt i (passed ++ [e] ++ (ahead ++ rest)) =
          linksAt i passed ++ .node e.1 i :: linksAt i (ahead ++ rest) := by
        rw [linksAt_append, linksAt_append, linksAt_cons_of_le hreach, linksAt_nil,
          List.append_assoc, List.singleton_append]
      have hnext : h.next (.node e.1 i) = firstOf (.head i) (linksAt i (ahead ++ rest)) := by
        rw [Heap.RingAt, hlinks] at hring
        exact hring.forward.next_mem
      have hkey := hahead e List.mem_cons_self
      rw [List.cons_append, linksAt_cons_of_le hreach, firstOf_cons, walk,
        if_neg (by simp [Link.ext_iff]), listEntry_node (hstores e (by simp)),
        Heap.getNext_eq (Heap.valid_of_mem_ring hstores hi hmem), hnext]
      simpa [hkey.le.not_gt, hkey.ne] using
        ih hring hstores hahead' (Nat.lt_of_succ_lt_succ hfuel)
    · rw [List.cons_append, linksAt_cons_of_lt (Nat.lt_of_not_le hreach)]
      exact ih hring hstores hahead' (Nat.lt_of_succ_lt hfuel)

/-- The loop that reads ahead comes to the same end. -/
theorem walkSafe_eq (hring : h.RingAt i entries) (hstores : h.Stores entries)
    (hi : i < slMaxlevel) {pos : Link} (hpos : pos ∈ Link.head i :: linksAt i entries) :
    walkSafe h (.head i) key i fuel pos (h.next pos) = walk h (.head i) key i fuel pos := by
  induction fuel generalizing pos with
  | zero => rfl
  | succ fuel ih =>
    have hnext := hring.forward.next_mem_ring hpos
    have hvalid := Heap.valid_of_mem_ring hstores hi hpos
    have hvalidNext := Heap.valid_of_mem_ring hstores hi hnext
    rw [walkSafe, walk, Heap.getNext_eq hvalid, Heap.getNext_eq hvalidNext]
    split_ifs with hhead
    · rfl
    · cases h.listEntry pos i with
      | none => rfl
      | some node =>
        rcases lt_trichotomy node.2.key key with hlt | heq | hgt
        · simp [hlt.ne, hlt.le.not_gt, ih hnext]
        · simp [heq]
        · simp [hgt, hgt.ne']

end Walk

/-! ## One round of the outer loop -/

section Round

variable {h : Heap} {i fuel : ℕ} {key : Key} {lo hi : List Entry} {same : Option Entry} {pos : Link}

/-- The entry with the key is found in its own levels. -/
theorem stop_found {e : Entry} (hcut : Cut key lo (some e) hi) (hreach : i ≤ e.2.level) :
    stop key i (e :: hi) = .found (.node e.1 i) e := by
  simp [stop, reaching, hreach, hcut.same]

/-- Above them the loop ends before the greater keys. -/
theorem stop_passed (hcut : Cut key lo same hi) (hreach : ∀ e ∈ same, e.2.level < i) :
    stop key i (same.toList ++ hi) = .passed (firstOf (.head i) (linksAt i hi)) := by
  have hsame : reaching i (same.toList ++ hi) = reaching i hi := by
    cases same with
    | none => rfl
    | some e => simp [reaching, Nat.not_le.mpr (hreach e rfl)]
  rw [stop, hsame, linksAt_eq]
  cases hreaching : reaching i hi with
  | nil => rfl
  | cons e _ =>
    have he : e ∈ hi := List.mem_of_mem_filter (hreaching ▸ List.mem_cons_self)
    simp [(hcut.hi e he).ne']

/-- The loop finds its end from any link before the greater keys. -/
theorem round_eq (hring : h.RingAt i (lo ++ (same.toList ++ hi)))
    (hstores : h.Stores (lo ++ (same.toList ++ hi))) (hi' : i < slMaxlevel)
    (hcut : Cut key lo same hi) (hfuel : lo.length < fuel) (hpos : Before i lo pos) :
    ∃ first ∈ Link.head i :: linksAt i (lo ++ (same.toList ++ hi)), h.getNext pos = some first ∧
      walk h (.head i) key i fuel first = some (stop key i (same.toList ++ hi)) := by
  obtain ⟨passed, ahead, rfl, rfl⟩ := hpos
  rw [List.append_assoc] at hring hstores ⊢
  have hmem : lastOf (.head i) (linksAt i passed) ∈
      Link.head i :: linksAt i (passed ++ (ahead ++ (same.toList ++ hi))) := by
    rw [linksAt_append]
    exact lastOf_mem_append ..
  have hseam := hring
  rw [Heap.RingAt, linksAt_append] at hseam
  have hnext := calc
    h.getNext (lastOf (.head i) (linksAt i passed)) =
        some (h.next (lastOf (.head i) (linksAt i passed))) :=
      Heap.getNext_eq (Heap.valid_of_mem_ring hstores hi' hmem)
    _ = some (firstOf (.head i) (linksAt i (ahead ++ (same.toList ++ hi)))) :=
      congrArg some (hseam.forward.seam _ _ rfl)
  refine ⟨_, ?_, hnext, walk_eq hring hstores hi'
    (fun e he ↦ hcut.lo e (List.mem_append_right _ he)) (fun e he ↦ ?_) ?_⟩
  · rw [linksAt_append]
    exact firstOf_mem_append ..
  · rcases List.mem_append.mp he with he | he
    · exact (hcut.same e (by simpa using he)).ge
    · exact (hcut.hi e he).le
  · rw [List.length_append] at hfuel
    omega

/-- The link before the greater keys is the last one of `lo`. -/
theorem getPrev_eq_last (hring : h.RingAt i (lo ++ (same.toList ++ hi)))
    (hstores : h.Stores (lo ++ (same.toList ++ hi))) (hi' : i < slMaxlevel)
    (hreach : ∀ e ∈ same, e.2.level < i) :
    h.getPrev (firstOf (.head i) (linksAt i hi)) = some (lastOf (.head i) (linksAt i lo)) := by
  have hlinks : linksAt i (lo ++ (same.toList ++ hi)) = linksAt i lo ++ linksAt i hi := by
    cases same with
    | none => simp
    | some e => simp [linksAt_cons_of_lt (hreach e rfl)]
  have hmem : firstOf (.head i) (linksAt i hi) ∈
      Link.head i :: linksAt i (lo ++ (same.toList ++ hi)) := by
    rw [hlinks]
    exact firstOf_mem_append ..
  have hseam := hring
  rw [Heap.RingAt, hlinks] at hseam
  calc
    h.getPrev (firstOf (.head i) (linksAt i hi)) =
        some (h.prev (firstOf (.head i) (linksAt i hi))) :=
      Heap.getPrev_eq (Heap.valid_of_mem_ring hstores hi' hmem)
    _ = some (lastOf (.head i) (linksAt i lo)) := congrArg some hseam.prev_seam

/-- **`sl_search`** from level `i - 1` on. -/
theorem searchFrom_eq (hrings : ∀ j < slMaxlevel, h.RingAt j (lo ++ (same.toList ++ hi)))
    (hstores : h.Stores (lo ++ (same.toList ++ hi))) (hcut : Cut key lo same hi)
    (hfuel : lo.length < fuel) (hi' : i ≤ slMaxlevel) (hreach : ∀ e ∈ same, e.2.level < i)
    (hpos : ∀ j, i = j + 1 → Before j lo pos) :
    searchFrom h fuel key i pos = some (same.elim 0 fun e ↦ e.2.val) := by
  induction i generalizing pos with
  | zero =>
    cases same with
    | none => rfl
    | some e => exact absurd (hreach e rfl) (Nat.not_lt_zero _)
  | succ i ih =>
    obtain ⟨first, -, hnext, hwalk⟩ :=
      round_eq (hrings i hi') hstores hi' hcut hfuel (hpos i rfl)
    simp only [searchFrom, hnext, Option.bind_eq_bind, Option.bind_some, hwalk]
    by_cases hfound : ∃ e ∈ same, e.2.level = i
    · obtain ⟨e, rfl, rfl⟩ := hfound
      simp [stop_found hcut le_rfl]
    · have hreach' : ∀ e ∈ same, e.2.level < i := fun e he ↦
        lt_of_le_of_ne (Nat.le_of_lt_succ (hreach e he)) fun heq ↦ hfound ⟨e, he, heq⟩
      rw [stop_passed hcut hreach']
      simp only [getPrev_eq_last (hrings i hi') hstores hi' hreach', Option.bind_some]
      exact ih (Nat.le_of_succ_le hi') hreach' (before_next i lo)

end Round

end ParallelPrograms.SkipList
