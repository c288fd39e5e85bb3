import ParallelPrograms.ExtentList.LeafSearch
import Mathlib.Data.List.GetD
import Mathlib.Tactic.Set

/-!
# Changing a leaf

The loops that move slots inside a leaf or to another leaf, described position by position, and
what the leaf holds after a slot has been inserted, after a full leaf has been split, and after a
slot has been deleted. `delete_slot` reads one position behind the last slot. In a full leaf this
is behind the arrays, but what is read there does not become part of the leaf.
-/

namespace ParallelPrograms.ExtentList

open Sequence

variable {α : Type} {leaf : SlLeaf α} {left right slots : List (SlSlot α)} {s : SlSlot α}

namespace SlLeaf

@[simp]
theorem item_put (i key : ℕ) (ptr : Option (SlSlot α)) :
    (leaf.put i key ptr).item = Function.update leaf.item i (key, ptr) := by
  funext j
  by_cases hj : j = i
  · simp [item, hj]
  · simp [item, hj]

@[simp]
theorem item_setNr (nr : ℕ) : (leaf.setNr nr).item = leaf.item := rfl

@[simp]
theorem item_setMax (max : ℕ) : (leaf.setMax max).item = leaf.item := rfl

/-- The loop that makes room moves every slot behind `slot` by one position. -/
theorem shiftUp_spec (slot i : ℕ) (leaf : SlLeaf α) :
    (shiftUp slot i leaf).nr = leaf.nr ∧ (shiftUp slot i leaf).max = leaf.max ∧
      ∀ j, (shiftUp slot i leaf).item j =
        if slot < j ∧ j ≤ i then leaf.item (j - 1) else leaf.item j := by
  induction i generalizing leaf with
  | zero => exact ⟨rfl, rfl, fun j ↦ by rw [shiftUp, if_neg (by omega)]⟩
  | succ i ih =>
    rw [shiftUp]
    split_ifs with hslot
    · obtain ⟨hnr, hmax, hitem⟩ := ih (leaf.put (i + 1) (leaf.keys i) (leaf.ptrs i))
      refine ⟨hnr, hmax, fun j ↦ ?_⟩
      rw [hitem, item_put, Function.update_apply, Function.update_apply]
      by_cases hj : j = i + 1
      · simp [hj, item, hslot]
      · rw [if_neg hj]
        by_cases hle : j ≤ i
        · rw [if_neg (by omega : ¬ j - 1 = i + 1)]
          exact if_congr (by omega) rfl rfl
        · rw [if_neg (by omega), if_neg (by omega)]
    · exact ⟨rfl, rfl, fun j ↦ by rw [if_neg (by omega)]⟩

/-- The loops that copy slots to another leaf. -/
theorem copyItems_spec (leaf : SlLeaf α) (count src dst : ℕ) (split : SlLeaf α) :
    (leaf.copyItems count src dst split).nr = split.nr ∧
      (leaf.copyItems count src dst split).max = split.max ∧
      ∀ j, (leaf.copyItems count src dst split).item j =
        if dst ≤ j ∧ j < dst + count then leaf.item (src + (j - dst)) else split.item j := by
  induction count generalizing src dst split with
  | zero => exact ⟨rfl, rfl, fun j ↦ by rw [copyItems, if_neg (by omega)]⟩
  | succ count ih =>
    obtain ⟨hnr, hmax, hitem⟩ :=
      ih (src + 1) (dst + 1) (split.put dst (leaf.keys src) (leaf.ptrs src))
    refine ⟨hnr, hmax, fun j ↦ ?_⟩
    rw [copyItems, hitem, item_put, Function.update_apply]
    by_cases hj : j = dst
    · simp [hj, item]
    · rw [if_neg hj]
      by_cases hlt : j < dst
      · rw [if_neg (by omega), if_neg (by omega)]
      · rw [show src + 1 + (j - (dst + 1)) = src + (j - dst) by omega]
        exact if_congr (by omega) rfl rfl

/-- The loop that closes the place of a slot moves every slot behind it. -/
theorem shiftDown_spec (beyond : ℕ × Option (SlSlot α)) (count i : ℕ) (leaf : SlLeaf α) :
    (shiftDown beyond count i leaf).nr = leaf.nr ∧
      (shiftDown beyond count i leaf).max = leaf.max ∧
      ∀ j, (shiftDown beyond count i leaf).item j =
        if i ≤ j ∧ j < i + count then leaf.read beyond (j + 1) else leaf.item j := by
  induction count generalizing i leaf with
  | zero => exact ⟨rfl, rfl, fun j ↦ by rw [shiftDown, if_neg (by omega)]⟩
  | succ count ih =>
    obtain ⟨hnr, hmax, hitem⟩ :=
      ih (i + 1) (leaf.put i (leaf.read beyond (i + 1)).1 (leaf.read beyond (i + 1)).2)
    refine ⟨hnr, hmax, fun j ↦ ?_⟩
    rw [shiftDown, hitem, item_put, Function.update_apply]
    by_cases hj : j = i
    · rw [if_neg (by omega), if_pos hj, if_pos (by omega), hj]
    · rw [if_neg hj]
      by_cases hlt : j < i
      · rw [if_neg (by omega), if_neg (by omega)]
      · -- the positions behind `i` have not been written yet
        have hread : (leaf.put i (leaf.read beyond (i + 1)).1 (leaf.read beyond (i + 1)).2).read
            beyond (j + 1) = leaf.read beyond (j + 1) := by
          have hne : j + 1 ≠ i := by omega
          simp [read, hne]
        rw [hread]
        exact if_congr (by omega) rfl rfl

/-- Inserting before the end. -/
theorem insertSlot_of_lt {slot : ℕ} (key : ℕ) (hslot : slot < leaf.nr) :
    (leaf.insertSlot s key slot).nr = leaf.nr + 1 ∧ (leaf.insertSlot s key slot).max = leaf.max ∧
      ∀ j ≤ leaf.nr, (leaf.insertSlot s key slot).item j =
        if j = slot then (key, some s) else if slot < j then leaf.item (j - 1) else leaf.item j := by
  obtain ⟨hnr, hmax, hitem⟩ :=
    shiftUp_spec slot leaf.nr ((leaf.put leaf.nr 0 none).setNr (leaf.nr + 1))
  rw [insertSlot, if_pos hslot]
  refine ⟨hnr, hmax, fun j hj ↦ ?_⟩
  simp only [item_put, Function.update_apply, put_nr, setNr_nr, Nat.add_sub_cancel, hitem,
    item_setNr]
  rcases lt_trichotomy j slot with hlt | rfl | hgt
  · rw [if_neg hlt.ne, if_neg hlt.ne, if_neg (by omega), if_neg (by omega), if_neg (by omega)]
  · rw [if_pos rfl, if_pos rfl]
  · rw [if_neg hgt.ne', if_neg hgt.ne', if_pos ⟨hgt, hj⟩, if_pos hgt, if_neg (by omega)]

/-- Inserting at the end. -/
theorem insertSlot_of_ge {slot : ℕ} (key : ℕ) (hslot : leaf.nr ≤ slot) :
    (leaf.insertSlot s key slot).nr = leaf.nr + 1 ∧
      (leaf.insertSlot s key slot).max = ulong (key + s.size) ∧
      ∀ j, (leaf.insertSlot s key slot).item j =
        if j = slot then (key, some s) else leaf.item j := by
  rw [insertSlot, if_neg hslot.not_gt]
  refine ⟨rfl, rfl, fun j ↦ ?_⟩
  simp only [item_setNr, item_put, Function.update_apply, item_setMax]

/-- Splitting a full leaf when the new slot stays in the first half. -/
theorem splitItems_of_lt {slot : ℕ} (split : SlLeaf α) (key : ℕ) (hnr : leaf.nr = skipKeysPerNode)
    (hslot : slot < 16) :
    (leaf.splitItems split s key slot).nr = 16 ∧ (leaf.splitItems split s key slot).max = leaf.max ∧
      ∀ j < 16, (leaf.splitItems split s key slot).item j = leaf.item (16 + j) := by
  obtain ⟨hnr', hmax, hitem⟩ :=
    copyItems_spec leaf 16 16 0 ((split.setNr 16).setMax leaf.max)
  have heq : leaf.splitItems split s key slot =
      leaf.copyItems 16 16 0 ((split.setNr 16).setMax leaf.max) := by
    have hzero : slot - (skipKeysPerNode - skipKeysPerNode / 2) = 0 := Nat.sub_eq_zero_of_le hslot.le
    simp only [splitItems, hnr, hzero]
    exact if_neg hslot.not_ge
  rw [heq]
  refine ⟨hnr', hmax, fun j hj ↦ ?_⟩
  rw [hitem, if_pos (by omega), Nat.sub_zero]

/-- Splitting a full leaf when the new slot goes to the second half. -/
theorem splitItems_of_ge {slot : ℕ} (split : SlLeaf α) (key : ℕ) (hnr : leaf.nr = skipKeysPerNode)
    (hslot : 16 ≤ slot) (hlt : slot < skipKeysPerNode) :
    (leaf.splitItems split s key slot).nr = 17 ∧ (leaf.splitItems split s key slot).max = leaf.max ∧
      ∀ j < 17, (leaf.splitItems split s key slot).item j =
        if j = slot - 16 then (key, some s)
          else if slot - 16 < j then leaf.item (16 + (j - 1)) else leaf.item (16 + j) := by
  have hsrc : 16 + (slot - 16) = slot := Nat.add_sub_cancel' hslot
  obtain ⟨hnr₁, hmax₁, hitem₁⟩ :=
    copyItems_spec leaf (slot - 16) 16 0 ((split.setNr 16).setMax leaf.max)
  set first := leaf.copyItems (slot - 16) 16 0 ((split.setNr 16).setMax leaf.max) with hfirst
  obtain ⟨hnr₂, hmax₂, hitem₂⟩ := copyItems_spec leaf (32 - slot) slot (slot - 16 + 1)
    ((first.put (slot - 16) key (some s)).setNr (first.nr + 1))
  have heq : leaf.splitItems split s key slot = leaf.copyItems (32 - slot) slot (slot - 16 + 1)
      ((first.put (slot - 16) key (some s)).setNr (first.nr + 1)) := by
    have hsub : slot - (skipKeysPerNode - skipKeysPerNode / 2) = slot - 16 := rfl
    have hadd : skipKeysPerNode - skipKeysPerNode / 2 + (slot - 16) = slot := hsrc
    simp only [splitItems, hnr, hsub, hadd]
    exact if_pos hslot
  rw [heq]
  refine ⟨by rw [hnr₂, setNr_nr, hnr₁, setMax_nr, setNr_nr], ?_, fun j hj ↦ ?_⟩
  · rw [hmax₂, setNr_max, put_max, hmax₁, setMax_max]
  · rw [hitem₂, item_setNr, item_put, Function.update_apply, hitem₁]
    rcases lt_trichotomy j (slot - 16) with hj' | rfl | hj'
    · rw [if_neg (by omega), if_neg hj'.ne, if_neg hj'.ne, if_pos (by omega), if_neg hj'.not_gt,
        Nat.sub_zero]
    · rw [if_neg (by omega), if_pos rfl, if_pos rfl]
    · change slot < 32 at hlt
      rw [if_pos (by omega), if_neg hj'.ne', if_pos hj']
      congr 1
      omega

end SlLeaf

/-- A list with an inserted element, position by position. -/
theorem getElem?_insert (left right : List (SlSlot α)) (s : SlSlot α) (j : ℕ) :
    (left ++ s :: right)[j]? = if j = left.length then some s
      else if left.length < j then (left ++ right)[j - 1]? else (left ++ right)[j]? := by
  rcases lt_trichotomy j left.length with hj | rfl | hj
  · rw [if_neg hj.ne, if_neg hj.not_gt, List.getElem?_append_left hj,
      List.getElem?_append_left hj]
  · simp
  · obtain ⟨k, rfl⟩ := Nat.exists_eq_add_of_lt hj
    rw [if_neg hj.ne', if_pos hj, List.getElem?_append_right (by omega),
      List.getElem?_append_right (by omega),
      show left.length + k + 1 - left.length = k + 1 by omega, List.getElem?_cons_succ]
    congr 1
    omega

theorem getLast?_insert (left : List (SlSlot α)) (s : SlSlot α) (hright : right ≠ []) :
    (left ++ s :: right).getLast? = (left ++ right).getLast? := by
  rw [List.getLast?_append, List.getLast?_append, List.getLast?_cons]
  obtain ⟨t, ht⟩ := Option.ne_none_iff_exists'.mp (mt List.getLast?_eq_none_iff.mp hright)
  simp [ht]

namespace SlLeaf.Holds

/-- **The label `insert` of `add_key_to_leaf`.** -/
theorem insertSlot (h : leaf.Holds (left ++ right)) (hs : s.Valid)
    (hroom : (left ++ right).length < skipKeysPerNode) :
    (leaf.insertSlot s s.key left.length).Holds (left ++ s :: right) := by
  have hnr := h.nr
  have hlen : (left ++ s :: right).length = leaf.nr + 1 := by
    simp [hnr, Nat.add_assoc]
  rw [← hnr] at hroom
  by_cases hlt : left.length < leaf.nr
  · obtain ⟨hnr', hmax, hitem⟩ := insertSlot_of_lt (s := s) s.key hlt
    refine ⟨hnr'.trans hlen.symm, by omega, fun j t ht ↦ ?_, fun t ht ↦ ?_⟩
    · have hj := (List.getElem?_eq_some_iff.mp ht).1
      rw [getElem?_insert] at ht
      rw [hitem j (by omega)]
      split_ifs at ht ⊢
      · rw [Option.some.injEq] at ht
        rw [ht]
      · exact h.item _ t ht
      · exact h.item _ t ht
    · have hright : right ≠ [] := by
        rintro rfl
        simp [hnr] at hlt
      rw [getLast?_insert left s hright] at ht
      exact hmax.trans (h.max t ht)
  · obtain ⟨hnr', hmax, hitem⟩ := insertSlot_of_ge (s := s) s.key (Nat.le_of_not_lt hlt)
    rw [List.length_append] at hnr
    obtain rfl : right = [] := List.length_eq_zero_iff.mp (by omega)
    refine ⟨hnr'.trans hlen.symm, by omega, fun j t ht ↦ ?_, fun t ht ↦ ?_⟩
    · have hj := (List.getElem?_eq_some_iff.mp ht).1
      rw [getElem?_insert] at ht
      rw [hitem]
      split_ifs at ht ⊢
      · rw [Option.some.injEq] at ht
        rw [ht]
      · omega
      · exact h.item j t ht
    · obtain rfl : s = t := by simpa using ht
      exact hmax.trans hs.ulong_stop

/-- A new leaf with one slot. -/
theorem startLeaf (hs : s.Valid) (split : SlLeaf α) : (startLeaf split s s.key).Holds [s] where
  nr := rfl
  room := Nat.succ_le_succ (Nat.zero_le _)
  item i t ht := by
    have hi := (List.getElem?_eq_some_iff.mp ht).1
    obtain rfl : i = 0 := by simpa using hi
    obtain rfl : s = t := by simpa using ht
    rw [SlLeaf.startLeaf, item_put, Function.update_self]
  max t ht := by
    obtain rfl : s = t := by simpa using ht
    exact hs.ulong_stop

/-- The first half of a full leaf. -/
theorem keepHalf (h : leaf.Holds slots) (hext : Extents slots)
    (hfull : slots.length = skipKeysPerNode) :
    ∃ leaf', leaf.keepHalf = some leaf' ∧ leaf'.Holds (slots.take (skipKeysPerNode / 2)) := by
  obtain ⟨s, hs, hkey, hptr⟩ := h.getElem? (i := 15) (by rw [h.nr, hfull]; decide)
  have hvalid := hext.valid s (List.mem_of_getElem? hs)
  have hmax : ulong (leaf.keys 15 + s.size) = s.stop := by
    rw [hkey, hvalid.ulong_stop]
  refine ⟨(leaf.setMax s.stop).setNr 16, ?_, ?_, ?_, fun i t ht ↦ ?_, fun t ht ↦ ?_⟩
  · change (leaf.ptrs 15).bind _ = _
    rw [hptr, Option.bind_some, ← hmax]
    rfl
  · rw [List.length_take, hfull]
    rfl
  · rw [List.length_take, hfull]
    decide
  · rw [List.getElem?_take] at ht
    split_ifs at ht
    exact h.item i t ht
  · rw [List.getLast?_take, if_neg (by decide), show slots[skipKeysPerNode / 2 - 1]? = some s from hs,
      Option.some_or, Option.some.injEq] at ht
    rw [← ht]
    rfl

/-- The second half of a full leaf, with the new slot when its place is there. -/
theorem splitItems (h : leaf.Holds (left ++ right)) (split : SlLeaf α)
    (hfull : (left ++ right).length = skipKeysPerNode) (hright : right ≠ []) :
    (leaf.splitItems split s s.key left.length).Holds
      (if skipKeysPerNode / 2 ≤ left.length then left.drop (skipKeysPerNode / 2) ++ s :: right
        else (left ++ right).drop (skipKeysPerNode / 2)) := by
  have hnr := h.nr.trans hfull
  have hpos := List.length_pos_iff.mpr hright
  have hlen : left.length + right.length = 32 := by
    rw [← List.length_append, hfull]
  have hlast := h.max
  change (leaf.splitItems split s s.key left.length).Holds
      (if 16 ≤ left.length then left.drop 16 ++ s :: right else (left ++ right).drop 16)
  split_ifs with hmid
  · obtain ⟨hnr', hmax, hitem⟩ :=
      splitItems_of_ge (s := s) split s.key hnr hmid (by change left.length < 32; omega)
    refine ⟨?_, ?_, fun j t ht ↦ ?_, fun t ht ↦ ?_⟩
    · rw [hnr', List.length_append, List.length_drop, List.length_cons]
      omega
    · rw [List.length_append, List.length_drop, List.length_cons]
      change _ ≤ 32
      omega
    · have hj := (List.getElem?_eq_some_iff.mp ht).1
      rw [List.length_append, List.length_drop, List.length_cons] at hj
      rw [hitem j (by omega)]
      have hdrop : left.drop 16 ++ right = (left ++ right).drop 16 :=
        (List.drop_append_of_le_length hmid).symm
      rw [getElem?_insert, List.length_drop, hdrop, List.getElem?_drop, List.getElem?_drop] at ht
      split_ifs at ht ⊢
      · rw [Option.some.injEq] at ht
        rw [ht]
      · exact h.item _ t ht
      · exact h.item _ t ht
    · rw [getLast?_insert _ s hright, List.getLast?_append] at ht
      rw [List.getLast?_append] at hlast
      obtain ⟨u, hu⟩ := Option.ne_none_iff_exists'.mp (mt List.getLast?_eq_none_iff.mp hright)
      rw [hu, Option.some_or] at ht hlast
      exact hmax.trans (hlast t ht)
  · obtain ⟨hnr', hmax, hitem⟩ :=
      splitItems_of_lt (s := s) split s.key hnr (Nat.lt_of_not_le hmid)
    refine ⟨?_, ?_, fun j t ht ↦ ?_, fun t ht ↦ ?_⟩
    · rw [hnr', List.length_drop, hfull]
      rfl
    · rw [List.length_drop, hfull]
      decide
    · have hj := (List.getElem?_eq_some_iff.mp ht).1
      rw [List.length_drop, hfull] at hj
      change j < 16 at hj
      rw [List.getElem?_drop] at ht
      rw [hitem j hj]
      exact h.item _ t ht
    · rw [List.getLast?_drop, if_neg (by rw [hfull]; decide)] at ht
      exact hmax.trans (hlast t ht)

/-- **`delete_slot`**, whatever lies behind the arrays. -/
theorem deleteSlot (h : leaf.Holds (left ++ s :: right)) (hext : Extents (left ++ s :: right))
    (beyond : ℕ × Option (SlSlot α)) :
    ∃ leaf', leaf.deleteSlot beyond left.length = some leaf' ∧ leaf'.Holds (left ++ right) := by
  have hnr := h.nr
  have hroom := h.room
  rw [List.length_append, List.length_cons] at hnr hroom
  have hlen : (left ++ right).length = left.length + right.length := List.length_append
  by_cases hlast : left.length = leaf.nr - 1
  · obtain rfl : right = [] := List.length_eq_zero_iff.mp (by omega)
    rw [List.append_nil] at hlen ⊢
    have hitem : ∀ j t, left[j]? = some t → leaf.item j = (t.key, some t) := fun j t ht ↦ by
      have hj := (List.getElem?_eq_some_iff.mp ht).1
      exact h.item j t (by rw [List.getElem?_append_left hj, ht])
    rw [SlLeaf.deleteSlot, if_neg (not_not.mpr hlast)]
    split_ifs with hone
    · obtain ⟨t, ht, hkey, hptr⟩ := h.getElem? (i := leaf.nr - 2) (by omega)
      rw [List.getElem?_append_left (by omega)] at ht
      have hvalid := hext.valid t (List.mem_append_left _ (List.mem_of_getElem? ht))
      rw [hptr]
      refine ⟨_, rfl, ?_, by omega, hitem, fun u hu ↦ ?_⟩
      · rw [setNr_nr, setMax_nr]
        omega
      · rw [List.getLast?_eq_getElem?, show left.length - 1 = leaf.nr - 2 by omega, ht,
          Option.some.injEq] at hu
        rw [setNr_max, setMax_max, hkey, hvalid.ulong_stop, hu]
    · obtain rfl : left = [] := List.length_eq_zero_iff.mp (by omega)
      exact ⟨_, rfl, hlast.symm, by simp, hitem, by simp⟩
  · obtain ⟨hnr', hmax, hitem⟩ := shiftDown_spec beyond (leaf.nr - left.length) left.length leaf
    rw [SlLeaf.deleteSlot, if_pos hlast]
    refine ⟨_, rfl, ?_, ?_, fun j t ht ↦ ?_, fun t ht ↦ ?_⟩
    · rw [setNr_nr, hnr']
      omega
    · omega
    · have hj := (List.getElem?_eq_some_iff.mp ht).1
      rw [item_setNr, hitem]
      rcases lt_or_ge j left.length with hlt | hge
      · rw [if_neg (by omega)]
        refine h.item j t ?_
        rwa [List.getElem?_append_left hlt] at ht ⊢
      · have hread : leaf.read beyond (j + 1) = leaf.item (j + 1) := if_pos (by omega)
        rw [if_pos (by omega), hread]
        refine h.item (j + 1) t ?_
        rw [getElem?_insert, if_neg (by omega), if_pos (by omega), Nat.add_sub_cancel, ht]
    · have hright : right ≠ [] := by
        rintro rfl
        simp at hnr
        omega
      rw [setNr_max, hmax]
      exact h.max t (by rw [getLast?_insert left s hright, ht])

end SlLeaf.Holds

/-- As long as the loop stays inside the arrays, what lies behind them does not matter. -/
theorem SlLeaf.shiftDown_inside (beyond beyond' : ℕ × Option (SlSlot α)) (count i : ℕ)
    (leaf : SlLeaf α) (h : i + count < skipKeysPerNode) :
    shiftDown beyond count i leaf = shiftDown beyond' count i leaf := by
  induction count generalizing i leaf with
  | zero => rfl
  | succ count ih =>
    have hread : leaf.read beyond (i + 1) = leaf.read beyond' (i + 1) := by
      have hlt : i + 1 < skipKeysPerNode := by omega
      rw [read, read, if_pos hlt, if_pos hlt]
    simp only [shiftDown, hread]
    exact ih (i + 1) _ (by omega)

/-- **`delete_slot` reads behind the arrays of a full leaf.** It removes exactly the slot it is
given, whatever lies behind the arrays. The words it leaves in the arrays depend on what lies there
if and only if the leaf is full and the slot is not the last one: then the loop copies the element
with index 32, which does not exist. -/
theorem deleteSlot_reads_beyond_iff (h : leaf.Holds (left ++ s :: right))
    (hext : Extents (left ++ s :: right)) :
    (∀ beyond, ∃ leaf', leaf.deleteSlot beyond left.length = some leaf' ∧
      leaf'.Holds (left ++ right)) ∧
    ((∃ beyond beyond', leaf.deleteSlot beyond left.length ≠ leaf.deleteSlot beyond' left.length) ↔
      leaf.nr = skipKeysPerNode ∧ right ≠ []) := by
  have hnr := h.nr
  have hroom := h.room
  rw [List.length_append, List.length_cons] at hnr hroom
  refine ⟨h.deleteSlot hext, ?_, ?_⟩
  · rintro ⟨beyond, beyond', hne⟩
    by_contra hinside
    apply hne
    simp only [SlLeaf.deleteSlot]
    by_cases hlast : left.length = leaf.nr - 1
    · rw [if_neg (not_not.mpr hlast), if_neg (not_not.mpr hlast)]
    · have hright : right ≠ [] := by
        rintro rfl
        simp at hnr
        omega
      have hlt : leaf.nr < skipKeysPerNode :=
        Nat.lt_of_le_of_ne (hnr.trans_le hroom) fun heq ↦ hinside ⟨heq, hright⟩
      rw [SlLeaf.shiftDown_inside beyond beyond' _ _ _ (by omega)]
  · rintro ⟨hfull, hright⟩
    have hpos := List.length_pos_iff.mpr hright
    change _ ≤ 32 at hroom
    have hcopied : ∀ beyond : ℕ × Option (SlSlot α),
        (leaf.deleteSlot beyond left.length).map (fun leaf' ↦ leaf'.item 31) = some beyond := by
      intro beyond
      obtain ⟨-, -, hitem⟩ := SlLeaf.shiftDown_spec beyond (leaf.nr - left.length) left.length leaf
      rw [SlLeaf.deleteSlot, if_pos (by omega), Option.map_some, SlLeaf.item_setNr, hitem,
        if_pos ⟨by omega, by rw [Nat.add_sub_cancel' (by omega), hfull]; decide⟩]
      rfl
    refine ⟨(0, none), (1, none), fun heq ↦ ?_⟩
    have hzero := hcopied (0, none)
    rw [heq, hcopied (1, none)] at hzero
    simp at hzero

/-- The extents of a full leaf. -/
def fullSlots : List (SlSlot ℕ) := (List.range 32).map fun i ↦ ⟨i, 1, i⟩

def fullLeaf : SlLeaf ℕ := ⟨32, 32, id, fun i ↦ some ⟨i, 1, i⟩⟩

theorem fullLeaf_holds : fullLeaf.Holds fullSlots := by
  refine ⟨rfl, le_rfl, fun i s hs ↦ ?_, fun s hs ↦ ?_⟩
  · obtain ⟨j, hj, rfl⟩ := Option.map_eq_some_iff.mp (List.getElem?_map .. ▸ hs)
    obtain ⟨hi, rfl⟩ := List.getElem?_eq_some_iff.mp hj
    rw [List.getElem_range]
    rfl
  · obtain rfl : (⟨31, 1, 31⟩ : SlSlot ℕ) = s := Option.some.inj hs
    rfl

theorem extents_fullSlots : Extents fullSlots := by
  refine ⟨List.pairwise_map.mpr (List.pairwise_lt_range.imp fun hlt ↦ hlt), fun s hs ↦ ?_⟩
  obtain ⟨i, hi, rfl⟩ := List.mem_map.mp hs
  have hlt := List.mem_range.mp hi
  refine ⟨Nat.one_pos, ?_⟩
  change i + 1 < 2 ^ 64
  omega

theorem deleteSlot_reads_beyond_iff_fullLeaf :
    (∀ beyond, ∃ leaf', fullLeaf.deleteSlot beyond 0 = some leaf' ∧
      leaf'.Holds ([] ++ fullSlots.tail)) ∧
    ((∃ beyond beyond', fullLeaf.deleteSlot beyond 0 ≠ fullLeaf.deleteSlot beyond' 0) ↔
      fullLeaf.nr = skipKeysPerNode ∧ fullSlots.tail ≠ []) :=
  deleteSlot_reads_beyond_iff
    (show fullLeaf.Holds ([] ++ ⟨0, 1, 0⟩ :: fullSlots.tail) from fullLeaf_holds) extents_fullSlots

end ParallelPrograms.ExtentList
