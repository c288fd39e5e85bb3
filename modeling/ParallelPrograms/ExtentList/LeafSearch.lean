import ParallelPrograms.ExtentList.Leaf
import ParallelPrograms.Sequence.Intervals
import Mathlib.Data.Nat.Basic

/-!
# Searching a leaf

A leaf holds a list of extents when its arrays agree with each other up to `nr` and `max` is the
end of the last extent. The extents of a list are non-empty, end before `2 ^ 64` and lie one behind
the other. On such a leaf the bisection of `leaf_slot_locked` and the loop of `leaf_slot` both find
an extent that meets the range, or the position of the gap in which the range lies.
-/

namespace ParallelPrograms.ExtentList

open Sequence

variable {α : Type}

/-- Where the extent ends. -/
def SlSlot.stop (s : SlSlot α) : ℕ := s.key + s.size

/-- An extent that the code can tell from others: an empty one overlaps nothing, and the end of a
longer one wraps around. -/
structure SlSlot.Valid (s : SlSlot α) : Prop where
  pos : 0 < s.size
  fits : s.stop < 2 ^ 64

/-- Valid extents, one behind the other. -/
structure Extents (slots : List (SlSlot α)) : Prop where
  apart : Apart SlSlot.key SlSlot.stop slots
  valid : ∀ s ∈ slots, s.Valid

/-- The extent and the range have a key in common. -/
abbrev Overlaps (key size : ℕ) : SlSlot α → Prop :=
  Meets SlSlot.key SlSlot.stop key (key + size)

/-- The range lies between `left` and `right`. -/
abbrev Between (key size : ℕ) : List (SlSlot α) → List (SlSlot α) → Prop :=
  Gap SlSlot.key SlSlot.stop key (key + size)

theorem ulong_eq {n : ℕ} (h : n < 2 ^ 64) : ulong n = n := Nat.mod_eq_of_lt h

theorem SlSlot.Valid.key_lt_stop {s : SlSlot α} (h : s.Valid) : s.key < s.stop :=
  Nat.lt_add_of_pos_right h.pos

theorem SlSlot.Valid.ulong_stop {s : SlSlot α} (h : s.Valid) : ulong (s.key + s.size) = s.stop :=
  ulong_eq h.fits

namespace Extents

variable {slots left right : List (SlSlot α)} {s : SlSlot α} {key size : ℕ}

theorem of_sublist (h : Extents slots) {some : List (SlSlot α)} (hsub : some.Sublist slots) :
    Extents some :=
  ⟨h.apart.sublist hsub, fun s hs ↦ h.valid s (hsub.subset hs)⟩

/-- The keys of the extents ascend. -/
theorem key_le (h : Extents slots) {i j : ℕ} {t : SlSlot α} (hij : i ≤ j)
    (hs : slots[i]? = some s) (ht : slots[j]? = some t) : s.key ≤ t.key := by
  rcases hij.eq_or_lt with rfl | hlt
  · rw [hs, Option.some.injEq] at ht
    rw [ht]
  · obtain ⟨hi, rfl⟩ := List.getElem?_eq_some_iff.mp hs
    obtain ⟨hj, rfl⟩ := List.getElem?_eq_some_iff.mp ht
    have hstop := List.pairwise_iff_getElem.mp h.apart i j hi hj hlt
    exact (h.valid _ (List.getElem_mem hi)).key_lt_stop.le.trans hstop

theorem stop_le (h : Extents slots) {i j : ℕ} {t : SlSlot α} (hij : i < j)
    (hs : slots[i]? = some s) (ht : slots[j]? = some t) : s.stop ≤ t.key := by
  obtain ⟨hi, rfl⟩ := List.getElem?_eq_some_iff.mp hs
  obtain ⟨hj, rfl⟩ := List.getElem?_eq_some_iff.mp ht
  exact List.pairwise_iff_getElem.mp h.apart i j hi hj hij

theorem insert (h : Extents (left ++ right)) (hs : s.Valid)
    (hgap : Between s.key s.size left right) : Extents (left ++ s :: right) := by
  refine ⟨h.apart.insert hgap, fun t ht ↦ ?_⟩
  rcases List.mem_append.mp ht with ht | ht
  · exact h.valid t (List.mem_append_left _ ht)
  · rcases List.mem_cons.mp ht with rfl | ht
    · exact hs
    · exact h.valid t (List.mem_append_right _ ht)

end Extents

/-- The key and the pointer at a position. -/
def SlLeaf.item (leaf : SlLeaf α) (i : ℕ) : ℕ × Option (SlSlot α) := (leaf.keys i, leaf.ptrs i)

/-- The arrays of the leaf hold the extents. -/
structure SlLeaf.Holds (leaf : SlLeaf α) (slots : List (SlSlot α)) : Prop where
  nr : leaf.nr = slots.length
  room : slots.length ≤ skipKeysPerNode
  item : ∀ i s, slots[i]? = some s → leaf.item i = (s.key, some s)
  max : ∀ s, slots.getLast? = some s → leaf.max = s.stop

/-- What a search for a range among the extents of a leaf may return. -/
inductive Searched (slots : List (SlSlot α)) (key size : ℕ) : ℕ × ℕ → Prop where
  /-- An extent that the range overlaps. -/
  | found (i : ℕ) (s : SlSlot α) (hs : slots[i]? = some s) (hmeets : Overlaps key size s) :
    Searched slots key size (0, i)
  /-- The place for the range. -/
  | missing (left right : List (SlSlot α)) (hslots : slots = left ++ right)
    (hgap : Between key size left right) : Searched slots key size (1, left.length)

/-- The loop of `leaf_slot` behind a key that is below the bound. -/
theorem SlLeaf.scan_from (leaf : SlLeaf α) (bound count i cur : ℕ) (hcur : cur + 1 = i)
    (hkey : leaf.keys cur < bound) :
    leaf.keys (leaf.scan bound count i cur) < bound ∧ leaf.scan bound count i cur < i + count ∧
      (leaf.scan bound count i cur + 1 < i + count →
        bound ≤ leaf.keys (leaf.scan bound count i cur + 1)) := by
  induction count generalizing i cur with
  | zero => exact ⟨hkey, by rw [scan]; omega, fun hlt ↦ by rw [scan] at hlt; omega⟩
  | succ count ih =>
    rw [scan]
    split_ifs with hge
    · refine ⟨hkey, by omega, fun _ ↦ ?_⟩
      rwa [hcur]
    · have hnext := ih (i + 1) i rfl (Nat.lt_of_not_le hge)
      rwa [show i + 1 + count = i + (count + 1) by omega] at hnext

/-- The last key below the bound, or the first key when there is none. -/
theorem SlLeaf.scan_spec (leaf : SlLeaf α) (bound : ℕ) (hnr : 0 < leaf.nr) :
    leaf.scan bound leaf.nr 0 0 = 0 ∧ bound ≤ leaf.keys 0 ∨
      leaf.keys (leaf.scan bound leaf.nr 0 0) < bound ∧ leaf.scan bound leaf.nr 0 0 < leaf.nr ∧
        (leaf.scan bound leaf.nr 0 0 + 1 < leaf.nr →
          bound ≤ leaf.keys (leaf.scan bound leaf.nr 0 0 + 1)) := by
  obtain ⟨count, hcount⟩ := Nat.exists_eq_add_one.mpr hnr
  rw [hcount, scan]
  split_ifs with hge
  · exact .inl ⟨rfl, hge⟩
  · have hnext := scan_from leaf bound count 1 0 rfl (Nat.lt_of_not_le hge)
    rw [Nat.add_comm 1 count] at hnext
    exact .inr hnext

namespace SlLeaf.Holds

variable {leaf : SlLeaf α} {slots : List (SlSlot α)} {key size : ℕ}

theorem keys (h : leaf.Holds slots) {i : ℕ} {s : SlSlot α} (hs : slots[i]? = some s) :
    leaf.keys i = s.key :=
  congrArg Prod.fst (h.item i s hs)

theorem ptrs (h : leaf.Holds slots) {i : ℕ} {s : SlSlot α} (hs : slots[i]? = some s) :
    leaf.ptrs i = some s :=
  congrArg Prod.snd (h.item i s hs)

theorem getElem? (h : leaf.Holds slots) {i : ℕ} (hi : i < leaf.nr) : ∃ s, slots[i]? = some s ∧
    leaf.keys i = s.key ∧ leaf.ptrs i = some s := by
  have hlt : i < slots.length := h.nr ▸ hi
  have hs := List.getElem?_eq_getElem hlt
  exact ⟨_, hs, h.keys hs, h.ptrs hs⟩

/-- A range starts in a gap when the extent before position `i` ends before the range and the one
at this position starts behind it. -/
theorem missing (h : leaf.Holds slots) (hext : Extents slots) {i : ℕ} (hi : i ≤ leaf.nr)
    (hleft : ∀ s, i ≠ 0 → slots[i - 1]? = some s → s.stop ≤ key)
    (hright : ∀ s, slots[i]? = some s → key + size ≤ s.key) : Searched slots key size (1, i) := by
  have hlen : (slots.take i).length = i := by
    rw [List.length_take, ← h.nr]
    omega
  have hcut : Searched slots key size (1, (slots.take i).length) := by
    refine .missing _ (slots.drop i) (List.take_append_drop i slots).symm ⟨?_, ?_⟩
    · intro s hs
      obtain ⟨j, hj⟩ := List.mem_iff_getElem?.mp hs
      rw [List.getElem?_take] at hj
      split_ifs at hj with hji
      obtain ⟨t, ht, -⟩ := h.getElem? (i := i - 1) (by omega)
      rcases (Nat.le_sub_one_of_lt hji).eq_or_lt with rfl | hlt
      · exact hleft s (by omega) hj
      · have hvalid := hext.valid t (List.mem_of_getElem? ht)
        calc
          s.stop ≤ t.key := hext.stop_le hlt hj ht
          _ ≤ t.stop := hvalid.key_lt_stop.le
          _ ≤ key := hleft t (by omega) ht
    · intro s hs
      obtain ⟨j, hj⟩ := List.mem_iff_getElem?.mp hs
      rw [List.getElem?_drop] at hj
      have hlt : i < leaf.nr := by
        have := (List.getElem?_eq_some_iff.mp hj).1
        rw [h.nr]
        omega
      obtain ⟨t, ht, -⟩ := h.getElem? hlt
      exact (hright t ht).trans (hext.key_le (by omega) ht hj)
  rwa [hlen] at hcut

/-- The keys of the leaf lie before, inside and behind a range in this order. -/
theorem ascending_side (h : leaf.Holds slots) (hext : Extents slots) (hrange : key + size < 2 ^ 64) :
    Ascending (leaf.side key size) leaf.nr := by
  constructor
  all_goals
    intro i j hij hj hside
    obtain ⟨s, hs, hkey, -⟩ := h.getElem? (hij.trans_lt hj)
    obtain ⟨t, ht, hkey', -⟩ := h.getElem? hj
    have hle := hext.key_le hij hs ht
    simp only [side, hkey, hkey', ulong_eq hrange] at hside ⊢
    split_ifs at hside ⊢ <;> first | rfl | omega

/-- **`leaf_slot_locked`** -/
theorem leafSlotLocked_spec (h : leaf.Holds slots) (hext : Extents slots)
    (hrange : key + size < 2 ^ 64) :
    ∃ r, leaf.leafSlotLocked key size = some r ∧ Searched slots key size r := by
  have hbisect := bisect_all (h.ascending_side hext hrange)
  rw [leafSlotLocked]
  generalize bisect (leaf.side key size) 0 (leaf.nr - 1) = result at hbisect
  cases hbisect with
  | found mid hmid heq =>
    obtain ⟨s, hs, hkey, -⟩ := h.getElem? hmid
    have hvalid := hext.valid s (List.mem_of_getElem? hs)
    refine ⟨_, rfl, .found mid s hs ?_⟩
    simp only [side, hkey, ulong_eq hrange] at heq
    split_ifs at heq with hlt hge
    exact ⟨by omega, by have := hvalid.key_lt_stop; omega⟩
  | passed low hlow hlt hgt =>
    have hright : ∀ s, slots[low]? = some s → key + size ≤ s.key := by
      intro s hs
      have hlen := (List.getElem?_eq_some_iff.mp hs).1
      have hside := hgt low (h.nr ▸ hlen) le_rfl
      simp only [side, h.keys hs, ulong_eq hrange] at hside
      split_ifs at hside with hlt hge
      exact hge
    rcases Nat.eq_zero_or_pos low with rfl | hpos
    · exact ⟨(1, 0), by simp, h.missing hext hlow (fun _ hne ↦ absurd rfl hne) hright⟩
    · obtain ⟨s, hs, hkey, hptr⟩ := h.getElem? (i := low - 1) (by omega)
      have hvalid := hext.valid s (List.mem_of_getElem? hs)
      have hside := hlt (low - 1) (by omega)
      simp only [side, hkey, ulong_eq hrange] at hside
      split_ifs at hside with hbefore
      have hbelow : s.key < ulong (key + size) := by
        rw [ulong_eq hrange]
        omega
      simp only [hkey, hptr, hpos, hbelow, and_self, if_true, Option.bind_eq_bind, Option.bind_some,
        hvalid.ulong_stop, ge_iff_le, hbefore.not_ge, if_false]
      split_ifs with hstop
      · exact ⟨_, rfl, .found _ s hs ⟨by omega, hstop⟩⟩
      · refine ⟨_, rfl, h.missing hext hlow (fun t _ ht ↦ ?_) hright⟩
        rw [hs, Option.some.injEq] at ht
        exact ht ▸ Nat.le_of_not_lt hstop

/-- **`leaf_slot`** -/
theorem leafSlot_spec (h : leaf.Holds slots) (hext : Extents slots) (hne : slots ≠ [])
    (hrange : key + size < 2 ^ 64) :
    ∃ r, leaf.leafSlot key size = some r ∧ Searched slots key size r := by
  have hnr : 0 < leaf.nr := h.nr ▸ List.length_pos_iff.mpr hne
  have hscan := scan_spec leaf (ulong (key + size)) hnr
  rw [leafSlot]
  generalize leaf.scan (ulong (key + size)) leaf.nr 0 0 = cur at hscan
  rcases hscan with ⟨rfl, hge⟩ | ⟨hlt, hcur, hnext⟩
  · refine ⟨(1, 0), by simp [hge.not_gt], h.missing hext hnr.le (fun _ hne ↦ absurd rfl hne) ?_⟩
    intro s hs
    rwa [h.keys hs, ulong_eq hrange] at hge
  · obtain ⟨s, hs, hkey, hptr⟩ := h.getElem? hcur
    have hvalid := hext.valid s (List.mem_of_getElem? hs)
    rw [hkey, ulong_eq hrange] at hlt
    simp only [hkey, hptr, ulong_eq hrange, hlt, if_true, Option.bind_eq_bind, Option.bind_some,
      ne_eq, not_true, if_false, hvalid.ulong_stop, true_and]
    split_ifs with hstop hle
    · exact ⟨_, rfl, .found cur s hs ⟨hlt, hstop⟩⟩
    · exact ⟨_, rfl, .found cur s hs ⟨hlt, Nat.lt_of_le_of_lt hle hvalid.key_lt_stop⟩⟩
    · refine ⟨_, rfl, h.missing hext hcur (fun t _ ht ↦ ?_) fun t ht ↦ ?_⟩
      · rw [Nat.add_sub_cancel, hs, Option.some.injEq] at ht
        exact ht ▸ Nat.le_of_not_lt hstop
      · have hlen := (List.getElem?_eq_some_iff.mp ht).1
        have hge := hnext (h.nr ▸ hlen)
        rwa [h.keys ht, ulong_eq hrange] at hge

end SlLeaf.Holds

section Agreement

variable {slots : List (SlSlot α)} {key size i j : ℕ}

/-- A range that overlaps an extent has no place. -/
theorem Searched.not_found (hmissing : Searched slots key size (1, i)) {s : SlSlot α}
    (hs : s ∈ slots) : ¬ Overlaps key size s := by
  cases hmissing with
  | missing left right hslots hgap => exact hgap.not_meets (hslots ▸ hs)

/-- The place of a range is unique. -/
theorem Searched.missing_unique (hext : Extents slots) (hi : Searched slots key size (1, i))
    (hj : Searched slots key size (1, j)) : i ≤ j := by
  cases hi with
  | missing left right hslots hgap =>
    cases hj with
    | missing left' right' hslots' hgap' =>
      by_contra hlt
      -- the extent at the end of the shorter part would lie on both sides of the range
      obtain ⟨s, hs⟩ : ∃ s, slots[left'.length]? = some s :=
        ⟨_, List.getElem?_eq_getElem (by rw [hslots, List.length_append]; omega)⟩
      have hleft : s ∈ left := by
        rw [hslots, List.getElem?_append_left (by omega)] at hs
        exact List.mem_of_getElem? hs
      have hright : s ∈ right' := by
        rw [hslots', List.getElem?_append_right le_rfl] at hs
        exact List.mem_of_getElem? hs
      have hvalid := hext.valid s (hslots ▸ List.mem_append_left _ hleft)
      have hstop := hgap.left s hleft
      have hkey := hgap'.right s hright
      have := hvalid.key_lt_stop
      omega

/-- **The two searches agree.** On a leaf that no other thread changes, the sequential search of
`leaf_slot` returns what the bisection of `leaf_slot_locked` returns. Both find nothing and the same
place for the range, or both find an extent that overlaps the range; for a single key it is the
same extent. -/
theorem leaf_searches_agree {leaf : SlLeaf α} (h : leaf.Holds slots) (hext : Extents slots)
    (hne : slots ≠ []) (hrange : key + size < 2 ^ 64) :
    (∃ i, leaf.leafSlotLocked key size = some (1, i) ∧ leaf.leafSlot key size = some (1, i) ∧
      ∀ s ∈ slots, ¬ Overlaps key size s) ∨
    ∃ i j s t, leaf.leafSlotLocked key size = some (0, i) ∧ leaf.leafSlot key size = some (0, j) ∧
      slots[i]? = some s ∧ slots[j]? = some t ∧ Overlaps key size s ∧ Overlaps key size t ∧
        (size = 1 → s = t) := by
  obtain ⟨r, hlocked, hr⟩ := h.leafSlotLocked_spec hext hrange
  obtain ⟨r', hslot, hr'⟩ := h.leafSlot_spec hext hne hrange
  rw [hlocked, hslot]
  cases hr with
  | found i s hs hmeets =>
    cases hr' with
    | found j t ht hmeets' =>
      refine .inr ⟨i, j, s, t, rfl, rfl, hs, ht, hmeets, hmeets', fun hsize ↦ ?_⟩
      refine hext.apart.eq_of_contains (List.mem_of_getElem? hs) (List.mem_of_getElem? ht)
        (p := key) ⟨?_, hmeets.2⟩ ⟨?_, hmeets'.2⟩
      · have := hmeets.1
        omega
      · have := hmeets'.1
        omega
    | missing left right hslots hgap =>
      have hmissing : Searched slots key size (1, left.length) := .missing left right hslots hgap
      exact absurd hmeets (hmissing.not_found (List.mem_of_getElem? hs))
  | missing left right hslots hgap =>
    have hmissing : Searched slots key size (1, left.length) := .missing left right hslots hgap
    cases hr' with
    | found j t ht hmeets' => exact absurd hmeets' (hmissing.not_found (List.mem_of_getElem? ht))
    | missing left' right' hslots' hgap' =>
      have hmissing' : Searched slots key size (1, left'.length) :=
        .missing left' right' hslots' hgap'
      have hlen : left.length = left'.length :=
        (hmissing.missing_unique hext hmissing').antisymm (hmissing'.missing_unique hext hmissing)
      exact .inl ⟨left.length, rfl, by rw [hlen], fun s hs ↦ hmissing.not_found hs⟩

end Agreement

end ParallelPrograms.ExtentList
