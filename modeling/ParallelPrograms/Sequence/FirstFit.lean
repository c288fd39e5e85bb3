import ParallelPrograms.Sequence.Intervals
import Mathlib.Algebra.Order.Floor.Div
import Mathlib.Data.Nat.Basic

/-!
# First fit

A search for free room between intervals in ascending order. It goes from position to position,
where only some positions are allowed, and stops at the first one from which a range of a given
size fits before the next interval. An interval that starts before the position is passed, even if it
ends behind it, so the range that is found may start inside of such an interval. When the search
finds nothing, there is nothing to find.
-/

namespace ParallelPrograms.Sequence

variable {ι : Type*} (lo hi : ι → ℕ) (up : ℕ → ℕ) (size limit : ℕ)

/-- How a search ends: behind all intervals, without room below the limit, or with a position. -/
inductive Fit where
  | next (pos : ℕ)
  | full
  | hole (pos : ℕ)

/-- The search from a position. -/
def firstFit : List ι → ℕ → Fit
  | [], pos => .next pos
  | x :: xs, pos =>
    if lo x < pos then firstFit xs pos
    else if pos + size ≤ lo x then if limit < pos + size then .full else .hole pos
    else if limit < up (hi x) + size then .full
    else firstFit xs (up (hi x))

/-- `up k` is the first position from `k` on that is allowed. -/
structure Rounding (Allowed : ℕ → Prop) : Prop where
  le : ∀ k, k ≤ up k
  allowed : ∀ k, Allowed (up k)
  least : ∀ k a, Allowed a → k ≤ a → up k ≤ a

/-- The first multiple of `align` from `k` on. -/
def roundUp (align k : ℕ) : ℕ := align * (k ⌈/⌉ align)

theorem rounding_roundUp {align : ℕ} (h : 0 < align) : Rounding (roundUp align) (align ∣ ·) where
  le _ := (ceilDiv_le_iff_le_mul h).mp le_rfl
  allowed _ := Dvd.intro _ rfl
  least k a ha hle := by
    obtain ⟨m, rfl⟩ := ha
    exact Nat.mul_le_mul_left align ((ceilDiv_le_iff_le_mul h).mpr hle)

theorem roundUp_lt {align : ℕ} (h : 0 < align) (k : ℕ) : roundUp align k < k + align := by
  rw [roundUp, Nat.ceilDiv_eq_add_pred_div]
  have := Nat.mul_div_le (k + align - 1) align
  omega

variable (Allowed : ℕ → Prop)

/-- The search has passed these intervals and gone on from `pos` to `pos'`. -/
structure Passed (xs : List ι) (pos pos' : ℕ) : Prop where
  le : pos ≤ pos'
  left : ∀ x ∈ xs, lo x < pos'
  /-- There is no room before. -/
  covered : ∀ a, Allowed a → pos ≤ a → a < pos' → ∃ x ∈ xs, Meets lo hi a (a + size) x
  start : pos' = pos ∨ ∃ x ∈ xs, pos' = up (hi x)

/-- What the result of a search says about the intervals. -/
inductive Fits (xs : List ι) (pos : ℕ) : Fit → Prop where
  | next (pos' : ℕ) (hpassed : Passed lo hi up size Allowed xs pos pos') : Fits xs pos (.next pos')
  | full (hcovered : ∀ a, Allowed a → pos ≤ a → a + size ≤ limit →
      ∃ x ∈ xs, Meets lo hi a (a + size) x) : Fits xs pos .full
  | hole (left right : List ι) (pos' : ℕ) (hsplit : xs = left ++ right) (hne : right ≠ [])
      (hpassed : Passed lo hi up size Allowed left pos pos') (hlimit : pos' + size ≤ limit)
      (hroom : ∀ x ∈ right, pos' + size ≤ lo x) : Fits xs pos (.hole pos')

variable {lo hi up size limit Allowed} {xs ys left right : List ι} {x : ι} {pos pos' pos'' a : ℕ}

namespace Passed

theorem nil (pos : ℕ) : Passed lo hi up size Allowed ([] : List ι) pos pos :=
  ⟨le_rfl, by simp, fun _ _ hle hlt ↦ absurd hlt hle.not_gt, .inl rfl⟩

/-- Intervals that start before the position are passed. -/
theorem of_left (h : ∀ x ∈ xs, lo x < pos) : Passed lo hi up size Allowed xs pos pos :=
  ⟨le_rfl, h, fun _ _ hle hlt ↦ absurd hlt hle.not_gt, .inl rfl⟩

theorem append (h : Passed lo hi up size Allowed xs pos pos')
    (h' : Passed lo hi up size Allowed ys pos' pos'') :
    Passed lo hi up size Allowed (xs ++ ys) pos pos'' where
  le := h.le.trans h'.le
  left x hx := by
    rcases List.mem_append.mp hx with hx | hx
    · exact (h.left x hx).trans_le h'.le
    · exact h'.left x hx
  covered a ha hle hlt := by
    rcases lt_or_ge a pos' with hbefore | hafter
    · obtain ⟨x, hx, hmeets⟩ := h.covered a ha hle hbefore
      exact ⟨x, List.mem_append_left _ hx, hmeets⟩
    · obtain ⟨x, hx, hmeets⟩ := h'.covered a ha hafter hlt
      exact ⟨x, List.mem_append_right _ hx, hmeets⟩
  start := by
    rcases h'.start with rfl | ⟨x, hx, hup⟩
    · refine h.start.imp id ?_
      rintro ⟨x, hx, hup⟩
      exact ⟨x, List.mem_append_left _ hx, hup⟩
    · exact .inr ⟨x, List.mem_append_right _ hx, hup⟩

/-- An interval that starts too early for the range is passed to its end. -/
theorem single (hup : Rounding up Allowed) (hne : lo x < hi x) (hpos : pos ≤ lo x)
    (htight : lo x < pos + size) : Passed lo hi up size Allowed [x] pos (up (hi x)) where
  le := (hpos.trans hne.le).trans (hup.le _)
  left y hy := by
    rw [List.mem_singleton.mp hy]
    exact hne.trans_le (hup.le _)
  covered a ha hle hlt := by
    refine ⟨x, List.mem_singleton_self x, htight.trans_le (by omega), ?_⟩
    by_contra hge
    exact hlt.not_ge (hup.least _ a ha (Nat.le_of_not_lt hge))
  start := .inr ⟨x, List.mem_singleton_self x, rfl⟩

end Passed

/-- A search goes on behind the intervals that have been passed. -/
theorem Fits.append {r : Fit} (hpassed : Passed lo hi up size Allowed xs pos pos')
    (h : Fits lo hi up size limit Allowed ys pos' r) :
    Fits lo hi up size limit Allowed (xs ++ ys) pos r := by
  cases h with
  | next pos'' hpassed' => exact .next pos'' (hpassed.append hpassed')
  | full hcovered =>
    refine .full fun a ha hle hlimit ↦ ?_
    rcases lt_or_ge a pos' with hbefore | hafter
    · obtain ⟨x, hx, hmeets⟩ := hpassed.covered a ha hle hbefore
      exact ⟨x, List.mem_append_left _ hx, hmeets⟩
    · obtain ⟨x, hx, hmeets⟩ := hcovered a ha hafter hlimit
      exact ⟨x, List.mem_append_right _ hx, hmeets⟩
  | hole left right pos'' hsplit hne hpassed' hlimit hroom =>
    exact .hole (xs ++ left) right pos'' (by rw [hsplit, List.append_assoc]) hne
      (hpassed.append hpassed') hlimit hroom

/-- A search that has failed finds nothing in more intervals either. -/
theorem Fits.full_append (h : Fits lo hi up size limit Allowed xs pos .full) :
    Fits lo hi up size limit Allowed (xs ++ ys) pos .full := by
  cases h with
  | full hcovered =>
    refine .full fun a ha hle hlimit ↦ ?_
    obtain ⟨x, hx, hmeets⟩ := hcovered a ha hle hlimit
    exact ⟨x, List.mem_append_left _ hx, hmeets⟩

/-- **First fit** finds room, or there is none. -/
theorem firstFit_spec (pos : ℕ) (h : Apart lo hi xs) (hne : ∀ x ∈ xs, lo x < hi x)
    (hup : Rounding up Allowed) :
    Fits lo hi up size limit Allowed xs pos (firstFit lo hi up size limit xs pos) := by
  induction xs generalizing pos with
  | nil => exact .next pos (.nil pos)
  | cons x xs ih =>
    obtain ⟨hhead, htail⟩ := List.pairwise_cons.mp h
    have hx := hne x List.mem_cons_self
    have hrest := fun pos ↦ ih pos htail fun y hy ↦ hne y (List.mem_cons_of_mem _ hy)
    rw [firstFit]
    split_ifs with hleft hroom hlimit hlimit
    · have hpassed : Passed lo hi up size Allowed [x] pos pos := .of_left (by simpa using hleft)
      exact (hrest pos).append hpassed
    · exact .full fun a _ hle hle' ↦ absurd hlimit (by omega)
    · refine .hole [] (x :: xs) pos rfl (List.cons_ne_nil x xs) (.nil pos) (Nat.le_of_not_lt hlimit)
        (List.forall_mem_cons.mpr ⟨hroom, fun y hy ↦ ?_⟩)
      exact (hroom.trans hx.le).trans (hhead y hy)
    · have hpassed : Passed lo hi up size Allowed [x] pos (up (hi x)) :=
        .single hup hx (Nat.le_of_not_lt hleft) (Nat.lt_of_not_le hroom)
      refine .full fun a ha hle hle' ↦ ?_
      obtain ⟨y, hy, hmeets⟩ := hpassed.covered a ha hle (by omega)
      exact ⟨y, List.mem_cons.mpr (.inl (List.mem_singleton.mp hy)), hmeets⟩
    · have hpassed : Passed lo hi up size Allowed [x] pos (up (hi x)) :=
        .single hup hx (Nat.le_of_not_lt hleft) (Nat.lt_of_not_le hroom)
      exact (hrest _).append hpassed

end ParallelPrograms.Sequence
