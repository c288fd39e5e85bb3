import Mathlib.Data.List.Induction
import Mathlib.Data.List.Nodup
import Mathlib.Logic.Function.Iterate
import Mathlib.Logic.Function.Basic
import Mathlib.Tactic.Tauto

/-!
# Rings of nodes

A circular list is a pointer function on nodes and a head node that is not an element. The
function runs through the elements in order and back to the head. `Cycle next head nodes` states
this at every seam: wherever the list of elements is cut in two, the last node before the cut
points to the first node after it, where the head stands at both ends. A doubly linked ring is a
cycle of its forward pointers together with a cycle of its backward pointers in reverse order,
so that inserting and removing an element is proved once and used in both directions.
-/

namespace ParallelPrograms.LinkedList

variable {Node : Type*}

/-- The first element, or the head when there is none. -/
def firstOf (head : Node) (nodes : List Node) : Node := nodes.head?.getD head

/-- The last element, or the head when there is none. -/
def lastOf (head : Node) (nodes : List Node) : Node := nodes.getLast?.getD head

section Ends

variable (head x : Node) (xs ys : List Node)

@[simp] theorem firstOf_nil : firstOf head [] = head := rfl

@[simp] theorem firstOf_cons : firstOf head (x :: xs) = x := rfl

@[simp] theorem lastOf_nil : lastOf head [] = head := rfl

@[simp] theorem lastOf_concat : lastOf head (xs ++ [x]) = x := by simp [lastOf]

@[simp] theorem lastOf_append_cons : lastOf head (xs ++ x :: ys) = lastOf x ys := by
  cases ys using List.reverseRecOn with
  | nil => simp
  | append_singleton ys y =>
    rw [← List.cons_append, ← List.append_assoc, lastOf_concat, lastOf_concat]

@[simp] theorem lastOf_cons : lastOf head (x :: xs) = lastOf x xs :=
  lastOf_append_cons head x [] xs

@[simp] theorem firstOf_append_cons : firstOf head (xs ++ x :: ys) = firstOf x xs := by
  cases xs <;> rfl

@[simp] theorem firstOf_reverse : firstOf head xs.reverse = lastOf head xs := by
  simp [firstOf, lastOf]

@[simp] theorem lastOf_reverse : lastOf head xs.reverse = firstOf head xs := by
  simp [firstOf, lastOf]

theorem lastOf_map {Node' : Type*} (f : Node → Node') : lastOf (f head) (xs.map f) =
    f (lastOf head xs) := by
  induction xs using List.reverseRecOn <;> simp

theorem firstOf_eq_head_iff {head : Node} {xs : List Node} (h : head ∉ xs) :
    firstOf head xs = head ↔ xs = [] := by
  cases xs with
  | nil => simp
  | cons x xs => simpa using (List.ne_of_not_mem_cons h).symm

theorem lastOf_eq_head_iff {head : Node} {xs : List Node} (h : head ∉ xs) :
    lastOf head xs = head ↔ xs = [] := by
  rw [← firstOf_reverse, firstOf_eq_head_iff (by simpa using h), List.reverse_eq_nil_iff]

theorem firstOf_mem : firstOf head xs ∈ head :: xs := by
  cases xs <;> simp

theorem lastOf_mem : lastOf head xs ∈ head :: xs := by
  rw [← firstOf_reverse]
  simpa using firstOf_mem head xs.reverse

/-- The two sides of a seam belong to the ring. -/
theorem lastOf_mem_append : lastOf head xs ∈ head :: (xs ++ ys) := by
  rw [← List.cons_append]
  exact List.mem_append_left _ (lastOf_mem head xs)

theorem firstOf_mem_append : firstOf head ys ∈ head :: (xs ++ ys) := by
  rcases List.mem_cons.mp (firstOf_mem head ys) with h | h
  · rw [h]
    exact List.mem_cons_self
  · exact List.mem_cons_of_mem _ (List.mem_append_right _ h)

theorem mem_reverse_ring {x} : x ∈ head :: (ys.reverse ++ xs.reverse) ↔ x ∈ head :: (xs ++ ys) := by
  rw [← List.reverse_append, List.mem_cons, List.mem_cons, List.mem_reverse]

end Ends

/-- The pointers run from the head through `nodes` in order and back to the head. -/
structure Cycle (next : Node → Node) (head : Node) (nodes : List Node) : Prop where
  nodup : (head :: nodes).Nodup
  seam : ∀ before after, nodes = before ++ after → next (lastOf head before) = firstOf head after

/-- A doubly linked ring. -/
structure Ring (next prev : Node → Node) (head : Node) (nodes : List Node) : Prop where
  forward : Cycle next head nodes
  backward : Cycle prev head nodes.reverse

namespace Cycle

variable {next next' : Node → Node} {head new x : Node} {before after nodes : List Node}

theorem next_head (h : Cycle next head nodes) : next head = firstOf head nodes :=
  h.seam [] nodes rfl

/-- The pointer of an element leads to what follows it. -/
theorem next_mem (h : Cycle next head (before ++ x :: after)) : next x = firstOf head after := by
  simpa using h.seam (before ++ [x]) after (by simp)

theorem head_notMem (h : Cycle next head nodes) : head ∉ nodes :=
  (List.nodup_cons.mp h.nodup).1

theorem next_mem_ring (h : Cycle next head nodes) (hx : x ∈ head :: nodes) :
    next x ∈ head :: nodes := by
  rcases List.mem_cons.mp hx with rfl | hx
  · rw [h.next_head]
    exact firstOf_mem _ _
  · obtain ⟨before, after, rfl⟩ := List.append_of_mem hx
    rw [h.next_mem, List.append_cons]
    exact firstOf_mem_append ..

/-- Only the pointers of the ring's own nodes matter. -/
theorem congr (h : Cycle next head nodes) (heq : ∀ y ∈ head :: nodes, next' y = next y) :
    Cycle next' head nodes where
  nodup := h.nodup
  seam before after hsplit := by
    subst hsplit
    calc
      next' (lastOf head before) = next (lastOf head before) := heq _ (lastOf_mem_append ..)
      _ = firstOf head after := h.seam before after rfl

/-- The empty ring: the head points to itself. -/
theorem nil_iff : Cycle next head [] ↔ next head = head := by
  constructor
  · exact fun h ↦ h.next_head
  · intro h
    refine ⟨List.nodup_singleton _, fun before after hsplit ↦ ?_⟩
    obtain ⟨rfl, rfl⟩ := List.append_eq_nil_iff.mp hsplit.symm
    exact h

/-- The ring of which every element is given its predecessor. -/
theorem of_lastOf (hnodup : (head :: nodes).Nodup) (hhead : next head = lastOf head nodes)
    (hnext : ∀ before x after, nodes = before ++ x :: after → next x = lastOf head before) :
    Cycle next head nodes.reverse where
  nodup := by simpa using hnodup
  seam before after hsplit := by
    obtain rfl : nodes = after.reverse ++ before.reverse := by
      rw [← List.reverse_append, ← hsplit, List.reverse_reverse]
    rw [← firstOf_reverse, ← lastOf_reverse head after]
    cases hbefore : before.reverse with
    | nil => simpa [hbefore] using hhead
    | cons x rest => exact hnext after.reverse x rest (by rw [hbefore])

/-- When every element points to the head or to an element that comes earlier in `order`, the
ring runs through `order` from its end. -/
theorem eq_of_earlier {order : List Node} (h : Cycle next head nodes.reverse)
    (hmem : ∀ x, x ∈ nodes ↔ x ∈ order) (hnodup : order.Nodup)
    (hearlier : ∀ before x after, order = before ++ x :: after → next x ∈ head :: before) :
    nodes = order := by
  have hnodes : (head :: nodes).Nodup := by simpa using h.nodup
  suffices key : ∀ before after, order = before ++ after → ∃ rest, nodes = before ++ rest by
    obtain ⟨rest, hrest⟩ := key order [] (by simp)
    cases rest with
    | nil => simpa using hrest
    | cons x rest =>
      -- an element past the end of `order` would occur in it, too
      have hx : x ∈ order := (hmem x).mp (by simp [hrest])
      rw [hrest, List.nodup_cons, List.nodup_append] at hnodes
      exact absurd rfl (hnodes.2.2.2 x hx x List.mem_cons_self)
  intro before
  induction before using List.reverseRecOn with
  | nil => exact fun after _ ↦ ⟨nodes, rfl⟩
  | append_singleton before x ih =>
    intro after horder
    obtain ⟨rest, rfl⟩ := ih (x :: after) (by simpa using horder)
    have hx : x ∈ before ++ rest := (hmem x).mpr (by simp [horder])
    have hfresh : x ∉ before := by
      rw [horder, List.append_assoc, List.nodup_append] at hnodup
      exact fun hbefore ↦ hnodup.2.2 x hbefore x (by simp) rfl
    obtain ⟨left, right, rfl⟩ := List.append_of_mem ((List.mem_append.mp hx).resolve_left hfresh)
    cases left using List.reverseRecOn with
    | nil => exact ⟨right, by simp⟩
    | append_singleton left y =>
      -- `y` stands before `x` in the ring, but `x` is the next one of `order`
      have hnext : next x = y := by
        have hcycle : Cycle next head
            (right.reverse ++ x :: (before ++ (left ++ [y])).reverse) := by
          simpa using h
        rw [hcycle.next_mem, firstOf_reverse, ← List.append_assoc, lastOf_concat]
      have hy := hearlier before x after (by simpa using horder)
      rw [hnext] at hy
      simp only [List.nodup_cons, List.nodup_append, List.mem_append, List.mem_cons] at hnodes hy
      grind

/-- Following the pointers from a place in the ring passes the elements that remain and then
reaches the head. -/
theorem iterate_eq (before after : List Node) (h : Cycle next head (before ++ after)) :
    next^[after.length] (firstOf head after) = head ∧
      ∀ k, k < after.length → next^[k] (firstOf head after) ∈ after := by
  induction after generalizing before with
  | nil => exact ⟨rfl, fun k hk ↦ absurd hk (by simp)⟩
  | cons x after ih =>
    have hnext := h.next_mem
    obtain ⟨hhead, hmem⟩ := ih (before ++ [x]) (by simpa using h)
    rw [firstOf_cons, List.length_cons]
    refine ⟨by rw [Function.iterate_succ_apply, hnext, hhead], fun k hk ↦ ?_⟩
    cases k with
    | zero => exact List.mem_cons_self
    | succ k =>
      rw [Function.iterate_succ_apply, hnext]
      exact List.mem_cons_of_mem _ (hmem k (by omega))

theorem exists_iterate_eq_head (h : Cycle next head nodes) (hx : x ∈ head :: nodes) :
    ∃ k, next^[k] x = head := by
  rcases List.mem_cons.mp hx with rfl | hx
  · exact ⟨0, rfl⟩
  · obtain ⟨before, after, rfl⟩ := List.append_of_mem hx
    exact ⟨_, (h.iterate_eq before (x :: after)).1⟩

theorem lastOf_ne_lastOf (hnodup : (head :: (before ++ x :: after)).Nodup) :
    lastOf head before ≠ lastOf head (before ++ x :: after) := by
  rw [lastOf_append_cons]
  rw [← List.cons_append] at hnodup
  exact (List.nodup_append.mp hnodup).2.2 _ (lastOf_mem head before) _ (lastOf_mem x after)

theorem lastOf_ne_of_mem (hnodup : (head :: (before ++ after)).Nodup) (hx : x ∈ after) :
    x ≠ lastOf head before := by
  rw [← List.cons_append] at hnodup
  exact ((List.nodup_append.mp hnodup).2.2 _ (lastOf_mem head before) x hx).symm

/-- A seam whose pointer has not changed. -/
theorem seam_kept {z : Node} {passed : List Node}
    (h : Cycle next head (before ++ z :: passed ++ after))
    (hsame : lastOf head before ≠ lastOf head (before ++ z :: passed) →
      next' (lastOf head before) = next (lastOf head before)) :
    next' (lastOf head before) = z := by
  have hseam := h.seam before (z :: passed ++ after) (by simp)
  have hnodup : (head :: (before ++ z :: passed)).Nodup := h.nodup.sublist (by simp)
  rw [hsame (lastOf_ne_lastOf hnodup), hseam]
  rfl

/-- Insert an element at a seam. -/
theorem insert (h : Cycle next head (before ++ after)) (hnew : new ∉ head :: (before ++ after))
    (hleft : next' (lastOf head before) = new) (hright : next' new = firstOf head after)
    (hother : ∀ y ∈ head :: (before ++ after), y ≠ lastOf head before → next' y = next y) :
    Cycle next' head (before ++ new :: after) := by
  constructor
  · have := h.nodup
    simp only [List.nodup_cons, List.mem_append, List.nodup_middle, List.mem_cons] at this hnew ⊢
    tauto
  · intro b a hsplit
    rcases List.append_eq_append_iff.mp hsplit with ⟨c, rfl, hc⟩ | ⟨c, rfl, rfl⟩
    · rcases List.cons_eq_append_iff.mp hc with ⟨rfl, rfl⟩ | ⟨c, rfl, rfl⟩
      · simpa using hleft
      · rw [lastOf_append_cons]
        cases c using List.reverseRecOn with
        | nil => simpa using hright
        | append_singleton c z =>
          -- the seam lies after `new`, at an old element
          have hseam := h.seam (before ++ (c ++ [z])) a (by simp)
          rw [← List.append_assoc, lastOf_concat] at hseam
          rw [lastOf_concat, ← hseam]
          exact hother z (by simp) (lastOf_ne_of_mem h.nodup (by simp))
    · cases c with
      | nil => simpa using hleft
      | cons z c =>
        -- the seam lies before `new`, between two old nodes
        apply h.seam_kept
        apply hother
        rw [List.append_assoc]
        exact lastOf_mem_append ..

/-- Remove an element. -/
theorem remove (h : Cycle next head (before ++ x :: after))
    (hleft : next' (lastOf head before) = firstOf head after)
    (hother : ∀ y ∈ head :: (before ++ after), y ≠ lastOf head before → next' y = next y) :
    Cycle next' head (before ++ after) := by
  constructor
  · exact h.nodup.sublist (by simp)
  · intro b a hsplit
    rcases List.append_eq_append_iff.mp hsplit with ⟨c, rfl, rfl⟩ | ⟨c, rfl, rfl⟩
    · cases c using List.reverseRecOn with
      | nil => simpa using hleft
      | append_singleton c z =>
        have hseam := h.seam (before ++ x :: (c ++ [z])) a (by simp)
        rw [lastOf_append_cons, lastOf_concat] at hseam
        rw [← List.append_assoc, lastOf_concat, ← hseam]
        refine hother z (by simp) (lastOf_ne_of_mem h.nodup ?_)
        simp
    · cases c with
      | nil => simpa using hleft
      | cons z c =>
        apply h.seam_kept
        apply hother
        rw [List.append_assoc]
        exact lastOf_mem_append ..

end Cycle

namespace Ring

variable {next prev next' prev' : Node → Node} {head new x : Node}
  {before after nodes : List Node}

theorem prev_head (h : Ring next prev head nodes) : prev head = lastOf head nodes := by
  rw [h.backward.next_head, firstOf_reverse]

theorem prev_seam (h : Ring next prev head (before ++ after)) :
    prev (firstOf head after) = lastOf head before := by
  simpa using h.backward.seam after.reverse before.reverse (by simp)

theorem prev_mem (h : Ring next prev head (before ++ x :: after)) : prev x = lastOf head before :=
  h.prev_seam

/-- Insert an element at a seam: four pointers change. -/
theorem insert (h : Ring next prev head (before ++ after)) (hnew : new ∉ head :: (before ++ after))
    (hnextLeft : next' (lastOf head before) = new) (hnextNew : next' new = firstOf head after)
    (hprevNew : prev' new = lastOf head before) (hprevRight : prev' (firstOf head after) = new)
    (hnext : ∀ y ∈ head :: (before ++ after), y ≠ lastOf head before → next' y = next y)
    (hprev : ∀ y ∈ head :: (before ++ after), y ≠ firstOf head after → prev' y = prev y) :
    Ring next' prev' head (before ++ new :: after) where
  forward := h.forward.insert hnew hnextLeft hnextNew hnext
  backward := by
    have hback := h.backward
    rw [List.reverse_append] at hback
    have hinsert : Cycle prev' head (after.reverse ++ new :: before.reverse) := by
      apply hback.insert (mt (mem_reverse_ring head before after).mp hnew)
      · rwa [lastOf_reverse]
      · rwa [firstOf_reverse]
      · intro y hy hne
        rw [lastOf_reverse] at hne
        exact hprev y ((mem_reverse_ring head before after).mp hy) hne
    simpa using hinsert

/-- Remove an element: two pointers change. -/
theorem remove (h : Ring next prev head (before ++ x :: after))
    (hnextLeft : next' (lastOf head before) = firstOf head after)
    (hprevRight : prev' (firstOf head after) = lastOf head before)
    (hnext : ∀ y ∈ head :: (before ++ after), y ≠ lastOf head before → next' y = next y)
    (hprev : ∀ y ∈ head :: (before ++ after), y ≠ firstOf head after → prev' y = prev y) :
    Ring next' prev' head (before ++ after) where
  forward := h.forward.remove hnextLeft hnext
  backward := by
    have hback := h.backward
    rw [List.reverse_append, List.reverse_cons, List.append_assoc, List.singleton_append] at hback
    have hremove : Cycle prev' head (after.reverse ++ before.reverse) := by
      apply Cycle.remove hback
      · rwa [lastOf_reverse, firstOf_reverse]
      · intro y hy hne
        rw [lastOf_reverse] at hne
        exact hprev y ((mem_reverse_ring head before after).mp hy) hne
    simpa using hremove

theorem congr (h : Ring next prev head nodes)
    (hnext : ∀ y ∈ head :: nodes, next' y = next y)
    (hprev : ∀ y ∈ head :: nodes, prev' y = prev y) :
    Ring next' prev' head nodes where
  forward := h.forward.congr hnext
  backward := h.backward.congr (by simpa using hprev)

end Ring

end ParallelPrograms.LinkedList
