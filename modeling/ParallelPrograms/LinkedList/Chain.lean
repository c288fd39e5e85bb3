import ParallelPrograms.LinkedList.Ring

/-!
# Doubly linked lists that end with null

A list from a head node in which the last forward pointer is null. The backward pointer of the
first element leads to the head, and the backward pointer of the head leads to the last element or
is null when there is none. When null is read as the head, such a list is a ring, so that inserting
and removing an element are the operations on rings.
-/

namespace ParallelPrograms.LinkedList

variable {Node : Type*}

/-- The pointers run from the head through `nodes` in order, and back to the head. -/
structure Chain (next prev : Node → Option Node) (head : Node) (nodes : List Node) : Prop where
  nodup : (head :: nodes).Nodup
  forward : ∀ before after, nodes = before ++ after → next (lastOf head before) = after.head?
  backward : ∀ before x after, nodes = before ++ x :: after → prev x = some (lastOf head before)
  last : prev head = nodes.getLast?

namespace Chain

variable {next prev next' prev' : Node → Option Node} {head new x : Node}
  {before after nodes : List Node}

/-- The empty list. -/
theorem nil_iff : Chain next prev head [] ↔ next head = none ∧ prev head = none := by
  constructor
  · exact fun h ↦ ⟨h.forward [] [] rfl, h.last⟩
  · rintro ⟨hnext, hprev⟩
    refine ⟨List.nodup_singleton _, fun before after hsplit ↦ ?_, fun before x after hsplit ↦ ?_,
      hprev⟩
    · obtain ⟨rfl, rfl⟩ := List.append_eq_nil_iff.mp hsplit.symm
      exact hnext
    · simp at hsplit

/-- With the head in the place of null the list is a ring. -/
theorem ring (h : Chain next prev head nodes) :
    Ring (fun n ↦ (next n).getD head) (fun n ↦ (prev n).getD head) head nodes where
  forward := ⟨h.nodup, fun before after hsplit ↦ by rw [h.forward before after hsplit, firstOf]⟩
  backward := Cycle.of_lastOf h.nodup (by rw [h.last, lastOf]) fun before x after hsplit ↦ by
    rw [h.backward before x after hsplit, Option.getD_some]

/-- A ring whose pointers to the head are null, apart from the backward pointers of the elements. -/
theorem of_ring (h : Ring (fun n ↦ (next n).getD head) (fun n ↦ (prev n).getD head) head nodes)
    (hnext : ∀ n ∈ head :: nodes, next n ≠ some head) (hprev : ∀ n ∈ nodes, prev n ≠ none)
    (hlast : prev head ≠ some head) : Chain next prev head nodes where
  nodup := h.forward.nodup
  forward before after hsplit := by
    have hseam := h.forward.seam before after hsplit
    have hne := hnext (lastOf head before) (hsplit ▸ lastOf_mem_append head before after)
    cases hvalue : next (lastOf head before) with
    | none =>
      rw [hvalue, Option.getD_none] at hseam
      have hhead : head ∉ after := fun hmem ↦
        h.forward.head_notMem (hsplit ▸ List.mem_append_right _ hmem)
      rw [(firstOf_eq_head_iff hhead).mp hseam.symm, List.head?_nil]
    | some y =>
      rw [hvalue, Option.getD_some, firstOf] at hseam
      cases after with
      | nil => exact absurd (hvalue.trans (congrArg some hseam)) hne
      | cons z after => exact congrArg some hseam
  backward before x after hsplit := by
    subst hsplit
    have hseam := h.prev_mem
    obtain ⟨y, hy⟩ := Option.ne_none_iff_exists'.mp (hprev x (by simp))
    rw [hy, Option.getD_some] at hseam
    rw [hy, hseam]
  last := by
    have hhead := h.prev_head
    cases nodes using List.reverseRecOn with
    | nil =>
      cases hvalue : prev head with
      | none => rfl
      | some y =>
        rw [hvalue, Option.getD_some, lastOf_nil] at hhead
        exact absurd (hvalue.trans (congrArg some hhead)) hlast
    | append_singleton nodes y =>
      have hne : head ≠ y := fun heq ↦ h.forward.head_notMem (by simp [heq])
      rw [lastOf_concat] at hhead
      rw [List.getLast?_concat]
      cases hvalue : prev head with
      | none =>
        rw [hvalue, Option.getD_none] at hhead
        exact absurd hhead hne
      | some z =>
        rw [hvalue, Option.getD_some] at hhead
        rw [hhead]

theorem head_notMem (h : Chain next prev head nodes) : head ∉ nodes :=
  (List.nodup_cons.mp h.nodup).1

theorem next_ne_head (h : Chain next prev head nodes) {n : Node} (hn : n ∈ head :: nodes) :
    next n ≠ some head := by
  intro heq
  obtain ⟨before, after, rfl, rfl⟩ :
      ∃ before after, nodes = before ++ after ∧ n = lastOf head before := by
    rcases List.mem_cons.mp hn with rfl | hn
    · exact ⟨[], nodes, rfl, rfl⟩
    · obtain ⟨before, after, rfl⟩ := List.append_of_mem hn
      exact ⟨before ++ [n], after, by simp, by simp⟩
  rw [h.forward before after rfl] at heq
  exact h.head_notMem (List.mem_append_right _ (List.mem_of_head? heq))

/-- Only the pointers of the head and of the elements matter. -/
theorem congr (h : Chain next prev head nodes) (hnext : ∀ y ∈ head :: nodes, next' y = next y)
    (hprev : ∀ y ∈ head :: nodes, prev' y = prev y) : Chain next' prev' head nodes where
  nodup := h.nodup
  forward before after hsplit := by
    rw [hnext _ (hsplit ▸ lastOf_mem_append head before after), h.forward before after hsplit]
  backward before x after hsplit := by
    rw [hprev x (by simp [hsplit]), h.backward before x after hsplit]
  last := by rw [hprev head List.mem_cons_self, h.last]

/-- Insert an element: four pointers change. -/
theorem insert (h : Chain next prev head (before ++ after)) (hnew : new ∉ head :: (before ++ after))
    (hnextLeft : next' (lastOf head before) = some new) (hnextNew : next' new = after.head?)
    (hprevNew : prev' new = some (lastOf head before))
    (hprevRight : prev' (firstOf head after) = some new)
    (hnext : ∀ y ∈ head :: (before ++ after), y ≠ lastOf head before → next' y = next y)
    (hprev : ∀ y ∈ head :: (before ++ after), y ≠ firstOf head after → prev' y = prev y) :
    Chain next' prev' head (before ++ new :: after) := by
  have hne : new ≠ head := List.ne_of_not_mem_cons hnew
  apply of_ring
  · apply h.ring.insert hnew
    · rw [hnextLeft, Option.getD_some]
    · rw [hnextNew, firstOf]
    · rw [hprevNew, Option.getD_some]
    · rw [hprevRight, Option.getD_some]
    · exact fun y hy hleft ↦ by rw [hnext y hy hleft]
    · exact fun y hy hright ↦ by rw [hprev y hy hright]
  · intro n hn
    by_cases hleft : n = lastOf head before
    · rw [hleft, hnextLeft]
      exact fun heq ↦ hne (Option.some.inj heq)
    · by_cases hnn : n = new
      · rw [hnn, hnextNew]
        exact fun heq ↦ h.head_notMem (List.mem_append_right _ (List.mem_of_head? heq))
      · have hmem : n ∈ head :: (before ++ after) := by
          simp only [List.mem_cons, List.mem_append] at hn ⊢
          tauto
        rw [hnext n hmem hleft]
        exact h.next_ne_head hmem
  · intro n hn
    by_cases hright : n = firstOf head after
    · rw [hright, hprevRight]
      exact Option.some_ne_none _
    · by_cases hnn : n = new
      · rw [hnn, hprevNew]
        exact Option.some_ne_none _
      · have hmem : n ∈ before ++ after := by
          simp only [List.mem_cons, List.mem_append] at hn ⊢
          tauto
        obtain ⟨left, right, hsplit⟩ := List.append_of_mem hmem
        rw [hprev n (List.mem_cons_of_mem _ hmem) hright, h.backward left n right hsplit]
        exact Option.some_ne_none _
  · by_cases hright : head = firstOf head after
    · rw [hright, hprevRight, ← hright]
      exact fun heq ↦ hne (Option.some.inj heq)
    · rw [hprev head List.mem_cons_self hright, h.last]
      exact fun heq ↦ h.head_notMem (List.mem_of_getLast? heq)

/-- Remove an element: two pointers change. -/
theorem remove (h : Chain next prev head (before ++ x :: after))
    (hnextLeft : next' (lastOf head before) = after.head?)
    (hprevRight : ∀ y rest, after = y :: rest → prev' y = some (lastOf head before))
    (hprevHead : after = [] → prev' head = before.getLast?)
    (hnext : ∀ y ∈ head :: (before ++ after), y ≠ lastOf head before → next' y = next y)
    (hprev : ∀ y ∈ head :: (before ++ after), y ≠ firstOf head after → prev' y = prev y) :
    Chain next' prev' head (before ++ after) := by
  have hhead := h.head_notMem
  apply of_ring
  · apply h.ring.remove
    · rw [hnextLeft, firstOf]
    · cases after with
      | nil => rw [firstOf_nil, hprevHead rfl, lastOf]
      | cons y rest => rw [firstOf_cons, hprevRight y rest rfl, Option.getD_some]
    · exact fun y hy hleft ↦ by rw [hnext y hy hleft]
    · exact fun y hy hright ↦ by rw [hprev y hy hright]
  · intro n hn
    by_cases hleft : n = lastOf head before
    · rw [hleft, hnextLeft]
      exact fun heq ↦ hhead (by simp [List.mem_of_head? heq])
    · rw [hnext n hn hleft]
      refine h.next_ne_head ?_
      simp only [List.mem_cons, List.mem_append] at hn ⊢
      tauto
  · intro n hn
    have hne : n ≠ head := fun heq ↦ hhead (by
      rw [← heq]
      simp only [List.mem_append, List.mem_cons] at hn ⊢
      tauto)
    by_cases hright : n = firstOf head after
    · cases after with
      | nil => exact absurd hright hne
      | cons y rest =>
        obtain rfl : n = y := hright
        rw [hprevRight n rest rfl]
        exact Option.some_ne_none _
    · have hmem : n ∈ before ++ x :: after := by
        simp only [List.mem_append, List.mem_cons] at hn ⊢
        tauto
      obtain ⟨left, right, hsplit⟩ := List.append_of_mem hmem
      rw [hprev n (List.mem_cons_of_mem _ hn) hright, h.backward left n right hsplit]
      exact Option.some_ne_none _
  · cases after with
    | nil =>
      rw [hprevHead rfl]
      exact fun heq ↦ hhead (List.mem_append_left _ (List.mem_of_getLast? heq))
    | cons y rest =>
      have hne : head ≠ firstOf head (y :: rest) := fun heq ↦ by
        rw [firstOf_cons] at heq
        exact hhead (by simp [heq])
      rw [hprev head List.mem_cons_self hne, h.last]
      exact fun heq ↦ hhead (List.mem_of_getLast? heq)

section Stores

variable [DecidableEq Node]

/-- The four stores that insert an element. -/
theorem insert_stores (h : Chain next prev head (before ++ after))
    (hnew : new ∉ head :: (before ++ after)) :
    Chain (Function.update (Function.update next new after.head?) (lastOf head before) (some new))
      (Function.update (Function.update prev new (some (lastOf head before))) (firstOf head after)
        (some new)) head (before ++ new :: after) := by
  have hleft : new ≠ lastOf head before := fun heq ↦ hnew (heq ▸ lastOf_mem_append ..)
  have hright : new ≠ firstOf head after := fun heq ↦ hnew (heq ▸ firstOf_mem_append ..)
  apply h.insert hnew
  · exact Function.update_self ..
  · rw [Function.update_of_ne hleft, Function.update_self]
  · rw [Function.update_of_ne hright, Function.update_self]
  · exact Function.update_self ..
  · intro y hy hne
    rw [Function.update_of_ne hne, Function.update_of_ne (ne_of_mem_of_not_mem hy hnew)]
  · intro y hy hne
    rw [Function.update_of_ne hne, Function.update_of_ne (ne_of_mem_of_not_mem hy hnew)]

/-- The two stores that remove an element. -/
theorem remove_stores (h : Chain next prev head (before ++ x :: after)) :
    Chain (Function.update next (lastOf head before) after.head?)
      (Function.update prev (firstOf head after)
        (if after = [] ∧ before = [] then none else some (lastOf head before)))
      head (before ++ after) := by
  apply h.remove
  · exact Function.update_self ..
  · rintro y rest rfl
    rw [firstOf_cons, Function.update_self, if_neg (by simp)]
  · rintro rfl
    rw [firstOf_nil, Function.update_self]
    cases before using List.reverseRecOn with
    | nil => rfl
    | append_singleton before y => simp
  · exact fun y _ hne ↦ Function.update_of_ne hne ..
  · exact fun y _ hne ↦ Function.update_of_ne hne ..

end Stores

end Chain

end ParallelPrograms.LinkedList
