import ParallelPrograms.SkipList.Invariant

/-!
# Inserting a key that is stored

`sl_insert` links the new node while it looks for the key. When the node that has the key reaches
the drawn level, the key is found in the first level that is searched and nothing has been linked
yet. When the drawn level is higher, the new node has been linked in all levels above the found
node before it is freed.
-/

namespace ParallelPrograms.SkipList

open LinkedList

section Insert

variable {h : Heap} {i fuel : ℕ} {key : Key} {lo hi : List Entry} {pos : Link} {e found : Entry}

/-- The level in which the key is found. -/
theorem insertFrom_reached (new : Addr) (hring : h.RingAt i (lo ++ found :: hi))
    (hstores : h.Stores (lo ++ found :: hi)) (hi' : i < slMaxlevel)
    (hcut : Cut key lo (some found) hi) (hfuel : lo.length < fuel) (hreach : i ≤ found.2.level)
    (hpos : Before i lo pos) : insertFrom fuel key new (i + 1) pos h = some (h, false) := by
  have hround : ∃ first ∈ Link.head i :: linksAt i (lo ++ ((some found).toList ++ hi)),
      h.getNext pos = some first ∧ walk h (.head i) key i fuel first =
        some (stop key i ((some found).toList ++ hi)) :=
    round_eq hring hstores hi' hcut hfuel hpos
  obtain ⟨first, -, hnext, hwalk⟩ := hround
  have hstop : stop key i ((some found).toList ++ hi) = .found (.node found.1 i) found :=
    stop_found hcut hreach
  rw [hstop] at hwalk
  simp only [insertFrom, hnext, Option.bind_eq_bind, Option.bind_some, hwalk]

/-- **The loop of `sl_insert`** from level `i - 1` on, for a key whose node ends below this
level. -/
theorem insertFrom_found (hdone : ∀ j < slMaxlevel, i ≤ j → h.RingAt j (lo ++ e :: found :: hi))
    (hrings : ∀ j < i, h.RingAt j (lo ++ found :: hi)) (hstores : h.Stores (lo ++ found :: hi))
    (hnew : h.nodes e.1 = some e.2) (hfresh : ∀ e' ∈ lo ++ found :: hi, e'.1 ≠ e.1)
    (hcut : Cut key lo (some found) hi) (hfuel : lo.length < fuel) (hle : i ≤ e.2.level + 1)
    (hlevel : e.2.level < slMaxlevel) (hlt : found.2.level < i)
    (hpos : ∀ j, i = j + 1 → Before j lo pos) :
    ∃ h', insertFrom fuel key e.1 i pos h = some (h', false) ∧ h'.nodes = h.nodes ∧
      ∀ j < slMaxlevel, found.2.level < j → h'.RingAt j (lo ++ e :: found :: hi) := by
  induction i generalizing pos h with
  | zero => exact absurd hlt (Nat.not_lt_zero _)
  | succ i ih =>
    have hi' : i < slMaxlevel := by omega
    rcases (Nat.le_of_lt_succ hlt).eq_or_lt with rfl | hlt
    · exact ⟨h, insertFrom_reached e.1 (hrings _ (Nat.lt_succ_self _)) hstores hi' hcut hfuel le_rfl
        (hpos _ rfl), rfl, fun j hj hlt ↦ hdone j hj hlt⟩
    have hring : h.RingAt i (lo ++ ((some found).toList ++ hi)) := hrings i (Nat.lt_succ_self i)
    have habove : ∀ e' ∈ some found, e'.2.level < i := by simpa using hlt
    obtain ⟨first, -, hnext, hwalk⟩ := round_eq hring hstores hi' hcut hfuel (hpos i rfl)
    have hnotMem : Link.node e.1 i ∉ linksAt i (lo ++ found :: hi) := fun hmem ↦ by
      obtain ⟨e', he', -, heq⟩ := mem_linksAt.mp hmem
      exact hfresh e' he' (Option.some.inj (congrArg Link.block heq))
    obtain ⟨h', hadd, hsame, hring'⟩ :=
      Heap.listAdd_ring hring hstores hi' hnew (Nat.le_of_succ_le_succ hle) hnotMem
    rw [stop_passed hcut habove] at hwalk
    have hprev : h.getPrev (firstOf (.head i) (linksAt i hi)) =
        some (lastOf (.head i) (linksAt i lo)) := getPrev_eq_last hring hstores hi' habove
    simp only [insertFrom, hnext, Option.bind_eq_bind, Option.bind_some, hwalk, hprev, hadd]
    rw [← hsame.1]
    apply ih _ _ _ _ (Nat.le_of_succ_le hle) hlt (before_next i lo)
    · intro j hj hij
      rcases hij.eq_or_lt with rfl | hij
      · exact hring'
      · exact (hdone j hj hij).congr hsame hij.ne'
    · exact fun j hj ↦ (hrings j (Nat.lt_succ_of_lt hj)).congr hsame hj.ne
    · exact fun e' he' ↦ by rw [hsame.1, hstores e' he']
    · rw [hsame.1, hnew]

end Insert

/-- Some link of the list leads to the node with the address. -/
def Dangling (list : SlList) (a : Addr) : Prop :=
  ∃ pos, list.heap.valid pos = true ∧
    ((list.heap.next pos).block = some a ∨ (list.heap.prev pos).block = some a)

namespace Linked

variable {list : SlList} {lo hi : List Entry} {e : Entry} {key : Key} {fuel : ℕ} {a : Addr}

/-- The call in which the key is found before a link has been written. -/
theorem slInsert_reached (h : Linked list (lo ++ e :: hi)) (hcut : Cut key lo (some e) hi)
    (hfuel : lo.length < fuel) (val : Ptr) {randomSeed : UInt32} (ha : list.heap.nodes a = none)
    (hreach : randomLevel randomSeed ≤ e.2.level) :
    slInsert fuel list key val randomSeed (some a) = some (list, -eexist) := by
  let heap := list.heap.slNodeAlloc a key val (randomLevel randomSeed)
  have hstores : heap.Stores (lo ++ e :: hi) := h.stores_slNodeAlloc ha _ _ _
  have hinsert : insertFrom fuel key a (randomLevel randomSeed + 1)
      (.head (randomLevel randomSeed)) heap = some (heap, false) :=
    insertFrom_reached a (h.rings _ (randomLevel_lt _)) hstores (randomLevel_lt _) hcut hfuel hreach
      (before_head _ lo)
  have hlevel : ¬ (randomLevel randomSeed : ℤ) > list.level := by
    have := level_le_height (show e ∈ lo ++ e :: hi by simp)
    have := h.height_le_level
    omega
  have hfree : heap.free a = some list.heap := by
    simp [heap, Heap.free, Heap.slNodeAlloc, ← ha]
  change Option.bind (insertFrom fuel key a (randomLevel randomSeed + 1)
    (.head (randomLevel randomSeed)) heap) _ = _
  simp only [hinsert, Option.bind_some, hfree, if_neg hlevel, Bool.false_eq_true, if_false,
    Option.bind_eq_bind]

/-- The call in which the freed node stays linked. -/
theorem slInsert_dangling (h : Linked list (lo ++ e :: hi)) (hcut : Cut key lo (some e) hi)
    (hfuel : lo.length < fuel) (val : Ptr) {randomSeed : UInt32} (ha : list.heap.nodes a = none)
    (hlt : e.2.level < randomLevel randomSeed) :
    ∃ list', slInsert fuel list key val randomSeed (some a) = some (list', -eexist) ∧
      Dangling list' a := by
  let new : Entry := (a, ⟨key, val, randomLevel randomSeed⟩)
  let heap := list.heap.slNodeAlloc a key val (randomLevel randomSeed)
  have hlevel : new.2.level < slMaxlevel := randomLevel_lt randomSeed
  have hne := h.ne_address ha
  have hstores : heap.Stores (lo ++ e :: hi) := h.stores_slNodeAlloc ha _ _ _
  have habove : ∀ j < slMaxlevel, new.2.level + 1 ≤ j → heap.RingAt j (lo ++ new :: e :: hi) := by
    intro j hj hlt
    rw [Heap.RingAt, linksAt_append, linksAt_cons_of_lt hlt, ← linksAt_append]
    exact h.rings j hj
  have hstart : ∀ j, new.2.level + 1 = j + 1 → Before j lo (.head new.2.level) := fun j hj ↦ by
    obtain rfl := Nat.succ.inj hj
    exact before_head _ lo
  obtain ⟨heap', hinsert, hnodes, hrings⟩ := insertFrom_found habove
    (fun j hj ↦ h.rings j (by omega)) hstores (Function.update_self ..) hne hcut hfuel le_rfl hlevel
    (Nat.lt_succ_of_lt hlt) hstart
  have hfree : heap'.free a = some { heap' with nodes := Function.update heap'.nodes a none } := by
    have hlive : (heap'.nodes a).isSome = true := by
      simp [hnodes, heap, Heap.slNodeAlloc]
    rw [Heap.free, if_pos hlive]
  refine ⟨⟨list.size, if (new.2.level : ℤ) > list.level then new.2.level else list.level,
    { heap' with nodes := Function.update heap'.nodes a none }⟩, ?_,
    lastOf (.head new.2.level) (linksAt new.2.level lo), ?_, ?_⟩
  · change Option.bind (insertFrom fuel key new.1 (new.2.level + 1) (.head new.2.level) heap) _ = _
    simp only [hinsert, Option.bind_some, hfree, Bool.false_eq_true, if_false,
      Option.bind_eq_bind]
    rfl
  · -- the link before the freed node belongs to the head or to a smaller key
    have hstores' : Heap.Stores { heap' with nodes := Function.update heap'.nodes a none } lo := by
      intro e' he'
      have hmem : e' ∈ lo ++ e :: hi := List.mem_append_left _ he'
      exact (Function.update_of_ne (hne e' hmem) ..).trans (hnodes ▸ hstores e' hmem)
    exact Heap.valid_of_mem_ring hstores' hlevel (lastOf_mem ..)
  · have hring := hrings new.2.level hlevel hlt
    rw [Heap.RingAt, linksAt_append, linksAt_cons_of_le le_rfl] at hring
    exact .inl (congrArg Link.block (hring.forward.seam _ _ rfl))

end Linked

end ParallelPrograms.SkipList
