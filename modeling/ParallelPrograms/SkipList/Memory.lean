import ParallelPrograms.SkipList.ErrorPaths

/-!
# The nodes in memory

Calls of `sl_insert` for keys that are not stored, of `sl_search` and of `sl_erase` in any order,
and `sl_delete` at the end. The ledger lists the nodes that `sl_node_alloc` has returned and those
that were freed. An address that was freed may be returned again. The functions of the model have
no result when they access a link, a key or a value of a node that is not allocated, or a link
above the level of its node, and `free` has none for such a node. That a call has a result is
therefore that all its accesses exist.
-/

namespace ParallelPrograms.SkipList

open LinkedList

/-! ## `sl_delete` -/

/-- The loop of `sl_delete`, with the nodes that it frees. -/
def deleteFrom (head : Link) : ℕ → Link → Link → Heap → Option (Heap × List Addr)
  | 0, _, _, _ => none
  | fuel + 1, pos, n, h =>
    if pos = head then some (h, [])
    else do
      let node ← h.listEntry pos 0
      let h ← h.free node.1
      let (h, deleted) ← deleteFrom head fuel n (← h.getNext n) h
      some (h, node.1 :: deleted)

/-- `sl_delete(list)`, up to the `free` of the list itself. -/
def slDelete (fuel : ℕ) (list : SlList) : Option (Heap × List Addr) := do
  let pos ← list.heap.getNext (.head 0)
  deleteFrom (.head 0) fuel pos (← list.heap.getNext pos) list.heap

section Delete

variable {h : Heap} {list : SlList} {fuel : ℕ} {passed rest entries : List Entry}

/-- The links at level 0. -/
def bottom (entries : List Entry) : List Link := entries.map fun e ↦ .node e.1 0

theorem linksAt_zero (entries : List Entry) : linksAt 0 entries = bottom entries := tower_zero

/-- A link of the rest can be followed while the nodes of the rest are allocated. -/
theorem getNext_bottom (hstores : h.Stores rest) :
    h.getNext (firstOf (.head 0) (bottom rest)) =
      some (h.next (firstOf (.head 0) (bottom rest))) := by
  apply Heap.getNext_eq
  rw [← linksAt_zero]
  exact Heap.valid_of_mem_ring (i := 0) hstores (by decide) (firstOf_mem _ _)

/-- **The loop of `sl_delete`** frees the rest of the nodes in their order. -/
theorem deleteFrom_eq (hcycle : Cycle h.next (.head 0) (bottom (passed ++ rest)))
    (hstores : h.Stores rest) (hnodup : (rest.map Prod.fst).Nodup) (hfuel : rest.length < fuel) :
    ∃ h', deleteFrom (.head 0) fuel (firstOf (.head 0) (bottom rest))
        (h.next (firstOf (.head 0) (bottom rest))) h = some (h', rest.map Prod.fst) ∧
      ∀ a, h'.nodes a = if a ∈ rest.map Prod.fst then none else h.nodes a := by
  induction rest generalizing h passed fuel with
  | nil =>
    obtain ⟨fuel, rfl⟩ := Nat.exists_eq_succ_of_ne_zero hfuel.ne'
    refine ⟨h, ?_, fun a ↦ ?_⟩
    · exact if_pos rfl
    · simp
  | cons e rest ih =>
    obtain ⟨fuel, rfl⟩ := Nat.exists_eq_succ_of_ne_zero (Nat.ne_zero_of_lt hfuel)
    obtain ⟨hfirst, hnodup⟩ := List.nodup_cons.mp hnodup
    have hnext : h.next (.node e.1 0) = firstOf (.head 0) (bottom rest) := by
      rw [bottom, List.map_append, List.map_cons] at hcycle
      exact hcycle.next_mem
    have hentry : h.listEntry (.node e.1 0) 0 = some e :=
      listEntry_node (i := 0) (hstores e List.mem_cons_self)
    let freed : Heap := { h with nodes := Function.update h.nodes e.1 none }
    have hfree : h.free e.1 = some freed := by
      simp [Heap.free, hstores e List.mem_cons_self, freed]
    have hstores' : freed.Stores rest := by
      intro e' he'
      have hne : e'.1 ≠ e.1 := by
        intro heq
        exact hfirst (heq ▸ List.mem_map_of_mem he')
      exact (Function.update_of_ne hne ..).trans (hstores e' (List.mem_cons_of_mem _ he'))
    have hcycle' : Cycle freed.next (.head 0) (bottom (passed ++ [e] ++ rest)) := by
      rw [List.append_assoc]
      exact hcycle
    obtain ⟨h', hdelete, hnodes⟩ := ih hcycle' hstores' hnodup (Nat.lt_of_succ_lt_succ hfuel)
    refine ⟨h', ?_, fun a ↦ ?_⟩
    · have hpos : firstOf (.head 0) (bottom (e :: rest)) = .node e.1 0 := rfl
      rw [hpos, hnext, deleteFrom, if_neg (by simp [Link.ext_iff])]
      simp only [hentry, hfree, getNext_bottom hstores', hdelete, Option.bind_eq_bind,
        Option.bind_some, List.map_cons]
    · rw [hnodes, List.map_cons]
      by_cases ha : a = e.1
      · subst ha
        simp [freed]
      · simp only [List.mem_cons, ha, false_or]
        split_ifs
        · rfl
        · exact Function.update_of_ne ha ..

/-- The nodes have different addresses. -/
theorem Linked.addresses_nodup (h : Linked list entries) : (entries.map Prod.fst).Nodup := by
  rw [List.nodup_map_iff_inj_on]
  · intro e he e' he' heq
    exact h.eq_of_address he' he heq
  · exact h.sorted.imp fun hlt heq ↦ by
      subst heq
      exact lt_irrefl _ hlt

/-- **`sl_delete`** -/
theorem Linked.slDelete_eq (h : Linked list entries) (hfuel : entries.length < fuel) :
    ∃ heap, slDelete fuel list = some (heap, entries.map Prod.fst) ∧ ∀ a, heap.nodes a = none := by
  have hring : Ring list.heap.next list.heap.prev (.head 0) (bottom entries) := by
    rw [← linksAt_zero]
    exact h.rings 0 (by decide)
  have hstart : list.heap.getNext (.head 0) = some (firstOf (.head 0) (bottom entries)) := by
    have hnone : list.heap.Stores [] := fun e he ↦ absurd he List.not_mem_nil
    rw [← hring.forward.next_head]
    exact getNext_bottom hnone
  have hcycle : Cycle list.heap.next (.head 0) (bottom ([] ++ entries)) := hring.forward
  obtain ⟨heap, hdelete, hnodes⟩ := deleteFrom_eq hcycle h.stores h.addresses_nodup hfuel
  refine ⟨heap, ?_, fun a ↦ ?_⟩
  · simp only [slDelete, hstart, getNext_bottom h.stores, Option.bind_eq_bind, Option.bind_some]
    exact hdelete
  · rw [hnodes]
    split_ifs with ha
    · rfl
    · rw [Option.eq_none_iff_forall_ne_some]
      intro node hnode
      exact ha (List.mem_map_of_mem ((h.nodes a node).mp hnode))

end Delete

/-! ## What a call allocates and frees -/

/-- What the loop of `sl_erase` frees from level `i - 1` on. -/
def freedFrom (fuel : ℕ) (list : SlList) (key : Key) : ℕ → Link → Option (List Addr)
  | 0, _ => some []
  | i + 1, pos => do
    let pos ← list.heap.getNext pos
    match ← walkSafe list.heap (.head i) key i fuel pos (← list.heap.getNext pos) with
    | .found _ tmp => some [tmp.1]
    | .passed pos => freedFrom fuel list key i (← list.heap.getPrev pos).pred

namespace Call

/-- The node that `sl_node_alloc` returns. -/
def allocated : Call → List Addr
  | insert _ _ _ (some new) => [new]
  | insert _ _ _ none | search _ | erase _ => []

/-- The nodes that the call frees. -/
def freed (fuel : ℕ) (list : SlList) : Call → Option (List Addr)
  | insert key val randomSeed (some new) =>
    let level := randomLevel randomSeed
    (insertFrom fuel key new (level + 1) (.head level)
      (list.heap.slNodeAlloc new key val level)).map fun result ↦ if result.2 then [] else [new]
  | insert _ _ _ none | search _ => some []
  | erase key => freedFrom fuel list key (list.level + 1).toNat (.head list.level)

/-- A key is inserted only when it is not stored. -/
def Unstored (list : SlList) : Call → Prop
  | insert key _ _ _ => ∀ b node, list.heap.nodes b = some node → node.key ≠ key
  | search _ | erase _ => True

/-- A new node is counted when `list->size` is `INT_MAX`. -/
def Overflows (list : SlList) : Call → Prop
  | insert _ _ _ (some _) => list.size = intMax
  | insert _ _ _ none | search _ | erase _ => False

/-- The call is the erasure of the node with the address. -/
def Erases (list : SlList) (a : Addr) : Call → Prop
  | erase key => ∃ node, list.heap.nodes a = some node ∧ node.key = key
  | insert .. | search _ => False

end Call

/-- `sl_list_alloc`, and then calls that have returned, with the nodes that were allocated and
freed. -/
inductive Session (start : SlList) : SlList → List Addr → List Addr → Prop
  | nil : Session start start [] []
  | snoc {list list' : SlList} {allocated freed gone : List Addr} {call : Call} {fuel : ℕ}
      {answer : Answer} (before : Session start list allocated freed) (fresh : call.Fresh list)
      (unstored : call.Unstored list) (returns : step fuel list call = some (list', answer))
      (frees : call.freed fuel list = some gone) :
      Session start list' (allocated ++ call.allocated) (freed ++ gone)

section Rounds

variable {fuel fuel' : ℕ}

theorem searchFrom_extends (hle : fuel ≤ fuel') (h : Heap) (key : Key) (i : ℕ) (pos : Link) :
    Extends (searchFrom h fuel key i pos) (searchFrom h fuel' key i pos) := by
  induction i generalizing pos with
  | zero => exact .refl _
  | succ i ih =>
    rw [searchFrom, searchFrom]
    apply Extends.bind (.refl _)
    intro first
    apply Extends.bind (walk_extends hle _ _ _ _ _)
    intro stop
    cases stop with
    | found => exact .refl _
    | passed pos => exact Extends.bind (.refl _) fun pos ↦ ih pos.pred

theorem freedFrom_extends (hle : fuel ≤ fuel') (list : SlList) (key : Key) (i : ℕ) (pos : Link) :
    Extends (freedFrom fuel list key i pos) (freedFrom fuel' list key i pos) := by
  induction i generalizing pos with
  | zero => exact .refl _
  | succ i ih =>
    rw [freedFrom, freedFrom]
    apply Extends.bind (.refl _)
    intro first
    apply Extends.bind (.refl _)
    intro n
    apply Extends.bind (walkSafe_extends hle _ _ _ _ _ _)
    intro stop
    cases stop with
    | found => exact .refl _
    | passed pos => exact Extends.bind (.refl _) fun pos ↦ ih pos.pred

theorem step_extends (hle : fuel ≤ fuel') (list : SlList) (call : Call) :
    Extends (step fuel list call) (step fuel' list call) := by
  cases call with
  | insert key val randomSeed malloc =>
    exact (slInsert_extends hle list key val randomSeed malloc).map _
  | search key => exact (searchFrom_extends hle _ _ _ _).map _
  | erase key => exact (slErase_extends hle list key).map _

theorem Call.freed_extends (hle : fuel ≤ fuel') (list : SlList) (call : Call) :
    Extends (call.freed fuel list) (call.freed fuel' list) := by
  cases call with
  | insert key val randomSeed malloc =>
    cases malloc with
    | none => exact .refl _
    | some new => exact (insertFrom_extends hle _ _ _ _ _).map _
  | search key => exact .refl _
  | erase key => exact freedFrom_extends hle _ _ _ _

end Rounds

/-! ## What an erasure frees -/

section Erase

variable {h h' : Heap} {list list' : SlList} {fuel i : ℕ} {key : Key} {pos value : Link} {c : ℤ}

theorem Heap.setNext_nodes (hset : h.setNext pos value = some h') : h'.nodes = h.nodes := by
  simp only [setNext, Option.ite_none_right_eq_some, Option.some.injEq] at hset
  obtain ⟨-, rfl⟩ := hset
  rfl

theorem Heap.setPrev_nodes (hset : h.setPrev pos value = some h') : h'.nodes = h.nodes := by
  simp only [setPrev, Option.ite_none_right_eq_some, Option.some.injEq] at hset
  obtain ⟨-, rfl⟩ := hset
  rfl

theorem Heap.listDel_nodes (hdel : h.listDel pos = some h') : h'.nodes = h.nodes := by
  simp only [listDel, listDelBetween, listInit, Option.bind_eq_bind,
    Option.bind_eq_some_iff] at hdel
  obtain ⟨_, -, _, -, h₂, ⟨h₁, hprev, hnext⟩, h₃, hself, hself'⟩ := hdel
  calc
    h'.nodes = h₃.nodes := setPrev_nodes hself'
    _ = h₂.nodes := setNext_nodes hself
    _ = h₁.nodes := setNext_nodes hnext
    _ = h.nodes := setPrev_nodes hprev

theorem unlinkFrom_nodes {level level' : ℤ}
    (hunlink : unlinkFrom i pos (level, h) = some (level', h')) : h'.nodes = h.nodes := by
  induction i generalizing pos level h with
  | zero =>
    obtain ⟨-, rfl⟩ := Prod.ext_iff.mp (Option.some.inj hunlink)
    rfl
  | succ i ih =>
    simp only [unlinkFrom, Option.bind_eq_bind, Option.bind_eq_some_iff] at hunlink
    obtain ⟨h₁, hdel, _, -, hrest⟩ := hunlink
    exact (ih hrest).trans (Heap.listDel_nodes hdel)

theorem Heap.free_nodes {a : Addr} (hfree : h.free a = some h') :
    (h.nodes a).isSome = true ∧ h'.nodes = Function.update h.nodes a none := by
  simp only [free, Option.ite_none_right_eq_some, Option.some.injEq] at hfree
  obtain ⟨hlive, rfl⟩ := hfree
  exact ⟨hlive, rfl⟩

/-- The nodes before and after a call that frees `gone`. -/
def Loses (list list' : SlList) (gone : List Addr) : Prop :=
  gone = [] ∧ list' = list ∨ ∃ a, gone = [a] ∧ (list.heap.nodes a).isSome = true ∧
    list'.heap.nodes = Function.update list.heap.nodes a none

/-- A node that is there before the call and not afterwards is the one that is freed. -/
theorem Loses.eq_singleton {gone : List Addr} {a : Addr} {node : SlNode}
    (h : Loses list list' gone) (hbefore : list.heap.nodes a = some node)
    (hafter : list'.heap.nodes a = none) : gone = [a] := by
  rcases h with ⟨-, rfl⟩ | ⟨b, rfl, -, hnodes⟩
  · rw [hbefore] at hafter
    cases hafter
  · by_contra hne
    have hne' : a ≠ b := by
      rintro rfl
      exact hne rfl
    rw [hnodes, Function.update_of_ne hne', hbefore] at hafter
    cases hafter

theorem eraseFrom_loses (herase : eraseFrom fuel list key i pos = some (list', c)) :
    ∃ gone, freedFrom fuel list key i pos = some gone ∧ Loses list list' gone := by
  induction i generalizing pos with
  | zero =>
    obtain ⟨rfl, -⟩ := Prod.ext_iff.mp (Option.some.inj herase)
    exact ⟨[], rfl, .inl ⟨rfl, rfl⟩⟩
  | succ i ih =>
    simp only [eraseFrom, Option.bind_eq_bind, Option.bind_eq_some_iff] at herase
    obtain ⟨first, hfirst, n, hn, stop, hwalk, herase⟩ := herase
    simp only [freedFrom, hfirst, hn, hwalk, Option.bind_eq_bind, Option.bind_some]
    cases stop with
    | found pos tmp =>
      simp only [Option.bind_eq_some_iff] at herase
      obtain ⟨⟨level, heap⟩, hunlink, heap', hfree, hresult⟩ := herase
      obtain ⟨rfl, -⟩ := Prod.ext_iff.mp (Option.some.inj hresult)
      have hnodes := unlinkFrom_nodes hunlink
      obtain ⟨hlive, hnodes'⟩ := Heap.free_nodes hfree
      rw [hnodes] at hlive hnodes'
      exact ⟨[tmp.1], rfl, .inr ⟨tmp.1, rfl, hlive, hnodes'⟩⟩
    | passed pos =>
      simp only [Option.bind_eq_some_iff] at herase
      obtain ⟨prev, hprev, herase⟩ := herase
      simp only [hprev, Option.bind_some]
      exact ih herase

end Erase

/-! ## One call -/

/-- The entries, the size and the ledger after a call. -/
structure Balanced (list : SlList) (entries : List Entry) (call : Call) (list' : SlList)
    (entries' : List Entry) (gone : List Addr) : Prop where
  linked : Linked list' entries'
  size : list'.size ≤ intMax
  ledger : (gone ++ entries'.map Prod.fst).Perm (entries.map Prod.fst ++ call.allocated)
  erased : ∀ a, a ∈ gone ↔ call.Erases list a
  removed : ∀ a ∈ gone, list'.heap.nodes a = none

namespace Linked

variable {list : SlList} {entries : List Entry} {key : Key} {fuel : ℕ}

/-- A call that does not change anything. -/
theorem balanced_same {call : Call} (h : Linked list entries) (hsize : list.size ≤ intMax)
    (hallocated : call.allocated = []) (herases : ∀ a, ¬ call.Erases list a) :
    Balanced list entries call list entries [] where
  linked := h
  size := hsize
  ledger := by rw [hallocated, List.nil_append, List.append_nil]
  erased a := iff_of_false List.not_mem_nil (herases a)
  removed a ha := absurd ha List.not_mem_nil

/-- The place of a new key. -/
theorem exists_cut_unstored (h : Linked list entries)
    (hunstored : ∀ b node, list.heap.nodes b = some node → node.key ≠ key)
    (hfuel : entries.length < fuel) :
    ∃ lo hi, entries = lo ++ hi ∧ Cut key lo none hi ∧ lo.length < fuel := by
  obtain ⟨lo, same, hi, rfl, hcut, hlo⟩ := h.sorted.exists_cut_lt key hfuel
  cases same with
  | some e =>
    have hstored : list.heap.nodes e.1 = some e.2 := h.stores e (by simp)
    exact absurd (hcut.same e rfl) (hunstored e.1 e.2 hstored)
  | none => exact ⟨lo, hi, rfl, hcut, hlo⟩

/-- The loop of `sl_insert` for a new key. -/
theorem insertFrom_unstored (h : Linked list entries) (val : Ptr) (randomSeed : UInt32) {a : Addr}
    (ha : list.heap.nodes a = none)
    (hunstored : (Call.insert key val randomSeed (some a)).Unstored list)
    (hfuel : entries.length < fuel) : ∃ heap,
      insertFrom fuel key a (randomLevel randomSeed + 1) (.head (randomLevel randomSeed))
        (list.heap.slNodeAlloc a key val (randomLevel randomSeed)) = some (heap, true) := by
  obtain ⟨lo, hi, rfl, hcut, hlo⟩ := h.exists_cut_unstored hunstored hfuel
  obtain ⟨heap, hlinks, -⟩ := h.insertFrom_new hcut hlo val randomSeed ha
  exact ⟨heap, hlinks⟩

theorem insert_balanced (h : Linked list entries) (hsize : list.size < intMax)
    (val : Ptr) (randomSeed : UInt32) {a : Addr} (ha : list.heap.nodes a = none)
    (hunstored : (Call.insert key val randomSeed (some a)).Unstored list)
    (hfuel : entries.length < fuel) : ∃ list' entries',
      slInsert fuel list key val randomSeed (some a) = some (list', 0) ∧
      (Call.insert key val randomSeed (some a)).freed fuel list = some [] ∧
      Balanced list entries (.insert key val randomSeed (some a)) list' entries' [] := by
  obtain ⟨heap, hlinks⟩ := h.insertFrom_unstored val randomSeed ha hunstored hfuel
  obtain ⟨lo, hi, rfl, hcut, hlo⟩ := h.exists_cut_unstored hunstored hfuel
  obtain ⟨list', hinsert, hlinked⟩ := h.slInsert_eq hcut hlo val randomSeed ha hsize
  refine ⟨list', _, hinsert, ?_, hlinked, ?_, ?_, ?_, ?_⟩
  · simp [Call.freed, hlinks]
  · have hsize' := hlinked.size
    have := h.size
    simp only [List.length_append, List.length_cons] at this hsize'
    omega
  · have hmiddle : (lo.map Prod.fst ++ a :: hi.map Prod.fst).Perm
        (a :: (lo.map Prod.fst ++ hi.map Prod.fst)) := List.perm_middle
    simp only [List.map_append, List.map_cons, Call.allocated, List.nil_append]
    exact hmiddle.trans (List.perm_append_singleton ..).symm
  · exact fun a ↦ iff_of_false List.not_mem_nil fun h ↦ h
  · exact fun a ha ↦ absurd ha List.not_mem_nil

theorem erase_balanced (h : Linked list entries) (key : Key) (hsize : list.size ≤ intMax)
    (hfuel : entries.length < fuel) : ∃ list' c gone entries',
      slErase fuel list key = some (list', c) ∧ (Call.erase key).freed fuel list = some gone ∧
      Balanced list entries (.erase key) list' entries' gone := by
  obtain ⟨lo, same, hi, rfl, hcut, hlo⟩ := h.sorted.exists_cut_lt key hfuel
  cases same with
  | none =>
    rw [Option.toList_none, List.nil_append] at h ⊢
    have herase := h.slErase_none hcut hlo
    obtain ⟨gone, hfreed, ⟨rfl, -⟩ | ⟨a, -, hlive, hnodes⟩⟩ := eraseFrom_loses herase
    · refine ⟨list, _, [], _, herase, hfreed, h.balanced_same hsize rfl ?_⟩
      rintro a ⟨node, hnode, hkey⟩
      exact hcut.key_ne ((h.nodes a node).mp hnode) hkey
    · rw [hnodes, Function.update_self] at hlive
      cases hlive
  | some e =>
    rw [Option.toList_some, List.singleton_append] at h ⊢
    obtain ⟨list', herase, hlinked⟩ := h.slErase_some hcut hlo
    have hstored : list.heap.nodes e.1 = some e.2 := h.stores e (by simp)
    have hremoved : list'.heap.nodes e.1 = none := by
      rw [Option.eq_none_iff_forall_ne_some]
      intro node hnode
      have hmem := (hlinked.nodes e.1 node).mp hnode
      have hmem' : (e.1, node) ∈ lo ++ e :: hi := by
        simp only [List.mem_append, List.mem_cons] at hmem ⊢
        tauto
      have heq := h.eq_of_address (e := e) (by simp) hmem' rfl
      rw [heq] at hmem
      exact hcut.key_ne hmem (hcut.same e rfl)
    obtain ⟨gone, hfreed, hloses⟩ := eraseFrom_loses herase
    obtain rfl : gone = [e.1] := hloses.eq_singleton hstored hremoved
    refine ⟨list', 0, [e.1], _, herase, hfreed, hlinked, ?_, ?_, ?_, ?_⟩
    · have hsize' := hlinked.size
      have := h.size
      simp only [List.length_append, List.length_cons] at this hsize'
      omega
    · have hmiddle : (lo.map Prod.fst ++ e.1 :: hi.map Prod.fst).Perm
          (e.1 :: (lo.map Prod.fst ++ hi.map Prod.fst)) := List.perm_middle
      simp only [List.map_append, List.map_cons, Call.allocated, List.append_nil]
      exact hmiddle.symm
    · intro a
      rw [List.mem_singleton]
      constructor
      · rintro rfl
        exact ⟨e.2, hstored, hcut.same e rfl⟩
      · rintro ⟨node, hnode, hkey⟩
        exact congrArg Prod.fst (hcut.eq_of_key ((h.nodes a node).mp hnode) hkey)
    · intro a ha
      rw [List.mem_singleton.mp ha]
      exact hremoved

/-- **A call returns**, and it frees what it erases. -/
theorem call_balanced {call : Call} (h : Linked list entries) (hsize : list.size ≤ intMax)
    (hfresh : call.Fresh list) (hunstored : call.Unstored list) (hroom : ¬ call.Overflows list)
    (hfuel : entries.length < fuel) : ∃ list' answer gone entries',
      step fuel list call = some (list', answer) ∧ call.freed fuel list = some gone ∧
      Balanced list entries call list' entries' gone := by
  cases call with
  | insert key val randomSeed malloc =>
    cases malloc with
    | none => exact ⟨list, .code (-enomem), [], entries, rfl, rfl,
        h.balanced_same hsize rfl fun a h ↦ h⟩
    | some a =>
      have hlt : list.size < intMax := lt_of_le_of_ne hsize hroom
      obtain ⟨list', entries', hinsert, hfreed, hbalanced⟩ :=
        h.insert_balanced hlt val randomSeed hfresh hunstored hfuel
      exact ⟨list', .code 0, [], entries', by rw [step, hinsert]; rfl, hfreed, hbalanced⟩
  | search key =>
    obtain ⟨lo, same, hi, rfl, hcut, hlo⟩ := h.sorted.exists_cut_lt key hfuel
    have hsearch := h.slSearch_eq hcut hlo
    exact ⟨list, _, [], _, by rw [step, hsearch]; rfl, rfl,
      h.balanced_same hsize rfl fun a h ↦ h⟩
  | erase key =>
    obtain ⟨list', c, gone, entries', herase, hfreed, hbalanced⟩ :=
      h.erase_balanced key hsize hfuel
    exact ⟨list', .code c, gone, entries', by rw [step, herase]; rfl, hfreed, hbalanced⟩

/-- A call that has returned has not overflowed the size. -/
theorem not_overflows {call : Call} {result : SlList × Answer} (h : Linked list entries)
    (hfresh : call.Fresh list) (hunstored : call.Unstored list) (hfuel : entries.length < fuel)
    (hstep : step fuel list call = some result) : ¬ call.Overflows list := by
  intro hoverflows
  cases call with
  | insert key val randomSeed malloc =>
    cases malloc with
    | none => exact hoverflows
    | some a =>
      obtain ⟨heap, hlinks⟩ := h.insertFrom_unstored val randomSeed hfresh hunstored hfuel
      have hsize : list.size = intMax := hoverflows
      simp [step, slInsert, hlinks, hsize] at hstep
  | search | erase => exact hoverflows

end Linked

/-! ## The runs -/

section Runs

variable {next prev : Link → Link} {start list : SlList} {allocated freed : List Addr}

/-- The invariant of the runs: a node that was allocated is freed or linked. -/
theorem Session.linked (h : Session start list allocated freed)
    (halloc : slListAlloc next prev = some start) :
    ∃ entries, Linked list entries ∧ list.size ≤ intMax ∧
      (freed ++ entries.map Prod.fst).Perm allocated := by
  induction h with
  | nil =>
    have hlinked := linked_of_slListAlloc halloc
    have hsize : start.size = 0 := hlinked.size
    exact ⟨[], hlinked, by rw [hsize]; decide, .refl _⟩
  | @snoc list list' allocated freed gone call fuel answer _ hfresh hunstored hstep hfrees ih =>
    obtain ⟨entries, hlinked, hsize, hledger⟩ := ih
    have hrounds : fuel ≤ max fuel (entries.length + 1) := Nat.le_max_left ..
    have hfuel : entries.length < max fuel (entries.length + 1) := by omega
    have hstep' := step_extends hrounds list call _ hstep
    have hfrees' := Call.freed_extends hrounds list call _ hfrees
    have hroom := hlinked.not_overflows hfresh hunstored hfuel hstep'
    obtain ⟨list'', answer', gone', entries', hreturns, hgone, hbalanced⟩ :=
      hlinked.call_balanced hsize hfresh hunstored hroom hfuel
    obtain ⟨rfl, -⟩ := Prod.ext_iff.mp (Option.some.inj (hreturns.symm.trans hstep'))
    obtain rfl := Option.some.inj (hgone.symm.trans hfrees')
    refine ⟨entries', hbalanced.linked, hbalanced.size, ?_⟩
    have hcall : (freed ++ (gone' ++ entries'.map Prod.fst)).Perm
        (freed ++ (entries.map Prod.fst ++ call.allocated)) := hbalanced.ledger.append_left freed
    rw [List.append_assoc]
    apply hcall.trans
    rw [← List.append_assoc]
    exact hledger.append_right _

/-- **The ledger of the nodes.** After any run, every further call for which `list->size` does not
overflow returns, so all its accesses exist. It frees the node that it erases and no other, and no
link leads to this node afterwards. When the size overflows, the links of the new node have been
written before. And `sl_delete` returns, and the nodes that it frees are exactly those that were
allocated and not freed before. -/
theorem memory_ledger (halloc : slListAlloc next prev = some start)
    (hsession : Session start list allocated freed) :
    (∀ (fuel : ℕ) (call : Call), list.size < fuel → call.Fresh list → call.Unstored list →
      ¬ call.Overflows list → ∃ list' answer gone, step fuel list call = some (list', answer) ∧
        call.freed fuel list = some gone ∧ (∀ a, a ∈ gone ↔ call.Erases list a) ∧
          ∀ a ∈ gone, list'.heap.nodes a = none ∧ ¬ Dangling list' a) ∧
    (∀ (fuel : ℕ) key val randomSeed a, list.size < fuel → list.heap.nodes a = none →
      (Call.insert key val randomSeed (some a)).Unstored list → ∃ heap,
        insertFrom fuel key a (randomLevel randomSeed + 1) (.head (randomLevel randomSeed))
          (list.heap.slNodeAlloc a key val (randomLevel randomSeed)) = some (heap, true)) ∧
    ∀ fuel : ℕ, list.size < fuel → ∃ heap deleted, slDelete fuel list = some (heap, deleted) ∧
      (∀ a, heap.nodes a = none) ∧ (freed ++ deleted).Perm allocated := by
  obtain ⟨entries, hlinked, hsize, hledger⟩ := hsession.linked halloc
  have hfuel (fuel : ℕ) (h : list.size < fuel) : entries.length < fuel := by
    rw [hlinked.size] at h
    exact Int.ofNat_lt.mp h
  refine ⟨?_, ?_, ?_⟩
  · intro fuel call hrounds hfresh hunstored hroom
    obtain ⟨list', answer, gone, entries', hreturns, hfreed, hbalanced⟩ :=
      hlinked.call_balanced hsize hfresh hunstored hroom (hfuel fuel hrounds)
    refine ⟨list', answer, gone, hreturns, hfreed, hbalanced.erased, fun a ha ↦ ?_⟩
    have hremoved := hbalanced.removed a ha
    exact ⟨hremoved, hbalanced.linked.not_dangling hremoved⟩
  · intro fuel key val randomSeed a hrounds ha hunstored
    exact hlinked.insertFrom_unstored val randomSeed ha hunstored (hfuel fuel hrounds)
  · intro fuel hrounds
    obtain ⟨heap, hdelete, hnodes⟩ := hlinked.slDelete_eq (hfuel fuel hrounds)
    exact ⟨heap, _, hdelete, hnodes, hledger⟩

/-- The nodes are among those that were allocated. -/
theorem Session.unstored (h : Session start list allocated freed)
    (halloc : slListAlloc next prev = some start) {key : Key}
    (hkeys : ∀ a ∈ allocated, ∀ node ∈ list.heap.nodes a, node.key ≠ key) (val : Ptr)
    (randomSeed : UInt32) (malloc : Option Addr) :
    (Call.insert key val randomSeed malloc).Unstored list := by
  obtain ⟨entries, hlinked, -, hledger⟩ := h.linked halloc
  intro a node hnode
  have ha : a ∈ freed ++ entries.map Prod.fst :=
    List.mem_append_right _ (List.mem_map_of_mem ((hlinked.nodes a node).mp hnode))
  exact hkeys a (hledger.mem_iff.mp ha) node hnode

/-- The list after a call of a short session. -/
def after (list : SlList) (call : Call) : SlList := ((step 7 list call).map Prod.fst).getD list

theorem Session.after (h : Session start list allocated freed) (call : Call) (gone : List Addr)
    (hfresh : call.Fresh list) (hunstored : call.Unstored list)
    (hreturns : (step 7 list call).isSome) (hfrees : call.freed 7 list = some gone) :
    Session start (after list call) (allocated ++ call.allocated) (freed ++ gone) := by
  obtain ⟨⟨list', answer⟩, hstep⟩ := Option.isSome_iff_exists.mp hreturns
  have hafter : SkipList.after list call = list' := by
    rw [SkipList.after, hstep, Option.map_some, Option.getD_some]
  rw [hafter]
  exact h.snoc hfresh hunstored hstep hfrees

/-- The node of the key 5 has the levels 0 to 2. It is erased, and its address is returned again
for a node with the levels 0 and 1. -/
def reusing : List Call :=
  [.insert 5 50 3 (some 1), .insert 3 30 0 (some 2), .erase 5, .insert 8 80 1 (some 1)]

theorem session_reusing :
    Session emptyList (reusing.foldl SkipList.after emptyList) [1, 2, 1] [1] := by
  have halloc : slListAlloc id id = some emptyList := rfl
  have hstart : Session emptyList emptyList [] [] := .nil
  have hfirst := hstart.after (.insert 5 50 3 (some 1)) [] (by decide +kernel)
    (hstart.unstored halloc (by decide +kernel) 50 3 (some 1)) (by decide +kernel)
    (by decide +kernel)
  have hsecond := hfirst.after (.insert 3 30 0 (some 2)) [] (by decide +kernel)
    (hfirst.unstored halloc (by decide +kernel) 30 0 (some 2)) (by decide +kernel)
    (by decide +kernel)
  have herase := hsecond.after (.erase 5) [1] trivial trivial (by decide +kernel)
    (by decide +kernel)
  have hlast := herase.after (.insert 8 80 1 (some 1)) [] (by decide +kernel)
    (herase.unstored halloc (by decide +kernel) 80 1 (some 1)) (by decide +kernel)
    (by decide +kernel)
  simpa only [reusing, List.foldl_cons, List.foldl_nil, Call.allocated, List.nil_append,
    List.append_nil, List.cons_append] using hlast

/-- `sl_delete` frees the two nodes that are left. -/
theorem memory_ledger_reusing : ∃ heap deleted,
    slDelete 7 (reusing.foldl SkipList.after emptyList) = some (heap, deleted) ∧
      (∀ a, heap.nodes a = none) ∧ (1 :: deleted).Perm [1, 2, 1] := by
  have halloc : slListAlloc id id = some emptyList := rfl
  obtain ⟨-, -, hdelete⟩ := memory_ledger halloc session_reusing
  exact hdelete 7 (by decide +kernel)

end Runs

end ParallelPrograms.SkipList
