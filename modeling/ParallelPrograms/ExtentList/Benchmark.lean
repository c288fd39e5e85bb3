import ParallelPrograms.ExtentList.Contents
import ParallelPrograms.ExtentList.Runs

/-!
# The driver of the extent skip list

The functions of `skiplist_test.c` that fill the list with `items` extents of 4096 keys, check and
verify it, and delete the extents again. The deletion goes from both ends towards the middle and stops
after `items / 2` rounds of two deletions, so with an odd number of items the extent in the middle
stays in the list.
-/

namespace ParallelPrograms.ExtentList

open Sequence Refinement

variable {α : Type}

/-! ## The functions of the driver -/

/-- The key of an item. -/
def itemKey (i : ℕ) : ℕ := ulong (i * 4096)

/-- The extent of an item. -/
def item (entry : ℕ → α) (i : ℕ) : SlSlot α := ⟨i * 4096, 4096, entry i⟩

/-- The module parameter `benchmark`. -/
inductive Benchmark where
  | skiplistRcuBench
  | skiplistBench

/-- What `delete_all_items_skiplist` prints, and the slots that it passes to `kfree`. -/
structure Deletions (α : Type) where
  missing : ℕ
  errors : ℕ
  freed : List (SlSlot α)

namespace State

/-- The loop of `run_initial_fill_skiplist`, for `count` items from `i` on. What the allocations of an
item return are `slots` and `allocs`. -/
def fillFrom (fuel : ℕ) (slots : ℕ → Option α) (allocs : ℕ → Alloc) :
    ℕ → ℕ → State α → Option (ℤ × State α)
  | 0, _, s => some (0, s)
  | count + 1, i, s => do
    let (ret, s) ← s.insertOneSkiplist fuel (itemKey i) 4096 (slots i) (allocs i)
    if ret ≠ 0 then return (ret, s) else fillFrom fuel slots allocs count (i + 1) s

/-- `run_initial_fill_skiplist` -/
def runInitialFill (fuel items : ℕ) (slots : ℕ → Option α) (allocs : ℕ → Alloc) (s : State α) :
    Option (ℤ × State α) :=
  s.slInitList.fillFrom fuel slots allocs items 0

/-- The lookup of `check_post_work_skiplist` under RCU, which is made again after a wrong answer. -/
def checkRcu (fuel key : ℕ) (s : State α) : ℕ → Option (Option (SlSlot α))
  | 0 => none
  | rounds + 1 => do
    let slot ← s.skiplistLookupRcu fuel (ulong (key + 64)) 512 fuel
    if slot.any (·.key ≠ key) then s.checkRcu fuel key rounds else return slot

def checkLookup (fuel key : ℕ) (s : State α) :
    Benchmark → Option (Option (SlSlot α) × State α)
  | .skiplistRcuBench => do return (← s.checkRcu fuel key fuel, s)
  | .skiplistBench => s.skiplistLookup fuel (ulong (key + 64)) 512 fuel

/-- The loop of `check_post_work_skiplist`, which counts the errors. -/
def checkFrom (fuel : ℕ) (benchmark : Benchmark) : ℕ → ℕ → ℕ → State α → Option (ℕ × State α)
  | 0, _, errors, s => some (errors, s)
  | count + 1, i, errors, s => do
    let (slot, s) ← s.checkLookup fuel (itemKey i) benchmark
    let errors := if slot.any (·.key = itemKey i) then errors else errors + 1
    checkFrom fuel benchmark count (i + 1) errors s

/-- `check_post_work_skiplist` -/
def checkPostWork (fuel items : ℕ) (benchmark : Benchmark) (s : State α) : Option (ℕ × State α) :=
  s.checkFrom fuel benchmark items 0 0

/-- What `verify_post_work_skiplist` does with a slot, with the expected key and the number of bad
ones. -/
def verifySlot (acc : ℕ × ℕ) (slot : SlSlot α) : ℕ × ℕ :=
  (ulong (acc.1 + slot.size), if slot.key ≠ acc.1 then acc.2 + 1 else acc.2)

/-- The inner loop of `verify_post_work_skiplist`, over the slots of a leaf. -/
def verifySlots (leaf : SlLeaf α) : ℕ → ℕ → ℕ × ℕ → Option (ℕ × ℕ)
  | 0, _, acc => some acc
  | count + 1, i, acc => do verifySlots leaf count (i + 1) (verifySlot acc (← leaf.ptrs i))

/-- The outer loop of `verify_post_work_skiplist`, over the nodes of level 0. -/
def verifyFrom (s : State α) : ℕ → Option Node → ℕ × ℕ → ℕ → Option (ℕ × ℕ)
  | 0, _, _, _ => none
  | _ + 1, none, acc, found => some (acc.2, found)
  | rounds + 1, some node, acc, found => do
    let leaf ← s.getLeaf (← node.slEntry)
    let acc ← verifySlots leaf leaf.nr 0 acc
    verifyFrom s rounds (← s.getNext 0 node) acc (found + leaf.nr)

/-- `verify_post_work_skiplist`: the number of bad keys, and the number of slots found. It passes when
the latter is the number of items. -/
def verifyPostWork (fuel : ℕ) (s : State α) : Option (ℕ × ℕ) := do
  s.verifyFrom fuel (← s.getNext 0 .head) (0, 0) 0

/-- The deletion of one item in `delete_all_items_skiplist`. -/
def deleteItem (fuel key : ℕ) (beyond : ℕ × Option (SlSlot α)) (report : Deletions α) (s : State α) :
    Option (Deletions α × State α) := do
  let (slot, s) ← s.skiplistDelete fuel (ulong (key + 512)) 1 beyond fuel
  match slot with
  | none => return ({ report with missing := report.missing + 1 }, s)
  | some slot =>
    let errors := if slot.key ≠ key then report.errors + 1 else report.errors
    return ({ report with errors := errors, freed := report.freed ++ [slot] }, s)

/-- The loop of `delete_all_items_skiplist`, for `count` rounds from `i` on. Each round deletes an item
from either end, where `beyond` lies behind the arrays of their leaves. -/
def deleteFrom (fuel items : ℕ) (beyond : ℕ → (ℕ × Option (SlSlot α)) × (ℕ × Option (SlSlot α))) :
    ℕ → ℕ → Deletions α → State α → Option (Deletions α × State α)
  | 0, _, report, s => some (report, s)
  | count + 1, i, report, s => do
    let (report, s) ← s.deleteItem fuel (itemKey i) (beyond i).1 report
    let (report, s) ← s.deleteItem fuel (itemKey (items - 1 - i)) (beyond i).2 report
    deleteFrom fuel items beyond count (i + 1) report s

/-- `delete_all_items_skiplist` -/
def deleteAllItems (fuel items : ℕ)
    (beyond : ℕ → (ℕ × Option (SlSlot α)) × (ℕ × Option (SlSlot α))) (s : State α) :
    Option (Deletions α × State α) :=
  s.deleteFrom fuel items beyond (items / 2) 0 ⟨0, 0, []⟩

end State

/-! ## What is verified -/

section Verify

variable {s : State α} {slots : List (SlSlot α)} {fuel : ℕ}

theorem verifySlots_eq {leaf : SlLeaf α} (before : List (SlSlot α)) {after : List (SlSlot α)}
    (h : leaf.Holds (before ++ after)) (acc : ℕ × ℕ) :
    State.verifySlots leaf after.length before.length acc =
      some (after.foldl State.verifySlot acc) := by
  induction after generalizing before acc with
  | nil => rfl
  | cons t after ih =>
    have hptr : leaf.ptrs before.length = some t :=
      congrArg Prod.snd (h.item before.length t (by simp))
    have hrest := ih (before ++ [t]) (by rwa [List.append_cons] at h) (State.verifySlot acc t)
    rw [List.length_append] at hrest
    rw [List.length_cons, State.verifySlots, hptr, List.foldl_cons, ← hrest]
    rfl

/-- The walk goes through the leaves in order. -/
theorem Linked.verifyFrom_eq (before : List (Entry α)) {after : List (Entry α)}
    (h : Linked s (before ++ after)) {rounds : ℕ} (hrounds : after.length < rounds) (acc : ℕ × ℕ)
    (found : ℕ) :
    s.verifyFrom rounds (nodesAt 0 after).head? acc found =
      some (((contents after).foldl State.verifySlot acc).2, found + (contents after).length) := by
  induction after generalizing before rounds acc found with
  | nil =>
    obtain ⟨rounds, rfl⟩ := Nat.exists_eq_add_one.mpr hrounds
    rfl
  | cons e after ih =>
    obtain ⟨rounds, rfl⟩ := Nat.exists_eq_add_one.mpr (Nat.zero_lt_of_lt hrounds)
    have he : e ∈ before ++ e :: after := by simp
    have hentry : e.node.slEntry = some e.addr := rfl
    have hleaf := h.getLeaf he
    have hnr := (h.holds e he).nr
    have hslots := verifySlots_eq [] (h.holds e he) acc
    rw [List.append_cons] at h
    have hnext : s.getNext 0 e.node = some (nodesAt 0 after).head? := by
      have hlast := getNext_eq h.nodes (by decide) (h.chains 0 (by decide))
      rwa [lastAt_concat_of_le (Nat.zero_le _)] at hlast
    have hrest := ih _ h (Nat.lt_of_succ_lt_succ hrounds) (e.slots.foldl State.verifySlot acc)
      (found + e.slots.length)
    rw [List.length_nil] at hslots
    rw [nodesAt_cons_of_le (Nat.zero_le _), List.head?_cons, State.verifyFrom]
    simp only [hentry, hleaf, hnr, hslots, hnext, hrest, Option.bind_eq_bind, Option.bind_some]
    rw [contents_cons, List.foldl_append, List.length_append, Nat.add_assoc]

/-- **`verify_post_work_skiplist`** counts the extents, and those that do not begin where the one
before ends. -/
theorem Keeps.verifyPostWork_eq (h : Keeps s slots) (hfuel : slots.length < fuel) :
    s.verifyPostWork fuel = some ((slots.foldl State.verifySlot (0, 0)).2, slots.length) := by
  obtain ⟨entries, hsound, rfl⟩ := h
  have hfirst : s.getNext 0 .head = some (nodesAt 0 entries).head? :=
    getNext_eq (show Nodes s ([] ++ entries) from hsound.linked.nodes) (by decide)
      (hsound.linked.chains 0 (by decide))
  have hwalk := Linked.verifyFrom_eq [] hsound.linked
    (hsound.linked.length_le.trans_lt hfuel) (0, 0) 0
  rw [Nat.zero_add] at hwalk
  rw [State.verifyPostWork, hfirst, ← hwalk]
  rfl

end Verify

/-! ## The items -/

/-- The extents of `n` items from `i` on. -/
def itemsFrom (entry : ℕ → α) (i n : ℕ) : List (SlSlot α) := (List.range' i n).map (item entry)

/-- The calls of the initial fill. -/
def fillCalls (entry : ℕ → α) (allocs : ℕ → Alloc) (i n : ℕ) : List (Call α) :=
  (List.range' i n).map fun i ↦ .insert (i * 4096) 4096 (some (entry i)) (allocs i)

section Items

variable {entry : ℕ → α} {i j n items : ℕ}

@[simp]
theorem itemsFrom_zero : itemsFrom entry i 0 = [] := rfl

theorem itemsFrom_succ : itemsFrom entry i (n + 1) = item entry i :: itemsFrom entry (i + 1) n := by
  unfold itemsFrom
  rw [List.range'_succ, List.map_cons]

theorem itemsFrom_concat :
    itemsFrom entry i (n + 1) = itemsFrom entry i n ++ [item entry (i + n)] := by
  unfold itemsFrom
  rw [List.range'_1_concat, List.map_append, List.map_singleton]

theorem mem_itemsFrom {t : SlSlot α} :
    t ∈ itemsFrom entry i n ↔ ∃ j, (i ≤ j ∧ j < i + n) ∧ item entry j = t := by
  unfold itemsFrom
  rw [List.mem_map]
  simp only [List.mem_range'_1]

theorem length_itemsFrom : (itemsFrom entry i n).length = n := by
  unfold itemsFrom
  rw [List.length_map, List.length_range']

theorem item_stop : (item entry i).stop = (i + 1) * 4096 := (Nat.succ_mul i 4096).symm

theorem itemKey_eq (hi : i < 2 ^ 31) : itemKey i = i * 4096 := ulong_eq (by omega)

/-- All keys are as expected. -/
theorem foldl_itemsFrom (hn : n < 2 ^ 31) :
    (itemsFrom entry 0 n).foldl State.verifySlot (0, 0) = (n * 4096, 0) := by
  induction n with
  | zero => rfl
  | succ n ih =>
    have hsum : ulong (n * 4096 + 4096) = (n + 1) * 4096 := by
      rw [ulong_eq (by omega), Nat.succ_mul]
    rw [itemsFrom_concat, List.foldl_append, ih (Nat.lt_of_succ_lt hn), Nat.zero_add]
    change (ulong (n * 4096 + 4096), if n * 4096 ≠ n * 4096 then 1 else 0) = _
    rw [hsum, if_neg (not_not_intro rfl)]

end Items

section Driver

variable {s : State α} {slots left right : List (SlSlot α)} {entry : ℕ → α} {allocs : ℕ → Alloc}
  {i j count fuel items top errors : ℕ}

/-- **`run_initial_fill_skiplist`**: every item goes behind the others. -/
theorem Keeps.fillFrom_eq (count : ℕ) (h : Keeps s (itemsFrom entry 0 i))
    (hitems : i + count < 2 ^ 31) (hfuel : i + count ≤ fuel)
    (hleaf : ∀ j < i + count, (allocs j).leaf ≠ none)
    (hcalls : AdmissibleRun (step fuel) (Admissible top) s (fillCalls entry allocs i count)) :
    ∃ s', s.fillFrom fuel (fun j ↦ some (entry j)) allocs count i = some (0, s') ∧
      Keeps s' (itemsFrom entry 0 (i + count)) := by
  induction count generalizing i s with
  | zero => exact ⟨s, rfl, h⟩
  | succ count ih =>
    unfold fillCalls at hcalls
    rw [List.range'_succ, List.map_cons] at hcalls
    obtain ⟨⟨hsize, -, halloc⟩, hrest⟩ := hcalls
    have hgap : Between (i * 4096) 4096 (itemsFrom entry 0 i) [] := by
      refine ⟨fun t ht ↦ ?_, by simp⟩
      obtain ⟨j, hj, rfl⟩ := mem_itemsFrom.mp ht
      rw [item_stop]
      exact Nat.mul_le_mul_right 4096 (show j + 1 ≤ i by omega)
    have hlength : (itemsFrom entry 0 i ++ []).length < fuel := by
      rw [List.append_nil, length_itemsFrom]
      omega
    obtain ⟨s₁, hrun, h₁⟩ := Keeps.insert (entry i) (by rwa [List.append_nil]) hgap halloc
      (hleaf i (by omega)) hsize (by omega) hlength
    have hitem : itemsFrom entry 0 i ++ [⟨i * 4096, 4096, entry i⟩] = itemsFrom entry 0 (i + 1) := by
      rw [itemsFrom_concat, Nat.zero_add]
      rfl
    have hcount : i + (count + 1) = i + 1 + count := by omega
    rw [hcount] at hitems hfuel hleaf ⊢
    rw [hitem] at h₁
    obtain ⟨s', hfill, h'⟩ := ih h₁ hitems hfuel hleaf (hrest _ (step_insert hrun))
    refine ⟨s', ?_, h'⟩
    rw [State.fillFrom, itemKey_eq (by omega), hrun, ← hfill]
    rfl

theorem Keeps.checkLookup_eq (benchmark : Benchmark) (h : Keeps s slots)
    (ht : item entry j ∈ slots) (hj : j < 2 ^ 31) (hfuel : slots.length < fuel) :
    s.checkLookup fuel (itemKey j) benchmark = some (some (item entry j), s) := by
  have hkey : ulong (itemKey j + 64) = j * 4096 + 64 := by
    rw [itemKey_eq hj, ulong_eq (by omega)]
  have hstart : (item entry j).key ≤ j * 4096 + 64 := Nat.le_add_right _ _
  have hstop : j * 4096 + 64 + 512 ≤ (item entry j).stop := by
    rw [item_stop]
    omega
  obtain ⟨hlookup, hrcu⟩ := h.lookups ht (by decide) hstart hstop hfuel
  cases benchmark with
  | skiplistRcuBench =>
    obtain ⟨rounds, hrounds⟩ := Nat.exists_eq_add_one.mpr (Nat.zero_lt_of_lt hfuel)
    have hcheck : s.checkRcu fuel (itemKey j) (rounds + 1) = some (some (item entry j)) := by
      rw [State.checkRcu, hkey, hrcu, itemKey_eq hj]
      simp [item]
    rw [← hrounds] at hcheck
    rw [State.checkLookup, hcheck]
    rfl
  | skiplistBench => rw [State.checkLookup, hkey, hlookup]

/-- **`check_post_work_skiplist`** finds no error when no item is missing. -/
theorem Keeps.checkFrom_eq (benchmark : Benchmark) (h : Keeps s slots)
    (hmem : ∀ j, i ≤ j → j < i + count → item entry j ∈ slots) (hcount : i + count ≤ 2 ^ 31)
    (hfuel : slots.length < fuel) : s.checkFrom fuel benchmark count i errors = some (errors, s) := by
  induction count generalizing i with
  | zero => rfl
  | succ count ih =>
    have hlookup := h.checkLookup_eq benchmark (hmem i le_rfl (by omega)) (by omega) hfuel
    have hrest := ih (i := i + 1) (fun j hle hlt ↦ hmem j (by omega) (by omega)) (by omega)
    rw [State.checkFrom, hlookup, ← hrest, itemKey_eq (by omega)]
    simp [item]

/-- One deletion of `delete_all_items_skiplist` -/
theorem Keeps.deleteItem_eq (left : List (SlSlot α)) (beyond : ℕ × Option (SlSlot α))
    (report : Deletions α)
    (h : Keeps s (left ++ item entry j :: right)) (hj : j < 2 ^ 31)
    (hfuel : (left ++ item entry j :: right).length + 1 < fuel) :
    ∃ s', s.deleteItem fuel (itemKey j) beyond report =
        some ({ report with freed := report.freed ++ [item entry j] }, s') ∧
      Keeps s' (left ++ right) := by
  have hkey : ulong (itemKey j + 512) = j * 4096 + 512 := by
    rw [itemKey_eq hj, ulong_eq (by omega)]
  have hstart : (item entry j).key ≤ j * 4096 + 512 := Nat.le_add_right _ _
  have hstop : j * 4096 + 512 + 1 ≤ (item entry j).stop := by
    rw [item_stop]
    omega
  obtain ⟨s', hdelete, h'⟩ := h.delete beyond Nat.one_pos hstart hstop hfuel
  refine ⟨s', ?_, h'⟩
  rw [State.deleteItem, hkey, hdelete, itemKey_eq hj]
  simp [item]

/-- **`delete_all_items_skiplist`**: every round takes the first and the last item. -/
theorem Keeps.deleteFrom_eq (count rest : ℕ)
    (beyond : ℕ → (ℕ × Option (SlSlot α)) × (ℕ × Option (SlSlot α)))
    (report : Deletions α) (h : Keeps s (itemsFrom entry i (2 * count + rest)))
    (hitems : items = 2 * (i + count) + rest) (hlt : items < 2 ^ 31)
    (hfuel : items + 1 < fuel) :
    ∃ freed s', s.deleteFrom fuel items beyond count i report =
        some ({ report with freed := report.freed ++ freed }, s') ∧
      Keeps s' (itemsFrom entry (i + count) rest) ∧
      (freed ++ itemsFrom entry (i + count) rest).Perm (itemsFrom entry i (2 * count + rest)) := by
  induction count generalizing i s report with
  | zero =>
    rw [Nat.mul_zero, Nat.zero_add] at h ⊢
    exact ⟨[], s, by rw [List.append_nil]; rfl, h, .refl _⟩
  | succ count ih =>
    have hlast : items - 1 - i = i + 1 + (2 * count + rest) := by omega
    have hsplit : itemsFrom entry i (2 * (count + 1) + rest) = item entry i ::
        (itemsFrom entry (i + 1) (2 * count + rest) ++ [item entry (items - 1 - i)]) := by
      rw [show 2 * (count + 1) + rest = 2 * count + rest + 1 + 1 by omega, itemsFrom_succ,
        itemsFrom_concat, hlast]
    have hlength : (itemsFrom entry i (2 * (count + 1) + rest)).length + 1 < fuel := by
      rw [length_itemsFrom]
      omega
    rw [hsplit] at h hlength ⊢
    obtain ⟨s₁, hfirst, h₁⟩ := Keeps.deleteItem_eq [] (beyond i).1 report h (by omega) hlength
    obtain ⟨s₂, hsecond, h₂⟩ := h₁.deleteItem_eq _ (beyond i).2
      { report with freed := report.freed ++ [item entry i] } (by omega) (Nat.lt_of_succ_lt hlength)
    rw [List.append_nil] at h₂
    obtain ⟨freed, s', hrun, h', hperm⟩ := ih
      { report with freed := report.freed ++ [item entry i] ++ [item entry (items - 1 - i)] } h₂
      (by omega)
    have hcount : i + (count + 1) = i + 1 + count := by omega
    rw [hcount]
    refine ⟨item entry i :: item entry (items - 1 - i) :: freed, s', ?_, h', ?_⟩
    · rw [State.deleteFrom, hfirst]
      simp only [Option.bind_eq_bind, Option.bind_some, hsecond, hrun]
      simp
    · refine .cons _ ((List.Perm.cons _ hperm).trans ?_)
      exact (List.perm_append_singleton _ _).symm

/-- **The driver leaves the middle.** With any number of items and as one thread, the initial fill
succeeds when its allocations do. Then the check finds no error, the verification finds all items and
no bad key, and the deletion misses none of the items that it asks for. But it empties the list only
when the number of items is even, otherwise the extent in the middle stays. -/
theorem deleteAllItems_leaves_middle
    (beyond : ℕ → (ℕ × Option (SlSlot α)) × (ℕ × Option (SlSlot α))) (h : s.Blank)
    (hitems : items < 2 ^ 31) (hfuel : items + 1 < fuel)
    (hleaf : ∀ i < items, (allocs i).leaf ≠ none)
    (hcalls : AdmissibleRun (step fuel) (Admissible (2 ^ 63)) s.slInitList
      (fillCalls entry allocs 0 items)) :
    ∃ s₁ s₂ freed entries,
      s.runInitialFill fuel items (fun i ↦ some (entry i)) allocs = some (0, s₁) ∧
      (∀ benchmark, s₁.checkPostWork fuel items benchmark = some (0, s₁)) ∧
      s₁.verifyPostWork fuel = some (0, items) ∧
      s₁.deleteAllItems fuel items beyond = some (⟨0, 0, freed⟩, s₂) ∧ Linked s₂ entries ∧
      (freed ++ contents entries).Perm (itemsFrom entry 0 items) ∧
      contents entries = if items % 2 = 0 then [] else [item entry (items / 2)] := by
  have hempty : Keeps s.slInitList (itemsFrom entry 0 0) := ⟨[], h.sound, rfl⟩
  obtain ⟨s₁, hfill, h₁⟩ := hempty.fillFrom_eq items (by omega) (by omega)
    (fun j hj ↦ hleaf j (by omega)) hcalls
  rw [Nat.zero_add] at h₁
  have hlength : (itemsFrom entry 0 items).length < fuel := by
    rw [length_itemsFrom]
    exact Nat.lt_of_succ_lt hfuel
  have hverify := h₁.verifyPostWork_eq hlength
  rw [foldl_itemsFrom hitems, length_itemsFrom] at hverify
  have hhalf : 2 * (items / 2) + items % 2 = items := Nat.div_add_mod items 2
  obtain ⟨freed, s₂, hdelete, ⟨entries, hsound, hcontents⟩, hperm⟩ :=
    Keeps.deleteFrom_eq (items / 2) (items % 2) beyond ⟨0, 0, []⟩ (by rwa [hhalf]) (by omega) hitems
      hfuel
  rw [hhalf, ← hcontents] at hperm
  have hmem : ∀ j, 0 ≤ j → j < 0 + items → item entry j ∈ itemsFrom entry 0 items := fun j hle hlt ↦
    mem_itemsFrom.mpr ⟨j, ⟨hle, hlt⟩, rfl⟩
  refine ⟨s₁, s₂, freed, entries, hfill, fun benchmark ↦ ?_, hverify, hdelete, hsound.linked, hperm,
    ?_⟩
  · exact h₁.checkFrom_eq benchmark hmem (by omega) hlength
  · rw [hcontents, Nat.zero_add]
    rcases Nat.mod_two_eq_zero_or_one items with hmod | hmod
    · rw [hmod, if_pos rfl, itemsFrom_zero]
    · rw [hmod, if_neg Nat.one_ne_zero]
      rfl

/-- What the allocations return for the first items. -/
def someAllocs (i : ℕ) : Alloc := ⟨0, some (2 * i), some (2 * i + 1)⟩

theorem deleteAllItems_leaves_middle_three :
    ∃ s₁ s₂ freed entries,
      (State.blank : State ℕ).runInitialFill 5 3 (fun i ↦ some (id i)) someAllocs = some (0, s₁) ∧
      (∀ benchmark, s₁.checkPostWork 5 3 benchmark = some (0, s₁)) ∧
      s₁.verifyPostWork 5 = some (0, 3) ∧
      s₁.deleteAllItems 5 3 (fun _ ↦ ((0, none), (0, none))) = some (⟨0, 0, freed⟩, s₂) ∧
      Linked s₂ entries ∧ (freed ++ contents entries).Perm (itemsFrom id 0 3) ∧
      contents entries = if 3 % 2 = 0 then [] else [item id (3 / 2)] :=
  deleteAllItems_leaves_middle _ State.blank_blank (by decide) (by decide)
    (fun i _ ↦ Option.some_ne_none _) (by decide +kernel)

end Driver

end ParallelPrograms.ExtentList
