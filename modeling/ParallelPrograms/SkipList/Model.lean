import Mathlib.Algebra.Group.Int.Defs
import Mathlib.Data.Int.Notation
import Mathlib.Data.Nat.Notation
import Mathlib.Data.Option.Basic
import Mathlib.Logic.Function.Basic
import Mathlib.Order.Defs.LinearOrder
import Mathlib.Tactic.Simps.Basic

/-!
# The skip list

`sl_list_alloc`, `sl_search`, `sl_insert` and `sl_erase` of `skiplist/src/skiplist.c`. A link lives
in a block of memory, which is the list itself with its array `head` or an allocated node with its
array `link`, and moving one level down decrements the pointer inside the block. Every access of a
link checks that the link exists, so a function of the model has no result when the code reads or
writes outside an array or in a freed node. It has none either when one of the inner loops does
not end within the given number of rounds, or when `list->size` overflows.
-/

namespace ParallelPrograms.SkipList

/-- `SL_MAXLEVEL` -/
abbrev slMaxlevel : ℕ := 32

/-- `INT_MAX` -/
def intMax : ℤ := 2 ^ 31 - 1

/-- The error numbers of `errno.h`. -/
def enomem : ℤ := 12

def eexist : ℤ := 17

def einval : ℤ := 22

/-- The address of a node. -/
abbrev Addr := ℕ

/-- `int`. The code compares keys and does not compute with them. -/
abbrev Key := ℤ

/-- `void *`, where `0` is `NULL`. -/
abbrev Ptr := ℕ

/-- `struct sl_link *`: the link with an index in the array of a block, where the block `none` is
the list with its array `head`. -/
@[ext]
structure Link where
  block : Option Addr
  index : ℤ
  deriving DecidableEq, Repr

/-- `&list->head[i]` -/
@[simps]
def Link.head (i : ℤ) : Link := ⟨none, i⟩

/-- `&node->link[i]` -/
@[simps]
def Link.node (a : Addr) (i : ℤ) : Link := ⟨some a, i⟩

/-- `pos - 1` -/
@[simps]
def Link.pred (pos : Link) : Link := ⟨pos.block, pos.index - 1⟩

/-- `struct sl_node`, allocated with `level + 1` links. -/
structure SlNode where
  key : Key
  val : Ptr
  level : ℕ
  deriving DecidableEq, Repr

/-- The allocated nodes and the contents of all links. -/
structure Heap where
  nodes : Addr → Option SlNode
  next : Link → Link
  prev : Link → Link

/-- `struct sl_list` with the memory of its links. -/
structure SlList where
  size : ℤ
  level : ℤ
  heap : Heap

/-! ## The links -/

namespace Heap

variable (h : Heap)

/-- The link is an element of `list->head` or of the links of an allocated node. -/
def valid (pos : Link) : Bool :=
  0 ≤ pos.index &&
    match pos.block with
    | none => pos.index < slMaxlevel
    | some a => (h.nodes a).any fun node ↦ pos.index ≤ node.level

/-- `pos->next` -/
def getNext (pos : Link) : Option Link := if h.valid pos then some (h.next pos) else none

/-- `pos->prev` -/
def getPrev (pos : Link) : Option Link := if h.valid pos then some (h.prev pos) else none

/-- `pos->next = value` -/
def setNext (pos value : Link) : Option Heap :=
  if h.valid pos then some { h with next := Function.update h.next pos value } else none

/-- `pos->prev = value` -/
def setPrev (pos value : Link) : Option Heap :=
  if h.valid pos then some { h with prev := Function.update h.prev pos value } else none

/-- `list_init(node)` -/
def listInit (node : Link) : Option Heap := do
  let h ← h.setNext node node
  h.setPrev node node

/-- `__list_add(new, prev, next)` -/
def listAddBetween (new prev next : Link) : Option Heap := do
  let h ← h.setPrev next new
  let h ← h.setNext new next
  let h ← h.setPrev new prev
  h.setNext prev new

/-- `list_add(new, prev)` -/
def listAdd (new prev : Link) : Option Heap := do
  h.listAddBetween new prev (← h.getNext prev)

/-- `__list_del(prev, next)` -/
def listDelBetween (prev next : Link) : Option Heap := do
  let h ← h.setPrev next prev
  h.setNext prev next

/-- `list_del(node)` -/
def listDel (node : Link) : Option Heap := do
  let h ← h.listDelBetween (← h.getPrev node) (← h.getNext node)
  h.listInit node

/-- `list_entry(pos, i)`, with the contents of the node. -/
def listEntry (pos : Link) (i : ℤ) : Option (Addr × SlNode) :=
  if pos.index = i then pos.block.bind fun a ↦ (h.nodes a).map fun node ↦ (a, node) else none

/-- `sl_node_alloc(key, val, level)`, where `malloc` returns the address `a`. -/
def slNodeAlloc (a : Addr) (key : Key) (val : Ptr) (level : ℕ) : Heap :=
  { h with nodes := Function.update h.nodes a (some ⟨key, val, level⟩) }

/-- `free(node)` -/
def free (a : Addr) : Option Heap :=
  if (h.nodes a).isSome then some { h with nodes := Function.update h.nodes a none } else none

end Heap

/-! ## The inner loops -/

/-- How an inner loop ends, with the link that `pos` points to. -/
inductive Stop where
  /-- A node with the key. -/
  | found (pos : Link) (node : Addr × SlNode)
  /-- The head, or a node with a greater key. -/
  | passed (pos : Link)

/-- The loop `list_for_each_from(pos, head)` of `sl_search` and `sl_insert`. -/
def walk (h : Heap) (head : Link) (key : Key) (i : ℤ) : ℕ → Link → Option Stop
  | 0, _ => none
  | fuel + 1, pos =>
    if pos = head then some (.passed pos)
    else do
      let node ← h.listEntry pos i
      if node.2.key > key then some (.passed pos)
      else if node.2.key = key then some (.found pos node)
      else walk h head key i fuel (← h.getNext pos)

/-- The loop `list_for_each_safe_from(pos, n, head)` of `sl_erase`. -/
def walkSafe (h : Heap) (head : Link) (key : Key) (i : ℤ) : ℕ → Link → Link → Option Stop
  | 0, _, _ => none
  | fuel + 1, pos, n =>
    if pos = head then some (.passed pos)
    else do
      let node ← h.listEntry pos i
      if node.2.key = key then some (.found pos node)
      else if node.2.key > key then some (.passed pos)
      else walkSafe h head key i fuel n (← h.getNext n)

/-! ## The operations -/

/-- The loop of `random_level`. -/
def trailingOnes : ℕ → UInt32 → ℕ
  | 0, _ => 0
  | fuel + 1, randomSeed =>
    if randomSeed ≠ 0 ∧ randomSeed &&& 0x1 ≠ 0 then trailingOnes fuel (randomSeed >>> 1) + 1 else 0

/-- `random_level()`, where `random` returns `randomSeed`. After 32 rounds the word is zero. -/
def randomLevel (randomSeed : UInt32) : ℕ :=
  if trailingOnes 32 randomSeed ≥ slMaxlevel then slMaxlevel - 1 else trailingOnes 32 randomSeed

/-- The first `n` rounds of the loop of `sl_list_alloc`. -/
def initHeads (h : Heap) (n : ℕ) : Option Heap :=
  (List.range n).foldlM (fun (h : Heap) (i : ℕ) ↦ h.listInit (.head i)) h

/-- `sl_list_alloc()`, with no node allocated and nothing known about the contents of the links. -/
def slListAlloc (next prev : Link → Link) : Option SlList := do
  let heap ← initHeads ⟨fun _ ↦ none, next, prev⟩ slMaxlevel
  return ⟨0, 0, heap⟩

/-- The loop of `sl_search` from level `i - 1` on, with `pos` in that level. -/
def searchFrom (h : Heap) (fuel : ℕ) (key : Key) : ℕ → Link → Option Ptr
  | 0, _ => some 0
  | i + 1, pos => do
    match ← walk h (.head i) key i fuel (← h.getNext pos) with
    | .found _ node => some node.2.val
    | .passed pos => searchFrom h fuel key i (← h.getPrev pos).pred

/-- `sl_search(list, key)` -/
def slSearch (fuel : ℕ) (list : SlList) (key : Key) : Option Ptr :=
  searchFrom list.heap fuel key (list.level + 1).toNat (.head list.level)

/-- The loop of `sl_insert` from level `i - 1` on, or nothing but the memory when it goes to
`failed`. -/
def insertFrom (fuel : ℕ) (key : Key) (new : Addr) : ℕ → Link → Heap → Option (Heap × Bool)
  | 0, _, h => some (h, true)
  | i + 1, pos, h => do
    match ← walk h (.head i) key i fuel (← h.getNext pos) with
    | .found _ _ => some (h, false)
    | .passed pos =>
      let pos ← h.getPrev pos
      insertFrom fuel key new i pos.pred (← h.listAdd (.node new i) pos)

/-- `sl_insert(list, key, val)`, with the results of `random` and of `malloc`. -/
def slInsert (fuel : ℕ) (list : SlList) (key : Key) (val : Ptr) (randomSeed : UInt32)
    (malloc : Option Addr) : Option (SlList × ℤ) :=
  let level := randomLevel randomSeed
  match malloc with
  | none => some (list, -enomem)
  | some new => do
    let listLevel := if (level : ℤ) > list.level then (level : ℤ) else list.level
    let (heap, linked) ← insertFrom fuel key new (level + 1) (.head level)
      (list.heap.slNodeAlloc new key val level)
    if linked then
      if list.size = intMax then none else some (⟨list.size + 1, listLevel, heap⟩, 0)
    else some (⟨list.size, listLevel, ← heap.free new⟩, -eexist)

/-- The inner loop of `sl_erase` that unlinks a node from level `i - 1` on. -/
def unlinkFrom : ℕ → Link → ℤ × Heap → Option (ℤ × Heap)
  | 0, _, list => some list
  | i + 1, pos, (level, h) => do
    let h ← h.listDel pos
    let first ← h.getNext (.head i)
    unlinkFrom i pos.pred (if first = .head i then level - 1 else level, h)

/-- The loop of `sl_erase` from level `i - 1` on. -/
def eraseFrom (fuel : ℕ) (list : SlList) (key : Key) : ℕ → Link → Option (SlList × ℤ)
  | 0, _ => some (list, -einval)
  | i + 1, pos => do
    let pos ← list.heap.getNext pos
    match ← walkSafe list.heap (.head i) key i fuel pos (← list.heap.getNext pos) with
    | .found pos tmp => do
      let (level, heap) ← unlinkFrom (i + 1) pos (list.level, list.heap)
      some (⟨list.size - 1, level, ← heap.free tmp.1⟩, 0)
    | .passed pos => eraseFrom fuel list key i (← list.heap.getPrev pos).pred

/-- `sl_erase(list, key)` -/
def slErase (fuel : ℕ) (list : SlList) (key : Key) : Option (SlList × ℤ) :=
  eraseFrom fuel list key (list.level + 1).toNat (.head list.level)

end ParallelPrograms.SkipList
