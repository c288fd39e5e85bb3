import ParallelPrograms.ExtentList.Leaf
import Mathlib.Algebra.Group.Int.Defs
import Mathlib.Data.Int.Notation

/-!
# The extent skip list

The nodes, locks, links and cursors of `skiplist/ref/skiplist.c`, as one thread on one processor
runs the code. A node is the head of the list or the node of a leaf, and it has links for the levels
up to its own. Every access checks that the node is allocated and has a link for the level, so a
function has no result where the code would follow a null pointer, touch a leaf that has been given
back, or index a link that does not exist. It has none either where the thread would wait for a lock
that it holds itself or release one that it does not hold, where a `BUG_ON` or an assertion fails,
or where a loop does not end within the given number of rounds. As no other thread runs, a word that
is read twice in a row is the same both times.

The preemption counter goes up with `preempt_disable` and with `get_cpu_var`, which disables
preemption too, and down with `preempt_enable`.
-/

namespace ParallelPrograms.ExtentList

/-- The address of a leaf. -/
abbrev Addr := ℕ

/-- `struct sl_node *`: `list->head`, or the node inside a leaf. -/
inductive Node where
  | head
  | leaf (a : Addr)
  deriving DecidableEq, Repr

/-- `sl_entry(node)`, which makes no sense for the head. -/
def Node.slEntry : Node → Option Addr
  | head => none
  | leaf a => some a

/-- `SKIP_MAXLEVEL` -/
abbrev skipMaxlevel : ℕ := 32

/-- The error numbers of `errno.h`. -/
def enomem : ℤ := 12

def eexist : ℤ := 17

def eagain : ℤ := 11

/-- `struct sl_node **cursor` -/
abbrev Cursor := ℕ → Option Node

/-- `struct sl_list`, the memory of its nodes, and the preload area of the processor. -/
structure State (α : Type) where
  /-- `list->level` -/
  level : ℕ
  allocated : Addr → Bool
  leaves : Addr → SlLeaf α
  /-- `node->level` -/
  height : Node → ℕ
  dead : Node → Bool
  locked : Node → Bool
  /-- `node->ptrs[level].next` -/
  next : ℕ → Node → Option Node
  /-- `node->ptrs[level].prev` -/
  prev : ℕ → Node → Option Node
  /-- `skip_preloads.preload` -/
  preload : ℕ → Option Addr
  /-- What has been given to `call_rcu`. -/
  freed : List Addr
  preempt : ℤ

namespace State

variable {α : Type} (s : State α)

/-! ## Memory and locks -/

/-- The node can be accessed. -/
def present : Node → Bool
  | .head => true
  | .leaf a => s.allocated a

/-- The node has a link at the level. -/
def valid (node : Node) (level : ℕ) : Bool := s.present node && decide (level ≤ s.height node)

/-- `node->ptrs[level].next` -/
def getNext (level : ℕ) (node : Node) : Option (Option Node) :=
  if s.valid node level then some (s.next level node) else none

/-- `node->ptrs[level].prev` -/
def getPrev (level : ℕ) (node : Node) : Option (Option Node) :=
  if s.valid node level then some (s.prev level node) else none

/-- `rcu_assign_pointer(node->ptrs[level].next, value)` -/
def setNext (level : ℕ) (node : Node) (value : Option Node) : Option (State α) :=
  if s.valid node level then
    some { s with next := Function.update s.next level (Function.update (s.next level) node value) }
  else none

/-- `rcu_assign_pointer(node->ptrs[level].prev, value)` -/
def setPrev (level : ℕ) (node : Node) (value : Option Node) : Option (State α) :=
  if s.valid node level then
    some { s with prev := Function.update s.prev level (Function.update (s.prev level) node value) }
  else none

/-- `node->dead` -/
def getDead (node : Node) : Option Bool := if s.present node then some (s.dead node) else none

/-- The leaf at an address. -/
def getLeaf (a : Addr) : Option (SlLeaf α) := if s.allocated a then some (s.leaves a) else none

def setLeaf (a : Addr) (leaf : SlLeaf α) : Option (State α) :=
  if s.allocated a then some { s with leaves := Function.update s.leaves a leaf } else none

/-- `sl_max_key(leaf)` -/
def slMaxKey (a : Addr) : Option ℕ := (s.getLeaf a).map fun leaf ↦ leaf.max

/-- `sl_min_key(leaf)` -/
def slMinKey (a : Addr) : Option ℕ := (s.getLeaf a).map fun leaf ↦ leaf.keys 0

/-- `sl_lock_node(n)` -/
def slLockNode (n : Node) : Option (State α) :=
  if s.present n && !s.locked n then some { s with locked := Function.update s.locked n true }
  else none

/-- `sl_unlock_node(n)` -/
def slUnlockNode : Option Node → Option (State α)
  | none => some s
  | some n =>
    if s.present n && s.locked n then some { s with locked := Function.update s.locked n false }
    else none

/-- `get_cpu_var(skip_preloads)`, and `preempt_disable()` -/
def getCpuVar : State α := { s with preempt := s.preempt + 1 }

/-- `preempt_enable()` -/
def preemptEnable : State α := { s with preempt := s.preempt - 1 }

/-! ## Live neighbours -/

/-- The loop of `find_live_prev`. -/
def livePrev (level : ℕ) : ℕ → Node → Option Node
  | 0, _ => none
  | fuel + 1, node => do
    let prev ← (← s.getPrev level node)
    if ← s.getDead prev then livePrev level fuel prev else some prev

/-- `find_live_prev(list, node, level)` -/
def findLivePrev (fuel : ℕ) (node : Node) (level : ℕ) : Option (Option Node) :=
  if node = .head then some none else (s.livePrev level fuel node).map some

/-- `find_live_next(list, node, level)` -/
def findLiveNext (node : Node) (level : ℕ) : ℕ → Option (Option Node)
  | 0 => none
  | fuel + 1 => do
    match ← s.getNext level node with
    | none => some none
    | some next => if ← s.getDead next then findLiveNext next level fuel else some (some next)

/-- `sl_next_leaf(list, p, l)` -/
def slNextLeaf (fuel : ℕ) (p : Node) (l : ℕ) : Option (Option Addr) := do
  match ← s.findLiveNext p l fuel with
  | none => some none
  | some next => next.slEntry.map some

/-- `sl_last_leaf(list)` -/
def slLastLeaf : Option (Option Addr) := do
  match ← s.getPrev 0 .head with
  | none => some none
  | some p => p.slEntry.map some

/-! ## Linking -/

/-- The four stores of `sl_link_one_level`. -/
def linkBetween (prev node : Node) (next : Option Node) (level : ℕ) : Option (State α) := do
  let s ← s.setNext level node next
  let s ← s.setPrev level node (some prev)
  let s ← s.setNext level prev (some node)
  s.setPrev level (next.getD .head) (some node)

/-- `sl_link_one_level(list, prev, node, level)` -/
def slLinkOneLevel (fuel : ℕ) (prev node : Node) (level : ℕ) : ℕ → State α → Option (State α)
  | 0, _ => none
  | rounds + 1, s => do
    guard (s.locked prev)
    guard ((← s.getDead prev) = false)
    match ← s.findLiveNext prev level fuel with
    | none => s.linkBetween prev node none level
    | some next => do
      let s ← s.slLockNode next
      let test ← s.findLiveNext prev level fuel
      if test ≠ some next ∨ (← s.getDead next) then
        slLinkOneLevel fuel prev node level rounds (← s.slUnlockNode next)
      else if (← s.findLivePrev fuel next level) ≠ some prev then
        slLinkOneLevel fuel prev node level rounds (← s.slUnlockNode next)
      else (← s.linkBetween prev node (some next) level).slUnlockNode next

/-- Link the levels from `level` on, `count` of them, each behind the node that `prev` gives. -/
def linkLevels (fuel : ℕ) (node : Node) (prev : ℕ → Option Node) :
    ℕ → ℕ → State α → Option (State α)
  | 0, _, s => some s
  | count + 1, level, s => do
    linkLevels fuel node prev count (level + 1)
      (← slLinkOneLevel fuel (← prev level) node level fuel s)

/-- `sl_link_node(list, node, cursor, level)` -/
def slLinkNode (fuel : ℕ) (node : Node) (cursor : Cursor) (level : ℕ) : Option (State α) :=
  linkLevels fuel node cursor (level + 1) 0 s

/-- `sl_link_after_node(list, node, after, cursor, level)`: the pointers of `after` come first, and
the cursor gives the rest. The cursor may be null when it is not used. -/
def slLinkAfterNode (fuel : ℕ) (node after : Node) (cursor : Option Cursor) (level : ℕ) :
    Option (State α) :=
  linkLevels fuel node
    (fun i ↦ if i ≤ s.height after then some after else cursor.bind fun cursor ↦ cursor i)
    (level + 1) 0 s

/-! ## Unlinking -/

/-- The stores of `erase_one_level`. -/
def unlinkBetween (prev : Node) (next : Option Node) (level : ℕ) : Option (State α) := do
  let s ← s.setNext level prev next
  match next with
  | some next => s.setPrev level next (some prev)
  | none => s.setPrev level .head (if prev ≠ .head then some prev else none)

/-- How a try of `erase_one_level` to find the next node ends. -/
inductive Neighbour (α : Type) where
  | again (s : State α)
  | found (next : Option Node) (s : State α)

/-- `erase_one_level` from the label `again_next` on, with the locks of `prev` and `node` held. -/
def lockLiveNext (fuel : ℕ) (prev node : Node) (level : ℕ) : ℕ → State α → Option (Neighbour α)
  | 0, _ => none
  | rounds + 1, s => do
    match ← s.findLiveNext prev level fuel with
    | some next => do
      let s ← s.slLockNode next
      let test ← s.findLiveNext prev level fuel
      if test ≠ some next ∨ (← s.getDead next) then
        lockLiveNext fuel prev node level rounds (← s.slUnlockNode next)
      else
        let testPrev ← s.findLivePrev fuel next level
        let testNext ← s.findLiveNext prev level fuel
        if testPrev ≠ some prev ∨ testNext ≠ some next then
          let s ← s.slUnlockNode prev
          let s ← s.slUnlockNode node
          return .again (← s.slUnlockNode next)
        else return .found (some next) s
    | none =>
      let testNext ← s.findLiveNext prev level fuel
      if testNext ≠ none then
        let s ← s.slUnlockNode prev
        return .again (← s.slUnlockNode node)
      else return .found none s

/-- `erase_one_level(list, node, level)` -/
def eraseOneLevel (fuel : ℕ) (node : Node) (level : ℕ) : ℕ → State α → Option (State α)
  | 0, _ => none
  | rounds + 1, s => do
    let prev ← (← s.findLivePrev fuel node level)
    let s ← s.slLockNode prev
    let s ← s.slLockNode node
    let testPrev ← s.findLivePrev fuel node level
    if testPrev ≠ some prev ∨ (← s.getDead prev) then
      let s ← s.slUnlockNode prev
      eraseOneLevel fuel node level rounds (← s.slUnlockNode node)
    else
      match ← lockLiveNext fuel prev node level fuel s with
      | .again s => eraseOneLevel fuel node level rounds s
      | .found next s =>
        let s ← s.unlinkBetween prev next level
        let s ← s.slUnlockNode prev
        let s ← s.slUnlockNode node
        s.slUnlockNode next

/-- The loop of `sl_erase` from level `i - 1` down. -/
def eraseLevels (fuel : ℕ) (node : Node) : ℕ → State α → Option (State α)
  | 0, s => some s
  | i + 1, s => do eraseLevels fuel node i (← eraseOneLevel fuel node i fuel s)

/-- `sl_erase(list, leaf)` -/
def slErase (fuel : ℕ) (a : Addr) : Option (State α) :=
  eraseLevels fuel (.leaf a) (s.height (.leaf a) + 1) s

/-! ## Cursors -/

/-- `found_in_cursor(cursor, max_level, p)` -/
def foundInCursor (cursor : Cursor) (maxLevel : ℕ) (p : Node) : Bool :=
  (List.range (maxLevel + 1)).any fun i ↦ cursor i == some p

/-- `add_to_cursor(cursor, level, p)` -/
def addToCursor (cursor : Cursor) (level : ℕ) (p : Node) : Option (Cursor × State α) :=
  let old := cursor level
  let cursor := Function.update cursor level (some p)
  if old = some p then some (cursor, s)
  else if level = skipMaxlevel then do
    let s ← s.slLockNode p
    return (cursor, ← s.slUnlockNode old)
  else do
    let higher := cursor (level + 1)
    let s ← if higher ≠ some p then s.slLockNode p else some s
    let s ← if higher ≠ old then s.slUnlockNode old else some s
    return (cursor, s)

/-- `add_locked_to_cursor(cursor, level, p)` -/
def addLockedToCursor (cursor : Cursor) (level : ℕ) (p : Node) : Option (Cursor × State α) :=
  let old := cursor level
  let cursor := Function.update cursor level (some p)
  if old = some p then some (cursor, s)
  else if level = skipMaxlevel then do return (cursor, ← s.slUnlockNode old)
  else if cursor (level + 1) ≠ old then do return (cursor, ← s.slUnlockNode old)
  else some (cursor, s)

/-- The loop of `free_cursor_locks` from level `i - 1` down. -/
def freeCursorFrom : ℕ → Cursor → State α → Option (Cursor × State α)
  | 0, cursor, s => some (cursor, s)
  | i + 1, cursor, s => do
    let p := cursor i
    let cursor := Function.update cursor i none
    let s ← if i = 0 ∨ cursor (i - 1) ≠ p then s.slUnlockNode p else some s
    freeCursorFrom i cursor s

/-- `free_cursor_locks(cursor, max_level)` -/
def freeCursorLocks (cursor : Cursor) (maxLevel : ℕ) : Option (Cursor × State α) :=
  freeCursorFrom (maxLevel + 1) cursor s

/-- Release `p` unless it has to stay locked because it is in the cursor. -/
def releasePassed (cursor : Cursor) (maxLevel : ℕ) (p : Node) : Option (State α) :=
  if foundInCursor cursor maxLevel p then some s else s.slUnlockNode p

/-! ## Allocating leaves -/

/-- `kmem_cache_alloc(slab_caches[level], gfp_mask)` and `sl_init_node(&leaf->node, level)` -/
def slInitNode (a : Addr) (level : ℕ) : State α :=
  { s with
    allocated := Function.update s.allocated a true
    height := Function.update s.height (.leaf a) level
    dead := Function.update s.dead (.leaf a) false
    locked := Function.update s.locked (.leaf a) false
    prev := Function.update s.prev level (Function.update (s.prev level) (.leaf a) none) }

/-- The loop of `skiplist_get_new_level`. -/
def newLevelFrom (maxLevel : ℕ) : ℕ → UInt32 → ℕ → ℕ
  | 0, _, level => level
  | fuel + 1, randseed, level =>
    if randseed ≠ 0 ∧ randseed &&& 1 ≠ 0 then
      if level + 1 = maxLevel then level + 1
      else newLevelFrom maxLevel fuel (randseed >>> 1) (level + 1)
    else level

/-- `skiplist_get_new_level(list, max_level)`, where `prandom_u32` returns `randseed`. After 32
rounds the word is zero. -/
def skiplistGetNewLevel (randseed : UInt32) (maxLevel : ℕ) : ℕ :=
  let level := newLevelFrom maxLevel 32 randseed 0
  if level ≥ skipMaxlevel then skipMaxlevel - 1 else level

/-- `skiplist_preload` keeps the leaf of level 0 when there is no other one. -/
def stockLeaf0 : Option Addr → State α
  | none => s
  | some a =>
    if s.preload 0 = none then
      { s.slInitNode a 0 with preload := Function.update s.preload 0 (some a) }
    else s

/-- `skiplist_preload` behind both allocations. -/
def stockPreload (token level : ℕ) (leaf : Addr) (leaf0 : Option Addr) : State α :=
  let s := s.getCpuVar.getCpuVar.stockLeaf0 leaf0
  if (s.preload token).isSome then s
  else { s.slInitNode leaf level with preload := Function.update s.preload token (some leaf) }

/-- `skiplist_preload(list, gfp_mask)`, with the results of `prandom_u32` and of both calls of
`kmem_cache_alloc`. A leaf that is not needed is given back at once. -/
def skiplistPreload (randseed : UInt32) (leaf leaf0 : Option Addr) : ℤ × State α :=
  let maxLevel := min (s.level + 1) (skipMaxlevel - 1)
  let s := s.getCpuVar.getCpuVar
  if (s.preload maxLevel).isSome then (maxLevel, s)
  else
    let s := s.preemptEnable
    match leaf with
    | none => (-enomem, s)
    | some leaf => (maxLevel, s.stockPreload maxLevel (skiplistGetNewLevel randseed maxLevel) leaf leaf0)

/-- `sl_free_rcu(head)`, at the end of the grace period after `sl_free_leaf(leaf)` -/
def slFreeRcu (a : Addr) : Option (State α) :=
  if a ∈ s.freed ∧ s.allocated a then
    some { s with allocated := Function.update s.allocated a false, freed := s.freed.erase a }
  else none

/-- `sl_init_list(list, mask)`, where `kmalloc` succeeds. -/
def slInitList : State α :=
  { s with
    level := 0
    height := Function.update s.height .head skipMaxlevel
    dead := Function.update s.dead .head false
    locked := Function.update s.locked .head false
    next := fun level ↦
      if level < skipMaxlevel then Function.update (s.next level) .head none else s.next level
    prev := fun level ↦
      if level ≤ skipMaxlevel then Function.update (s.prev level) .head none else s.prev level }

end State

end ParallelPrograms.ExtentList
