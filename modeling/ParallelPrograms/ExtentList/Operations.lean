import ParallelPrograms.ExtentList.Model
import ParallelPrograms.Sequence.FirstFit

/-!
# The operations on the extent skip list

`skiplist_insert`, `skiplist_lookup`, `skiplist_lookup_rcu`, `skiplist_delete` and
`skiplist_insert_hole` with the functions they are made of. A label that the code jumps to is a
function of its own. Where the code starts over, the number of further tries is given.
-/

namespace ParallelPrograms.ExtentList

open Sequence

namespace State

variable {α : Type} (s : State α)

/-! ## Adding a key to a leaf -/

/-- Which preloaded leaf `add_key_to_leaf` takes: not one of the same height as its neighbour, if
there is one of level 0. -/
def splitToken (a split : Addr) (preloadToken : ℕ) : ℕ :=
  if s.height (.leaf a) > 0 ∧ s.height (.leaf split) ≤ s.height (.leaf a) ∧ (s.preload 0).isSome then 0
  else preloadToken

/-- The part of `add_key_to_leaf` that takes a new leaf, with its lock. -/
def takeSplit (a : Addr) (preloadToken : ℕ) : Option (Addr × State α) := do
  let s := s.getCpuVar
  let token := s.splitToken a (← s.preload preloadToken) preloadToken
  let split ← s.preload token
  let s := { s with
    preload := Function.update s.preload token none
    level := if s.height (.leaf split) > s.level then s.height (.leaf split) else s.level }
  return (split, ← s.slLockNode (.leaf split))

/-- `add_key_to_leaf(list, leaf, slot_ptr, key, slot, cursor, preload_token)` -/
def addKeyToLeaf (fuel : ℕ) (a : Addr) (slotPtr : SlSlot α) (key slot : ℕ)
    (cursor : Option Cursor) (preloadToken : ℕ) : Option (State α) := do
  let leaf ← s.getLeaf a
  if leaf.nr < skipKeysPerNode then s.setLeaf a (leaf.insertSlot slotPtr key slot)
  else
    let (split, s) ← s.takeSplit a preloadToken
    let level := s.height (.leaf split)
    if slot = leaf.nr then
      let s ← s.setLeaf split (SlLeaf.startLeaf (← s.getLeaf split) slotPtr key)
      let s ← s.slLinkAfterNode fuel (.leaf split) (.leaf a) cursor level
      s.slUnlockNode (Node.leaf split)
    else
      let s ← s.setLeaf split (leaf.splitItems (← s.getLeaf split) slotPtr key slot)
      let s ← s.slLinkAfterNode fuel (.leaf split) (.leaf a) cursor level
      let half ← leaf.keepHalf
      let s ← s.setLeaf a half
      let s ← s.slUnlockNode (Node.leaf split)
      if slot ≥ skipKeysPerNode - skipKeysPerNode / 2 then some s
      else s.setLeaf a (half.insertSlot slotPtr key slot)

/-- `check_overlap(list, leaf, key, size)` -/
def checkOverlap (a : Addr) (key size : ℕ) : Option (Bool × State α) := do
  match ← s.getNext 0 (.leaf a) with
  | none => return (false, s)
  | some p =>
    let s ← s.slLockNode p
    let overlap := decide (ulong (key + size) > (← s.slMinKey (← p.slEntry)))
    return (overlap, ← s.slUnlockNode p)

/-- `find_or_add_key(list, key, size, leaf, slot_ptr, cursor, preload_token)` -/
def findOrAddKey (fuel key size : ℕ) (a : Addr) (slotPtr : SlSlot α) (cursor : Option Cursor)
    (preloadToken : ℕ) : Option (ℤ × State α) := do
  let (overlap, s) ← s.checkOverlap a key size
  if overlap then return (-eexist, s)
  else
    let leaf ← s.getLeaf a
    if key < leaf.max then
      let (ret, slot) ← leaf.leafSlotLocked key size
      if ret = 0 then return (-eexist, s)
      else return (0, ← s.addKeyToLeaf fuel a slotPtr key slot cursor preloadToken)
    else return (0, ← s.addKeyToLeaf fuel a slotPtr key leaf.nr cursor preloadToken)

/-- `alloc_leaf(slot_ptr, key, preload_token)` -/
def allocLeaf (slotPtr : SlSlot α) (key preloadToken : ℕ) : Option (Addr × State α) := do
  let s := s.getCpuVar
  let a ← s.preload preloadToken
  let s := { s with preload := Function.update s.preload preloadToken none }
  return (a, ← s.setLeaf a (SlLeaf.startLeaf (← s.getLeaf a) slotPtr key))

/-- `get_cursor()` -/
def getCursor : Cursor × State α := (fun _ ↦ none, s.getCpuVar)

/-- `pending_insert_level(preload_token)` -/
def pendingInsertLevel (preloadToken : ℕ) : Option (ℕ × State α) := do
  let leaf ← s.preload preloadToken
  return (s.height (.leaf leaf), s.getCpuVar)

/-! ## Checking a path -/

/-- `verify_key_in_leaf(leaf, key, size)` -/
def verifyKeyInLeaf (a : Addr) (key size : ℕ) : Option Bool := do
  if ← s.getDead (.leaf a) then return false
  else
    let leaf ← s.getLeaf a
    return !(decide (ulong (key + size) < leaf.keys 0) || decide (key ≥ leaf.max))

/-- How the first half of `verify_key_in_path` ends, with the lock it has taken of the previous
node and with the leaf of that node. -/
inductive PathStart (α : Type) where
  | again (s : State α)
  | out (lock1 : Option Node) (s : State α)
  | locked (lock1 : Option Node) (prev : Option Addr) (s : State α)

/-- The first half of `verify_key_in_path`, which locks `node` and the node before it. -/
def lockPath (node : Node) (level : ℕ) (cursor : Cursor) : Option (PathStart α) := do
  if node = .head then return .locked none none (← s.slLockNode node)
  else
    let p ← (← s.getPrev level node)
    let lock1 := if foundInCursor cursor skipMaxlevel p then none else some p
    let s ← if lock1.isSome then s.slLockNode p else some s
    let s ← s.slLockNode node
    if (← s.getDead p) || (← s.getDead node) then return .out lock1 s
    else if (← s.getPrev level node) ≠ some p ∨ (← s.getNext level p) ≠ some node then
      let s ← s.slUnlockNode lock1
      return .again (← s.slUnlockNode node)
    else return .locked lock1 p.slEntry s

/-- The label `out` of `verify_key_in_path`. -/
def leavePath (node : Node) (lock1 lock3 : Option Node) : Option (Option Node × State α) := do
  let s ← s.slUnlockNode lock1
  let s ← s.slUnlockNode node
  return (none, ← s.slUnlockNode lock3)

/-- The second half of `verify_key_in_path`, which compares the key with the leaves around. -/
def checkPath (node : Node) (key level : ℕ) (lock1 : Option Node) (prev : Option Addr) :
    Option (Option Node × State α) := do
  let below ← match prev with
    | none => some false
    | some prev => do some (decide (key < (← s.slMaxKey prev)))
  if below then s.leavePath node lock1 none
  else
    let s ← s.slUnlockNode lock1
    match ← s.getNext level node with
    | none => return (some node, s)
    | some next =>
      let s ← s.slLockNode next
      if (← s.getNext level node) ≠ some next ∨ (← s.getPrev level next) ≠ some node ∨
          (← s.getDead next) ∨ key ≥ (← s.slMinKey (← next.slEntry)) then
        s.leavePath node none next
      else return (some node, ← s.slUnlockNode next)

/-- `verify_key_in_path(list, node, key, size, level, cursor, &locked)`, with the value of `locked`.
The result is 1 if there is one. -/
def verifyKeyInPath (node : Node) (key level : ℕ) (cursor : Cursor) :
    ℕ → State α → Option (Option Node × State α)
  | 0, _ => none
  | rounds + 1, s => do
    match ← s.lockPath node level cursor with
    | .again s => verifyKeyInPath node key level cursor rounds s
    | .out lock1 s => s.leavePath node lock1 none
    | .locked lock1 prev s => s.checkPath node key level lock1 prev

/-! ## Inserting -/

/-- Where `skiplist_insert` goes from its loops. -/
inductive InsertEnd (α : Type) where
  /-- `goto again` -/
  | again (s : State α) (cursor : Cursor) (pendingLevel : ℕ)
  /-- `goto find_or_add` -/
  | findOrAdd (s : State α) (cursor : Cursor) (p : Node) (level : ℕ) (insLocked : Option Node)
  /-- The end of the inner loop, or of the outer one. -/
  | down (s : State α) (cursor : Cursor) (p : Node)

/-- The test of `skiplist_insert` whether the leaf it has locked is not the one behind `p` any
more. -/
def movedAway (fuel : ℕ) (p : Node) (a : Addr) (level : ℕ) : Option Bool := do
  if ← s.getDead (.leaf a) then return true
  else if (← s.findLiveNext p level fuel) ≠ some (.leaf a) then return true
  else return decide ((← s.findLivePrev fuel (.leaf a) level) ≠ some p)

/-- The inner loop of `skiplist_insert`. -/
def insertWalk (fuel key pendingLevel level : ℕ) :
    ℕ → State α → Cursor → Node → Option (InsertEnd α)
  | 0, _, _, _ => none
  | rounds + 1, s, cursor, p => do
    match ← s.slNextLeaf fuel p level with
    | none =>
      if p = .head ∨ level ≠ 0 then return .down s cursor p
      else return .findOrAdd s cursor p level none
    | some a =>
      let s ← if level ≤ pendingLevel then s.slLockNode (.leaf a) else some s
      let moved ← if level ≤ pendingLevel then s.movedAway fuel p a level else some false
      if moved then
        let s ← s.slUnlockNode (Node.leaf a)
        let s ← s.releasePassed cursor pendingLevel p
        let (cursor, s) ← s.freeCursorLocks cursor pendingLevel
        return .again s cursor pendingLevel
      else
        let minKey ← s.slMinKey a
        let maxKey ← s.slMaxKey a
        if key ≥ maxKey then
          let s ← if level ≤ pendingLevel then s.releasePassed cursor pendingLevel p else some s
          insertWalk fuel key pendingLevel level rounds s cursor (.leaf a)
        else if key < minKey then
          let stale ← if level > pendingLevel then
              (s.findLivePrev fuel (.leaf a) level).map fun prev ↦ decide (prev ≠ some p)
            else some false
          if stale then return .again s cursor pendingLevel
          else if level ≠ 0 then
            let s ← if level ≤ pendingLevel then s.slUnlockNode (Node.leaf a) else some s
            return .down s cursor p
          else
            let s ← if level ≤ pendingLevel then s.releasePassed cursor pendingLevel p else some s
            return .findOrAdd s cursor (.leaf a) level none
        else if level > pendingLevel then
          let s ← s.slLockNode (.leaf a)
          if key < (← s.slMinKey a) ∨ key ≥ (← s.slMaxKey a) then
            return .again (← s.slUnlockNode (Node.leaf a)) cursor level
          else return .findOrAdd s cursor (.leaf a) level (some (.leaf a))
        else
          return .findOrAdd (← s.releasePassed cursor pendingLevel p) cursor (.leaf a) level none

/-- The outer loop of `skiplist_insert` from level `i - 1` down. -/
def insertLevels (fuel key pendingLevel : ℕ) :
    ℕ → State α → Cursor → Node → Option (InsertEnd α)
  | 0, s, cursor, p => some (.down s cursor p)
  | i + 1, s, cursor, p => do
    match ← insertWalk fuel key pendingLevel i fuel s cursor p with
    | .down s cursor p =>
      let (cursor, s) ←
        if i ≤ pendingLevel then s.addLockedToCursor cursor i p else some (cursor, s)
      if i = pendingLevel + 1 then
        match ← verifyKeyInPath p key i cursor fuel s with
        | (none, s) => return .again s cursor (pendingLevel + 1)
        | (some locked, s) =>
          insertLevels fuel key pendingLevel i s (Function.update cursor pendingLevel (some locked)) p
      else insertLevels fuel key pendingLevel i s cursor p
    | result => return result

/-- The loop of `skiplist_insert` over the empty levels of the list, with the level it ends at. -/
def skipEmpty (pendingLevel : ℕ) : ℕ → State α → Cursor → Option (ℕ × State α × Cursor)
  | 0, s, cursor => some (0, s, cursor)
  | level + 1, s, cursor => do
    match ← s.getNext (level + 1) .head with
    | some _ => return (level + 1, s, cursor)
    | none =>
      let (cursor, s) ←
        if level ≤ pendingLevel then s.addToCursor cursor level .head else some (cursor, s)
      skipEmpty pendingLevel level s cursor

/-- `skiplist_insert` from the label `again` to the end of the outer loop. -/
def insertSearch (fuel key pendingLevel : ℕ) (cursor : Cursor) : Option (InsertEnd α) := do
  let level := s.level
  let (cursor, s) ←
    if level ≤ pendingLevel then do
      let (cursor, s) ←
        if level ≠ pendingLevel then s.addToCursor cursor pendingLevel .head else some (cursor, s)
      s.addToCursor cursor level .head
    else some (cursor, s)
  let (level, s, cursor) ← skipEmpty pendingLevel level s cursor
  insertLevels fuel key pendingLevel (level + 1) s cursor .head

/-- How an attempt of `skiplist_insert` ends. -/
inductive Attempt (α : Type) where
  | again (s : State α) (cursor : Cursor) (pendingLevel : ℕ)
  | done (ret : ℤ) (s : State α)

/-- `skiplist_insert` behind its outer loop, where the list is empty. -/
def insertFirst (fuel : ℕ) (slotPtr : SlSlot α) (preloadToken pendingLevel : ℕ) (cursor : Cursor) :
    Option (Attempt α) := do
  let (filled, cursor, s) ←
    if cursor 0 = none then do
      let (cursor, s) ← s.addToCursor cursor 0 .head
      some ((← s.getNext 0 .head).isSome, cursor, s)
    else some (false, cursor, s)
  if filled then
    let (cursor, s) ← s.freeCursorLocks cursor pendingLevel
    return .again s cursor pendingLevel
  else
    let (a, s) ← s.allocLeaf slotPtr slotPtr.key preloadToken
    let level := s.height (.leaf a)
    let (cursor, s) :=
      if level > s.level then
        (Function.update cursor (s.level + 1) (some .head), { s with level := s.level + 1 })
      else (cursor, s)
    let s ← s.slLinkNode fuel (.leaf a) cursor level
    let (_, s) ← s.freeCursorLocks cursor s.level
    return .done 0 s

/-- `skiplist_insert` from the label `find_or_add` on. -/
def insertFound (fuel : ℕ) (slotPtr : SlSlot α) (preloadToken pendingLevel : ℕ) (cursor : Cursor)
    (p : Node) (level : ℕ) (insLocked : Option Node) : Option (Attempt α) := do
  let a ← p.slEntry
  let (verified, insLocked, s) ←
    if insLocked = none then
      if level > pendingLevel then do
        let (locked, s) ← verifyKeyInPath p slotPtr.key 0 cursor fuel s
        some (locked.isSome, locked, s)
      else if foundInCursor cursor pendingLevel p then some (true, none, s)
      else some (true, some p, s)
    else some (true, insLocked, s)
  if verified then
    let (ret, s) ← s.findOrAddKey fuel slotPtr.key slotPtr.size a slotPtr (some cursor) preloadToken
    let (_, s) ← s.freeCursorLocks cursor pendingLevel
    return .done ret (← s.slUnlockNode insLocked)
  else
    let (cursor, s) ← s.freeCursorLocks cursor pendingLevel
    return .again s cursor (pendingLevel + 1)

/-- `skiplist_insert` from the label `again` on. -/
def insertAgain (fuel : ℕ) (slotPtr : SlSlot α) (preloadToken : ℕ) :
    ℕ → State α → Cursor → ℕ → Option (ℤ × State α)
  | 0, _, _, _ => none
  | rounds + 1, s, cursor, pendingLevel => do
    let pendingLevel := min pendingLevel skipMaxlevel
    let attempt ← match ← s.insertSearch fuel slotPtr.key pendingLevel cursor with
      | .again s cursor pendingLevel => some (.again s cursor pendingLevel)
      | .findOrAdd s cursor p level insLocked =>
        s.insertFound fuel slotPtr preloadToken pendingLevel cursor p level insLocked
      | .down s cursor _ => s.insertFirst fuel slotPtr preloadToken pendingLevel cursor
    match attempt with
    | .again s cursor pendingLevel => insertAgain fuel slotPtr preloadToken rounds s cursor pendingLevel
    | .done ret s => return (ret, s)

/-- The test of `skiplist_insert` whether the key goes into the last leaf. -/
def goesToLast (a : Addr) (key pendingLevel : ℕ) : Option Bool := do
  let leaf ← s.getLeaf a
  return decide (leaf.keys 0 ≤ key) &&
    (decide (pendingLevel = 0) || decide (leaf.nr < skipKeysPerNode))

/-- The first part of `skiplist_insert`, which locks the last leaf when the key goes there. -/
def lockLast (key pendingLevel : ℕ) : Option (Option Addr × State α) := do
  match ← s.slLastLeaf with
  | none => return (none, s)
  | some a =>
    if ← s.goesToLast a key pendingLevel then
      let s ← s.slLockNode (.leaf a)
      if !(← s.getDead (.leaf a)) && (← s.goesToLast a key pendingLevel) &&
          decide ((← s.slLastLeaf) = some a) && decide ((← s.getNext 0 (.leaf a)) = none) then
        return (some a, s)
      else return (none, ← s.slUnlockNode (Node.leaf a))
    else return (none, s)

/-- `skiplist_insert(list, slot, preload_token)` -/
def skiplistInsert (fuel : ℕ) (slotPtr : SlSlot α) (preloadToken : ℕ) : Option (ℤ × State α) := do
  let (pendingLevel, s) ← s.pendingInsertLevel preloadToken
  let (cursor, s) := s.getCursor
  match ← s.lockLast slotPtr.key pendingLevel with
  | (some a, s) =>
    match ← s.insertFound fuel slotPtr preloadToken pendingLevel cursor (.leaf a) 0
        (some (.leaf a)) with
    | .again s cursor pendingLevel => insertAgain fuel slotPtr preloadToken fuel s cursor pendingLevel
    | .done ret s => return (ret, s)
  | (none, s) => insertAgain fuel slotPtr preloadToken fuel s cursor pendingLevel

/-! ## Looking up -/

/-- Where `skiplist_lookup_leaf` goes from its loops. -/
inductive LookupEnd where
  /-- `goto again` -/
  | again
  /-- `goto done`, with a leaf. -/
  | done (p : Node) (leaf : Addr)
  /-- The end of the inner loop, or of the outer one. -/
  | down (p : Node)

/-- The inner loop of `skiplist_lookup_leaf`. -/
def lookupWalk (fuel key level : ℕ) : ℕ → Node → Option LookupEnd
  | 0, _ => none
  | rounds + 1, p => do
    match ← s.slNextLeaf fuel p level with
    | none => return .down p
    | some a =>
      if key ≥ (← s.slMaxKey a) then lookupWalk fuel key level rounds (.leaf a)
      else if key < (← s.slMinKey a) then
        if (← s.findLivePrev fuel (.leaf a) level) ≠ some p ∨ (← s.getDead p) ∨
            (← s.getDead (.leaf a)) then return .again
        else return .down p
      else return .done p a

/-- The outer loop of `skiplist_lookup_leaf` from level `i - 1` down. -/
def lookupLevels (fuel key : ℕ) : ℕ → Node → Option LookupEnd
  | 0, p => some (.down p)
  | i + 1, p => do
    match ← s.lookupWalk fuel key i fuel p with
    | .down p => lookupLevels fuel key i p
    | result => return result

/-- `skiplist_lookup_leaf(list, &last, key, size)`, with the value of `last` -/
def skiplistLookupLeaf (fuel key : ℕ) : ℕ → Option (Option Addr × Node)
  | 0 => none
  | rounds + 1 => do
    match ← s.lookupLevels fuel key (s.level + 1) .head with
    | .again => skiplistLookupLeaf fuel key rounds
    | .done p leaf => return (some leaf, p)
    | .down p => return (none, p)

/-- `skiplist_lookup_rcu(list, key, size)` -/
def skiplistLookupRcu (fuel key size : ℕ) : ℕ → Option (Option (SlSlot α))
  | 0 => none
  | rounds + 1 => do
    match ← s.skiplistLookupLeaf fuel key fuel with
    | (none, _) => return none
    | (some a, _) =>
      let leaf ← s.getLeaf a
      let (ret, slot) ← leaf.leafSlot key size
      if ret = 0 then return leaf.ptrs slot
      else if ← s.verifyKeyInLeaf a key size then return none
      else skiplistLookupRcu fuel key size rounds

/-- `skiplist_lookup(list, key, size)` -/
def skiplistLookup (fuel key size : ℕ) : ℕ → State α → Option (Option (SlSlot α) × State α)
  | 0, _ => none
  | rounds + 1, s => do
    match ← s.skiplistLookupLeaf fuel key fuel with
    | (none, _) => return (none, s)
    | (some a, _) =>
      let s ← s.slLockNode (.leaf a)
      if ← s.verifyKeyInLeaf a key size then
        let leaf ← s.getLeaf a
        let (ret, slot) ← leaf.leafSlotLocked key size
        return (if ret = 0 then leaf.ptrs slot else none, ← s.slUnlockNode (Node.leaf a))
      else skiplistLookup fuel key size rounds (← s.slUnlockNode (Node.leaf a))

/-! ## Inserting into a hole -/

/-- `align_start(val, align)` -/
def alignStart (val align : ℕ) : ℕ :=
  ((BitVec.ofNat 64 val + BitVec.ofNat 64 align - 1) &&& ~~~(BitVec.ofNat 64 align - 1)).toNat

/-- How `skiplist_insert_hole` gets from the label `again_lock` to its walk. -/
inductive HintEnd (α : Type) where
  /-- `goto again` -/
  | again (s : State α)
  | locked (s : State α) (p : Node) (lastEnd : ℕ)

/-- `skiplist_insert_hole` from the label `again_lock` to its walk. -/
def lockHint (hint align : ℕ) : ℕ → State α → ℕ → Node → Option (HintEnd α)
  | 0, _, _, _ => none
  | rounds + 1, s, lastEnd, p => do
    let s ← s.slLockNode p
    if ← s.getDead p then return .again (← s.slUnlockNode p)
    else
      match p with
      | .head => return .locked s .head lastEnd
      | .leaf a =>
        let maxKey ← s.slMaxKey a
        if maxKey > hint then
          let prev ← (← s.getPrev 0 (.leaf a))
          lockHint hint align rounds (← s.slUnlockNode (Node.leaf a)) lastEnd prev
        else return .locked s (.leaf a) (alignStart maxKey align)

/-- `skiplist_insert_hole` from the label `again` to its walk, with the node it has locked and the
value of `last_end`. -/
def findHint (fuel hint size align : ℕ) : ℕ → State α → ℕ → Option (State α × Node × ℕ)
  | 0, _, _ => none
  | rounds + 1, s, lastEnd => do
    let lastEnd := alignStart (max lastEnd hint) align
    let (leaf, p) ← s.skiplistLookupLeaf fuel hint fuel
    let verified ← match leaf with
      | none => some true
      | some a => s.verifyKeyInLeaf a hint size
    if verified then
      match ← lockHint hint align fuel s lastEnd p with
      | .again s => findHint fuel hint size align rounds s lastEnd
      | .locked s p lastEnd => return (s, p, lastEnd)
    else findHint fuel hint size align rounds s lastEnd

/-- The loop of `skiplist_insert_hole` over the keys of a leaf, `count` of them from `i` on. It goes
to `out_rcu` when the limit is reached, and to `try_insert` with a hole. -/
def scanHole (leaf : SlLeaf α) (limit size align : ℕ) : ℕ → ℕ → ℕ → Option Fit
  | 0, _, lastEnd => some (.next lastEnd)
  | count + 1, i, lastEnd =>
    if lastEnd > leaf.keys i then scanHole leaf limit size align count (i + 1) lastEnd
    else if leaf.keys i - lastEnd ≥ size then
      if ulong (lastEnd + size) > limit then some .full else some (.hole lastEnd)
    else do
      let found ← leaf.ptrs i
      let lastEnd := alignStart (ulong (leaf.keys i + found.size)) align
      if ulong (lastEnd + size) > limit then some .full
      else scanHole leaf limit size align count (i + 1) lastEnd

/-- The search of `skiplist_insert_hole` in a leaf, which passes a leaf that ends too early. -/
def fitLeaf (leaf : SlLeaf α) (limit size align lastEnd : ℕ) : Option Fit :=
  if lastEnd > leaf.max then some (.next lastEnd)
  else scanHole leaf limit size align leaf.nr 0 lastEnd

/-- Where the walk of `skiplist_insert_hole` ends. -/
inductive HoleEnd (α : Type) where
  /-- `out_rcu`, with the lock of `p` held. -/
  | failed (p : Node) (s : State α)
  /-- `try_insert`, with the lock of the leaf held. -/
  | found (key : ℕ) (leaf : Option Addr) (s : State α)

/-- The walk of `skiplist_insert_hole` at level 0. -/
def holeWalk (fuel limit size align : ℕ) : ℕ → State α → ℕ → Node → Option (HoleEnd α)
  | 0, _, _, _ => none
  | rounds + 1, s, lastEnd, p => do
    match ← s.slNextLeaf fuel p 0 with
    | none =>
      if ulong (lastEnd + size) ≤ limit then return .found lastEnd none (← s.slUnlockNode p)
      else return .failed p s
    | some a =>
      let s ← s.slLockNode (.leaf a)
      let leaf ← s.getLeaf a
      match ← fitLeaf leaf limit size align lastEnd with
      | .next lastEnd =>
        holeWalk fuel limit size align rounds (← s.slUnlockNode p) lastEnd (.leaf a)
      | .full => return .failed p (← s.slUnlockNode (Node.leaf a))
      | .hole lastEnd => return .found lastEnd (some a) (← s.slUnlockNode p)

/-- `skiplist_insert_hole` from the label `try_insert` to the label `out`. -/
def tryHole (fuel : ℕ) (slotPtr : SlSlot α) (preloadToken pendingLevel : ℕ) :
    Option Addr → Option (ℤ × State α)
  | none => s.skiplistInsert fuel slotPtr preloadToken
  | some a => do
    let leaf ← s.getLeaf a
    if (pendingLevel = 0 ∨ leaf.nr < skipKeysPerNode) ∧ (← s.getDead (.leaf a)) = false ∧
        slotPtr.key ≥ leaf.keys 0 ∧ ulong (slotPtr.key + slotPtr.size) ≤ leaf.max then
      let (ret, s) ← s.findOrAddKey fuel slotPtr.key slotPtr.size a slotPtr none preloadToken
      return (ret, ← s.slUnlockNode (Node.leaf a))
    else (← s.slUnlockNode (Node.leaf a)).skiplistInsert fuel slotPtr preloadToken

/-- `skiplist_insert_hole(list, hint, limit, size, align, slot, gfp_mask)`, with the results of
`prandom_u32` and of both calls of `kmem_cache_alloc`, and with the value of `*slot` at the end -/
def skiplistInsertHole (fuel : ℕ) (randseed : UInt32) (leaf leaf0 : Option Addr)
    (hint limit size align : ℕ) (slot : SlSlot α) : Option (ℤ × SlSlot α × State α) := do
  let (token, s) := s.skiplistPreload randseed leaf leaf0
  if token < 0 then return (token, slot, s)
  else
    let (pendingLevel, s) ← s.pendingInsertLevel token.toNat
    let (s, p, lastEnd) ← findHint fuel hint size align fuel s 0
    match ← holeWalk fuel limit size align fuel s lastEnd p with
    | .failed p s =>
      let slot := { slot with key := alignStart hint align, size := size }
      return (-eexist, slot, (← s.slUnlockNode p).preemptEnable)
    | .found key leaf s =>
      let slot := { slot with key := key, size := size }
      let (ret, s) ← s.tryHole fuel slot token.toNat pendingLevel leaf
      return (if ret = -eexist then -eagain else ret, slot, s.preemptEnable)

/-! ## Deleting -/

/-- `skiplist_delete(list, key, size)`, where `beyond` lies behind the arrays of the leaf. -/
def skiplistDelete (fuel key size : ℕ) (beyond : ℕ × Option (SlSlot α)) :
    ℕ → State α → Option (Option (SlSlot α) × State α)
  | 0, _ => none
  | rounds + 1, s => do
    match ← s.skiplistLookupLeaf fuel key fuel with
    | (none, _) => return (none, s)
    | (some a, _) =>
      let s ← s.slLockNode (.leaf a)
      if ← s.verifyKeyInLeaf a key size then
        let leaf ← s.getLeaf a
        let (ret, slot) ← leaf.leafSlotLocked key size
        if ret = 0 then
          let rest ← leaf.deleteSlot beyond slot
          let s ← s.setLeaf a rest
          if rest.nr = 0 then
            let s := { s with dead := Function.update s.dead (.leaf a) true }
            let s ← s.slUnlockNode (Node.leaf a)
            let s ← s.slErase fuel a
            return (leaf.ptrs slot, { s with freed := s.freed ++ [a] })
          else return (leaf.ptrs slot, ← s.slUnlockNode (Node.leaf a))
        else return (none, ← s.slUnlockNode (Node.leaf a))
      else skiplistDelete fuel key size beyond rounds (← s.slUnlockNode (Node.leaf a))

end State

end ParallelPrograms.ExtentList
