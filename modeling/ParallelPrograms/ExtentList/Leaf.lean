import ParallelPrograms.Sequence.Bisection
import Mathlib.Algebra.Group.Nat.Defs
import Mathlib.Data.Option.Basic
import Mathlib.Logic.Function.Basic
import Mathlib.Tactic.Simps.Basic

/-!
# The leaves of the extent skip list

`skiplist/ref/skiplist.c` indexes extents, which are ranges of `unsigned long` keys. A leaf keeps
up to 32 of them in two parallel arrays, one with their keys and one with pointers to their slots.
This module has the functions that search and change the arrays of one leaf. A function has no
result where the code follows a null pointer, or where it would wait for another thread.
-/

namespace ParallelPrograms.ExtentList

open Sequence

/-- `unsigned long`: a sum that does not fit wraps around. -/
def ulong (n : ℕ) : ℕ := n % 2 ^ 64

/-- `SKIP_KEYS_PER_NODE` -/
abbrev skipKeysPerNode : ℕ := 32

/-- `struct sl_slot` with the structure `entry` around it, which `sl_slot_entry` gets back. -/
@[ext]
structure SlSlot (α : Type) where
  key : ℕ
  size : ℕ
  entry : α
  deriving DecidableEq, Repr

/-- `struct sl_leaf` without its node. Behind the arrays lies other memory. -/
structure SlLeaf (α : Type) where
  nr : ℕ
  max : ℕ
  keys : ℕ → ℕ
  ptrs : ℕ → Option (SlSlot α)

namespace SlLeaf

variable {α : Type} (leaf : SlLeaf α)

/-- `leaf->keys[i] = key; leaf->ptrs[i] = ptr` -/
@[simps -fullyApplied]
def put (i key : ℕ) (ptr : Option (SlSlot α)) : SlLeaf α :=
  { leaf with keys := Function.update leaf.keys i key, ptrs := Function.update leaf.ptrs i ptr }

@[simps -fullyApplied]
def setNr (nr : ℕ) : SlLeaf α := { leaf with nr := nr }

@[simps -fullyApplied]
def setMax (max : ℕ) : SlLeaf α := { leaf with max := max }

/-! ## Searching -/

/-- On which side of the range a key of the leaf lies. -/
def side (key size mid : ℕ) : Ordering :=
  if leaf.keys mid < key then .lt else if leaf.keys mid ≥ ulong (key + size) then .gt else .eq

/-- `leaf_slot_locked(leaf, key, size, &slot)`, with the value of `slot` -/
def leafSlotLocked (key size : ℕ) : Option (ℕ × ℕ) :=
  match bisect (leaf.side key size) 0 ((leaf.nr : ℤ) - 1) with
  | .inl mid => some (0, mid)
  | .inr low =>
    if low > 0 ∧ leaf.keys (low - 1) < ulong (key + size) then do
      let k1 := leaf.keys (low - 1)
      let found ← leaf.ptrs (low - 1)
      if ulong (k1 + found.size) > key then some (0, low - 1)
      else if k1 ≥ key then some (0, low - 1)
      else some (1, low)
    else some (1, low)

/-- The first loop of `leaf_slot`, which ends at a key that is not below `bound`. -/
def scan (bound : ℕ) : ℕ → ℕ → ℕ → ℕ
  | 0, _, cur => cur
  | count + 1, i, cur => if leaf.keys i ≥ bound then cur else scan bound count (i + 1) i

/-- `leaf_slot(leaf, key, size, &slot)` while no other thread changes the leaf. It waits for ever
when the pointer is null, and starts over for ever when the key is not the one of the slot. -/
def leafSlot (key size : ℕ) : Option (ℕ × ℕ) :=
  let cur := leaf.scan (ulong (key + size)) leaf.nr 0 0
  if leaf.keys cur < ulong (key + size) then do
    let found ← leaf.ptrs cur
    if found.key ≠ leaf.keys cur then none
    else if found.key < ulong (key + size) ∧ ulong (found.key + found.size) > key then some (0, cur)
    else if found.key < ulong (key + size) ∧ found.key ≥ key then some (0, cur)
    else some (1, cur + 1)
  else some (1, cur)

/-! ## Inserting -/

/-- The loop of `add_key_to_leaf` that moves the slots behind position `slot`, from `i` on. -/
def shiftUp (slot : ℕ) : ℕ → SlLeaf α → SlLeaf α
  | 0, leaf => leaf
  | i + 1, leaf =>
    if i + 1 > slot then shiftUp slot i (leaf.put (i + 1) (leaf.keys i) (leaf.ptrs i)) else leaf

/-- `add_key_to_leaf` from the label `insert` on. -/
def insertSlot (slotPtr : SlSlot α) (key slot : ℕ) : SlLeaf α :=
  if slot < leaf.nr then
    let leaf := leaf.put leaf.nr 0 none
    let leaf := leaf.setNr (leaf.nr + 1)
    (shiftUp slot (leaf.nr - 1) leaf).put slot key (some slotPtr)
  else
    let leaf := leaf.setMax (ulong (key + slotPtr.size))
    let leaf := leaf.put slot key (some slotPtr)
    leaf.setNr (leaf.nr + 1)

/-- The loops of `add_key_to_leaf` that copy `count` slots of `leaf` to `split`. -/
def copyItems : ℕ → ℕ → ℕ → SlLeaf α → SlLeaf α
  | 0, _, _, split => split
  | count + 1, src, dst, split =>
    copyItems count (src + 1) (dst + 1) (split.put dst (leaf.keys src) (leaf.ptrs src))

/-- What `add_key_to_leaf` writes to the new leaf when the slot goes behind a full one. -/
def startLeaf (split : SlLeaf α) (slotPtr : SlSlot α) (key : ℕ) : SlLeaf α :=
  ((split.setNr 1).setMax (ulong (key + slotPtr.size))).put 0 key (some slotPtr)

/-- What `add_key_to_leaf` writes to the new leaf when it splits a full one. -/
def splitItems (split : SlLeaf α) (slotPtr : SlSlot α) (key slot : ℕ) : SlLeaf α :=
  let nr := skipKeysPerNode / 2
  let mid := skipKeysPerNode - nr
  let split := (split.setNr nr).setMax leaf.max
  let split := leaf.copyItems (slot - mid) mid 0 split
  let src := mid + (slot - mid)
  if slot ≥ mid then
    let split := split.put (slot - mid) key (some slotPtr)
    leaf.copyItems (leaf.nr - src) src (slot - mid + 1) (split.setNr (split.nr + 1))
  else leaf.copyItems (leaf.nr - src) src (slot - mid) split

/-- What `add_key_to_leaf` leaves in the old leaf when it splits a full one. -/
def keepHalf : Option (SlLeaf α) := do
  let nr := skipKeysPerNode - skipKeysPerNode / 2
  let last ← leaf.ptrs (nr - 1)
  return (leaf.setMax (ulong (leaf.keys (nr - 1) + last.size))).setNr nr

/-! ## Deleting -/

/-- What is read at index `i` of the arrays, where `beyond` lies behind their last elements. -/
def read (beyond : ℕ × Option (SlSlot α)) (i : ℕ) : ℕ × Option (SlSlot α) :=
  if i < skipKeysPerNode then (leaf.keys i, leaf.ptrs i) else beyond

/-- The loop of `delete_slot` for `count` positions from `i` on. -/
def shiftDown (beyond : ℕ × Option (SlSlot α)) : ℕ → ℕ → SlLeaf α → SlLeaf α
  | 0, _, leaf => leaf
  | count + 1, i, leaf =>
    let next := leaf.read beyond (i + 1)
    shiftDown beyond count (i + 1) (leaf.put i next.1 next.2)

/-- `delete_slot(leaf, slot)` -/
def deleteSlot (beyond : ℕ × Option (SlSlot α)) (slot : ℕ) : Option (SlLeaf α) :=
  if slot ≠ leaf.nr - 1 then
    let leaf := shiftDown beyond (leaf.nr - slot) slot leaf
    some (leaf.setNr (leaf.nr - 1))
  else if leaf.nr > 1 then do
    let last ← leaf.ptrs (leaf.nr - 2)
    let leaf := leaf.setMax (ulong (leaf.keys (leaf.nr - 2) + last.size))
    some (leaf.setNr (leaf.nr - 1))
  else some (leaf.setNr (leaf.nr - 1))

end SlLeaf

end ParallelPrograms.ExtentList
