import ParallelPrograms.ExtentList.Operations

/-!
# Calls of the extent skip list

What a caller can do with the list, one call after the other, and what it has to keep to. A caller
inserts an extent the way `insert_one_skiplist` of the benchmark does: it allocates a slot, calls
`skiplist_preload` and `skiplist_insert`, and enables preemption.
-/

namespace ParallelPrograms.ExtentList

variable {α : Type}

/-- What `prandom_u32` and both calls of `kmem_cache_alloc` in `skiplist_preload` return. -/
structure Alloc where
  randseed : UInt32
  leaf : Option Addr
  leaf0 : Option Addr
  deriving DecidableEq, Repr

/-- What is allocated is not in use. -/
structure Alloc.Fresh (alloc : Alloc) (s : State α) : Prop where
  leaf : ∀ a, alloc.leaf = some a → s.allocated a = false
  leaf0 : ∀ b, alloc.leaf0 = some b → s.allocated b = false ∧ alloc.leaf ≠ some b

/-- `insert_one_skiplist(skiplist, key, size)`, where `kmem_cache_alloc(slot_cache)` returns `slot`. A
slot that is not inserted is given back at once. -/
def State.insertOneSkiplist (s : State α) (fuel key size : ℕ) (slot : Option α) (alloc : Alloc) :
    Option (ℤ × State α) :=
  match slot with
  | none => some (-enomem, s)
  | some entry => do
    let (preloadToken, s) := s.skiplistPreload alloc.randseed alloc.leaf alloc.leaf0
    if preloadToken < 0 then return (preloadToken, s)
    else
      let (ret, s) ← s.skiplistInsert fuel ⟨key, size, entry⟩ preloadToken.toNat
      return (ret, s.preemptEnable)

inductive Call (α : Type) where
  /-- `insert_one_skiplist` -/
  | insert (key size : ℕ) (slot : Option α) (alloc : Alloc)
  /-- `skiplist_insert_hole` -/
  | insertHole (hint limit size align : ℕ) (slot : SlSlot α) (alloc : Alloc)
  /-- `skiplist_lookup` -/
  | lookup (key size : ℕ)
  /-- `skiplist_lookup_rcu` -/
  | lookupRcu (key size : ℕ)
  /-- `skiplist_delete`, with what lies behind the arrays of the leaf. -/
  | delete (key size : ℕ) (beyond : ℕ × Option (SlSlot α))
  /-- The end of a grace period after `sl_free_leaf`. -/
  | slFreeRcu (a : Addr)

inductive Answer (α : Type) where
  | code (ret : ℤ)
  | hole (ret : ℤ) (slot : SlSlot α)
  | slot (slot : Option (SlSlot α))
  | done
  deriving DecidableEq, Repr

/-- A call of the code. -/
def step (fuel : ℕ) (s : State α) : Call α → Option (State α × Answer α)
  | .insert key size slot alloc => do
    let (ret, s) ← s.insertOneSkiplist fuel key size slot alloc
    return (s, .code ret)
  | .insertHole hint limit size align slot alloc => do
    let (ret, slot, s) ← s.skiplistInsertHole fuel alloc.randseed alloc.leaf alloc.leaf0 hint limit
      size align slot
    return (s, .hole ret slot)
  | .lookup key size => do
    let (slot, s) ← s.skiplistLookup fuel key size fuel
    return (s, .slot slot)
  | .lookupRcu key size => do return (s, .slot (← s.skiplistLookupRcu fuel key size fuel))
  | .delete key size beyond => do
    let (slot, s) ← s.skiplistDelete fuel key size beyond fuel
    return (s, .slot slot)
  | .slFreeRcu a => do return (← s.slFreeRcu a, .done)

/-- What the callers keep to: ranges are not empty and end at `top` or before, positions do not wrap
around, an alignment is a power of two, what is allocated is not in use, and only a leaf that has been
given to `call_rcu` is freed. -/
def Admissible (top : ℕ) (s : State α) : Call α → Prop
  | .insert key size _ alloc => 0 < size ∧ key + size ≤ top ∧ alloc.Fresh s
  | .insertHole hint limit size align _ alloc => 0 < size ∧ limit ≤ top ∧ (∃ i < 64, align = 2 ^ i) ∧
      hint + align + size ≤ 2 ^ 64 ∧ top + align + size ≤ 2 ^ 64 ∧ alloc.Fresh s
  | .lookup key size => 0 < size ∧ key + size < 2 ^ 64
  | .lookupRcu key size => 0 < size ∧ key + size < 2 ^ 64
  | .delete key size _ => 0 < size ∧ key + size < 2 ^ 64
  | .slFreeRcu a => a ∈ s.freed

instance (alloc : Alloc) (s : State α) : Decidable (alloc.Fresh s) :=
  decidable_of_iff ((∀ a ∈ alloc.leaf, s.allocated a = false) ∧
      ∀ b ∈ alloc.leaf0, s.allocated b = false ∧ alloc.leaf ≠ some b)
    ⟨fun h ↦ ⟨h.1, h.2⟩, fun h ↦ ⟨h.leaf, h.leaf0⟩⟩

instance (top : ℕ) (s : State α) : DecidablePred (Admissible top s)
  | .insert key size _ alloc =>
    inferInstanceAs (Decidable (0 < size ∧ key + size ≤ top ∧ alloc.Fresh s))
  | .insertHole hint limit size align _ alloc =>
    inferInstanceAs (Decidable (0 < size ∧ limit ≤ top ∧ (∃ i < 64, align = 2 ^ i) ∧
      hint + align + size ≤ 2 ^ 64 ∧ top + align + size ≤ 2 ^ 64 ∧ alloc.Fresh s))
  | .lookup key size | .lookupRcu key size | .delete key size _ =>
    inferInstanceAs (Decidable (0 < size ∧ key + size < 2 ^ 64))
  | .slFreeRcu a => inferInstanceAs (Decidable (a ∈ s.freed))

/-- The call comes to `skiplist_preload`. -/
def Call.preloads : Call α → Bool
  | .insert _ _ slot _ => slot.isSome
  | .insertHole .. => true
  | .lookup .. | .lookupRcu .. | .delete .. | .slFreeRcu _ => false

end ParallelPrograms.ExtentList
