import ParallelPrograms.Concurrency.Machine
import Mathlib.Logic.Function.Basic
import Mathlib.Tactic.Simps.Basic
import Mathlib.Data.Int.Notation

/-!
# Thread-based RCU

`rcu_read_lock`, `rcu_read_unlock` and `synchronize_rcu` of `thrd_rcu.h`, with every access of
`rcu_thrd_nesting_idx` and of a nesting slot an action of its own. The macro `rcu_thrd_nesting`
reads the index and then selects the slot of its parity, so the lock and the unlock of a section
are two actions each, and so is every round of the waiting loop of `synchronize_rcu`.

The registered threads are the list from `rcu_data.head`, in the order in which the scan visits
them. Readers only lock and unlock after `rcu_init`, hence they are in this list.
-/

namespace ParallelPrograms.ThreadRcu

open Concurrency

/-- Where a reader is. `locking` and `unlocking` keep the index that the macro has read. -/
inductive ReaderPc where
  | outside
  | locking (idx : UInt32)
  | inside
  | unlocking (idx : UInt32)
  deriving DecidableEq, Repr

/-- Where an updater is in `synchronize_rcu`. -/
inductive UpdaterPc (Rid : Type*) where
  | idle
  /-- At `spin_lock(&rcu_data.sp)`. -/
  | waiting
  /-- At the read of the index for the first node of `nodes`. With no node left the loop is done
  and the next access is `__atomic_fetch_add(&__rcu_thrd_idx, 1)`. -/
  | scanning (nodes : List Rid)
  /-- At the read of the nesting slot of `node`. -/
  | testing (idx : UInt32) (node : Rid) (nodes : List Rid)
  /-- At `spin_unlock(&rcu_data.sp)`. -/
  | releasing
  deriving DecidableEq, Repr

theorem and_one_lt (idx : UInt32) : (idx &&& 0x01).toNat < 2 := by
  rw [UInt32.toNat_and]
  exact Nat.lt_succ_of_le Nat.and_le_right

/-- The slot that an index selects: `idx & 0x01`. -/
def slot (idx : UInt32) : Fin 2 := ⟨(idx &&& 0x01).toNat, and_one_lt idx⟩

@[ext]
structure State (Rid Uid : Type*) where
  /-- `rcu_data.rcu_thrd_nesting_idx` -/
  idx : UInt32
  /-- `rcu_nesting[2]` of each node. -/
  nesting : Rid → Fin 2 → ℤ
  /-- The owner of `rcu_data.sp`. -/
  sp : Option Uid
  readers : Rid → ReaderPc
  updaters : Uid → UpdaterPc Rid

inductive Action (Rid Uid : Type*) where
  /-- `rcu_read_lock`, the read of the index. -/
  | lockRead (r : Rid)
  /-- `WRITE_ONCE(rcu_thrd_nesting, 1)` -/
  | lockWrite (r : Rid)
  /-- `rcu_read_unlock`, the read of the index. -/
  | unlockRead (r : Rid)
  /-- `WRITE_ONCE(rcu_thrd_nesting, 0)` -/
  | unlockWrite (r : Rid)
  /-- `synchronize_rcu` is called. -/
  | call (u : Uid)
  | acquire (u : Uid)
  | readIdx (u : Uid)
  | readSlot (u : Uid)
  /-- `__atomic_fetch_add(&__rcu_thrd_idx, 1)` -/
  | flip (u : Uid)
  /-- `spin_unlock` and the return. -/
  | release (u : Uid)
  deriving DecidableEq, Repr

variable {Rid Uid : Type*}

/-- The reader has completed `rcu_read_lock` and not yet completed `rcu_read_unlock`. -/
def ReaderPc.Open : ReaderPc → Prop
  | inside | unlocking _ => True
  | outside | locking _ => False

instance : DecidablePred ReaderPc.Open
  | .inside | .unlocking _ => isTrue trivial
  | .outside | .locking _ => isFalse id

/-- The updater is between `spin_lock` and `spin_unlock`. -/
def UpdaterPc.Holding : UpdaterPc Rid → Prop
  | scanning _ | testing .. | releasing => True
  | idle | waiting => False

namespace State

variable (s : State Rid Uid)

@[simps]
def setIdx (idx : UInt32) : State Rid Uid := { s with idx }

@[simps]
def setSp (sp : Option Uid) : State Rid Uid := { s with sp }

attribute [grind =] setIdx_idx setIdx_nesting setIdx_sp setIdx_readers setIdx_updaters setSp_idx
  setSp_nesting setSp_sp setSp_readers setSp_updaters

section Readers

variable [DecidableEq Rid]

@[simps idx sp readers updaters]
def setNesting (r : Rid) (i : Fin 2) (value : ℤ) : State Rid Uid :=
  { s with nesting := Function.update s.nesting r (Function.update (s.nesting r) i value) }

@[grind =]
theorem setNesting_nesting (r r' : Rid) (i i' : Fin 2) (value : ℤ) :
    (s.setNesting r i value).nesting r' i' =
      if r' = r ∧ i' = i then value else s.nesting r' i' := by
  simp only [setNesting, Function.update_apply]
  grind [Function.update_apply]

@[simps idx nesting sp updaters]
def gotoReader (r : Rid) (pc : ReaderPc) : State Rid Uid :=
  { s with readers := Function.update s.readers r pc }

@[grind =]
theorem gotoReader_readers (r r' : Rid) (pc : ReaderPc) :
    (s.gotoReader r pc).readers r' = if r' = r then pc else s.readers r' :=
  Function.update_apply ..

attribute [grind =] setNesting_idx setNesting_sp setNesting_readers setNesting_updaters
  gotoReader_idx gotoReader_nesting gotoReader_sp gotoReader_updaters

end Readers

section Updaters

variable [DecidableEq Uid]

@[simps idx nesting sp readers]
def gotoUpdater (u : Uid) (pc : UpdaterPc Rid) : State Rid Uid :=
  { s with updaters := Function.update s.updaters u pc }

@[grind =]
theorem gotoUpdater_updaters (u u' : Uid) (pc : UpdaterPc Rid) :
    (s.gotoUpdater u pc).updaters u' = if u' = u then pc else s.updaters u' :=
  Function.update_apply ..

attribute [grind =] gotoUpdater_idx gotoUpdater_nesting gotoUpdater_sp gotoUpdater_readers

end Updaters

end State

variable [DecidableEq Rid] [DecidableEq Uid]

/-- The guards. `synchronize_rcu` scans the list `nodes` of the registered threads. -/
def guard (nodes : List Rid) (s : State Rid Uid) : Action Rid Uid → Prop
  | .lockRead r => r ∈ nodes ∧ s.readers r = .outside
  | .lockWrite r => ∃ idx, s.readers r = .locking idx
  | .unlockRead r => s.readers r = .inside
  | .unlockWrite r => ∃ idx, s.readers r = .unlocking idx
  | .call u => s.updaters u = .idle
  | .acquire u => s.updaters u = .waiting ∧ s.sp = none
  | .readIdx u => ∃ node rest, s.updaters u = .scanning (node :: rest)
  | .readSlot u => ∃ idx node rest, s.updaters u = .testing idx node rest
  | .flip u => s.updaters u = .scanning []
  | .release u => s.updaters u = .releasing

def update (nodes : List Rid) (s : State Rid Uid) : Action Rid Uid → State Rid Uid
  | .lockRead r => s.gotoReader r (.locking s.idx)
  | .lockWrite r =>
    match s.readers r with
    | .locking idx => (s.setNesting r (slot idx) 1).gotoReader r .inside
    | _ => s
  | .unlockRead r => s.gotoReader r (.unlocking s.idx)
  | .unlockWrite r =>
    match s.readers r with
    | .unlocking idx => (s.setNesting r (slot idx) 0).gotoReader r .outside
    | _ => s
  | .call u => s.gotoUpdater u .waiting
  | .acquire u => (s.gotoUpdater u (.scanning nodes)).setSp (some u)
  | .readIdx u =>
    match s.updaters u with
    | .scanning (node :: rest) => s.gotoUpdater u (.testing s.idx node rest)
    | _ => s
  | .readSlot u =>
    match s.updaters u with
    | .testing idx node rest =>
      -- `while (READ_ONCE(__rcu_thrd_nesting(node)) & 0x1)`
      if s.nesting node (slot idx) % 2 = 1 then s.gotoUpdater u (.scanning (node :: rest))
      else s.gotoUpdater u (.scanning rest)
    | _ => s
  | .flip u => (s.gotoUpdater u .releasing).setIdx (s.idx + 1)
  | .release u => (s.gotoUpdater u .idle).setSp none

/-- `rcu_data` after `rcu_init` of all readers, before the first section. -/
def initial (Rid Uid : Type*) : State Rid Uid where
  idx := 0
  nesting _ _ := 0
  sp := none
  readers _ := .outside
  updaters _ := .idle

def machine (Rid Uid : Type*) [DecidableEq Rid] [DecidableEq Uid] (nodes : List Rid) :
    Machine (State Rid Uid) (Action Rid Uid) where
  init s := s = initial Rid Uid
  guard := guard nodes
  update := update nodes

@[simp, grind =]
theorem machine_guard (nodes : List Rid) (s : State Rid Uid) (a : Action Rid Uid) :
    (machine Rid Uid nodes).guard s a = guard nodes s a := rfl

@[simp, grind =]
theorem machine_update (nodes : List Rid) (s : State Rid Uid) (a : Action Rid Uid) :
    (machine Rid Uid nodes).update s a = update nodes s a := rfl

end ParallelPrograms.ThreadRcu
