import ParallelPrograms.Concurrency.Machine
import ParallelPrograms.Concurrency.ThreadTable
import ParallelPrograms.LinkedList.Path
import Mathlib.Tactic.Simps.Basic

/-!
# Locked RCU

`rcu_read_lock`, `rcu_dereference`, `rcu_read_unlock`, `rcu_assign_pointer` and `synchronize_rcu`
of `locked-rcu/rcupdate.h`. Every load, every store, every atomic addition and every `free` is an
action of its own, so the load of `head->current` in `rcu_read_lock` and the increment of the
count of the loaded node are two actions. Only the stores to a node that has just been allocated
happen together with its allocation.

The memory is a set of live addresses with the fields of a node at every address. `malloc` returns
any address that is not live, also one that has been freed before. When it fails the program ends.
-/

namespace ParallelPrograms.LockedRcu

open Concurrency LinkedList

/-- The null pointer is `0`. -/
abbrev Addr := ℕ

/-- Where a reader is. `loaded` and `inside` keep the thread-local pointer to the node. -/
inductive ReaderPc where
  | outside
  /-- In `rcu_read_lock`, at the increment of `count`. -/
  | loaded (node : Addr)
  /-- Inside the section, with the last pointer that `rcu_dereference` has returned. -/
  | inside (node : Addr) (obtained : Option Addr)
  deriving DecidableEq, Repr

/-- Where an updater is, named after its next access. A location `current` is `none` for
`&head->node` and `some n` for `&n->next`. -/
inductive UpdaterPc where
  | idle
  /-- Has allocated `newval`. -/
  | owning (newval : Addr)
  /-- `rcu_assign_pointer(head, newval)`, at `malloc`. -/
  | allocating (newval : Addr)
  /-- At `spin_lock`. -/
  | locking (newval node : Addr)
  /-- At the load of `while (READ_ONCE(*current))`. -/
  | testing (newval node : Addr) (current : Option Addr)
  /-- At the load of `*current` in `(*current)->obj == newval`. -/
  | fetching (newval node : Addr) (current : Option Addr)
  /-- At the load of `obj` there. -/
  | comparing (newval node : Addr) (current : Option Addr) (entry : Addr)
  /-- At the load of `current = &(*current)->next`. -/
  | advancing (newval node : Addr) (current : Option Addr)
  /-- The object is already retired, at `spin_unlock`. -/
  | abandoning (node : Addr)
  /-- At `free(node)`. -/
  | discarding (node : Addr)
  /-- At the load of `WRITE_ONCE(*current, head->current)`. -/
  | reading (node : Addr) (current : Option Addr)
  /-- At the store there. -/
  | retiring (node : Addr) (current : Option Addr) (old : Addr)
  /-- At `WRITE_ONCE(head->current, node)`. -/
  | publishing (node : Addr)
  /-- `synchronize_rcu(head)`, at `spin_lock`. -/
  | waiting
  /-- At `want_free = head->node`. -/
  | starting
  /-- At the load of `while (READ_ONCE(want_free->count) != 0)`. -/
  | spinning (wantFree : Addr)
  /-- At `want_free = want_free->next`. -/
  | following (tmp : Addr)
  /-- At the load of `tmp->obj`. -/
  | taking (tmp wantFree : Addr)
  /-- At `free(tmp->obj)`. -/
  | freeingObj (tmp wantFree obj : Addr)
  /-- At `free(tmp)`. -/
  | freeingNode (tmp wantFree : Addr)
  /-- At `head->node = NULL`. -/
  | clearing
  /-- At the last `spin_unlock` of either function. -/
  | unlocking
  deriving DecidableEq, Repr

/-- `while (want_free)` -/
def UpdaterPc.visit (wantFree : Addr) : UpdaterPc :=
  if wantFree = 0 then .clearing else .spinning wantFree

structure State (Rid Uid : Type*) where
  live : Addr → Bool
  obj : Addr → Addr
  count : Addr → UInt32
  next : Addr → Addr
  /-- `head->node`, the first retired node. -/
  node : Addr
  /-- `head->current`, the published node. -/
  current : Addr
  /-- The owner of `head->sp`. -/
  sp : Option Uid
  readers : Rid → ReaderPc
  updaters : Uid → UpdaterPc

inductive Action (Rid Uid : Type*) where
  /-- `rcu_read_lock`, `*current = READ_ONCE(head->current)` -/
  | loadCurrent (r : Rid)
  /-- `atomic_fetch_add_explicit(&(*current)->count, 1, …)` -/
  | increment (r : Rid)
  /-- `rcu_dereference` -/
  | dereference (r : Rid)
  /-- `rcu_read_unlock` -/
  | decrement (r : Rid)
  /-- `newval = malloc(…)` in the updater. -/
  | newObj (u : Uid) (newval : Addr)
  | callAssign (u : Uid) (newval : Addr)
  /-- `node = malloc(…)`, and the stores to its fields. -/
  | newNode (u : Uid) (node : Addr)
  | callSynchronize (u : Uid)
  /-- `spin_lock(&head->sp)` -/
  | acquire (u : Uid)
  /-- The next access of a call that holds the lock or discards its node. -/
  | run (u : Uid)
  deriving DecidableEq, Repr

variable {Rid Uid : Type*}

/-- The node that the reader's thread-local pointer refers to during a section. -/
def ReaderPc.node? : ReaderPc → Option Addr
  | outside => none
  | loaded node | inside node _ => some node

/-- The reader has incremented the count of `node` and not yet decremented it. -/
def ReaderPc.Counted (node : Addr) : ReaderPc → Prop
  | inside n _ => n = node
  | outside | loaded _ => False

instance (node : Addr) : DecidablePred (ReaderPc.Counted node)
  | .inside n _ => inferInstanceAs (Decidable (n = node))
  | .outside | .loaded _ => isFalse id

/-- The updater is between `spin_lock` and `spin_unlock`. -/
def UpdaterPc.Holding : UpdaterPc → Prop
  | idle | owning _ | allocating _ | locking .. | discarding _ | waiting => False
  | _ => True

/-- The updater has something left to do that needs neither the lock nor an allocation. -/
def UpdaterPc.Running : UpdaterPc → Prop
  | idle | owning _ | allocating _ | locking .. | waiting => False
  | _ => True

namespace State

variable (s : State Rid Uid)

/-- The load of a location. -/
def load (location : Option Addr) : Addr := follow s.next s.node location

/-- The store to a location. -/
@[simps]
def store (location : Option Addr) (value : Addr) : State Rid Uid :=
  { s with
    node := location.elim value fun _ ↦ s.node
    next := fun n ↦ if location = some n then value else s.next n }

@[simps obj count next node current sp readers updaters]
def malloc (a : Addr) : State Rid Uid := { s with live := Function.update s.live a true }

@[simps obj count next node current sp readers updaters]
def free (a : Addr) : State Rid Uid := { s with live := Function.update s.live a false }

/-- The stores to the fields of a new node. -/
@[simps live node current sp readers updaters]
def setFields (n obj : Addr) (count : UInt32) (next : Addr) : State Rid Uid :=
  { s with
    obj := Function.update s.obj n obj
    count := Function.update s.count n count
    next := Function.update s.next n next }

@[simps live obj next node current sp readers updaters]
def setCount (n : Addr) (count : UInt32) : State Rid Uid :=
  { s with count := Function.update s.count n count }

@[simps]
def setNode (node : Addr) : State Rid Uid := { s with node }

@[simps]
def setCurrent (current : Addr) : State Rid Uid := { s with current }

@[simps]
def setSp (sp : Option Uid) : State Rid Uid := { s with sp }

section Pointwise

variable (a a' : Addr) (obj next : Addr) (count : UInt32)

theorem malloc_live : (s.malloc a).live a' = if a' = a then true else s.live a' :=
  Function.update_apply ..

theorem free_live : (s.free a).live a' = if a' = a then false else s.live a' :=
  Function.update_apply ..

theorem setFields_obj :
    (s.setFields a obj count next).obj a' = if a' = a then obj else s.obj a' :=
  Function.update_apply ..

theorem setFields_count :
    (s.setFields a obj count next).count a' = if a' = a then count else s.count a' :=
  Function.update_apply ..

theorem setFields_next :
    (s.setFields a obj count next).next a' = if a' = a then next else s.next a' :=
  Function.update_apply ..

theorem setCount_count : (s.setCount a count).count a' = if a' = a then count else s.count a' :=
  Function.update_apply ..

end Pointwise

attribute [grind =] store_live store_obj store_count store_next store_node store_current store_sp
  store_readers store_updaters malloc_live malloc_obj malloc_count malloc_next malloc_node
  malloc_current malloc_sp malloc_readers malloc_updaters free_live free_obj free_count free_next
  free_node free_current free_sp free_readers free_updaters setFields_live setFields_obj
  setFields_count setFields_next setFields_node setFields_current setFields_sp setFields_readers
  setFields_updaters setCount_live setCount_obj setCount_count setCount_next setCount_node
  setCount_current setCount_sp setCount_readers setCount_updaters setNode_live setNode_obj
  setNode_count setNode_next setNode_node setNode_current setNode_sp setNode_readers
  setNode_updaters setCurrent_live setCurrent_obj setCurrent_count setCurrent_next
  setCurrent_node setCurrent_current setCurrent_sp setCurrent_readers setCurrent_updaters
  setSp_live setSp_obj setSp_count setSp_next setSp_node setSp_current setSp_sp setSp_readers
  setSp_updaters

section Readers

variable [DecidableEq Rid]

@[simps live obj count next node current sp updaters]
def gotoReader (r : Rid) (pc : ReaderPc) : State Rid Uid :=
  { s with readers := Function.update s.readers r pc }

theorem gotoReader_readers (r r' : Rid) (pc : ReaderPc) :
    (s.gotoReader r pc).readers r' = if r' = r then pc else s.readers r' :=
  Function.update_apply ..

attribute [grind =] gotoReader_live gotoReader_obj gotoReader_count gotoReader_next
  gotoReader_node gotoReader_current gotoReader_sp gotoReader_updaters gotoReader_readers

end Readers

section Updaters

variable [DecidableEq Uid]

@[simps live obj count next node current sp readers]
def goto (u : Uid) (pc : UpdaterPc) : State Rid Uid :=
  { s with updaters := Function.update s.updaters u pc }

theorem goto_updaters (u u' : Uid) (pc : UpdaterPc) :
    (s.goto u pc).updaters u' = if u' = u then pc else s.updaters u' :=
  Function.update_apply ..

attribute [grind =] goto_live goto_obj goto_count goto_next goto_node goto_current goto_sp
  goto_readers goto_updaters

end Updaters

end State

/-! ## The interleavings -/

/-- The guards. An address can be allocated when it is neither live nor null. -/
def guard (s : State Rid Uid) : Action Rid Uid → Prop
  | .loadCurrent r => s.readers r = .outside
  | .increment r => ∃ n, s.readers r = .loaded n
  | .dereference r | .decrement r => ∃ n obtained, s.readers r = .inside n obtained
  | .newObj u newval => s.updaters u = .idle ∧ s.live newval = false ∧ newval ≠ 0
  | .callAssign u newval => s.updaters u = .owning newval
  | .newNode u node =>
    (∃ newval, s.updaters u = .allocating newval) ∧ s.live node = false ∧ node ≠ 0
  | .callSynchronize u => s.updaters u = .idle
  | .acquire u =>
    ((∃ newval node, s.updaters u = .locking newval node) ∨ s.updaters u = .waiting) ∧
      s.sp = none
  | .run u => (s.updaters u).Running

/-- The access of an updater that is `Running`. -/
def run [DecidableEq Uid] (s : State Rid Uid) (u : Uid) : State Rid Uid :=
  match s.updaters u with
  | .testing newval node current =>
    if s.load current = 0 then s.goto u (.reading node current)
    else s.goto u (.fetching newval node current)
  | .fetching newval node current => s.goto u (.comparing newval node current (s.load current))
  | .comparing newval node current entry =>
    if s.obj entry = newval then s.goto u (.abandoning node)
    else s.goto u (.advancing newval node current)
  | .advancing newval node current => s.goto u (.testing newval node (some (s.load current)))
  | .abandoning node => (s.setSp none).goto u (.discarding node)
  | .discarding node => (s.free node).goto u .idle
  | .reading node current => s.goto u (.retiring node current s.current)
  | .retiring node current old => (s.store current old).goto u (.publishing node)
  | .publishing node => (s.setCurrent node).goto u .unlocking
  | .starting => s.goto u (.visit s.node)
  | .spinning wantFree =>
    if s.count wantFree ≠ 0 then s else s.goto u (.following wantFree)
  | .following tmp => s.goto u (.taking tmp (s.next tmp))
  | .taking tmp wantFree => s.goto u (.freeingObj tmp wantFree (s.obj tmp))
  | .freeingObj tmp wantFree obj => (s.free obj).goto u (.freeingNode tmp wantFree)
  | .freeingNode tmp wantFree => (s.free tmp).goto u (.visit wantFree)
  | .clearing => (s.setNode 0).goto u .unlocking
  | .unlocking => (s.setSp none).goto u .idle
  | _ => s

variable [DecidableEq Rid] [DecidableEq Uid]

def update (s : State Rid Uid) : Action Rid Uid → State Rid Uid
  | .loadCurrent r => s.gotoReader r (.loaded s.current)
  | .increment r =>
    match s.readers r with
    | .loaded n => (s.setCount n (s.count n + 1)).gotoReader r (.inside n none)
    | _ => s
  | .dereference r =>
    match s.readers r with
    | .inside n _ => s.gotoReader r (.inside n (some (s.obj n)))
    | _ => s
  | .decrement r =>
    match s.readers r with
    | .inside n _ => (s.setCount n (s.count n - 1)).gotoReader r .outside
    | _ => s
  | .newObj u newval => (s.malloc newval).goto u (.owning newval)
  | .callAssign u newval => s.goto u (.allocating newval)
  | .newNode u node =>
    match s.updaters u with
    | .allocating newval =>
      ((s.malloc node).setFields node newval 0 0).goto u (.locking newval node)
    | _ => s
  | .callSynchronize u => s.goto u .waiting
  | .acquire u =>
    match s.updaters u with
    | .locking newval node => (s.setSp (some u)).goto u (.testing newval node none)
    | .waiting => (s.setSp (some u)).goto u .starting
    | _ => s
  | .run u => run s u

/-- What `__rcu_init` sets up from an object, with only the object and the node allocated. -/
structure Fresh (s : State Rid Uid) : Prop where
  live : ∀ a, s.live a = true ↔ a = s.current ∨ a = s.obj s.current
  distinct : s.obj s.current ≠ s.current
  current : s.current ≠ 0
  obj : s.obj s.current ≠ 0
  count : s.count s.current = 0
  next : s.next s.current = 0
  node : s.node = 0
  sp : s.sp = none
  readers : ∀ r, s.readers r = .outside
  updaters : ∀ u, s.updaters u = .idle

def machine (Rid Uid : Type*) [DecidableEq Rid] [DecidableEq Uid] :
    Machine (State Rid Uid) (Action Rid Uid) where
  init := Fresh
  guard := guard
  update := update

@[simp, grind =]
theorem machine_guard (s : State Rid Uid) (a : Action Rid Uid) :
    (machine Rid Uid).guard s a = guard s a := rfl

@[simp, grind =]
theorem machine_update (s : State Rid Uid) (a : Action Rid Uid) :
    (machine Rid Uid).update s a = update s a := rfl

/-- The number of sections open on a node, as far as they are counted. -/
def State.sections [Fintype Rid] (s : State Rid Uid) (n : Addr) : ℕ :=
  population s.readers (ReaderPc.Counted n)

end ParallelPrograms.LockedRcu
