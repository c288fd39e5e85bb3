import ParallelPrograms.Concurrency.Machine
import ParallelPrograms.LinkedList.Ring
import Mathlib.Logic.Function.Basic
import Mathlib.Tactic.Simps.Basic

/-!
# The RCU list

`list_add_rcu`, `list_add_tail_rcu`, `list_del_rcu` and `list_for_each` of `rculist.h`, with every
read and write of a pointer an action of its own. Updaters and readers are arbitrary types of
threads. A reader keeps the node it stands on and the nodes whose loop body it has run.

The status of a node is what the callers keep track of: a fresh node has no user, a linked node
has all four pointer writes of its insertion behind it, and a removed node may be handed out
again only while no reader is inside a traversal.
-/

namespace ParallelPrograms.RcuList

open Concurrency LinkedList

/-- The callers' view of a node. -/
inductive Status where
  | fresh
  | inserting
  | linked
  | removed
  deriving DecidableEq, Repr

/-- Where an updater is in its call. Each constructor names the next access. -/
inductive Pc (Node : Type*) where
  | idle
  /-- `list_add_rcu(new, head)`, at the read of `head->next`. -/
  | addReadNext (new : Node)
  /-- `list_add_tail_rcu(new, head)`, at the read of `head->prev`. -/
  | addReadPrev (new : Node)
  /-- `__list_add_rcu(new, prev, next)`, at `next->prev = new`. -/
  | addNextPrev (new prev next : Node)
  /-- At `new->next = next`. -/
  | addNewNext (new prev next : Node)
  /-- At `new->prev = prev`. -/
  | addNewPrev (new prev next : Node)
  /-- At `rcu_assign_pointer(list_next_rcu(prev), new)`. -/
  | addPublish (new prev next : Node)
  /-- `list_del_rcu(node)`, at the read of `node->prev`. -/
  | delReadPrev (node : Node)
  /-- At the read of `node->next`. -/
  | delReadNext (node prev : Node)
  /-- `__list_del_rcu(prev, next)`, at `next->prev = prev`. -/
  | delNextPrev (node prev next : Node)
  /-- At `rcu_assign_pointer(list_next_rcu(prev), next)`. -/
  | delPrevNext (node prev next : Node)
  /-- `list_init_rcu(node)`, at `node->next = node`. -/
  | initNext (node : Node)
  /-- At `node->prev = node`. -/
  | initPrev (node : Node)
  deriving DecidableEq, Repr

/-- The node a call works on. -/
def Pc.node? {Node : Type*} : Pc Node → Option Node
  | idle => none
  | addReadNext n | addReadPrev n | addNextPrev n _ _ | addNewNext n _ _ | addNewPrev n _ _
  | addPublish n _ _ | delReadPrev n | delReadNext n _ | delNextPrev n _ _ | delPrevNext n _ _
  | initNext n | initPrev n => some n

/-- A run of `list_for_each`: the loop variable once the loop has started, and the nodes whose
body has been executed. -/
structure Reader (Node : Type*) where
  position : Option Node
  visited : List Node
  deriving DecidableEq, Repr

structure State (Node Uid Rid : Type*) where
  next : Node → Node
  prev : Node → Node
  status : Node → Status
  updaters : Uid → Pc Node
  readers : Rid → Reader Node

inductive Action (Node Uid Rid : Type*) where
  | callAdd (u : Uid) (new : Node)
  | callAddTail (u : Uid) (new : Node)
  | callDel (u : Uid) (node : Node)
  /-- The next pointer access of the updater's call. -/
  | step (u : Uid)
  /-- `n = head->next` -/
  | start (r : Rid)
  /-- The loop body for the current node and `n = n->next`. -/
  | advance (r : Rid)
  /-- A removed node gets ready to be used again. -/
  | recycle (node : Node)
  deriving DecidableEq, Repr

variable {Node Uid Rid : Type*}

/-- The reader is not inside its loop. -/
def Reader.Stopped (head : Node) (reader : Reader Node) : Prop :=
  ∀ pos, reader.position = some pos → pos = head

namespace State

variable [DecidableEq Node] [DecidableEq Uid] [DecidableEq Rid] (s : State Node Uid Rid)

@[simps -fullyApplied]
def setNext (node value : Node) : State Node Uid Rid :=
  { s with next := Function.update s.next node value }

@[simps -fullyApplied]
def setPrev (node value : Node) : State Node Uid Rid :=
  { s with prev := Function.update s.prev node value }

@[simps -fullyApplied]
def setStatus (node : Node) (status : Status) : State Node Uid Rid :=
  { s with status := Function.update s.status node status }

@[simps -fullyApplied]
def goto (u : Uid) (pc : Pc Node) : State Node Uid Rid :=
  { s with updaters := Function.update s.updaters u pc }

@[simps -fullyApplied]
def setReader (r : Rid) (reader : Reader Node) : State Node Uid Rid :=
  { s with readers := Function.update s.readers r reader }

end State

variable [DecidableEq Node] [DecidableEq Uid] [DecidableEq Rid]

/-- One pointer access of an updater. -/
def updaterStep (head : Node) (s : State Node Uid Rid) (u : Uid) : State Node Uid Rid :=
  match s.updaters u with
  | .idle => s
  | .addReadNext new => s.goto u (.addNextPrev new head (s.next head))
  | .addReadPrev new => s.goto u (.addNextPrev new (s.prev head) head)
  | .addNextPrev new prev next => (s.setPrev next new).goto u (.addNewNext new prev next)
  | .addNewNext new prev next => (s.setNext new next).goto u (.addNewPrev new prev next)
  | .addNewPrev new prev next => (s.setPrev new prev).goto u (.addPublish new prev next)
  | .addPublish new prev _ => ((s.setNext prev new).setStatus new .linked).goto u .idle
  | .delReadPrev node => s.goto u (.delReadNext node (s.prev node))
  | .delReadNext node prev => s.goto u (.delNextPrev node prev (s.next node))
  | .delNextPrev node prev next => (s.setPrev next prev).goto u (.delPrevNext node prev next)
  | .delPrevNext node prev next =>
    ((s.setNext prev next).setStatus node .removed).goto u (.initNext node)
  | .initNext node => (s.setNext node node).goto u (.initPrev node)
  | .initPrev node => (s.setPrev node node).goto u .idle

/-- One round of `list_for_each`. -/
def readerStep (s : State Node Uid Rid) (r : Rid) : State Node Uid Rid :=
  match (s.readers r).position with
  | none => s
  | some pos => s.setReader r ⟨some (s.next pos), (s.readers r).visited ++ [pos]⟩

def guard (head : Node) (s : State Node Uid Rid) : Action Node Uid Rid → Prop
  | .callAdd u new | .callAddTail u new =>
    s.updaters u = .idle ∧ s.status new = .fresh ∧ new ≠ head
  | .callDel u node => s.updaters u = .idle ∧ s.status node = .linked ∧ node ≠ head
  | .step u => s.updaters u ≠ .idle
  | .start r => (s.readers r).Stopped head
  | .advance r => ∃ pos, (s.readers r).position = some pos ∧ pos ≠ head
  | .recycle node => s.status node = .removed ∧ (∀ u, (s.updaters u).node? ≠ some node) ∧
    ∀ r, (s.readers r).Stopped head

def update (head : Node) (s : State Node Uid Rid) : Action Node Uid Rid → State Node Uid Rid
  | .callAdd u new => (s.setStatus new .inserting).goto u (.addReadNext new)
  | .callAddTail u new => (s.setStatus new .inserting).goto u (.addReadPrev new)
  | .callDel u node => s.goto u (.delReadPrev node)
  | .step u => updaterStep head s u
  | .start r => s.setReader r ⟨some (s.next head), []⟩
  | .advance r => readerStep s r
  | .recycle node => s.setStatus node .fresh

/-- Readers and updaters on a ring that is well formed at the start, as `list_init_rcu` and
completed insertions leave it. -/
def machine (head : Node) : Machine (State Node Uid Rid) (Action Node Uid Rid) where
  init s := (∃ nodes, Ring s.next s.prev head nodes ∧
      ∀ n, n ≠ head → (s.status n = .linked ↔ n ∈ nodes)) ∧
    (∀ u, s.updaters u = .idle) ∧ ∀ r, (s.readers r).position = none
  guard := guard head
  update := update head

/-- `list_init_rcu(head)`, before any insertion. -/
def listInitRcu (head : Node) (s : State Node Uid Rid) : State Node Uid Rid :=
  (s.setNext head head).setPrev head head

end ParallelPrograms.RcuList
