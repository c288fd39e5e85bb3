import ParallelPrograms.SkipList.Invariant
import Mathlib.Data.Finmap

/-!
# The skip list as a finite map

The map from the stored keys to their values and drawn levels says what the operations are for.
Runs of the code and runs of the map give the same answers, and after every call the rings hold
the stored keys in order.
-/

namespace ParallelPrograms.SkipList

open LinkedList

/-- What is stored for a key: the value, and the level that was drawn for its node. -/
structure Stored where
  val : Ptr
  level : ℕ
  deriving DecidableEq, Repr

/-- The contents of a list. -/
abbrev Store := Finmap fun _ : Key ↦ Stored

inductive Call where
  /-- `sl_insert`, with the results of `random` and of `malloc`. -/
  | insert (key : Key) (val : Ptr) (randomSeed : UInt32) (malloc : Option Addr)
  | search (key : Key)
  | erase (key : Key)
  deriving DecidableEq, Repr

inductive Answer where
  | code (c : ℤ)
  | ptr (p : Ptr)
  deriving DecidableEq, Repr

/-- A call of the code. -/
def step (fuel : ℕ) (list : SlList) : Call → Option (SlList × Answer)
  | .insert key val randomSeed malloc =>
    (slInsert fuel list key val randomSeed malloc).map fun result ↦ (result.1, .code result.2)
  | .search key => (slSearch fuel list key).map fun p ↦ (list, .ptr p)
  | .erase key => (slErase fuel list key).map fun result ↦ (result.1, .code result.2)

/-- The calls one after the other, with their answers. -/
def run (fuel : ℕ) (list : SlList) : List Call → Option (SlList × List Answer)
  | [] => some (list, [])
  | call :: calls => do
    let (list, answer) ← step fuel list call
    let (list, answers) ← run fuel list calls
    some (list, answer :: answers)

namespace Store

/-- What a call does to the map. -/
def step (m : Store) : Call → Store × Answer
  | .insert key val randomSeed _ => (m.insert key ⟨val, randomLevel randomSeed⟩, .code 0)
  | .search key => (m, .ptr ((m.lookup key).elim 0 Stored.val))
  | .erase key => (m.erase key, .code (if key ∈ m then 0 else -einval))

def run (m : Store) : List Call → Store × List Answer
  | [] => (m, [])
  | call :: calls =>
    ((run (m.step call).1 calls).1, (m.step call).2 :: (run (m.step call).1 calls).2)

end Store

/-- A key is inserted only when it is not stored, fewer than `2 ^ 31` keys are stored afterwards,
and `malloc` returns an address that is not in use. -/
def Admissible (list : SlList) (m : Store) : Call → Prop
  | .insert key _ _ malloc =>
    key ∉ m ∧ m.keys.card + 1 < 2 ^ 31 ∧ ∃ a ∈ malloc, list.heap.nodes a = none
  | .search _ | .erase _ => True

/-- Every call is admissible in the state in which it is made. -/
def AdmissibleRun (fuel : ℕ) (list : SlList) (m : Store) : List Call → Prop
  | [] => True
  | call :: calls => Admissible list m call ∧
    ∀ result ∈ step fuel list call, AdmissibleRun fuel result.1 (m.step call).1 calls

instance (list : SlList) (m : Store) : DecidablePred (Admissible list m)
  | .insert key _ _ malloc => inferInstanceAs (Decidable
      (key ∉ m ∧ m.keys.card + 1 < 2 ^ 31 ∧ ∃ a ∈ malloc, list.heap.nodes a = none))
  | .search _ | .erase _ => isTrue trivial

instance (fuel : ℕ) (list : SlList) (m : Store) (calls : List Call) :
    Decidable (AdmissibleRun fuel list m calls) := by
  induction calls generalizing list m with
  | nil => exact isTrue trivial
  | cons call calls ih =>
    exact inferInstanceAs (Decidable (Admissible list m call ∧
      ∀ result ∈ step fuel list call, AdmissibleRun fuel result.1 (m.step call).1 calls))

/-- The entries are what the map stores. -/
def Agrees (m : Store) (entries : List Entry) : Prop := ∀ key val level,
  m.lookup key = some ⟨val, level⟩ ↔ ∃ a, (a, ⟨key, val, level⟩) ∈ entries

/-- The list stores the map: its nodes are `entries`, and the ring at level `i` runs through the
entries of level at least `i` by increasing keys, and backwards along `prev`. -/
structure Represents (list : SlList) (m : Store) (entries : List Entry) : Prop where
  sorted : entries.Pairwise fun e e' ↦ e.2.key < e'.2.key
  nodes : ∀ e ∈ entries, list.heap.nodes e.1 = some e.2
  stored : Agrees m entries
  rings : ∀ i < slMaxlevel, Ring list.heap.next list.heap.prev (.head i)
    ((entries.filter fun e ↦ i ≤ e.2.level).map fun e ↦ .node e.1 i)
  size : list.size = m.keys.card

namespace Agrees

variable {m : Store} {lo hi entries : List Entry} {same : Option Entry} {key : Key}

theorem mem_iff (h : Agrees m entries) : key ∈ m ↔ ∃ e ∈ entries, e.2.key = key := by
  rw [Finmap.mem_iff]
  constructor
  · intro ⟨⟨val, level⟩, hlookup⟩
    obtain ⟨a, ha⟩ := (h key val level).mp hlookup
    exact ⟨_, ha, rfl⟩
  · rintro ⟨⟨a, ⟨_, val, level⟩⟩, he, rfl⟩
    exact ⟨_, (h _ val level).mpr ⟨a, he⟩⟩

theorem card_eq (h : Agrees m entries) (hsorted : Sorted entries) :
    m.keys.card = entries.length := by
  have hkeys : m.keys = (entries.map fun e ↦ e.2.key).toFinset := by
    ext key
    simp only [Finmap.mem_keys, h.mem_iff, List.mem_toFinset, List.mem_map]
  have hnodup : (entries.map fun e ↦ e.2.key).Nodup :=
    List.pairwise_map.mpr (hsorted.imp fun hlt ↦ hlt.ne)
  rw [hkeys, List.toFinset_card_of_nodup hnodup, List.length_map]

theorem lookup_eq (h : Agrees m (lo ++ (same.toList ++ hi))) (hcut : Cut key lo same hi) :
    m.lookup key = same.map fun e ↦ ⟨e.2.val, e.2.level⟩ := by
  cases same with
  | none =>
    rw [Option.map_none, Finmap.lookup_eq_none, h.mem_iff]
    rintro ⟨e, he, hkey⟩
    exact hcut.key_ne he hkey
  | some e =>
    obtain ⟨a, ⟨key', val, level⟩⟩ := e
    obtain rfl : key' = key := hcut.same _ rfl
    exact (h _ val level).mpr ⟨a, by simp⟩

theorem insert (h : Agrees m (lo ++ hi)) (hcut : Cut key lo none hi) (a : Addr) (val : Ptr)
    (level : ℕ) :
    Agrees (m.insert key ⟨val, level⟩) (lo ++ (a, ⟨key, val, level⟩) :: hi) := by
  intro key' val' level'
  have hlo := hcut.lo
  have hhi := hcut.hi
  by_cases hkey : key' = key
  · subst hkey
    rw [Finmap.lookup_insert]
    grind
  · rw [Finmap.lookup_insert_of_ne _ hkey, h key' val' level']
    grind

theorem erase (h : Agrees m (lo ++ (same.toList ++ hi))) (hcut : Cut key lo same hi) :
    Agrees (m.erase key) (lo ++ hi) := by
  intro key' val' level'
  have hlo := hcut.lo
  have hhi := hcut.hi
  by_cases hkey : key' = key
  · subst hkey
    rw [Finmap.lookup_erase]
    grind
  · rw [Finmap.lookup_erase_ne hkey, h key' val' level']
    apply exists_congr
    intro a
    have := hcut.same (a, ⟨key', val', level'⟩)
    simp only [List.mem_append, Option.mem_toList]
    tauto

end Agrees

/-! ## One call -/

section Step

variable {list : SlList} {m : Store} {entries : List Entry} {fuel : ℕ} {call : Call}

theorem Linked.represents (h : Linked list entries) (hm : Agrees m entries) :
    Represents list m entries where
  sorted := h.sorted
  nodes := h.stores
  stored := hm
  rings := h.rings
  size := by rw [h.size, hm.card_eq h.sorted]

/-- A call of the code answers as the map does and stores the new map. -/
theorem step_refines (h : Linked list entries) (hm : Agrees m entries)
    (hfuel : entries.length < fuel) (hcall : Admissible list m call) :
    ∃ list' entries', step fuel list call = some (list', (m.step call).2) ∧
      Linked list' entries' ∧ Agrees (m.step call).1 entries' ∧
      entries'.length ≤ entries.length + 1 := by
  cases call with
  | insert key val randomSeed malloc =>
    obtain ⟨hkey, hsize, a, rfl, ha⟩ := hcall
    obtain ⟨lo, same, hi, rfl, hcut, hlo⟩ := h.sorted.exists_cut_lt key hfuel
    obtain rfl : same = none := by
      have hlookup := hm.lookup_eq hcut
      rw [Finmap.lookup_eq_none.mpr hkey] at hlookup
      simpa using hlookup.symm
    have hlist : list.size < intMax := by
      have := hm.card_eq h.sorted
      rw [h.size, intMax]
      omega
    rw [Option.toList_none, List.nil_append] at h hm
    obtain ⟨list', hinsert, hlinked⟩ := h.slInsert_eq hcut hlo val randomSeed ha hlist
    refine ⟨list', _, ?_, hlinked, hm.insert hcut a val _, by simp; omega⟩
    simp [step, hinsert, Store.step]
  | search key =>
    obtain ⟨lo, same, hi, rfl, hcut, hlo⟩ := h.sorted.exists_cut_lt key hfuel
    refine ⟨list, _, ?_, h, hm, by omega⟩
    rw [step, h.slSearch_eq hcut hlo, Store.step, hm.lookup_eq hcut]
    cases same <;> rfl
  | erase key =>
    obtain ⟨lo, same, hi, rfl, hcut, hlo⟩ := h.sorted.exists_cut_lt key hfuel
    have herase := hm.erase hcut
    have hlookup := hm.lookup_eq hcut
    cases same with
    | none =>
      have hkey : key ∉ m := Finmap.lookup_eq_none.mp hlookup
      refine ⟨list, lo ++ hi, ?_, h, herase, by simp⟩
      rw [Option.toList_none, List.nil_append] at h
      simp [step, h.slErase_none hcut hlo, Store.step, hkey]
    | some e =>
      have hkey : key ∈ m := Finmap.mem_iff.mpr ⟨_, hlookup⟩
      obtain ⟨list', hrun, hlinked⟩ := h.slErase_some hcut hlo
      refine ⟨list', lo ++ hi, ?_, hlinked, herase, by simp; omega⟩
      simp [step, hrun, Store.step, hkey]

end Step

/-! ## Runs -/

section Runs

variable {list : SlList} {m : Store} {entries : List Entry} {fuel : ℕ} {calls before : List Call}

theorem AdmissibleRun.truncate (h : AdmissibleRun fuel list m calls) (hbefore : before <+: calls) :
    AdmissibleRun fuel list m before := by
  obtain ⟨after, rfl⟩ := hbefore
  induction before generalizing list m with
  | nil => trivial
  | cons call before ih =>
    obtain ⟨hcall, hcalls⟩ := h
    exact ⟨hcall, fun result hresult ↦ ih (hcalls result hresult)⟩

theorem run_refines (h : Linked list entries) (hm : Agrees m entries)
    (hfuel : entries.length + calls.length < fuel) (hcalls : AdmissibleRun fuel list m calls) :
    ∃ list' entries', run fuel list calls = some (list', (m.run calls).2) ∧
      Represents list' (m.run calls).1 entries' := by
  induction calls generalizing list m entries with
  | nil => exact ⟨list, entries, rfl, h.represents hm⟩
  | cons call calls ih =>
    obtain ⟨hcall, hrest⟩ := hcalls
    rw [List.length_cons] at hfuel
    have hfuel' : entries.length < fuel := by omega
    obtain ⟨list', entries', hstep, hlinked, hagrees, hlength⟩ := step_refines h hm hfuel' hcall
    obtain ⟨list'', entries'', hrun, hrepresents⟩ :=
      ih hlinked hagrees (by omega) (hrest _ hstep)
    exact ⟨list'', entries'', by simp [run, hstep, hrun, Store.run], hrepresents⟩

/-- **The skip list is a finite map.** Every admissible run from `sl_list_alloc` ends, answers
every call as the map does, and after each of its calls the list represents the map, when the
inner loops may take more rounds than there are calls. -/
theorem skipList_refines_map {next prev : Link → Link} (halloc : slListAlloc next prev = some list)
    (hfuel : calls.length < fuel) (hcalls : AdmissibleRun fuel list ∅ calls)
    (hbefore : before <+: calls) :
    ∃ list' entries, run fuel list before = some (list', ((∅ : Store).run before).2) ∧
      Represents list' ((∅ : Store).run before).1 entries := by
  have hlinked := linked_of_slListAlloc halloc
  refine run_refines hlinked (fun key val level ↦ by simp) ?_ (hcalls.truncate hbefore)
  have := hbefore.length_le
  simpa using this.trans_lt hfuel

/-- What `sl_list_alloc` returns when every link points to itself already. -/
def emptyList : SlList := (slListAlloc id id).getD ⟨0, 0, ⟨fun _ ↦ none, id, id⟩⟩

/-- The key 5 gets the levels 0 to 2, the key 3 only level 0. -/
def twoKeys : List Call :=
  [.insert 5 50 3 (some 1), .insert 3 30 0 (some 2), .search 5, .erase 5, .search 5, .erase 5]

theorem skipList_refines_map_twoKeys :
    ∃ list entries, run 7 emptyList twoKeys =
        some (list, [.code 0, .code 0, .ptr 50, .code 0, .ptr 0, .code (-22)]) ∧
      Represents list ((∅ : Store).run twoKeys).1 entries := by
  have halloc : slListAlloc id id = some emptyList := rfl
  have hcalls : AdmissibleRun 7 emptyList ∅ twoKeys := by decide +kernel
  exact skipList_refines_map halloc (by decide) hcalls List.prefix_rfl

end Runs

end ParallelPrograms.SkipList
