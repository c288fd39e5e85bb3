import ParallelPrograms.SkipList.Duplicate
import ParallelPrograms.SkipList.FiniteMap

/-!
# Runs of successful insertions and erasures

The states that calls of `sl_insert` and `sl_erase` reach when all of them return 0. A result of a
call does not depend on the number of rounds its inner loops may take, so the invariant of the
skip list describes every call that returns.
-/

namespace ParallelPrograms.SkipList

open LinkedList

/-! ## More rounds -/

/-- Every result of the first is one of the second. -/
def Extends {α : Type*} (result result' : Option α) : Prop := ∀ x ∈ result, x ∈ result'

section Extends

variable {α β : Type*} {result result' : Option α}

theorem Extends.refl (result : Option α) : Extends result result := fun _ h ↦ h

theorem Extends.of_none : Extends none result := nofun

theorem Extends.bind {next next' : α → Option β} (h : Extends result result')
    (hnext : ∀ x, Extends (next x) (next' x)) :
    Extends (result.bind next) (result'.bind next') := by
  intro y hy
  obtain ⟨x, hx, hy⟩ := Option.mem_bind_iff.mp hy
  exact Option.mem_bind_iff.mpr ⟨x, h x hx, hnext x y hy⟩

theorem Extends.map (f : α → β) (h : Extends result result') :
    Extends (result.map f) (result'.map f) := by
  rw [Option.map_eq_bind, Option.map_eq_bind]
  exact h.bind fun x ↦ .refl _

end Extends

section Rounds

variable {fuel fuel' : ℕ} {key : Key}

theorem walk_extends (hle : fuel ≤ fuel') (h : Heap) (head : Link) (key : Key) (i : ℤ)
    (pos : Link) : Extends (walk h head key i fuel pos) (walk h head key i fuel' pos) := by
  induction fuel generalizing fuel' pos with
  | zero => exact .of_none
  | succ fuel ih =>
    obtain ⟨fuel', rfl⟩ := Nat.exists_eq_succ_of_ne_zero (Nat.ne_zero_of_lt hle)
    rw [walk, walk]
    split_ifs
    · exact .refl _
    apply Extends.bind (.refl _)
    intro node
    split_ifs
    · exact .refl _
    · exact .refl _
    · exact Extends.bind (.refl _) fun next ↦ ih (Nat.le_of_succ_le_succ hle) next

theorem walkSafe_extends (hle : fuel ≤ fuel') (h : Heap) (head : Link) (key : Key) (i : ℤ)
    (pos n : Link) :
    Extends (walkSafe h head key i fuel pos n) (walkSafe h head key i fuel' pos n) := by
  induction fuel generalizing fuel' pos n with
  | zero => exact .of_none
  | succ fuel ih =>
    obtain ⟨fuel', rfl⟩ := Nat.exists_eq_succ_of_ne_zero (Nat.ne_zero_of_lt hle)
    rw [walkSafe, walkSafe]
    split_ifs
    · exact .refl _
    apply Extends.bind (.refl _)
    intro node
    split_ifs
    · exact .refl _
    · exact .refl _
    · exact Extends.bind (.refl _) fun next ↦ ih (Nat.le_of_succ_le_succ hle) n next

theorem insertFrom_extends (hle : fuel ≤ fuel') (key : Key) (new : Addr) (i : ℕ) (pos : Link)
    (h : Heap) : Extends (insertFrom fuel key new i pos h) (insertFrom fuel' key new i pos h) := by
  induction i generalizing pos h with
  | zero => exact .refl _
  | succ i ih =>
    rw [insertFrom, insertFrom]
    apply Extends.bind (.refl _)
    intro first
    apply Extends.bind (walk_extends hle _ _ _ _ _)
    intro stop
    cases stop with
    | found => exact .refl _
    | passed pos =>
      exact Extends.bind (.refl _) fun pos ↦ Extends.bind (.refl _) fun h ↦ ih pos.pred h

theorem eraseFrom_extends (hle : fuel ≤ fuel') (list : SlList) (key : Key) (i : ℕ) (pos : Link) :
    Extends (eraseFrom fuel list key i pos) (eraseFrom fuel' list key i pos) := by
  induction i generalizing pos with
  | zero => exact .refl _
  | succ i ih =>
    rw [eraseFrom, eraseFrom]
    apply Extends.bind (.refl _)
    intro first
    apply Extends.bind (.refl _)
    intro n
    apply Extends.bind (walkSafe_extends hle _ _ _ _ _ _)
    intro stop
    cases stop with
    | found => exact .refl _
    | passed pos => exact Extends.bind (.refl _) fun pos ↦ ih pos.pred

theorem slInsert_extends (hle : fuel ≤ fuel') (list : SlList) (key : Key) (val : Ptr)
    (randomSeed : UInt32) (malloc : Option Addr) :
    Extends (slInsert fuel list key val randomSeed malloc)
      (slInsert fuel' list key val randomSeed malloc) := by
  cases malloc with
  | none => exact .refl _
  | some a => exact Extends.bind (insertFrom_extends hle _ _ _ _ _) fun result ↦ .refl _

theorem slErase_extends (hle : fuel ≤ fuel') (list : SlList) (key : Key) :
    Extends (slErase fuel list key) (slErase fuel' list key) :=
  eraseFrom_extends hle _ _ _ _

theorem step_more_rounds (hle : fuel ≤ fuel') {list list' : SlList} {call : Call} {c : ℤ}
    (hstep : step fuel list call = some (list', .code c)) :
    step fuel' list call = some (list', .code c) := by
  cases call with
  | insert key val randomSeed malloc =>
    exact (slInsert_extends hle list key val randomSeed malloc).map _ _ hstep
  | search key => simp [step] at hstep
  | erase key => exact (slErase_extends hle list key).map _ _ hstep

end Rounds

/-! ## Calls that return 0 -/

/-- `malloc` returns an address that is not in use. -/
def Call.Fresh (list : SlList) : Call → Prop
  | .insert _ _ _ (some a) => list.heap.nodes a = none
  | .insert _ _ _ none | .search _ | .erase _ => True

instance (list : SlList) : DecidablePred fun call : Call ↦ call.Fresh list
  | .insert _ _ _ (some a) => inferInstanceAs (Decidable (list.heap.nodes a = none))
  | .insert _ _ _ none | .search _ | .erase _ => isTrue (by simp [Call.Fresh])

/-- What a call that returns 0 adds to the number of keys. -/
def Call.change : Call → ℤ
  | .insert .. => 1
  | .search _ => 0
  | .erase _ => -1

/-- The calls of `sl_insert` and `sl_erase` lead from `start` to a list, and all of them return
0. -/
inductive Succeeds (start : SlList) : List Call → SlList → Prop
  | nil : Succeeds start [] start
  | snoc {calls : List Call} {list list' : SlList} {call : Call} {fuel : ℕ}
      (before : Succeeds start calls list) (fresh : call.Fresh list)
      (returns : step fuel list call = some (list', .code 0)) :
      Succeeds start (calls ++ [call]) list'

section Calls

variable {list list' : SlList} {entries lo hi : List Entry} {e : Entry} {key : Key} {fuel : ℕ}

/-- A successful insertion does not overflow `list->size`. -/
theorem size_ne_of_slInsert {val : Ptr} {randomSeed : UInt32} {a : Addr}
    (h : slInsert fuel list key val randomSeed (some a) = some (list', 0)) :
    list.size ≠ intMax := by
  intro hsize
  obtain ⟨⟨heap, linked⟩, -, h⟩ := Option.bind_eq_some_iff.mp h
  cases linked with
  | true => simp [hsize] at h
  | false =>
    obtain ⟨heap', -, h⟩ := Option.bind_eq_some_iff.mp h
    simp [eexist] at h

/-- Erasing lowers `list->level` to the height of what remains. -/
theorem Linked.slErase_height (h : Linked list (lo ++ e :: hi)) (hcut : Cut key lo (some e) hi)
    (hfuel : lo.length < fuel) : ∃ list', slErase fuel list key = some (list', 0) ∧
      Linked list' (lo ++ hi) ∧ list'.level = height (lo ++ hi) := by
  obtain ⟨list', herase, hlinked⟩ := h.slErase_some hcut hfuel
  obtain ⟨heap, herase', -⟩ := eraseFrom_some h.rings h.stores hcut hfuel
    (by have := h.level_lt; omega) (h.level_lt_start (e := e) (by simp)) (before_start _ lo)
  obtain ⟨rfl, -⟩ := Prod.ext_iff.mp (Option.some.inj (herase.symm.trans herase'))
  refine ⟨_, herase, hlinked, ?_⟩
  have hheight : list.level = max (e.2.level : ℤ) (height (lo ++ hi)) := by
    rcases h.level with hlevel | ⟨hnil, -⟩
    · rw [hlevel, Linked.height_remove]
    · simp at hnil
  have := neg_one_le_height (lo ++ hi)
  change list.level - (e.2.level + 1 - min (e.2.level + 1 : ℤ) (height (lo ++ hi) + 1)) =
    height (lo ++ hi)
  omega

/-- The code of a call that inserts a stored key. -/
theorem Linked.slInsert_stored (h : Linked list (lo ++ e :: hi)) (hcut : Cut key lo (some e) hi)
    (hfuel : lo.length < fuel) (val : Ptr) (randomSeed : UInt32) {a : Addr}
    (ha : list.heap.nodes a = none) :
    ∃ list', slInsert fuel list key val randomSeed (some a) = some (list', -eexist) := by
  rcases Nat.lt_or_ge e.2.level (randomLevel randomSeed) with hlt | hreach
  · obtain ⟨list', hinsert, -⟩ := h.slInsert_dangling hcut hfuel val ha hlt
    exact ⟨list', hinsert⟩
  · exact ⟨list, h.slInsert_reached hcut hfuel val ha hreach⟩

/-- **A call that returns 0** keeps the invariant, and leaves `list->level` at the highest level
in use. -/
theorem Linked.step_zero {call : Call} (h : Linked list entries) (hsize : list.size ≤ intMax)
    (hfresh : call.Fresh list) (hstep : step fuel list call = some (list', .code 0)) :
    ∃ entries', Linked list' entries' ∧ list'.size ≤ intMax ∧ list'.level = height entries' ∧
      (entries'.length : ℤ) = entries.length + call.change := by
  have hrounds : fuel ≤ max fuel (entries.length + 1) := Nat.le_max_left ..
  have hstep := step_more_rounds hrounds hstep
  have hfuel : entries.length < max fuel (entries.length + 1) := by omega
  generalize max fuel (entries.length + 1) = fuel at hstep hfuel
  cases call with
  | insert key val randomSeed malloc =>
    obtain ⟨lo, same, hi, rfl, hcut, hlo⟩ := h.sorted.exists_cut_lt key hfuel
    cases malloc with
    | none => simp [step, slInsert, enomem] at hstep
    | some a =>
      simp only [step, Option.map_eq_some_iff, Prod.mk.injEq, Answer.code.injEq] at hstep
      obtain ⟨⟨_, _⟩, hinsert, rfl, rfl⟩ := hstep
      cases same with
      | none =>
        rw [Option.toList_none, List.nil_append] at h ⊢
        have hlt : list.size < intMax := lt_of_le_of_ne hsize (size_ne_of_slInsert hinsert)
        obtain ⟨list', hinsert', hlinked⟩ := h.slInsert_eq hcut hlo val randomSeed hfresh hlt
        obtain ⟨rfl, -⟩ := Prod.ext_iff.mp (Option.some.inj (hinsert.symm.trans hinsert'))
        refine ⟨_, hlinked, ?_, ?_, ?_⟩
        · rw [h.size] at hlt
          rw [hlinked.size]
          simp at hlt ⊢
          omega
        · rcases hlinked.level with hlevel | ⟨hnil, -⟩
          · exact hlevel
          · simp at hnil
        · simp [Call.change]
          omega
      | some e =>
        obtain ⟨list', hinsert'⟩ := h.slInsert_stored hcut hlo val randomSeed hfresh
        have := hinsert.symm.trans hinsert'
        simp [eexist] at this
  | search key => simp [step] at hstep
  | erase key =>
    obtain ⟨lo, same, hi, rfl, hcut, hlo⟩ := h.sorted.exists_cut_lt key hfuel
    simp only [step, Option.map_eq_some_iff, Prod.mk.injEq, Answer.code.injEq] at hstep
    obtain ⟨⟨_, _⟩, herase, rfl, rfl⟩ := hstep
    cases same with
    | none =>
      have := herase.symm.trans (h.slErase_none hcut hlo)
      simp [einval] at this
    | some e =>
      rw [Option.toList_some, List.singleton_append] at h ⊢
      obtain ⟨list', herase', hlinked, hlevel⟩ := h.slErase_height hcut hlo
      obtain ⟨rfl, -⟩ := Prod.ext_iff.mp (Option.some.inj (herase.symm.trans herase'))
      refine ⟨_, hlinked, ?_, hlevel, by simp [Call.change]; omega⟩
      rw [h.size] at hsize
      rw [hlinked.size]
      simp at hsize ⊢
      omega

end Calls

section Runs

variable {next prev : Link → Link} {start list : SlList} {calls before : List Call}
  {entries : List Entry}

theorem Succeeds.truncate (h : Succeeds start calls list) (hbefore : before <+: calls) :
    ∃ middle, Succeeds start before middle := by
  induction h with
  | nil => exact ⟨start, List.prefix_nil.mp hbefore ▸ .nil⟩
  | snoc hcalls hfresh hstep ih =>
    rcases List.prefix_concat_iff.mp hbefore with rfl | hbefore
    · exact ⟨_, hcalls.snoc hfresh hstep⟩
    · exact ih hbefore

theorem Succeeds.trans {middle : SlList} (h : Succeeds start before middle)
    (h' : Succeeds middle calls list) : Succeeds start (before ++ calls) list := by
  induction h' with
  | nil => rwa [List.append_nil]
  | snoc _ hfresh hstep ih =>
    rw [← List.append_assoc]
    exact ih.snoc hfresh hstep

/-- An admissible run in which the map answers every call with 0. -/
theorem exists_succeeds {m : Store} {fuel : ℕ} (h : Linked list entries) (hm : Agrees m entries)
    (hfuel : entries.length + calls.length < fuel) (hcalls : AdmissibleRun fuel list m calls)
    (hzero : ∀ answer ∈ (m.run calls).2, answer = .code 0) :
    ∃ list', Succeeds list calls list' := by
  induction calls generalizing list m entries with
  | nil => exact ⟨list, .nil⟩
  | cons call calls ih =>
    obtain ⟨hcall, hrest⟩ := hcalls
    rw [Store.run, List.forall_mem_cons] at hzero
    rw [List.length_cons] at hfuel
    have hfuel' : entries.length < fuel := by omega
    obtain ⟨list', entries', hstep, hlinked, hagrees, hlength⟩ := step_refines h hm hfuel' hcall
    obtain ⟨list'', hlist⟩ := ih hlinked hagrees (by omega) (hrest _ hstep) hzero.2
    have hfresh : call.Fresh list := by
      cases call with
      | insert key val randomSeed malloc =>
        obtain ⟨-, -, a, rfl, ha⟩ := hcall
        exact ha
      | search | erase => trivial
    rw [hzero.1] at hstep
    exact ⟨list'', (Succeeds.nil.snoc hfresh hstep).trans hlist⟩

/-- The invariant of the runs. The number of keys is what the calls have added. -/
theorem Succeeds.linked (h : Succeeds start calls list)
    (halloc : slListAlloc next prev = some start) :
    ∃ entries, Linked list entries ∧ list.size ≤ intMax ∧
      (entries.length : ℤ) = (calls.map Call.change).sum ∧
      (calls = [] ∧ list.level = 0 ∨ calls ≠ [] ∧ list.level = height entries) := by
  induction h with
  | nil =>
    have hlinked := linked_of_slListAlloc halloc
    have hsize : start.size = 0 := hlinked.size
    have hlevel : start.level = 0 := by
      simp only [slListAlloc, Option.bind_eq_bind, Option.bind_eq_some_iff, Option.pure_def,
        Option.some.injEq] at halloc
      obtain ⟨heap, -, rfl⟩ := halloc
      rfl
    exact ⟨[], hlinked, by rw [hsize]; decide, rfl, .inl ⟨rfl, hlevel⟩⟩
  | snoc hcalls hfresh hstep ih =>
    obtain ⟨entries, hlinked, hsize, hlength, -⟩ := ih
    obtain ⟨entries', hlinked', hsize', hlevel, hchange⟩ := hlinked.step_zero hsize hfresh hstep
    exact ⟨entries', hlinked', hsize', by simp [hchange, hlength], .inr ⟨by simp, hlevel⟩⟩

/-! ## The highest level -/

/-- The ring at level `i` is not empty. -/
def Occupied (list : SlList) (i : ℤ) : Prop :=
  0 ≤ i ∧ i < slMaxlevel ∧ list.heap.next (.head i) ≠ .head i

/-- `list->level` is the highest level that is not empty, and 0 when the list is empty, so
`&list->head[list->level]` is an element of `list->head`. -/
structure LevelFits (list : SlList) : Prop where
  highest : ∀ i, Occupied list i → i ≤ list.level
  occupied : list.size ≠ 0 → Occupied list list.level
  empty : list.size = 0 → list.level = 0
  inHead : 0 ≤ list.level ∧ list.level < slMaxlevel

theorem Linked.occupied_iff (h : Linked list entries) (i : ℤ) :
    Occupied list i ↔ 0 ≤ i ∧ i ≤ height entries := by
  have hlt : height entries < slMaxlevel := height_lt h.levels
  have hring : ∀ j < slMaxlevel, list.heap.next (.head j) = .head j ↔ height entries < j := by
    intro j hj
    calc
      _ ↔ firstOf (.head j) (linksAt j entries) = .head j := by
        rw [(h.rings j hj).forward.next_head]
      _ ↔ linksAt j entries = [] := firstOf_eq_head_iff (h.rings j hj).forward.head_notMem
      _ ↔ height entries < j := linksAt_eq_nil_iff
  constructor
  · intro ⟨hpos, hmax, hne⟩
    lift i to ℕ using hpos
    have := (hring i (by omega)).not.mp hne
    omega
  · intro ⟨hpos, hle⟩
    lift i to ℕ using hpos
    have hi : i < slMaxlevel := by omega
    exact ⟨by omega, by omega, (hring i hi).not.mpr (by omega)⟩

theorem Linked.levelFits (h : Linked list entries)
    (hlevel : entries = [] ∧ list.level = 0 ∨ entries ≠ [] ∧ list.level = height entries) :
    LevelFits list := by
  have hlt : height entries < slMaxlevel := height_lt h.levels
  have hsize : list.size = 0 ↔ entries = [] := by
    rw [h.size]
    simp
  rcases hlevel with ⟨rfl, hlevel⟩ | ⟨hne, hlevel⟩
  · refine ⟨fun i hi ↦ ?_, fun hne ↦ absurd (hsize.mpr rfl) hne, fun _ ↦ hlevel, ?_⟩
    · have hheight := (h.occupied_iff i).mp hi
      simp only [height, List.foldr_nil] at hheight
      omega
    · rw [hlevel]
      decide
  · have hpos : 0 ≤ height entries := by
      obtain ⟨e, he⟩ := List.exists_mem_of_ne_nil _ hne
      have := level_le_height he
      omega
    refine ⟨fun i hi ↦ ?_, fun _ ↦ ?_, fun hnil ↦ absurd (hsize.mp hnil) hne, ?_⟩
    · have := (h.occupied_iff i).mp hi
      omega
    · exact (h.occupied_iff _).mpr ⟨by omega, hlevel.le⟩
    · omega

/-- **`list->level`** is right in every state of a run exactly when no call of the run erases the
last key. -/
theorem level_fits_iff (halloc : slListAlloc next prev = some start)
    (hcalls : Succeeds start calls list) :
    (∀ before middle, before <+: calls → Succeeds start before middle → LevelFits middle) ↔
      ∀ before key, before ++ [.erase key] <+: calls → (before.map Call.change).sum ≠ 1 := by
  constructor
  · intro hfits before key hbefore hsum
    obtain ⟨middle, hmiddle⟩ := hcalls.truncate hbefore
    obtain ⟨entries, -, -, hlength, hlevel⟩ := hmiddle.linked halloc
    obtain rfl : entries = [] := by
      apply List.length_eq_zero_iff.mp
      have : (entries.length : ℤ) = 0 := by simp [hlength, hsum, Call.change]
      omega
    have hneg : middle.level = -1 := by simpa [height] using hlevel
    have := (hfits _ middle hbefore hmiddle).inHead
    omega
  · intro hkept before middle hbefore hmiddle
    obtain ⟨entries, hlinked, -, hlength, hlevel⟩ := hmiddle.linked halloc
    apply hlinked.levelFits
    rcases hlevel with ⟨rfl, hlevel⟩ | ⟨hne, hlevel⟩
    · exact .inl ⟨List.length_eq_zero_iff.mp (by simpa using hlength), hlevel⟩
    refine .inr ⟨?_, hlevel⟩
    rintro rfl
    cases hmiddle with
    | nil => exact hne rfl
    | @snoc calls' list' _ call _ hcalls' hfresh hstep =>
      -- the last call has left no key
      obtain ⟨entries', -, -, hlength', -⟩ := hcalls'.linked halloc
      have hsum : (calls'.map Call.change).sum + call.change = 0 := by simpa using hlength.symm
      cases call with
      | insert => simp only [Call.change] at hsum; omega
      | search key => simp [step] at hstep
      | erase key =>
        apply hkept calls' key hbefore
        simp only [Call.change] at hsum
        omega

end Runs

/-- Two keys, and the higher node is erased. -/
def insertTwice : List Call := [.insert 5 50 3 (some 1), .insert 3 30 0 (some 2), .erase 5]

/-- One key, which is erased. -/
def insertErase : List Call := [.insert 5 50 0 (some 1), .erase 5]

theorem exists_succeeds_emptyList {calls : List Call} (hcalls : AdmissibleRun 7 emptyList ∅ calls)
    (hlength : calls.length < 7) (hzero : ∀ answer ∈ ((∅ : Store).run calls).2, answer = .code 0) :
    ∃ list, Succeeds emptyList calls list := by
  obtain ⟨list, halloc, hlinked⟩ := slListAlloc_linked id id
  obtain rfl : list = emptyList := by rw [emptyList, halloc, Option.getD_some]
  exact exists_succeeds hlinked (fun key val level ↦ by simp) (by simpa using hlength) hcalls hzero

theorem level_fits_insertTwice : ∃ list, Succeeds emptyList insertTwice list ∧ LevelFits list := by
  have hcalls : AdmissibleRun 7 emptyList ∅ insertTwice := by decide +kernel
  obtain ⟨list, hlist⟩ := exists_succeeds_emptyList hcalls (by decide) (by decide +kernel)
  have halloc : slListAlloc id id = some emptyList := rfl
  have hkept : ∀ before key, before ++ [.erase key] <+: insertTwice →
      (before.map Call.change).sum ≠ 1 := by
    intro before key ⟨rest, h⟩
    rcases before with _ | ⟨_, _ | ⟨_, _ | ⟨_, before⟩⟩⟩ <;> simp_all [insertTwice, Call.change]
  have hfits := (level_fits_iff halloc hlist).mpr hkept
  exact ⟨list, hlist, hfits insertTwice list List.prefix_rfl hlist⟩

theorem level_below_head :
    ¬ ∀ next prev start calls list, slListAlloc next prev = some start →
      Succeeds start calls list → LevelFits list := by
  intro hfits
  have hcalls : AdmissibleRun 7 emptyList ∅ insertErase := by decide +kernel
  obtain ⟨list, hlist⟩ := exists_succeeds_emptyList hcalls (by decide) (by decide +kernel)
  have halloc : slListAlloc id id = some emptyList := rfl
  obtain ⟨entries, -, -, hlength, ⟨hnil, -⟩ | ⟨-, hlevel⟩⟩ := hlist.linked halloc
  · cases hnil
  · obtain rfl : entries = [] := List.length_eq_zero_iff.mp (Int.ofNat_eq_zero.mp hlength)
    have := (hfits id id emptyList insertErase list halloc hlist).inHead
    rw [hlevel] at this
    exact absurd this.1 (by decide)

end ParallelPrograms.SkipList
