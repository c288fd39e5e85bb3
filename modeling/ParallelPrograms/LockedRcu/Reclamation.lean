import ParallelPrograms.LockedRcu.Ownership

/-!
# Reclamation under readers

A reader counts itself in two steps: it loads `head->current` and then increments the count of
the node it has found. A scan of `synchronize_rcu` that reads the count in between sees no reader
and frees the node. Whenever a scan goes on only past nodes that no reader has loaded without
counting itself, every reader finds its node and the object of that node allocated.
-/

namespace ParallelPrograms.LockedRcu

open Concurrency LinkedList

variable {Rid Uid : Type*}

/-- Every reader in a section, from its load of `head->current` on, has its node and the object
of the node allocated, and what `rcu_dereference` has returned is that object. -/
structure ReadersSafe (s : State Rid Uid) : Prop where
  node : ∀ r n, (s.readers r).node? = some n → s.live n = true
  obj : ∀ r n, (s.readers r).node? = some n → s.live (s.obj n) = true
  obtained : ∀ r n obj, s.readers r = .inside n (some obj) → obj = s.obj n

section Counting

variable [Fintype Rid]

/-- When a scan reads the count of a node as zero, no reader is between its load of the node and
its increment, and the count has not wrapped around. -/
def CountsReaders (s : State Rid Uid) (a : Action Rid Uid) : Prop :=
  ∀ u n, a = .run u → s.updaters u = .spinning n → s.count n = 0 →
    (∀ r, s.readers r ≠ .loaded n) ∧ s.sections n < 2 ^ 32

/-- What the readers know of the retired nodes. -/
structure Guarded (s : State Rid Uid) (retired : List Addr) : Prop where
  readers : ∀ r n, (s.readers r).node? = some n → n ∈ retired ++ [s.current]
  obtained : ∀ r n obj, s.readers r = .inside n (some obj) → obj = s.obj n
  count : ∀ n ∈ retired ++ [s.current], s.count n = UInt32.ofNat (s.sections n)
  fresh : ∀ u n, (s.updaters u).newNode? = some n → s.count n = 0
  passed : ∀ u n, (s.updaters u).tmp? = some n → ∀ r, (s.readers r).node? ≠ some n

namespace Guarded

variable {s s' : State Rid Uid} {own : Addr → Use Uid} {retired : List Addr} {r : Rid} {u : Uid}

theorem safe (h : Guarded s retired) (howned : Owned s own retired) : ReadersSafe s where
  node r n hr := by
    have := howned.nodes n (h.readers r n hr)
    have := howned.live n
    grind
  obj r n hr := by
    have := howned.objs n (h.readers r n hr) fun u hu ↦ by
      refine h.passed u n ?_ r hr
      cases hpc : s.updaters u <;> simp_all [UpdaterPc.stripped?, UpdaterPc.tmp?]
    have := howned.live (s.obj n)
    grind
  obtained := h.obtained

/-- A node in which nobody has a section open. -/
theorem sections_eq_zero {n : Addr} (hn : ∀ r, (s.readers r).node? ≠ some n) :
    s.sections n = 0 := by
  apply (population_eq_zero_iff ..).mpr
  intro r hr
  apply hn r
  cases hpc : s.readers r <;> simp_all [ReaderPc.Counted, ReaderPc.node?]

/-- An updater that has no such node owes nothing for it. -/
theorem none_elim {p : Addr → Prop} (n : Addr) (hn : none = some n) : p n :=
  (Option.some_ne_none n hn.symm).elim

/-- A step of an updater that leaves the counts, the objects and the published node alone. -/
theorem move (h : Guarded s retired) {pc : UpdaterPc} [DecidableEq Uid]
    (hs' : ∀ v, s'.updaters v = if v = u then pc else s.updaters v)
    (hreaders : s'.readers = s.readers) (hobj : s'.obj = s.obj) (hcount : s'.count = s.count)
    (hcurrent : s'.current = s.current)
    (hnewNode : ∀ n, pc.newNode? = some n → (s.updaters u).newNode? = some n)
    (htmp : ∀ n, pc.tmp? = some n → ∀ r, (s.readers r).node? ≠ some n) : Guarded s' retired where
  readers := by
    rw [hreaders, hcurrent]
    exact h.readers
  obtained := by
    rw [hreaders, hobj]
    exact h.obtained
  count := by
    rw [hcurrent, hcount]
    simpa only [State.sections, hreaders] using h.count
  fresh v n hv := by
    rw [hcount]
    apply h.fresh v n
    have := hs' v
    grind
  passed v n hv := by
    rw [hreaders]
    rw [hs'] at hv
    split_ifs at hv
    · exact htmp n hv
    · exact h.passed v n hv

/-- A step of an updater that writes nothing. -/
theorem goto (h : Guarded s retired) {pc : UpdaterPc} [DecidableEq Uid]
    (hnewNode : ∀ n, pc.newNode? = some n → (s.updaters u).newNode? = some n)
    (htmp : ∀ n, pc.tmp? = some n → ∀ r, (s.readers r).node? ≠ some n) :
    Guarded (s.goto u pc) retired :=
  h.move (s.goto_updaters u · pc) rfl rfl rfl rfl hnewNode htmp

section Readers

variable [DecidableEq Rid]

theorem sections_gotoReader (m : Addr) (pc : ReaderPc) :
    (s.gotoReader r pc).sections m + (if ReaderPc.Counted m (s.readers r) then 1 else 0) =
      s.sections m + (if ReaderPc.Counted m pc then 1 else 0) :=
  population_update ..

theorem loadCurrent (h : Guarded s retired) (howned : Owned s own retired)
    (hr : s.readers r = .outside) : Guarded (s.gotoReader r (.loaded s.current)) retired where
  readers := by
    have := h.readers
    grind [ReaderPc.node?]
  obtained := by
    have := h.obtained
    grind
  count m hm := by
    have := sections_gotoReader (s := s) (r := r) m (.loaded s.current)
    rw [hr] at this
    have : (s.gotoReader r (.loaded s.current)).sections m = s.sections m := by
      simpa [ReaderPc.Counted] using this
    rw [this]
    exact h.count m hm
  fresh := h.fresh
  passed u n hu := by
    have := h.passed u n hu
    have := howned.tmp_ne_current hu
    grind [ReaderPc.node?]

/-- A reader of `n` writes the count that its new position calls for. -/
theorem recount (h : Guarded s retired) (howned : Owned s own retired) {n : Addr} {pc : ReaderPc}
    {count : UInt32} (hr : (s.readers r).node? = some n)
    (hnode : ∀ m, pc.node? = some m → m = n) (hobtained : ∀ m obj, pc ≠ .inside m (some obj))
    (hcount : count = UInt32.ofNat ((s.gotoReader r pc).sections n))
    (hother : ∀ m, m ≠ n → (ReaderPc.Counted m pc ↔ ReaderPc.Counted m (s.readers r))) :
    Guarded ((s.setCount n count).gotoReader r pc) retired where
  readers := by
    have := h.readers
    grind
  obtained := by
    have := h.obtained
    grind
  count m hm := by
    change (s.setCount n count).count m = UInt32.ofNat ((s.gotoReader r pc).sections m)
    rw [State.setCount_count]
    split_ifs with hmn
    · rw [hcount, hmn]
    · have hmove := sections_gotoReader (s := s) (r := r) m pc
      simp only [hother m hmn, add_left_inj] at hmove
      rw [hmove]
      exact h.count m hm
  fresh u m hu := by
    have := h.fresh u m hu
    have := (howned.newNode u m hu).node
    have := howned.nodes n (h.readers r n hr)
    grind
  passed u m hu := by
    have := h.passed u m hu
    have := this r
    grind

theorem increment (h : Guarded s retired) (howned : Owned s own retired) {n : Addr}
    (hr : s.readers r = .loaded n) :
    Guarded ((s.setCount n (s.count n + 1)).gotoReader r (.inside n none)) retired := by
  have hnode : (s.readers r).node? = some n := by rw [hr]; rfl
  have hmove := sections_gotoReader (s := s) (r := r) n (.inside n none)
  refine h.recount howned hnode (by simp [ReaderPc.node?, eq_comm]) (by simp) ?_ ?_
  · have hgain : (s.gotoReader r (.inside n none)).sections n = s.sections n + 1 := by
      simpa [hr, ReaderPc.Counted] using hmove
    rw [hgain, UInt32.ofNat_add, h.count n (h.readers r n hnode)]
    rfl
  · intro m hm
    simp [hr, ReaderPc.Counted, hm.symm]

theorem decrement (h : Guarded s retired) (howned : Owned s own retired) {n : Addr}
    {obtained : Option Addr} (hr : s.readers r = .inside n obtained) :
    Guarded ((s.setCount n (s.count n - 1)).gotoReader r .outside) retired := by
  have hnode : (s.readers r).node? = some n := by rw [hr]; rfl
  have hmove := sections_gotoReader (s := s) (r := r) n .outside
  refine h.recount howned hnode nofun (by simp) ?_ ?_
  · have hlose : s.sections n = (s.gotoReader r .outside).sections n + 1 := by
      simpa [hr, ReaderPc.Counted] using hmove.symm
    rw [h.count n (h.readers r n hnode), hlose, UInt32.ofNat_add]
    exact UInt32.add_sub_cancel ..
  · intro m hm
    simp [hr, ReaderPc.Counted, hm.symm]

theorem dereference (h : Guarded s retired) {n : Addr} {obtained : Option Addr}
    (hr : s.readers r = .inside n obtained) :
    Guarded (s.gotoReader r (.inside n (some (s.obj n)))) retired where
  readers := by
    have := h.readers
    have := this r n (by rw [hr]; rfl)
    grind [ReaderPc.node?]
  obtained := by
    have := h.obtained
    grind
  count m hm := by
    have hmove := sections_gotoReader (s := s) (r := r) m (.inside n (some (s.obj n)))
    rw [hr] at hmove
    rw [Nat.add_right_cancel hmove]
    exact h.count m hm
  fresh := h.fresh
  passed u m hu := by
    have := h.passed u m hu
    have := this r
    grind [ReaderPc.node?]

end Readers

section Updaters

variable [DecidableEq Uid]

theorem newNode (h : Guarded s retired) (howned : Owned s own retired) {newval n : Addr}
    (hlive : s.live n = false) :
    Guarded (((s.malloc n).setFields n newval 0 0).goto u (.locking newval n)) retired := by
  have hunused := howned.own_eq_unused hlive
  have hnodes := howned.nodes
  have hne : ∀ m ∈ retired ++ [s.current], m ≠ n := fun m hm heq ↦ by grind
  constructor
  case readers => exact h.readers
  case obtained =>
    intro r m obj hr
    have := h.obtained r m obj hr
    have := hne m (h.readers r m (by rw [show s.readers r = _ from hr]; rfl))
    grind
  case count =>
    intro m hm
    have := h.count m hm
    have := hne m hm
    rw [State.goto_count, State.setFields_count, if_neg this]
    exact h.count m hm
  case fresh =>
    intro v m hv
    have := h.fresh v m
    grind [UpdaterPc.newNode?]
  case passed =>
    intro v m hv
    have := h.passed v m
    grind [UpdaterPc.tmp?]

theorem publish (h : Guarded s retired) (howned : Owned s own retired) {n : Addr}
    (hu : s.updaters u = .publishing n) :
    Guarded ((s.setCurrent n).goto u .unlocking) (retired ++ [s.current]) := by
  have hnewNode : (s.updaters u).newNode? = some n := by rw [hu]; rfl
  have hown := (howned.newNode u n hnewNode).node
  have hnodes := howned.nodes
  constructor
  case readers =>
    intro r m hr
    exact List.mem_append_left _ (h.readers r m hr)
  case obtained => exact h.obtained
  case count =>
    intro m hm
    rcases List.mem_append.mp hm with hm | hm
    · exact h.count m hm
    · obtain rfl : m = n := by simpa using hm
      have hzero : s.sections m = 0 := sections_eq_zero fun r hr ↦ by
        have := h.readers r m hr
        grind
      calc
        s.count m = UInt32.ofNat 0 := h.fresh u m hnewNode
        _ = UInt32.ofNat (s.sections m) := by rw [hzero]
  case fresh =>
    intro v m hv
    have := h.fresh v m
    grind [UpdaterPc.newNode?]
  case passed =>
    intro v m hv
    have := h.passed v m
    grind [UpdaterPc.tmp?]

/-- The scan goes on past a node whose count it has read as zero. -/
theorem pass (h : Guarded s retired) (howned : Owned s own retired) {n : Addr}
    (hu : s.updaters u = .spinning n) (hcount : s.count n = 0)
    (hloaded : ∀ r, s.readers r ≠ .loaded n) (hwrap : s.sections n < 2 ^ 32) :
    Guarded (s.goto u (.following n)) retired := by
  have hmem : n ∈ retired ++ [s.current] := by
    obtain ⟨rest, rfl, -⟩ : Critical s retired (.spinning n) := hu ▸ howned.critical u
    simp
  have hzero : s.sections n = 0 := calc
    s.sections n = s.sections n % 2 ^ 32 := (Nat.mod_eq_of_lt hwrap).symm
    _ = (UInt32.ofNat (s.sections n)).toNat := UInt32.toNat_ofNat'.symm
    _ = (s.count n).toNat := congrArg UInt32.toNat (h.count n hmem).symm
    _ = 0 := by rw [hcount]; rfl
  refine h.goto nofun fun m hm r hr ↦ ?_
  obtain rfl : n = m := by simpa [UpdaterPc.tmp?] using hm
  have hcounted := (population_eq_zero_iff ..).mp hzero r
  cases hpc : s.readers r with
  | outside => simp [hpc, ReaderPc.node?] at hr
  | loaded m => exact hloaded r (by simpa [hpc, ReaderPc.node?] using hr)
  | inside m obtained =>
    rw [hpc] at hr hcounted
    exact hcounted (Option.some.inj hr)

theorem freeNode (h : Guarded s retired) (howned : Owned s own retired) {n wantFree : Addr}
    (hu : s.updaters u = .freeingNode n wantFree) :
    Guarded ((s.free n).goto u (.visit wantFree)) retired.tail := by
  obtain ⟨rest, rfl, -⟩ : Critical s retired (.freeingNode n wantFree) := hu ▸ howned.critical u
  have hmove : Guarded ((s.free n).goto u (.visit wantFree)) (n :: rest) :=
    h.move ((s.free n).goto_updaters u · _) rfl rfl rfl rfl (by simp) (by simp)
  have hpassed := h.passed u n (by rw [hu]; rfl)
  constructor
  case readers =>
    intro r m hr
    have := hmove.readers r m hr
    have := hpassed r
    grind
  case obtained => exact hmove.obtained
  case count => exact fun m hm ↦ hmove.count m (List.mem_cons_of_mem _ hm)
  case fresh => exact hmove.fresh
  case passed => exact hmove.passed

/-- The accesses of a running updater. -/
theorem run (h : Guarded s retired) (howned : Owned s own retired) (hu : (s.updaters u).Running)
    (hok : CountsReaders s (.run u)) :
    Guarded (run s u) (retiredAfter s retired (.run u)) := by
  have hpassed := h.passed u
  cases hpc : s.updaters u
  case idle | owning | allocating | locking | waiting =>
    rw [hpc] at hu
    exact hu.elim
  all_goals simp only [LockedRcu.run, retiredAfter, hpc]
  all_goals rw [hpc] at hpassed
  case publishing => exact h.publish howned hpc
  case freeingNode => exact h.freeNode howned hpc
  case spinning n =>
    split_ifs with hcount
    · exact h
    · obtain ⟨hloaded, hwrap⟩ := hok u n rfl hpc (not_not.mp hcount)
      exact h.pass howned hpc (not_not.mp hcount) hloaded hwrap
  case testing =>
    split_ifs
    · exact h.goto (hpc ▸ fun _ hn ↦ hn) none_elim
    · exact h.goto (hpc ▸ fun _ hn ↦ hn) none_elim
  case comparing =>
    split_ifs
    · exact h.goto (hpc ▸ fun _ hn ↦ hn) none_elim
    · exact h.goto (hpc ▸ fun _ hn ↦ hn) none_elim
  case starting => exact h.goto (by simp) (by simp)
  case fetching | advancing | reading =>
    exact h.goto (hpc ▸ fun _ hn ↦ hn) none_elim
  case following | taking =>
    exact h.goto none_elim hpassed
  case abandoning =>
    exact h.move ((s.setSp none).goto_updaters u · _) rfl rfl rfl rfl (hpc ▸ fun _ hn ↦ hn)
      none_elim
  case unlocking =>
    exact h.move ((s.setSp none).goto_updaters u · _) rfl rfl rfl rfl none_elim none_elim
  case discarding =>
    exact h.move ((s.free _).goto_updaters u · _) rfl rfl rfl rfl none_elim none_elim
  case freeingObj =>
    exact h.move ((s.free _).goto_updaters u · _) rfl rfl rfl rfl none_elim hpassed
  case clearing =>
    exact h.move ((s.setNode 0).goto_updaters u · _) rfl rfl rfl rfl none_elim none_elim
  case retiring =>
    exact h.move ((s.store _ _).goto_updaters u · _) rfl rfl rfl rfl (hpc ▸ fun _ hn ↦ hn)
      none_elim

end Updaters

/-- A scan that counts the readers keeps them guarded. -/
theorem update [DecidableEq Rid] [DecidableEq Uid] (h : Guarded s retired)
    (howned : Owned s own retired) {a : Action Rid Uid} (hguard : guard s a)
    (hok : CountsReaders s a) : Guarded (update s a) (retiredAfter s retired a) := by
  cases a with
  | loadCurrent r => exact h.loadCurrent howned hguard
  | increment r =>
    obtain ⟨n, hr⟩ := hguard
    simp only [LockedRcu.update, hr]
    exact h.increment howned hr
  | dereference r =>
    obtain ⟨n, obtained, hr⟩ := hguard
    simp only [LockedRcu.update, hr]
    exact h.dereference hr
  | decrement r =>
    obtain ⟨n, obtained, hr⟩ := hguard
    simp only [LockedRcu.update, hr]
    exact h.decrement howned hr
  | newObj u newval =>
    exact h.move ((s.malloc newval).goto_updaters u · _) rfl rfl rfl rfl none_elim none_elim
  | callAssign u newval => exact h.goto none_elim none_elim
  | newNode u n =>
    obtain ⟨⟨newval, hu⟩, hlive, -⟩ := hguard
    simp only [LockedRcu.update, hu]
    exact h.newNode howned hlive
  | callSynchronize u => exact h.goto none_elim none_elim
  | acquire u =>
    obtain ⟨⟨newval, n, hu⟩ | hu, -⟩ := hguard
    · simp only [LockedRcu.update, hu]
      exact h.move ((s.setSp _).goto_updaters u · _) rfl rfl rfl rfl (hu ▸ fun _ hn ↦ hn)
        none_elim
    · simp only [LockedRcu.update, hu]
      exact h.move ((s.setSp _).goto_updaters u · _) rfl rfl rfl rfl none_elim none_elim
  | run u => exact h.run howned hguard hok

end Guarded

theorem Fresh.guarded {s : State Rid Uid} (h : Fresh s) : Guarded s [] := by
  have hreaders := h.readers
  have hupdaters := h.updaters
  refine ⟨by simp [hreaders, ReaderPc.node?], by simp [hreaders], fun n hn ↦ ?_,
    by simp [hupdaters, UpdaterPc.newNode?], by simp [hupdaters, UpdaterPc.tmp?]⟩
  obtain rfl : n = s.current := by simpa using hn
  rw [h.count, Guarded.sections_eq_zero (by simp [hreaders, ReaderPc.node?])]
  rfl

/-! ## The runs -/

section Runs

variable [DecidableEq Rid] [DecidableEq Uid] {history : List (Action Rid Uid)} {s : State Rid Uid}

/-- **No reader sees a freed node.** In every run in which `synchronize_rcu` reads the count of a
node as zero only when no reader has loaded the node without counting itself, every reader in a
section has its node and the object of the node allocated. -/
theorem readers_safe (hrun : ((machine Rid Uid).when CountsReaders).Run history s) :
    ReadersSafe s := by
  obtain ⟨own, retired, howned, hguarded⟩ :
      ∃ own retired, Owned s own retired ∧ Guarded s retired := by
    apply hrun.invariant (fun s ↦ ∃ own retired, Owned s own retired ∧ Guarded s retired)
    · intro s hinit
      obtain ⟨own, howned⟩ := Fresh.owned hinit
      exact ⟨own, [], howned, Fresh.guarded hinit⟩
    · intro s a ⟨own, retired, howned, hguarded⟩ ⟨hguard, hok⟩
      obtain ⟨own', howned'⟩ := howned.update hguard
      exact ⟨own', _, howned', hguarded.update howned hguard hok⟩
  exact hguarded.safe howned

end Runs

end Counting

/-! ## One reader and one updater -/

/-- `__rcu_init` with the node at address 1 and its object at address 2. -/
def oneNode : State Unit Unit where
  live a := a = 1 || a = 2
  obj n := if n = 1 then 2 else 0
  count _ := 0
  next _ := 0
  node := 0
  current := 1
  sp := none
  readers _ := .outside
  updaters _ := .idle

theorem oneNode_fresh : Fresh oneNode where
  live a := by simp [oneNode]
  distinct := by decide
  current := by decide
  obj := by decide
  count := rfl
  next := rfl
  node := rfl
  sp := rfl
  readers _ := rfl
  updaters _ := rfl

/-- `rcu_assign_pointer` and the first steps of `synchronize_rcu`, up to the load of the count. -/
def assignAndScan : List (Action Unit Unit) :=
  [.newObj () 3, .callAssign () 3, .newNode () 4, .acquire (), .run (), .run (), .run (), .run (),
    .run (), .callSynchronize (), .acquire (), .run ()]

/-- The reader has counted itself, so the scan waits for it and then frees the object, while the
next section is open on the new node. -/
def waitingHistory : List (Action Unit Unit) :=
  [.loadCurrent (), .increment ()] ++ assignAndScan ++ [.run (), .dereference (), .decrement (),
    .loadCurrent (), .run (), .run (), .run (), .run ()]

theorem readers_safe_waiting :
    ReadersSafe ((machine Unit Unit).final oneNode waitingHistory) := by
  have hlegal : (machine Unit Unit).Legal oneNode waitingHistory :=
    ⟨rfl, ⟨1, rfl⟩, ⟨rfl, rfl, by decide⟩, rfl, ⟨⟨3, rfl⟩, rfl, by decide⟩,
      ⟨.inl ⟨3, 4, rfl⟩, rfl⟩, trivial, trivial, trivial, trivial, trivial, rfl, ⟨.inr rfl, rfl⟩,
      trivial, trivial, ⟨1, none, rfl⟩, ⟨1, some 2, rfl⟩, rfl, trivial, trivial, trivial, trivial,
      trivial⟩
  have hmeets : (machine Unit Unit).Meets CountsReaders oneNode waitingHistory := by
    refine ⟨nofun, nofun, nofun, nofun, nofun, nofun, ?_, ?_, ?_, ?_, ?_, nofun, nofun, ?_,
      fun u n _ hu hcount ↦ ?_, nofun, nofun, nofun, fun u n _ hu _ ↦ ?_, ?_, ?_, ?_, trivial⟩
    -- the scan reads the count of node 1 twice
    case refine_7 =>
      obtain rfl : 1 = n := UpdaterPc.spinning.inj hu
      exact absurd hcount (by decide)
    case refine_8 =>
      obtain rfl : 1 = n := UpdaterPc.spinning.inj hu
      exact ⟨by decide, by decide⟩
    all_goals exact fun u n _ hu ↦ nomatch hu
  exact readers_safe (Machine.run_when_iff.mpr ⟨oneNode, oneNode_fresh, hlegal, hmeets, rfl⟩)

/-- The reader has loaded the node but not counted itself. -/
def freedHistory : List (Action Unit Unit) :=
  [.loadCurrent ()] ++ assignAndScan ++ [.run (), .run (), .run (), .run ()]

theorem reader_unsafe :
    ¬ ∀ history s, (machine Unit Unit).Run history s → ReadersSafe s := by
  intro hsafe
  have hlegal : (machine Unit Unit).Legal oneNode freedHistory :=
    ⟨rfl, ⟨rfl, rfl, by decide⟩, rfl, ⟨⟨3, rfl⟩, rfl, by decide⟩, ⟨.inl ⟨3, 4, rfl⟩, rfl⟩,
      trivial, trivial, trivial, trivial, trivial, rfl, ⟨.inr rfl, rfl⟩, trivial, trivial, trivial,
      trivial, trivial, trivial⟩
  have hobj := (hsafe freedHistory _ ⟨oneNode, oneNode_fresh, hlegal, rfl⟩).obj () 1 rfl
  exact absurd hobj (by decide)

end ParallelPrograms.LockedRcu
