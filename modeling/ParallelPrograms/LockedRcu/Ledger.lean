import ParallelPrograms.LockedRcu.Reclamation

/-!
# The ledger of the assigned objects

Every object that is passed to `__rcu_init` or `rcu_assign_pointer` is first the object of
`head->current`, then on the retired list, and then freed, in the order of the calls. The objects
that the calls have been given are therefore the freed ones, those of the retired list and the
current one, one after the other. `rcu_assign_pointer` never finds its object on the list, because
the object is allocated for this call and those on the list are allocated for their nodes.
-/

namespace ParallelPrograms.LockedRcu

open Concurrency LinkedList

variable {Rid Uid : Type*}

/-- What the calls of the updaters have been given and have freed. -/
structure Log (Uid : Type*) where
  /-- The argument of the `rcu_assign_pointer` that an updater is in. -/
  pending : Uid → Option Addr
  /-- The arguments of the completed calls, oldest first. -/
  completed : List Addr
  /-- The objects that `synchronize_rcu` and `rcu_free` have freed, oldest first. -/
  freed : List Addr

namespace Log

variable (log : Log Uid)

def free (obj : Addr) : Log Uid := { log with freed := log.freed ++ [obj] }

variable [DecidableEq Uid]

def call (u : Uid) (newval : Addr) : Log Uid :=
  { log with pending := Function.update log.pending u (some newval) }

/-- The call that `u` is in returns. -/
def complete (u : Uid) : Log Uid :=
  { log with
    pending := Function.update log.pending u none
    completed := log.completed ++ (log.pending u).toList }

/-- What an action adds. -/
def record (log : Log Uid) (s : State Rid Uid) : Action Rid Uid → Log Uid
  | .callAssign u newval => log.call u newval
  | .run u =>
    match s.updaters u with
    | .discarding _ | .unlocking => log.complete u
    | .freeingObj _ _ obj => log.free obj
    | _ => log
  | _ => log

end Log

section Runs

variable [DecidableEq Rid] [DecidableEq Uid]

/-- The log of a history that begins right after `__rcu_init`. -/
def logOf (start : State Rid Uid) (history : List (Action Rid Uid)) : Log Uid :=
  (machine Rid Uid).observe Log.record ⟨fun _ ↦ none, [], []⟩ start history

/-- The objects passed to `__rcu_init` and to completed calls of `rcu_assign_pointer`. -/
def assigned (start : State Rid Uid) (history : List (Action Rid Uid)) : List Addr :=
  start.obj start.current :: (logOf start history).completed

end Runs

/-- `rcu_free`, as far as the ledger goes. -/
def Log.rcuFree (log : Log Uid) (s : State Rid Uid) : Log Uid := log.free (s.obj s.current)

/-! ## The invariant -/

/-- What the position of an updater says about the call that it is in. -/
def Called (s : State Rid Uid) (retired : List Addr) (pending : Option Addr) : UpdaterPc → Prop
  | .allocating newval => pending = some newval
  | .locking newval n | .testing newval n _ | .fetching newval n _ | .advancing newval n _ =>
    pending = some newval ∧ s.obj n = newval
  | .comparing newval n _ entry => pending = some newval ∧ s.obj n = newval ∧ entry ∈ retired
  | .reading n _ | .retiring n _ _ | .publishing n => pending = some (s.obj n)
  | .abandoning _ | .discarding _ => False
  | .unlocking => pending = none → retired = []
  | .idle | .owning _ | .waiting | .starting | .spinning _ | .following _ | .taking ..
  | .freeingObj .. | .freeingNode .. | .clearing => pending = none

/-- The published object whose call has not returned yet. -/
def State.returning (s : State Rid Uid) (log : Log Uid) : Option Addr :=
  match s.sp with
  | some u =>
    match s.updaters u with
    | .unlocking => log.pending u
    | _ => none
  | none => none

/-- The retired nodes whose object is not freed. -/
def State.waiting (s : State Rid Uid) (retired : List Addr) : List Addr :=
  match s.sp with
  | some u =>
    match s.updaters u with
    | .freeingNode .. => retired.tail
    | _ => retired
  | none => retired

theorem State.mem_of_mem_waiting {s : State Rid Uid} {retired : List Addr} {n : Addr}
    (h : n ∈ s.waiting retired) : n ∈ retired := by
  unfold State.waiting at h
  split at h
  · split at h
    · exact List.mem_of_mem_tail h
    · exact h
  · exact h

/-- The objects given to the calls are the freed, the retired and the current one, in order. -/
structure Ledger (first : Addr) (log : Log Uid) (s : State Rid Uid) (retired : List Addr) :
    Prop where
  called : ∀ u, Called s retired (log.pending u) (s.updaters u)
  balance : first :: (log.completed ++ (s.returning log).toList) =
    log.freed ++ ((s.waiting retired).map s.obj ++ [s.obj s.current])

section Called

variable {s s' : State Rid Uid} {retired retired' : List Addr} {pending : Option Addr}
  {pc : UpdaterPc}

theorem Called.congr (h : Called s retired pending pc)
    (hobj : ∀ n, pc.newNode? = some n → s'.obj n = s.obj n)
    (hretired : pc.Holding → retired' = retired) : Called s' retired' pending pc := by
  cases pc <;> simp_all [Called, UpdaterPc.newNode?, UpdaterPc.Holding]

theorem called_visit (wantFree : Addr) (h : pending = none) :
    Called s retired pending (.visit wantFree) := by
  unfold UpdaterPc.visit
  split_ifs <;> exact h

end Called

namespace Ledger

variable {first : Addr} {log log' : Log Uid} {s s' : State Rid Uid} {own : Addr → Use Uid}
  {retired retired' : List Addr} {u : Uid}

/-- The other updaters notice nothing of a step of `u`. -/
theorem called_step (h : Ledger first log s retired) (howned : Owned s own retired)
    (hupdaters : ∀ v, v ≠ u → s'.updaters v = s.updaters v)
    (hpending : ∀ v, v ≠ u → log'.pending v = log.pending v)
    (hobj : ∀ n, own n ≠ .unused → s'.obj n = s.obj n)
    (hretired : (s.updaters u).Holding ∨ retired' = retired)
    (hself : Called s' retired' (log'.pending u) (s'.updaters u)) (v : Uid) :
    Called s' retired' (log'.pending v) (s'.updaters v) := by
  by_cases hv : v = u
  · subst hv
    exact hself
  · rw [hupdaters v hv, hpending v hv]
    apply (h.called v).congr
    · intro n hn
      have hown := (howned.newNode v n hn).node
      exact hobj n (by rw [hown]; nofun)
    · intro hholding
      exact hretired.resolve_left fun hu ↦ howned.not_holding hu hv hholding

/-- A step that neither publishes nor frees an object nor completes a call. -/
theorem step (h : Ledger first log s retired) (howned : Owned s own retired)
    (hupdaters : ∀ v, v ≠ u → s'.updaters v = s.updaters v)
    (hpending : ∀ v, v ≠ u → log'.pending v = log.pending v)
    (hobj : ∀ n, own n ≠ .unused → s'.obj n = s.obj n) (hcurrent : s'.current = s.current)
    (hcompleted : log'.completed = log.completed) (hfreed : log'.freed = log.freed)
    (hreturning : s'.returning log' = s.returning log)
    (hwaiting : s'.waiting retired = s.waiting retired)
    (hself : Called s' retired (log'.pending u) (s'.updaters u)) :
    Ledger first log' s' retired := by
  have hused : ∀ n ∈ retired ++ [s.current], s'.obj n = s.obj n := by
    intro n hn
    exact hobj n (by rw [howned.nodes n hn]; nofun)
  refine ⟨h.called_step howned hupdaters hpending hobj (.inr rfl) hself, ?_⟩
  have hmap : (s.waiting retired).map s'.obj = (s.waiting retired).map s.obj := by
    apply List.map_congr_left
    intro n hn
    exact hused n (List.mem_append_left _ (State.mem_of_mem_waiting hn))
  rw [hcompleted, hfreed, hreturning, hwaiting, hcurrent, hmap, hused s.current (by simp)]
  exact h.balance

section Updaters

variable [DecidableEq Uid]

/-- An updater moves on without writing to the list. -/
theorem move (h : Ledger first log s retired) (howned : Owned s own retired) {pc : UpdaterPc}
    (hreturns : s.updaters u ≠ .unlocking ∧ pc ≠ .unlocking)
    (hstrips : ∀ tmp wantFree, s.updaters u ≠ .freeingNode tmp wantFree ∧
      pc ≠ .freeingNode tmp wantFree)
    (hself : Called s retired (log.pending u) pc) : Ledger first log (s.goto u pc) retired := by
  apply h.step howned (u := u)
  · intro v hv
    rw [State.goto_updaters, if_neg hv]
  · intro v _
    rfl
  · intro n _
    rfl
  · rfl
  · rfl
  · rfl
  · unfold State.returning
    grind
  · unfold State.waiting
    grind
  · rw [State.goto_updaters, if_pos rfl]
    exact hself.congr (fun _ _ ↦ rfl) fun _ ↦ rfl

/-- The object of the new node is not on the list. -/
theorem obj_ne (howned : Owned s own retired) {n entry : Addr}
    (hnew : (s.updaters u).newNode? = some n) (hholding : (s.updaters u).Holding)
    (hentry : entry ∈ retired) : s.obj entry ≠ s.obj n := by
  have hobj := howned.objs entry (List.mem_append_left _ hentry) fun v hv ↦ by
    have hother := howned.not_holding hholding (v := v)
    cases hpc : s.updaters v <;> rw [hpc] at hv <;> try cases hv
    by_cases heq : v = u
    · subst heq
      rw [hpc] at hnew
      cases hnew
    · exact hother heq (by rw [hpc]; trivial)
  intro heq
  have hprivate := (howned.newNode u n hnew).obj
  rw [← heq, hobj] at hprivate
  cases hprivate

/-- A step of the holder of the lock. -/
theorem called_goto (h : Ledger first log s retired) (howned : Owned s own retired)
    {pc : UpdaterPc} (hholding : (s.updaters u).Holding) (hupdaters : s'.updaters = s.updaters)
    (hpending : ∀ v, v ≠ u → log'.pending v = log.pending v) (hobj : s'.obj = s.obj)
    (hself : Called s retired' (log'.pending u) pc) (v : Uid) :
    Called (s'.goto u pc) retired' (log'.pending v) ((s'.goto u pc).updaters v) := by
  apply h.called_step howned _ hpending _ (.inl hholding)
  · rw [State.goto_updaters, if_pos rfl]
    exact hself.congr (fun n _ ↦ congrFun hobj n) fun _ ↦ rfl
  · intro v hv
    rw [State.goto_updaters, if_neg hv, hupdaters]
  · intro n _
    exact congrFun hobj n

/-- The store to `head->current`. -/
theorem publish (h : Ledger first log s retired) (howned : Owned s own retired) {n : Addr}
    (hpc : s.updaters u = .publishing n) :
    Ledger first log ((s.setCurrent n).goto u .unlocking) (retired ++ [s.current]) := by
  have hholding : (s.updaters u).Holding := by rw [hpc]; trivial
  have hsp := (howned.sp u).mp hholding
  have hcalled : log.pending u = some (s.obj n) := by simpa [hpc, Called] using h.called u
  constructor
  · apply h.called_goto howned hholding rfl (fun _ _ ↦ rfl) rfl
    intro hnone
    exact nomatch hcalled.symm.trans hnone
  · have hbalance := h.balance
    have hobj : ((s.setCurrent n).goto u .unlocking).obj = s.obj := rfl
    simp only [State.returning, State.waiting, hsp, hpc, Option.toList_none, List.append_nil,
      State.goto_sp, State.setCurrent_sp, State.goto_updaters, if_pos, hcalled, hobj] at hbalance ⊢
    rw [Option.toList_some, ← List.cons_append, hbalance]
    simp

/-- The end of `rcu_assign_pointer` and of `synchronize_rcu`. -/
theorem release (h : Ledger first log s retired) (howned : Owned s own retired)
    (hpc : s.updaters u = .unlocking) :
    Ledger first (log.complete u) ((s.setSp none).goto u .idle) retired := by
  have hholding : (s.updaters u).Holding := by rw [hpc]; trivial
  have hsp := (howned.sp u).mp hholding
  constructor
  · apply h.called_goto howned hholding rfl _ rfl
    · exact Function.update_self ..
    · intro v hv
      exact Function.update_of_ne hv ..
  · have hbalance := h.balance
    simp_all [State.returning, State.waiting, Log.complete]

theorem freeObj (h : Ledger first log s retired) (howned : Owned s own retired)
    {tmp wantFree obj : Addr} (hpc : s.updaters u = .freeingObj tmp wantFree obj) :
    Ledger first (log.free obj) ((s.free obj).goto u (.freeingNode tmp wantFree)) retired := by
  have hholding : (s.updaters u).Holding := by rw [hpc]; trivial
  have hsp := (howned.sp u).mp hholding
  have hcalled := h.called u
  rw [hpc] at hcalled
  obtain ⟨rest, rfl, -, rfl⟩ : Critical s retired (.freeingObj tmp wantFree obj) :=
    hpc ▸ howned.critical u
  constructor
  · exact h.called_goto howned hholding rfl (fun _ _ ↦ rfl) rfl hcalled
  · have hbalance := h.balance
    simp_all [State.returning, State.waiting, State.goto_updaters, Log.free]

theorem freeNode (h : Ledger first log s retired) (howned : Owned s own retired)
    {tmp wantFree : Addr} (hpc : s.updaters u = .freeingNode tmp wantFree) :
    Ledger first log ((s.free tmp).goto u (.visit wantFree)) retired.tail := by
  have hholding : (s.updaters u).Holding := by rw [hpc]; trivial
  have hsp := (howned.sp u).mp hholding
  have hcalled := h.called u
  rw [hpc] at hcalled
  constructor
  · exact h.called_goto howned hholding rfl (fun _ _ ↦ rfl) rfl (called_visit _ hcalled)
  · have hbalance := h.balance
    have hobj : ((s.free tmp).goto u (.visit wantFree)).obj = s.obj := rfl
    rw [hobj]
    unfold UpdaterPc.visit
    split_ifs <;> simp_all [State.returning, State.waiting, State.goto_updaters]

theorem clear (h : Ledger first log s retired) (howned : Owned s own retired)
    (hpc : s.updaters u = .clearing) :
    Ledger first log ((s.setNode 0).goto u .unlocking) retired := by
  have hholding : (s.updaters u).Holding := by rw [hpc]; trivial
  have hsp := (howned.sp u).mp hholding
  have hcalled : log.pending u = none := by simpa [hpc, Called] using h.called u
  have hretired : retired = [] := by simpa [hpc, Critical] using howned.critical u
  constructor
  · exact h.called_goto howned hholding rfl (fun _ _ ↦ rfl) rfl fun _ ↦ hretired
  · have hbalance := h.balance
    simp_all [State.returning, State.waiting, State.goto_updaters]

/-- The store of the replaced node to the end of the list. -/
theorem retire (h : Ledger first log s retired) (howned : Owned s own retired) {n old : Addr}
    {location : Option Addr} (hpc : s.updaters u = .retiring n location old) :
    Ledger first log ((s.store location old).goto u (.publishing n)) retired := by
  have hholding : (s.updaters u).Holding := by rw [hpc]; trivial
  have hsp := (howned.sp u).mp hholding
  have hcalled := h.called u
  rw [hpc] at hcalled
  constructor
  · exact h.called_goto howned hholding rfl (fun _ _ ↦ rfl) rfl hcalled
  · have hbalance := h.balance
    simp_all [State.returning, State.waiting, State.goto_updaters]

/-- The accesses of a running updater. -/
theorem run (h : Ledger first log s retired) (howned : Owned s own retired)
    (hu : (s.updaters u).Running) : Ledger first (log.record s (.run u)) (run s u)
      (retiredAfter s retired (.run u)) := by
  have hcalled := h.called u
  have hcritical := howned.critical u
  cases hpc : s.updaters u
  case idle | owning | allocating | locking | waiting =>
    rw [hpc] at hu
    exact hu.elim
  all_goals simp only [LockedRcu.run, retiredAfter, Log.record, hpc]
  all_goals rw [hpc] at hcalled hcritical
  case testing newval n location =>
    split_ifs
    · obtain ⟨hpending, rfl⟩ := hcalled
      exact h.move howned (by simp [hpc]) (by simp [hpc]) hpending
    · exact h.move howned (by simp [hpc]) (by simp [hpc]) hcalled
  case fetching =>
    obtain ⟨hwhole, before, entry, after, rfl, rfl⟩ := hcritical
    have hload : s.load before.getLast? = entry := (Path.split hwhole).1
    exact h.move howned (by simp [hpc]) (by simp [hpc])
      ⟨hcalled.1, hcalled.2, by simp [hload]⟩
  case comparing newval n location entry =>
    obtain ⟨hpending, rfl, hentry⟩ := hcalled
    have hne := obj_ne howned (u := u) (n := n) (by rw [hpc]; rfl) (by rw [hpc]; trivial) hentry
    rw [if_neg hne]
    exact h.move howned (by simp [hpc]) (by simp [hpc]) ⟨hpending, rfl⟩
  case advancing => exact h.move howned (by simp [hpc]) (by simp [hpc]) hcalled
  case abandoning => exact hcalled.elim
  case discarding => exact hcalled.elim
  case reading => exact h.move howned (by simp [hpc]) (by simp [hpc]) hcalled
  case retiring => exact h.retire howned hpc
  case publishing => exact h.publish howned hpc
  case starting =>
    apply h.move howned _ _ (called_visit _ hcalled)
    all_goals
      unfold UpdaterPc.visit
      split_ifs <;> simp [hpc]
  case spinning =>
    split_ifs
    · exact h
    · exact h.move howned (by simp [hpc]) (by simp [hpc]) hcalled
  case following => exact h.move howned (by simp [hpc]) (by simp [hpc]) hcalled
  case taking => exact h.move howned (by simp [hpc]) (by simp [hpc]) hcalled
  case freeingObj => exact h.freeObj howned hpc
  case freeingNode => exact h.freeNode howned hpc
  case clearing => exact h.clear howned hpc
  case unlocking => exact h.release howned hpc

/-- A step of an updater outside the lock, which may write to addresses that are not in use. -/
theorem outside (h : Ledger first log s retired) (howned : Owned s own retired)
    {pc : UpdaterPc} (hu : ¬ (s.updaters u).Holding)
    (hupdaters : s'.updaters = s.updaters) (hsp : s'.sp = s.sp) (hcurrent : s'.current = s.current)
    (hpending : ∀ v, v ≠ u → log'.pending v = log.pending v)
    (hcompleted : log'.completed = log.completed) (hfreed : log'.freed = log.freed)
    (hobj : ∀ n, own n ≠ .unused → s'.obj n = s.obj n)
    (hself : Called s' retired (log'.pending u) pc) : Ledger first log' (s'.goto u pc) retired := by
  have hother : ∀ v, s.sp = some v → v ≠ u := by
    intro v hv heq
    exact hu ((howned.sp u).mpr (heq ▸ hv))
  apply h.step howned (u := u)
  · intro v hv
    rw [State.goto_updaters, if_neg hv, hupdaters]
  · exact hpending
  · exact hobj
  · exact hcurrent
  · exact hcompleted
  · exact hfreed
  · rw [State.returning, State.returning, State.goto_sp, hsp]
    cases hv : s.sp with
    | none => rfl
    | some v => simp only [State.goto_updaters, if_neg (hother v hv), hupdaters,
        hpending v (hother v hv)]
  · rw [State.waiting, State.waiting, State.goto_sp, hsp]
    cases hv : s.sp with
    | none => rfl
    | some v => simp only [State.goto_updaters, if_neg (hother v hv), hupdaters]
  · rw [State.goto_updaters, if_pos rfl]
    exact hself.congr (fun _ _ ↦ rfl) fun _ ↦ rfl

theorem acquire (h : Ledger first log s retired) (howned : Owned s own retired) {pc : UpdaterPc}
    (hsp : s.sp = none) (hreturns : pc ≠ .unlocking)
    (hstrips : ∀ tmp wantFree, pc ≠ .freeingNode tmp wantFree)
    (hself : Called s retired (log.pending u) pc) :
    Ledger first log ((s.setSp (some u)).goto u pc) retired := by
  apply h.step howned (u := u)
  · intro v hv
    exact (State.goto_updaters ..).trans (if_neg hv)
  · intro v _
    rfl
  · intro n _
    rfl
  · rfl
  · rfl
  · rfl
  · unfold State.returning
    grind
  · unfold State.waiting
    grind
  · rw [State.goto_updaters, if_pos rfl]
    exact hself.congr (fun _ _ ↦ rfl) fun _ ↦ rfl

end Updaters

/-- The readers change nothing that the ledger is about. -/
theorem congr_readers (h : Ledger first log s retired) (hobj : s'.obj = s.obj)
    (hcurrent : s'.current = s.current) (hsp : s'.sp = s.sp)
    (hupdaters : s'.updaters = s.updaters) :
    Ledger first log s' retired where
  called u := by
    rw [hupdaters]
    exact (h.called u).congr (fun n _ ↦ congrFun hobj n) fun _ ↦ rfl
  balance := by
    simpa only [State.returning, State.waiting, hobj, hcurrent, hsp, hupdaters] using h.balance

theorem update [DecidableEq Rid] [DecidableEq Uid] (h : Ledger first log s retired)
    (howned : Owned s own retired) {a : Action Rid Uid} (hguard : guard s a) :
    Ledger first (log.record s a) (update s a) (retiredAfter s retired a) := by
  cases a with
  | loadCurrent r => exact h.congr_readers rfl rfl rfl rfl
  | increment r =>
    obtain ⟨n, hr⟩ := hguard
    simp only [LockedRcu.update, hr]
    exact h.congr_readers rfl rfl rfl rfl
  | dereference r =>
    obtain ⟨n, obtained, hr⟩ := hguard
    simp only [LockedRcu.update, hr]
    exact h.congr_readers rfl rfl rfl rfl
  | decrement r =>
    obtain ⟨n, obtained, hr⟩ := hguard
    simp only [LockedRcu.update, hr]
    exact h.congr_readers rfl rfl rfl rfl
  | newObj u newval =>
    have hcalled := h.called u
    rw [hguard.1] at hcalled
    exact h.outside howned (by rw [hguard.1]; exact id) rfl rfl rfl (fun _ _ ↦ rfl) rfl rfl
      (fun _ _ ↦ rfl) hcalled
  | callAssign u newval =>
    have hu : s.updaters u = .owning newval := hguard
    exact h.outside howned (by rw [hu]; exact id) rfl rfl rfl
      (fun v hv ↦ Function.update_of_ne hv ..) rfl rfl (fun _ _ ↦ rfl) (Function.update_self ..)
  | newNode u node =>
    obtain ⟨⟨newval, hu⟩, hlive, -⟩ := hguard
    have hcalled := h.called u
    rw [hu] at hcalled
    have hunused := howned.own_eq_unused hlive
    simp only [LockedRcu.update, hu]
    have hobj : ∀ n, own n ≠ .unused →
        ((s.malloc node).setFields node newval 0 0).obj n = s.obj n := by
      intro n hn
      have hne : n ≠ node := by
        intro heq
        exact hn (by rw [heq, hunused])
      rw [State.setFields_obj, if_neg hne]
      rfl
    exact h.outside howned (by rw [hu]; exact id) rfl rfl rfl (fun _ _ ↦ rfl) rfl rfl hobj
      ⟨hcalled, Function.update_self ..⟩
  | callSynchronize u =>
    have hu : s.updaters u = .idle := hguard
    have hcalled := h.called u
    rw [hu] at hcalled
    exact h.outside howned (by rw [hu]; exact id) rfl rfl rfl (fun _ _ ↦ rfl) rfl rfl
      (fun _ _ ↦ rfl) hcalled
  | acquire u =>
    obtain ⟨⟨newval, node, hu⟩ | hu, hsp⟩ := hguard
    · have hcalled := h.called u
      rw [hu] at hcalled
      simp only [LockedRcu.update, hu]
      exact h.acquire howned hsp (by simp) (by simp) hcalled
    · have hcalled := h.called u
      rw [hu] at hcalled
      simp only [LockedRcu.update, hu]
      exact h.acquire howned hsp (by simp) (by simp) hcalled
  | run u => exact h.run howned hguard

end Ledger

theorem Fresh.ledger {start : State Rid Uid} (h : Fresh start) :
    Ledger (start.obj start.current) ⟨fun _ ↦ none, [], []⟩ start [] where
  called u := by
    rw [h.updaters]
    rfl
  balance := by simp [State.returning, State.waiting, h.sp]

/-! ## Runs -/

section Runs

variable [DecidableEq Rid] [DecidableEq Uid] {start : State Rid Uid}
  {history : List (Action Rid Uid)}

theorem run_ledger (hinit : Fresh start) (hlegal : (machine Rid Uid).Legal start history) :
    ∃ own retired, Owned ((machine Rid Uid).final start history) own retired ∧
      Ledger (start.obj start.current) (logOf start history)
        ((machine Rid Uid).final start history) retired := by
  apply Machine.legal_induction (fun history s ↦ ∃ own retired, Owned s own retired ∧
    Ledger (start.obj start.current) (logOf start history) s retired) _ _ hlegal
  · obtain ⟨own, howned⟩ := hinit.owned
    exact ⟨own, [], howned, hinit.ledger⟩
  · intro history a _ ih hguard
    obtain ⟨own, retired, howned, hledger⟩ := ih
    obtain ⟨own', howned'⟩ := howned.update hguard
    rw [logOf, Machine.observe_concat]
    exact ⟨own', _, howned', hledger.update howned hguard⟩

/-- `synchronize_rcu` has just returned. -/
def Synchronized (start : State Rid Uid) (history : List (Action Rid Uid)) : Prop :=
  ∃ before u, history = before ++ [.run u] ∧
    ((machine Rid Uid).final start before).updaters u = .unlocking ∧
    (logOf start before).pending u = none

/-- The retired list of a state in which nobody holds the lock, and where every assigned object
is. -/
structure Accounted (start : State Rid Uid) (history : List (Action Rid Uid))
    (s : State Rid Uid) (retired : List Addr) : Prop where
  path : s.Whole retired
  nodes : retired.Nodup
  objs : (retired.map s.obj).Nodup
  order : assigned start history =
    (logOf start history).freed ++ (retired.map s.obj ++ [s.obj s.current])
  once : (assigned start history).Nodup → ∀ p ∈ assigned start history,
    (logOf start history).freed.count p + (retired.map s.obj).count p +
      [s.obj s.current].count p = 1
  synchronized : Synchronized start history →
    retired = [] ∧ ((logOf start history).rcuFree s).freed = assigned start history

/-- `synchronize_rcu` leaves the list empty. -/
theorem Synchronized.node (h : Synchronized start history) (hinit : Fresh start)
    (hlegal : (machine Rid Uid).Legal start history) :
    ((machine Rid Uid).final start history).node = 0 := by
  obtain ⟨before, u, rfl, hpc, hpending⟩ := h
  obtain ⟨own, retired, howned, hledger⟩ :=
    run_ledger hinit ((Machine.legal_append ..).mp hlegal).1
  have hcalled := hledger.called u
  have hcritical := howned.critical u
  rw [hpc] at hcalled hcritical
  obtain rfl : retired = [] := hcalled hpending
  have hnode : ((machine Rid Uid).final start before).node = 0 := hcritical
  simpa [LockedRcu.update, run, hpc] using hnode

omit [DecidableEq Rid] [DecidableEq Uid] in
/-- The objects of different retired nodes are different. -/
theorem Owned.nodup_objs {s : State Rid Uid} {own : Addr → Use Uid} {retired : List Addr}
    (h : Owned s own retired) (hsp : s.sp = none) : (retired.map s.obj).Nodup := by
  have hstripped : ∀ u n, (s.updaters u).stripped? ≠ some n := by
    intro u n hn
    have hholding : (s.updaters u).Holding := by
      cases hpc : s.updaters u <;> rw [hpc] at hn <;> cases hn
      trivial
    exact nomatch hsp.symm.trans ((h.sp u).mp hholding)
  apply List.Nodup.map_on _ (List.nodup_append.mp h.nodup).1
  intro n hn m hm heq
  have hobj := h.objs n (List.mem_append_left _ hn) fun u ↦ hstripped u n
  rw [heq, h.objs m (List.mem_append_left _ hm) fun u ↦ hstripped u m] at hobj
  exact (Use.obj.inj hobj).symm

/-- **Every assigned object is current, retired or freed, and in one of these places only.** -/
theorem accounted (hinit : Fresh start) (hlegal : (machine Rid Uid).Legal start history)
    (hsp : ((machine Rid Uid).final start history).sp = none) :
    ∃ retired, Accounted start history ((machine Rid Uid).final start history) retired := by
  obtain ⟨own, retired, howned, hledger⟩ := run_ledger hinit hlegal
  have hpath := howned.whole hsp
  have horder : assigned start history = (logOf start history).freed ++
      (retired.map ((machine Rid Uid).final start history).obj ++
        [((machine Rid Uid).final start history).obj
          ((machine Rid Uid).final start history).current]) := by
    have hbalance := hledger.balance
    simp only [State.returning, State.waiting, hsp, Option.toList_none, List.append_nil]
      at hbalance
    exact hbalance
  refine ⟨retired, hpath, (List.nodup_append.mp howned.nodup).1, howned.nodup_objs hsp, horder,
    ?_, ?_⟩
  · intro hnodup p hp
    have hcount := List.count_eq_one_of_mem hnodup hp
    rw [horder, List.count_append, List.count_append, ← add_assoc] at hcount
    exact hcount
  · intro hsynchronized
    obtain rfl : retired = [] :=
      (Path.eq_nil_iff hpath howned.null_notMem).mpr (hsynchronized.node hinit hlegal)
    exact ⟨rfl, horder.symm⟩

end Runs

/-- Two assignments with a section in between, and then `synchronize_rcu`. -/
def assignTwice : List (Action Unit Unit) :=
  ([.newObj () 3, .callAssign () 3, .newNode () 4, .acquire ()] : List (Action Unit Unit)) ++
    List.replicate 5 (Action.run ()) ++
    ([.loadCurrent (), .increment (), .newObj () 5, .callAssign () 5, .newNode () 6,
      .acquire ()] : List (Action Unit Unit)) ++
    List.replicate 9 (Action.run ()) ++
    ([.decrement (), .callSynchronize (), .acquire ()] : List (Action Unit Unit)) ++
    List.replicate 13 (Action.run ())

theorem accounted_assignTwice :
    ∃ retired, Accounted oneNode assignTwice ((machine Unit Unit).final oneNode assignTwice)
      retired := by
  have hlegal : (machine Unit Unit).Legal oneNode assignTwice :=
    ⟨⟨rfl, rfl, by decide⟩, rfl, ⟨⟨3, rfl⟩, rfl, by decide⟩, ⟨.inl ⟨3, 4, rfl⟩, rfl⟩, trivial,
      trivial, trivial, trivial, trivial, rfl, ⟨4, rfl⟩, ⟨rfl, rfl, by decide⟩, rfl,
      ⟨⟨5, rfl⟩, rfl, by decide⟩, ⟨.inl ⟨5, 6, rfl⟩, rfl⟩, trivial, trivial, trivial, trivial,
      trivial, trivial, trivial, trivial, trivial, ⟨4, none, rfl⟩, rfl, ⟨.inr rfl, rfl⟩, trivial,
      trivial, trivial, trivial, trivial, trivial, trivial, trivial, trivial, trivial, trivial,
      trivial, trivial, trivial⟩
  exact accounted oneNode_fresh hlegal rfl

end ParallelPrograms.LockedRcu
