import ParallelPrograms.LockedRcu.Model
import Mathlib.Tactic.Tauto

/-!
# Who owns an allocated address

Every live address has exactly one use: it is the object or the node of a call of
`rcu_assign_pointer` that has not published it yet, a retired or published node, or the object of
such a node. `Owned` states this together with the shape of the retired list as the holder of the
lock sees it. It is kept by every action, whatever the readers do, because no updater writes to a
count and no reader writes to anything else.
-/

namespace ParallelPrograms.LockedRcu

open Concurrency LinkedList

/-- What an address is allocated for. -/
inductive Use (Uid : Type*) where
  | unused
  /-- The object that `u` is going to publish. -/
  | newval (u : Uid)
  /-- The node that `u` is going to publish. -/
  | newNode (u : Uid)
  /-- A retired or published node. -/
  | node
  /-- The object of the retired or published node `n`. -/
  | obj (n : Addr)

variable {Rid Uid : Type*}

namespace UpdaterPc

/-- The new object before it is stored to the new node. -/
def newval? : UpdaterPc → Option Addr
  | owning newval | allocating newval => some newval
  | _ => none

/-- The new node before it is published. -/
def newNode? : UpdaterPc → Option Addr
  | locking _ n | testing _ n _ | fetching _ n _ | comparing _ n _ _ | advancing _ n _
  | abandoning n | discarding n | reading n _ | retiring n _ _ | publishing n => some n
  | _ => none

/-- The node whose object has been freed. -/
def stripped? : UpdaterPc → Option Addr
  | freeingNode tmp _ => some tmp
  | _ => none

/-- The node that the scan of `synchronize_rcu` has passed and is going to free. -/
def tmp? : UpdaterPc → Option Addr
  | following tmp | taking tmp _ | freeingObj tmp _ _ | freeingNode tmp _ => some tmp
  | _ => none

end UpdaterPc

/-- A change of position that affects neither the lock nor the use of an address. -/
structure UpdaterPc.Quiet (pc pc' : UpdaterPc) : Prop where
  holding : pc'.Holding ↔ pc.Holding
  newval : ∀ a, pc'.newval? = some a → pc.newval? = some a
  newNode : ∀ n, pc'.newNode? = some n → pc.newNode? = some n
  stripped : pc.stripped? = pc'.stripped?

theorem UpdaterPc.visit_holding (wantFree : Addr) : (UpdaterPc.visit wantFree).Holding := by
  unfold UpdaterPc.visit
  split_ifs <;> trivial

@[simp]
theorem UpdaterPc.visit_newNode? (wantFree : Addr) :
    (UpdaterPc.visit wantFree).newNode? = none := by
  unfold UpdaterPc.visit
  split_ifs <;> rfl

theorem UpdaterPc.quiet_visit (wantFree : Addr) :
    UpdaterPc.starting.Quiet (.visit wantFree) := by
  unfold UpdaterPc.visit
  split_ifs <;> exact ⟨Iff.rfl, nofun, nofun, rfl⟩

@[simp]
theorem UpdaterPc.visit_tmp? (wantFree : Addr) : (UpdaterPc.visit wantFree).tmp? = none := by
  unfold UpdaterPc.visit
  split_ifs <;> rfl

/-- The retired list is `retired`, from `head->node` to the null pointer. -/
def State.Whole (s : State Rid Uid) (retired : List Addr) : Prop :=
  Path s.next s.node retired 0

/-- What an updater that holds the lock knows about the retired list. -/
def Critical (s : State Rid Uid) (retired : List Addr) : UpdaterPc → Prop
  | .idle | .owning _ | .allocating _ | .locking .. | .discarding _ | .waiting => True
  | .testing _ _ location => s.Whole retired ∧
      ∃ before after, retired = before ++ after ∧ location = before.getLast?
  | .fetching _ _ location | .comparing _ _ location _ | .advancing _ _ location =>
    s.Whole retired ∧
      ∃ before entry after, retired = before ++ entry :: after ∧ location = before.getLast?
  | .abandoning _ | .starting | .unlocking => s.Whole retired
  | .reading _ location => s.Whole retired ∧ location = retired.getLast?
  | .retiring _ location old => s.Whole retired ∧ location = retired.getLast? ∧ old = s.current
  -- between the two stores the published node is also on the list
  | .publishing _ => s.Whole (retired ++ [s.current])
  | .spinning n | .following n => ∃ rest, retired = n :: rest ∧ Path s.next (s.next n) rest 0
  | .taking n wantFree | .freeingNode n wantFree =>
    ∃ rest, retired = n :: rest ∧ Path s.next wantFree rest 0
  | .freeingObj n wantFree obj =>
    ∃ rest, retired = n :: rest ∧ Path s.next wantFree rest 0 ∧ obj = s.obj n
  | .clearing => retired = []

/-- A node that `u` has allocated and initialised. -/
structure Private (s : State Rid Uid) (own : Addr → Use Uid) (u : Uid) (n : Addr) : Prop where
  node : own n = .newNode u
  obj : own (s.obj n) = .newval u
  next : s.next n = 0

/-- The nodes `retired` wait for `synchronize_rcu`, in the order in which they were replaced, and
`own` says what each address is used for. -/
structure Owned (s : State Rid Uid) (own : Addr → Use Uid) (retired : List Addr) : Prop where
  null : own 0 = .unused
  live : ∀ a, s.live a = true ↔ own a ≠ .unused
  nodup : (retired ++ [s.current]).Nodup
  nodes : ∀ n ∈ retired ++ [s.current], own n = .node
  objs : ∀ n ∈ retired ++ [s.current], (∀ u, (s.updaters u).stripped? ≠ some n) →
    own (s.obj n) = .obj n
  last : s.next s.current = 0
  newval : ∀ u a, (s.updaters u).newval? = some a → own a = .newval u
  newNode : ∀ u n, (s.updaters u).newNode? = some n → Private s own u n
  sp : ∀ u, (s.updaters u).Holding ↔ s.sp = some u
  critical : ∀ u, Critical s retired (s.updaters u)
  whole : s.sp = none → s.Whole retired

/-- The retired nodes after an action. -/
def retiredAfter (s : State Rid Uid) (retired : List Addr) : Action Rid Uid → List Addr
  | .run u =>
    match s.updaters u with
    | .publishing _ => retired ++ [s.current]
    | .freeingNode .. => retired.tail
    | _ => retired
  | _ => retired

section Critical

variable {s s' : State Rid Uid} {retired : List Addr} {pc : UpdaterPc}

theorem critical_of_not_holding (h : ¬ pc.Holding) : Critical s retired pc := by
  cases pc <;> simp_all [UpdaterPc.Holding, Critical]

/-- Only the pointers and the objects of the nodes matter. -/
theorem Critical.congr (h : Critical s retired pc) (hcurrent : s'.current = s.current)
    (hnode : s'.node = s.node) (hnext : ∀ n ∈ retired ++ [s.current], s'.next n = s.next n)
    (hobj : ∀ n ∈ retired, s'.obj n = s.obj n) : Critical s' retired pc := by
  have hpath : ∀ {start rest stop}, (∀ n ∈ rest, n ∈ retired ++ [s.current]) →
      Path s.next start rest stop → Path s'.next start rest stop :=
    fun hsub hpath ↦ hpath.congr fun n hn ↦ hnext n (hsub n hn)
  have hwhole : s.Whole retired → s'.Whole retired := by
    rw [State.Whole, State.Whole, hnode]
    exact hpath fun n hn ↦ List.mem_append_left _ hn
  cases pc <;> simp only [Critical, hcurrent] at h ⊢ <;> try trivial
  case testing | fetching | comparing | advancing | reading | retiring =>
    exact ⟨hwhole h.1, h.2⟩
  case abandoning | starting | unlocking => exact hwhole h
  case publishing =>
    rw [State.Whole, hnode]
    exact hpath (fun n hn ↦ hn) h
  case spinning | following =>
    obtain ⟨rest, rfl, hrest⟩ := h
    rw [hnext _ (by simp)]
    exact ⟨rest, rfl, hpath (fun n hn ↦ by simp [hn]) hrest⟩
  case taking | freeingNode =>
    obtain ⟨rest, rfl, hrest⟩ := h
    exact ⟨rest, rfl, hpath (fun n hn ↦ by simp [hn]) hrest⟩
  case freeingObj =>
    obtain ⟨rest, rfl, hrest, rfl⟩ := h
    exact ⟨rest, rfl, hpath (fun n hn ↦ by simp [hn]) hrest, (hobj _ (by simp)).symm⟩

/-- The head of the loop `while (want_free)`. -/
theorem critical_visit {wantFree : Addr} (hpath : Path s.next wantFree retired 0)
    (hnull : 0 ∉ retired) : Critical s retired (.visit wantFree) := by
  unfold UpdaterPc.visit
  cases retired with
  | nil =>
    rw [if_pos (Path.nil_iff.mp hpath)]
    rfl
  | cons n rest =>
    obtain ⟨rfl, hrest⟩ := hpath
    rw [if_neg (List.ne_of_not_mem_cons hnull).symm]
    exact ⟨rest, rfl, hrest⟩

end Critical

namespace Owned

variable {s s' : State Rid Uid} {own : Addr → Use Uid} {retired : List Addr} {u : Uid}

theorem null_notMem (h : Owned s own retired) : 0 ∉ retired := fun hmem ↦ by
  have hnull := h.nodes 0 (List.mem_append_left _ hmem)
  rw [h.null] at hnull
  exact nomatch hnull

theorem not_holding (h : Owned s own retired) (hu : (s.updaters u).Holding) {v : Uid}
    (hne : v ≠ u) : ¬ (s.updaters v).Holding := fun hv ↦
  hne (Option.some.inj (((h.sp v).mp hv).symm.trans ((h.sp u).mp hu)))

theorem own_eq_unused (h : Owned s own retired) {a : Addr} (ha : s.live a = false) :
    own a = .unused := by
  have := h.live a
  grind

theorem tmp_ne_current (h : Owned s own retired) {n : Addr}
    (hu : (s.updaters u).tmp? = some n) : n ≠ s.current := by
  have hcritical := h.critical u
  obtain ⟨rest, rfl⟩ : ∃ rest, retired = n :: rest := by
    cases hpc : s.updaters u <;> simp only [hpc, UpdaterPc.tmp?, reduceCtorEq,
      Option.some.injEq] at hu <;> subst hu <;> rw [hpc] at hcritical
    case following | taking | freeingObj | freeingNode => exact hcritical.imp fun _ h ↦ h.1
  have := h.nodup
  grind

/-- The readers write only to the counts. -/
theorem congr_readers (h : Owned s own retired) (hlive : s'.live = s.live) (hobj : s'.obj = s.obj)
    (hnext : s'.next = s.next) (hnode : s'.node = s.node) (hcurrent : s'.current = s.current)
    (hsp : s'.sp = s.sp) (hupdaters : s'.updaters = s.updaters) : Owned s' own retired where
  null := h.null
  live := hlive ▸ h.live
  nodup := hcurrent ▸ h.nodup
  nodes := hcurrent ▸ h.nodes
  objs := by simpa only [hcurrent, hupdaters, hobj] using h.objs
  last := by rw [hnext, hcurrent, h.last]
  newval := hupdaters ▸ h.newval
  newNode := by
    rw [hupdaters]
    intro u n hn
    have := h.newNode u n hn
    exact ⟨this.node, hobj ▸ this.obj, hnext ▸ this.next⟩
  sp := by simpa only [hupdaters, hsp] using h.sp
  critical := by
    rw [hupdaters]
    exact fun u ↦ (h.critical u).congr hcurrent hnode (fun _ _ ↦ by rw [hnext])
      fun _ _ ↦ by rw [hobj]
  whole := by simpa only [hsp, State.Whole, hnext, hnode] using h.whole

section Updaters

variable [DecidableEq Uid]

/-- An updater moves on without writing. -/
theorem move (h : Owned s own retired) {pc : UpdaterPc} (hquiet : (s.updaters u).Quiet pc)
    (hcritical : Critical s retired pc) : Owned (s.goto u pc) own retired := by
  obtain ⟨hholding, hnewval, hnewNode, hstripped⟩ := hquiet
  constructor
  case null => exact h.null
  case live => exact h.live
  case nodup => exact h.nodup
  case nodes => exact h.nodes
  case objs => exact fun n hn hall ↦ h.objs n hn fun v ↦ by have := hall v; grind
  case last => exact h.last
  case newval => exact fun v a hv ↦ h.newval v a (by grind)
  case newNode =>
    intro v n hv
    have := h.newNode v n (by grind)
    exact ⟨this.node, this.obj, this.next⟩
  case sp => exact fun v ↦ by have := h.sp v; grind
  case critical =>
    intro v
    have hv : Critical s retired ((s.goto u pc).updaters v) := by
      rw [State.goto_updaters]
      split_ifs
      · exact hcritical
      · exact h.critical v
    exact hv.congr rfl rfl (fun _ _ ↦ rfl) fun _ _ ↦ rfl
  case whole => exact h.whole

/-- An updater without the lock allocates or frees the address `a`, which nobody else uses. -/
theorem own_step (h : Owned s own retired) {pc : UpdaterPc} {a : Addr} {use : Use Uid}
    (hs' : ∀ v, s'.updaters v = if v = u then pc else s.updaters v)
    (hnode : s'.node = s.node) (hcurrent : s'.current = s.current) (hsp : s'.sp = s.sp)
    (hnext : ∀ n, n ≠ a → s'.next n = s.next n) (hobj : ∀ n, n ≠ a → s'.obj n = s.obj n)
    (hlive : ∀ b, s'.live b = true ↔ Function.update own a use b ≠ .unused) (hnull : a ≠ 0)
    (ha : own a = .unused ∨ own a = .newNode u) (hu : ¬ (s.updaters u).Holding)
    (hpc : ¬ pc.Holding) (hstripped : (s.updaters u).stripped? = none)
    (hnewval : ∀ b, pc.newval? = some b → b = a ∧ use = .newval u)
    (hnewNode : ∀ n, pc.newNode? = some n → Private s' (Function.update own a use) u n) :
    Owned s' (Function.update own a use) retired := by
  have hown : ∀ b, b ≠ a → Function.update own a use b = own b :=
    fun b hb ↦ Function.update_of_ne hb ..
  have hnodes : ∀ n ∈ retired ++ [s.current], n ≠ a := by
    have := h.nodes
    grind
  have hother : ∀ v, v ≠ u → s'.updaters v = s.updaters v := fun v hv ↦ by rw [hs', if_neg hv]
  have hself : s'.updaters u = pc := by rw [hs', if_pos rfl]
  constructor
  case null => rw [hown 0 hnull.symm, h.null]
  case live => exact hlive
  case nodup => exact hcurrent ▸ h.nodup
  case nodes =>
    rw [hcurrent]
    exact fun n hn ↦ (hown n (hnodes n hn)).trans (h.nodes n hn)
  case objs =>
    rw [hcurrent]
    intro n hn hall
    have := h.objs n hn fun v ↦ by have := hall v; grind
    rw [hobj n (hnodes n hn), hown _ (by grind), this]
  case last => rw [hcurrent, hnext _ (hnodes _ (by simp)), h.last]
  case newval =>
    intro v b hb
    by_cases hv : v = u
    · subst hv
      obtain ⟨rfl, rfl⟩ := hnewval b (hself ▸ hb)
      exact Function.update_self ..
    · have := h.newval v b (hother v hv ▸ hb)
      grind
  case newNode =>
    intro v n hn
    by_cases hv : v = u
    · subst hv
      exact hnewNode n (hself ▸ hn)
    · have := h.newNode v n (hother v hv ▸ hn)
      have hne : n ≠ a := by have := this.node; grind
      have hne' : s.obj n ≠ a := by have := this.obj; grind
      exact ⟨(hown n hne).trans this.node, by rw [hobj n hne, hown _ hne', this.obj],
        (hnext n hne).trans this.next⟩
  case sp =>
    intro v
    have := h.sp v
    by_cases hv : v = u
    · subst hv
      rw [hself, hsp]
      grind
    · rw [hother v hv, hsp, this]
  case critical =>
    intro v
    by_cases hv : v = u
    · subst hv
      exact critical_of_not_holding (hself ▸ hpc)
    · rw [hother v hv]
      exact (h.critical v).congr hcurrent hnode (fun n hn ↦ hnext n (hnodes n hn))
        fun n hn ↦ hobj n (hnodes n (List.mem_append_left _ hn))
  case whole =>
    rw [hsp, State.Whole, hnode]
    exact fun hsp ↦ (h.whole hsp).congr fun n hn ↦
      hnext n (hnodes n (List.mem_append_left _ hn))

theorem newObj (h : Owned s own retired) {newval : Addr} (hu : s.updaters u = .idle)
    (hlive : s.live newval = false) (hnull : newval ≠ 0) :
    Owned ((s.malloc newval).goto u (.owning newval))
      (Function.update own newval (.newval u)) retired := by
  refine h.own_step (s.goto_updaters u · _) rfl rfl rfl (fun _ _ ↦ rfl) (fun _ _ ↦ rfl) ?_ hnull
    (.inl (h.own_eq_unused hlive)) (by simp [hu, UpdaterPc.Holding]) (by simp [UpdaterPc.Holding])
    (by simp [hu, UpdaterPc.stripped?]) (by simp [UpdaterPc.newval?])
    (by simp [UpdaterPc.newNode?])
  intro b
  have := h.live b
  grind [Function.update_apply]

theorem allocate (h : Owned s own retired) {newval node : Addr}
    (hu : s.updaters u = .allocating newval) (hlive : s.live node = false) (hnull : node ≠ 0) :
    Owned (((s.malloc node).setFields node newval 0 0).goto u (.locking newval node))
      (Function.update own node (.newNode u)) retired := by
  have hunused := h.own_eq_unused hlive
  refine h.own_step (s.goto_updaters u · _) rfl rfl rfl ?_ ?_ ?_ hnull
    (.inl hunused) (by simp [hu, UpdaterPc.Holding]) (by simp [UpdaterPc.Holding])
    (by simp [hu, UpdaterPc.stripped?]) (by simp [UpdaterPc.newval?]) ?_
  · grind
  · grind
  · intro b
    have := h.live b
    grind [Function.update_apply]
  · intro n hn
    obtain rfl : node = n := by simpa [UpdaterPc.newNode?] using hn
    have hnewval := h.newval u newval (by simp [hu, UpdaterPc.newval?])
    exact ⟨by simp, by grind [Function.update_apply], by grind⟩

theorem discard (h : Owned s own retired) {n : Addr} (hu : s.updaters u = .discarding n) :
    Owned ((s.free n).goto u .idle) (Function.update own n .unused) retired := by
  have hprivate := h.newNode u n (by simp [hu, UpdaterPc.newNode?])
  have hnull : n ≠ 0 := by
    have := h.null
    have := hprivate.node
    grind
  refine h.own_step (s.goto_updaters u · _) rfl rfl rfl (fun _ _ ↦ rfl) (fun _ _ ↦ rfl) ?_ hnull
    (.inr hprivate.node) (by simp [hu, UpdaterPc.Holding]) (by simp [UpdaterPc.Holding])
    (by simp [hu, UpdaterPc.stripped?]) (by simp [UpdaterPc.newval?])
    (by simp [UpdaterPc.newNode?])
  intro b
  have := h.live b
  grind [Function.update_apply]

theorem acquire (h : Owned s own retired) {pc : UpdaterPc} (hsp : s.sp = none)
    (hpc : pc.Holding) (hnewval : pc.newval? = none)
    (hnewNode : pc.newNode? = (s.updaters u).newNode?)
    (hstripped : pc.stripped? = (s.updaters u).stripped?)
    (hcritical : s.Whole retired → Critical s retired pc) :
    Owned ((s.setSp (some u)).goto u pc) own retired where
  null := h.null
  live := h.live
  nodup := h.nodup
  nodes := h.nodes
  objs n hn hall := h.objs n hn fun v ↦ by have := hall v; grind
  last := h.last
  newval v a hv := h.newval v a (by grind)
  newNode v n hv := by
    have := h.newNode v n (by grind)
    exact ⟨this.node, this.obj, this.next⟩
  sp v := by have := h.sp v; grind
  critical v := by
    have hv : Critical s retired (((s.setSp (some u)).goto u pc).updaters v) := by
      rw [State.goto_updaters]
      split_ifs
      · exact hcritical (h.whole hsp)
      · exact h.critical v
    exact hv.congr rfl rfl (fun _ _ ↦ rfl) fun _ _ ↦ rfl
  whole hnone := nomatch hnone

theorem release (h : Owned s own retired) {pc : UpdaterPc} (hu : (s.updaters u).Holding)
    (hwhole : s.Whole retired) (hpc : ¬ pc.Holding) (hnewval : pc.newval? = none)
    (hnewNode : ∀ n, pc.newNode? = some n → (s.updaters u).newNode? = some n)
    (hstripped : (s.updaters u).stripped? = pc.stripped?) :
    Owned ((s.setSp none).goto u pc) own retired where
  null := h.null
  live := h.live
  nodup := h.nodup
  nodes := h.nodes
  objs n hn hall := h.objs n hn fun v ↦ by have := hall v; grind
  last := h.last
  newval v a hv := h.newval v a (by grind)
  newNode v n hv := by
    have := h.newNode v n (by grind)
    exact ⟨this.node, this.obj, this.next⟩
  sp v := by
    have := h.sp v
    have := h.sp u
    grind
  critical v := by
    by_cases hv : v = u
    · subst hv
      exact critical_of_not_holding (by simpa [State.goto_updaters] using hpc)
    · have := h.not_holding hu hv
      exact critical_of_not_holding (by simpa [State.goto_updaters, hv] using this)
  whole _ := hwhole

/-- The lock holder moves to `pc` and keeps the lock. What the other updaters own stays. -/
theorem hold_step (h : Owned s own retired) {pc : UpdaterPc} {own' : Addr → Use Uid}
    {retired' : List Addr} (hs' : ∀ v, s'.updaters v = if v = u then pc else s.updaters v)
    (hu : (s.updaters u).Holding) (hpc : pc.Holding) (hsp : s'.sp = s.sp)
    (hown : ∀ b v, v ≠ u → own b = .newval v ∨ own b = .newNode v → own' b = own b)
    (hobj : s'.obj = s.obj) (hnext : ∀ b v, own b = .newNode v → s'.next b = s.next b)
    (hnewNode : ∀ n, pc.newNode? = some n → Private s' own' u n)
    (hnull : own' 0 = .unused) (hlive : ∀ b, s'.live b = true ↔ own' b ≠ .unused)
    (hnodup : (retired' ++ [s'.current]).Nodup)
    (hnodes : ∀ n ∈ retired' ++ [s'.current], own' n = .node)
    (hobjs : ∀ n ∈ retired' ++ [s'.current], pc.stripped? ≠ some n → own' (s.obj n) = .obj n)
    (hlast : s'.next s'.current = 0) (hcritical : Critical s' retired' pc) :
    Owned s' own' retired' := by
  have hother : ∀ v, v ≠ u → s'.updaters v = s.updaters v := fun v hv ↦ by rw [hs', if_neg hv]
  have hself : s'.updaters u = pc := by rw [hs', if_pos rfl]
  constructor
  case null => exact hnull
  case live => exact hlive
  case nodup => exact hnodup
  case nodes => exact hnodes
  case objs => exact fun n hn hall ↦ hobj ▸ hobjs n hn (hself ▸ hall u)
  case last => exact hlast
  case newval =>
    intro v a hv
    by_cases hne : v = u
    · subst hne
      rw [hself] at hv
      cases pc <;> simp [UpdaterPc.newval?, UpdaterPc.Holding] at hv hpc
    · have ha := h.newval v a (hother v hne ▸ hv)
      exact (hown a v hne (.inl ha)).trans ha
  case newNode =>
    intro v n hv
    by_cases hne : v = u
    · subst hne
      exact hnewNode n (hself ▸ hv)
    · have hn := h.newNode v n (hother v hne ▸ hv)
      exact ⟨(hown n v hne (.inr hn.node)).trans hn.node,
        hobj ▸ (hown _ v hne (.inl hn.obj)).trans hn.obj, (hnext n v hn.node).trans hn.next⟩
  case sp =>
    intro v
    have := h.sp v
    have := h.sp u
    rw [hs', hsp]
    grind
  case critical =>
    intro v
    rw [hs']
    split_ifs with hv
    · exact hcritical
    · exact critical_of_not_holding (h.not_holding hu hv)
  case whole =>
    intro hnone
    rw [hsp, (h.sp u).mp hu] at hnone
    exact nomatch hnone

theorem objs_of_holding (h : Owned s own retired) (hu : (s.updaters u).Holding) {n : Addr}
    (hn : n ∈ retired ++ [s.current]) (hstripped : (s.updaters u).stripped? ≠ some n) :
    own (s.obj n) = .obj n := by
  apply h.objs n hn
  intro v hv
  by_cases hne : v = u
  · exact hstripped (hne ▸ hv)
  · have hnot := h.not_holding hu hne
    cases hpc : s.updaters v <;> simp [hpc, UpdaterPc.stripped?, UpdaterPc.Holding] at hv hnot

/-- The store that appends the published node to the retired list. -/
theorem retire (h : Owned s own retired) {n old : Addr} {location : Option Addr}
    (hu : s.updaters u = .retiring n location old) :
    Owned ((s.store location old).goto u (.publishing n)) own retired := by
  have hholding : (s.updaters u).Holding := by simp [hu, UpdaterPc.Holding]
  have hn := h.newNode u n (by simp [hu, UpdaterPc.newNode?])
  obtain ⟨hwhole, rfl, rfl⟩ : Critical s retired (.retiring n location old) := hu ▸ h.critical u
  have hnext : ∀ m, m ∉ retired → (s.store retired.getLast? s.current).next m = s.next m := by
    intro m hm
    rw [State.store_next, if_neg fun hlast ↦ hm (List.mem_of_getLast? hlast)]
  have hprivate : ∀ m v, own m = .newNode v →
      (s.store retired.getLast? s.current).next m = s.next m := fun m v hm ↦
    hnext m fun hmem ↦ nomatch (h.nodes m (List.mem_append_left _ hmem)).symm.trans hm
  have hlast : (s.store retired.getLast? s.current).next s.current = 0 := calc
    _ = s.next s.current :=
      hnext _ fun hm ↦ (List.nodup_append.mp h.nodup).2.2 _ hm _ (by simp) rfl
    _ = 0 := h.last
  refine h.hold_step ((s.store _ _).goto_updaters u · _) hholding trivial rfl (fun _ _ _ _ ↦ rfl)
    rfl hprivate ?_ h.null h.live h.nodup h.nodes
    (fun m hm _ ↦ h.objs_of_holding hholding hm (by simp [hu, UpdaterPc.stripped?])) hlast ?_
  · intro m hm
    obtain rfl : n = m := by simpa [UpdaterPc.newNode?] using hm
    exact ⟨hn.node, hn.obj, (hprivate n u hn.node).trans hn.next⟩
  · refine Path.append_iff.mpr ⟨s.current, ?_, rfl, hlast⟩
    cases retired using List.reverseRecOn with
    | nil => rfl
    | append_singleton earlier x =>
      have hstore := Path.store_last s.current hwhole (List.nodup_append.mp h.nodup).1
      simp only [State.goto_node, State.store_node, List.getLast?_concat, Option.elim_some]
      exact hstore.congr fun y _ ↦ by simp [State.store_next, Function.update_apply, eq_comm]

/-- The store that publishes the new node. -/
theorem publish (h : Owned s own retired) {n : Addr} (hu : s.updaters u = .publishing n) :
    Owned ((s.setCurrent n).goto u .unlocking)
      (Function.update (Function.update own n .node) (s.obj n) (.obj n))
      (retired ++ [s.current]) := by
  have hholding : (s.updaters u).Holding := by simp [hu, UpdaterPc.Holding]
  have hn := h.newNode u n (by simp [hu, UpdaterPc.newNode?])
  have hwhole : Critical s retired (.publishing n) := hu ▸ h.critical u
  have hnode := hn.node
  have hobj := hn.obj
  have hnodes := h.nodes
  have hnull := h.null
  have hobjs : ∀ m ∈ retired ++ [s.current], own (s.obj m) = .obj m := fun m hm ↦
    h.objs_of_holding hholding hm (by simp [hu, UpdaterPc.stripped?])
  refine h.hold_step ((s.setCurrent n).goto_updaters u · _) hholding trivial rfl ?_ rfl
    (fun _ _ _ ↦ rfl) nofun ?_ ?_ ?_ ?_ ?_ hn.next hwhole
  · grind [Function.update_apply]
  · grind [Function.update_apply]
  · intro b
    have := h.live b
    grind [Function.update_apply]
  · have := h.nodup
    have : n ∉ retired ++ [s.current] := fun hmem ↦ by grind
    grind
  · grind [Function.update_apply]
  · grind [Function.update_apply]

theorem freeObj (h : Owned s own retired) {n wantFree obj : Addr}
    (hu : s.updaters u = .freeingObj n wantFree obj) :
    Owned ((s.free obj).goto u (.freeingNode n wantFree)) (Function.update own obj .unused)
      retired := by
  have hholding : (s.updaters u).Holding := by simp [hu, UpdaterPc.Holding]
  obtain ⟨rest, hretired, hrest, rfl⟩ : Critical s retired (.freeingObj n wantFree obj) :=
    hu ▸ h.critical u
  have hobjs : ∀ m ∈ retired ++ [s.current], own (s.obj m) = .obj m := fun m hm ↦
    h.objs_of_holding hholding hm (by simp [hu, UpdaterPc.stripped?])
  have hn := hobjs n (by simp [hretired])
  have hnodes := h.nodes
  have hnull := h.null
  refine h.hold_step ((s.free _).goto_updaters u · _) hholding trivial rfl ?_ rfl
    (fun _ _ _ ↦ rfl) nofun ?_ ?_ h.nodup ?_ ?_ h.last ⟨rest, hretired, hrest⟩
  · grind [Function.update_apply]
  · grind [Function.update_apply]
  · intro b
    have := h.live b
    grind [Function.update_apply]
  · grind [Function.update_apply]
  · grind [Function.update_apply, UpdaterPc.stripped?]

theorem freeNode (h : Owned s own retired) {n wantFree : Addr}
    (hu : s.updaters u = .freeingNode n wantFree) :
    Owned ((s.free n).goto u (.visit wantFree)) (Function.update own n .unused)
      retired.tail := by
  have hholding : (s.updaters u).Holding := by simp [hu, UpdaterPc.Holding]
  obtain ⟨rest, rfl, hrest⟩ : Critical s retired (.freeingNode n wantFree) := hu ▸ h.critical u
  have hnodup := h.nodup
  have hnodes := h.nodes
  have hnull := h.null
  have hn : n ∉ rest ++ [s.current] := (List.nodup_cons.mp hnodup).1
  have hobjs : ∀ m ∈ rest ++ [s.current], own (s.obj m) = .obj m := fun m hm ↦
    h.objs_of_holding hholding (List.mem_cons_of_mem _ hm) fun hm' ↦ by
      rw [hu, UpdaterPc.stripped?, Option.some.injEq] at hm'
      exact hn (hm' ▸ hm)
  have hnode := hnodes n (by simp)
  refine h.hold_step ((s.free _).goto_updaters u · _) hholding (UpdaterPc.visit_holding _) rfl ?_
    rfl (fun _ _ _ ↦ rfl) (by simp) ?_ ?_ (List.nodup_cons.mp hnodup).2 ?_ ?_ h.last
    (critical_visit hrest ?_)
  · grind [Function.update_apply]
  · grind [Function.update_apply]
  · intro b
    have := h.live b
    grind [Function.update_apply]
  · grind [Function.update_apply]
  · grind [Function.update_apply]
  · exact fun hmem ↦ h.null_notMem (List.mem_cons_of_mem _ hmem)

theorem clear (h : Owned s own retired) (hu : s.updaters u = .clearing) :
    Owned ((s.setNode 0).goto u .unlocking) own retired := by
  have hholding : (s.updaters u).Holding := by simp [hu, UpdaterPc.Holding]
  obtain rfl : Critical s retired .clearing := hu ▸ h.critical u
  exact h.hold_step ((s.setNode 0).goto_updaters u · _) hholding trivial rfl (fun _ _ _ _ ↦ rfl)
    rfl (fun _ _ _ ↦ rfl) nofun h.null h.live h.nodup h.nodes
    (fun m hm _ ↦ h.objs_of_holding hholding hm (by simp [hu, UpdaterPc.stripped?])) h.last rfl

/-- The accesses of a running updater. -/
theorem run (h : Owned s own retired) (hu : (s.updaters u).Running) :
    ∃ own', Owned (run s u) own' (retiredAfter s retired (.run u)) := by
  have hcritical := h.critical u
  cases hpc : s.updaters u
  case idle | owning | allocating | locking | waiting =>
    rw [hpc] at hu
    exact hu.elim
  all_goals simp only [LockedRcu.run, retiredAfter, hpc]
  all_goals rw [hpc] at hcritical
  case testing newval node location =>
    obtain ⟨hwhole, before, after, rfl, rfl⟩ := hcritical
    have hload : Path s.next (s.load before.getLast?) after 0 := Path.split hwhole
    have hnull : 0 ∉ after := fun hmem ↦ h.null_notMem (List.mem_append_right _ hmem)
    have hempty := hload.eq_nil_iff hnull
    split_ifs with hzero
    · obtain rfl := hempty.mpr hzero
      refine ⟨own, h.move (hpc ▸ ⟨Iff.rfl, nofun, fun _ hn ↦ hn, rfl⟩) ?_⟩
      simpa [Critical] using hwhole
    · obtain ⟨entry, rest, rfl⟩ := List.exists_cons_of_ne_nil fun hnil ↦ hzero (hempty.mp hnil)
      exact ⟨own, h.move (hpc ▸ ⟨Iff.rfl, nofun, fun _ hn ↦ hn, rfl⟩)
        ⟨hwhole, before, entry, rest, rfl, rfl⟩⟩
  case fetching =>
    exact ⟨own, h.move (hpc ▸ ⟨Iff.rfl, nofun, fun _ hn ↦ hn, rfl⟩) hcritical⟩
  case comparing =>
    split_ifs
    · exact ⟨own, h.move (hpc ▸ ⟨Iff.rfl, nofun, fun _ hn ↦ hn, rfl⟩) hcritical.1⟩
    · exact ⟨own, h.move (hpc ▸ ⟨Iff.rfl, nofun, fun _ hn ↦ hn, rfl⟩) hcritical⟩
  case advancing =>
    obtain ⟨hwhole, before, entry, after, rfl, rfl⟩ := hcritical
    have hload : s.load before.getLast? = entry := (Path.split hwhole).1
    refine ⟨own, h.move (hpc ▸ ⟨Iff.rfl, nofun, fun _ hn ↦ hn, rfl⟩)
      ⟨hwhole, before ++ [entry], after, by simp, by simp [hload]⟩⟩
  case abandoning =>
    exact ⟨own, h.release (by simp [hpc, UpdaterPc.Holding]) hcritical (by simp [UpdaterPc.Holding])
      rfl (by simp [hpc, UpdaterPc.newNode?]) (by simp [hpc, UpdaterPc.stripped?])⟩
  case discarding => exact ⟨_, h.discard hpc⟩
  case reading =>
    exact ⟨own, h.move (hpc ▸ ⟨Iff.rfl, nofun, fun _ hn ↦ hn, rfl⟩)
      ⟨hcritical.1, hcritical.2, rfl⟩⟩
  case retiring => exact ⟨own, h.retire hpc⟩
  case publishing => exact ⟨_, h.publish hpc⟩
  case starting =>
    exact ⟨own, h.move (hpc ▸ UpdaterPc.quiet_visit _) (critical_visit hcritical h.null_notMem)⟩
  case spinning =>
    split_ifs
    · exact ⟨own, h⟩
    · exact ⟨own, h.move (hpc ▸ ⟨Iff.rfl, nofun, fun _ hn ↦ hn, rfl⟩) hcritical⟩
  case following =>
    exact ⟨own, h.move (hpc ▸ ⟨Iff.rfl, nofun, fun _ hn ↦ hn, rfl⟩) hcritical⟩
  case taking =>
    obtain ⟨rest, hretired, hrest⟩ := hcritical
    exact ⟨own, h.move (hpc ▸ ⟨Iff.rfl, nofun, fun _ hn ↦ hn, rfl⟩)
      ⟨rest, hretired, hrest, rfl⟩⟩
  case freeingObj => exact ⟨_, h.freeObj hpc⟩
  case freeingNode => exact ⟨_, h.freeNode hpc⟩
  case clearing => exact ⟨own, h.clear hpc⟩
  case unlocking =>
    exact ⟨own, h.release (by simp [hpc, UpdaterPc.Holding]) hcritical (by simp [UpdaterPc.Holding])
      rfl (by simp [UpdaterPc.newNode?]) (by simp [hpc, UpdaterPc.stripped?])⟩

end Updaters

/-- **The ownership of the addresses is kept by every action.** -/
theorem update [DecidableEq Rid] [DecidableEq Uid] (h : Owned s own retired)
    {a : Action Rid Uid} (hguard : guard s a) :
    ∃ own', Owned (update s a) own' (retiredAfter s retired a) := by
  cases a with
  | loadCurrent r => exact ⟨own, h.congr_readers rfl rfl rfl rfl rfl rfl rfl⟩
  | increment r =>
    obtain ⟨n, hr⟩ := hguard
    simp only [LockedRcu.update, hr]
    exact ⟨own, h.congr_readers rfl rfl rfl rfl rfl rfl rfl⟩
  | dereference r =>
    obtain ⟨n, obtained, hr⟩ := hguard
    simp only [LockedRcu.update, hr]
    exact ⟨own, h.congr_readers rfl rfl rfl rfl rfl rfl rfl⟩
  | decrement r =>
    obtain ⟨n, obtained, hr⟩ := hguard
    simp only [LockedRcu.update, hr]
    exact ⟨own, h.congr_readers rfl rfl rfl rfl rfl rfl rfl⟩
  | newObj u newval =>
    obtain ⟨hu, hlive, hnull⟩ := hguard
    exact ⟨_, h.newObj hu hlive hnull⟩
  | callAssign u newval =>
    have hu : s.updaters u = .owning newval := hguard
    exact ⟨own, h.move (hu ▸ ⟨Iff.rfl, fun _ ha ↦ ha, nofun, rfl⟩) trivial⟩
  | newNode u node =>
    obtain ⟨⟨newval, hu⟩, hlive, hnull⟩ := hguard
    simp only [LockedRcu.update, hu]
    exact ⟨_, h.allocate hu hlive hnull⟩
  | callSynchronize u =>
    have hu : s.updaters u = .idle := hguard
    exact ⟨own, h.move (hu ▸ ⟨Iff.rfl, nofun, nofun, rfl⟩) trivial⟩
  | acquire u =>
    obtain ⟨⟨newval, node, hu⟩ | hu, hsp⟩ := hguard
    · simp only [LockedRcu.update, hu]
      exact ⟨own, h.acquire hsp trivial rfl (by simp [hu, UpdaterPc.newNode?])
        (by simp [hu, UpdaterPc.stripped?]) fun hwhole ↦ ⟨hwhole, [], retired, rfl, rfl⟩⟩
    · simp only [LockedRcu.update, hu]
      exact ⟨own, h.acquire hsp trivial rfl (by simp [hu, UpdaterPc.newNode?])
        (by simp [hu, UpdaterPc.stripped?]) id⟩
  | run u => exact h.run hguard

end Owned

/-- What `__rcu_init` sets up. -/
theorem Fresh.owned {s : State Rid Uid} (h : Fresh s) :
    ∃ own : Addr → Use Uid, Owned s own [] := by
  refine ⟨fun a ↦ if a = s.current then .node
    else if a = s.obj s.current then .obj s.current else .unused, ?_⟩
  have := h.distinct
  have := h.current
  have := h.obj
  have hupdaters := h.updaters
  refine ⟨by grind, ?_, by simp, by simp, by simpa using fun _ ↦ h.distinct, h.next, ?_, ?_, ?_,
    ?_, fun _ ↦ h.node⟩
  · intro a
    rw [h.live]
    grind
  · simp [hupdaters, UpdaterPc.newval?]
  · simp [hupdaters, UpdaterPc.newNode?]
  · simp [hupdaters, UpdaterPc.Holding, h.sp]
  · simp [hupdaters, Critical]

end ParallelPrograms.LockedRcu
