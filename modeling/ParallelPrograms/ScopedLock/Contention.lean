import ParallelPrograms.ScopedLock.Exclusion

/-!
# Contention on a scoped lock

The acquire decides on the id that it finds in the slot before it has the mutex. The id belongs to
the section that some thread is inside at this moment, and when its site is another one with the
same slot the acquire returns `-1`, so that the program is aborted instead of waiting. The sites of
a translation unit have the ids 1, 2, 3, ... So the first two sites with one slot are the ones with
the ids 1 and 33.
-/

namespace ParallelPrograms.ScopedLock

open Concurrency

variable {Tid : Type*}

/-- The thread that takes the action. -/
def Action.thread : Action Tid → Tid
  | enter t _ | load t | lock t | store t | leave t | check t | clear t | unlock t => t

/-- `scoped_lock(SL_POSIX_MUTEX)` at one of the `n` sites of a translation unit. -/
def Lock.Site (n : ℕ) (lock : Lock) : Prop := lock.typeFlags = slPosixMutex ∧ lock.id.toNat ≤ n

/-- Sections begin at the sites of a translation unit, outside of other sections. -/
def Unnested (n : ℕ) (s : State Tid) (a : Action Tid) : Prop :=
  ∀ t lock, a = .enter t lock → lock.Site n ∧ (s.threads t).sections = []

/-- A thread that comes to the load of the id finds nobody inside a section of another site with the
same slot. -/
def NoClash (s : State Tid) (a : Action Tid) : Prop :=
  ∀ t lock, a = .load t → (s.threads t).phase = .loading lock →
    ∀ u, ∀ other ∈ (s.threads u).inside, other.slot = lock.slot → other.id = lock.id

/-- Contention only delays: `sl_acquire_posix_mutex_lock` has not returned `-1`, and a thread that
waits for a mutex waits for a thread that can go on. -/
structure OnlyWaits (s : State Tid) : Prop where
  acquired : s.failed ≠ some .acquire
  delayed : ∀ t lock, (s.threads t).phase = .locking lock → (s.slots lock.slot).owner = none ∨
    ∃ u a, (s.slots lock.slot).owner = some u ∧ a.thread = u ∧ guard s a

/-! ## What is stored in the slots -/

/-- The id of a slot belongs to a section that some thread is inside. -/
def Stored (s : State Tid) : Prop :=
  ∀ i, (s.slots i).id = 0 ∨
    ∃ u, ∃ lock ∈ (s.threads u).inside, lock.slot = i ∧ lock.id = (s.slots i).id

/-- Every thread is at one of the sites or at none, and no assertion about a type has failed. -/
structure Sited (n : ℕ) (s : State Tid) : Prop where
  sites : ∀ t, (s.threads t).locks = [] ∨ ∃ lock, lock.Site n ∧ (s.threads t).locks = [lock]
  typed : s.failed ≠ some .type

section Steps

variable [DecidableEq Tid] {s : State Tid} {t : Tid} {lock : Lock} {phase : Phase}
  {sections : List Lock} {n : ℕ} {a : Action Tid}

omit [DecidableEq Tid] in
theorem setOwner_id (i j : Slot) (owner : Option Tid) :
    ((s.setOwner i owner).slots j).id = (s.slots j).id := by
  rw [State.setOwner_slots]
  split_ifs with heq
  · rw [heq]
  · rfl

omit [DecidableEq Tid] in
theorem Stored.setOwner (h : Stored s) (i : Slot) (owner : Option Tid) :
    Stored (s.setOwner i owner) := by
  intro j
  rw [setOwner_id]
  exact h j

/-- A thread goes on, inside the same sections. -/
theorem Stored.goto (h : Stored s)
    (hinside : (Thread.mk phase sections).inside = (s.threads t).inside) :
    Stored (s.goto t phase sections) := by
  intro i
  rcases h i with hzero | ⟨u, lock, hlock, hslot⟩
  · exact .inl hzero
  · refine .inr ⟨u, lock, ?_, hslot⟩
    rw [State.goto_threads]
    split_ifs with hut
    · rwa [hinside, ← hut]
    · exact hlock

/-- The id of a section is stored, and the section begins. -/
theorem Stored.storeId (h : Stored s) (ht : s.threads t = ⟨.storing lock, sections⟩) :
    Stored ((s.setId lock.slot lock.id).goto t .running (lock :: sections)) := by
  intro i
  rw [State.goto_slots, State.setId_slots]
  split_ifs with hslot
  · refine .inr ⟨t, lock, ?_, hslot.symm, rfl⟩
    rw [State.goto_threads, if_pos rfl]
    exact List.mem_cons_self
  · rcases h i with hzero | ⟨u, other, hother, hi⟩
    · exact .inl hzero
    · refine .inr ⟨u, other, ?_, hi⟩
      rw [State.goto_threads, State.setId_threads]
      split_ifs with hut
      · rw [hut, ht] at hother
        exact List.mem_cons_of_mem _ hother
      · exact hother

/-- The slot of a section that ends is cleared. -/
theorem Stored.clearId (h : Stored s) (ht : s.threads t = ⟨.clearing lock, sections⟩) :
    Stored ((s.setId lock.slot 0).goto t (.unlocking lock) sections) := by
  intro i
  rw [State.goto_slots, State.setId_slots]
  split_ifs with hslot
  · exact .inl rfl
  · rcases h i with hzero | ⟨u, other, hother, hi, hid⟩
    · exact .inl hzero
    · refine .inr ⟨u, other, ?_, hi, hid⟩
      rw [State.goto_threads, State.setId_threads]
      split_ifs with hut
      · rw [hut, ht] at hother
        refine (List.mem_cons.mp hother).resolve_left ?_
        rintro rfl
        exact hslot hi.symm
      · exact hother

theorem Stored.update (h : Stored s) (hguard : guard s a) : Stored (update s a) := by
  cases a with
  | enter t lock =>
    obtain ⟨sections, ht⟩ := Thread.exists_eq_mk hguard.2
    simp only [ScopedLock.update, ht]
    split_ifs
    · exact h
    · exact h.goto (by rw [ht]; rfl)
    · exact h
  | load t =>
    obtain ⟨-, lock, hphase⟩ := hguard
    obtain ⟨sections, ht⟩ := Thread.exists_eq_mk hphase
    simp only [ScopedLock.update, ht]
    split_ifs
    · exact h.goto (by rw [ht]; rfl)
    · exact h
  | lock t =>
    obtain ⟨-, lock, hphase, -⟩ := hguard
    obtain ⟨sections, ht⟩ := Thread.exists_eq_mk hphase
    simp only [ScopedLock.update, ht]
    exact (h.setOwner lock.slot (some t)).goto (by rw [State.setOwner_threads, ht]; rfl)
  | store t =>
    obtain ⟨-, lock, hphase⟩ := hguard
    obtain ⟨sections, ht⟩ := Thread.exists_eq_mk hphase
    simp only [ScopedLock.update, ht]
    exact h.storeId ht
  | leave t =>
    obtain ⟨-, hphase, hsections⟩ := hguard
    obtain ⟨sections, ht⟩ := Thread.exists_eq_mk hphase
    rw [ht] at hsections
    obtain ⟨lock, rest, rfl⟩ := List.exists_cons_of_ne_nil hsections
    simp only [ScopedLock.update, ht]
    split_ifs
    · exact h.goto (by rw [ht]; rfl)
    · exact h
  | check t =>
    obtain ⟨-, lock, hphase⟩ := hguard
    obtain ⟨sections, ht⟩ := Thread.exists_eq_mk hphase
    simp only [ScopedLock.update, ht]
    split_ifs
    · exact h.goto (by rw [ht]; rfl)
    · exact h
  | clear t =>
    obtain ⟨-, lock, hphase⟩ := hguard
    obtain ⟨sections, ht⟩ := Thread.exists_eq_mk hphase
    simp only [ScopedLock.update, ht]
    exact h.clearId ht
  | unlock t =>
    obtain ⟨-, lock, hphase⟩ := hguard
    obtain ⟨sections, ht⟩ := Thread.exists_eq_mk hphase
    simp only [ScopedLock.update, ht]
    exact (h.setOwner lock.slot none).goto (by rw [State.setOwner_threads, ht]; rfl)

/-- Apart from the entry of a section, a step leaves the locks of a thread or takes one away. -/
theorem locks_update (hguard : guard s a) (ha : ∀ lock, a ≠ .enter t lock) :
    ((update s a).threads t).locks = (s.threads t).locks ∨
      ((update s a).threads t).locks = (s.threads t).locks.tail := by
  by_cases hthread : a.thread = t
  · subst hthread
    cases a with
    | enter t lock => exact absurd rfl (ha lock)
    | _ =>
      grind [guard, update, Thread.locks, Phase.lock?, Action.thread, List.tail_cons,
        List.singleton_append]
  · cases a <;> grind [guard, update, Action.thread]

omit [DecidableEq Tid] in
theorem Lock.Site.flag (h : lock.Site n) : lock.typeFlags &&& slPosixMutex ≠ 0 := by
  rw [h.1]
  decide

omit [DecidableEq Tid] in
theorem Lock.Site.mask (h : lock.Site n) : lock.typeFlags &&& slTypeLockMask ≠ 0 := h.flag

theorem enter_eq (h : lock.Site n) :
    update s (.enter t lock) = s.goto t (.loading lock) (s.threads t).sections := by
  rw [update, if_neg h.mask, if_pos h.flag]

theorem Sited.update (h : Sited n s) (hguard : guard s a) (ha : Unnested n s a) :
    Sited n (update s a) := by
  constructor
  · intro t
    by_cases henter : ∃ lock, a = .enter t lock
    · obtain ⟨lock, rfl⟩ := henter
      obtain ⟨hsite, hsections⟩ := ha t lock rfl
      right
      refine ⟨lock, hsite, ?_⟩
      rw [enter_eq hsite, State.goto_threads, if_pos rfl, hsections]
      rfl
    · have hlocks := locks_update hguard fun lock hlock ↦ henter ⟨lock, hlock⟩
      rcases h.sites t with hnil | ⟨lock, hsite, hlock⟩
      · left
        rcases hlocks with heq | heq <;> rw [heq, hnil]
        rfl
      · rcases hlocks with heq | heq
        · exact .inr ⟨lock, hsite, heq.trans hlock⟩
        · left
          rw [heq, hlock]
          rfl
  · cases a with
    | enter t lock =>
      rw [enter_eq (ha t lock rfl).1]
      exact h.typed
    | _ => grind [ScopedLock.update, guard]

/-- The acquire fails exactly when another section has the slot. -/
theorem acquire_update (hexclusive : Exclusive s) (hstored : Stored s) (hguard : guard s a) :
    (update s a).failed = some .acquire ↔ ¬ NoClash s a := by
  cases a with
  | load t =>
    obtain ⟨hnone, lock, hphase⟩ := hguard
    obtain ⟨sections, ht⟩ := Thread.exists_eq_mk hphase
    simp only [update, ht]
    split_ifs with htemp
    · apply iff_of_false
      · rw [State.goto_failed, hnone]
        intro hfailed
        cases hfailed
      · apply not_not.mpr
        intro u lock' hu hphase' v other hother hslot
        cases hu
        obtain rfl : lock = lock' := Phase.loading.inj (hphase.symm.trans hphase')
        have hid := hexclusive.id v other hother
        rw [hslot] at hid
        rcases htemp with hzero | heq
        · exact absurd (hid.symm.trans hzero.symm) other.id_ne_zero
        · exact hid.symm.trans heq.symm
    · apply iff_of_true rfl
      intro hno
      apply htemp
      rcases hstored lock.slot with hzero | ⟨u, other, hother, hslot, hid⟩
      · exact .inl hzero.symm
      · exact .inr ((hno t lock rfl hphase u other hother hslot).symm.trans hid)
  | _ =>
    apply iff_of_false
    · grind [update, guard]
    · apply not_not.mpr
      intro t lock heq
      cases heq

omit [DecidableEq Tid] in
/-- A thread with a mutex can go on. -/
theorem owner_goes_on (hexclusive : Exclusive s) (hsited : Sited n s) (hnone : s.failed = none)
    {i : Slot} (howner : (s.slots i).owner = some t) : ∃ a, a.thread = t ∧ guard s a := by
  have hheld := (hexclusive.owner i t).mp howner
  have hsites := hsited.sites t
  rcases hthread : s.threads t with ⟨phase, sections⟩
  have hphase : (s.threads t).phase = phase := congrArg Thread.phase hthread
  have hsections : (s.threads t).sections = sections := congrArg Thread.sections hthread
  rw [hthread] at hheld hsites
  cases phase with
  | running =>
    refine ⟨.leave t, rfl, hnone, hphase, ?_⟩
    rw [hsections]
    rintro rfl
    cases hheld
  | loading lock =>
    exact ⟨.load t, rfl, hnone, lock, hphase⟩
  | locking lock =>
    -- a thread that waits for a mutex has none
    rcases hsites with hnil | ⟨_, -, hlock⟩
    · cases hnil
    · obtain ⟨-, rfl⟩ := List.cons.inj hlock
      cases hheld
  | storing lock => exact ⟨.store t, rfl, hnone, lock, hphase⟩
  | checking lock => exact ⟨.check t, rfl, hnone, lock, hphase⟩
  | clearing lock => exact ⟨.clear t, rfl, hnone, lock, hphase⟩
  | unlocking lock => exact ⟨.unlock t, rfl, hnone, lock, hphase⟩

end Steps

/-! ## Runs -/

section Runs

variable [DecidableEq Tid] {history : List (Action Tid)} {s : State Tid} {n : ℕ}

theorem run_stored (hrun : (machine Tid).Run history s) : Stored s := by
  apply hrun.invariant
  · rintro _ rfl i
    exact .inl rfl
  · intro s a h hguard
    exact h.update hguard

theorem run_sited (hrun : ((machine Tid).when (Unnested n)).Run history s) : Sited n s := by
  apply hrun.invariant
  · rintro _ rfl
    exact ⟨fun t ↦ .inl rfl, nofun⟩
  · intro s a h hguard
    exact h.update hguard.1 hguard.2

/-- A run, nested or not, aborts in the acquire exactly when it has had a clash. -/
theorem acquired_iff (hrun : (machine Tid).Run history s) :
    s.failed ≠ some .acquire ↔ (machine Tid).Meets NoClash (initial Tid) history := by
  apply hrun.induction fun history s ↦
    (s.failed ≠ some .acquire ↔ (machine Tid).Meets NoClash (initial Tid) history)
  · rintro _ rfl
    exact iff_of_true nofun trivial
  · intro history s a hrun ih hguard
    have hmeets : (machine Tid).Meets NoClash (initial Tid) history := by
      apply ih.mp
      cases a <;> rw [hguard.1] <;> nofun
    have hfinal : (machine Tid).final (initial Tid) history = s := by
      obtain ⟨_, rfl, -, hfinal⟩ := hrun
      exact hfinal
    rw [Machine.meets_append, hfinal]
    have hacquire := acquire_update (run_exclusive hrun) (run_stored hrun) hguard
    simp [hmeets, hacquire]

theorem onlyWaits_iff (hrun : ((machine Tid).when (Unnested n)).Run history s) :
    OnlyWaits s ↔ (machine Tid).Meets NoClash (initial Tid) history := by
  have hacquired := acquired_iff hrun.of_when
  have hexclusive := run_exclusive hrun.of_when
  have hsited := run_sited hrun
  constructor
  · intro h
    exact hacquired.mp h.acquired
  · intro h
    refine ⟨hacquired.mpr h, ?_⟩
    have hnone : s.failed = none := by
      have := hacquired.mpr h
      have := hexclusive.failed
      have := hsited.typed
      cases hfailed : s.failed with
      | none => rfl
      | some failure => cases failure <;> simp_all
    intro t lock _
    cases howner : (s.slots lock.slot).owner with
    | none => exact .inl rfl
    | some u =>
      obtain ⟨a, ha, hguard⟩ := owner_goes_on hexclusive hsited hnone howner
      exact .inr ⟨u, a, rfl, ha, hguard⟩

end Runs

/-! ## Sites -/

section Sites

variable {s : State Tid} {n : ℕ} {t : Tid} {lock other : Lock} {a : Action Tid}

theorem Lock.slot_val (lock : Lock) : (lock.slot : ℕ) = lock.id.toNat % 32 := by
  have hand := Nat.and_two_pow_sub_one_eq_mod lock.id.toNat 5
  change (lock.id &&& 31).toNat = _
  rw [UInt32.toNat_and]
  exact hand

/-- With at most 32 sites no two of them share a slot. -/
theorem Lock.Site.id_eq (h : lock.Site n) (h' : other.Site n) (hn : n ≤ scopedLockMaxSize)
    (hslot : other.slot = lock.slot) : other.id = lock.id := by
  have hmod : other.id.toNat % 32 = lock.id.toNat % 32 := by
    rw [← Lock.slot_val, ← Lock.slot_val, hslot]
  have hpos : lock.id.toNat ≠ 0 := fun hzero ↦ lock.id_ne_zero (UInt32.toNat_inj.mp hzero)
  have hpos' : other.id.toNat ≠ 0 := fun hzero ↦ other.id_ne_zero (UInt32.toNat_inj.mp hzero)
  have hle : lock.id.toNat ≤ 32 := Nat.le_trans h.2 hn
  have hle' : other.id.toNat ≤ 32 := Nat.le_trans h'.2 hn
  apply UInt32.toNat_inj.mp
  omega

theorem Thread.mem_locks_of_mem_inside {thread : Thread} (h : lock ∈ thread.inside) :
    lock ∈ thread.locks := by
  unfold inside at h
  unfold locks
  cases hphase : thread.phase <;> simp_all [Phase.inside?, Phase.lock?]

theorem Sited.site (h : Sited n s) (hlock : lock ∈ (s.threads t).locks) : lock.Site n := by
  rcases h.sites t with hnil | ⟨_, hsite, heq⟩
  · rw [hnil] at hlock
    cases hlock
  · rw [heq] at hlock
    obtain rfl := List.mem_singleton.mp hlock
    exact hsite

/-- At most 32 sites, or only one thread. -/
theorem Sited.noClash (h : Sited n s) (hfew : n ≤ scopedLockMaxSize ∨ Subsingleton Tid) :
    NoClash s a := by
  intro t lock _ hphase u other hother hslot
  obtain ⟨sections, ht⟩ := Thread.exists_eq_mk hphase
  have hlocks : (s.threads t).locks = lock :: sections := by
    rw [ht]
    rfl
  rcases hfew with hn | _
  · apply Lock.Site.id_eq _ _ hn hslot
    · apply h.site (t := t)
      rw [hlocks]
      exact List.mem_cons_self
    · exact h.site (Thread.mem_locks_of_mem_inside hother)
  · -- the thread is in no other section
    obtain rfl := Subsingleton.elim t u
    rcases h.sites t with hnil | ⟨_, -, heq⟩
    · rw [hlocks] at hnil
      cases hnil
    · rw [hlocks] at heq
      obtain ⟨-, rfl⟩ := List.cons.inj heq
      rw [ht] at hother
      cases hother

variable [DecidableEq Tid]

/-- A thread begins a section, and another one enters. -/
def clashHistory (t u : Tid) (first second : Lock) : List (Action Tid) :=
  [.enter t first, .load t, .lock t, .store t, .enter u second, .load u]

/-- Two sites with one slot clash when two threads use them. -/
theorem clash {u : Tid} {first second : Lock} (hne : u ≠ t) (hfirst : first.Site n)
    (hsecond : second.Site n) (hslot : first.slot = second.slot) (hid : first.id ≠ second.id) :
    ((machine Tid).when (Unnested n)).Legal (initial Tid) (clashHistory t u first second) ∧
      ¬ (machine Tid).Meets NoClash (initial Tid) (clashHistory t u first second) := by
  constructor
  · simp [clashHistory, Unnested, guard, hfirst, hfirst.flag, hfirst.mask, hsecond, hsecond.flag,
      hsecond.mask, update, initial, State.goto_threads, hne]
  · intro hmeets
    have hlast : NoClash ((machine Tid).final (initial Tid)
        [.enter t first, .load t, .lock t, .store t, .enter u second]) (.load u) :=
      hmeets.2.2.2.2.2.1
    apply hid
    apply hlast u second rfl _ t first _ hslot <;>
      simp [hfirst.flag, hfirst.mask, hsecond.flag, hsecond.mask, update, initial,
        State.goto_threads, hne, hne.symm, Thread.inside]

/-- **Contention only waits** in a run exactly when nobody comes to the load of the id while
another section has the slot. This is so in all runs when there are at most 32 sites or only one
thread, and in no other case. -/
theorem contention_only_waits (n : ℕ) :
    (∀ history s, ((machine Tid).when (Unnested n)).Run history s →
      (OnlyWaits s ↔ (machine Tid).Meets NoClash (initial Tid) history)) ∧
    ((∀ history s, ((machine Tid).when (Unnested n)).Run history s → OnlyWaits s) ↔
      n ≤ scopedLockMaxSize ∨ Subsingleton Tid) := by
  refine ⟨fun history s hrun ↦ onlyWaits_iff hrun, ?_, ?_⟩
  · intro hwaits
    by_contra hmany
    obtain ⟨hn, hthreads⟩ := not_or.mp hmany
    have hn : 32 < n := Nat.lt_of_not_le hn
    obtain ⟨u, t, hne⟩ : ∃ u t : Tid, u ≠ t := by
      by_contra hall
      exact hthreads ⟨fun u t ↦ by_contra fun hne ↦ hall ⟨u, t, hne⟩⟩
    have hfirst : (Lock.mk 1 1 (by decide)).Site n := ⟨rfl, Nat.one_le_of_lt hn⟩
    have hsecond : (Lock.mk 1 33 (by decide)).Site n := ⟨rfl, hn⟩
    obtain ⟨hlegal, hclash⟩ := clash hne hfirst hsecond (by decide) (by decide)
    have hrun : ((machine Tid).when (Unnested n)).Run _ _ := ⟨_, rfl, hlegal, rfl⟩
    exact hclash ((onlyWaits_iff hrun).mp (hwaits _ _ hrun))
  · intro hfew history s hrun
    apply (onlyWaits_iff hrun).mpr
    apply hrun.induction fun history _ ↦ (machine Tid).Meets NoClash (initial Tid) history
    · intro _ _
      trivial
    · rintro history _ a ⟨_, rfl, hlegal, rfl⟩ ih _
      have hsited := run_sited ⟨initial Tid, rfl, hlegal, rfl⟩
      exact ((machine Tid).meets_append ..).mpr ⟨ih, hsited.noClash hfew, trivial⟩

end Sites

/-- 33 sites and two threads: the thread at the last site finds the slot in use. -/
theorem contention_aborts : ¬ ∀ (n : ℕ) history (s : State Bool),
    ((machine Bool).when (Unnested n)).Run history s → s.failed ≠ some .acquire := by
  intro hacquired
  have hfirst : (Lock.mk 1 1 (by decide)).Site 33 := ⟨rfl, by decide⟩
  have hsecond : (Lock.mk 1 33 (by decide)).Site 33 := ⟨rfl, by decide⟩
  obtain ⟨hlegal, -⟩ := clash (t := false) (u := true) (by decide) hfirst hsecond (by decide)
    (by decide)
  exact hacquired 33 _ _ ⟨_, rfl, hlegal, rfl⟩ rfl

end ParallelPrograms.ScopedLock
