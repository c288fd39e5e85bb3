import ParallelPrograms.ScopedLock.Model
import Mathlib.Data.List.Nodup

/-!
# Exclusion of scoped locks

The id of a slot is tested before the mutex is locked, so the test says nothing about the moment at
which the thread gets the mutex. Only the owner of the mutex writes to the id: it stores its own id
after it has locked the mutex and zero before it unlocks it. Between the two stores the slot has the
id of the owner, and the test in the release succeeds.
-/

namespace ParallelPrograms.ScopedLock

open Concurrency

/-- The lock that the thread is acquiring or releasing. -/
def Phase.lock? : Phase → Option Lock
  | running => none
  | loading lock | locking lock | storing lock | checking lock | clearing lock
  | unlocking lock => some lock

/-- The lock whose mutex is locked in this phase. -/
def Phase.held? : Phase → Option Lock
  | running | loading _ | locking _ => none
  | storing lock | checking lock | clearing lock | unlocking lock => some lock

/-- The lock whose id is stored in this phase. -/
def Phase.inside? : Phase → Option Lock
  | running | loading _ | locking _ | storing _ | unlocking _ => none
  | checking lock | clearing lock => some lock

namespace Thread

variable (thread : Thread)

/-- The locks that the thread is acquiring, releasing or inside. -/
def locks : List Lock := thread.phase.lock?.toList ++ thread.sections

/-- The locks whose mutex the thread has locked. -/
def held : List Lock := thread.phase.held?.toList ++ thread.sections

/-- The sections of the thread, until their id is cleared. -/
def inside : List Lock := thread.phase.inside?.toList ++ thread.sections

variable {thread} in
theorem exists_eq_mk {phase : Phase} (h : thread.phase = phase) :
    ∃ sections, thread = ⟨phase, sections⟩ := ⟨thread.sections, by rw [← h]⟩

theorem mem_held_of_mem_inside {lock : Lock} (h : lock ∈ thread.inside) : lock ∈ thread.held := by
  unfold inside at h
  unfold held
  cases hphase : thread.phase <;> simp_all [Phase.inside?, Phase.held?]

end Thread

variable {Tid : Type*}

/-- The mutexes belong to the threads that hold them, and the slots of the sections have their
ids. -/
structure Exclusive (s : State Tid) : Prop where
  owner : ∀ i t, (s.slots i).owner = some t ↔ i ∈ (s.threads t).held.map Lock.slot
  nodup : ∀ t, ((s.threads t).held.map Lock.slot).Nodup
  id : ∀ t, ∀ lock ∈ (s.threads t).inside, (s.slots lock.slot).id = lock.id
  typed : ∀ t, ∀ lock ∈ (s.threads t).locks, lock.typeFlags &&& slPosixMutex ≠ 0
  failed : s.failed ≠ some .release

theorem exclusive_initial : Exclusive (initial Tid) := by
  constructor <;> simp [initial, Thread.held, Thread.inside, Thread.locks, Phase.held?,
    Phase.inside?, Phase.lock?]

namespace Exclusive

variable {s : State Tid} {t u : Tid} {a b lock : Lock} {phase : Phase} {sections : List Lock}

/-- A slot is held by one thread only, for one section only. -/
theorem unique (h : Exclusive s) (ha : a ∈ (s.threads t).held) (hb : b ∈ (s.threads u).held)
    (hslot : a.slot = b.slot) : t = u ∧ a = b := by
  have ht := (h.owner a.slot t).mpr (List.mem_map_of_mem ha)
  have hu := (h.owner b.slot u).mpr (List.mem_map_of_mem hb)
  rw [hslot, hu] at ht
  obtain rfl : u = t := Option.some.inj ht
  exact ⟨rfl, List.inj_on_of_nodup_map (h.nodup u) ha hb hslot⟩

theorem unique_inside (h : Exclusive s) (ha : a ∈ (s.threads t).held)
    (hb : b ∈ (s.threads u).inside) (hslot : a.slot = b.slot) : t = u ∧ a = b :=
  h.unique ha (Thread.mem_held_of_mem_inside _ hb) hslot

theorem fail (h : Exclusive s) {failure : Failure} (hne : failure ≠ .release) :
    Exclusive (s.fail failure) where
  owner := h.owner
  nodup := h.nodup
  id := h.id
  typed := h.typed
  failed heq := hne (Option.some.inj heq)

variable [DecidableEq Tid]

/-- A thread goes on without writing. -/
theorem move (h : Exclusive s) (hheld : (Thread.mk phase sections).held = (s.threads t).held)
    (hinside : ∀ lock ∈ (Thread.mk phase sections).inside, lock ∈ (s.threads t).inside)
    (htyped : ∀ lock ∈ (Thread.mk phase sections).locks,
      lock.typeFlags &&& slPosixMutex ≠ 0) : Exclusive (s.goto t phase sections) := by
  constructor
  case owner =>
    intro i u
    have := h.owner i u
    grind
  case nodup =>
    intro u
    have := h.nodup u
    grind
  case id =>
    intro u lock hlock
    have := h.id u lock
    grind
  case typed =>
    intro u lock hlock
    have := h.typed u lock
    grind
  case failed => exact h.failed

/-- `pthread_mutex_lock` gets the mutex. -/
theorem mutexLock (h : Exclusive s) (ht : s.threads t = ⟨.locking lock, sections⟩)
    (hfree : (s.slots lock.slot).owner = none) :
    Exclusive ((s.setOwner lock.slot (some t)).goto t (.storing lock) sections) := by
  have hunheld : ∀ u, lock.slot ∉ (s.threads u).held.map Lock.slot := by
    intro u hu
    exact nomatch hfree.symm.trans ((h.owner lock.slot u).mpr hu)
  have hheld : (s.threads t).held = sections := by rw [ht]; rfl
  have hheld' : (Thread.mk (.storing lock) sections).held = lock :: sections := rfl
  have hinside : (s.threads t).inside = (Thread.mk (.storing lock) sections).inside := by
    rw [ht]; rfl
  have hlocks : (s.threads t).locks = (Thread.mk (.storing lock) sections).locks := by
    rw [ht]; rfl
  constructor
  case owner =>
    intro i u
    have := h.owner i u
    have := hunheld u
    grind
  case nodup =>
    intro u
    have := h.nodup u
    have := hunheld u
    grind
  case id =>
    intro u a ha
    have := h.id u a
    grind
  case typed =>
    intro u a ha
    have := h.typed u a
    grind
  case failed => exact h.failed

/-- The id is stored, and the section begins. -/
theorem storeId (h : Exclusive s) (ht : s.threads t = ⟨.storing lock, sections⟩) :
    Exclusive ((s.setId lock.slot lock.id).goto t .running (lock :: sections)) := by
  have hheld : (s.threads t).held = (Thread.mk .running (lock :: sections)).held := by
    rw [ht]; rfl
  have hinside : ∀ a ∈ (Thread.mk .running (lock :: sections)).inside,
      a = lock ∨ a ∈ (s.threads t).inside := by
    rw [ht]
    exact fun a ha ↦ List.mem_cons.mp ha
  have hlocks : (s.threads t).locks = (Thread.mk .running (lock :: sections)).locks := by
    rw [ht]; rfl
  have hlock : lock ∈ (s.threads t).held := by
    rw [hheld]
    exact List.mem_cons_self
  constructor
  case owner =>
    intro i u
    have := h.owner i u
    grind
  case nodup =>
    intro u
    have := h.nodup u
    grind
  case id =>
    intro u a ha
    have := h.id u a
    have hother := fun hinside : a ∈ (s.threads u).inside ↦ h.unique_inside hlock hinside
    grind
  case typed =>
    intro u a ha
    have := h.typed u a
    grind
  case failed => exact h.failed

/-- The id is cleared while the mutex is still locked. -/
theorem clearId (h : Exclusive s) (ht : s.threads t = ⟨.clearing lock, sections⟩) :
    Exclusive ((s.setId lock.slot 0).goto t (.unlocking lock) sections) := by
  have hheld : (s.threads t).held = (Thread.mk (.unlocking lock) sections).held := by
    rw [ht]; rfl
  have hinside : (s.threads t).inside = lock :: sections := by rw [ht]; rfl
  have hinside' : (Thread.mk (.unlocking lock) sections).inside = sections := rfl
  have hlocks : (s.threads t).locks = (Thread.mk (.unlocking lock) sections).locks := by
    rw [ht]; rfl
  have hlock : lock ∈ (s.threads t).held := by
    rw [ht]
    exact List.mem_cons_self
  have hfresh : ∀ a ∈ sections, a.slot ≠ lock.slot := by
    have hnodup := h.nodup t
    rw [ht] at hnodup
    intro a ha heq
    exact (List.nodup_cons.mp hnodup).1 (heq ▸ List.mem_map_of_mem ha)
  constructor
  case owner =>
    intro i u
    have := h.owner i u
    grind
  case nodup =>
    intro u
    have := h.nodup u
    grind
  case id =>
    intro u a ha
    have := h.id u a
    have hother := fun hinside : a ∈ (s.threads u).inside ↦ h.unique_inside hlock hinside
    grind
  case typed =>
    intro u a ha
    have := h.typed u a
    grind
  case failed => exact h.failed

theorem mutexUnlock (h : Exclusive s) (ht : s.threads t = ⟨.unlocking lock, sections⟩) :
    Exclusive ((s.setOwner lock.slot none).goto t .running sections) := by
  have hheld : (s.threads t).held = lock :: sections := by rw [ht]; rfl
  have hheld' : (Thread.mk .running sections).held = sections := rfl
  have hinside : (s.threads t).inside = (Thread.mk .running sections).inside := by rw [ht]; rfl
  have hlocks : (s.threads t).locks = lock :: sections := by rw [ht]; rfl
  have hlocks' : (Thread.mk .running sections).locks = sections := rfl
  constructor
  case owner =>
    intro i u
    have := h.owner i u
    have := h.owner lock.slot t
    have := h.nodup t
    grind
  case nodup =>
    intro u
    have := h.nodup u
    grind
  case id =>
    intro u a ha
    have := h.id u a
    grind
  case typed =>
    intro u a ha
    have := h.typed u a
    grind
  case failed => exact h.failed

/-- Every action keeps the slots exclusive. -/
theorem update (h : Exclusive s) {a : Action Tid} (hguard : guard s a) :
    Exclusive (update s a) := by
  cases a with
  | enter t lock =>
    obtain ⟨sections, ht⟩ := Thread.exists_eq_mk hguard.2
    have htyped := h.typed t
    rw [ht] at htyped
    simp only [ScopedLock.update, ht]
    split_ifs with hmask hflag
    · exact h.fail nofun
    · apply h.move (by rw [ht]; rfl) (by rw [ht]; exact fun _ hmem ↦ hmem)
      intro a ha
      obtain rfl | ha := List.mem_cons.mp ha
      · exact hflag
      · exact htyped a ha
    · exact h.fail nofun
  | load t =>
    obtain ⟨-, lock, hphase⟩ := hguard
    obtain ⟨sections, ht⟩ := Thread.exists_eq_mk hphase
    have htyped := h.typed t
    rw [ht] at htyped
    simp only [ScopedLock.update, ht]
    split_ifs
    · exact h.move (by rw [ht]; rfl) (by rw [ht]; exact fun _ hmem ↦ hmem) htyped
    · exact h.fail nofun
  | lock t =>
    obtain ⟨-, lock, hphase, hfree⟩ := hguard
    obtain ⟨sections, ht⟩ := Thread.exists_eq_mk hphase
    simp only [ScopedLock.update, ht]
    exact h.mutexLock ht hfree
  | store t =>
    obtain ⟨-, lock, hphase⟩ := hguard
    obtain ⟨sections, ht⟩ := Thread.exists_eq_mk hphase
    simp only [ScopedLock.update, ht]
    exact h.storeId ht
  | leave t =>
    obtain ⟨-, hphase, hsections⟩ := hguard
    obtain ⟨sections, ht⟩ := Thread.exists_eq_mk hphase
    rw [ht] at hsections
    obtain ⟨lock, rest, rfl⟩ := List.exists_cons_of_ne_nil hsections
    have htyped := h.typed t
    rw [ht] at htyped
    simp only [ScopedLock.update, ht]
    rw [if_pos (htyped lock List.mem_cons_self)]
    exact h.move (by rw [ht]; rfl) (by rw [ht]; exact fun _ hmem ↦ hmem) htyped
  | check t =>
    obtain ⟨-, lock, hphase⟩ := hguard
    obtain ⟨sections, ht⟩ := Thread.exists_eq_mk hphase
    have htyped := h.typed t
    have hid := h.id t
    rw [ht] at htyped hid
    simp only [ScopedLock.update, ht]
    rw [if_pos (hid lock List.mem_cons_self).symm]
    exact h.move (by rw [ht]; rfl) (by rw [ht]; exact fun _ hmem ↦ hmem) htyped
  | clear t =>
    obtain ⟨-, lock, hphase⟩ := hguard
    obtain ⟨sections, ht⟩ := Thread.exists_eq_mk hphase
    simp only [ScopedLock.update, ht]
    exact h.clearId ht
  | unlock t =>
    obtain ⟨-, lock, hphase⟩ := hguard
    obtain ⟨sections, ht⟩ := Thread.exists_eq_mk hphase
    simp only [ScopedLock.update, ht]
    exact h.mutexUnlock ht

end Exclusive

/-! ## Runs -/

section Runs

variable [DecidableEq Tid] {history : List (Action Tid)} {s : State Tid}

theorem run_exclusive (hrun : (machine Tid).Run history s) : Exclusive s := by
  apply hrun.invariant
  · rintro _ rfl
    exact exclusive_initial
  · intro s a h hguard
    exact h.update hguard

/-- **Scoped locks exclude.** Two sections of one slot are the same section of one thread, the
slot of a section has the id of its lock, and `scoped_lock_unlock` does not fail. -/
theorem scoped_lock_excludes (hrun : (machine Tid).Run history s) :
    (∀ t u a b, a ∈ (s.threads t).inside → b ∈ (s.threads u).inside → a.slot = b.slot →
      t = u ∧ a = b) ∧
    (∀ t, ∀ lock ∈ (s.threads t).inside, (s.slots lock.slot).id = lock.id) ∧
    s.failed ≠ some .release := by
  have hexclusive := run_exclusive hrun
  refine ⟨?_, hexclusive.id, hexclusive.failed⟩
  intro t u a b ha hb hslot
  exact hexclusive.unique (Thread.mem_held_of_mem_inside _ ha) (Thread.mem_held_of_mem_inside _ hb)
    hslot

end Runs

/-- A section inside a section of another slot, with a second thread waiting for the outer slot
after it has tested the id. -/
def nestedHistory : List (Action Bool) :=
  [.enter false ⟨1, 1, by decide⟩, .enter true ⟨1, 33, by decide⟩, .load false, .load true,
    .lock false, .store false, .enter false ⟨1, 2, by decide⟩, .load false, .lock false,
    .store false, .leave false, .check false, .clear false, .unlock false, .leave false,
    .check false, .clear false, .unlock false, .lock true, .store true]

theorem scoped_lock_excludes_nested :
    ((machine Bool).final (initial Bool) nestedHistory).failed ≠ some .release := by
  have hlegal : (machine Bool).Legal (initial Bool) nestedHistory :=
    ⟨⟨rfl, rfl⟩, ⟨rfl, rfl⟩, ⟨rfl, _, rfl⟩, ⟨rfl, _, rfl⟩, ⟨rfl, _, rfl, rfl⟩, ⟨rfl, _, rfl⟩,
      ⟨rfl, rfl⟩, ⟨rfl, _, rfl⟩, ⟨rfl, _, rfl, rfl⟩, ⟨rfl, _, rfl⟩, ⟨rfl, rfl, by decide⟩,
      ⟨rfl, _, rfl⟩, ⟨rfl, _, rfl⟩, ⟨rfl, _, rfl⟩, ⟨rfl, rfl, by decide⟩, ⟨rfl, _, rfl⟩,
      ⟨rfl, _, rfl⟩, ⟨rfl, _, rfl⟩, ⟨rfl, _, rfl, rfl⟩, ⟨rfl, _, rfl⟩, trivial⟩
  exact (scoped_lock_excludes ⟨initial Bool, rfl, hlegal, rfl⟩).2.2

end ParallelPrograms.ScopedLock
