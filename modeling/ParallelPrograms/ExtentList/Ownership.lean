import ParallelPrograms.ExtentList.Linked

/-!
# Who has a leaf

Every leaf that is allocated belongs to the list, to one place of the preload area, or to `call_rcu`,
which frees it after a grace period. An operation moves a leaf from one owner to the next.
-/

namespace ParallelPrograms.ExtentList

variable {α : Type}

/-- Who has a leaf. -/
inductive Owner where
  | list
  | preload (token : ℕ)
  | callRcu

/-- The leaves of an owner. -/
def Owns (s : State α) (entries : List (Entry α)) : Owner → Addr → Prop
  | .list, a => a ∈ entries.map Entry.addr
  | .preload token, a => s.preload token = some a
  | .callRcu, a => a ∈ s.freed

/-- The memory of the leaves. -/
structure Memory (s : State α) (entries : List (Entry α)) : Prop where
  allocated : ∀ a, s.allocated a = true ↔ ∃ o, Owns s entries o a
  unique : ∀ a o o', Owns s entries o a → Owns s entries o' a → o = o'
  /-- No leaf is freed twice. -/
  once : s.freed.Nodup
  /-- A preloaded leaf can be linked, and is no higher than its place. -/
  ready : ∀ token a, s.preload token = some a →
    token < skipMaxlevel ∧ s.height (.leaf a) ≤ token ∧ s.dead (.leaf a) = false

namespace Memory

variable {s s' : State α} {entries entries' : List (Entry α)} {a : Addr} {token : ℕ}

/-- A preloaded leaf is allocated, and not in the list. -/
theorem preloaded (h : Memory s entries) (ha : s.preload token = some a) :
    s.allocated a = true ∧ ∀ e ∈ entries, e.addr ≠ a := by
  refine ⟨(h.allocated a).mpr ⟨.preload token, ha⟩, fun e he heq ↦ ?_⟩
  have hlist : Owns s entries .list a := List.mem_map.mpr ⟨e, he, heq⟩
  exact Owner.noConfusion (h.unique a .list (.preload token) hlist ha)

/-- Locks, links and what the leaves hold have no owner. -/
theorem congr (h : Memory s entries) (hallocated : s'.allocated = s.allocated)
    (hpreload : s'.preload = s.preload) (hfreed : s'.freed = s.freed)
    (hheight : s'.height = s.height) (hdead : s'.dead = s.dead) : Memory s' entries := by
  have howns : ∀ o a, Owns s' entries o a ↔ Owns s entries o a := by
    intro o a
    cases o with
    | list => rfl
    | preload token => rw [Owns, Owns, hpreload]
    | callRcu => rw [Owns, Owns, hfreed]
  constructor
  · intro a
    simp only [howns, hallocated]
    exact h.allocated a
  · intro a o o' ho ho'
    rw [howns] at ho ho'
    exact h.unique a o o' ho ho'
  · exact hfreed ▸ h.once
  · intro token a ha
    rw [hheight, hdead]
    exact h.ready token a (hpreload ▸ ha)

/-- Only the owner of one leaf changes. -/
theorem move (h : Memory s entries) (owner : Option Owner)
    (howns : ∀ o b, Owns s' entries' o b ↔ if b = a then owner = some o else Owns s entries o b)
    (hallocated : ∀ b, s'.allocated b = if b = a then owner.isSome else s.allocated b)
    (honce : s'.freed.Nodup)
    (hready : ∀ token b, s'.preload token = some b →
      token < skipMaxlevel ∧ s'.height (.leaf b) ≤ token ∧ s'.dead (.leaf b) = false) :
    Memory s' entries' where
  allocated b := by
    rw [hallocated b]
    simp only [howns]
    split_ifs
    · rw [Option.isSome_iff_exists]
    · exact h.allocated b
  unique b o o' ho ho' := by
    rw [howns] at ho ho'
    split_ifs at ho ho'
    · exact Option.some.inj (ho.symm.trans ho')
    · exact h.unique b o o' ho ho'
  once := honce
  ready := hready

end Memory

end ParallelPrograms.ExtentList
