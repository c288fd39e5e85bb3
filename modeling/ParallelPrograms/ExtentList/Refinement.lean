import ParallelPrograms.ExtentList.ExtentSet
import ParallelPrograms.ExtentList.Hole
import ParallelPrograms.Refinement.Calls

/-!
# The list refines the set

The extents of the leaves are the set that the list stores. Every call of the code answers as the set
allows, does not get stuck, and adds at most one leaf.
-/

namespace ParallelPrograms.ExtentList

open Sequence Refinement

variable {α : Type}

/-- The set of the extents of the leaves. -/
def Linked.stored {s : State α} {entries : List (Entry α)} (h : Linked s entries) : ExtentSet α where
  extents := {t | t ∈ contents entries}
  separate := h.extents.apart.separate
  pos t ht := (h.extents.valid t ht).key_lt_stop

section Stored

variable {s s' : State α} {entries entries' : List (Entry α)} {left right : List (SlSlot α)}
  {t slot : SlSlot α} {ret : ℤ}

/-- An extent between others lies where they leave room. -/
theorem Linked.stored_insert (h : Linked s entries) (h' : Linked s' entries')
    (h₁ : contents entries = left ++ right) (h₂ : contents entries' = left ++ t :: right) :
    ∃ (hpos : 0 < t.size) (hfree : h.stored.FreeAt t.key t.size),
      h'.stored = h.stored.insert t hpos hfree := by
  have hext := h₂ ▸ h'.extents
  obtain ⟨-, hright, hcross⟩ := List.pairwise_append.mp hext.apart
  have hgap : Gap SlSlot.key SlSlot.stop t.key (t.key + t.size) left right :=
    ⟨fun u hu ↦ hcross u hu t List.mem_cons_self, (List.pairwise_cons.mp hright).1⟩
  have hpos := (hext.valid t (by simp)).pos
  have hfree : h.stored.FreeAt t.key t.size :=
    (free_iff (Nat.lt_add_of_pos_right hpos) h.stored.pos).mpr fun u hu ↦
      hgap.not_meets (h₁ ▸ hu)
  refine ⟨hpos, hfree, ExtentSet.ext (Set.ext fun u ↦ ?_)⟩
  change u ∈ contents entries' ↔ u ∈ Insert.insert t {u | u ∈ contents entries}
  simp only [h₁, h₂, Set.mem_ofPred_eq, Set.mem_insert_iff, List.mem_append, List.mem_cons]
  tauto

/-- What is removed from a list of extents is not in it any more. -/
theorem Linked.stored_remove (h : Linked s entries) (h' : Linked s' entries')
    (h₁ : contents entries = left ++ t :: right) (h₂ : contents entries' = left ++ right) :
    h'.stored = h.stored.remove (some t) := by
  obtain ⟨_, hfree, hinsert⟩ := h'.stored_insert h h₂ h₁
  have hlt := (h.extents.valid t (by simp [h₁])).key_lt_stop
  have hnot : t ∉ h'.stored := fun ht ↦
    Set.disjoint_left.mp (hfree t ht) ⟨le_rfl, hlt⟩ ⟨le_rfl, hlt⟩
  rw [hinsert]
  refine ExtentSet.ext (Set.ext fun u ↦ ?_)
  change u ∈ h'.stored ↔ (u = t ∨ u ∈ h'.stored) ∧ u ∉ some t
  rw [Option.mem_some]
  constructor
  · exact fun hu ↦ ⟨.inr hu, fun heq ↦ hnot (heq ▸ hu)⟩
  · rintro ⟨rfl | hu, hne⟩
    · exact absurd rfl hne
    · exact hu

/-- What `skiplist_insert` does to the set. -/
theorem Insertion.stored (hinsertion : Insertion s entries slot ret s' entries')
    (h : Linked s entries) (h' : Linked s' entries') (hs : slot.Valid) :
    (ret = 0 ∧ ∃ hpos hfree, h'.stored = h.stored.insert slot hpos hfree) ∨
      ret = -eexist ∧ ¬ h.stored.FreeAt slot.key slot.size ∧ h'.stored = h.stored := by
  cases hinsertion with
  | added s' entries' hadded hfree =>
    obtain ⟨left, right, h₁, h₂⟩ := hadded.contents
    exact .inl ⟨rfl, h.stored_insert h' h₁ h₂⟩
  | overlap locked hfree hmeets =>
    exact .inr ⟨rfl, (ExtentSet.not_freeAt_iff hs.pos).mpr hmeets, rfl⟩

/-- What `skiplist_delete` does to the set. -/
theorem Deleted.stored {ret : Option (SlSlot α)} (hdeleted : Deleted s entries ret s' entries')
    (h : Linked s entries) (h' : Linked s' entries') : h'.stored = h.stored.remove ret := by
  cases hdeleted with
  | missing => exact ExtentSet.ext (Set.ext fun u ↦ by simp [Linked.stored, ExtentSet.remove])
  | shrunk before after e left right t leaf hentries hslots =>
    subst hentries
    have h₁ : contents (before ++ e :: after) =
        (contents before ++ left) ++ t :: (right ++ contents after) := by simp [hslots]
    exact h.stored_remove h' h₁ (by simp)
  | emptied before after e t leaf next prev hentries hslots =>
    subst hentries
    have h₁ : contents (before ++ e :: after) = contents before ++ t :: contents after := by
      simp [hslots]
    exact h.stored_remove h' h₁ (by simp)

end Stored

/-! ## One call -/

/-- What a call of the code does. -/
structure Called {s : State α} {entries : List (Entry α)} (h : Sound s entries) (call : Call α)
    (answer : Answer α) (s' : State α) (entries' : List (Entry α)) : Prop where
  sound : Sound s' entries'
  spec : Spec h.linked.stored call answer sound.linked.stored
  length : entries'.length ≤ entries.length + 1
  preempt : s.preempt + (if call.preloads then 1 else 0) ≤ s'.preempt

section Step

variable {s : State α} {entries : List (Entry α)} {fuel key size hint limit align top : ℕ}
  {alloc : Alloc} {call : Call α}

/-- **`insert_one_skiplist`** -/
theorem Sound.insertOneSkiplist_eq (slot : Option α) (h : Sound s entries)
    (halloc : alloc.Fresh s) (hsize : 0 < size) (hfits : key + size < 2 ^ 64) (hfuel : entries.length < fuel) :
    ∃ ret s' entries', s.insertOneSkiplist fuel key size slot alloc = some (ret, s') ∧
      Called h (.insert key size slot alloc) (.code ret) s' entries' := by
  cases slot with
  | none =>
    exact ⟨_, s, entries, rfl, h, .noSlot key size alloc, Nat.le_succ _, by simp [Call.preloads]⟩
  | some entry =>
    obtain ⟨token, s₁, hpreload, hpreloaded⟩ :=
      h.skiplistPreload_eq alloc.randseed halloc.leaf halloc.leaf0
    rw [State.insertOneSkiplist, hpreload]
    cases hpreloaded with
    | noMemory hleaf =>
      exact ⟨_, _, entries, rfl, h.withPreempt _, .noLeaf key size _ alloc hleaf, Nat.le_succ _,
        Int.le_refl _⟩
    | ready token a s₁ htoken ha hsound hlevel hpreempt =>
      have hnonneg : ¬ (token : ℤ) < 0 := by omega
      have hs : SlSlot.Valid (⟨key, size, entry⟩ : SlSlot α) := ⟨hsize, hfits⟩
      obtain ⟨ret, s', entries', hrun, hinsertion⟩ := hsound.linked.skiplistInsert_eq hsound.memory
        hsound.unlocked hs ha (hlevel ▸ htoken) hfuel
      have hsound' := hinsertion.sound hsound
      refine ⟨ret, s'.preemptEnable, entries', ?_, hsound'.withPreempt _, ?_, hinsertion.length_le,
        ?_⟩
      · simp only [hnonneg, if_false, Int.toNat_natCast, Option.bind_eq_bind, hrun]
        rfl
      · change Spec h.linked.stored _ _ hsound'.linked.stored
        rcases hinsertion.stored (hsound.withPreempt _).linked hsound'.linked hs with
          ⟨rfl, hpos, hfree, hstored⟩ | ⟨rfl, hfree, hstored⟩
        · rw [hstored]
          exact .inserted key size entry alloc hpos hfree
        · rw [hstored]
          exact .overlapped key size entry alloc hfree
      · have hmono := hinsertion.preempt_le
        change s.preempt + 1 ≤ s'.preempt - 1
        rw [State.withPreempt_preempt] at hmono
        omega

/-- **`skiplist_insert_hole`** -/
theorem Sound.called_insertHole {i : ℕ} (slot : SlSlot α) (limit : ℕ) (h : Sound s entries)
    (halloc : alloc.Fresh s) (hsize : 0 < size) (hhint : hint + 2 ^ i + size ≤ 2 ^ 64)
    (hbound : ∀ t ∈ h.linked.stored, t.stop + 2 ^ i + size ≤ 2 ^ 64)
    (hfuel : entries.length < fuel) :
    ∃ ret slot' s' entries', s.skiplistInsertHole fuel alloc.randseed alloc.leaf alloc.leaf0 hint
        limit size (2 ^ i) slot = some (ret, slot', s') ∧
      Called h (.insertHole hint limit size (2 ^ i) slot alloc) (.hole ret slot') s' entries' := by
  obtain ⟨ret, slot', s', entries', hrun, hinserted⟩ := h.skiplistInsertHole_eq alloc.randseed slot
    limit halloc.leaf halloc.leaf0 hsize hhint hbound hfuel
  have hup := rounding_roundUp (Nat.two_pow_pos i)
  have hmeets : ∀ a, (∃ t ∈ h.linked.stored, Overlaps a size t) → ¬ h.linked.stored.FreeAt a size :=
    fun a ↦ (ExtentSet.not_freeAt_iff hsize).mpr
  refine ⟨ret, slot', s', entries', hrun, ?_⟩
  cases hinserted with
  | noMemory hleaf =>
    exact ⟨h.withPreempt _, .noHoleLeaf _ _ _ _ _ _ hleaf, Nat.le_succ _, Int.le_refl _⟩
  | full s' hsound hpreempt hcovered =>
    refine ⟨hsound, .full _ _ _ _ _ _ fun a ha hle hlimit ↦ hmeets a ?_, Nat.le_succ _, ?_⟩
    · exact hcovered a ha (hup.least _ a ha hle) hlimit
    · change s.preempt + 1 ≤ s'.preempt
      omega
  | added key s' entries' hsound hpreempt hroom hcontents hlength =>
    obtain ⟨left, right, h₁, h₂⟩ := hcontents
    refine ⟨hsound, ?_, hlength, ?_⟩
    · obtain ⟨hpos, hfree, hstored⟩ := h.linked.stored_insert hsound.linked h₁ h₂
      rw [hstored]
      exact .placed _ _ _ _ _ _ key hpos hroom.dvd hroom.limit hfree
        fun a ha hle hlt ↦ hmeets a (hroom.first a ha (hup.least _ a ha hle) hlt)
    · change s.preempt + 1 ≤ s'.preempt
      omega
  | collided key s' hsound hpreempt hroom hin =>
    obtain ⟨t, ht, hkey, hstop⟩ := hin
    refine ⟨hsound, .collided _ _ _ _ _ _ key t ht hkey hstop hroom.start, Nat.le_succ _, ?_⟩
    change s.preempt + 1 ≤ s'.preempt
    omega

/-- What is looked up in the extents of the leaves is looked up in their set. -/
theorem Looked.answers {ret : Option (SlSlot α)} (hlooked : Looked (contents entries) key size ret)
    (h : Linked s entries) : Answers h.stored key size ret :=
  ⟨hlooked.sound, hlooked.complete⟩

/-- **A call of the code** answers as the set allows. -/
theorem Sound.step_eq (h : Sound s entries) (htop : top < 2 ^ 64)
    (hbound : ∀ t ∈ h.linked.stored, t.stop ≤ top) (hcall : Admissible top s call)
    (hfuel : entries.length + 1 < fuel) :
    ∃ s' answer entries', step fuel s call = some (s', answer) ∧
      Called h call answer s' entries' := by
  obtain ⟨rounds, hrounds⟩ := Nat.exists_eq_add_one.mpr (Nat.zero_lt_of_lt hfuel)
  have hlength : entries.length < fuel := Nat.lt_of_succ_lt hfuel
  cases call with
  | insert key size slot alloc =>
    obtain ⟨hsize, hfits, halloc⟩ := hcall
    obtain ⟨ret, s', entries', hrun, hcalled⟩ := h.insertOneSkiplist_eq slot halloc hsize
      (hfits.trans_lt htop) hlength
    exact ⟨s', _, entries', by rw [step, hrun]; rfl, hcalled⟩
  | insertHole hint limit size align slot alloc =>
    obtain ⟨hsize, -, ⟨i, -, rfl⟩, hhint, hroom, halloc⟩ := hcall
    obtain ⟨ret, slot', s', entries', hrun, hcalled⟩ := h.called_insertHole slot limit halloc hsize
      hhint (fun t ht ↦ by have hstop := hbound t ht; omega) hlength
    exact ⟨s', _, entries', by rw [step, hrun]; rfl, hcalled⟩
  | lookup key size =>
    obtain ⟨ret, hrun, hlooked⟩ :=
      h.linked.skiplistLookup_eq rounds h.unlocked hcall.1 hcall.2 hlength
    rw [← hrounds] at hrun
    exact ⟨s, _, entries, by rw [step, hrun]; rfl, h,
      .lookup key size ret (hlooked.answers h.linked), Nat.le_succ _, by simp [Call.preloads]⟩
  | lookupRcu key size =>
    obtain ⟨ret, hrun, hlooked⟩ := h.linked.skiplistLookupRcu_eq rounds hcall.1 hcall.2 hlength
    rw [← hrounds] at hrun
    exact ⟨s, _, entries, by rw [step, hrun]; rfl, h,
      .lookupRcu key size ret (hlooked.answers h.linked), Nat.le_succ _, by simp [Call.preloads]⟩
  | delete key size beyond =>
    obtain ⟨ret, s', entries', hrun, hlooked, hdeleted, hlinked⟩ :=
      h.linked.skiplistDelete_eq rounds beyond h.unlocked hcall.1 hcall.2 hfuel
    rw [← hrounds] at hrun
    refine ⟨s', _, entries', by rw [step, hrun]; rfl, hdeleted.sound h hlinked, ?_,
      hdeleted.length_le.trans (Nat.le_succ _), by simp [Call.preloads, hdeleted.preempt]⟩
    rw [hdeleted.stored h.linked hlinked]
    exact .delete key size beyond ret (hlooked.answers h.linked)
  | slFreeRcu a =>
    obtain ⟨s', hrun, hsound, hpreempt⟩ := h.slFreeRcu_eq hcall
    exact ⟨s', _, entries, by rw [step, hrun]; rfl, hsound, .freed a, Nat.le_succ _,
      by simp [Call.preloads, hpreempt]⟩

end Step

/-! ## All calls -/

/-- The list stores the set, in a number of leaves at most. -/
def Stores (top n : ℕ) (s : State α) (S : ExtentSet α) : Prop :=
  ∃ (entries : List (Entry α)) (h : Sound s entries), h.linked.stored = S ∧ entries.length ≤ n ∧
    ∀ t ∈ S, t.stop ≤ top

/-- **Every call of the code answers as the set allows.** -/
theorem step_refines {fuel top : ℕ} (htop : top < 2 ^ 64) :
    Refines (step (α := α) fuel) (Admissible top) Spec (Stores top) (fuel - 1) := by
  rintro n hn s S call ⟨entries, hsound, rfl, hlength, hbound⟩ hcall
  obtain ⟨s', answer, entries', hstep, hcalled⟩ :=
    hsound.step_eq htop hbound hcall (show entries.length + 1 < fuel by omega)
  have hmore := hcalled.length
  exact ⟨s', _, answer, hstep, hcalled.spec, entries', hcalled.sound, rfl, by omega,
    hcalled.spec.stop_le hcall hbound⟩

end ParallelPrograms.ExtentList
