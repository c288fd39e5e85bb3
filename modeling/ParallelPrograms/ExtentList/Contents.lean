import ParallelPrograms.ExtentList.Refinement

/-!
# Calls on a list with given contents

What one call does to the extents in the order of the list. This is the refinement of the set of
extents once more, for a caller that knows what the list holds.
-/

namespace ParallelPrograms.ExtentList

open Sequence

variable {α : Type}

theorem Extents.nonempty {slots : List (SlSlot α)} (h : Extents slots) :
    ∀ t ∈ slots, t.key < t.stop := fun t ht ↦ (h.valid t ht).key_lt_stop

/-- There are at most as many leaves as extents. -/
theorem Linked.length_le {s : State α} {entries : List (Entry α)} (h : Linked s entries) :
    entries.length ≤ (contents entries).length := by
  have hnonempty := h.nonempty
  clear h
  induction entries with
  | nil => exact le_rfl
  | cons e entries ih =>
    obtain ⟨he, hrest⟩ := List.forall_mem_cons.mp hnonempty
    calc
      (e :: entries).length = 1 + entries.length := Nat.add_comm _ _
      _ ≤ e.slots.length + (contents entries).length :=
        Nat.add_le_add (List.length_pos_iff.mpr he) (ih hrest)
      _ = (contents (e :: entries)).length := List.length_append.symm

/-- What `skiplist_delete` returns is no longer among the extents. -/
theorem Deleted.perm {s s' : State α} {entries entries' : List (Entry α)} {ret : Option (SlSlot α)}
    (h : Deleted s entries ret s' entries') :
    (ret.toList ++ contents entries').Perm (contents entries) := by
  cases h with
  | missing => exact .refl _
  | shrunk before after e left right t leaf hentries hslots =>
    have hbefore : contents entries =
        (contents before ++ left) ++ t :: (right ++ contents after) := by simp [hentries, hslots]
    have hafter : contents (before ++ { e with slots := left ++ right } :: after) =
        (contents before ++ left) ++ (right ++ contents after) := by simp
    rw [hbefore, hafter, Option.toList_some, List.singleton_append]
    exact List.perm_middle.symm
  | emptied before after e t leaf next prev hentries hslots =>
    have hbefore : contents entries = contents before ++ t :: contents after := by
      simp [hentries, hslots]
    rw [hbefore, contents_append, Option.toList_some, List.singleton_append]
    exact List.perm_middle.symm

/-- The call of the code is a call of the refinement. -/
theorem step_insert {s s' : State α} {fuel key size : ℕ} {slot : Option α} {alloc : Alloc} {ret : ℤ}
    (h : s.insertOneSkiplist fuel key size slot alloc = some (ret, s')) :
    step fuel s (.insert key size slot alloc) = some (s', .code ret) := by
  rw [step, h]
  rfl

/-- The leaves hold the extents. -/
def Keeps (s : State α) (slots : List (SlSlot α)) : Prop :=
  ∃ entries, Sound s entries ∧ contents entries = slots

namespace Keeps

variable {s : State α} {slots left right : List (SlSlot α)} {t : SlSlot α} {fuel key size : ℕ}
  {alloc : Alloc}

theorem extents (h : Keeps s slots) : Extents slots := by
  obtain ⟨entries, hsound, rfl⟩ := h
  exact hsound.linked.extents

/-- The order of the extents is theirs. -/
theorem eq_of_perm {slots' : List (SlSlot α)} (h : Keeps s slots) (h' : Extents slots')
    (hperm : slots.Perm slots') : slots = slots' :=
  h.extents.apart.eq_of_mem_iff h'.apart h.extents.nonempty h'.nonempty fun _ ↦ hperm.mem_iff

/-- **`insert_one_skiplist`** of an extent that overlaps no other one. It fails only for want of
memory. -/
theorem insertOneSkiplist_eq (entry : α) (h : Keeps s slots)
    (hfree : ∀ t ∈ slots, ¬ Overlaps key size t) (halloc : alloc.Fresh s) (hsize : 0 < size)
    (hfits : key + size < 2 ^ 64) (hfuel : slots.length < fuel) :
    ∃ ret s' slots', s.insertOneSkiplist fuel key size (some entry) alloc = some (ret, s') ∧
      Keeps s' slots' ∧ (ret = 0 ∧ slots'.Perm (⟨key, size, entry⟩ :: slots) ∨
        ret = -enomem ∧ alloc.leaf = none ∧ slots' = slots) := by
  obtain ⟨entries, hsound, rfl⟩ := h
  obtain ⟨ret, s', entries', hrun, hcalled⟩ := hsound.insertOneSkiplist_eq (some entry) halloc hsize
    hfits (hsound.linked.length_le.trans_lt hfuel)
  have hkeeps : Keeps s' (contents entries') := ⟨entries', hcalled.sound, rfl⟩
  refine ⟨ret, s', contents entries', hrun, hkeeps, ?_⟩
  have hspec := hcalled.spec
  generalize hstored : hcalled.sound.linked.stored = S' at hspec
  have hmem : ∀ u, u ∈ contents entries' ↔ u ∈ S' := fun u ↦ by
    rw [← hstored]
    rfl
  cases hspec with
  | noLeaf _ _ _ _ hnone =>
    refine .inr ⟨rfl, hnone, ?_⟩
    exact hkeeps.extents.apart.eq_of_mem_iff hsound.linked.extents.apart hkeeps.extents.nonempty
      hsound.linked.extents.nonempty hmem
  | overlapped _ _ _ _ hnot =>
    obtain ⟨t, ht, hmeets⟩ := (ExtentSet.not_freeAt_iff hsize).mp hnot
    exact absurd hmeets (hfree t ht)
  | inserted _ _ _ _ hpos _ =>
    have hnot : (⟨key, size, entry⟩ : SlSlot α) ∉ contents entries := fun ht ↦
      hfree _ ht ⟨Nat.lt_add_of_pos_right hpos, Nat.lt_add_of_pos_right hpos⟩
    have hnodup := hsound.linked.extents.apart.nodup hsound.linked.extents.nonempty
    refine .inl ⟨rfl, (List.perm_ext_iff_of_nodup (hkeeps.extents.apart.nodup
      hkeeps.extents.nonempty) (List.nodup_cons.mpr ⟨hnot, hnodup⟩)).mpr fun u ↦ ?_⟩
    rw [hmem, ExtentSet.mem_insert, List.mem_cons]
    rfl

/-- When `insert_one_skiplist` has no memory, `skiplist_preload` has allocated no leaf. -/
theorem skiplistPreload_of_enomem {s' : State α} {entry : α} (h : Keeps s slots)
    (halloc : alloc.Fresh s) (hsize : 0 < size) (hfits : key + size < 2 ^ 64)
    (hfuel : slots.length < fuel)
    (hrun : s.insertOneSkiplist fuel key size (some entry) alloc = some (-enomem, s')) :
    s.skiplistPreload alloc.randseed alloc.leaf alloc.leaf0 = (-enomem, s') := by
  obtain ⟨entries, hsound, rfl⟩ := h
  obtain ⟨token, s₁, hpreload, hpreloaded⟩ :=
    hsound.skiplistPreload_eq alloc.randseed halloc.leaf halloc.leaf0
  rw [State.insertOneSkiplist, hpreload] at hrun
  cases hpreloaded with
  | noMemory hleaf =>
    obtain ⟨-, hsame⟩ := Prod.ext_iff.mp (Option.some.inj hrun)
    rw [hpreload]
    exact Prod.ext rfl hsame
  | ready token a s₁ htoken ha hsound₁ hlevel hpreempt =>
    have hnonneg : ¬ (token : ℤ) < 0 := by omega
    have hs : SlSlot.Valid (⟨key, size, entry⟩ : SlSlot α) := ⟨hsize, hfits⟩
    obtain ⟨ret, s₂, entries', hinsert, hinsertion⟩ := hsound₁.linked.skiplistInsert_eq
      hsound₁.memory hsound₁.unlocked hs ha (hlevel ▸ htoken)
      (hsound.linked.length_le.trans_lt hfuel)
    simp only [hnonneg, if_false, Int.toNat_natCast, Option.bind_eq_bind, hinsert,
      Option.bind_some, Option.pure_def, Option.some.injEq, Prod.mk.injEq] at hrun
    -- `skiplist_insert` itself returns 0 or `-EEXIST`
    cases hinsertion with
    | added => exact absurd hrun.1 (by decide)
    | overlap => exact absurd hrun.1 (by decide)

/-- When memory can be allocated, the extent comes between those before and those behind it. -/
theorem insert (entry : α) (h : Keeps s (left ++ right)) (hgap : Between key size left right)
    (halloc : alloc.Fresh s) (hleaf : alloc.leaf ≠ none) (hsize : 0 < size)
    (hfits : key + size < 2 ^ 64) (hfuel : (left ++ right).length < fuel) :
    ∃ s', s.insertOneSkiplist fuel key size (some entry) alloc = some (0, s') ∧
      Keeps s' (left ++ ⟨key, size, entry⟩ :: right) := by
  have hext : Extents (left ++ ⟨key, size, entry⟩ :: right) := h.extents.insert ⟨hsize, hfits⟩ hgap
  obtain ⟨ret, s', slots', hrun, h', ⟨rfl, hperm⟩ | ⟨-, hnone, -⟩⟩ :=
    h.insertOneSkiplist_eq entry (fun t ht ↦ hgap.not_meets ht) halloc hsize hfits hfuel
  · exact ⟨s', hrun, h'.eq_of_perm hext (hperm.trans List.perm_middle.symm) ▸ h'⟩
  · exact absurd hnone hleaf

/-- **`skiplist_delete`** takes at most one extent out, and it takes the one that contains the
range. -/
theorem skiplistDelete_eq (beyond : ℕ × Option (SlSlot α)) (h : Keeps s slots) (hsize : 0 < size)
    (hrange : key + size < 2 ^ 64) (hfuel : slots.length + 1 < fuel) :
    ∃ ret s' slots', s.skiplistDelete fuel key size beyond fuel = some (ret, s') ∧ Keeps s' slots' ∧
      (ret.toList ++ slots').Perm slots ∧
      ∀ t ∈ slots, t.key ≤ key → key + size ≤ t.stop → ret = some t := by
  obtain ⟨entries, hsound, rfl⟩ := h
  obtain ⟨rounds, hrounds⟩ := Nat.exists_eq_add_one.mpr (Nat.zero_lt_of_lt hfuel)
  obtain ⟨ret, s', entries', hrun, hlooked, hdeleted, hlinked⟩ := hsound.linked.skiplistDelete_eq
    rounds beyond hsound.unlocked hsize hrange
      ((Nat.succ_le_succ hsound.linked.length_le).trans_lt hfuel)
  exact ⟨ret, s', contents entries', hrounds ▸ hrun,
    ⟨entries', hdeleted.sound hsound hlinked, rfl⟩, hdeleted.perm, fun t ht hkey hstop ↦
      (hlooked.answers hsound.linked).eq_some ht hkey hstop hsize⟩

/-- The extent that contains the range is taken out. -/
theorem delete (beyond : ℕ × Option (SlSlot α)) (h : Keeps s (left ++ t :: right))
    (hsize : 0 < size) (hkey : t.key ≤ key) (hstop : key + size ≤ t.stop)
    (hfuel : (left ++ t :: right).length + 1 < fuel) :
    ∃ s', s.skiplistDelete fuel key size beyond fuel = some (some t, s') ∧
      Keeps s' (left ++ right) := by
  have ht : t ∈ left ++ t :: right := by simp
  have hrange := hstop.trans_lt (h.extents.valid t ht).fits
  obtain ⟨ret, s', slots', hrun, h', hperm, hfound⟩ := h.skiplistDelete_eq beyond hsize hrange hfuel
  obtain rfl := hfound t ht hkey hstop
  have hrest : slots'.Perm (left ++ right) := (hperm.trans List.perm_middle).cons_inv
  have hsub : (left ++ right).Sublist (left ++ t :: right) := by simp
  exact ⟨s', hrun, h'.eq_of_perm (h.extents.of_sublist hsub) hrest ▸ h'⟩

/-- **Both lookups** find the extent that contains the range. -/
theorem lookups (h : Keeps s slots) (ht : t ∈ slots) (hsize : 0 < size) (hkey : t.key ≤ key)
    (hstop : key + size ≤ t.stop) (hfuel : slots.length < fuel) :
    s.skiplistLookup fuel key size fuel = some (some t, s) ∧
      s.skiplistLookupRcu fuel key size fuel = some (some t) := by
  have hext := h.extents
  obtain ⟨entries, hsound, rfl⟩ := h
  have hfuel' := hsound.linked.length_le.trans_lt hfuel
  obtain ⟨rounds, hrounds⟩ := Nat.exists_eq_add_one.mpr (Nat.zero_lt_of_lt hfuel)
  have hrange := hstop.trans_lt (hext.valid t ht).fits
  obtain ⟨ret, hrun, hlooked⟩ :=
    hsound.linked.skiplistLookup_eq rounds hsound.unlocked hsize hrange hfuel'
  obtain ⟨ret', hrun', hlooked'⟩ :=
    hsound.linked.skiplistLookupRcu_eq rounds hsize hrange hfuel'
  rw [← hrounds] at hrun hrun'
  have hret := (hlooked.answers hsound.linked).eq_some ht hkey hstop hsize
  have hret' := (hlooked'.answers hsound.linked).eq_some ht hkey hstop hsize
  exact ⟨hret ▸ hrun, hret' ▸ hrun'⟩

end Keeps

end ParallelPrograms.ExtentList
