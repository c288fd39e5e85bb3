import ParallelPrograms.ExtentList.Calls
import ParallelPrograms.ExtentList.LeafSearch
import ParallelPrograms.Sequence.Ranges

/-!
# The set of extents

What the extent skip list is for: it stores extents of which no two overlap. An extent is added when
its range is free, an extent is looked up or deleted through a range that it overlaps, and a hole is
the first free range from a hint on. This says for every call what it may do to the set and what it
may answer.
-/

namespace ParallelPrograms.ExtentList

open Sequence

variable {α : Type}

/-- A set of extents that are not empty, and of which no two overlap. -/
@[ext]
structure ExtentSet (α : Type) where
  extents : Set (SlSlot α)
  separate : Separate SlSlot.key SlSlot.stop extents
  pos : ∀ t ∈ extents, t.key < t.stop

namespace ExtentSet

instance : Membership (SlSlot α) (ExtentSet α) := ⟨fun S t ↦ t ∈ S.extents⟩

instance : EmptyCollection (ExtentSet α) := ⟨⟨∅, Set.pairwiseDisjoint_empty, by simp⟩⟩

variable (S : ExtentSet α) {t u : SlSlot α} {key size : ℕ} {ret : Option (SlSlot α)}

/-- The keys from `key` on for `size` are in no extent. -/
def FreeAt (key size : ℕ) : Prop := Free SlSlot.key SlSlot.stop S.extents key (key + size)

def insert (t : SlSlot α) (hpos : 0 < t.size) (hfree : S.FreeAt t.key t.size) : ExtentSet α where
  extents := Insert.insert t S.extents
  separate := S.separate.insert hfree
  pos := Set.forall_mem_insert.mpr ⟨Nat.lt_add_of_pos_right hpos, S.pos⟩

def remove (ret : Option (SlSlot α)) : ExtentSet α where
  extents := S.extents \ {t | t ∈ ret}
  separate := S.separate.subset Set.sdiff_subset
  pos t ht := S.pos t ht.1

variable {S}

theorem not_mem_empty : t ∉ (∅ : ExtentSet α) := Set.notMem_empty t

@[simp]
theorem mem_insert {hpos : 0 < t.size} {hfree : S.FreeAt t.key t.size} :
    u ∈ S.insert t hpos hfree ↔ u = t ∨ u ∈ S := Set.mem_insert_iff

@[simp]
theorem mem_remove : t ∈ S.remove ret ↔ t ∈ S ∧ t ∉ ret := Iff.rfl

theorem not_freeAt_iff (hsize : 0 < size) :
    ¬ S.FreeAt key size ↔ ∃ t ∈ S, Overlaps key size t :=
  not_free_iff (Nat.lt_add_of_pos_right hsize) S.pos

end ExtentSet

/-- What looking up a range may answer. An extent that contains the key is found, and one that lies
behind the key may be found or not. -/
structure Answers (S : ExtentSet α) (key size : ℕ) (ret : Option (SlSlot α)) : Prop where
  found : ∀ t ∈ ret, t ∈ S ∧ Overlaps key size t
  missing : ret = none → ∀ t ∈ S, ¬ (t.key ≤ key ∧ key < t.stop)

/-- What a call may do to the set, with its answer. -/
inductive Spec (S : ExtentSet α) : Call α → Answer α → ExtentSet α → Prop where
  | noSlot (key size : ℕ) (alloc : Alloc) : Spec S (.insert key size none alloc) (.code (-enomem)) S
  | noLeaf (key size : ℕ) (slot : Option α) (alloc : Alloc) (hleaf : alloc.leaf = none) :
      Spec S (.insert key size slot alloc) (.code (-enomem)) S
  | inserted (key size : ℕ) (entry : α) (alloc : Alloc) (hpos : 0 < size)
      (hfree : S.FreeAt key size) :
      Spec S (.insert key size (some entry) alloc) (.code 0) (S.insert ⟨key, size, entry⟩ hpos hfree)
  | overlapped (key size : ℕ) (entry : α) (alloc : Alloc) (hfree : ¬ S.FreeAt key size) :
      Spec S (.insert key size (some entry) alloc) (.code (-eexist)) S
  | noHoleLeaf (hint limit size align : ℕ) (slot : SlSlot α) (alloc : Alloc)
      (hleaf : alloc.leaf = none) :
      Spec S (.insertHole hint limit size align slot alloc) (.hole (-enomem) slot) S
  /-- There is no room between the hint and the limit. -/
  | full (hint limit size align : ℕ) (slot : SlSlot α) (alloc : Alloc)
      (hfull : ∀ a, align ∣ a → hint ≤ a → a + size ≤ limit → ¬ S.FreeAt a size) :
      Spec S (.insertHole hint limit size align slot alloc)
        (.hole (-eexist) { slot with key := roundUp align hint, size := size }) S
  /-- The first room from the hint on is taken, or some before. -/
  | placed (hint limit size align : ℕ) (slot : SlSlot α) (alloc : Alloc) (key : ℕ) (hpos : 0 < size)
      (halign : align ∣ key) (hlimit : key + size ≤ limit) (hfree : S.FreeAt key size)
      (hfirst : ∀ a, align ∣ a → hint ≤ a → a < key → ¬ S.FreeAt a size) :
      Spec S (.insertHole hint limit size align slot alloc)
        (.hole 0 { slot with key := key, size := size })
        (S.insert { slot with key := key, size := size } hpos hfree)
  /-- An extent lies around the aligned hint or around the aligned end of an extent. -/
  | collided (hint limit size align : ℕ) (slot : SlSlot α) (alloc : Alloc) (key : ℕ) (t : SlSlot α)
      (ht : t ∈ S) (hkey : t.key < key) (hstop : key < t.stop)
      (hstart : key = roundUp align hint ∨ ∃ u ∈ S, key = roundUp align u.stop) :
      Spec S (.insertHole hint limit size align slot alloc)
        (.hole (-eagain) { slot with key := key, size := size }) S
  | lookup (key size : ℕ) (ret : Option (SlSlot α)) (hret : Answers S key size ret) :
      Spec S (.lookup key size) (.slot ret) S
  | lookupRcu (key size : ℕ) (ret : Option (SlSlot α)) (hret : Answers S key size ret) :
      Spec S (.lookupRcu key size) (.slot ret) S
  | delete (key size : ℕ) (beyond : ℕ × Option (SlSlot α)) (ret : Option (SlSlot α))
      (hret : Answers S key size ret) :
      Spec S (.delete key size beyond) (.slot ret) (S.remove ret)
  | freed (a : Addr) : Spec S (.slFreeRcu a) .done S

section Spec

variable {S S' : ExtentSet α} {call : Call α} {answer : Answer α} {t : SlSlot α}
  {ret : Option (SlSlot α)} {key size hint limit align top : ℕ} {slot slot' : SlSlot α}
  {alloc : Alloc} {code : ℤ}

/-- A range inside of an extent leads to this extent. -/
theorem Answers.eq_some (h : Answers S key size ret) (ht : t ∈ S) (hkey : t.key ≤ key)
    (hstop : key + size ≤ t.stop) (hsize : 0 < size) : ret = some t := by
  cases ret with
  | none => exact absurd ⟨hkey, by omega⟩ (h.missing rfl t ht)
  | some u =>
    obtain ⟨hu, hmeets⟩ := h.found u rfl
    rw [S.separate.eq_of_meets ht hu (S.pos u hu) (Nat.lt_add_of_pos_right hsize) hkey hstop hmeets]

/-- No call adds an extent that ends behind `top`. -/
theorem Spec.stop_le {s : State α} (hspec : Spec S call answer S') (hcall : Admissible top s call)
    (h : ∀ t ∈ S, t.stop ≤ top) : ∀ t ∈ S', t.stop ≤ top := by
  cases hspec with
  | inserted key size entry alloc hpos hfree => exact Set.forall_mem_insert.mpr ⟨hcall.2.1, h⟩
  | placed hint limit size align slot alloc key hpos halign hlimit hfree hfirst =>
    exact Set.forall_mem_insert.mpr ⟨hlimit.trans hcall.2.1, h⟩
  | delete key size beyond ret hret => exact fun t ht ↦ h t ht.1
  | _ => exact h

/-- An extent is removed only by a call of `skiplist_delete` that returns it. -/
theorem Spec.mem (hspec : Spec S call answer S') (ht : t ∈ S)
    (hkept : ∀ key size beyond, call = .delete key size beyond → answer ≠ .slot (some t)) :
    t ∈ S' := by
  cases hspec with
  | inserted key size entry alloc hpos hfree => exact .inr ht
  | placed hint limit size align slot alloc key hpos halign hlimit hfree hfirst => exact .inr ht
  | delete key size beyond ret hret =>
    refine ⟨ht, fun hret ↦ hkept key size beyond rfl ?_⟩
    rw [Option.mem_def.mp hret]
  | _ => exact ht

/-! ## Aligned extents -/

/-- The extent begins and ends at multiples of `align`. -/
def SlSlot.Aligned (align : ℕ) (t : SlSlot α) : Prop := align ∣ t.key ∧ align ∣ t.stop

/-- The call inserts only aligned extents. -/
def Call.Aligned (align : ℕ) : Call α → Prop
  | .insert key size _ _ => align ∣ key ∧ align ∣ size
  | .insertHole _ _ size align' _ _ => align' = align ∧ align ∣ size
  | .lookup .. | .lookupRcu .. | .delete .. | .slFreeRcu _ => True

theorem Spec.aligned (hspec : Spec S call answer S') (hcall : call.Aligned align)
    (h : ∀ t ∈ S, t.Aligned align) : ∀ t ∈ S', t.Aligned align := by
  cases hspec with
  | inserted key size entry alloc hpos hfree =>
    exact Set.forall_mem_insert.mpr ⟨⟨hcall.1, Nat.dvd_add hcall.1 hcall.2⟩, h⟩
  | placed hint limit size align slot alloc key hpos halign hlimit hfree hfirst =>
    obtain ⟨rfl, hsize⟩ := hcall
    exact Set.forall_mem_insert.mpr ⟨⟨halign, Nat.dvd_add halign hsize⟩, h⟩
  | delete key size beyond ret hret => exact fun t ht ↦ h t ht.1
  | _ => exact h

/-- Where the extents are aligned, only one around the hint can be in the way. -/
theorem Spec.ne_eagain
    (hspec : Spec S (.insertHole hint limit size align slot alloc) (.hole code slot') S')
    (hpos : 0 < align) (haligned : ∀ t ∈ S, t.Aligned align)
    (hhint : ∀ t ∈ S, ¬ (t.key < hint ∧ hint < t.stop)) : code ≠ -eagain := by
  have hup := rounding_roundUp hpos
  cases hspec with
  | noHoleLeaf => decide
  | full => decide
  | placed => decide
  | collided hint limit size align slot alloc key t ht hkey hstop hstart =>
    refine absurd ?_ (hhint t ht)
    rcases hstart with rfl | ⟨u, hu, rfl⟩
    · refine ⟨?_, (hup.le hint).trans_lt hstop⟩
      by_contra hle
      exact hkey.not_ge (hup.least hint t.key (haligned t ht).1 (Nat.le_of_not_lt hle))
    · have hend : roundUp align u.stop = u.stop :=
        (hup.least _ _ (haligned u hu).2 le_rfl).antisymm (hup.le _)
      rw [hend] at hkey hstop
      exact absurd ⟨hkey, hstop⟩ (S.separate.not_ends_inside ht hu (S.pos u hu))

/-- Room that is left is found. -/
theorem Spec.eq_zero
    (hspec : Spec S (.insertHole hint limit size align slot alloc) (.hole code slot') S')
    (hleaf : alloc.leaf ≠ none) (hroom : ∃ a, align ∣ a ∧ hint ≤ a ∧ a + size ≤ limit ∧
      S.FreeAt a size) : code = 0 ∨ code = -eagain := by
  cases hspec with
  | noHoleLeaf _ _ _ _ _ _ hnone => exact absurd hnone hleaf
  | full _ _ _ _ _ _ hfull =>
    obtain ⟨a, ha, hle, hlimit, hfree⟩ := hroom
    exact absurd hfree (hfull a ha hle hlimit)
  | placed => exact .inl rfl
  | collided => exact .inr rfl

end Spec

end ParallelPrograms.ExtentList
