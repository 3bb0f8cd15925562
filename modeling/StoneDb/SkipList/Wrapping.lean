import StoneDb.SkipList.Memory

/-!
# The bounds check of the arena

`alloc` rounds a size up and adds it to the bump pointer before it compares the sum with the
capacity, and `alloc_node` adds up the size that it asks for.  All these sums are of `usize` values
and wrap, so the comparison is one of the sum modulo `2^64` (`Arena.alloc_mod`).

An allocation is inside the arena exactly if no sum wraps, or the sum that has wrapped is still
refused (`Arena.bounded_iff`).  The bump pointer itself stays inside the arena, and aligned, in
every state (`Arena.State.invariant`).
-/

namespace StoneDb

namespace Arena

/-- The states of an arena: a new one, what an allocation of any size leaves behind, and whatever is
stored in the blocks. -/
inductive State (capacity : ℕ) : Arena → Prop
  | new {a : Arena} (hnew : withCapacity capacity = .ok a) : State capacity a
  | alloc {a a' : Arena} {size o : ℕ} (h : State capacity a) (hrun : alloc size a = .ok o a') :
    State capacity a'
  | store {a : Arena} (h : State capacity a) (node : ℕ → Option Node) :
    State capacity { a with node }

/-- The offset that the next allocation returns. -/
def nextOffset (a : Arena) : ℕ := a.ptr.getD 8

/-- The bump pointer is aligned and inside the arena, which is no larger than its layout may be. -/
structure Invariant (a : Arena) : Prop where
  capacity_le : a.capacity ≤ isizeMax - 7
  ptr_le : ∀ p, a.ptr = some p → p ≤ a.capacity
  dvd : 8 ∣ a.nextOffset

/-- What `alloc` returns for a size that is the wrapped sum `total`. -/
theorem alloc_mod (a : Arena) (total : ℕ) :
    alloc (total % 2 ^ 64) a =
      let new := (a.nextOffset + (total + 7) / 8 * 8) % 2 ^ 64
      if a.capacity < new then .error .outOfMemory a else .ok a.nextOffset (a.setPtr new) := by
  have hsum : wrappingAdd a.nextOffset (alignSize (total % 2 ^ 64)) =
      (a.nextOffset + (total + 7) / 8 * 8) % 2 ^ 64 := by
    rw [alignSize_mod, wrappingAdd, Nat.add_mod_mod]
  have halloc : alloc (total % 2 ^ 64) a =
      let new := wrappingAdd a.nextOffset (alignSize (total % 2 ^ 64))
      if a.capacity < new then .error .outOfMemory a else .ok a.nextOffset (a.setPtr new) :=
    alloc_eq a _
  rwa [hsum] at halloc

/-- Only the size modulo `2^64` matters. -/
theorem alignSize_congr (size : ℕ) : alignSize (size % 2 ^ 64) = alignSize size := by
  rw [alignSize, alignSize, wrappingAdd, wrappingAdd, Nat.mod_add_mod]

theorem alloc_congr (a : Arena) (size : ℕ) : alloc (size % 2 ^ 64) a = alloc size a := by
  rw [alloc_eq, alloc_eq, alignSize_congr]

variable {a a' : Arena} {capacity size total o : ℕ}

theorem Invariant.alloc (h : a.Invariant) (hrun : Arena.alloc size a = .ok o a') :
    a'.Invariant := by
  rw [← alloc_congr, alloc_mod] at hrun
  simp only at hrun
  split_ifs at hrun with hfull
  cases hrun
  have hdvd := h.dvd
  refine ⟨h.capacity_le, fun p hp => ?_, ?_⟩
  · cases hp
    exact not_lt.1 hfull
  · -- a multiple of 8 stays one when it wraps
    change 8 ∣ (a.nextOffset + (size + 7) / 8 * 8) % 2 ^ 64
    omega

/-- Every state of an arena satisfies the invariant, whatever has wrapped. -/
theorem State.invariant (h : State capacity a) : a.Invariant := by
  induction h with
  | new hnew =>
    unfold withCapacity at hnew
    split_ifs at hnew with hcap
    cases hnew
    exact ⟨not_lt.1 hcap, nofun, show 8 ∣ 8 from dvd_refl 8⟩
  | alloc _ hrun ih => exact ih.alloc hrun
  | store _ _ ih => exact ⟨ih.capacity_le, ih.ptr_le, ih.dvd⟩

/-- **A block is inside the arena** exactly if none of the sums wraps, or the sum that has wrapped
is refused. -/
theorem bounded_iff (h : a.Invariant) (total : ℕ) :
    (∀ o a', alloc (total % 2 ^ 64) a = .ok o a' → o + total ≤ a.capacity) ↔
      a.nextOffset + total + 7 < 2 ^ 64 ∨
        a.capacity < (a.nextOffset + (total + 7) / 8 * 8) % 2 ^ 64 := by
  have hcap := h.capacity_le
  simp only [isizeMax] at hcap
  have hrun := alloc_mod a total
  simp only at hrun
  constructor
  · intro hbounded
    by_cases hfull : a.capacity < (a.nextOffset + (total + 7) / 8 * 8) % 2 ^ 64
    · exact Or.inr hfull
    · -- the arena ends far below the top of the address space
      rw [if_neg hfull] at hrun
      have hend := hbounded _ _ hrun
      exact Or.inl (by omega)
  · rintro hor o a' hok
    split_ifs at hrun with hfull
    · rw [hrun] at hok
      cases hok
    · rw [hrun] at hok
      cases hok
      have hsum := hor.resolve_right hfull
      rw [Nat.mod_eq_of_lt (by omega)] at hfull
      omega

/-- `alloc` returns an offset only if the size fits behind it, and panics otherwise. -/
def AllocBounded (a : Arena) (size : ℕ) : Prop :=
  (∀ o a', alloc size a = .ok o a' → o + size ≤ a.capacity) ∧
    (a.capacity < a.nextOffset + size → alloc size a = .error .outOfMemory a)

/-- The bytes that `alloc_node` writes. -/
def nodeTotal (key value : Bytes) (height : ℕ) : ℕ := kvDataOff height + key.length + value.length

/-- `alloc_node` receives a block inside the arena that is not smaller than what it writes. -/
def NodeBounded (a : Arena) (key value : Bytes) (height : ℕ) : Prop :=
  ∀ o a', alloc (nodeSize key value height) a = .ok o a' →
    nodeTotal key value height ≤ alignSize (nodeSize key value height) ∧
      o + nodeTotal key value height ≤ a.capacity

theorem allocBounded_iff (h : a.Invariant) (hsize : size < 2 ^ 64) :
    a.AllocBounded size ↔ a.nextOffset + size + 7 < 2 ^ 64 ∨
      a.ptr = none ∧ a.capacity < 8 ∧ 2 ^ 64 ≤ size + 7 := by
  have hmod : size % 2 ^ 64 = size := Nat.mod_eq_of_lt hsize
  have hiff := bounded_iff h size
  have hrun := alloc_mod a size
  rw [hmod] at hiff hrun
  -- the panic follows: `alloc` either returns or panics
  have hpanic : a.AllocBounded size ↔
      ∀ o a', alloc size a = .ok o a' → o + size ≤ a.capacity := by
    refine ⟨fun hb => hb.1, fun hb => ⟨hb, fun hlt => ?_⟩⟩
    simp only at hrun
    split_ifs at hrun with hfull
    · exact hrun
    · exact absurd (hb _ _ hrun) (not_le.2 hlt)
  rw [hpanic, hiff]
  have hcap := h.capacity_le
  simp only [isizeMax] at hcap
  have hdvd := h.dvd
  cases hptr : a.ptr with
  | none =>
    have hoff : a.nextOffset = 8 := by rw [nextOffset, hptr, Option.getD_none]
    rw [hoff]
    simp only [true_and]
    omega
  | some p =>
    have hp := h.ptr_le p hptr
    have hoff : a.nextOffset = p := by rw [nextOffset, hptr, Option.getD_some]
    rw [hoff] at hdvd ⊢
    simp only [reduceCtorEq, false_and, or_false]
    omega

theorem nodeSize_eq_mod (key value : Bytes) (height : ℕ) :
    nodeSize key value height = nodeTotal key value height % 2 ^ 64 := by
  rw [nodeSize, wrappingAdd, wrappingAdd, Nat.mod_add_mod, nodeTotal]

theorem nodeBounded_iff (h : a.Invariant) (key value : Bytes) (height : ℕ) :
    a.NodeBounded key value height ↔ a.nextOffset + nodeTotal key value height + 7 < 2 ^ 64 ∨
      a.capacity < (a.nextOffset + (nodeTotal key value height + 7) / 8 * 8) % 2 ^ 64 := by
  have hiff := bounded_iff h (nodeTotal key value height)
  rw [← nodeSize_eq_mod] at hiff
  rw [← hiff]
  refine ⟨fun hb o a' hok => (hb o a' hok).2, fun hb o a' hok => ⟨?_, hb o a' hok⟩⟩
  -- the arena is below `2^63`, so a node inside it has a size that does not wrap
  have hend := hb o a' hok
  have hcap := h.capacity_le
  simp only [isizeMax] at hcap
  rw [nodeSize_eq_mod, alignSize_mod]
  omega

/-- **When the bounds check holds.**  In every state of an arena: `alloc` is sound for a size
exactly if neither the rounding nor the end of the block wraps (or the arena is too small for the
null offset), and `alloc_node` for a node exactly if its size does not wrap either, or what is left
after wrapping is still refused. -/
theorem bounds_check_iff (h : State capacity a) :
    (∀ size < 2 ^ 64, a.AllocBounded size ↔ a.nextOffset + size + 7 < 2 ^ 64 ∨
      a.ptr = none ∧ a.capacity < 8 ∧ 2 ^ 64 ≤ size + 7) ∧
    ∀ (key value : Bytes) (height : ℕ), a.NodeBounded key value height ↔
      a.nextOffset + nodeTotal key value height + 7 < 2 ^ 64 ∨
        a.capacity < (a.nextOffset + (nodeTotal key value height + 7) / 8 * 8) % 2 ^ 64 :=
  ⟨fun _ hsize => allocBounded_iff h.invariant hsize, nodeBounded_iff h.invariant⟩

theorem bounds_check_iff_new : ∃ a, withCapacity 1024 = .ok a ∧ a.AllocBounded 1000 ∧
    a.NodeBounded [1] [2, 3] 19 := by
  obtain ⟨a, ha⟩ : ∃ a, withCapacity 1024 = .ok a ∧ a.nextOffset = 8 := ⟨_, rfl, rfl⟩
  have hiff := bounds_check_iff (.new ha.1)
  refine ⟨a, ha.1, (hiff.1 1000 (by decide)).2 (Or.inl ?_), (hiff.2 [1] [2, 3] 19).2 (Or.inl ?_)⟩
  · rw [ha.2]
    decide
  · rw [ha.2]
    decide

/-- The bounds check holds for every size that a `usize` can have, and for every node. -/
def BoundsChecked : Prop := ∀ capacity a, State capacity a →
  (∀ size < 2 ^ 64, a.AllocBounded size) ∧ ∀ (key value : Bytes) (height : ℕ),
    key.length ≤ isizeMax → value.length ≤ isizeMax → a.NodeBounded key value height

/-- In an arena of 1024 bytes, a size of `usize::MAX` is rounded to 0 and gets the offset 8; and a
key and a value of `isize::MAX` bytes each get a block of 32 bytes. -/
theorem bounds_check_wraps : ∃ a a' : Arena, withCapacity 1024 = .ok a ∧
    alloc (2 ^ 64 - 1) a = .ok 8 (a.setPtr 8) ∧
    (∀ key value : Bytes, key.length = isizeMax → value.length = isizeMax →
      alloc (nodeSize key value 0) a = .ok 8 a' ∧ alignSize (nodeSize key value 0) = 32) ∧
    ¬ BoundsChecked := by
  obtain ⟨a, ha, hoff, hptr, hcap⟩ : ∃ a, withCapacity 1024 = .ok a ∧ a.nextOffset = 8 ∧
      a.ptr = none ∧ a.capacity = 1024 := ⟨_, rfl, rfl, rfl, rfl⟩
  refine ⟨a, a.setPtr 40, ha, ?_, fun key value hk hv => ?_, fun hall => ?_⟩
  · have hrun := alloc_mod a (2 ^ 64 - 1)
    rw [hoff, hcap] at hrun
    exact hrun
  · have hrun := alloc_mod a (nodeTotal key value 0)
    have hsize := alignSize_mod (nodeTotal key value 0)
    rw [← nodeSize_eq_mod] at hrun hsize
    rw [nodeTotal, hk, hv] at hrun hsize
    rw [hoff, hcap] at hrun
    exact ⟨hrun, hsize⟩
  · have hb := (hall 1024 a (.new ha)).1 (2 ^ 64 - 1) (by decide)
    have hiff := (allocBounded_iff (State.new ha).invariant (by decide)).1 hb
    rw [hoff, hcap] at hiff
    omega

end Arena

end StoneDb
