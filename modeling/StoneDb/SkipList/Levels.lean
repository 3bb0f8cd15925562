import StoneDb.SkipList.Invariant
import StoneDb.SkipList.Layout

/-!
# Towers hold what their level allows

What the accesses to towers rest on, whatever the comparator and the keys are: a slot of level `l`
holds the null offset or the offset of a node that has a slot of level `l` itself
(`SkipList.Leveled`).  So a search that stands on such a node finds another one, and can go down
(`Leveled.spliceStep_spec`, `Leveled.lowerBoundStep_spec`, …).

The list only ever extends (`Arena.Extends`): nodes are added, and of the old ones nothing but back
pointers and forward offsets changes.
-/

namespace StoneDb

open SkipList

namespace Arena

/-- What a slot of level `l` may hold: the null offset, or a node with a slot of level `l`. -/
def Target (a : Arena) (l o : ℕ) : Prop := o = 0 ∨ a.HasSlot o l

/-- `a'` has the nodes of `a`, up to back pointers and forward offsets, and perhaps more. -/
structure Extends (a a' : Arena) : Prop where
  capacity : a'.capacity = a.capacity
  node : ∀ o n, a.node o = some n → ∃ prev tower, a'.node o = some { n with prev, tower }

variable {a a' a'' : Arena} {o o' l x : ℕ} {n : Node}

theorem hasSlot_zero : a.HasSlot o 0 ↔ a.Alive o :=
  ⟨HasSlot.alive, fun ⟨n, hn⟩ => ⟨n, hn, Nat.zero_le _⟩⟩

theorem target_null (a : Arena) (l : ℕ) : a.Target l 0 := Or.inl rfl

theorem HasSlot.target (h : a.HasSlot o l) : a.Target l o := Or.inr h

theorem Target.hasSlot (h : a.Target l o) (h0 : o ≠ 0) : a.HasSlot o l := h.resolve_left h0

theorem Target.mono {l' : ℕ} (h : a.Target l o) (hl : l' ≤ l) : a.Target l' o :=
  h.imp_right fun hs => hs.mono hl

namespace Extends

theorem refl (a : Arena) : a.Extends a := ⟨rfl, fun _ n hn => ⟨n.prev, n.tower, hn⟩⟩

theorem trans (h : a.Extends a') (h' : a'.Extends a'') : a.Extends a'' := by
  refine ⟨h'.capacity.trans h.capacity, fun o n hn => ?_⟩
  obtain ⟨prev, tower, hn'⟩ := h.node o n hn
  obtain ⟨prev', tower', hn''⟩ := h'.node o _ hn'
  exact ⟨prev', tower', hn''⟩

theorem hasSlot (h : a.Extends a') (ho : a.HasSlot o l) : a'.HasSlot o l := by
  obtain ⟨n, hn, hl⟩ := ho
  obtain ⟨prev, tower, hn'⟩ := h.node o n hn
  exact ⟨_, hn', hl⟩

theorem target (h : a.Extends a') (ho : a.Target l o) : a'.Target l o := ho.imp_right h.hasSlot

theorem setNext (a : Arena) (o l x : ℕ) : a.Extends (a.setNext o l x) := by
  refine ⟨setNext_capacity .., fun o' n hn => ?_⟩
  rw [node_setNext, hn, Option.map_some]
  split_ifs
  · exact ⟨_, _, rfl⟩
  · exact ⟨n.prev, n.tower, rfl⟩

theorem setPrev (a : Arena) (o x : ℕ) : a.Extends (a.setPrev o x) := by
  refine ⟨setPrev_capacity .., fun o' n hn => ?_⟩
  rw [node_setPrev, hn, Option.map_some]
  split_ifs
  · exact ⟨_, _, rfl⟩
  · exact ⟨n.prev, n.tower, rfl⟩

theorem setPtr (a : Arena) (p : ℕ) : a.Extends (a.setPtr p) :=
  ⟨rfl, fun _ n hn => ⟨n.prev, n.tower, hn⟩⟩

theorem write (hfresh : ¬ a.Alive o) (n : Node) : a.Extends (a.write o n) := by
  refine ⟨rfl, fun o' n' hn' => ⟨n'.prev, n'.tower, ?_⟩⟩
  have hne : o' ≠ o := fun he => hfresh (he ▸ ⟨n', hn'⟩)
  rw [node_write, if_neg hne, hn']

end Extends

end Arena

/-! ### The invariant -/

namespace SkipList

/-- **Slots lead to slots**: the head has all levels, and what a slot of a level holds has a slot of
that level.  Back pointers lead to nodes. -/
structure Leveled (sl : SkipList) : Prop where
  head_slot : sl.arena.HasSlot sl.head (maxHeight - 1)
  height_lt : sl.height < maxHeight
  next : ∀ o l, sl.arena.HasSlot o l → sl.arena.Target l (sl.arena.nextAt o l)
  prev : ∀ o, sl.arena.HasSlot o 0 → sl.arena.Target 0 (sl.arena.prevAt o)

theorem target_orNone {sl : SkipList} {o : ℕ} (ho : sl.arena.Target 0 o) :
    sl.arena.Target 0 (sl.orNone o) := by
  unfold orNone
  split_ifs
  · exact Arena.target_null _ _
  · exact ho

namespace Leveled

variable {sl : SkipList} {o l x : ℕ} {key : Bytes} {height : ℕ}

section

variable (h : sl.Leveled)

include h

theorem head (hl : l < maxHeight) : sl.arena.HasSlot sl.head l :=
  h.head_slot.mono (Nat.le_sub_one_of_lt hl)

/-- A store to a slot. -/
theorem setNext (hx : sl.arena.Target l x) :
    Leveled { sl with arena := sl.arena.setNext o l x } where
  head_slot := by simpa using h.head_slot
  height_lt := h.height_lt
  next o' l' hs := by
    have hs' : sl.arena.HasSlot o' l' := by simpa using hs
    refine (Arena.Extends.setNext _ _ _ _).target ?_
    by_cases ho : o' = o ∧ l' = l
    · obtain ⟨rfl, rfl⟩ := ho
      rw [Arena.nextAt_setNext_self hs'.alive]
      exact hx
    · rw [Arena.nextAt_setNext_of_ne (by tauto)]
      exact h.next o' l' hs'
  prev o' hs := by
    rw [Arena.prevAt_setNext]
    exact (Arena.Extends.setNext _ _ _ _).target (h.prev o' (by simpa using hs))

/-- A store to a back pointer. -/
theorem setPrev (hx : sl.arena.Target 0 x) :
    Leveled { sl with arena := sl.arena.setPrev o x } where
  head_slot := by simpa using h.head_slot
  height_lt := h.height_lt
  next o' l' hs := by
    rw [Arena.nextAt_setPrev]
    exact (Arena.Extends.setPrev _ _ _).target (h.next o' l' (by simpa using hs))
  prev o' hs := by
    have hs' : sl.arena.HasSlot o' 0 := by simpa using hs
    refine (Arena.Extends.setPrev _ _ _).target ?_
    by_cases ho : o' = o
    · subst ho
      rw [Arena.prevAt_setPrev_self hs'.alive]
      exact hx
    · rw [Arena.prevAt_setPrev_of_ne ho]
      exact h.prev o' hs'

/-- Reserving a block. -/
theorem setPtr (p : ℕ) : Leveled { sl with arena := sl.arena.setPtr p } :=
  ⟨h.head_slot, h.height_lt, h.next, h.prev⟩

/-- Initialising a block: the new slots hold the null offset. -/
theorem write (hfresh : ¬ sl.arena.Alive o) (key value : Bytes) (height : ℕ) :
    Leveled { sl with arena := sl.arena.write o (Node.init key value height) } where
  head_slot := (Arena.Extends.write hfresh _).hasSlot h.head_slot
  height_lt := h.height_lt
  next o' l' hs := by
    by_cases ho : o' = o
    · subst ho
      exact Or.inl (by simp [Arena.nextAt, Arena.node_write, Node.init])
    · rw [Arena.nextAt_write_of_ne ho]
      exact (Arena.Extends.write hfresh _).target
        (h.next o' l' ((Arena.hasSlot_write_of_ne ho).1 hs))
  prev o' hs := by
    by_cases ho : o' = o
    · subst ho
      exact Or.inl (by simp [Arena.prevAt, Arena.node_write, Node.init])
    · rw [Arena.prevAt_write_of_ne ho]
      exact (Arena.Extends.write hfresh _).target (h.prev o' ((Arena.hasSlot_write_of_ne ho).1 hs))

/-- Raising the list height. -/
theorem raise (hh : height < maxHeight) : Leveled { sl with height } :=
  ⟨h.head_slot, hh, h.next, h.prev⟩

/-! ### Searching -/

/-- A load in a tower. -/
theorem load (ho : sl.arena.HasSlot o l) :
    nodeNextOffset sl.arena o l = .ok (sl.arena.nextAt o l) ∧
      sl.arena.Target l (sl.arena.nextAt o l) :=
  ⟨nodeNextOffset_eq ho, h.next o l ho⟩

/-- One iteration of `find_splice_for_level` stays on nodes with a slot of the level. -/
theorem spliceStep_spec (key : Bytes) {level before : ℕ} (hl : level < maxHeight)
    (hb : sl.arena.Target level before) :
    (∃ q, sl.spliceStep key level before = .ok (.next q) ∧ sl.arena.HasSlot q level) ∨
      ∃ p n, sl.spliceStep key level before = .ok (.done (p, n)) ∧ sl.arena.HasSlot p level ∧
        sl.arena.Target level n := by
  have hslot : sl.arena.HasSlot (if before = 0 then sl.headOffset else before) level := by
    split_ifs with h0
    · exact h.head hl
    · exact hb.hasSlot h0
  obtain ⟨hload, hnext⟩ := h.load hslot
  simp only [spliceStep, hload, bind, Except.bind]
  generalize sl.arena.nextAt _ level = n at *
  by_cases hn : n = 0
  · simp only [hn, if_true]
    exact Or.inr ⟨_, _, rfl, hslot, Arena.target_null _ _⟩
  · have hs := hnext.hasSlot hn
    simp only [hn, if_false, nodeKey_eq hs.alive]
    cases sl.cmp.compareKey (sl.arena.keyAt n) key with
    | lt => exact Or.inl ⟨_, rfl, hs⟩
    | eq => exact Or.inr ⟨_, _, rfl, hs, hs.target⟩
    | gt => exact Or.inr ⟨_, _, rfl, hslot, hs.target⟩

/-- One iteration of `lower_bound`. -/
theorem lowerBoundStep_spec {p : ℕ × ℕ} (hp : sl.arena.HasSlot p.1 p.2) :
    (∃ p', sl.lowerBoundStep key p = .ok (.next p') ∧ sl.arena.HasSlot p'.1 p'.2) ∨
      ∃ r, sl.lowerBoundStep key p = .ok (.done r) := by
  obtain ⟨current, level⟩ := p
  obtain ⟨hload, hnext⟩ := h.load hp
  simp only [lowerBoundStep, hload, bind, Except.bind]
  generalize sl.arena.nextAt current level = n at *
  have hdown : sl.arena.HasSlot current (level - 1) := hp.mono (Nat.sub_le _ _)
  by_cases hn : n = 0
  · simp only [hn, if_true]
    split_ifs
    · exact Or.inl ⟨_, rfl, hdown⟩
    · exact Or.inr ⟨_, rfl⟩
  · have hs := hnext.hasSlot hn
    simp only [hn, if_false, nodeKey_eq hs.alive, nodePair_eq hs.alive]
    cases sl.cmp.compareKey (sl.arena.keyAt n) key with
    | lt => exact Or.inl ⟨_, rfl, hs⟩
    | eq => exact Or.inr ⟨_, rfl⟩
    | gt =>
      dsimp only
      split_ifs
      · exact Or.inl ⟨_, rfl, hdown⟩
      · exact Or.inr ⟨_, rfl⟩

/-- One iteration of `find_near`, for all four combinations of its flags. -/
theorem findNearStep_spec {p : ℕ × ℕ} (less allowEqual : Bool) (hp : sl.arena.HasSlot p.1 p.2) :
    (∃ p', sl.findNearStep key less allowEqual p = .ok (.next p') ∧
        sl.arena.HasSlot p'.1 p'.2) ∨
      ∃ o, sl.findNearStep key less allowEqual p = .ok (.done o) ∧ sl.arena.Target 0 o := by
  obtain ⟨cursor, level⟩ := p
  obtain ⟨hload, hnext⟩ := h.load hp
  simp only [findNearStep, hload, bind, Except.bind]
  generalize sl.arena.nextAt cursor level = n at *
  have hdown : sl.arena.HasSlot cursor (level - 1) := hp.mono (Nat.sub_le _ _)
  have hhere := target_orNone (hp.target.mono (Nat.zero_le _))
  by_cases hn : n = 0
  · simp only [hn, if_true]
    split_ifs
    · exact Or.inl ⟨_, rfl, hdown⟩
    · exact Or.inr ⟨_, rfl, Arena.target_null _ _⟩
    · exact Or.inr ⟨_, rfl, hhere⟩
  · have hs := hnext.hasSlot hn
    have hs0 : sl.arena.HasSlot n 0 := hs.mono (Nat.zero_le _)
    obtain ⟨hload0, hnext0⟩ := h.load hs0
    simp only [hn, if_false, nodeKey_eq hs.alive]
    cases sl.cmp.compareKey (sl.arena.keyAt n) key with
    | lt => exact Or.inl ⟨_, rfl, hs⟩
    | eq =>
      simp only [hload0]
      split_ifs
      · exact Or.inr ⟨_, rfl, hs0.target⟩
      · exact Or.inr ⟨_, rfl, hnext0⟩
      · exact Or.inl ⟨_, rfl, hdown⟩
      · exact Or.inr ⟨_, rfl, hhere⟩
    | gt =>
      dsimp only
      split_ifs
      · exact Or.inl ⟨_, rfl, hdown⟩
      · exact Or.inr ⟨_, rfl, hs0.target⟩
      · exact Or.inr ⟨_, rfl, hhere⟩

/-- One iteration of `find_last`. -/
theorem findLastStep_spec {p : ℕ × ℕ} (hp : sl.arena.HasSlot p.1 p.2) :
    (∃ p', sl.findLastStep p = .ok (.next p') ∧ sl.arena.HasSlot p'.1 p'.2) ∨
      ∃ o, sl.findLastStep p = .ok (.done o) ∧ sl.arena.Target 0 o := by
  obtain ⟨cursor, level⟩ := p
  obtain ⟨hload, hnext⟩ := h.load hp
  simp only [findLastStep, hload, bind, Except.bind]
  split_ifs with hn hl
  · exact Or.inl ⟨_, rfl, hnext.hasSlot hn⟩
  · exact Or.inr ⟨_, rfl, target_orNone (hp.target.mono (Nat.zero_le _))⟩
  · exact Or.inl ⟨_, rfl, hp.mono (Nat.sub_le _ _)⟩

/-- One iteration of `len`. -/
theorem lenStep_spec {p : ℕ × ℕ} (hp : sl.arena.HasSlot p.1 0) :
    (∃ p', sl.lenStep p = .ok (.next p') ∧ sl.arena.HasSlot p'.1 0) ∨
      ∃ n, sl.lenStep p = .ok (.done n) := by
  obtain ⟨current, count⟩ := p
  obtain ⟨hload, hnext⟩ := h.load hp
  simp only [lenStep, hload, bind, Except.bind]
  split_ifs with hn
  · exact Or.inr ⟨_, rfl⟩
  · exact Or.inl ⟨_, rfl, hnext.hasSlot hn⟩

end

/-- A new list: the head has all levels, and its slots hold the null offset. -/
theorem of_withCapacity {cmp : KeyComparator} {capacity : ℕ} {mode : Bool}
    (hnew : SkipList.withCapacity cmp capacity mode = .ok sl) : sl.Leveled := by
  obtain ⟨rfl, -⟩ := withCapacity_eq_ok hnew
  have hnode : ∀ {o l}, (newArena capacity).HasSlot o l → o = 8 ∧
      (newArena capacity).node o = some (Node.init [] [] (maxHeight - 1)) := by
    rintro o l ⟨n, hn, -⟩
    rw [node_newArena] at hn ⊢
    split_ifs at hn with ho
    exact ⟨ho, if_pos ho⟩
  refine ⟨⟨Node.init [] [] (maxHeight - 1), by simp [node_newArena], by decide⟩,
    by simp [maxHeight], fun o l ho => Or.inl ?_, fun o ho => Or.inl ?_⟩
  · simp [Arena.nextAt, (hnode ho).2, Node.init]
  · simp [Arena.prevAt, (hnode ho).2, Node.init]

end Leveled

end SkipList

end StoneDb
