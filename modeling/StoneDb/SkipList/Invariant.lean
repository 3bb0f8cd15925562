import StoneDb.SkipList.Basic
import StoneDb.Lib.Chain
import StoneDb.Lib.Rank

/-!
# The skiplist invariant

`Wf cmp sl S` is the invariant of a skiplist `sl` whose nodes linked at level `l` are `S l`: at
every level the forward offsets thread `S l` in strictly increasing key order from the head
(`Threaded`), the level above is a subset, every linked node has a tower slot for each of its
levels, and the list height covers every non-empty level.

Keys are compared through their positions `pos cmp sl o : WithBot (Rank _)`, the head sitting at
`⊥`.  The invariant is preserved by

* stores that leave the linked part alone (`Wf.congr`: private slots, back pointers, allocation,
  raising the list height),
* the store or compare-exchange that links a node at one level (`Wf.link`).

These are the only effects a `put` has, one at a time or interleaved.
-/

namespace StoneDb

/-- Positions of keys and of the head. -/
abbrev Pos (cmp : KeyComparator) [Std.TransCmp cmp.compareKey] : Type :=
  WithBot (Rank cmp.compareKey)

section

variable (cmp : KeyComparator) [Std.TransCmp cmp.compareKey]

/-- The position of a key. -/
def keyPos (key : Bytes) : Pos cmp := ((rank cmp.compareKey key : Rank cmp.compareKey) : Pos cmp)

/-- The position of a node: the head is before every key. -/
def pos (sl : SkipList) (o : ℕ) : Pos cmp :=
  if o = sl.head then ⊥ else keyPos cmp (sl.arena.keyAt o)

/-- **The invariant** of a skiplist, with the nodes `S l` linked at each level `l`. -/
structure Wf (sl : SkipList) (S : ℕ → Finset ℕ) : Prop where
  cmp_eq : sl.cmp = cmp
  ptr_ne : sl.arena.ptr ≠ none
  len_le : sl.arena.len ≤ sl.arena.capacity
  alive_lt : ∀ o, sl.arena.Alive o → o < sl.arena.len
  head_slot : sl.arena.HasSlot sl.head (maxHeight - 1)
  slot : ∀ l, ∀ x ∈ S l, sl.arena.HasSlot x l
  anti : ∀ l, S (l + 1) ⊆ S l
  height_lt : sl.height < maxHeight
  above : ∀ l, sl.height < l → S l = ∅
  threaded : ∀ l < maxHeight, Threaded 0 sl.head (pos cmp sl) (fun p => sl.arena.nextAt p l) (S l)

end

section

variable {cmp : KeyComparator} [Std.TransCmp cmp.compareKey] {sl sl' : SkipList}
  {S : ℕ → Finset ℕ} {key : Bytes} {l o p n x : ℕ}

theorem keyPos_lt_keyPos {k k' : Bytes} :
    keyPos cmp k < keyPos cmp k' ↔ cmp.compareKey k k' = .lt :=
  WithBot.coe_lt_coe.trans (rank_lt_rank _)

theorem keyPos_lt_keyPos_iff_gt {k k' : Bytes} :
    keyPos cmp k' < keyPos cmp k ↔ cmp.compareKey k k' = .gt :=
  WithBot.coe_lt_coe.trans (rank_lt_rank_iff_gt _)

theorem keyPos_eq_keyPos {k k' : Bytes} :
    keyPos cmp k = keyPos cmp k' ↔ cmp.compareKey k k' = .eq :=
  WithBot.coe_inj.trans (rank_eq_rank _)

@[simp] theorem pos_head : pos cmp sl sl.head = ⊥ := if_pos rfl

theorem pos_of_ne (h : o ≠ sl.head) : pos cmp sl o = keyPos cmp (sl.arena.keyAt o) := if_neg h

theorem bot_lt_keyPos : ⊥ < keyPos cmp key := WithBot.bot_lt_coe _

namespace Wf

variable (h : Wf cmp sl S)

include h

theorem subset_zero (l : ℕ) : S l ⊆ S 0 := by
  induction l with
  | zero => exact Finset.Subset.refl _
  | succ l ih => exact (h.anti l).trans ih

theorem subset_of_le {l l' : ℕ} (hle : l ≤ l') : S l' ⊆ S l := by
  induction l', hle using Nat.le_induction with
  | base => exact Finset.Subset.refl _
  | succ l' _ ih => exact (h.anti l').trans ih

theorem level_le (hx : x ∈ S l) : l ≤ sl.height := by
  by_contra hl
  rw [h.above l (not_le.1 hl)] at hx
  exact absurd hx (Finset.notMem_empty x)

theorem threaded_zero :
    Threaded 0 sl.head (pos cmp sl) (fun p => sl.arena.nextAt p 0) (S 0) :=
  h.threaded 0 (by decide)

theorem head_ne_zero : sl.head ≠ 0 := h.threaded_zero.head_ne_null

theorem ne_head (hx : x ∈ S l) : x ≠ sl.head := fun he =>
  h.threaded_zero.head_notMem (he ▸ h.subset_zero l hx)

theorem ne_zero (hx : x ∈ S l) : x ≠ 0 := fun he =>
  h.threaded_zero.null_notMem (he ▸ h.subset_zero l hx)

theorem ne_zero' (hp : p = sl.head ∨ p ∈ S l) : p ≠ 0 :=
  hp.elim (fun he => he ▸ h.head_ne_zero) h.ne_zero

theorem pos_mem (hx : x ∈ S l) : pos cmp sl x = keyPos cmp (sl.arena.keyAt x) :=
  pos_of_ne (h.ne_head hx)

theorem alive (hx : x ∈ S l) : sl.arena.Alive x := (h.slot l x hx).alive

/-- The head and the nodes linked at a level have a slot for it. -/
theorem hasSlot (hl : l < maxHeight) (hp : p = sl.head ∨ p ∈ S l) : sl.arena.HasSlot p l := by
  rcases hp with rfl | hp
  · exact h.head_slot.mono (Nat.le_sub_one_of_lt hl)
  · exact h.slot l p hp

theorem isNext (hl : l < maxHeight) (hp : p = sl.head ∨ p ∈ S l) :
    IsNext 0 (pos cmp sl) (S l) p (sl.arena.nextAt p l) :=
  (h.threaded l hl).isNext p hp

theorem inj {x y : ℕ} (hx : x ∈ S 0) (hy : y ∈ S 0) (he : pos cmp sl x = pos cmp sl y) : x = y :=
  h.threaded_zero.inj x hx y hy he

theorem compareKey_lt (hx : x ∈ S l) :
    cmp.compareKey (sl.arena.keyAt x) key = .lt ↔ pos cmp sl x < keyPos cmp key := by
  rw [h.pos_mem hx, keyPos_lt_keyPos]

theorem compareKey_gt (hx : x ∈ S l) :
    cmp.compareKey (sl.arena.keyAt x) key = .gt ↔ keyPos cmp key < pos cmp sl x := by
  rw [h.pos_mem hx, keyPos_lt_keyPos_iff_gt]

theorem compareKey_eq (hx : x ∈ S l) :
    cmp.compareKey (sl.arena.keyAt x) key = .eq ↔ pos cmp sl x = keyPos cmp key := by
  rw [h.pos_mem hx, keyPos_eq_keyPos]

/-- The nodes fit in the arena, so a loop along a level makes fewer iterations than `fuel`. -/
theorem card_le (l : ℕ) : (S l).card ≤ sl.arena.capacity := by
  have hsub : S l ⊆ Finset.range sl.arena.capacity := fun x hx =>
    Finset.mem_range.2 ((h.alive_lt x (h.alive hx)).trans_le h.len_le)
  simpa using Finset.card_le_card hsub

theorem ptr_eq : sl.arena.ptr = some sl.arena.len := by
  have := h.ptr_ne
  unfold Arena.len
  cases hp : sl.arena.ptr with
  | none => exact absurd hp this
  | some p => rfl

/-- **What leaves the linked part alone** preserves the invariant. -/
theorem congr (hcmp : sl'.cmp = sl.cmp) (hhead : sl'.head = sl.head)
    (hptr : sl'.arena.ptr ≠ none) (hlen : sl'.arena.len ≤ sl'.arena.capacity)
    (halive : ∀ o, sl'.arena.Alive o → o < sl'.arena.len)
    (hheight : sl.height ≤ sl'.height) (hheight' : sl'.height < maxHeight)
    (hslot : ∀ l p, p = sl.head ∨ p ∈ S l → sl.arena.HasSlot p l → sl'.arena.HasSlot p l)
    (hkey : ∀ p, p ∈ S 0 → sl'.arena.keyAt p = sl.arena.keyAt p)
    (hnext : ∀ l < maxHeight, ∀ p, p = sl.head ∨ p ∈ S l →
      sl'.arena.nextAt p l = sl.arena.nextAt p l) : Wf cmp sl' S where
  cmp_eq := hcmp.trans h.cmp_eq
  ptr_ne := hptr
  len_le := hlen
  alive_lt := halive
  head_slot := by
    rw [hhead]
    exact hslot _ _ (Or.inl rfl) h.head_slot
  slot l x hx := hslot l x (Or.inr hx) (h.slot l x hx)
  anti := h.anti
  height_lt := hheight'
  above l hl := h.above l (hheight.trans_lt hl)
  threaded l hl := by
    rw [hhead]
    refine (h.threaded l hl).congr (fun p hp => hnext l hl p hp) fun p hp => ?_
    unfold pos
    rw [hhead]
    split_ifs with hph
    · rfl
    · rw [hkey p (h.subset_zero l (hp.resolve_left hph))]

/-! ### The effects of `put` -/

/-- A store to a slot that is not linked yet. -/
theorem setNext (hx : x ≠ sl.head) (hxl : x ∉ S l) :
    Wf cmp { sl with arena := sl.arena.setNext x l n } S := by
  refine h.congr rfl rfl (by simpa using h.ptr_ne) (by simpa [Arena.len] using h.len_le)
    (fun o ho => by simpa [Arena.len] using h.alive_lt o (by simpa using ho)) le_rfl h.height_lt
    (fun l' p _ hs => by simpa using hs) (fun p _ => by simp) fun l' _ p hp => ?_
  refine Arena.nextAt_setNext_of_ne ?_
  by_contra hc
  push Not at hc
  obtain ⟨rfl, rfl⟩ := hc
  exact hp.elim hx hxl

/-- A store to a back pointer. -/
theorem setPrev : Wf cmp { sl with arena := sl.arena.setPrev x n } S :=
  h.congr rfl rfl (by simpa using h.ptr_ne) (by simpa [Arena.len] using h.len_le)
    (fun o ho => by simpa [Arena.len] using h.alive_lt o (by simpa using ho)) le_rfl h.height_lt
    (fun l' p _ hs => by simpa using hs) (fun p _ => by simp) fun l' _ p _ => by simp

/-- Reserving a block. -/
theorem setPtr (hle : sl.arena.len ≤ p) (hcap : p ≤ sl.arena.capacity) :
    Wf cmp { sl with arena := sl.arena.setPtr p } S :=
  h.congr rfl rfl (by simp) (by simpa [Arena.len] using hcap)
    (fun o ho => (h.alive_lt o ho).trans_le hle) le_rfl h.height_lt (fun _ _ _ hs => hs)
    (fun _ _ => rfl) fun _ _ _ _ => rfl

/-- A block without a node is not linked. -/
theorem ne_of_not_alive (hfresh : ¬ sl.arena.Alive o) (hp : p = sl.head ∨ p ∈ S l) : p ≠ o := by
  rintro rfl
  rcases hp with rfl | hp
  · exact hfresh h.head_slot.alive
  · exact hfresh (h.alive hp)

/-- Initialising a reserved block. -/
theorem write {nd : Node} (hfresh : ¬ sl.arena.Alive o) (ho : o < sl.arena.len) :
    Wf cmp { sl with arena := sl.arena.write o nd } S := by
  have hne : ∀ l p, p = sl.head ∨ p ∈ S l → p ≠ o := fun l p hp => h.ne_of_not_alive hfresh hp
  refine h.congr rfl rfl h.ptr_ne h.len_le (fun o' ho' => ?_) le_rfl h.height_lt
    (fun l p hp hs => (Arena.hasSlot_write_of_ne (hne l p hp)).2 hs)
    (fun p hp => Arena.keyAt_write_of_ne (hne 0 p (Or.inr hp)))
    fun l _ p hp => Arena.nextAt_write_of_ne (hne l p hp)
  by_cases hoo : o' = o
  · exact hoo ▸ ho
  · exact h.alive_lt o' ((Arena.alive_write_of_ne hoo).1 ho')

/-- Raising the list height. -/
theorem raise {height : ℕ} (hle : sl.height ≤ height) (hlt : height < maxHeight) :
    Wf cmp { sl with height } S :=
  h.congr rfl rfl h.ptr_ne h.len_le h.alive_lt hle hlt (fun _ _ _ hs => hs) (fun _ _ => rfl)
    fun _ _ _ _ => rfl

/-- **Linking a node at one level**: `x` points at the successor of `p` at level `l`, its key lies
between theirs, and it is already linked at the level below. -/
theorem link (hl : l ≤ sl.height) (hp : p = sl.head ∨ p ∈ S l) (hx : x ≠ sl.head) (hx0 : x ≠ 0)
    (hslot : sl.arena.HasSlot x l) (hbelow : ∀ l', l = l' + 1 → x ∈ S l')
    (hpx : pos cmp sl p < pos cmp sl x)
    (hxn : sl.arena.nextAt p l = 0 ∨ pos cmp sl x < pos cmp sl (sl.arena.nextAt p l))
    (hnext : sl.arena.nextAt x l = sl.arena.nextAt p l) :
    Wf cmp { sl with arena := sl.arena.setNext p l x }
      (Function.update S l (insert x (S l))) := by
  have hl' : l < maxHeight := hl.trans_lt h.height_lt
  have hpos : pos cmp { sl with arena := sl.arena.setNext p l x } = pos cmp sl := by
    funext o
    simp [pos]
  have hmem : ∀ l' y, y ∈ Function.update S l (insert x (S l)) l' ↔
      y ∈ S l' ∨ (l' = l ∧ y = x) := by
    intro l' y
    by_cases hll : l' = l
    · subst hll
      simp [or_comm]
    · simp [hll]
  refine ⟨h.cmp_eq, by simpa using h.ptr_ne, by simpa [Arena.len] using h.len_le,
    fun o ho => by simpa [Arena.len] using h.alive_lt o (by simpa using ho),
    by simpa using h.head_slot, ?_, ?_, h.height_lt, ?_, ?_⟩
  · intro l' y hy
    rcases (hmem l' y).1 hy with hy | ⟨rfl, rfl⟩
    · simpa using h.slot l' y hy
    · simpa using hslot
  · intro l' y hy
    rcases (hmem (l' + 1) y).1 hy with hy | ⟨hll, rfl⟩
    · exact (hmem l' y).2 (Or.inl (h.anti l' hy))
    · -- the new node: it is linked one level below
      exact (hmem l' y).2 (Or.inl (hbelow l' hll.symm))
  · intro l' hl''
    have hll : l' ≠ l := fun he => absurd hl (not_le.2 (he ▸ hl''))
    rw [Function.update_of_ne hll]
    exact h.above l' hl''
  · intro l' hl''
    rw [hpos]
    -- only the chain of this level changes
    by_cases hll : l' = l
    · subst hll
      rw [Function.update_self]
      change Threaded 0 sl.head _ (fun q => (sl.arena.setNext p l' x).nextAt q l') _
      rw [Arena.nextAt_setNext (h.hasSlot hl' hp).alive]
      exact (h.threaded l' hl').link hp hx0 hpx hxn hnext
    · rw [Function.update_of_ne hll]
      exact (h.threaded l' hl'').congr
        (fun q _ => Arena.nextAt_setNext_of_ne (Or.inr hll)) fun _ _ => rfl

end Wf

/-! ### The empty list -/

/-- The arena of a new list: the head, in the block from `8` to `192`. -/
def newArena (capacity : ℕ) : Arena :=
  ((⟨none, capacity, fun _ => none⟩ : Arena).setPtr 192).write 8 (Node.init [] [] (maxHeight - 1))

theorem node_newArena {capacity : ℕ} : (newArena capacity).node o =
    if o = 8 then some (Node.init [] [] (maxHeight - 1)) else none := by
  rw [newArena, Arena.node_write]
  rfl

/-- The head takes the first block of an empty arena. -/
theorem allocNode_head (capacity : ℕ) :
    (capacity < 192 ∧ allocNode [] [] (maxHeight - 1) ⟨none, capacity, fun _ => none⟩ =
        .error .outOfMemory ⟨none, capacity, fun _ => none⟩) ∨
      (192 ≤ capacity ∧ allocNode [] [] (maxHeight - 1) ⟨none, capacity, fun _ => none⟩ =
        .ok 8 (newArena capacity)) := by
  have hbytes : nodeBytes [] [] (maxHeight - 1) = 184 := by decide
  have hspec := allocNode_spec ⟨none, capacity, fun _ => none⟩ [] [] (maxHeight - 1)
    (by simp [hbytes])
  rwa [hbytes] at hspec

omit [Std.TransCmp cmp.compareKey] in
/-- A new list, if the capacity is accepted and has room for the head. -/
theorem withCapacity_eq_ok {capacity : ℕ} {m : Bool}
    (h : SkipList.withCapacity cmp capacity m = .ok sl) :
    sl = ⟨0, 8, newArena capacity, cmp, m⟩ ∧ 192 ≤ capacity ∧ capacity ≤ isizeMax - 7 := by
  unfold SkipList.withCapacity Arena.withCapacity at h
  split_ifs at h with hcap
  · cases h
  simp only [bind, Except.bind] at h
  rcases allocNode_head capacity with ⟨-, halloc⟩ | ⟨hfit, halloc⟩
  · rw [halloc] at h
    cases h
  · rw [halloc] at h
    cases h
    exact ⟨rfl, hfit, not_lt.1 hcap⟩

/-- A new list has no node linked at any level; its arena holds the head. -/
theorem wf_withCapacity {capacity : ℕ} {m : Bool}
    (h : SkipList.withCapacity cmp capacity m = .ok sl) :
    Wf cmp sl (fun _ => ∅) ∧ sl.allowConcurrentWrite = m ∧ sl.arena.capacity = capacity ∧
      sl.arena.len = 192 ∧ capacity ≤ isizeMax - 7 := by
  obtain ⟨rfl, hfit, hcap⟩ := withCapacity_eq_ok h
  refine ⟨⟨rfl, nofun, hfit, fun o ⟨n, hn⟩ => ?_, ?_, by simp, by simp, by simp [maxHeight],
    fun _ _ => rfl, fun l _ => ?_⟩, rfl, rfl, rfl, hcap⟩
  · rw [node_newArena, Option.ite_none_right_eq_some] at hn
    rw [hn.1]
    exact show 8 < 192 by decide
  · exact ⟨Node.init [] [] (maxHeight - 1), by simp [node_newArena], by decide⟩
  · exact Threaded.empty (by simp) (by simp [Arena.nextAt, node_newArena, Node.init])

omit [Std.TransCmp cmp.compareKey] in
/-- The only node of a new list is the head. -/
theorem node_withCapacity {capacity : ℕ} {m : Bool} {n : Node}
    (h : SkipList.withCapacity cmp capacity m = .ok sl) (hn : sl.arena.node o = some n) :
    n = Node.init [] [] (maxHeight - 1) := by
  obtain ⟨rfl, -⟩ := withCapacity_eq_ok h
  rw [node_newArena, Option.ite_none_right_eq_some] at hn
  exact (Option.some.inj hn.2).symm

end

end StoneDb
