import StoneDb.SkipList.Search

/-!
# Growth

A skiplist only ever grows: nodes are added to the arena and linked at levels, and no key, value or
tower slot of a node is taken away (`Grows`).  `put` grows the list step by step
(`grows_setNext`, `grows_alloc`, `Wf.grows_link`, …), so what a search has found stays true: its
position (`SearchAt.mono`) and the splices it recorded (`SpliceOk.mono`).
-/

namespace StoneDb

/-- The list `sl` with the linked nodes `S` has grown to `sl'` with the linked nodes `S'`. -/
structure Grows (sl : SkipList) (S : ℕ → Finset ℕ) (sl' : SkipList) (S' : ℕ → Finset ℕ) :
    Prop where
  head : sl'.head = sl.head
  cmp : sl'.cmp = sl.cmp
  mode : sl'.allowConcurrentWrite = sl.allowConcurrentWrite
  capacity : sl'.arena.capacity = sl.arena.capacity
  height : sl.height ≤ sl'.height
  len : sl.arena.len ≤ sl'.arena.len
  subset : ∀ l, S l ⊆ S' l
  slot : ∀ o l, sl.arena.HasSlot o l → sl'.arena.HasSlot o l
  pair : ∀ o, sl.arena.Alive o → sl'.arena.pairAt o = sl.arena.pairAt o

variable {cmp : KeyComparator} [Std.TransCmp cmp.compareKey] {sl sl' sl'' : SkipList}
  {S S' S'' : ℕ → Finset ℕ} {key value : Bytes} {l o p n x : ℕ}

namespace Grows

theorem refl (sl : SkipList) (S : ℕ → Finset ℕ) : Grows sl S sl S :=
  ⟨rfl, rfl, rfl, rfl, le_rfl, le_rfl, fun _ => Finset.Subset.refl _, fun _ _ h => h,
    fun _ _ => rfl⟩

theorem alive (h : Grows sl S sl' S') (ho : sl.arena.Alive o) : sl'.arena.Alive o := by
  obtain ⟨n, hn⟩ := ho
  exact (h.slot o 0 ⟨n, hn, Nat.zero_le _⟩).alive

theorem trans (h : Grows sl S sl' S') (h' : Grows sl' S' sl'' S'') : Grows sl S sl'' S'' where
  head := h'.head.trans h.head
  cmp := h'.cmp.trans h.cmp
  mode := h'.mode.trans h.mode
  capacity := h'.capacity.trans h.capacity
  height := h.height.trans h'.height
  len := h.len.trans h'.len
  subset l := (h.subset l).trans (h'.subset l)
  slot o l hs := h'.slot o l (h.slot o l hs)
  pair o ho := (h'.pair o (h.alive ho)).trans (h.pair o ho)

theorem keyAt (h : Grows sl S sl' S') (ho : sl.arena.Alive o) :
    sl'.arena.keyAt o = sl.arena.keyAt o := congrArg Prod.fst (h.pair o ho)

theorem valueAt (h : Grows sl S sl' S') (ho : sl.arena.Alive o) :
    sl'.arena.valueAt o = sl.arena.valueAt o := congrArg Prod.snd (h.pair o ho)

theorem pairOf (h : Grows sl S sl' S') (ho : o = 0 ∨ sl.arena.Alive o) :
    sl'.pairOf o = sl.pairOf o := by
  unfold SkipList.pairOf
  split_ifs with h0
  · rfl
  · rw [h.pair o (ho.resolve_left h0)]

/-- Nodes keep their positions. -/
theorem pos_eq (h : Grows sl S sl' S') (ho : o = sl.head ∨ sl.arena.Alive o) :
    pos cmp sl' o = pos cmp sl o := by
  unfold pos
  rw [h.head]
  split_ifs with hh
  · rfl
  · rw [h.keyAt (ho.resolve_left hh)]

theorem pos_mem (h : Grows sl S sl' S') (hwf : Wf cmp sl S) (ho : o = sl.head ∨ o ∈ S l) :
    pos cmp sl' o = pos cmp sl o := h.pos_eq (ho.imp id hwf.alive)

theorem mem (h : Grows sl S sl' S') (ho : o = sl.head ∨ o ∈ S l) : o = sl'.head ∨ o ∈ S' l :=
  ho.imp (fun he => he.trans h.head.symm) fun ho => h.subset l ho

end Grows

theorem SearchAt.mono (hs : SearchAt cmp sl S key o l) (hwf : Wf cmp sl S)
    (h : Grows sl S sl' S') : SearchAt cmp sl' S' key o l :=
  ⟨hs.1, h.mem hs.2.1, by rw [h.pos_mem hwf hs.2.1]; exact hs.2.2⟩

theorem SpliceOk.mono (hs : SpliceOk cmp sl S key l p n) (hwf : Wf cmp sl S)
    (h : Grows sl S sl' S') : SpliceOk cmp sl' S' key l p n := by
  obtain ⟨hp, hlt, hn⟩ := hs
  refine ⟨h.mem hp, by rwa [h.pos_mem hwf hp], hn.imp id fun ⟨hmem, hgt⟩ => ?_⟩
  exact ⟨h.subset l hmem, by rwa [h.pos_mem hwf (Or.inr hmem)]⟩

/-! ### The effects of `put` grow the list -/

theorem grows_setNext : Grows sl S { sl with arena := sl.arena.setNext x l n } S :=
  ⟨rfl, rfl, rfl, by simp, le_rfl, by simp [Arena.len], fun _ => Finset.Subset.refl _,
    fun _ _ h => by simpa using h, fun _ _ => by simp [Arena.pairAt]⟩

theorem grows_setPrev : Grows sl S { sl with arena := sl.arena.setPrev x n } S :=
  ⟨rfl, rfl, rfl, by simp, le_rfl, by simp [Arena.len], fun _ => Finset.Subset.refl _,
    fun _ _ h => by simpa using h, fun _ _ => by simp [Arena.pairAt]⟩

theorem grows_setPtr (hle : sl.arena.len ≤ p) :
    Grows sl S { sl with arena := sl.arena.setPtr p } S :=
  ⟨rfl, rfl, rfl, rfl, le_rfl, hle, fun _ => Finset.Subset.refl _, fun _ _ h => h, fun _ _ => rfl⟩

theorem grows_write {nd : Node} (hfresh : ¬ sl.arena.Alive o) :
    Grows sl S { sl with arena := sl.arena.write o nd } S := by
  have hne : ∀ {o'}, sl.arena.Alive o' → o' ≠ o := fun ho' he => hfresh (he ▸ ho')
  exact ⟨rfl, rfl, rfl, rfl, le_rfl, le_rfl, fun _ => Finset.Subset.refl _,
    fun o' l' hs => (Arena.hasSlot_write_of_ne (hne hs.alive)).2 hs,
    fun o' ho' => by
      rw [Arena.pairAt, Arena.pairAt, Arena.keyAt_write_of_ne (hne ho'),
        Arena.valueAt_write_of_ne (hne ho')]⟩

theorem grows_raise {height : ℕ} (hle : sl.height ≤ height) :
    Grows sl S { sl with height } S :=
  ⟨rfl, rfl, rfl, rfl, hle, le_rfl, fun _ => Finset.Subset.refl _, fun _ _ h => h, fun _ _ => rfl⟩

theorem grows_link : Grows sl S { sl with arena := sl.arena.setNext p l x }
    (Function.update S l (insert x (S l))) := by
  refine ⟨rfl, rfl, rfl, by simp, le_rfl, by simp [Arena.len], fun l' => ?_,
    fun _ _ h => by simpa using h, fun _ _ => by simp [Arena.pairAt]⟩
  by_cases hl : l' = l
  · subst hl
    rw [Function.update_self]
    exact Finset.subset_insert _ _
  · rw [Function.update_of_ne hl]

/-! ### Allocation -/

/-- A key and a value whose node can be laid out in the arena: the sizes do not wrap, and a node
that fits has lengths that fit in their `u32` fields. -/
structure Sized (capacity : ℕ) (key value : Bytes) : Prop where
  no_wrap : capacity + (key.length + value.length) + 192 ≤ 2 ^ 64
  u32 : capacity ≤ 2 ^ 32 ∨ (key.length < 2 ^ 32 ∧ value.length < 2 ^ 32)

/-- A key and a value whose node can be laid out in the arena, with its full key: the value may be
cut to the length that its `u32` field can hold. -/
structure KeySized (capacity : ℕ) (key value : Bytes) : Prop where
  no_wrap : capacity + (key.length + value.length) + 192 ≤ 2 ^ 64
  u32 : capacity ≤ 2 ^ 32 ∨ key.length < 2 ^ 32

theorem Sized.keySized {capacity : ℕ} (h : Sized capacity key value) :
    KeySized capacity key value :=
  ⟨h.no_wrap, h.u32.imp id And.left⟩

/-- A slice is at most `isize::MAX` bytes, so in an arena of `2^32` bytes every call is sized. -/
theorem sized_of_le {capacity : ℕ} (hc : capacity ≤ 2 ^ 32)
    (hkv : key.length + value.length ≤ isizeMax) : Sized capacity key value :=
  ⟨by simp only [isizeMax] at hkv; omega, Or.inl hc⟩

section Alloc

variable {height : ℕ}

/-- The arena after an allocation. -/
def Arena.push (a : Arena) (key value : Bytes) (height : ℕ) : Arena :=
  (a.setPtr (a.len + nodeBytes key value height)).write a.len (Node.init key value height)

/-- `alloc_node` in a list that satisfies the invariant: the panic, or a node at the old bump
pointer. -/
theorem Wf.allocNode_cases (h : Wf cmp sl S) (hh : height < maxHeight)
    (hsz : KeySized sl.arena.capacity key value) :
    (sl.arena.capacity < sl.arena.len + nodeBytes key value height ∧
        allocNode key value height sl.arena = .error .outOfMemory sl.arena) ∨
      (sl.arena.len + nodeBytes key value height ≤ sl.arena.capacity ∧
        allocNode key value height sl.arena =
          .ok sl.arena.len (sl.arena.push key value height)) := by
  have hlen := h.len_le
  have hptr : sl.arena.ptr.getD 8 = sl.arena.len := by rw [h.ptr_eq]; rfl
  have hbytes := nodeBytes_le key value hh
  have hwrap := hsz.no_wrap
  have hspec := allocNode_spec sl.arena key value height (by omega)
  rwa [hptr] at hspec

/-- The lengths of a node that fits in an arena of `2^32` bytes are below `2^32`. -/
theorem lt_of_fits {a : Arena} (hcap : a.capacity ≤ 2 ^ 32)
    (hfit : a.len + nodeBytes key value height ≤ a.capacity) :
    key.length < 2 ^ 32 ∧ value.length < 2 ^ 32 := by
  have hbytes : kvDataOff height + key.length + value.length ≤ nodeBytes key value height := by
    simp only [nodeBytes]; omega
  have : 0 < kvDataOff height := by simp only [kvDataOff, towerOff]; omega
  exact ⟨by omega, by omega⟩

/-- The lengths of a node that fits are below `2^32`. -/
theorem Sized.lt_of_fits (hsz : Sized sl.arena.capacity key value)
    (hfit : sl.arena.len + nodeBytes key value height ≤ sl.arena.capacity) :
    key.length < 2 ^ 32 ∧ value.length < 2 ^ 32 :=
  hsz.u32.elim (fun hcap => StoneDb.lt_of_fits hcap hfit) id

theorem KeySized.lt_of_fits (hsz : KeySized sl.arena.capacity key value)
    (hfit : sl.arena.len + nodeBytes key value height ≤ sl.arena.capacity) : key.length < 2 ^ 32 :=
  hsz.u32.elim (fun hcap => (StoneDb.lt_of_fits hcap hfit).1) id

/-- What an allocation leaves behind: a list of the same nodes, with a private node at the old bump
pointer. -/
theorem Wf.push (h : Wf cmp sl S) (hh : height < maxHeight)
    (hkey : key.length < 2 ^ 32)
    (hfit : sl.arena.len + nodeBytes key value height ≤ sl.arena.capacity) :
    Wf cmp { sl with arena := sl.arena.push key value height } S ∧
      Grows sl S { sl with arena := sl.arena.push key value height } S ∧
      (sl.arena.push key value height).HasSlot sl.arena.len height ∧
      (sl.arena.push key value height).pairAt sl.arena.len = (key, storedValue value) ∧
      ¬ sl.arena.Alive sl.arena.len := by
  have hfresh : ¬ sl.arena.Alive sl.arena.len := fun ha => lt_irrefl _ (h.alive_lt _ ha)
  have hpos : sl.arena.len < sl.arena.len + nodeBytes key value height := by
    simp only [nodeBytes, kvDataOff, towerOff]; omega
  have hptr := h.setPtr (p := sl.arena.len + nodeBytes key value height) hpos.le hfit
  have hfresh' : ¬ (sl.arena.setPtr (sl.arena.len + nodeBytes key value height)).Alive
      sl.arena.len := hfresh
  refine ⟨hptr.write hfresh' (by simpa [Arena.len] using hpos),
    (grows_setPtr hpos.le).trans (grows_write hfresh'), ?_, ?_, hfresh⟩
  · refine ⟨Node.init key value height, by simp [Arena.push, Arena.node_write], ?_⟩
    rw [Node.height_init key value hh]
  · rw [Arena.pairAt, Arena.push, Arena.keyAt_write_self, Arena.valueAt_write_self,
      Node.key_init value height hkey, Node.value_init value height hkey]

end Alloc

end StoneDb
