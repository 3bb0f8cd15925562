import StoneDb.SkipList.Invariant

/-!
# The searches

What one iteration of each search loop does in a list that satisfies the invariant
(`spliceStep_spec`, `lowerBoundStep_spec`, `findNearStep_spec`, `findLastStep_spec`,
`lenStep_spec`), and from it what the whole loop returns.  A search stands at a node of its level,
or the head, before the key it looks for (`SearchAt`); every iteration either moves it to a later
node or down one level, or ends it with the right answer.

The iteration specs hold at a single instant: they are also what an interleaved search does at each
of its loads.
-/

namespace StoneDb

variable {cmp : KeyComparator} [Std.TransCmp cmp.compareKey] {sl : SkipList} {S : ℕ → Finset ℕ}
  {key : Bytes} {l c p n : ℕ}

/-- A search for `key` stands at `c`, on level `l`. -/
def SearchAt (cmp : KeyComparator) [Std.TransCmp cmp.compareKey] (sl : SkipList)
    (S : ℕ → Finset ℕ) (key : Bytes) (c l : ℕ) : Prop :=
  l < maxHeight ∧ (c = sl.head ∨ c ∈ S l) ∧ pos cmp sl c < keyPos cmp key

namespace SkipList

/-- The pair at an offset, `none` at the null offset. -/
def pairOf (sl : SkipList) (o : ℕ) : Option (Bytes × Bytes) :=
  if o = 0 then none else some (sl.arena.pairAt o)

end SkipList

/-- `p` and `n` are around `key` at level `l`. -/
def SpliceOk (cmp : KeyComparator) [Std.TransCmp cmp.compareKey] (sl : SkipList)
    (S : ℕ → Finset ℕ) (key : Bytes) (l p n : ℕ) : Prop :=
  (p = sl.head ∨ p ∈ S l) ∧ pos cmp sl p < keyPos cmp key ∧
    (n = 0 ∨ (n ∈ S l ∧ keyPos cmp key < pos cmp sl n))

theorem searchAt_head (hl : l < maxHeight) : SearchAt cmp sl S key sl.head l :=
  ⟨hl, Or.inl rfl, by rw [pos_head]; exact bot_lt_keyPos⟩

/-- The answer of a search along a level: the adjacent nodes around the key, or twice the node with
an equal key. -/
def SpliceResult (cmp : KeyComparator) [Std.TransCmp cmp.compareKey] (sl : SkipList)
    (S : ℕ → Finset ℕ) (key : Bytes) (l : ℕ) (r : ℕ × ℕ) : Prop :=
  (r.2 = sl.arena.nextAt r.1 l ∧ SpliceOk cmp sl S key l r.1 r.2) ∨
    (r.1 = r.2 ∧ r.1 ∈ S l ∧ pos cmp sl r.1 = keyPos cmp key)

/-- The node `find_near` looks for. -/
def NearOk (cmp : KeyComparator) [Std.TransCmp cmp.compareKey] (sl : SkipList) (S : ℕ → Finset ℕ)
    (key : Bytes) (less allowEqual : Bool) (o : ℕ) : Prop :=
  match less, allowEqual with
  | true, true => GreatestWhere 0 (pos cmp sl) (S 0) (fun x => x ≤ keyPos cmp key) o
  | true, false => GreatestWhere 0 (pos cmp sl) (S 0) (fun x => x < keyPos cmp key) o
  | false, true => LeastWhere 0 (pos cmp sl) (S 0) (fun x => keyPos cmp key ≤ x) o
  | false, false => LeastWhere 0 (pos cmp sl) (S 0) (fun x => keyPos cmp key < x) o

namespace Wf

variable (h : Wf cmp sl S)

include h

theorem searchAt_down (hs : SearchAt cmp sl S key c l) : SearchAt cmp sl S key c (l - 1) :=
  ⟨by have := hs.1; omega, hs.2.1.imp id fun hc => h.subset_of_le (Nat.sub_le l 1) hc, hs.2.2⟩

/-- What a search sees when it loads the forward offset of `c` at level `l`. -/
theorem load (hl : l < maxHeight) (hc : c = sl.head ∨ c ∈ S l) :
    nodeNextOffset sl.arena c l = .ok (sl.arena.nextAt c l) ∧
      (sl.arena.nextAt c l ≠ 0 → sl.arena.nextAt c l ∈ S l ∧
        pos cmp sl c < pos cmp sl (sl.arena.nextAt c l)) :=
  ⟨nodeNextOffset_eq (h.hasSlot hl hc), fun hne => ⟨(h.isNext hl hc).mem hne,
    (h.isNext hl hc).lt hne⟩⟩

theorem nodeKey_of_mem (hn : n ∈ S l) : nodeKey sl.arena n = .ok (sl.arena.keyAt n) :=
  nodeKey_eq (h.alive hn)

theorem nodePair_of_mem (hn : n ∈ S l) : sl.nodePair n = .ok (sl.arena.pairAt n) :=
  SkipList.nodePair_eq (h.alive hn)

/-- Moving right along a level leaves fewer nodes ahead. -/
theorem ahead_lt {q : ℕ} (hq : q ∈ S l) (hlt : pos cmp sl c < pos cmp sl q) :
    (Threaded.after (pos cmp sl) (S 0) q).card < (Threaded.after (pos cmp sl) (S 0) c).card :=
  Threaded.card_after_lt (h.subset_zero l hq) hlt

theorem ahead_le (c : ℕ) :
    (Threaded.after (pos cmp sl) (S 0) c).card ≤ sl.arena.capacity :=
  (Finset.card_le_card (Finset.filter_subset _ _)).trans (h.card_le 0)

/-! ### `find_splice_for_level` -/

/-- One iteration of `find_splice_for_level`: go right, or return. -/
theorem spliceStep_spec (hs : SearchAt cmp sl S key c l) :
    (∃ q, sl.spliceStep key l c = .ok (.next q) ∧ q ∈ S l ∧ pos cmp sl c < pos cmp sl q ∧
        SearchAt cmp sl S key q l) ∨
      ∃ r, sl.spliceStep key l c = .ok (.done r) ∧ SpliceResult cmp sl S key l r := by
  obtain ⟨hl, hc, hlt⟩ := hs
  obtain ⟨hload, hnext⟩ := h.load hl hc
  have hstart : (if c = 0 then sl.headOffset else c) = c := if_neg (h.ne_zero' hc)
  simp only [SkipList.spliceStep, hstart, hload, bind, Except.bind]
  by_cases hnull : sl.arena.nextAt c l = 0
  · simp only [hnull, if_true]
    exact Or.inr ⟨_, rfl, Or.inl ⟨hnull.symm, hc, hlt, Or.inl rfl⟩⟩
  obtain ⟨hmem, hpos⟩ := hnext hnull
  simp only [hnull, if_false, h.nodeKey_of_mem hmem, h.cmp_eq]
  cases hcmp : cmp.compareKey (sl.arena.keyAt (sl.arena.nextAt c l)) key with
  | lt =>
    -- go right: the next node is still before the key
    have hlt' := (h.compareKey_lt hmem).1 hcmp
    exact Or.inl ⟨_, rfl, hmem, hpos, hl, Or.inr hmem, hlt'⟩
  | gt =>
    have hgt' := (h.compareKey_gt hmem).1 hcmp
    exact Or.inr ⟨_, rfl, Or.inl ⟨rfl, hc, hlt, Or.inr ⟨hmem, hgt'⟩⟩⟩
  | eq => exact Or.inr ⟨_, rfl, Or.inr ⟨rfl, hmem, (h.compareKey_eq hmem).1 hcmp⟩⟩

/-- **`find_splice_for_level`** returns the adjacent nodes around the key, or twice the node with an
equal key. -/
theorem findSpliceForLevel_spec (hs : SearchAt cmp sl S key c l) :
    ∃ r, sl.findSpliceForLevel key c l = .ok r ∧ SpliceResult cmp sl S key l r := by
  refine loop_ok (I := fun c => SearchAt cmp sl S key c l)
    (μ := fun c => (Threaded.after (pos cmp sl) (S 0) c).card) ?_ sl.fuel c hs ?_
  · intro c hc
    rcases h.spliceStep_spec hc with ⟨q, hstep, hq, hlt, hs'⟩ | hdone
    · exact Or.inl ⟨q, hstep, hs', h.ahead_lt hq hlt⟩
    · exact Or.inr hdone
  · have := h.ahead_le c
    simp only [SkipList.fuel, maxHeight]
    omega

/-! ### `lower_bound` and `find_near` -/

/-- A loop from the head and the list height that goes right or down in every iteration returns. -/
theorem search_loop {α : Type} {body : ℕ × ℕ → Except Fault (Iter (ℕ × ℕ) α)} {I : ℕ → ℕ → Prop}
    {Q : α → Prop} (hstart : I sl.head sl.height)
    (hbody : ∀ c l, I c l → (∃ c' l', body (c, l) = .ok (.next (c', l')) ∧ I c' l' ∧
        (Threaded.after (pos cmp sl) (S 0) c').card + l' <
          (Threaded.after (pos cmp sl) (S 0) c).card + l) ∨
      ∃ a, body (c, l) = .ok (.done a) ∧ Q a) :
    ∃ a, loop body (.error .diverged) sl.fuel (sl.headOffset, sl.listHeight) = .ok a ∧ Q a := by
  refine loop_ok (I := fun s => I s.1 s.2)
    (μ := fun s => (Threaded.after (pos cmp sl) (S 0) s.1).card + s.2) ?_ sl.fuel _ hstart ?_
  · rintro ⟨c, l⟩ hs
    rcases hbody c l hs with ⟨c', l', hstep, hs', hlt⟩ | hdone
    · exact Or.inl ⟨(c', l'), hstep, hs', hlt⟩
    · exact Or.inr hdone
  · -- the fuel is more than the nodes and the levels together
    have := h.ahead_le sl.head
    have := h.height_lt
    simp only [SkipList.fuel, SkipList.headOffset, SkipList.listHeight]
    omega

/-- An iteration that goes down, or ends on level 0. -/
theorem down_or_done {α : Type} {r : Except Fault (Iter (ℕ × ℕ) α)} {Q : Prop}
    (hs : SearchAt cmp sl S key c l) (hdown : 0 < l → r = .ok (.next (c, l - 1)))
    (hdone : l = 0 → Q) :
    (∃ c' l', r = .ok (.next (c', l')) ∧ SearchAt cmp sl S key c' l' ∧
        (Threaded.after (pos cmp sl) (S 0) c').card + l' <
          (Threaded.after (pos cmp sl) (S 0) c).card + l) ∨ Q := by
  by_cases hl0 : 0 < l
  · exact Or.inl ⟨c, l - 1, hdown hl0, h.searchAt_down hs, by omega⟩
  · exact Or.inr (hdone (Nat.eq_zero_of_not_pos hl0))

/-- One iteration of `lower_bound`: go right, go down, or return the least pair not below the
key. -/
theorem lowerBoundStep_spec (hs : SearchAt cmp sl S key c l) :
    (∃ c' l', sl.lowerBoundStep key (c, l) = .ok (.next (c', l')) ∧ SearchAt cmp sl S key c' l' ∧
        (Threaded.after (pos cmp sl) (S 0) c').card + l' <
          (Threaded.after (pos cmp sl) (S 0) c).card + l) ∨
      ∃ o, sl.lowerBoundStep key (c, l) = .ok (.done (sl.pairOf o)) ∧
        LeastWhere 0 (pos cmp sl) (S 0) (fun x => keyPos cmp key ≤ x) o := by
  have hs' := hs
  obtain ⟨hl, hc, hlt⟩ := hs
  obtain ⟨hload, hnext⟩ := h.load hl hc
  simp only [SkipList.lowerBoundStep, hload, bind, Except.bind]
  by_cases hnull : sl.arena.nextAt c l = 0
  · simp only [hnull, if_true]
    refine h.down_or_done hs' (fun hl0 => if_pos hl0) fun hl0 => ?_
    subst hl0
    -- the end of level 0: every key is below
    refine ⟨0, if_neg (Nat.lt_irrefl 0), ?_⟩
    exact (hnull ▸ h.isNext hl hc).leastWhere_ge h.threaded_zero.null_notMem hlt (Or.inl rfl)
  obtain ⟨hmem, hpos⟩ := hnext hnull
  simp only [hnull, if_false, h.nodeKey_of_mem hmem, h.cmp_eq]
  cases hcmp : cmp.compareKey (sl.arena.keyAt (sl.arena.nextAt c l)) key with
  | lt =>
    have hlt' := (h.compareKey_lt hmem).1 hcmp
    refine Or.inl ⟨_, l, rfl, ⟨hl, Or.inr hmem, hlt'⟩, ?_⟩
    have := h.ahead_lt hmem hpos
    omega
  | gt =>
    have hgt' := (h.compareKey_gt hmem).1 hcmp
    refine h.down_or_done hs' (fun hl0 => if_pos hl0) fun hl0 => ?_
    subst hl0
    simp only [Nat.lt_irrefl, if_false, h.nodePair_of_mem hmem]
    refine ⟨_, by rw [SkipList.pairOf, if_neg hnull]; rfl, ?_⟩
    exact (h.isNext hl hc).leastWhere_ge h.threaded_zero.null_notMem hlt (Or.inr hgt'.le)
  | eq =>
    have heq' := (h.compareKey_eq hmem).1 hcmp
    simp only [h.nodePair_of_mem hmem]
    -- an equal key on any level is the answer
    refine Or.inr ⟨_, by rw [SkipList.pairOf, if_neg hnull]; rfl, Or.inr ?_⟩
    exact ⟨h.subset_zero l hmem, heq'.ge, fun y _ hy => heq'.le.trans hy⟩

/-- **`lower_bound`** returns the least pair not below the key. -/
theorem lowerBound_spec (key : Bytes) :
    ∃ o, sl.lowerBound key = .ok (sl.pairOf o) ∧
      LeastWhere 0 (pos cmp sl) (S 0) (fun x => keyPos cmp key ≤ x) o := by
  have hloop : ∃ r, sl.lowerBound key = .ok r ∧ ∃ o, r = sl.pairOf o ∧
      LeastWhere 0 (pos cmp sl) (S 0) (fun x => keyPos cmp key ≤ x) o := by
    refine h.search_loop (I := SearchAt cmp sl S key) (searchAt_head h.height_lt) fun c l hs => ?_
    rcases h.lowerBoundStep_spec hs with hgo | ⟨o, hstep, ho⟩
    · exact Or.inl hgo
    · exact Or.inr ⟨_, hstep, o, rfl, ho⟩
  obtain ⟨_, hrun, o, rfl, ho⟩ := hloop
  exact ⟨o, hrun, ho⟩

/-- Reporting the head as `0` turns the node where a search ends into the greatest one. -/
theorem greatestWhere_orNone {P : Pos cmp → Prop} (hc : c = sl.head ∨ c ∈ S 0)
    (hP : c ∈ S 0 → P (pos cmp sl c))
    (hmax : ∀ y ∈ S 0, P (pos cmp sl y) → pos cmp sl y ≤ pos cmp sl c) :
    GreatestWhere 0 (pos cmp sl) (S 0) P (sl.orNone c) := by
  unfold SkipList.orNone SkipList.headOffset
  by_cases hhead : c = sl.head
  · rw [if_pos hhead]
    subst hhead
    exact Or.inl ⟨rfl, fun y hy hPy =>
      absurd (h.threaded_zero.head_lt y hy) (not_lt.2 (hmax y hy hPy))⟩
  · rw [if_neg hhead]
    have hmem := hc.resolve_left hhead
    exact Or.inr ⟨hmem, hP hmem, hmax⟩

/-- Where a search ends on level 0, at `c` before a node not below the key. -/
theorem nearOk_end (less allowEqual : Bool) (hc : c = sl.head ∨ c ∈ S 0)
    (hlt : pos cmp sl c < keyPos cmp key)
    (hgt : sl.arena.nextAt c 0 = 0 ∨ keyPos cmp key < pos cmp sl (sl.arena.nextAt c 0)) :
    NearOk cmp sl S key less allowEqual
      (if !less then sl.arena.nextAt c 0 else sl.orNone c) := by
  have hnext := h.isNext (l := 0) (by decide) hc
  have hnull := h.threaded_zero.null_notMem
  cases less <;> cases allowEqual
  · exact hnext.leastWhere_gt hnull hlt hgt
  · exact hnext.leastWhere_ge hnull hlt (hgt.imp id le_of_lt)
  · exact h.greatestWhere_orNone (P := fun x => x < keyPos cmp key) hc (fun _ => hlt)
      fun y hy hlt' => hnext.le_of_lt hnull (hgt.imp id le_of_lt) hy hlt'
  · exact h.greatestWhere_orNone (P := fun x => x ≤ keyPos cmp key) hc (fun _ => hlt.le)
      fun y hy hle => hnext.le_of_le hnull hgt hy hle

/-- Where a search for the nodes strictly below the key ends, at `c` before an equal node. -/
theorem nearOk_lt_end (hc : c = sl.head ∨ c ∈ S 0) (hlt : pos cmp sl c < keyPos cmp key)
    (heq : pos cmp sl (sl.arena.nextAt c 0) = keyPos cmp key) :
    NearOk cmp sl S key true false (sl.orNone c) := by
  have hnext := h.isNext (l := 0) (by decide) hc
  exact h.greatestWhere_orNone (P := fun x => x < keyPos cmp key) hc (fun _ => hlt)
    fun y hy hlt' => hnext.le_of_lt h.threaded_zero.null_notMem (Or.inr heq.ge) hy hlt'

omit h in
/-- An equal node is the answer when equality is allowed. -/
theorem nearOk_eq {less : Bool} (hn : n ∈ S 0) (heq : pos cmp sl n = keyPos cmp key) :
    NearOk cmp sl S key less true n := by
  cases less
  · exact Or.inr ⟨hn, heq.ge, fun y _ hy => heq.le.trans hy⟩
  · exact Or.inr ⟨hn, heq.le, fun y _ hy => le_of_le_of_eq hy heq.symm⟩

/-- The node after an equal one is the answer of the strict search upwards. -/
theorem nearOk_gt_of_eq (hn : n ∈ S 0) (heq : pos cmp sl n = keyPos cmp key) :
    NearOk cmp sl S key false false (sl.arena.nextAt n 0) := by
  have hleast := (h.isNext (l := 0) (by decide) (Or.inr hn)).leastWhere
  rwa [heq] at hleast

/-- One iteration of `find_near`: go right, go down, or return the node looked for. -/
theorem findNearStep_spec {less allowEqual : Bool} (hs : SearchAt cmp sl S key c l) :
    (∃ c' l', sl.findNearStep key less allowEqual (c, l) = .ok (.next (c', l')) ∧
        SearchAt cmp sl S key c' l' ∧
        (Threaded.after (pos cmp sl) (S 0) c').card + l' <
          (Threaded.after (pos cmp sl) (S 0) c).card + l) ∨
      ∃ o, sl.findNearStep key less allowEqual (c, l) = .ok (.done o) ∧
        NearOk cmp sl S key less allowEqual o := by
  have hs' := hs
  obtain ⟨hl, hc, hlt⟩ := hs
  obtain ⟨hload, hnext⟩ := h.load hl hc
  simp only [SkipList.findNearStep, hload, bind, Except.bind]
  by_cases hnull : sl.arena.nextAt c l = 0
  · simp only [hnull, if_true]
    refine h.down_or_done hs' (fun hl0 => if_pos hl0) fun hl0 => ?_
    subst hl0
    have hend := h.nearOk_end less allowEqual hc hlt (Or.inl hnull)
    rw [hnull] at hend
    rw [if_neg (Nat.lt_irrefl 0)]
    cases less
    · exact ⟨_, rfl, hend⟩
    · exact ⟨_, rfl, hend⟩
  obtain ⟨hmem, hpos⟩ := hnext hnull
  simp only [hnull, if_false, h.nodeKey_of_mem hmem, h.cmp_eq]
  cases hcmp : cmp.compareKey (sl.arena.keyAt (sl.arena.nextAt c l)) key with
  | lt =>
    have hlt' := (h.compareKey_lt hmem).1 hcmp
    refine Or.inl ⟨_, l, rfl, ⟨hl, Or.inr hmem, hlt'⟩, ?_⟩
    have := h.ahead_lt hmem hpos
    omega
  | gt =>
    have hgt' := (h.compareKey_gt hmem).1 hcmp
    refine h.down_or_done hs' (fun hl0 => if_pos hl0) fun hl0 => ?_
    subst hl0
    have hend := h.nearOk_end less allowEqual hc hlt (Or.inr hgt')
    simp only [Nat.lt_irrefl, if_false]
    cases less
    · exact ⟨_, rfl, hend⟩
    · exact ⟨_, rfl, hend⟩
  | eq =>
    have heq' := (h.compareKey_eq hmem).1 hcmp
    have hmem0 := h.subset_zero l hmem
    cases allowEqual with
    | true =>
      simp only [if_true]
      exact Or.inr ⟨_, rfl, nearOk_eq hmem0 heq'⟩
    | false =>
      simp only [Bool.false_eq_true, if_false]
      cases less with
      | false =>
        -- the source goes on at level 0, whatever the level of the equal node
        have hload' := (h.load (l := 0) (by decide) (Or.inr hmem0)).1
        simp only [Bool.not_false, if_true, hload']
        exact Or.inr ⟨_, rfl, h.nearOk_gt_of_eq hmem0 heq'⟩
      | true =>
        simp only [Bool.not_true, Bool.false_eq_true, if_false]
        refine h.down_or_done hs' (fun hl0 => if_pos hl0) fun hl0 => ?_
        subst hl0
        exact ⟨_, if_neg (Nat.lt_irrefl 0), h.nearOk_lt_end hc hlt heq'⟩

/-- **`find_near`** returns the node it looks for. -/
theorem findNear_spec (key : Bytes) (less allowEqual : Bool) :
    ∃ o, sl.findNear key less allowEqual = .ok o ∧ NearOk cmp sl S key less allowEqual o :=
  h.search_loop (I := SearchAt cmp sl S key) (searchAt_head h.height_lt) fun _ _ hs =>
    h.findNearStep_spec hs

/-! ### `find_last` and `len` -/

/-- One iteration of `find_last`: go right, go down, or return the last node. -/
theorem findLastStep_spec (hl : l < maxHeight) (hc : c = sl.head ∨ c ∈ S l) :
    (∃ c' l', sl.findLastStep (c, l) = .ok (.next (c', l')) ∧
        l' < maxHeight ∧ (c' = sl.head ∨ c' ∈ S l') ∧
        (Threaded.after (pos cmp sl) (S 0) c').card + l' <
          (Threaded.after (pos cmp sl) (S 0) c).card + l) ∨
      ∃ o, sl.findLastStep (c, l) = .ok (.done o) ∧
        GreatestWhere 0 (pos cmp sl) (S 0) (fun _ => True) o := by
  obtain ⟨hload, hnext⟩ := h.load hl hc
  simp only [SkipList.findLastStep, hload, bind, Except.bind]
  by_cases hnull : sl.arena.nextAt c l = 0
  · simp only [hnull, ne_eq, not_true, if_false]
    by_cases hl0 : l = 0
    · subst hl0
      have hlast := hnull ▸ h.isNext (l := 0) (by decide) hc
      exact Or.inr ⟨_, rfl, h.greatestWhere_orNone (P := fun _ => True) hc (fun _ => trivial)
        fun y hy _ => hlast.le_of_null h.threaded_zero.null_notMem hy⟩
    · simp only [hl0, if_false]
      exact Or.inl ⟨c, l - 1, rfl, by omega,
        hc.imp id fun hc => h.subset_of_le (Nat.sub_le l 1) hc, by omega⟩
  · obtain ⟨hmem, hpos⟩ := hnext hnull
    simp only [ne_eq, hnull, not_false_eq_true, if_true]
    refine Or.inl ⟨_, l, rfl, hl, Or.inr hmem, ?_⟩
    have := h.ahead_lt hmem hpos
    omega

/-- **`find_last`** returns the last node. -/
theorem findLast_spec :
    ∃ o, sl.findLast = .ok o ∧ GreatestWhere 0 (pos cmp sl) (S 0) (fun _ => True) o := by
  refine h.search_loop (I := fun c l => l < maxHeight ∧ (c = sl.head ∨ c ∈ S l))
    ⟨h.height_lt, Or.inl rfl⟩ fun c l hs => ?_
  rcases h.findLastStep_spec hs.1 hs.2 with ⟨c', l', hstep, hl', hc', hlt⟩ | hdone
  · exact Or.inl ⟨c', l', hstep, ⟨hl', hc'⟩, hlt⟩
  · exact Or.inr hdone

/-- One iteration of `len`: count the next node, or return. -/
theorem lenStep_spec (hc : c = sl.head ∨ c ∈ S 0) (count : ℕ) :
    (sl.arena.nextAt c 0 ∈ S 0 ∧
        sl.lenStep (c, count) = .ok (.next (sl.arena.nextAt c 0, count + 1))) ∨
      (sl.arena.nextAt c 0 = 0 ∧ sl.lenStep (c, count) = .ok (.done count)) := by
  obtain ⟨hload, hnext⟩ := h.load (l := 0) (by decide) hc
  simp only [SkipList.lenStep, hload, bind, Except.bind]
  by_cases hnull : sl.arena.nextAt c 0 = 0
  · simp only [hnull, if_true]
    exact Or.inr ⟨trivial, rfl⟩
  · simp only [hnull, if_false]
    exact Or.inl ⟨(hnext hnull).1, rfl⟩

/-- **`len`** counts the nodes. -/
theorem len_spec : sl.len = .ok (S 0).card := by
  have hloop : ∃ r, sl.len = .ok r ∧ r = (S 0).card := by
    refine loop_ok (I := fun s => (s.1 = sl.head ∨ s.1 ∈ S 0) ∧
        s.2 + (Threaded.after (pos cmp sl) (S 0) s.1).card = (S 0).card)
      (μ := fun s => (Threaded.after (pos cmp sl) (S 0) s.1).card) (fun s hs => ?_) sl.fuel _
      ⟨Or.inl rfl, by simp [SkipList.headOffset, h.threaded_zero.after_head]⟩ ?_
    · -- what has been counted and what is ahead are all the nodes
      obtain ⟨hc, hcount⟩ := hs
      rcases h.lenStep_spec hc s.2 with ⟨hq, hstep⟩ | ⟨hnull, hstep⟩
      · have hcard := h.threaded_zero.card_after_next hc (h.ne_zero hq)
        exact Or.inl ⟨_, hstep, ⟨Or.inr hq, by simp only; omega⟩, by simp only; omega⟩
      · refine Or.inr ⟨_, hstep, ?_⟩
        rw [h.threaded_zero.after_eq_empty hc hnull, Finset.card_empty] at hcount
        omega
    · have := h.ahead_le sl.head
      simp only [SkipList.fuel, SkipList.headOffset, maxHeight]
      omega
  obtain ⟨_, hrun, rfl⟩ := hloop
  exact hrun

end Wf

end StoneDb
