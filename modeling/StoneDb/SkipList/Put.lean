import StoneDb.SkipList.Linking

/-!
# What `put` does

`put_spec`: in a list that satisfies the invariant, a `put` that runs to completion either finds an
equal key and changes nothing, or panics for lack of memory and changes nothing, or links one new
node.  In single-writer mode it also keeps the back pointers the inverse of the forward ones
(`Back`).

With nothing else running, the splices that the search recorded are still adjacent when the node is
linked, so every compare-exchange succeeds at once.
-/

namespace StoneDb

variable {cmp : KeyComparator} [Std.TransCmp cmp.compareKey] {sl sl' : SkipList}
  {S : ℕ → Finset ℕ} {key value stored : Bytes} {l p n node height i : ℕ} {s : SkipList.Splices}
  {E : Prop}

/-- `p` and `n` are adjacent at level `l`, around `key`. -/
def SpliceExact (cmp : KeyComparator) [Std.TransCmp cmp.compareKey] (sl : SkipList)
    (S : ℕ → Finset ℕ) (key : Bytes) (l p n : ℕ) : Prop :=
  n = sl.arena.nextAt p l ∧ SpliceOk cmp sl S key l p n

/-- The answer of a `put` whose key is present at `x`. -/
def conflictAnswer (sl : SkipList) (x : ℕ) (key value : Bytes) : Option (Bytes × Bytes) :=
  if sl.arena.valueAt x ≠ value then some (key, value) else none

/-! ### The search -/

theorem index_eq {arr : ℕ → ℕ} (hi : i < maxHeight + 1) : SkipList.index arr i = .ok (arr i) :=
  if_pos hi

theorem index_ok {arr : ℕ → ℕ} {x : ℕ} (hrun : SkipList.index arr i = .ok x) : x = arr i := by
  unfold SkipList.index at hrun
  split_ifs at hrun
  cases hrun
  rfl

/-- Where the search of `put` starts. -/
theorem index_start {head height : ℕ} (hh : height < maxHeight) :
    SkipList.index (SkipList.Splices.start head height).prev (height + 1) = .ok head := by
  rw [index_eq (Nat.succ_lt_succ hh)]
  exact congrArg _ (if_pos ⟨le_rfl, Nat.succ_lt_succ hh⟩)

theorem store_eq (s : SkipList.Splices) (hi : i < maxHeight + 1) :
    s.store i p n =
      .ok { prev := Function.update s.prev i p, next := Function.update s.next i n } :=
  if_pos hi

/-- What holds of the new splice and of those of the other levels holds of all of them. -/
theorem forall_store {P : ℕ → ℕ → ℕ → Prop} {s : SkipList.Splices} (hi : P i p n) (j : ℕ)
    (hj : j ≠ i → P j (s.prev j) (s.next j)) :
    P j (Function.update s.prev i p j) (Function.update s.next i n j) := by
  by_cases hji : j = i
  · subst hji
    simpa using hi
  · simpa only [Function.update_of_ne hji] using hj hji

theorem conflict_eq {sl : SkipList} {x : ℕ} (hx : sl.arena.Alive x) (key value : Bytes) :
    sl.conflict x key value = .ok (conflictAnswer sl x key value) := by
  simp only [SkipList.conflict, nodeValue_eq hx, bind, Except.bind, conflictAnswer]
  rfl

theorem Wf.conflict_eq (h : Wf cmp sl S) {x : ℕ} (hx : x ∈ S l) (key value : Bytes) :
    sl.conflict x key value = .ok (conflictAnswer sl x key value) :=
  StoneDb.conflict_eq (h.alive hx) key value

/-- **The search of `put`** finds an equal key, or the adjacent nodes around the key at every
level. -/
theorem Wf.searchLevels_spec (h : Wf cmp sl S) (key value : Bytes) (i : ℕ) :
    ∀ s : SkipList.Splices, i ≤ maxHeight →
      (s.prev i = sl.head ∨ s.prev i ∈ S i) → pos cmp sl (s.prev i) < keyPos cmp key →
      (∀ j, i ≤ j → j < maxHeight → SpliceExact cmp sl S key j (s.prev j) (s.next j)) →
      (∃ x ∈ S 0, pos cmp sl x = keyPos cmp key ∧
        sl.searchLevels key value i s = .ok (.inl (conflictAnswer sl x key value))) ∨
      ∃ s', sl.searchLevels key value i s = .ok (.inr s') ∧
        ∀ j < maxHeight, SpliceExact cmp sl S key j (s'.prev j) (s'.next j) := by
  induction i with
  | zero => exact fun s _ _ _ hs => Or.inr ⟨s, rfl, fun j hj => hs j (Nat.zero_le j) hj⟩
  | succ i ih =>
    intro s hi hp hlt hs
    -- the search of a level starts where the one above ended
    have hat : SearchAt cmp sl S key (s.prev (i + 1)) i :=
      ⟨hi, hp.imp id fun hp => h.anti i hp, hlt⟩
    obtain ⟨⟨p, n⟩, hfind, hres⟩ := h.findSpliceForLevel_spec hat
    simp only [SkipList.searchLevels, index_eq (Nat.lt_succ_of_le hi), hfind,
      store_eq s (show i < maxHeight + 1 by omega), bind, Except.bind]
    rcases hres with ⟨hexact, hok⟩ | ⟨hpn, hmem, heq⟩
    · have hne : ¬ (p = n ∧ p ≠ 0) := fun hpn => hok.ne h hpn.1
      simp only [hne, if_false]
      refine ih _ (by omega) ?_ ?_ fun j hj hj' => ?_
      · simpa using hok.1
      · simpa using hok.2.1
      · exact forall_store (P := SpliceExact cmp sl S key) ⟨hexact, hok⟩ j fun hji =>
          hs j (by omega) hj'
    · have hne : p = n ∧ p ≠ 0 := ⟨hpn, h.ne_zero hmem⟩
      rw [if_pos hne, h.conflict_eq hmem]
      exact Or.inl ⟨p, h.subset_zero i hmem, heq, rfl⟩

/-- The levels above the list height are empty: their splice is the head and nothing. -/
theorem Wf.start_exact (h : Wf cmp sl S) (key : Bytes) (hl : sl.height < l) (hl' : l < maxHeight) :
    SpliceExact cmp sl S key l ((SkipList.Splices.start sl.head sl.height).prev l)
      ((SkipList.Splices.start sl.head sl.height).next l) := by
  have hprev : (SkipList.Splices.start sl.head sl.height).prev l = sl.head := by
    simp only [SkipList.Splices.start]
    rw [if_pos ⟨hl, hl'.trans (Nat.lt_succ_self _)⟩]
  have hnull : sl.arena.nextAt sl.head l = 0 := by
    by_contra hne
    have hmem := (h.isNext hl' (Or.inl rfl)).mem hne
    rw [h.above l hl] at hmem
    exact absurd hmem (Finset.notMem_empty _)
  rw [hprev]
  exact ⟨hnull.symm, Or.inl rfl, by rw [pos_head]; exact bot_lt_keyPos, Or.inl rfl⟩

/-! ### Linking the node -/

/-- One level in concurrent mode: the first compare-exchange succeeds. -/
theorem Linking.linkStep_eq (h : Linking cmp sl S key stored node height i s True)
    (hwf : Wf cmp sl S) (hil : i < maxHeight) (hi : i ≤ height) :
    SkipList.linkStep key value node i s sl = .ok (.done (.inr s))
      { sl with arena := (sl.arena.setNext node i (s.next i)).setNext (s.prev i) i node } := by
  have hp := (h.splice i le_rfl hi).1
  have hix : i < maxHeight + 1 := by omega
  have hp0 : s.prev i ≠ 0 := hwf.ne_zero' hp
  have hstore : nodeSetNext sl.arena node i (s.next i) = .ok (sl.arena.setNext node i (s.next i)) :=
    nodeSetNext_eq (h.slot.mono hi)
  -- alone, the predecessor is still adjacent when the exchange happens
  have hnextp : (sl.arena.setNext node i (s.next i)).nextAt (s.prev i) i = s.next i :=
    ((h.self hwf hi).2.1.exact trivial i le_rfl hi).symm
  have hcas := nodeCompareExchange_eq (a := sl.arena.setNext node i (s.next i)) (x := node)
    (by simpa using hwf.hasSlot hil hp) (s.next i)
  rw [if_pos hnextp] at hcas
  simp only [SkipList.linkStep, bind, EStateM.bind, SkipList.reading, SkipList.storing,
    SkipList.updating, index_eq hix, hp0, if_false, pure, EStateM.pure, hstore, hcas, if_true]

/-- The stores of `put` to the back pointers. -/
def repairBack (a : Arena) (node p n : ℕ) : Arena :=
  if n ≠ 0 then (a.setPrev node p).setPrev n node else a.setPrev node p

@[simp] theorem len_repairBack (a : Arena) (node p n : ℕ) :
    (repairBack a node p n).len = a.len := by
  unfold repairBack
  split_ifs <;> simp [Arena.len]

@[simp] theorem nextAt_repairBack (a : Arena) (node p n o j : ℕ) :
    (repairBack a node p n).nextAt o j = a.nextAt o j := by
  unfold repairBack
  split_ifs <;> simp

theorem prevAt_repairBack_node {a : Arena} {node p n : ℕ} (ha : a.Alive node)
    (hne : n ≠ 0 → node ≠ n) : (repairBack a node p n).prevAt node = p := by
  unfold repairBack
  split_ifs with hn
  · rw [Arena.prevAt_setPrev_of_ne (hne hn), Arena.prevAt_setPrev_self ha]
  · exact Arena.prevAt_setPrev_self ha

theorem prevAt_repairBack_next {a : Arena} {node p n : ℕ} (hn : n ≠ 0) (ha : a.Alive n) :
    (repairBack a node p n).prevAt n = node := by
  rw [repairBack, if_pos hn]
  exact Arena.prevAt_setPrev_self (by simpa using ha)

theorem prevAt_repairBack_of_ne {a : Arena} {node p n x : ℕ} (hx : x ≠ node) (hxn : x ≠ n) :
    (repairBack a node p n).prevAt x = a.prevAt x := by
  unfold repairBack
  split_ifs
  · rw [Arena.prevAt_setPrev_of_ne hxn, Arena.prevAt_setPrev_of_ne hx]
  · exact Arena.prevAt_setPrev_of_ne hx

/-- One level in single-writer mode. -/
theorem Linking.storeLink_eq (h : Linking cmp sl S key value node height i s True)
    (hwf : Wf cmp sl S) (hil : i < maxHeight) (hi : i ≤ height) :
    SkipList.storeLink node i s sl = .ok s { sl with
      arena := ((if i = 0 then repairBack sl.arena node (s.prev i) (s.next i)
        else sl.arena).setNext node i (s.next i)).setNext (s.prev i) i node } := by
  obtain ⟨hp, -, hn⟩ := h.splice i le_rfl hi
  have hix : i < maxHeight + 1 := by omega
  have hp0 : s.prev i ≠ 0 := hwf.ne_zero' hp
  have hslotp := hwf.hasSlot hil hp
  have hslot := h.slot.mono hi
  have halive : s.next i ≠ 0 → sl.arena.Alive (s.next i) := fun hne =>
    hwf.alive (hn.resolve_left hne).1
  simp only [SkipList.storeLink, bind, EStateM.bind, SkipList.reading, index_eq hix, hp0, if_false,
    pure, EStateM.pure, repairBack]
  by_cases hi0 : i = 0
  · subst hi0
    have hprev : nodeSetPrev sl.arena node (s.prev 0) = .ok (sl.arena.setPrev node (s.prev 0)) :=
      nodeSetPrev_eq hslot.alive
    by_cases hne : s.next 0 = 0
    · simp only [if_true, EStateM.bind, SkipList.storing, hprev, hne, ne_eq, not_true, if_false]
      rw [nodeSetNext_eq (by simpa using hslot)]
      simp only
      rw [nodeSetNext_eq (by simpa using hslotp)]
      rfl
    · simp only [if_true, EStateM.bind, SkipList.storing, hprev, ne_eq, hne, not_false_eq_true]
      rw [nodeSetPrev_eq (by simpa using halive hne)]
      simp only
      rw [nodeSetNext_eq (by simpa using hslot)]
      simp only
      rw [nodeSetNext_eq (by simpa using hslotp)]
      rfl
  · simp only [hi0, if_false, EStateM.bind, SkipList.storing]
    rw [nodeSetNext_eq hslot]
    simp only
    rw [nodeSetNext_eq (by simpa using hslotp)]
    rfl

/-- After its stores to the back pointers a lone writer is still linking. -/
theorem Linking.repairBack (h : Linking cmp sl S key value node height i s E) (hwf : Wf cmp sl S)
    (p n : ℕ) :
    Wf cmp { sl with arena := StoneDb.repairBack sl.arena node p n } S ∧
      Grows sl S { sl with arena := StoneDb.repairBack sl.arena node p n } S ∧
      Linking cmp { sl with arena := StoneDb.repairBack sl.arena node p n } S key value node height
        i s E := by
  unfold StoneDb.repairBack
  split_ifs
  · exact ⟨hwf.setPrev.setPrev, grows_setPrev.trans grows_setPrev,
      (h.setPrev hwf node p).setPrev hwf.setPrev n node⟩
  · exact ⟨hwf.setPrev, grows_setPrev, h.setPrev hwf node p⟩

/-- Both forward stores of a level, by a lone writer. -/
theorem Linking.link_self (h : Linking cmp sl S key value node height i s True) (hwf : Wf cmp sl S)
    (hheight : height ≤ sl.height) (hi : i ≤ height) :
    Wf cmp { sl with arena := (sl.arena.setNext node i (s.next i)).setNext (s.prev i) i node }
        (Function.update S i (insert node (S i))) ∧
      Grows sl S
        { sl with arena := (sl.arena.setNext node i (s.next i)).setNext (s.prev i) i node }
        (Function.update S i (insert node (S i))) ∧
      Linking cmp
        { sl with arena := (sl.arena.setNext node i (s.next i)).setNext (s.prev i) i node }
        (Function.update S i (insert node (S i))) key value node height (i + 1) s True := by
  obtain ⟨hwf', h', hself⟩ := h.self hwf hi
  obtain ⟨hwf'', hgrow, h''⟩ := h'.link hwf' hheight hi hself (h'.exact trivial i le_rfl hi).symm
  exact ⟨hwf'', grows_setNext.trans hgrow, h''⟩

/-- In single-writer mode the level-0 stores repair the back pointers on both sides. -/
theorem Linking.back_zero (h : Linking cmp sl S key value node height 0 s True) (hwf : Wf cmp sl S)
    (hb : Back sl S) :
    Back { sl with arena := ((StoneDb.repairBack sl.arena node (s.prev 0) (s.next 0)).setNext node 0
        (s.next 0)).setNext (s.prev 0) 0 node } (Function.update S 0 (insert node (S 0))) := by
  obtain ⟨-, -, hn⟩ := h.splice 0 le_rfl (Nat.zero_le _)
  obtain ⟨hwf₁, -, h₁⟩ := h.repairBack hwf (s.prev 0) (s.next 0)
  obtain ⟨hwf₂, h₂, hself⟩ := h₁.self hwf₁ (Nat.zero_le _)
  have hnode : node ∉ S 0 := h.fresh 0 le_rfl
  have hne : s.next 0 ≠ 0 → node ≠ s.next 0 := fun hne he =>
    hnode (he ▸ (hn.resolve_left hne).1)
  refine h₂.back_link hwf₂ hself (h₂.exact trivial 0 le_rfl (Nat.zero_le _)).symm ?_ ?_ ?_
  · rw [Arena.prevAt_setNext]
    exact prevAt_repairBack_node h.slot.alive hne
  · intro hne'
    rw [Arena.prevAt_setNext]
    exact prevAt_repairBack_next hne' (hwf.alive (hn.resolve_left hne').1)
  · -- the back pointers of the other nodes are those before the `put`
    intro x hx hxn
    obtain ⟨hmem, hback⟩ := hb x hx
    have hxnode : x ≠ node := fun he => hnode (he ▸ hx)
    have hprev := prevAt_repairBack_of_ne (a := sl.arena) (p := s.prev 0) hxnode hxn
    simp only [Arena.prevAt_setNext, hprev]
    refine ⟨hmem, ?_⟩
    rw [Arena.nextAt_setNext_of_ne (Or.inl (h.ne hmem)), nextAt_repairBack, hback]

/-- A level in concurrent mode whose first compare-exchange succeeds. -/
theorem linkLevels_concurrent {todo : ℕ} {s' : SkipList.Splices}
    (hmode : sl.allowConcurrentWrite = true)
    (hstep : SkipList.linkStep key value node i s sl = .ok (.done (.inr s')) sl') :
    SkipList.linkLevels key value node (todo + 1) i s sl =
      SkipList.linkLevels key value node todo (i + 1) s' sl' := by
  have hfuel : sl.fuel = sl.arena.capacity + 19 + 1 := rfl
  simp only [SkipList.linkLevels, bind, EStateM.bind, SkipList.reading, hmode, if_true, hfuel, loop,
    hstep, pure, EStateM.pure]

/-- A level in single-writer mode. -/
theorem linkLevels_single {todo : ℕ} {s' : SkipList.Splices}
    (hmode : sl.allowConcurrentWrite = false)
    (hstore : SkipList.storeLink node i s sl = .ok s' sl') :
    SkipList.linkLevels key value node (todo + 1) i s sl =
      SkipList.linkLevels key value node todo (i + 1) s' sl' := by
  simp only [SkipList.linkLevels, bind, EStateM.bind, SkipList.reading, hmode, Bool.false_eq_true,
    if_false, hstore]

/-- All levels: `put` answers `None` and the node is linked up to `height`. -/
theorem linkLevels_spec (todo : ℕ) :
    ∀ {sl : SkipList} {S : ℕ → Finset ℕ} {i : ℕ}, Wf cmp sl S → height ≤ sl.height →
      Linking cmp sl S key stored node height i s True → i + todo = height + 1 →
      (sl.allowConcurrentWrite = false → Back sl S) →
      ∃ sl' S', SkipList.linkLevels key value node todo i s sl = .ok none sl' ∧ Wf cmp sl' S' ∧
        (sl'.allowConcurrentWrite = false → Back sl' S') ∧ Grows sl S sl' S' ∧
        S' 0 = insert node (S 0) ∧ sl'.arena.len = sl.arena.len := by
  induction todo with
  | zero =>
    intro sl S i hwf _ h hi hb
    refine ⟨sl, S, rfl, hwf, hb, Grows.refl sl S, ?_, rfl⟩
    rw [Finset.insert_eq_of_mem (h.below 0 (by omega))]
  | succ todo ih =>
    intro sl S i hwf hheight h hi hb
    have hih : i ≤ height := by omega
    have hil : i < maxHeight := (hih.trans hheight).trans_lt hwf.height_lt
    -- the node joins level 0 with the first level that is linked
    have hins : insert node (Function.update S i (insert node (S i)) 0) = insert node (S 0) := by
      by_cases hi0 : i = 0
      · subst hi0
        simp
      · rw [Function.update_of_ne (Ne.symm hi0)]
    cases hmode : sl.allowConcurrentWrite with
    | true =>
      obtain ⟨hwf', hgrow, hlink⟩ := h.link_self hwf hheight hih
      have hb' : ∀ {a : Arena} {T : ℕ → Finset ℕ},
          ({ sl with arena := a } : SkipList).allowConcurrentWrite = false →
          Back { sl with arena := a } T := fun hf => by
        simp only [hmode] at hf
        exact absurd hf (by decide)
      obtain ⟨sl', S', hrun, hwf'', hback, hgrow', hS, hlen⟩ := ih hwf' hheight hlink (by omega) hb'
      refine ⟨sl', S', ?_, hwf'', hback, hgrow.trans hgrow', by rw [hS, hins],
        by rw [hlen]; simp [Arena.len]⟩
      rw [linkLevels_concurrent hmode (h.linkStep_eq hwf hil hih)]
      exact hrun
    | false =>
      have hback := hb hmode
      have hstore := h.storeLink_eq hwf hil hih
      by_cases hi0 : i = 0
      · subst hi0
        rw [if_pos rfl] at hstore
        have hback' := h.back_zero hwf hback
        obtain ⟨hwf₁, hgrow₁, h₁⟩ := h.repairBack hwf (s.prev 0) (s.next 0)
        obtain ⟨hwf', hgrow, hlink⟩ := h₁.link_self hwf₁ hheight hih
        obtain ⟨sl', S', hrun, hwf'', hb', hgrow', hS, hlen⟩ := ih hwf' hheight hlink (by omega)
          fun _ => hback'
        refine ⟨sl', S', ?_, hwf'', hb', hgrow₁.trans (hgrow.trans hgrow'), by rw [hS, hins], ?_⟩
        · rw [linkLevels_single hmode hstore]
          exact hrun
        · have hrepair := len_repairBack sl.arena node (s.prev 0) (s.next 0)
          rw [hlen]
          simpa [Arena.len] using hrepair
      · rw [if_neg hi0] at hstore
        obtain ⟨hwf', hgrow, hlink⟩ := h.link_self hwf hheight hih
        have hback' : Back { sl with arena := sl.arena.setNext node i (s.next i) } S := by
          have hup := hback.upper hi0 node (s.next i) (S i)
          rwa [Function.update_eq_self] at hup
        obtain ⟨sl', S', hrun, hwf'', hb', hgrow', hS, hlen⟩ := ih hwf' hheight hlink (by omega)
          fun _ => hback'.upper hi0 _ _ _
        refine ⟨sl', S', ?_, hwf'', hb', hgrow.trans hgrow', by rw [hS, hins],
          by rw [hlen]; simp [Arena.len]⟩
        rw [linkLevels_single hmode hstore]
        exact hrun

/-- Raising the list height, with nothing else running. -/
theorem raiseHeight_eq (sl : SkipList) (height : ℕ) :
    SkipList.raiseHeight height sl.height sl =
      .ok () { sl with height := max sl.height height } := by
  unfold SkipList.raiseHeight
  by_cases hlt : sl.height < height
  · have hfuel : sl.fuel = sl.arena.capacity + 19 + 1 := rfl
    rw [if_pos hlt, max_eq_right hlt.le]
    split_ifs
    · simp only [hfuel, loop, bind, EStateM.bind, SkipList.raiseStep, hlt, if_true]
      rfl
    · rfl
  · rw [if_neg hlt, max_eq_left (not_lt.1 hlt)]

/-- A `put` that added a node. -/
structure PutAdded (cmp : KeyComparator) [Std.TransCmp cmp.compareKey] (sl : SkipList)
    (S : ℕ → Finset ℕ) (key value : Bytes) (height : ℕ) (sl' : SkipList) (S' : ℕ → Finset ℕ)
    (node : ℕ) : Prop where
  wf : Wf cmp sl' S'
  back : sl'.allowConcurrentWrite = false → Back sl' S'
  grows : Grows sl S sl' S'
  fresh : ¬ sl.arena.Alive node
  zero : S' 0 = insert node (S 0)
  pair : sl'.arena.pairAt node = (key, storedValue value)
  len : sl'.arena.len = sl.arena.len + nodeBytes key value height

/-- The new node is within the arena, so its value is stored in full if the sizes say so. -/
theorem PutAdded.storedValue {S' : ℕ → Finset ℕ}
    (h : PutAdded cmp sl S key value height sl' S' node)
    (hsz : Sized sl.arena.capacity key value) : storedValue value = value := by
  have hfit := h.wf.len_le
  rw [h.len, h.grows.capacity] at hfit
  exact storedValue_eq (hsz.lt_of_fits hfit).2

/-- **`put`**: an equal key is present and nothing changes; or the arena is exhausted and nothing
changes; or exactly one node is added. -/
theorem put_spec (h : Wf cmp sl S) (hb : sl.allowConcurrentWrite = false → Back sl S)
    (hh : height < maxHeight) (hsz : KeySized sl.arena.capacity key value) :
    (∃ x ∈ S 0, pos cmp sl x = keyPos cmp key ∧
        SkipList.put key value height sl = .ok (conflictAnswer sl x key value) sl) ∨
      (∀ x ∈ S 0, pos cmp sl x ≠ keyPos cmp key) ∧
        ((sl.arena.capacity < sl.arena.len + nodeBytes key value height ∧
            SkipList.put key value height sl = .error .outOfMemory sl) ∨
          (sl.arena.len + nodeBytes key value height ≤ sl.arena.capacity ∧
            ∃ sl' S' node, SkipList.put key value height sl = .ok none sl' ∧
              PutAdded cmp sl S key value height sl' S' node)) := by
  have hstart : ∀ j, sl.height + 1 ≤ j → j < maxHeight →
      SpliceExact cmp sl S key j ((SkipList.Splices.start sl.head sl.height).prev j)
        ((SkipList.Splices.start sl.head sl.height).next j) := fun j hj hj' =>
    h.start_exact key hj hj'
  have hprev : (SkipList.Splices.start sl.head sl.height).prev (sl.height + 1) = sl.head :=
    if_pos ⟨le_rfl, Nat.succ_lt_succ h.height_lt⟩
  rcases h.searchLevels_spec key value (sl.height + 1) _ h.height_lt (Or.inl hprev)
    (by rw [hprev, pos_head]; exact bot_lt_keyPos) hstart with
    ⟨x, hx, hpos, hsearch⟩ | ⟨s, hsearch, hexact⟩
  · refine Or.inl ⟨x, hx, hpos, ?_⟩
    simp only [SkipList.put, bind, EStateM.bind, SkipList.reading, SkipList.listHeight,
      SkipList.headOffset, hsearch]
    rfl
  -- the search ended between two adjacent nodes of level 0
  have habsent : ∀ x ∈ S 0, pos cmp sl x ≠ keyPos cmp key := fun x hx => by
    obtain ⟨hnext, hp, hlt, hn⟩ := hexact 0 (by decide)
    refine (h.isNext (l := 0) (by decide) hp).not_between h.threaded_zero.null_notMem hlt ?_ hx
    rw [← hnext]
    exact hn.imp id And.right
  refine Or.inr ⟨habsent, ?_⟩
  rcases h.allocNode_cases hh hsz with ⟨hfull, halloc⟩ | ⟨hfit, halloc⟩
  · refine Or.inl ⟨hfull, ?_⟩
    simp only [SkipList.put, bind, EStateM.bind, SkipList.reading, SkipList.listHeight,
      SkipList.headOffset, hsearch, SkipList.onArena, halloc]
  obtain ⟨hwf, hgrow, hslot, hpair, hfresh⟩ := h.push hh (hsz.lt_of_fits hfit) hfit
  -- the private node, and the splices found before it was allocated
  have hgrow' : Grows sl S { sl with
      height := max sl.height height, arena := sl.arena.push key value height } S :=
    hgrow.trans (grows_raise (le_max_left _ _))
  have hlen0 : sl.arena.len ≠ 0 := by
    have := h.alive_lt _ h.head_slot.alive
    omega
  have hlinking : Linking cmp { sl with
      height := max sl.height height, arena := sl.arena.push key value height } S key
      (storedValue value) sl.arena.len height 0 s True :=
    .start h hgrow' hfresh hlen0 hslot hpair (fun x hx _ => Arena.nextAt_write_of_ne hx)
      (fun j hj => (hexact j (hj.trans_lt hh)).2) fun _ j hj => (hexact j (hj.trans_lt hh)).1
  have hback : sl.allowConcurrentWrite = false → Back { sl with
      height := max sl.height height, arena := sl.arena.push key value height } S := by
    intro hmode
    refine (hb hmode).congr rfl fun x hx => ?_
    have hne := h.ne_of_not_alive hfresh hx
    exact ⟨Arena.prevAt_write_of_ne hne, Arena.nextAt_write_of_ne hne⟩
  obtain ⟨sl', S', hrun, hwf', hback', hgrow'', hS, hlen⟩ :=
    linkLevels_spec (height + 1) (hwf.raise (le_max_left _ _) (max_lt h.height_lt hh))
      (le_max_right _ _) hlinking (by omega) hback
  refine Or.inr ⟨hfit, sl', S', sl.arena.len, ?_, hwf', hback', hgrow'.trans hgrow'', hfresh, hS,
    ?_, hlen⟩
  · have hraise := raiseHeight_eq { sl with arena := sl.arena.push key value height } height
    simp only [SkipList.put, bind, EStateM.bind, SkipList.reading, SkipList.listHeight,
      SkipList.headOffset, hsearch, SkipList.onArena, halloc]
    simp only at hraise
    rw [hraise]
    exact hrun
  · rw [hgrow''.pair _ hslot.alive]
    exact hpair

end StoneDb
