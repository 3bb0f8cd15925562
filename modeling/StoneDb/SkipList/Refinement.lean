import StoneDb.SkipList.Put
import StoneDb.Lib.OrderedMap

/-!
# The skiplist is an ordered insert-if-absent map

`Represents cmp sl S m` relates a skiplist to the map of the pairs on its level-0 chain, also in the
middle of a `put`; `Refines cmp sl S m` says that no `put` is in progress.  A `put` that returns has
the answer and the effect of `OrderedMap.insertIfAbsent` (`Refines.put_or_full`), and every query
returns the map's answer (`Represents.answers`).

Both are derived from `put_spec` and the search specs through one translation: the node with the
least (greatest) position satisfying `P` holds the map's first (last) pair whose key satisfies `P`
(`Represents.pairOf_least`, `Represents.pairOf_greatest`).

`put_run_refines` puts the two together along a whole run from a new list.
-/

namespace StoneDb

variable {cmp : KeyComparator} [Std.TransCmp cmp.compareKey] {sl : SkipList} {S : ℕ → Finset ℕ}
  {m : OrderedMap cmp.compareKey Bytes} {key value : Bytes} {o x height : ℕ}

/-- The skiplist `sl`, with the linked nodes `S`, holds the pairs of `m`. -/
structure Represents (cmp : KeyComparator) [Std.TransCmp cmp.compareKey] (sl : SkipList)
    (S : ℕ → Finset ℕ) (m : OrderedMap cmp.compareKey Bytes) : Prop where
  wf : Wf cmp sl S
  entries : ∀ p, p ∈ m.entries ↔ ∃ x ∈ S 0, sl.arena.pairAt x = p

/-- It holds the pairs of `m`, and no `put` is in progress: in single-writer mode the back pointers
are in order. -/
structure Refines (cmp : KeyComparator) [Std.TransCmp cmp.compareKey] (sl : SkipList)
    (S : ℕ → Finset ℕ) (m : OrderedMap cmp.compareKey Bytes) : Prop
    extends Represents cmp sl S m where
  back : sl.allowConcurrentWrite = false → Back sl S

namespace Represents

variable (h : Represents cmp sl S m)

include h

theorem mem (hx : x ∈ S 0) : sl.arena.pairAt x ∈ m.entries := (h.entries _).2 ⟨x, hx, rfl⟩

theorem pos_pair (hx : x ∈ S 0) : pos cmp sl x = keyPos cmp (sl.arena.pairAt x).1 :=
  h.wf.pos_mem hx

theorem pairOf_mem (hx : x ∈ S 0) : sl.pairOf x = some (sl.arena.pairAt x) :=
  if_neg (h.wf.ne_zero hx)

/-- Every pair of the map is that of a node. -/
theorem forall_entries {R : Bytes × Bytes → Prop} (hall : ∀ y ∈ S 0, R (sl.arena.pairAt y)) :
    ∀ q ∈ m.entries, R q := by
  intro q hq
  obtain ⟨y, hy, rfl⟩ := (h.entries q).1 hq
  exact hall y hy

/-- **The node with the least position satisfying `P`** holds the map's first pair with `P`. -/
theorem pairOf_least {P : Pos cmp → Prop} {Q : Bytes → Bool}
    (hPQ : ∀ k, Q k = true ↔ P (keyPos cmp k)) (ho : LeastWhere 0 (pos cmp sl) (S 0) P o) :
    sl.pairOf o = m.firstWhere Q := by
  rcases ho with ⟨rfl, hall⟩ | ⟨hmem, hP, hle⟩
  · refine (OrderedMap.firstWhere_eq_none_iff m).2 (h.forall_entries fun y hy => ?_) |>.symm
    have hnot := hall y hy
    rw [h.pos_pair hy, ← hPQ] at hnot
    exact Bool.eq_false_iff.2 hnot
  · rw [h.pairOf_mem hmem]
    refine ((OrderedMap.firstWhere_eq_some_iff m).2 ⟨h.mem hmem, ?_, ?_⟩).symm
    · rw [hPQ, ← h.pos_pair hmem]
      exact hP
    · refine h.forall_entries fun y hy hQ => ?_
      rw [hPQ, ← h.pos_pair hy] at hQ
      have hpos := hle y hy hQ
      rwa [h.pos_pair hmem, h.pos_pair hy, keyPos, keyPos, WithBot.coe_le_coe] at hpos

/-- **The node with the greatest position satisfying `P`** holds the map's last pair with `P`. -/
theorem pairOf_greatest {P : Pos cmp → Prop} {Q : Bytes → Bool}
    (hPQ : ∀ k, Q k = true ↔ P (keyPos cmp k)) (ho : GreatestWhere 0 (pos cmp sl) (S 0) P o) :
    sl.pairOf o = m.lastWhere Q := by
  rcases ho with ⟨rfl, hall⟩ | ⟨hmem, hP, hle⟩
  · refine (OrderedMap.lastWhere_eq_none_iff m).2 (h.forall_entries fun y hy => ?_) |>.symm
    have hnot := hall y hy
    rw [h.pos_pair hy, ← hPQ] at hnot
    exact Bool.eq_false_iff.2 hnot
  · rw [h.pairOf_mem hmem]
    refine ((OrderedMap.lastWhere_eq_some_iff m).2 ⟨h.mem hmem, ?_, ?_⟩).symm
    · rw [hPQ, ← h.pos_pair hmem]
      exact hP
    · refine h.forall_entries fun y hy hQ => ?_
      rw [hPQ, ← h.pos_pair hy] at hQ
      have hpos := hle y hy hQ
      rwa [h.pos_pair hmem, h.pos_pair hy, keyPos, keyPos, WithBot.coe_le_coe] at hpos

theorem leastGE_eq (ho : LeastWhere 0 (pos cmp sl) (S 0) (fun x => keyPos cmp key ≤ x) o) :
    sl.pairOf o = m.leastGE key :=
  h.pairOf_least (fun k => by
    rw [← not_lt, keyPos_lt_keyPos]
    cases cmp.compareKey k key <;> decide) ho

theorem leastGT_eq (ho : LeastWhere 0 (pos cmp sl) (S 0) (fun x => keyPos cmp key < x) o) :
    sl.pairOf o = m.leastGT key :=
  h.pairOf_least (fun k => by
    rw [keyPos_lt_keyPos_iff_gt]
    cases cmp.compareKey k key <;> decide) ho

theorem greatestLE_eq (ho : GreatestWhere 0 (pos cmp sl) (S 0) (fun x => x ≤ keyPos cmp key) o) :
    sl.pairOf o = m.greatestLE key :=
  h.pairOf_greatest (fun k => by
    rw [← not_lt, keyPos_lt_keyPos_iff_gt]
    cases cmp.compareKey k key <;> decide) ho

theorem greatestLT_eq (ho : GreatestWhere 0 (pos cmp sl) (S 0) (fun x => x < keyPos cmp key) o) :
    sl.pairOf o = m.greatestLT key :=
  h.pairOf_greatest (fun k => by
    rw [keyPos_lt_keyPos]
    cases cmp.compareKey k key <;> decide) ho

theorem last_eq (ho : GreatestWhere 0 (pos cmp sl) (S 0) (fun _ => True) o) :
    sl.pairOf o = m.last :=
  h.pairOf_greatest (fun k => by simp) ho

/-- The first node of the chain holds the map's first pair. -/
theorem first_eq : sl.pairOf (sl.arena.nextAt sl.head 0) = m.first := by
  have hleast := (h.wf.isNext (l := 0) (by decide) (Or.inl rfl)).leastWhere
  rw [pos_head] at hleast
  exact h.pairOf_least (fun k => by simpa using bot_lt_keyPos) hleast

/-! ### Queries -/

theorem lowerBound_eq (key : Bytes) : sl.lowerBound key = .ok (m.leastGE key) := by
  obtain ⟨o, hrun, ho⟩ := h.wf.lowerBound_spec key
  rw [hrun, h.leastGE_eq ho]

theorem size_eq : m.size = (S 0).card := by
  have hinj : ∀ y ∈ S 0, ∀ z ∈ S 0, sl.arena.pairAt y = sl.arena.pairAt z → y = z :=
    fun y hy z hz hyz => h.wf.inj hy hz (by rw [h.pos_pair hy, h.pos_pair hz, hyz])
  have hnodup : m.entries.Nodup := m.sorted.imp fun {p q} hlt he => by
    rw [he] at hlt
    exact absurd ((rank_lt_rank _).2 hlt) (lt_irrefl _)
  have himage : m.entries.toFinset = (S 0).image sl.arena.pairAt := by
    ext p
    simp [h.entries p]
  rw [← Finset.card_image_of_injOn (f := sl.arena.pairAt) (s := S 0) hinj, ← himage,
    List.toFinset_card_of_nodup hnodup, OrderedMap.size]

theorem len_eq : sl.len = .ok m.size := by rw [h.wf.len_spec, h.size_eq]

theorem isEmpty_eq : sl.isEmpty = .ok (decide (m.size = 0)) := by
  simp only [SkipList.isEmpty, h.len_eq, bind, Except.bind, pure, Except.pure]

omit h in
/-- The least pair not below a key is the pair of that key, if its bytes are those of the key. -/
theorem exactMatch_eq [Std.LawfulEqCmp cmp.compareKey] (m : OrderedMap cmp.compareKey Bytes)
    (key : Bytes) :
    SkipList.exactMatch key (m.leastGE key) = m.getWithKey key := by
  cases hle : m.leastGE key with
  | none =>
    refine ((OrderedMap.getWithKey_eq_none_iff m).2 fun q hq heq => ?_).symm
    have := (OrderedMap.firstWhere_eq_none_iff m).1 hle q hq
    rw [heq] at this
    exact absurd this (by decide)
  | some p =>
    obtain ⟨hmem, hge, hmin⟩ := (OrderedMap.firstWhere_eq_some_iff m).1 hle
    by_cases hpk : p.1 = key
    · rw [SkipList.exactMatch, if_pos hpk]
      refine ((OrderedMap.getWithKey_eq_some_iff m).2 ⟨hmem, ?_⟩).symm
      rw [hpk]
      exact Std.ReflCmp.compare_self
    · rw [SkipList.exactMatch, if_neg hpk]
      refine ((OrderedMap.getWithKey_eq_none_iff m).2 fun q hq heq => hpk ?_).symm
      -- an equal key would be the least pair itself
      have hqk : q.1 = key := Std.LawfulEqCmp.eq_of_compare heq
      have hle' := hmin q hq (by rw [heq]; decide)
      have hpq : rank cmp.compareKey q.1 ≤ rank cmp.compareKey p.1 := by
        rw [← not_lt, rank_lt_rank, hqk]
        simpa using hge
      rw [← hqk]
      exact rank_injective _ (le_antisymm hle' hpq)

/-- A value is found exactly under the key it is stored with. -/
theorem get_eq_some_iff : sl.get key = .ok (some value) ↔ (key, value) ∈ m.entries := by
  have hget : sl.get key = .ok ((SkipList.exactMatch key (m.leastGE key)).map Prod.snd) := by
    simp only [SkipList.get, SkipList.getWithKey, h.lowerBound_eq, bind, Except.bind, pure,
      Except.pure]
  rw [hget]
  constructor
  · intro hsome
    cases hle : m.leastGE key with
    | none => simp [hle, SkipList.exactMatch] at hsome
    | some p =>
      have hmem := m.mem_of_firstWhere hle
      by_cases hpk : p.1 = key
      · subst hpk
        simp only [hle, SkipList.exactMatch, if_true, Option.map_some, Except.ok.injEq,
          Option.some.injEq] at hsome
        exact hsome ▸ hmem
      · simp [hle, SkipList.exactMatch, hpk] at hsome
  · intro hmem
    rw [m.leastGE_of_mem hmem, SkipList.exactMatch, if_pos rfl, Option.map_some]

theorem getWithKey_eq [Std.LawfulEqCmp cmp.compareKey] (key : Bytes) :
    sl.getWithKey key = .ok (m.getWithKey key) := by
  simp only [SkipList.getWithKey, h.lowerBound_eq, bind, Except.bind, pure, Except.pure,
    exactMatch_eq m key]

theorem get_eq [Std.LawfulEqCmp cmp.compareKey] (key : Bytes) :
    sl.get key = .ok (m.get key) := by
  simp only [SkipList.get, h.getWithKey_eq, bind, Except.bind, pure, Except.pure, OrderedMap.get]

theorem contains_eq [Std.LawfulEqCmp cmp.compareKey] (key : Bytes) :
    sl.contains key = .ok (m.contains key) := by
  simp only [SkipList.contains, h.get_eq, bind, Except.bind, pure, Except.pure,
    OrderedMap.contains]

end Represents

/-- Every query on `sl` returns the answer of `m`. -/
structure Answers (sl : SkipList) (m : OrderedMap cmp.compareKey Bytes) : Prop where
  get : ∀ key, sl.get key = .ok (m.get key)
  getWithKey : ∀ key, sl.getWithKey key = .ok (m.getWithKey key)
  contains : ∀ key, sl.contains key = .ok (m.contains key)
  lowerBound : ∀ key, sl.lowerBound key = .ok (m.leastGE key)
  len : sl.len = .ok m.size
  isEmpty : sl.isEmpty = .ok (decide (m.size = 0))

theorem Represents.answers [Std.LawfulEqCmp cmp.compareKey] (h : Represents cmp sl S m) :
    Answers sl m :=
  ⟨h.get_eq, h.getWithKey_eq, h.contains_eq, h.lowerBound_eq, h.len_eq, h.isEmpty_eq⟩

/-! ### `put` -/

/-- An equal key is linked: the map has it too. -/
theorem Represents.getWithKey_of_mem (h : Represents cmp sl S m) (hx : x ∈ S 0)
    (hpos : pos cmp sl x = keyPos cmp key) : m.getWithKey key = some (sl.arena.pairAt x) :=
  (OrderedMap.getWithKey_eq_some_iff m).2 ⟨h.mem hx, (h.wf.compareKey_eq hx).2 hpos⟩

/-- No equal key is linked: the map has none. -/
theorem Represents.getWithKey_of_absent (h : Represents cmp sl S m)
    (habs : ∀ x ∈ S 0, pos cmp sl x ≠ keyPos cmp key) : m.getWithKey key = none := by
  refine (OrderedMap.getWithKey_eq_none_iff m).2 fun q hq heq => ?_
  obtain ⟨x, hx, rfl⟩ := (h.entries q).1 hq
  exact habs x hx ((h.wf.compareKey_eq hx).1 heq)

/-- A new node adds its pair to the map. -/
theorem Represents.added {sl' : SkipList} {S' : ℕ → Finset ℕ} (h : Represents cmp sl S m)
    (hwf : Wf cmp sl' S') (hgrow : Grows sl S sl' S') (hzero : S' 0 = insert x (S 0))
    (hpair : sl'.arena.pairAt x = (key, value)) (habs : m.getWithKey key = none) :
    Represents cmp sl' S' (m.insertIfAbsent key value).1 := by
  refine ⟨hwf, fun p => ?_⟩
  rw [(m.insertIfAbsent_of_absent value habs).2 p, h.entries p, hzero]
  constructor
  · rintro (rfl | ⟨y, hy, rfl⟩)
    · exact ⟨x, Finset.mem_insert_self _ _, hpair⟩
    · exact ⟨y, Finset.mem_insert_of_mem hy, hgrow.pair y (h.wf.alive hy)⟩
  · rintro ⟨y, hy, rfl⟩
    rcases Finset.mem_insert.1 hy with rfl | hy
    · exact Or.inl hpair
    · exact Or.inr ⟨y, hy, (hgrow.pair y (h.wf.alive hy)).symm⟩

/-- What adds no node on level 0 leaves the map alone. -/
theorem Represents.mono {sl' : SkipList} {S' : ℕ → Finset ℕ} (h : Represents cmp sl S m)
    (hwf : Wf cmp sl' S') (hgrow : Grows sl S sl' S') (hzero : S' 0 = S 0) :
    Represents cmp sl' S' m := by
  refine ⟨hwf, fun p => ?_⟩
  rw [h.entries p, hzero]
  constructor
  · rintro ⟨y, hy, rfl⟩
    exact ⟨y, hy, hgrow.pair y (h.wf.alive hy)⟩
  · rintro ⟨y, hy, rfl⟩
    exact ⟨y, hy, (hgrow.pair y (h.wf.alive hy)).symm⟩

theorem Refines.added {sl' : SkipList} {S' : ℕ → Finset ℕ} (h : Refines cmp sl S m)
    (hadd : PutAdded cmp sl S key value height sl' S' x) (habs : m.getWithKey key = none) :
    Refines cmp sl' S' (m.insertIfAbsent key (storedValue value)).1 :=
  ⟨h.toRepresents.added hadd.wf hadd.grows hadd.zero hadd.pair habs, hadd.back⟩

/-- What `put` does, in terms of the map. -/
theorem Refines.put_cases (h : Refines cmp sl S m) (hh : height < maxHeight)
    (hsz : KeySized sl.arena.capacity key value) :
    (∃ p, m.getWithKey key = some p ∧ SkipList.put key value height sl =
        .ok (if p.2 = value then none else some (key, value)) sl) ∨
      m.getWithKey key = none ∧
        ((sl.arena.capacity < sl.arena.len + nodeBytes key value height ∧
            SkipList.put key value height sl = .error .outOfMemory sl) ∨
          ∃ sl' S' node, SkipList.put key value height sl = .ok none sl' ∧
            PutAdded cmp sl S key value height sl' S' node) := by
  rcases put_spec h.wf h.back hh hsz with
    ⟨x, hx, hpos, hrun⟩ | ⟨habs, hfull | ⟨-, sl', S', node, hrun, hadd⟩⟩
  · -- an equal key: the answer compares the values
    refine Or.inl ⟨_, h.getWithKey_of_mem hx hpos, ?_⟩
    rw [hrun, conflictAnswer]
    by_cases hv : sl.arena.valueAt x = value <;> simp [Arena.pairAt, hv]
  · exact Or.inr ⟨h.getWithKey_of_absent habs, Or.inl hfull⟩
  · exact Or.inr ⟨h.getWithKey_of_absent habs, Or.inr ⟨sl', S', node, hrun, hadd⟩⟩

/-- **`put` is `insertIfAbsent`**, unless the arena is exhausted; it takes at most the bytes of its
node. -/
theorem Refines.put_or_full (h : Refines cmp sl S m) (hh : height < maxHeight)
    (hsz : Sized sl.arena.capacity key value) :
    (sl.arena.capacity < sl.arena.len + nodeBytes key value height ∧
        SkipList.put key value height sl = .error .outOfMemory sl) ∨
      ∃ sl' S', SkipList.put key value height sl = .ok (m.insertIfAbsent key value).2 sl' ∧
        Refines cmp sl' S' (m.insertIfAbsent key value).1 ∧ Grows sl S sl' S' ∧
        sl'.arena.len ≤ sl.arena.len + nodeBytes key value height := by
  rcases h.put_cases hh hsz.keySized with
    ⟨p, hp, hrun⟩ | ⟨habs, hfull | ⟨sl', S', node, hrun, hadd⟩⟩
  · refine Or.inr ⟨sl, S, ?_, ?_, Grows.refl sl S, Nat.le_add_right _ _⟩
    · rw [hrun, m.insertIfAbsent_of_present value hp]
    · rw [m.insertIfAbsent_of_present value hp]
      exact h
  · exact Or.inl hfull
  · have hm := h.added hadd habs
    rw [hadd.storedValue hsz] at hm
    refine Or.inr ⟨sl', S', ?_, hm, hadd.grows, hadd.len.le⟩
    rw [hrun, (m.insertIfAbsent_of_absent value habs).1]

theorem Refines.put (h : Refines cmp sl S m) (hh : height < maxHeight)
    (hsz : Sized sl.arena.capacity key value) :
    SkipList.put key value height sl = .error .outOfMemory sl ∨
      ∃ sl' S', SkipList.put key value height sl = .ok (m.insertIfAbsent key value).2 sl' ∧
        Refines cmp sl' S' (m.insertIfAbsent key value).1 ∧ Grows sl S sl' S' :=
  (h.put_or_full hh hsz).imp And.right fun ⟨sl', S', hput, hm, hgrow, _⟩ =>
    ⟨sl', S', hput, hm, hgrow⟩

/-- A `put` of a present key changes nothing, and does not panic. -/
theorem Refines.put_present (h : Refines cmp sl S m) (hh : height < maxHeight)
    (hsz : KeySized sl.arena.capacity key value) {p : Bytes × Bytes}
    (hp : m.getWithKey key = some p) :
    SkipList.put key value height sl =
      .ok (if p.2 = value then none else some (key, value)) sl := by
  rcases h.put_cases hh hsz with ⟨p', hp', hrun⟩ | ⟨habs, -⟩
  · obtain rfl : p = p' := Option.some.inj (hp.symm.trans hp')
    exact hrun
  · rw [habs] at hp
    cases hp

/-- A `put` whose node fits does not panic. -/
theorem Refines.put_of_fits (h : Refines cmp sl S m) (hh : height < maxHeight)
    (hsz : Sized sl.arena.capacity key value)
    (hfit : sl.arena.len + nodeBytes key value height ≤ sl.arena.capacity) :
    ∃ sl' S', SkipList.put key value height sl = .ok (m.insertIfAbsent key value).2 sl' ∧
      Refines cmp sl' S' (m.insertIfAbsent key value).1 ∧ Grows sl S sl' S' ∧
      sl'.arena.len ≤ sl.arena.len + nodeBytes key value height :=
  (h.put_or_full hh hsz).resolve_left fun ⟨hfull, _⟩ => absurd hfit (not_le.2 hfull)

/-! ### Runs -/

/-- A call of `put`, with the tower height it draws. -/
structure PutCall where
  /-- `key`. -/
  key : Bytes
  /-- `value`. -/
  value : Bytes
  /-- The tower height. -/
  height : ℕ

/-- The arguments are slices of one allocation, and the height is one that `random_height` draws. -/
structure PutCall.Valid (c : PutCall) : Prop where
  size : c.key.length + c.value.length ≤ isizeMax
  height : c.height < maxHeight

instance (c : PutCall) : Decidable c.Valid :=
  decidable_of_iff (c.key.length + c.value.length ≤ isizeMax ∧ c.height < maxHeight)
    ⟨fun h => ⟨h.1, h.2⟩, fun h => ⟨h.size, h.height⟩⟩

/-- The pair of a call. -/
def PutCall.pair (c : PutCall) : Bytes × Bytes := (c.key, c.value)

/-- Calls of `put`, one after the other. -/
def runPuts : List PutCall → SkipList.Prog (List (Option (Bytes × Bytes)))
  | [] => return []
  | c :: cs => do
    let r ← SkipList.put c.key c.value c.height
    let rs ← runPuts cs
    return r :: rs

theorem runPuts_cons_error {c : PutCall} {cs : List PutCall} {e : Fault} {sl sl' : SkipList}
    (h : SkipList.put c.key c.value c.height sl = .error e sl') :
    runPuts (c :: cs) sl = .error e sl' := by
  simp only [runPuts, bind, EStateM.bind, h]

theorem runPuts_cons {c : PutCall} {cs : List PutCall} {sl sl' : SkipList}
    {r : Option (Bytes × Bytes)} (h : SkipList.put c.key c.value c.height sl = .ok r sl') :
    runPuts (c :: cs) sl = match runPuts cs sl' with
      | .ok rs sl'' => .ok (r :: rs) sl''
      | .error e sl'' => .error e sl'' := by
  simp only [runPuts, bind, EStateM.bind, h]
  cases runPuts cs sl' <;> rfl

/-- A run that panics panics in every longer run. -/
theorem runPuts_append_error {cs cs' : List PutCall} {e : Fault} {sl sl' : SkipList}
    (h : runPuts cs sl = .error e sl') : runPuts (cs ++ cs') sl = .error e sl' := by
  induction cs generalizing sl with
  | nil => cases h
  | cons c cs ih =>
    rw [List.cons_append]
    cases hput : SkipList.put c.key c.value c.height sl with
    | error e₁ sl₁ =>
      rw [runPuts_cons_error hput] at h ⊢
      exact h
    | ok r sl₁ =>
      rw [runPuts_cons hput] at h ⊢
      cases hrun : runPuts cs sl₁ with
      | error e₂ sl₂ =>
        rw [hrun] at h
        cases h
        rw [ih hrun]
      | ok rs sl₂ =>
        rw [hrun] at h
        cases h

/-- A run from a list that refines `m` is a run of `insertIfAbsent` from `m`. -/
theorem Refines.runPuts {calls : List PutCall} (hcalls : ∀ c ∈ calls, c.Valid)
    (h : Refines cmp sl S m) (hcap : sl.arena.capacity ≤ 2 ^ 32)
    (hroom : ∀ sl', runPuts calls sl ≠ .error .outOfMemory sl') :
    ∃ sl' S', StoneDb.runPuts calls sl = .ok (m.insertAll (calls.map PutCall.pair)).2 sl' ∧
      Refines cmp sl' S' (m.insertAll (calls.map PutCall.pair)).1 ∧ Grows sl S sl' S' := by
  induction calls generalizing sl S m with
  | nil => exact ⟨sl, S, rfl, h, Grows.refl sl S⟩
  | cons c calls ih =>
    obtain ⟨hc, hcalls⟩ := List.forall_mem_cons.1 hcalls
    rcases h.put hc.height (sized_of_le hcap hc.size) with hput | ⟨sl₁, S₁, hput, h₁, hgrow⟩
    · exact absurd (runPuts_cons_error hput) (hroom sl)
    have hroom₁ : ∀ sl', StoneDb.runPuts calls sl₁ ≠ .error .outOfMemory sl' := by
      intro sl' hrun
      refine hroom sl' ?_
      rw [runPuts_cons hput, hrun]
    obtain ⟨sl', S', hrun, h', hgrow'⟩ := ih hcalls h₁ (hgrow.capacity ▸ hcap) hroom₁
    refine ⟨sl', S', ?_, h', hgrow.trans hgrow'⟩
    rw [runPuts_cons hput, hrun]
    rfl

/-- A new list refines the empty map. -/
theorem refines_withCapacity {capacity : ℕ} {mode : Bool}
    (h : SkipList.withCapacity cmp capacity mode = .ok sl) :
    Refines cmp sl (fun _ => ∅) .empty :=
  ⟨⟨(wf_withCapacity h).1, fun p => by simp [OrderedMap.empty]⟩,
    fun _ x hx => absurd hx (Finset.notMem_empty x)⟩

/-- The map that `calls` build from the empty one, and their answers. -/
def putMap (cmp : KeyComparator) [Std.TransCmp cmp.compareKey] (calls : List PutCall) :
    OrderedMap cmp.compareKey Bytes × List (Option (Bytes × Bytes)) :=
  OrderedMap.empty.insertAll (calls.map PutCall.pair)

/-- **A skiplist behaves as an ordered insert-if-absent map**: along every run of `put` calls that
does not exhaust the arena, with whatever heights and in either mode, the calls return the answers
of `insertIfAbsent`, and after any prefix of the run the queries return the answers of the map. -/
theorem put_run_refines (cmp : KeyComparator) [Std.TransCmp cmp.compareKey]
    [Std.LawfulEqCmp cmp.compareKey] {capacity : ℕ} (hcap : capacity ≤ 2 ^ 32) (mode : Bool)
    {sl : SkipList} (hnew : SkipList.withCapacity cmp capacity mode = .ok sl)
    {calls : List PutCall} (hcalls : ∀ c ∈ calls, c.Valid)
    (hroom : ∀ sl', runPuts calls sl ≠ .error .outOfMemory sl') {done : List PutCall}
    (hdone : done <+: calls) :
    ∃ sl', runPuts done sl = .ok (putMap cmp done).2 sl' ∧ Answers sl' (putMap cmp done).1 := by
  obtain ⟨rest, rfl⟩ := hdone
  have hcap' : sl.arena.capacity ≤ 2 ^ 32 := (wf_withCapacity hnew).2.2.1 ▸ hcap
  obtain ⟨sl', S', hrun, h', -⟩ := (refines_withCapacity hnew).runPuts
    (fun c hc => hcalls c (List.mem_append_left _ hc)) hcap'
    fun sl' hrun => hroom sl' (runPuts_append_error hrun)
  exact ⟨sl', hrun, h'.answers⟩

/-- A run in concurrent mode with a duplicate key and a conflicting value. -/
theorem put_run_refines_sample :
    ∃ sl, SkipList.withCapacity bytewiseComparator 1024 true = .ok sl ∧
      ∃ sl', runPuts [⟨[2], [1], 3⟩, ⟨[1], [], 0⟩, ⟨[2], [9], 1⟩] sl =
          .ok (putMap bytewiseComparator [⟨[2], [1], 3⟩, ⟨[1], [], 0⟩, ⟨[2], [9], 1⟩]).2 sl' ∧
        Answers sl' (putMap bytewiseComparator [⟨[2], [1], 3⟩, ⟨[1], [], 0⟩, ⟨[2], [9], 1⟩]).1 := by
  have hok : (SkipList.withCapacity bytewiseComparator 1024 true).toOption.all (fun sl =>
      runPuts [⟨[2], [1], 3⟩, ⟨[1], [], 0⟩, ⟨[2], [9], 1⟩] sl matches .ok ..) = true := by
    decide +kernel
  obtain ⟨sl, hsl⟩ : ∃ sl, SkipList.withCapacity bytewiseComparator 1024 true = .ok sl := ⟨_, rfl⟩
  rw [hsl] at hok
  refine ⟨sl, hsl, put_run_refines bytewiseComparator (show 1024 ≤ 2 ^ 32 by decide) true hsl
    (fun c hc => ?_) (fun sl' hrun => ?_) (List.prefix_refl _)⟩
  · simp only [List.mem_cons, List.not_mem_nil, or_false] at hc
    rcases hc with rfl | rfl | rfl <;> exact ⟨by decide, by decide⟩
  · simp [hrun, Except.toOption] at hok

end StoneDb
