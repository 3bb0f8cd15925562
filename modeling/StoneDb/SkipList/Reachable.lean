import StoneDb.SkipList.Chains

/-!
# Reachable lists

The lists that calls of `put` build from a new one, a panic of the arena caught
(`SkipList.Reachable`), and what holds of each of them, stated on what can be seen of the list: the
chain of level 0, its keys and values, and the arena.

* `put_rejected` : a `put` that does not insert changes nothing.
* `Wf.nearCorrect` : `find_near` finds the nearest node, for each combination of its flags, and
  `lower_bound` agrees with it.
-/

namespace StoneDb

/-- The list after a call, whether it has returned or panicked. -/
def PutCall.after (c : PutCall) (sl : SkipList) : SkipList :=
  match SkipList.put c.key c.value c.height sl with
  | .ok _ sl' => sl'
  | .error _ sl' => sl'

/-- The lists built by calls of `put` that satisfy `P`, panics caught. -/
inductive SkipList.Reachable (cmp : KeyComparator) (capacity : ℕ) (mode : Bool)
    (P : PutCall → Prop) : SkipList → Prop
  | new {sl : SkipList} (hnew : SkipList.withCapacity cmp capacity mode = .ok sl) :
    Reachable cmp capacity mode P sl
  | put {sl : SkipList} (hsl : Reachable cmp capacity mode P sl) (c : PutCall) (hc : P c) :
    Reachable cmp capacity mode P (c.after sl)

variable {cmp : KeyComparator} [Std.TransCmp cmp.compareKey] {sl sl' : SkipList}
  {S : ℕ → Finset ℕ} {m : OrderedMap cmp.compareKey Bytes} {capacity : ℕ} {mode : Bool}
  {P : PutCall → Prop} {c : PutCall} {key value target : Bytes} {o x : ℕ}

/-- The node of a call can be laid out in the arena. -/
def PutCall.Storable (capacity : ℕ) (c : PutCall) : Prop :=
  c.height < maxHeight ∧ Sized capacity c.key c.value

theorem PutCall.Valid.storable (h : c.Valid) (hcap : capacity ≤ 2 ^ 32) : c.Storable capacity :=
  ⟨h.height, sized_of_le hcap h.size⟩

/-- One call keeps the refinement, and adds no pair but its own. -/
theorem Refines.after (h : Refines cmp sl S m) (hc : c.Storable sl.arena.capacity) :
    (c.after sl).arena.capacity = sl.arena.capacity ∧ ∃ S' m', Refines cmp (c.after sl) S' m' ∧
      ∀ p ∈ m'.entries, p ∈ m.entries ∨ p = c.pair := by
  rcases h.put_cases hc.1 hc.2.keySized with
    ⟨p, -, hrun⟩ | ⟨habs, ⟨-, hrun⟩ | ⟨sl', S', node, hrun, hadd⟩⟩
  · rw [PutCall.after, hrun]
    exact ⟨rfl, S, m, h, fun p hp => Or.inl hp⟩
  · rw [PutCall.after, hrun]
    exact ⟨rfl, S, m, h, fun p hp => Or.inl hp⟩
  · rw [PutCall.after, hrun]
    have hm := h.added hadd habs
    rw [hadd.storedValue hc.2] at hm
    refine ⟨hadd.grows.capacity, S', _, hm, fun p hp => ?_⟩
    exact (((m.insertIfAbsent_of_absent c.value habs).2 p).1 hp).symm

/-- **Every reachable list** refines the map of some of the calls. -/
theorem SkipList.Reachable.refines (h : sl.Reachable cmp capacity mode P)
    (hP : ∀ c, P c → c.Storable capacity) : sl.arena.capacity = capacity ∧
      ∃ S m, Refines cmp sl S m ∧ ∀ p ∈ m.entries, ∃ c, P c ∧ c.pair = p := by
  induction h with
  | new hnew =>
    refine ⟨(wf_withCapacity hnew).2.2.1, _, _, refines_withCapacity hnew, fun p hp => ?_⟩
    simp [OrderedMap.empty] at hp
  | put hsl c hc ih =>
    obtain ⟨hcap, S, m, hm, hent⟩ := ih
    obtain ⟨hcap', S', m', hm', hent'⟩ := hm.after (hcap ▸ hP c hc)
    refine ⟨hcap'.trans hcap, S', m', hm', fun p hp => ?_⟩
    rcases hent' p hp with hp | rfl
    · exact hent p hp
    · exact ⟨c, hc, rfl⟩

/-! ### A `put` that does not insert -/

/-- Is an equal key on the level-0 chain? -/
def SkipList.Present (sl : SkipList) (key : Bytes) : Prop :=
  ∃ p ∈ sl.pairs, sl.cmp.compareKey p.1 key = .eq

instance (sl : SkipList) (key : Bytes) : Decidable (sl.Present key) :=
  inferInstanceAs (Decidable (∃ p ∈ sl.pairs, sl.cmp.compareKey p.1 key = .eq))

theorem Refines.mem_pairs (h : Refines cmp sl S m) {p : Bytes × Bytes} :
    p ∈ sl.pairs ↔ p ∈ m.entries := h.wf.mem_pairs.trans (h.entries p).symm

theorem Refines.present_iff (h : Refines cmp sl S m) :
    sl.Present key ↔ ∃ p, m.getWithKey key = some p := by
  simp only [SkipList.Present, h.wf.cmp_eq, h.mem_pairs]
  exact exists_congr fun p => (m.getWithKey_eq_some_iff).symm

/-- **A `put` that does not insert changes nothing.**  If the key is present it returns, whatever
the room left in the arena, and the list is as before.  If it is absent, it panics exactly when the
node does not fit in what is left of the arena, and then the list is as before. -/
theorem put_rejected (cmp : KeyComparator) [Std.TransCmp cmp.compareKey] {capacity : ℕ}
    (hcap : capacity ≤ 2 ^ 32) {mode : Bool} {sl : SkipList}
    (hsl : sl.Reachable cmp capacity mode PutCall.Valid) {c : PutCall} (hc : c.Valid) :
    (sl.Present c.key → ∃ r, SkipList.put c.key c.value c.height sl = .ok r sl) ∧
      (¬ sl.Present c.key →
        ((∃ e sl', SkipList.put c.key c.value c.height sl = .error e sl') ↔
          sl.arena.capacity - sl.arena.len < nodeBytes c.key c.value c.height) ∧
        (∀ e sl', SkipList.put c.key c.value c.height sl = .error e sl' →
          e = .outOfMemory ∧ sl' = sl) ∧
        ∀ r sl', SkipList.put c.key c.value c.height sl = .ok r sl' →
          r = none ∧ c.pair ∈ sl'.pairs) := by
  obtain ⟨hcap', S, m, hm, -⟩ := hsl.refines fun c hc => hc.storable hcap
  have hsz : Sized sl.arena.capacity c.key c.value := sized_of_le (hcap'.trans_le hcap) hc.size
  have hlen := hm.wf.len_le
  rw [hm.present_iff]
  constructor
  · rintro ⟨p, hp⟩
    exact ⟨_, hm.put_present hc.height hsz.keySized hp⟩
  · intro habs
    rcases hm.put_cases hc.height hsz.keySized with
      ⟨p, hp, -⟩ | ⟨hnone, ⟨hfull, hrun⟩ | ⟨sl', S', node, hrun, hadd⟩⟩
    · exact absurd ⟨p, hp⟩ habs
    · rw [hrun]
      refine ⟨⟨fun _ => by omega, fun _ => ⟨_, _, rfl⟩⟩, fun e sl' he => ?_, fun r sl' hr => ?_⟩
      · cases he
        exact ⟨rfl, rfl⟩
      · cases hr
    · have hroom := hadd.len
      have hle := hadd.wf.len_le
      rw [hadd.grows.capacity] at hle
      rw [hrun]
      refine ⟨⟨fun ⟨e, sl'', he⟩ => ?_, fun _ => by omega⟩, fun e sl'' he => ?_,
        fun r sl'' hr => ?_⟩
      · cases he
      · cases he
      · cases hr
        have hpair := hadd.pair
        rw [hadd.storedValue hsz] at hpair
        refine ⟨rfl, hadd.wf.mem_pairs.2 ⟨node, ?_, hpair⟩⟩
        rw [hadd.zero]
        exact Finset.mem_insert_self _ _

/-- A full arena: a call for the key in it returns, one for another key panics. -/
theorem put_rejected_full :
    ∃ sl, SkipList.withCapacity bytewiseComparator 232 false = .ok sl ∧
      let full := (PutCall.mk [1] [] 0).after sl
      (∃ r, SkipList.put [1] [9] 3 full = .ok r full) ∧
        ∃ e sl', SkipList.put [2] [] 0 full = .error e sl' := by
  have hok : (SkipList.withCapacity bytewiseComparator 232 false).toOption.all (fun sl =>
      let full := (PutCall.mk [1] [] 0).after sl
      full.Present [1] && !full.Present [2] &&
        decide (full.arena.capacity - full.arena.len < nodeBytes [2] [] 0)) = true := by
    decide +kernel
  obtain ⟨sl, hsl⟩ : ∃ sl, SkipList.withCapacity bytewiseComparator 232 false = .ok sl := ⟨_, rfl⟩
  rw [hsl] at hok
  simp only [Except.toOption, Option.all_some, Bool.and_eq_true, Bool.not_eq_true',
    decide_eq_true_eq, decide_eq_false_iff_not] at hok
  obtain ⟨⟨hpresent, habsent⟩, hfull⟩ := hok
  have hreach : ((PutCall.mk [1] [] 0).after sl).Reachable bytewiseComparator 232 false
      PutCall.Valid := .put (.new hsl) _ (by decide)
  refine ⟨sl, hsl, ?_, ?_⟩
  · exact (put_rejected bytewiseComparator (by decide) hreach (c := ⟨[1], [9], 3⟩)
      (by decide)).1 hpresent
  · exact ((put_rejected bytewiseComparator (by decide) hreach (c := ⟨[2], [], 0⟩)
      (by decide)).2 habsent).1.2 hfull

/-! ### `find_near` -/

/-- Is a key an answer to the query of `find_near`?  It compares as `o` with the target. -/
def nearMatches (less allowEqual : Bool) (o : Ordering) : Bool :=
  o == (if less then .lt else .gt) || allowEqual && o == .eq

namespace SkipList

/-- The node `x` answers the query. -/
def Matches (sl : SkipList) (target : Bytes) (less allowEqual : Bool) (x : ℕ) : Prop :=
  x ∈ sl.chain 0 ∧
    nearMatches less allowEqual (sl.cmp.compareKey (sl.arena.keyAt x) target) = true

/-- It is the nearest one: all others that answer it are beyond. -/
def Nearest (sl : SkipList) (target : Bytes) (less allowEqual : Bool) (x : ℕ) : Prop :=
  sl.Matches target less allowEqual x ∧ ∀ y, sl.Matches target less allowEqual y → y ≠ x →
    sl.cmp.compareKey (sl.arena.keyAt y) (sl.arena.keyAt x) = if less then .lt else .gt

/-- **`find_near` is correct**, for each combination of its flags, and `lower_bound` answers with
the node that `find_near(target, false, true)` finds. -/
structure NearCorrect (sl : SkipList) (target : Bytes) : Prop where
  /-- The nearest node, or `0` exactly when no node answers the query; never the head. -/
  findNear : ∀ less allowEqual, ∃ o, sl.findNear target less allowEqual = .ok o ∧ o ≠ sl.head ∧
    (o = 0 ↔ ∀ x, ¬ sl.Matches target less allowEqual x) ∧
    (o ≠ 0 → sl.Nearest target less allowEqual o)
  /-- The key and the value of that node, or `None` exactly when it is `0`. -/
  lowerBound : ∃ o, sl.findNear target false true = .ok o ∧ sl.lowerBound target =
    .ok (if o = 0 then none else some (sl.arena.keyAt o, sl.arena.valueAt o))

end SkipList

namespace Wf

variable (h : Wf cmp sl S)

include h

/-- The answers to the query, by position. -/
theorem matches_iff {less allowEqual : Bool} {R : Pos cmp → Prop}
    (hR : ∀ k, nearMatches less allowEqual (cmp.compareKey k target) = true ↔ R (keyPos cmp k)) :
    sl.Matches target less allowEqual x ↔ x ∈ S 0 ∧ R (pos cmp sl x) := by
  rw [SkipList.Matches, h.mem_chain_zero, h.cmp_eq, hR]
  exact and_congr_right fun hx => by rw [h.pos_mem hx]

/-- What is before every other answer, or `0` if there is none, is the nearest node. -/
theorem nearest_of {less allowEqual : Bool} {R : Pos cmp → Prop}
    (hR : ∀ k, nearMatches less allowEqual (cmp.compareKey k target) = true ↔ R (keyPos cmp k))
    (ho : (o = 0 ∧ ∀ y ∈ S 0, ¬ R (pos cmp sl y)) ∨ (o ∈ S 0 ∧ R (pos cmp sl o) ∧
      ∀ y ∈ S 0, R (pos cmp sl y) → y ≠ o →
        cmp.compareKey (sl.arena.keyAt y) (sl.arena.keyAt o) = if less then .lt else .gt)) :
    o ≠ sl.head ∧ (o = 0 ↔ ∀ x, ¬ sl.Matches target less allowEqual x) ∧
      (o ≠ 0 → sl.Nearest target less allowEqual o) := by
  have hmatch : ∀ {x}, sl.Matches target less allowEqual x ↔ x ∈ S 0 ∧ R (pos cmp sl x) :=
    h.matches_iff hR
  rcases ho with ⟨rfl, hnone⟩ | ⟨hmem, hRo, hall⟩
  · refine ⟨h.head_ne_zero.symm, ⟨fun _ x hx => ?_, fun _ => rfl⟩, fun h0 => absurd rfl h0⟩
    exact hnone x (hmatch.1 hx).1 (hmatch.1 hx).2
  · refine ⟨h.ne_head hmem, ⟨fun h0 => absurd h0 (h.ne_zero hmem), fun hno => ?_⟩, fun _ => ?_⟩
    · exact absurd (hmatch.2 ⟨hmem, hRo⟩) (hno o)
    · refine ⟨hmatch.2 ⟨hmem, hRo⟩, fun y hy hyo => ?_⟩
      rw [h.cmp_eq]
      exact hall y (hmatch.1 hy).1 (hmatch.1 hy).2 hyo

/-- The greatest node with the property is the nearest below the target. -/
theorem nearest_of_greatest {allowEqual : Bool} {R : Pos cmp → Prop}
    (hR : ∀ k, nearMatches true allowEqual (cmp.compareKey k target) = true ↔ R (keyPos cmp k))
    (ho : GreatestWhere 0 (pos cmp sl) (S 0) R o) :
    o ≠ sl.head ∧ (o = 0 ↔ ∀ x, ¬ sl.Matches target true allowEqual x) ∧
      (o ≠ 0 → sl.Nearest target true allowEqual o) := by
  refine h.nearest_of hR (ho.imp id ?_)
  rintro ⟨hmem, hRo, hmax⟩
  refine ⟨hmem, hRo, fun y hy hRy hyo => ?_⟩
  rw [if_pos rfl, ← keyPos_lt_keyPos, ← h.pos_mem hy, ← h.pos_mem hmem]
  exact lt_of_le_of_ne (hmax y hy hRy) fun he => hyo (h.inj hy hmem he)

/-- The least node with the property is the nearest above the target. -/
theorem nearest_of_least {allowEqual : Bool} {R : Pos cmp → Prop}
    (hR : ∀ k, nearMatches false allowEqual (cmp.compareKey k target) = true ↔ R (keyPos cmp k))
    (ho : LeastWhere 0 (pos cmp sl) (S 0) R o) :
    o ≠ sl.head ∧ (o = 0 ↔ ∀ x, ¬ sl.Matches target false allowEqual x) ∧
      (o ≠ 0 → sl.Nearest target false allowEqual o) := by
  refine h.nearest_of hR (ho.imp id ?_)
  rintro ⟨hmem, hRo, hmin⟩
  refine ⟨hmem, hRo, fun y hy hRy hyo => ?_⟩
  rw [if_neg Bool.false_ne_true, ← keyPos_lt_keyPos_iff_gt, ← h.pos_mem hy, ← h.pos_mem hmem]
  exact lt_of_le_of_ne (hmin y hy hRy) fun he => hyo (h.inj hy hmem he.symm)

/-- The node that `find_near` returns is the nearest one. -/
theorem nearest_of_nearOk {less allowEqual : Bool}
    (ho : NearOk cmp sl S target less allowEqual o) :
    o ≠ sl.head ∧ (o = 0 ↔ ∀ x, ¬ sl.Matches target less allowEqual x) ∧
      (o ≠ 0 → sl.Nearest target less allowEqual o) := by
  cases less with
  | true =>
    cases allowEqual with
    | true =>
      refine h.nearest_of_greatest (R := fun x => x ≤ keyPos cmp target) (fun k => ?_) ho
      rw [← not_lt, keyPos_lt_keyPos_iff_gt]
      cases cmp.compareKey k target <;> decide
    | false =>
      refine h.nearest_of_greatest (R := fun x => x < keyPos cmp target) (fun k => ?_) ho
      rw [keyPos_lt_keyPos]
      cases cmp.compareKey k target <;> decide
  | false =>
    cases allowEqual with
    | true =>
      refine h.nearest_of_least (R := fun x => keyPos cmp target ≤ x) (fun k => ?_) ho
      rw [← not_lt, keyPos_lt_keyPos]
      cases cmp.compareKey k target <;> decide
    | false =>
      refine h.nearest_of_least (R := fun x => keyPos cmp target < x) (fun k => ?_) ho
      rw [keyPos_lt_keyPos_iff_gt]
      cases cmp.compareKey k target <;> decide

/-- Two least nodes are one. -/
theorem leastWhere_unique {R : Pos cmp → Prop} {o' : ℕ} (ho : LeastWhere 0 (pos cmp sl) (S 0) R o)
    (ho' : LeastWhere 0 (pos cmp sl) (S 0) R o') : o = o' := by
  rcases ho with ⟨rfl, hnone⟩ | ⟨hmem, hRo, hmin⟩
  · rcases ho' with ⟨rfl, -⟩ | ⟨hmem', hRo', -⟩
    · rfl
    · exact absurd hRo' (hnone o' hmem')
  · rcases ho' with ⟨rfl, hnone'⟩ | ⟨hmem', hRo', hmin'⟩
    · exact absurd hRo (hnone' o hmem)
    · exact h.inj hmem hmem' (le_antisymm (hmin o' hmem' hRo') (hmin' o hmem hRo))

theorem nearCorrect (target : Bytes) : sl.NearCorrect target := by
  constructor
  · intro less allowEqual
    obtain ⟨o, hrun, ho⟩ := h.findNear_spec target less allowEqual
    exact ⟨o, hrun, h.nearest_of_nearOk ho⟩
  · obtain ⟨o, hrun, ho⟩ := h.findNear_spec target false true
    obtain ⟨o', hrun', ho'⟩ := h.lowerBound_spec target
    obtain rfl := h.leastWhere_unique ho ho'
    exact ⟨o, hrun, hrun'⟩

end Wf

end StoneDb
