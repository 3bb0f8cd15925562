import StoneDb.MemTable.Basic
import StoneDb.SkipList.Cursor
import StoneDb.SkipList.Reachable

/-!
# Looking up the newest version

`lookup` over any list whose keys are encodings of sequence numbers up to `maxSequence`
(`Encoded`): it seeks the search key `new_max` and compares the user key of the node it lands on
(`Refines.lookup_cases`).

The search key is before every version of its user key but one: the type byte of a value is greater
than that of a tombstone, so a tombstone under the last sequence number comes first
(`newMax_le_iff`).  `lookup` returns the newest version exactly when that tombstone is not there, or
a value under the same number is (`newMax_lookup`).
-/

namespace StoneDb

/-- `InternalKey::from`, an entry, with its value: the pair that stores the entry. -/
def Entry.pair (e : Entry) : Bytes × Bytes :=
  ((InternalKey.new e.key e.sequence e.valueType).encoded, e.value)

/-- The entry is a version that `put` and `delete` can write. -/
def Entry.Numbered (e : Entry) : Prop := e.sequence ≤ maxSequence

/-- The map stores entries only. -/
def Encoded (m : OrderedMap internalKeyComparator.compareKey Bytes) : Prop :=
  ∀ p ∈ m.entries, ∃ e : Entry, e.Numbered ∧ e.pair = p

/-- A stored pair stands for one entry only. -/
theorem Entry.pair_inj {e e' : Entry} (h : e.Numbered) (h' : e'.Numbered) (he : e.pair = e'.pair) :
    e = e' := by
  obtain ⟨hk, hs, ht⟩ := new_inj h h' (congrArg Prod.fst he)
  have hv : e.value = e'.value := congrArg Prod.snd he
  cases e
  cases e'
  simp_all

variable {mt : MemTable} {S : ℕ → Finset ℕ}
  {m : OrderedMap internalKeyComparator.compareKey Bytes} {e e' : Entry} {k : Bytes}

/-! ### The search key -/

/-- The order of stored entries. -/
theorem compareKey_pair (h : e.Numbered) (h' : e'.Numbered) :
    internalKeyComparator.compareKey e.pair.1 e'.pair.1 =
      (compare e.key e'.key).then ((compare e'.sequence e.sequence).then
        (compare e.valueType.toByte.toNat e'.valueType.toByte.toNat)) :=
  compareKey_new e.key e'.key h h' e.valueType e'.valueType

/-- The entry that is not found from the search key of its user key. -/
def Entry.Last (e : Entry) : Prop := e.sequence = maxSequence ∧ e.valueType = .delete

/-- The search key is not after a version of its key, but for a tombstone under the last number. -/
theorem compareKey_newMax_gt_iff (h : e.Numbered) (hk : e.key = k) :
    internalKeyComparator.compareKey (InternalKey.newMax k).encoded e.pair.1 = .gt ↔ e.Last := by
  have htype : compare ValueType.value.toByte.toNat e.valueType.toByte.toNat = .gt ↔
      e.valueType = .delete := by cases e.valueType <;> decide
  have hself : compare k k = .eq := Std.ReflCmp.compare_self
  rw [InternalKey.newMax, Entry.pair, compareKey_new _ _ le_rfl h, hk, hself, Ordering.eq_then,
    Ordering.then_eq_gt, compare_gt_iff_gt, compare_eq_iff_eq, htype, Entry.Last]
  constructor
  · rintro (hgt | hlast)
    · exact absurd hgt (not_lt.2 h)
    · exact hlast
  · exact Or.inr

/-- The search key is after the entries of smaller user keys. -/
theorem compareKey_newMax_of_lt (h : e.Numbered) (hk : compare e.key k = .lt) :
    internalKeyComparator.compareKey (InternalKey.newMax k).encoded e.pair.1 = .gt := by
  rw [InternalKey.newMax, Entry.pair, compareKey_new _ _ le_rfl h, Ordering.then_eq_gt]
  exact Or.inl (Std.OrientedCmp.gt_of_lt hk)

theorem compareKey_newMax_of_gt (h : e.Numbered) (hk : compare e.key k = .gt) :
    internalKeyComparator.compareKey (InternalKey.newMax k).encoded e.pair.1 = .lt := by
  rw [InternalKey.newMax, Entry.pair, compareKey_new _ _ le_rfl h, Ordering.then_eq_lt]
  exact Or.inl (Std.OrientedCmp.lt_of_gt hk)

/-- What a seek of the search key can land on. -/
theorem newMax_le_iff (h : e.Numbered) :
    (internalKeyComparator.compareKey e.pair.1 (InternalKey.newMax k).encoded != .lt) = true ↔
      compare e.key k = .gt ∨ e.key = k ∧ ¬ e.Last := by
  rw [bne_iff_ne, ne_eq, @Std.OrientedCmp.eq_swap _ internalKeyComparator.compareKey,
    Ordering.swap_eq_lt]
  cases hcmp : compare e.key k with
  | lt => simp [compareKey_newMax_of_lt h hcmp, show e.key ≠ k by rintro rfl; simp at hcmp]
  | gt => simp [compareKey_newMax_of_gt h hcmp]
  | eq =>
    have hk : e.key = k := Std.LawfulEqCmp.eq_of_compare hcmp
    simp [compareKey_newMax_gt_iff h hk, hk]

/-! ### `lookup` -/

section

variable (h : Refines internalKeyComparator mt.list S m) (henc : Encoded m)

include h henc

/-- **What `lookup` does**: it seeks the search key, and compares the user key it lands on. -/
theorem Refines.lookup_cases (k : Bytes) :
    (m.leastGE (InternalKey.newMax k).encoded = none ∧ mt.lookup k = .ok none) ∨
      ∃ e : Entry, e.Numbered ∧ m.leastGE (InternalKey.newMax k).encoded = some e.pair ∧
        mt.lookup k = .ok (if e.key = k then some e else none) := by
  obtain ⟨it, hseek, hat⟩ := h.seek (InternalKey.newMax k).encoded
  obtain ⟨-, hkey, hvalue, hmem⟩ := h.cursor_shows hat
  simp only [MemTable.lookup, hseek, hkey, bind, Except.bind]
  cases hleast : m.leastGE (InternalKey.newMax k).encoded with
  | none => exact Or.inl ⟨rfl, rfl⟩
  | some p =>
    obtain ⟨e, hnum, rfl⟩ := henc p (hmem p hleast)
    rw [hleast] at hvalue
    have hfrom : InternalKey.fromEncoded e.pair.1 = .new e.key e.sequence e.valueType := rfl
    refine Or.inr ⟨e, hnum, rfl, ?_⟩
    simp only [Option.map_some, hfrom, userKey_new _ hnum, hvalue, sequence_new _ hnum,
      valueType_new _ hnum]
    by_cases hk : e.key = k
    · subst hk
      simp only [ne_eq, not_true, if_false, if_true]
      rfl
    · simp only [ne_eq, hk, not_false_eq_true, if_true, if_false]
      rfl

/-- If a version of the key is not before the search key, `lookup` returns the first of these, which
is the newest. -/
theorem Refines.lookup_of_reached {e : Entry} (hmem : e.pair ∈ m.entries) (hnum : e.Numbered)
    (hk : e.key = k) (hlast : ¬ e.Last) :
    ∃ e' : Entry, mt.lookup k = .ok (some e') ∧ e'.Numbered ∧ e'.key = k ∧ ¬ e'.Last ∧
      e'.pair ∈ m.entries ∧
      ∀ e'' : Entry, e''.pair ∈ m.entries → e''.Numbered → e''.key = k → ¬ e''.Last →
        e''.sequence ≤ e'.sequence := by
  have hreach : ∀ {e'' : Entry}, e''.Numbered → e''.key = k → ¬ e''.Last →
      (internalKeyComparator.compareKey e''.pair.1 (InternalKey.newMax k).encoded != .lt) = true :=
    fun hnum hk hlast => (newMax_le_iff hnum).2 (Or.inr ⟨hk, hlast⟩)
  rcases h.lookup_cases henc k with ⟨hnone, -⟩ | ⟨e', hnum', hleast, hlookup⟩
  · have := (m.firstWhere_eq_none_iff).1 hnone e.pair hmem
    rw [hreach hnum hk hlast] at this
    cases this
  obtain ⟨hmem', hge, hmin⟩ := (m.firstWhere_eq_some_iff).1 hleast
  -- where the seek lands is not after any of them
  have hle : ∀ {e'' : Entry}, e''.pair ∈ m.entries → e''.Numbered → e''.key = k → ¬ e''.Last →
      internalKeyComparator.compareKey e'.pair.1 e''.pair.1 ≠ .gt := fun hm hn hk hl =>
    (rank_le_rank _).1 (hmin _ hm (hreach hn hk hl))
  have hkey : e'.key = k ∧ ¬ e'.Last := by
    refine ((newMax_le_iff hnum').1 hge).resolve_left fun hgt => ?_
    have hne := hle hmem hnum hk hlast
    rw [compareKey_pair hnum' hnum, hk, hgt] at hne
    exact hne rfl
  refine ⟨e', by rw [hlookup, if_pos hkey.1], hnum', hkey.1, hkey.2, hmem', ?_⟩
  intro e'' hm hn hk'' hl
  have hne := hle hm hn hk'' hl
  have hself : compare k k = .eq := Std.ReflCmp.compare_self
  rw [compareKey_pair hnum' hn, hkey.1, hk'', hself, Ordering.eq_then, ne_eq,
    Ordering.then_eq_gt, not_or, compare_gt_iff_gt] at hne
  exact not_lt.1 hne.1

/-- If no version is reached, `lookup` reports the key as absent. -/
theorem Refines.lookup_of_unreached
    (hall : ∀ e : Entry, e.pair ∈ m.entries → e.Numbered → e.key = k → e.Last) :
    mt.lookup k = .ok none := by
  rcases h.lookup_cases henc k with ⟨-, hlookup⟩ | ⟨e, hnum, hleast, hlookup⟩
  · exact hlookup
  · obtain ⟨hmem, hge, -⟩ := (m.firstWhere_eq_some_iff).1 hleast
    rw [hlookup, if_neg]
    rintro hk
    have hlast := hall e hmem hnum hk
    rcases (newMax_le_iff hnum).1 hge with hgt | ⟨-, hnot⟩
    · rw [hk] at hgt
      have hself : compare k k = .eq := Std.ReflCmp.compare_self
      rw [hself] at hgt
      cases hgt
    · exact hnot hlast

end

/-! ### The newest version -/

/-- A call that stores a version: its key is the encoding of an entry. -/
def PutCall.IsVersion (capacity : ℕ) (c : PutCall) : Prop :=
  c.Storable capacity ∧ ∃ e : Entry, e.Numbered ∧ e.pair = c.pair

/-- The entry is a version of the user key `k` in the list. -/
def MemTable.Version (mt : MemTable) (k : Bytes) (e : Entry) : Prop :=
  e.key = k ∧ e.Numbered ∧ e.pair ∈ mt.list.pairs

/-- `lookup` returns a version of the key with the highest sequence number, and `None` only if there
is no version. -/
def MemTable.FindsNewest (mt : MemTable) (k : Bytes) : Prop :=
  ∃ r, mt.lookup k = .ok r ∧
    match r with
    | some e => mt.Version k e ∧ ∀ e', mt.Version k e' → e'.sequence ≤ e.sequence
    | none => ∀ e, ¬ mt.Version k e

theorem SkipList.Reachable.encoded {capacity : ℕ} {mode : Bool} {sl : SkipList}
    (h : sl.Reachable internalKeyComparator capacity mode (PutCall.IsVersion capacity)) :
    ∃ S m, Refines internalKeyComparator sl S m ∧ Encoded m := by
  obtain ⟨-, S, m, hm, hent⟩ := h.refines fun c hc => hc.1
  refine ⟨S, m, hm, fun p hp => ?_⟩
  obtain ⟨c, hc, rfl⟩ := hent p hp
  exact hc.2

theorem Refines.version_iff (h : Refines internalKeyComparator mt.list S m) :
    mt.Version k e ↔ e.key = k ∧ e.Numbered ∧ e.pair ∈ m.entries := by
  rw [MemTable.Version, h.mem_pairs]

/-- `lookup` finds the newest version exactly when it is not a tombstone that the search key
misses. -/
theorem Refines.findsNewest_iff (h : Refines internalKeyComparator mt.list S m)
    (henc : Encoded m) (k : Bytes) : mt.FindsNewest k ↔
      (∀ e, mt.Version k e → ¬ e.Last) ∨
        ∃ e, mt.Version k e ∧ e.sequence = maxSequence ∧ e.valueType = .value := by
  by_cases hreach : ∃ e, mt.Version k e ∧ ¬ e.Last
  · obtain ⟨e₀, hv₀, hlast₀⟩ := hreach
    obtain ⟨hk₀, hnum₀, hmem₀⟩ := h.version_iff.1 hv₀
    obtain ⟨e, hlookup, hnum, hk, hlast, hmem, hmax⟩ :=
      h.lookup_of_reached henc hmem₀ hnum₀ hk₀ hlast₀
    have hv : mt.Version k e := h.version_iff.2 ⟨hk, hnum, hmem⟩
    have hmax' : ∀ e', mt.Version k e' → ¬ e'.Last → e'.sequence ≤ e.sequence := fun e' hv' hl' =>
      hmax e' (h.version_iff.1 hv').2.2 hv'.2.1 hv'.1 hl'
    constructor
    · rintro ⟨r, hr, hfinds⟩
      obtain rfl : some e = r := Except.ok.inj (hlookup.symm.trans hr)
      obtain ⟨-, hall⟩ := hfinds
      by_cases hseq : e.sequence = maxSequence
      · -- what it returns is under the last number itself, and not the tombstone
        refine Or.inr ⟨e, hv, hseq, ?_⟩
        cases hty : e.valueType with
        | value => rfl
        | delete => exact absurd ⟨hseq, hty⟩ hlast
      · refine Or.inl fun e' hv' hl' => hseq ?_
        exact le_antisymm hnum (hl'.1 ▸ hall e' hv')
    · intro hcond
      refine ⟨some e, hlookup, hv, fun e' hv' => ?_⟩
      by_cases hl' : e'.Last
      · rcases hcond with hno | ⟨e₁, hv₁, hseq₁, hty₁⟩
        · exact absurd hl' (hno e' hv')
        · -- the value under the last number is returned first
          have hl₁ : ¬ e₁.Last := by
            rintro ⟨-, hty⟩
            rw [hty₁] at hty
            cases hty
          calc e'.sequence = e₁.sequence := hl'.1.trans hseq₁.symm
            _ ≤ e.sequence := hmax' e₁ hv₁ hl₁
      · exact hmax' e' hv' hl'
  · have hall : ∀ e, mt.Version k e → e.Last := fun e hv => by
      by_contra hl
      exact hreach ⟨e, hv, hl⟩
    have hlookup := h.lookup_of_unreached henc fun e hmem hnum hk =>
      hall e (h.version_iff.2 ⟨hk, hnum, hmem⟩)
    constructor
    · rintro ⟨r, hr, hfinds⟩
      obtain rfl : none = r := Except.ok.inj (hlookup.symm.trans hr)
      exact Or.inl fun e hv => absurd hv (hfinds e)
    · rintro (hno | ⟨e, hv, -, hty⟩)
      · exact ⟨none, hlookup, fun e hv => hno e hv (hall e hv)⟩
      · have hlast := (hall e hv).2
        rw [hty] at hlast
        cases hlast

/-- **When `new_max` is not after a version of its key**: always, except for a tombstone under the
last sequence number.  It is after all entries of smaller user keys.  Hence `lookup` finds the
newest version of a user key, in every list of versions, exactly when there is no such tombstone or
there is a value under the same number. -/
theorem newMax_lookup {capacity : ℕ} {mode : Bool} {mt : MemTable}
    (hreach : mt.list.Reachable internalKeyComparator capacity mode (PutCall.IsVersion capacity))
    (k : Bytes) :
    (∀ s t, s ≤ maxSequence →
        (internalKeyComparator.compareKey (InternalKey.newMax k).encoded
            (InternalKey.new k s t).encoded ≠ .gt ↔ ¬ (s = maxSequence ∧ t = .delete))) ∧
      (∀ k' s t, s ≤ maxSequence → compare k' k = .lt →
        internalKeyComparator.compareKey (InternalKey.newMax k).encoded
          (InternalKey.new k' s t).encoded = .gt) ∧
      (mt.FindsNewest k ↔
        (∀ v, ¬ mt.Version k ⟨k, v, maxSequence, .delete⟩) ∨
          ∃ v, mt.Version k ⟨k, v, maxSequence, .value⟩) := by
  refine ⟨fun s t hs => ?_, fun k' s t hs hlt => ?_, ?_⟩
  · rw [ne_eq, not_iff_not]
    exact compareKey_newMax_gt_iff (e := ⟨k, [], s, t⟩) hs rfl
  · exact compareKey_newMax_of_lt (e := ⟨k', [], s, t⟩) hs hlt
  · obtain ⟨S, m, hm, henc⟩ := hreach.encoded
    rw [hm.findsNewest_iff henc k]
    refine or_congr ⟨fun hno v hv => hno _ hv ⟨rfl, rfl⟩, fun hno e hv hl => ?_⟩ ⟨?_, ?_⟩
    · obtain ⟨key, v, s, t⟩ := e
      obtain ⟨rfl, rfl⟩ := hl
      obtain rfl := hv.1
      exact hno v hv
    · rintro ⟨⟨key, v, s, t⟩, hv, rfl, rfl⟩
      obtain rfl := hv.1
      exact ⟨v, hv⟩
    · rintro ⟨v, hv⟩
      exact ⟨_, hv, rfl, rfl⟩

/-- A value, and a tombstone for it under the last sequence number. -/
def staleCalls (sl : SkipList) : SkipList :=
  (PutCall.mk (InternalKey.newDelete [1] maxSequence).encoded [] 0).after
    ((PutCall.mk (InternalKey.newPut [1] 5).encoded [7] 0).after sl)

theorem staleCalls_reachable {sl : SkipList}
    (hsl : SkipList.withCapacity internalKeyComparator 1024 false = .ok sl) :
    (staleCalls sl).Reachable internalKeyComparator 1024 false (PutCall.IsVersion 1024) := by
  refine .put (.put (.new hsl) _ ?_) _ ?_
  · exact ⟨PutCall.Valid.storable (by decide) (by decide), ⟨[1], [7], 5, .value⟩,
      show 5 ≤ maxSequence by decide, rfl⟩
  · exact ⟨PutCall.Valid.storable (by decide) (by decide), ⟨[1], [], maxSequence, .delete⟩,
      le_rfl, rfl⟩

/-- The pairs of the list, and what `lookup` makes of them: the deleted value. -/
theorem staleCalls_spec : ∃ sl,
    SkipList.withCapacity internalKeyComparator 1024 false = .ok sl ∧
      (staleCalls sl).pairs = [Entry.pair ⟨[1], [], maxSequence, .delete⟩,
        Entry.pair ⟨[1], [7], 5, .value⟩] ∧
      MemTable.lookup ⟨staleCalls sl, 1, 0, 0⟩ [1] = .ok (some ⟨[1], [7], 5, .value⟩) := by
  have hok : (SkipList.withCapacity internalKeyComparator 1024 false).toOption.all (fun sl =>
      (staleCalls sl).pairs == [Entry.pair ⟨[1], [], maxSequence, .delete⟩,
        Entry.pair ⟨[1], [7], 5, .value⟩] &&
      (MemTable.lookup ⟨staleCalls sl, 1, 0, 0⟩ [1]).toOption ==
        some (some ⟨[1], [7], 5, .value⟩)) = true := by decide +kernel
  obtain ⟨sl, hsl⟩ : ∃ sl, SkipList.withCapacity internalKeyComparator 1024 false = .ok sl :=
    ⟨_, rfl⟩
  rw [hsl] at hok
  simp only [Except.toOption, Option.all_some, Bool.and_eq_true, beq_iff_eq] at hok
  refine ⟨sl, hsl, hok.1, ?_⟩
  cases hlookup : MemTable.lookup ⟨staleCalls sl, 1, 0, 0⟩ [1] with
  | error e => simp [hlookup] at hok
  | ok r =>
    rw [hlookup] at hok
    rw [Option.some.inj hok.2]

/-- The tombstone is not found, so `lookup` does not find the newest version. -/
theorem newMax_lookup_stale : ∃ mt : MemTable,
    mt.list.Reachable internalKeyComparator 1024 false (PutCall.IsVersion 1024) ∧
      ¬ mt.FindsNewest [1] := by
  obtain ⟨sl, hsl, hpairs, -⟩ := staleCalls_spec
  have hreach := staleCalls_reachable hsl
  refine ⟨⟨staleCalls sl, 1, 0, 0⟩, hreach, fun hfinds => ?_⟩
  have hiff := (@newMax_lookup 1024 false ⟨staleCalls sl, 1, 0, 0⟩ hreach [1]).2.2
  rcases hiff.1 hfinds with hno | ⟨v, -, -, hmem⟩
  · refine hno [] ⟨rfl, le_rfl, ?_⟩
    simp [hpairs]
  · have hne : ∀ v, Entry.pair ⟨[1], v, maxSequence, .value⟩ ∉
        [Entry.pair ⟨[1], [], maxSequence, .delete⟩, Entry.pair ⟨[1], [7], 5, .value⟩] := by
      intro v hv
      have hkeys : (Entry.pair ⟨[1], v, maxSequence, .value⟩).1 ∈
          [Entry.pair ⟨[1], [], maxSequence, .delete⟩, Entry.pair ⟨[1], [7], 5, .value⟩].map
            Prod.fst := List.mem_map_of_mem hv
      revert hkeys
      simp only [Entry.pair, List.map_cons, List.map_nil]
      decide
    simp only [hpairs] at hmem
    exact hne v hmem

/-- A tombstone under the last sequence number comes before the search key of its user key, and
`lookup` returns the value that it deletes. -/
theorem newMax_after_tombstone :
    (¬ ∀ k s t, s ≤ maxSequence → internalKeyComparator.compareKey (InternalKey.newMax k).encoded
        (InternalKey.new k s t).encoded ≠ .gt) ∧
      ∃ mt : MemTable,
        mt.list.Reachable internalKeyComparator 1024 false (PutCall.IsVersion 1024) ∧
          mt.Version [1] ⟨[1], [], maxSequence, .delete⟩ ∧
          mt.lookup [1] = .ok (some ⟨[1], [7], 5, .value⟩) := by
  constructor
  · intro hall
    exact hall [1] maxSequence .delete le_rfl (by decide)
  · obtain ⟨sl, hsl, hpairs, hlookup⟩ := staleCalls_spec
    refine ⟨⟨staleCalls sl, 1, 0, 0⟩, staleCalls_reachable hsl, ⟨rfl, le_rfl, ?_⟩, hlookup⟩
    simp [hpairs]

end StoneDb
