import StoneDb.MemTable.Basic

/-!
# What internal keys promise and what they do not

Three operations around the encoding of `StoneDb.Key.InternalKey`, on all inputs that their types
admit and not only on encodings of sequence numbers up to `MAX_SEQUENCE`.

* `InternalKey.cmp` : `Ord` of `InternalKey` looks at the user key and the sequence number, the
  comparator of the skiplist also at the type byte.  They differ on keys that differ in the last
  byte alone, and nowhere else (`compareKey_eq_cmp_iff`).
* `decodeFrom_accepts` : `decode_from` checks the length and leaves the type byte to its caller.
* `InternalKey.ofEntry` : the conversion of an `Entry` has no bound on the sequence number, and cuts
  it to 56 bits (`new_mod`).

An encoded key of 8 bytes or more is `user ++ seq ++ [type]`, with 7 bytes `seq` (`exists_parts`).
-/

namespace StoneDb

namespace InternalKey

/-- `Ord::cmp` of `InternalKey`: `sequence` panics on fewer than 8 bytes. -/
def cmp (k other : InternalKey) : Except Fault Ordering :=
  match compare k.userKey other.userKey with
  | .eq => do
    let selfSeq ← k.sequence
    let otherSeq ← other.sequence
    -- higher sequence first
    return compare otherSeq selfSeq
  | o => .ok o

/-- `From<&Entry> for InternalKey`. -/
def ofEntry (entry : Entry) : InternalKey := new entry.key entry.sequence entry.valueType

/-- The encoding `new(user_key, sequence, value_type)` of the parts of a key. -/
def reencode (k : InternalKey) : Except Fault Bytes := do
  return (new k.userKey (← k.sequence) k.valueType).encoded

/-- An encoding of parts in their ranges. -/
def IsEncoding (b : Bytes) : Prop := ∃ key s t, s ≤ maxSequence ∧ b = (new key s t).encoded

end InternalKey

/-- `ValueType::from_u8`. -/
def ValueType.fromU8 (v : UInt8) : Option ValueType :=
  if v = 0x1 then some .value else if v = 0x0 then some .delete else none

/-- The last byte is a type byte. -/
def TypeByte (b : Bytes) : Prop := ((b.getLast?.bind ValueType.fromU8).isSome : Bool) = true

instance : DecidablePred TypeByte := fun b =>
  inferInstanceAs (Decidable ((b.getLast?.bind ValueType.fromU8).isSome = true))

/-! ### The parts of an encoded key -/

/-- Every key of 8 bytes or more has its three parts. -/
theorem exists_parts {a : Bytes} (h : 8 ≤ a.length) :
    ∃ (user seq : Bytes) (type : UInt8), seq.length = 7 ∧ a = user ++ (seq ++ [type]) := by
  have htail : (a.drop (a.length - 8)).length = 8 := by
    rw [List.length_drop]
    omega
  have hne : a.drop (a.length - 8) ≠ [] := by
    intro hnil
    rw [hnil] at htail
    cases htail
  refine ⟨a.take (a.length - 8), (a.drop (a.length - 8)).dropLast,
    (a.drop (a.length - 8)).getLast hne, ?_, ?_⟩
  · rw [List.length_dropLast, htail]
  · rw [List.dropLast_concat_getLast hne, List.take_append_drop]

theorem ofBe_le_maxSequence {seq : Bytes} (hseq : seq.length = 7) : ofBe seq ≤ maxSequence := by
  have hlt := ofBe_lt seq
  rw [hseq] at hlt
  exact Nat.le_of_lt_succ hlt

section

variable (user : Bytes) {seq : Bytes} (hseq : seq.length = 7) (type : UInt8)

include hseq

theorem userKey_parts : (InternalKey.fromEncoded (user ++ (seq ++ [type]))).userKey = user := by
  simp [InternalKey.userKey, InternalKey.fromEncoded, hseq]

theorem splitInternal_parts : splitInternal (user ++ (seq ++ [type])) = (user, seq ++ [type]) := by
  simp [splitInternal, trailerLen, List.splitAt_eq, hseq]

theorem sequence_parts : (InternalKey.fromEncoded (user ++ (seq ++ [type]))).sequence =
    .ok (maxSequence - ofBe seq) := by
  have hzero : ofBe (0 :: seq) = ofBe seq := by simp [ofBe]
  have hsub : wrappingSub maxSequence (ofBe seq) = maxSequence - ofBe seq :=
    wrappingSub_eq (ofBe_le_maxSequence hseq) (by decide)
  simp [InternalKey.sequence, InternalKey.fromEncoded, hseq, hzero, hsub]

omit hseq in
theorem valueType_parts : (InternalKey.fromEncoded (user ++ (seq ++ [type]))).valueType =
    if type = 0x1 then .value else .delete := by
  simp [InternalKey.valueType, InternalKey.fromEncoded, ← List.append_assoc]

end

/-! ### Two orders -/

theorem cmp_parts (u u' : Bytes) {q q' : Bytes} (hq : q.length = 7) (hq' : q'.length = 7)
    (t t' : UInt8) :
    (InternalKey.fromEncoded (u ++ (q ++ [t]))).cmp (.fromEncoded (u' ++ (q' ++ [t']))) =
      .ok ((compare u u').then (compare q q')) := by
  have hle : ofBe q ≤ maxSequence := ofBe_le_maxSequence hq
  have hle' : ofBe q' ≤ maxSequence := ofBe_le_maxSequence hq'
  -- the inverted sequence numbers compare the other way around
  have hrev : compare (maxSequence - ofBe q') (maxSequence - ofBe q) = compare q q' := by
    rw [compare_ofBe (hq.trans hq'.symm), Nat.compare_eq_ite_lt, Nat.compare_eq_ite_lt]
    split_ifs <;> first | rfl | omega
  rw [InternalKey.cmp, userKey_parts u hq, userKey_parts u' hq', sequence_parts u hq,
    sequence_parts u' hq']
  cases compare u u' with
  | eq => simp only [bind, Except.bind, pure, Except.pure, hrev, Ordering.eq_then]
  | lt | gt => rfl

theorem compareKey_parts (u u' : Bytes) {q q' : Bytes} (hq : q.length = 7) (hq' : q'.length = 7)
    (t t' : UInt8) :
    internalKeyComparator.compareKey (u ++ (q ++ [t])) (u' ++ (q' ++ [t'])) =
      (compare u u').then ((compare q q').then (compare t t')) := by
  rw [compareKey_eq, splitInternal_parts u hq, splitInternal_parts u' hq',
    compare_append (hq.trans hq'.symm), List.compare_cons_cons, List.compare_nil_nil,
    Ordering.then_eq]

/-- **The comparator and `Ord` agree** on two encoded keys, unless these differ in the type byte
alone. -/
theorem compareKey_eq_cmp_iff (a b : Bytes) (ha : 8 ≤ a.length) (hb : 8 ≤ b.length) :
    (InternalKey.fromEncoded a).cmp (.fromEncoded b) = .ok (internalKeyComparator.compareKey a b) ↔
      (a.dropLast = b.dropLast → a = b) := by
  obtain ⟨u, q, t, hq, rfl⟩ := exists_parts ha
  obtain ⟨u', q', t', hq', rfl⟩ := exists_parts hb
  have hdrop : (u ++ (q ++ [t])).dropLast = (u' ++ (q' ++ [t'])).dropLast ↔ u = u' ∧ q = q' := by
    rw [← List.append_assoc, ← List.append_assoc, List.dropLast_concat, List.dropLast_concat]
    refine ⟨fun h => List.append_inj' h (hq.trans hq'.symm), ?_⟩
    rintro ⟨rfl, rfl⟩
    rfl
  have hparts : (compare u u').then (compare q q') = .eq ↔ u = u' ∧ q = q' := by
    rw [Ordering.then_eq_eq, Std.LawfulEqCmp.compare_eq_iff_eq, Std.LawfulEqCmp.compare_eq_iff_eq]
  -- the type bytes decide where the rest is equal
  have hthen : ∀ o c : Ordering, o = o.then c ↔ (o = .eq → c = .eq) := by decide
  rw [cmp_parts u u' hq hq', compareKey_parts u u' hq hq', ← Ordering.then_assoc, Except.ok.injEq,
    hthen, hparts, hdrop]
  refine forall_congr' fun h => ?_
  obtain ⟨rfl, rfl⟩ := h
  simp

/-- Two versions of `k` with the same sequence number, a value and a tombstone. -/
theorem compareKey_ne_cmp :
    (InternalKey.new [107] 7 .value).cmp (.new [107] 7 .delete) = .ok .eq ∧
      internalKeyComparator.compareKey (InternalKey.new [107] 7 .value).encoded
        (InternalKey.new [107] 7 .delete).encoded = .gt := by
  decide

theorem compareKey_eq_cmp_iff_versions :
    (InternalKey.new [107] 7 .value).cmp (.new [107] 9 .delete) =
      .ok (internalKeyComparator.compareKey (InternalKey.new [107] 7 .value).encoded
        (InternalKey.new [107] 9 .delete).encoded) :=
  (compareKey_eq_cmp_iff (InternalKey.new [107] 7 .value).encoded
    (InternalKey.new [107] 9 .delete).encoded (by decide) (by decide)).2 fun h =>
      absurd h (by decide)

/-! ### Decoding -/

/-- The encoding of the parts of a key: all but the type byte come back. -/
theorem reencode_parts (user : Bytes) {seq : Bytes} (hseq : seq.length = 7) (type : UInt8) :
    (InternalKey.fromEncoded (user ++ (seq ++ [type]))).reencode =
      .ok (user ++ (seq ++ [if type = 0x1 then 0x1 else 0x0])) := by
  have hbytes : beBytes 7 (ofBe seq) = seq := hseq ▸ beBytes_ofBe seq
  rw [InternalKey.reencode, userKey_parts user hseq, sequence_parts user hseq,
    valueType_parts user type]
  simp only [bind, Except.bind, pure, Except.pure, encoded_new user (Nat.sub_le _ _), trailer,
    Nat.sub_sub_self (ofBe_le_maxSequence hseq), hbytes]
  split_ifs <;> rfl

theorem typeByte_parts (user seq : Bytes) (type : UInt8) :
    TypeByte (user ++ (seq ++ [type])) ↔ (if type = 0x1 then 0x1 else 0x0) = type := by
  rw [TypeByte, ← List.append_assoc, List.getLast?_concat, Option.bind_some, ValueType.fromU8]
  split_ifs with h1 h0
  · simp [h1]
  · simp [h0]
  · simpa using Ne.symm h0

/-- An encoding of parts in their ranges is 8 bytes or more that end with a type byte. -/
theorem isEncoding_iff {b : Bytes} : InternalKey.IsEncoding b ↔ 8 ≤ b.length ∧ TypeByte b := by
  constructor
  · rintro ⟨key, s, t, hs, rfl⟩
    rw [encoded_new key hs, trailer, typeByte_parts]
    refine ⟨by simp, ?_⟩
    cases t <;> rfl
  · rintro ⟨hlen, htype⟩
    obtain ⟨user, seq, type, hseq, rfl⟩ := exists_parts hlen
    refine ⟨user, maxSequence - ofBe seq, if type = 0x1 then .value else .delete,
      Nat.sub_le _ _, ?_⟩
    have hre := reencode_parts user hseq type
    rw [InternalKey.reencode, userKey_parts user hseq, sequence_parts user hseq,
      valueType_parts user type, (typeByte_parts user seq type).1 htype] at hre
    exact (Except.ok.inj hre).symm

/-- **What `decode_from` accepts**: keys of 8 bytes or more.  Of those that end with a type byte it
accepts exactly the encodings, and these are the keys that their decoded parts encode. -/
theorem decodeFrom_accepts (b : Bytes) :
    ((∃ k, InternalKey.decodeFrom b = .ok k) ↔ 8 ≤ b.length) ∧
      (TypeByte b → ((∃ k, InternalKey.decodeFrom b = .ok k) ↔ InternalKey.IsEncoding b)) ∧
      ∀ k, InternalKey.decodeFrom b = .ok k → (k.reencode = .ok b ↔ TypeByte b) := by
  have hok : (∃ k, InternalKey.decodeFrom b = .ok k) ↔ 8 ≤ b.length := by
    rw [InternalKey.decodeFrom]
    split_ifs with h
    · simp [h]
    · simpa using not_lt.1 h
  refine ⟨hok, fun htype => ?_, fun k hk => ?_⟩
  · rw [hok, isEncoding_iff, and_iff_left htype]
  · have hlen := hok.1 ⟨k, hk⟩
    rw [InternalKey.decodeFrom, if_neg (not_lt.2 hlen), Except.ok.injEq] at hk
    subst hk
    obtain ⟨user, seq, type, hseq, rfl⟩ := exists_parts hlen
    rw [reencode_parts user hseq, typeByte_parts, Except.ok.injEq]
    simp

/-- The last byte `0x2` is no type byte: the key is accepted, and read as a tombstone. -/
theorem decodeFrom_unknown_type :
    ∃ k, InternalKey.decodeFrom [0, 0, 0, 0, 0, 0, 0, 2] = .ok k ∧ k.valueType = .delete ∧
      ¬ InternalKey.IsEncoding [0, 0, 0, 0, 0, 0, 0, 2] ∧
      k.reencode = .ok [0, 0, 0, 0, 0, 0, 0, 0] := by
  refine ⟨_, rfl, by decide, fun h => ?_, by decide⟩
  exact absurd (isEncoding_iff.1 h).2 (by decide)

theorem decodeFrom_accepts_value :
    ∃ k, InternalKey.decodeFrom [0, 0, 0, 0, 0, 0, 0, 1] = .ok k ∧
      InternalKey.IsEncoding [0, 0, 0, 0, 0, 0, 0, 1] ∧
      k.reencode = .ok [0, 0, 0, 0, 0, 0, 0, 1] := by
  obtain ⟨-, hencoding, hreencode⟩ := decodeFrom_accepts [0, 0, 0, 0, 0, 0, 0, 1]
  exact ⟨_, rfl, (hencoding (by decide)).1 ⟨_, rfl⟩, (hreencode _ rfl).2 (by decide)⟩

/-! ### Converting an entry -/

/-- The encoding holds the sequence number modulo `2 ^ 56`. -/
theorem new_mod (key : Bytes) {s : ℕ} (hs : s < 2 ^ 64) (t : ValueType) :
    InternalKey.new key s t = InternalKey.new key (s % 2 ^ 56) t := by
  have hbytes : ∀ x, (beBytes 8 x).drop 1 = beBytes 7 (x % 256 ^ 7) := fun x =>
    (beBytes_mod 7 x).symm
  have hsub : wrappingSub maxSequence s % 256 ^ 7 =
      wrappingSub maxSequence (s % 2 ^ 56) % 256 ^ 7 := by
    simp only [wrappingSub, maxSequence]
    omega
  simp only [InternalKey.new, hbytes, hsub]

/-- The newer of two entries converts to the smaller key, and no conversion underflows. -/
structure NewestFirst (e₁ e₂ : Entry) : Prop where
  /-- `MAX_SEQUENCE - sequence` is not negative. -/
  no_underflow : e₁.sequence ≤ maxSequence ∧ e₂.sequence ≤ maxSequence
  before : internalKeyComparator.compareKey (InternalKey.ofEntry e₁).encoded
    (InternalKey.ofEntry e₂).encoded = .lt

/-- **The conversion keeps the order of two versions** iff the newer one is in range.  Where the
subtraction wraps, what counts is the sequence number modulo `2 ^ 56`. -/
theorem ofEntry_newestFirst (e₁ e₂ : Entry) (h₁ : e₁.sequence < 2 ^ 64) (h₂ : e₂.sequence < 2 ^ 64)
    (hkey : e₁.key = e₂.key) (hlt : e₂.sequence < e₁.sequence) :
    (NewestFirst e₁ e₂ ↔ e₁.sequence ≤ maxSequence) ∧
      (internalKeyComparator.compareKey (InternalKey.ofEntry e₁).encoded
          (InternalKey.ofEntry e₂).encoded = .lt ↔
        e₂.sequence % 2 ^ 56 < e₁.sequence % 2 ^ 56 ∨
          (e₂.sequence % 2 ^ 56 = e₁.sequence % 2 ^ 56 ∧
            e₁.valueType = .delete ∧ e₂.valueType = .value)) := by
  have hle : ∀ s, s % 2 ^ 56 ≤ maxSequence := fun s =>
    Nat.le_of_lt_succ (Nat.mod_lt s (show 0 < maxSequence.succ by decide))
  have hbefore : internalKeyComparator.compareKey (InternalKey.ofEntry e₁).encoded
      (InternalKey.ofEntry e₂).encoded = .lt ↔ e₂.sequence % 2 ^ 56 < e₁.sequence % 2 ^ 56 ∨
        (e₂.sequence % 2 ^ 56 = e₁.sequence % 2 ^ 56 ∧
          e₁.valueType = .delete ∧ e₂.valueType = .value) := by
    rw [InternalKey.ofEntry, InternalKey.ofEntry, new_mod _ h₁, new_mod _ h₂,
      compareKey_new_lt_iff _ _ (hle _) (hle _), hkey, eq_comm (a := e₁.sequence % 2 ^ 56)]
    simp
  refine ⟨⟨fun h => h.no_underflow.1, fun h => ?_⟩, hbefore⟩
  refine ⟨⟨h, hlt.le.trans h⟩, hbefore.2 (Or.inl ?_)⟩
  simp only [maxSequence] at h
  omega

/-- A sequence number of `2 ^ 56` wraps to `0`: the newer entry sorts last. -/
theorem ofEntry_oldest_first :
    ¬ NewestFirst ⟨[107], [1], 2 ^ 56, .value⟩ ⟨[107], [2], 1, .value⟩ ∧
      internalKeyComparator.compareKey (InternalKey.ofEntry ⟨[107], [1], 2 ^ 56, .value⟩).encoded
        (InternalKey.ofEntry ⟨[107], [2], 1, .value⟩).encoded = .gt :=
  ⟨fun h => absurd h.no_underflow.1 (by decide), by decide⟩

theorem ofEntry_newestFirst_last :
    NewestFirst ⟨[107], [], maxSequence, .delete⟩ ⟨[107], [2], 1, .value⟩ :=
  (ofEntry_newestFirst ⟨[107], [], maxSequence, .delete⟩ ⟨[107], [2], 1, .value⟩ (by decide)
    (by decide) rfl (by decide)).1.2 le_rfl

end StoneDb
