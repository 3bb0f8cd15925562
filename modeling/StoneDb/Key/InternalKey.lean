import StoneDb.Lib.BigEndian
import StoneDb.SkipList.Basic

/-!
# Internal keys

`InternalKey = user_key | sequence (7 bytes, big-endian, inverted) | value_type (1 byte)`, and the
comparator that orders them in the MemTable.

The encoding is read back field by field (`userKey_new`, `sequence_new`, `valueType_new`).  The
comparator orders all byte strings totally, and encodings by user key, then by sequence with the
newest first, then by type (`compareKey_new`).
-/

namespace StoneDb

/-- `Error`: the two that the operations below and those of the MemTable return. -/
inductive Error where
  /-- Invalid key format. -/
  | invalidKey (message : String)
  /-- Sequence number overflow. -/
  | sequenceOverflow
  deriving DecidableEq, Repr

/-! ### Encoding -/

/-- `MAX_SEQUENCE`. -/
def maxSequence : ℕ := 0x00FFFFFFFFFFFFFF

/-- Subtraction of `u64` values, which wraps. -/
def wrappingSub (a b : ℕ) : ℕ := (a + 2 ^ 64 - b) % 2 ^ 64

theorem wrappingSub_eq {a b : ℕ} (h : b ≤ a) (ha : a < 2 ^ 64) : wrappingSub a b = a - b := by
  unfold wrappingSub
  omega

/-- `ValueType`. -/
inductive ValueType where
  /-- Regular key-value pair. -/
  | value
  /-- Deletion (tombstone). -/
  | delete
  deriving DecidableEq, Repr

/-- The last byte of an internal key. -/
def ValueType.toByte (t : ValueType) : UInt8 := if t = .value then 0x1 else 0x0

/-- `InternalKey`. -/
structure InternalKey where
  /-- The encoded key bytes (user_key | sequence | type). -/
  encoded : Bytes
  deriving DecidableEq, Repr

namespace InternalKey

/-- `InternalKey::new`. -/
def new (key : Bytes) (sequence : ℕ) (valueType : ValueType) : InternalKey where
  encoded :=
    let encodedSequence := wrappingSub maxSequence sequence
    key ++ (beBytes 8 encodedSequence).drop 1 ++ [valueType.toByte]

/-- `InternalKey::new_put`. -/
def newPut (key : Bytes) (sequence : ℕ) : InternalKey := new key sequence .value

/-- `InternalKey::new_delete`. -/
def newDelete (key : Bytes) (sequence : ℕ) : InternalKey := new key sequence .delete

/-- `InternalKey::new_max`. -/
def newMax (key : Bytes) : InternalKey := new key maxSequence .value

/-- `user_key`. -/
def userKey (k : InternalKey) : Bytes := k.encoded.take (k.encoded.length - 8)

/-- `sequence`: the slice panics on fewer than 8 bytes. -/
def sequence (k : InternalKey) : Except Fault ℕ :=
  if k.encoded.length < 8 then .error .indexOutOfBounds
  else
    let seqType := (k.encoded.drop (k.encoded.length - 8)).take 7
    .ok (wrappingSub maxSequence (ofBe (0 :: seqType)))

/-- `value_type`. -/
def valueType (k : InternalKey) : ValueType :=
  let t := k.encoded.getLast?.getD 0
  if t = 0x1 then .value else .delete

/-- `from_encoded`. -/
def fromEncoded (encoded : Bytes) : InternalKey := ⟨encoded⟩

/-- `decode_from`. -/
def decodeFrom (encoded : Bytes) : Except Error InternalKey :=
  if encoded.length < 8 then
    .error (.invalidKey s!"InternalKey too short: {encoded.length} bytes")
  else .ok (fromEncoded encoded)

end InternalKey

/-- The 8 bytes behind the user key. -/
def trailer (sequence : ℕ) (t : ValueType) : Bytes :=
  beBytes 7 (maxSequence - sequence) ++ [t.toByte]

@[simp] theorem length_trailer (s : ℕ) (t : ValueType) : (trailer s t).length = 8 := by
  simp [trailer]

theorem encoded_new (key : Bytes) {s : ℕ} (hs : s ≤ maxSequence) (t : ValueType) :
    (InternalKey.new key s t).encoded = key ++ trailer s t := by
  have hsub : wrappingSub maxSequence s = maxSequence - s := wrappingSub_eq hs (by decide)
  simp only [InternalKey.new, hsub, trailer, List.append_assoc]
  rfl

/-- What the trailer spells: newer sequences spell smaller numbers. -/
theorem ofBe_trailer {s : ℕ} (t : ValueType) :
    ofBe (trailer s t) = (maxSequence - s) * 256 + t.toByte.toNat := by
  have hlt : maxSequence - s < 256 ^ 7 := (Nat.sub_le _ _).trans_lt (by decide)
  simp [trailer, ofBe_append, ofBe_beBytes_of_lt hlt, ofBe]

/-! ### Decoding what was encoded -/

section

variable (key : Bytes) {s : ℕ} (hs : s ≤ maxSequence) (t : ValueType)

include hs

theorem userKey_new : (InternalKey.new key s t).userKey = key := by
  rw [InternalKey.userKey, encoded_new key hs]
  simp

theorem sequence_new : (InternalKey.new key s t).sequence = .ok s := by
  have hlt : maxSequence - s < 256 ^ 7 := (Nat.sub_le _ _).trans_lt (by decide)
  have htake : (trailer s t).take 7 = beBytes 7 (maxSequence - s) := by
    simp [trailer]
  have hzero : ofBe (0 :: beBytes 7 (maxSequence - s)) = maxSequence - s := by
    simp [ofBe, ofBe_beBytes_of_lt hlt]
  rw [InternalKey.sequence, encoded_new key hs, if_neg (by simp)]
  simp only [List.length_append, length_trailer, Nat.add_sub_cancel, List.drop_left, htake, hzero]
  rw [wrappingSub_eq (Nat.sub_le _ _) (by decide), Nat.sub_sub_self hs]

theorem valueType_new : (InternalKey.new key s t).valueType = t := by
  rw [InternalKey.valueType, encoded_new key hs, trailer, ← List.append_assoc,
    List.getLast?_concat]
  cases t <;> rfl

theorem decodeFrom_new :
    InternalKey.decodeFrom (InternalKey.new key s t).encoded = .ok (InternalKey.new key s t) := by
  rw [InternalKey.decodeFrom, if_neg (by simp [encoded_new key hs])]
  rfl

end

/-- The accessors of `k` return these parts. -/
structure InternalKey.Decodes (k : InternalKey) (key : Bytes) (s : ℕ) (t : ValueType) : Prop where
  userKey : k.userKey = key
  sequence : k.sequence = .ok s
  valueType : k.valueType = t

theorem decodes_new (key : Bytes) {s : ℕ} (hs : s ≤ maxSequence) (t : ValueType) :
    (InternalKey.new key s t).Decodes key s t :=
  ⟨userKey_new key hs t, sequence_new key hs t, valueType_new key hs t⟩

/-- A key decodes in one way only. -/
theorem InternalKey.Decodes.unique {k : InternalKey} {key key' : Bytes} {s s' : ℕ}
    {t t' : ValueType} (h : k.Decodes key s t) (h' : k.Decodes key' s' t') :
    key = key' ∧ s = s' ∧ t = t' := by
  refine ⟨h.userKey.symm.trans h'.userKey, ?_, h.valueType.symm.trans h'.valueType⟩
  exact Except.ok.inj (h.sequence.symm.trans h'.sequence)

theorem new_inj {key key' : Bytes} {s s' : ℕ} {t t' : ValueType} (hs : s ≤ maxSequence)
    (hs' : s' ≤ maxSequence)
    (h : (InternalKey.new key s t).encoded = (InternalKey.new key' s' t').encoded) :
    key = key' ∧ s = s' ∧ t = t' := by
  have hk : InternalKey.new key s t = InternalKey.new key' s' t' := congrArg InternalKey.mk h
  have hdec := decodes_new key hs t
  rw [hk] at hdec
  exact hdec.unique (decodes_new key' hs' t')

/-- **The encoding loses nothing**: the accessors return what was encoded, directly and through
`from_encoded` and `decode_from`, and different parts have different encodings. -/
theorem internalKey_round_trip :
    (∀ key s t, s ≤ maxSequence → (InternalKey.new key s t).Decodes key s t ∧
        (InternalKey.fromEncoded (InternalKey.new key s t).encoded).Decodes key s t ∧
        ∃ k, InternalKey.decodeFrom (InternalKey.new key s t).encoded = .ok k ∧
          k.Decodes key s t) ∧
      ∀ key key' s s' t t', s ≤ maxSequence → s' ≤ maxSequence →
        (InternalKey.new key s t).encoded = (InternalKey.new key' s' t').encoded →
          key = key' ∧ s = s' ∧ t = t' := by
  constructor
  · intro key s t hs
    exact ⟨decodes_new key hs t, decodes_new key hs t, _, decodeFrom_new key hs t,
      decodes_new key hs t⟩
  · intro key key' s s' t t' hs hs'
    exact new_inj hs hs'

/-- A user key whose tail is a trailer, under the last sequence number. -/
theorem internalKey_round_trip_trailer :
    (InternalKey.new (trailer 3 .value) maxSequence .delete).Decodes (trailer 3 .value) maxSequence
      .delete :=
  (internalKey_round_trip.1 (trailer 3 .value) maxSequence .delete le_rfl).1

/-! ### The comparator -/

/-- `TRAILER_LEN`. -/
def trailerLen : ℕ := 8

/-- `split_internal`: keys shorter than the trailer are all user key. -/
def splitInternal (key : Bytes) : Bytes × Bytes :=
  if key.length < trailerLen then (key, []) else key.splitAt (key.length - trailerLen)

/-- `InternalKeyComparator`. -/
def internalKeyComparator : KeyComparator where
  compareKey lhs rhs :=
    match compare (splitInternal lhs).1 (splitInternal rhs).1 with
    | .eq => compare (splitInternal lhs).2 (splitInternal rhs).2
    | other => other
  sameKey lhs rhs := (splitInternal lhs).1 == (splitInternal rhs).1

theorem splitInternal_append (key : Bytes) :
    (splitInternal key).1 ++ (splitInternal key).2 = key := by
  unfold splitInternal
  split_ifs
  · simp
  · rw [List.splitAt_eq]
    exact List.take_append_drop _ _

theorem splitInternal_new (key : Bytes) {s : ℕ} (hs : s ≤ maxSequence) (t : ValueType) :
    splitInternal (InternalKey.new key s t).encoded = (key, trailer s t) := by
  rw [encoded_new key hs, splitInternal, if_neg (by simp [trailerLen]), List.splitAt_eq]
  simp [trailerLen]

/-- The user keys decide, then the trailers. -/
theorem compareKey_eq (a b : Bytes) : internalKeyComparator.compareKey a b =
    (compare (splitInternal a).1 (splitInternal b).1).then
      (compare (splitInternal a).2 (splitInternal b).2) := by
  simp only [internalKeyComparator]
  cases compare (splitInternal a).1 (splitInternal b).1 <;> rfl

instance : Std.TransCmp internalKeyComparator.compareKey := by
  have hlex : internalKeyComparator.compareKey =
      compareLex (compareOn fun k => (splitInternal k).1)
        (compareOn fun k => (splitInternal k).2) := by
    funext a b
    rw [compareKey_eq]
    rfl
  rw [hlex]
  infer_instance

instance : Std.LawfulEqCmp internalKeyComparator.compareKey where
  compare_self := Std.ReflCmp.compare_self
  eq_of_compare {a b} h := by
    rw [compareKey_eq, Ordering.then_eq_eq] at h
    rw [← splitInternal_append a, ← splitInternal_append b, Std.LawfulEqCmp.eq_of_compare h.1,
      Std.LawfulEqCmp.eq_of_compare h.2]

/-- **The order of encodings**: by user key, then by sequence from the newest, then by type. -/
theorem compareKey_new (k₁ k₂ : Bytes) {s₁ s₂ : ℕ} (h₁ : s₁ ≤ maxSequence) (h₂ : s₂ ≤ maxSequence)
    (t₁ t₂ : ValueType) :
    internalKeyComparator.compareKey (InternalKey.new k₁ s₁ t₁).encoded
        (InternalKey.new k₂ s₂ t₂).encoded =
      (compare k₁ k₂).then ((compare s₂ s₁).then (compare t₁.toByte.toNat t₂.toByte.toNat)) := by
  -- trailers of one length compare as numbers
  have htrailer : compare (trailer s₁ t₁) (trailer s₂ t₂) =
      compare ((maxSequence - s₁) * 256 + t₁.toByte.toNat)
        ((maxSequence - s₂) * 256 + t₂.toByte.toNat) := by
    rw [compare_ofBe (by simp), ofBe_trailer, ofBe_trailer]
  rw [compareKey_eq, splitInternal_new k₁ h₁, splitInternal_new k₂ h₂, htrailer]
  congr 1
  have hb₁ := t₁.toByte.toNat_lt
  have hb₂ := t₂.toByte.toNat_lt
  rcases Nat.lt_trichotomy s₂ s₁ with hs | rfl | hs
  · rw [compare_lt_iff_lt.2 hs, Ordering.lt_then]
    exact compare_lt_iff_lt.2 (by omega)
  · rw [compare_eq_iff_eq.2 rfl, Ordering.eq_then]
    rcases Nat.lt_trichotomy t₁.toByte.toNat t₂.toByte.toNat with ht | ht | ht
    · rw [compare_lt_iff_lt.2 ht]
      exact compare_lt_iff_lt.2 (by omega)
    · rw [ht, compare_eq_iff_eq.2 rfl, compare_eq_iff_eq.2 rfl]
    · rw [compare_gt_iff_gt.2 ht]
      exact compare_gt_iff_gt.2 (by omega)
  · rw [compare_gt_iff_gt.2 hs, Ordering.gt_then]
    exact compare_gt_iff_gt.2 (by omega)

theorem compareKey_new_lt_iff (k₁ k₂ : Bytes) {s₁ s₂ : ℕ} (h₁ : s₁ ≤ maxSequence)
    (h₂ : s₂ ≤ maxSequence) (t₁ t₂ : ValueType) :
    internalKeyComparator.compareKey (InternalKey.new k₁ s₁ t₁).encoded
        (InternalKey.new k₂ s₂ t₂).encoded = .lt ↔
      compare k₁ k₂ = .lt ∨ (k₁ = k₂ ∧ s₂ < s₁) ∨
        (k₁ = k₂ ∧ s₁ = s₂ ∧ t₁ = .delete ∧ t₂ = .value) := by
  have htype : compare t₁.toByte.toNat t₂.toByte.toNat = .lt ↔ t₁ = .delete ∧ t₂ = .value := by
    cases t₁ <;> cases t₂ <;> decide
  rw [compareKey_new k₁ k₂ h₁ h₂, Ordering.then_eq_lt, Ordering.then_eq_lt, htype,
    Std.LawfulEqCmp.compare_eq_iff_eq, compare_lt_iff_lt, compare_eq_iff_eq]
  constructor
  · rintro (hk | ⟨hk, hs | ⟨hs, ht⟩⟩)
    · exact Or.inl hk
    · exact Or.inr (Or.inl ⟨hk, hs⟩)
    · exact Or.inr (Or.inr ⟨hk, hs.symm, ht⟩)
  · rintro (hk | ⟨hk, hs⟩ | ⟨hk, hs, ht⟩)
    · exact Or.inl hk
    · exact Or.inr ⟨hk, Or.inl hs⟩
    · exact Or.inr ⟨hk, Or.inr ⟨hs.symm, ht⟩⟩

/-- Two keys with a key in between that share their user key share it with that key. -/
theorem sameKey_of_between {a b c : Bytes}
    (hab : (internalKeyComparator.compareKey a b).isLE = true)
    (hbc : (internalKeyComparator.compareKey b c).isLE = true)
    (hac : internalKeyComparator.sameKey a c = true) :
    internalKeyComparator.sameKey a b = true := by
  rw [compareKey_eq] at hab hbc
  -- the user keys of `a`, `b` and `c` are in order
  have hab' := Ordering.isLE_left_of_isLE_then hab
  have hbc' := Ordering.isLE_left_of_isLE_then hbc
  have hac' : (splitInternal a).1 = (splitInternal c).1 := by
    simpa [internalKeyComparator] using hac
  rw [← hac'] at hbc'
  have heq : compare (splitInternal a).1 (splitInternal b).1 = .eq :=
    Std.OrientedCmp.isLE_antisymm hab' hbc'
  simpa [internalKeyComparator] using Std.LawfulEqCmp.eq_of_compare heq

/-- **`InternalKeyComparator` is the MVCC order**: a total order on all byte strings in which
encodings are sorted by user key, newest version first, and the versions of one user key are
contiguous. -/
theorem internalKeyComparator_mvcc :
    ((∀ a b, internalKeyComparator.compareKey a b =
          (internalKeyComparator.compareKey b a).swap) ∧
        (∀ a b c, (internalKeyComparator.compareKey a b).isLE = true →
          (internalKeyComparator.compareKey b c).isLE = true →
          (internalKeyComparator.compareKey a c).isLE = true) ∧
        ∀ a b, internalKeyComparator.compareKey a b = .eq ↔ a = b) ∧
      (∀ k₁ k₂ : Bytes, ∀ s₁ s₂ : ℕ, s₁ ≤ maxSequence → s₂ ≤ maxSequence → ∀ t₁ t₂ : ValueType,
        internalKeyComparator.compareKey (InternalKey.new k₁ s₁ t₁).encoded
            (InternalKey.new k₂ s₂ t₂).encoded = .lt ↔
          compare k₁ k₂ = .lt ∨ (k₁ = k₂ ∧ s₂ < s₁) ∨
            (k₁ = k₂ ∧ s₁ = s₂ ∧ t₁ = .delete ∧ t₂ = .value)) ∧
      ∀ a b c, (internalKeyComparator.compareKey a b).isLE = true →
        (internalKeyComparator.compareKey b c).isLE = true →
        internalKeyComparator.sameKey a c = true → internalKeyComparator.sameKey a b = true := by
  refine ⟨⟨fun a b => Std.OrientedCmp.eq_swap, fun a b c => Std.TransCmp.isLE_trans, fun a b =>
    Std.LawfulEqCmp.compare_eq_iff_eq⟩, ?_, fun a b c => sameKey_of_between⟩
  intro k₁ k₂ s₁ s₂ h₁ h₂ t₁ t₂
  exact compareKey_new_lt_iff k₁ k₂ h₁ h₂ t₁ t₂

/-- A user key that is a prefix of another: all its versions come first. -/
theorem internalKeyComparator_mvcc_prefix :
    internalKeyComparator.compareKey (InternalKey.new [1] 5 .value).encoded
      (InternalKey.new [1, 0] maxSequence .delete).encoded = .lt :=
  (internalKeyComparator_mvcc.2.1 [1] [1, 0] 5 maxSequence (by decide) le_rfl .value .delete).2
    (Or.inl (by decide))

end StoneDb
