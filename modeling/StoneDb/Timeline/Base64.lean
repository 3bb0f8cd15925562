import StoneDb.Lib.Base64
import StoneDb.SkipList.Arena

/-!
# Keys and values as text

`base64_encode` writes a byte string for a timeline line, three bytes at a time.

`base64Encode_eq_ok_iff` : it returns the Base64 form of the byte string, so what it returns is
decoded to the byte string, and no other text is.
-/

namespace StoneDb

/-- `ALPHABET`. -/
def base64Alphabet : List Char :=
  "ABCDEFGHIJKLMNOPQRSTUVWXYZabcdefghijklmnopqrstuvwxyz0123456789+/".toList

/-- `slice[i]`. -/
def sliceAt {α : Type} (slice : List α) (i : ℕ) : Except Fault α :=
  match slice[i]? with
  | some a => .ok a
  | none => .error .indexOutOfBounds

/-- `ALPHABET[i] as char`, pushed onto `result`. -/
def pushSymbol (result : String) (i : ℕ) : Except Fault String := do
  return result.push (← sliceAt base64Alphabet i)

/-- The body of the loop of `base64_encode`. -/
def encodeChunk (result : String) (chunk : Bytes) : Except Fault String := do
  let b0 := (← sliceAt chunk 0).toNat
  let b1 := (chunk[1]?.getD 0).toNat
  let b2 := (chunk[2]?.getD 0).toNat
  let result ← pushSymbol result (b0 >>> 2)
  let result ← pushSymbol result (((b0 &&& 0x03) <<< 4) ||| (b1 >>> 4))
  let result ←
    if chunk.length > 1 then pushSymbol result (((b1 &&& 0x0F) <<< 2) ||| (b2 >>> 6))
    else pure (result.push '=')
  if chunk.length > 2 then pushSymbol result (b2 &&& 0x3F)
  else pure (result.push '=')

/-- `base64_encode`. -/
def base64Encode (data : Bytes) : Except Fault String := (chunks 3 data).foldlM encodeChunk ""

open Base64

variable {result : String} {data : Bytes} {v : ℕ}

/-! ### One chunk -/

theorem base64Alphabet_eq : base64Alphabet = (List.range 64).map symbol := by decide

theorem pushSymbol_eq (hv : v < 64) : pushSymbol result v = .ok (result.push (symbol v)) := by
  have hat : sliceAt base64Alphabet v = .ok (symbol v) := by
    rw [sliceAt, base64Alphabet_eq, List.getElem?_map, List.getElem?_range hv]
    rfl
  rw [pushSymbol, hat]
  rfl

/-- The first symbol of a chunk, and the second with the first bits of the next byte. -/
theorem bits_first (b : ℕ) {y : ℕ} (hy : y < 2 ^ 4) :
    bits 6 (b >>> 2) ++ bits 6 (((b &&& 0x03) <<< 4) ||| y) = bits 8 b ++ bits 4 y :=
  bits_carry 6 2 b hy

theorem bits_second (b : ℕ) {y : ℕ} (hy : y < 2 ^ 2) :
    bits 4 (b >>> 4) ++ bits 6 (((b &&& 0x0F) <<< 2) ||| y) = bits 8 b ++ bits 2 y :=
  bits_carry 4 4 b hy

theorem bits_third (b : ℕ) : bits 2 (b >>> 6) ++ bits 6 (b &&& 0x3F) = bits 8 b := by
  have hmask : bits 6 (b &&& 0x3F) = bits 6 b := bits_and_mask 6 b
  rw [hmask, ← bits_add]

/-- The six-bit groups of three bytes, as `base64_encode` computes them. -/
def sextets (b0 b1 b2 : ℕ) : List ℕ :=
  [b0 >>> 2, ((b0 &&& 0x03) <<< 4) ||| (b1 >>> 4), ((b1 &&& 0x0F) <<< 2) ||| (b2 >>> 6),
    b2 &&& 0x3F]

theorem sextets_lt (b0 b1 b2 : UInt8) : ∀ v ∈ sextets b0.toNat b1.toNat b2.toNat, v < 64 := by
  have hfirst : b0.toNat >>> 2 < 64 := shiftRight_lt (v := 6) (w := 2) b0.toNat_lt
  have hsecond : ((b0.toNat &&& 0x03) <<< 4) ||| (b1.toNat >>> 4) < 64 :=
    join_lt (v := 2) (and_mask_lt b0.toNat 2) (shiftRight_lt (v := 4) (w := 4) b1.toNat_lt)
  have hthird : ((b1.toNat &&& 0x0F) <<< 2) ||| (b2.toNat >>> 6) < 64 :=
    join_lt (v := 4) (and_mask_lt b1.toNat 4) (shiftRight_lt (v := 2) (w := 6) b2.toNat_lt)
  simp only [sextets, List.forall_mem_cons]
  exact ⟨hfirst, hsecond, hthird, and_mask_lt b2.toNat 6, nofun⟩

/-- **The bits of three bytes**, regrouped. -/
theorem bitString_sextets (b0 b1 b2 : UInt8) : bitString 6 (sextets b0.toNat b1.toNat b2.toNat) =
    bitString 8 [b0.toNat, b1.toNat, b2.toNat] := by
  have hfirst := bits_first b0.toNat (shiftRight_lt (v := 4) (w := 4) b1.toNat_lt)
  have hsecond := bits_second b1.toNat (shiftRight_lt (v := 2) (w := 6) b2.toNat_lt)
  have hthird := bits_third b2.toNat
  simp only [sextets, bitString_cons, bitString_nil, List.append_nil]
  rw [← hthird, ← List.append_assoc, hfirst, List.append_assoc, ← List.append_assoc (bits 4 _),
    hsecond, List.append_assoc]

/-- The six-bit groups of a chunk: bytes that are missing count as zero. -/
def chunkSextets (chunk : Bytes) : List ℕ :=
  (sextets (chunk[0]?.getD 0).toNat (chunk[1]?.getD 0).toNat (chunk[2]?.getD 0).toNat).take
    (chunk.length + 1)

/-- The characters of a chunk. -/
def chunkForm (chunk : Bytes) : List Char :=
  (chunkSextets chunk).map symbol ++ List.replicate (3 - chunk.length) '='

/-- **One iteration** pushes the characters of the chunk. -/
theorem encodeChunk_eq {chunk : Bytes} (hne : chunk ≠ []) (hle : chunk.length ≤ 3) :
    encodeChunk result chunk = .ok ((chunkForm chunk).foldl String.push result) := by
  have hlt := sextets_lt (chunk[0]?.getD 0) (chunk[1]?.getD 0) (chunk[2]?.getD 0)
  simp only [sextets, List.forall_mem_cons] at hlt
  obtain ⟨hfirst, hsecond, hthird, hfourth, -⟩ := hlt
  have hat : sliceAt chunk 0 = .ok (chunk[0]?.getD 0) := by
    cases chunk with
    | nil => exact absurd rfl hne
    | cons b chunk => rfl
  simp only [encodeChunk, hat, bind, Except.bind, pushSymbol_eq hfirst, pushSymbol_eq hsecond,
    pushSymbol_eq hthird, pushSymbol_eq hfourth, chunkForm, chunkSextets]
  have hlen : chunk.length = 1 ∨ chunk.length = 2 ∨ chunk.length = 3 := by
    have hpos := List.length_pos_iff.2 hne
    omega
  rcases hlen with hlen | hlen | hlen <;> simp [hlen, sextets, pure, Except.pure]

/-- The bytes of a chunk, and zeros for the missing ones. -/
theorem fill_eq {chunk : Bytes} (hle : chunk.length ≤ 3) :
    [(chunk[0]?.getD 0).toNat, (chunk[1]?.getD 0).toNat, (chunk[2]?.getD 0).toNat] =
      chunk.map UInt8.toNat ++ List.replicate (3 - chunk.length) 0 := by
  match chunk, hle with
  | [], _ | [_], _ | [_, _], _ | [_, _, _], _ => rfl

/-- The characters of a chunk are its Base64 form. -/
theorem form_chunk {chunk : Bytes} (hne : chunk ≠ []) (hle : chunk.length ≤ 3) :
    Form (chunkForm chunk) chunk (chunkSextets chunk) (3 - chunk.length) := by
  have hpos := List.length_pos_iff.2 hne
  have hlen : (chunkSextets chunk).length = chunk.length + 1 := by
    rw [chunkSextets, List.length_take]
    exact min_eq_left (Nat.succ_le_succ hle)
  refine ⟨fun v hv => sextets_lt _ _ _ v (List.mem_of_mem_take hv), by omega, ⟨1, by omega⟩, rfl,
    ?_⟩
  have hsplit : 6 * (chunk.length + 1) =
      (bitString 8 (chunk.map UInt8.toNat)).length + 2 * (3 - chunk.length) := by
    rw [length_bitString, List.length_map]
    omega
  rw [chunkSextets, bitString_take, bitString_sextets, fill_eq hle, bitString_append,
    bitString_zeros, hsplit, List.take_length_add_append, List.take_replicate,
    min_eq_left (Nat.mul_le_mul_right _ (by decide))]

/-! ### All chunks -/

theorem toList_foldl_push (l : List Char) :
    (l.foldl String.push result).toList = result.toList ++ l := by
  induction l generalizing result with
  | nil => rw [List.foldl_nil, List.append_nil]
  | cons c l ih =>
    rw [List.foldl_cons, ih, String.toList_push, List.append_assoc, List.singleton_append]

/-- **The loop** pushes the Base64 form of the bytes that are left. -/
theorem foldlM_encodeChunk (data : Bytes) (result : String) : ∃ text form,
    (chunks 3 data).foldlM encodeChunk result = .ok text ∧ text.toList = result.toList ++ form ∧
      Writes form data := by
  induction data using chunks_induction (show 0 < 3 by decide) generalizing result with
  | hnil => exact ⟨result, [], rfl, (List.append_nil _).symm, writes_nil⟩
  | hlast chunk hne hlt =>
    refine ⟨_, chunkForm chunk, ?_, toList_foldl_push _, _, _, form_chunk hne hlt.le⟩
    rw [chunks_of_le hne hlt.le, List.foldlM_cons, encodeChunk_eq hne hlt.le]
    rfl
  | happend chunk data hlen ih =>
    have hne : chunk ≠ [] := List.ne_nil_of_length_eq_add_one hlen
    have hform := form_chunk hne hlen.le
    rw [hlen] at hform
    obtain ⟨text, form, hrun, htext, hwrites⟩ := ih ((chunkForm chunk).foldl String.push result)
    refine ⟨text, chunkForm chunk ++ form, ?_, ?_, hform.append hwrites⟩
    · rw [chunks_append (by decide) hlen, List.foldlM_cons, encodeChunk_eq hne hlen.le]
      exact hrun
    · rw [htext, toList_foldl_push, List.append_assoc]

/-- `base64_encode` returns the Base64 form. -/
theorem base64Encode_writes (data : Bytes) :
    ∃ text, base64Encode data = .ok text ∧ Writes text.toList data := by
  obtain ⟨text, form, hrun, htext, hwrites⟩ := foldlM_encodeChunk data ""
  rw [String.toList_empty, List.nil_append] at htext
  exact ⟨text, hrun, htext ▸ hwrites⟩

/-- **What `base64_encode` returns is decoded to its argument**, and nothing else is. -/
theorem base64Encode_eq_ok_iff {text : String} :
    base64Encode data = .ok text ↔ decode text = some data := by
  obtain ⟨text', hrun, hwrites⟩ := base64Encode_writes data
  rw [hrun, Except.ok.injEq, decode_eq_some_iff, ← String.toList_inj]
  exact ⟨fun h => h ▸ hwrites, fun h => hwrites.unique h⟩

example : base64Encode [0x6B, 0x65, 0x79, 0x31] = .ok "a2V5MQ==" := by decide

/-- `text` is the standard padded Base64 form of `data`. -/
structure StandardBase64 (data : Bytes) (text : String) : Prop where
  /-- Decoding gives back the bytes. -/
  decoded : decode text = some data
  /-- It is the only form of the bytes. -/
  only : ∀ text', decode text' = some data → text' = text
  /-- Four characters for every group of three bytes that is started. -/
  length : text.length = 4 * ((data.length + 2) / 3)
  /-- The characters are of one byte each. -/
  size : text.utf8ByteSize = text.length

/-- **Keys and values are logged in standard Base64**: `base64_encode` returns the standard form of
every byte string, and different byte strings as different texts. -/
theorem base64_standard :
    (∀ data : Bytes, ∃ text, base64Encode data = .ok text ∧ StandardBase64 data text) ∧
      Function.Injective base64Encode := by
  constructor
  · intro data
    obtain ⟨text, hrun, hwrites⟩ := base64Encode_writes data
    refine ⟨text, hrun, hwrites.decode_eq, fun text' htext' => ?_, ?_, hwrites.utf8ByteSize_eq⟩
    · exact Except.ok.inj ((base64Encode_eq_ok_iff.2 htext').symm.trans hrun)
    · rw [← String.length_toList, hwrites.length_eq]
  · intro data data' h
    obtain ⟨text, hrun, -⟩ := base64Encode_writes data
    have hdecode := base64Encode_eq_ok_iff.1 hrun
    have hdecode' := base64Encode_eq_ok_iff.1 (h.symm.trans hrun)
    exact Option.some.inj (hdecode.symm.trans hdecode')

end StoneDb
