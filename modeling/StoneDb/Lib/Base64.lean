import StoneDb.Lib.Regroup
import Mathlib.Data.Option.Basic

/-!
# Base64

The standard Base64 form of a byte string: its bits in groups of six, each written as a character of
the alphabet, in groups of four characters.  Where the bits run out, zeros complete the last six and
padding completes the last four characters.

`Writes` says what a form is, and `decode` reads it, refusing everything else
(`decode_eq_some_iff`).  A byte string has no two forms (`Writes.unique`), and the length of its
form is that of its groups of three bytes (`Writes.length_eq`).
-/

namespace StoneDb

namespace Base64

/-! ### The alphabet -/

/-- The characters of the alphabet: `A` to `Z`, `a` to `z`, `0` to `9`, `+` and `/`. -/
def symbol (v : ℕ) : Char :=
  if v < 26 then Char.ofNat ('A'.toNat + v)
  else if v < 52 then Char.ofNat ('a'.toNat + (v - 26))
  else if v < 62 then Char.ofNat ('0'.toNat + (v - 52))
  else if v = 62 then '+' else '/'

/-- The place of a character in the alphabet. -/
def value (c : Char) : Option ℕ := (List.range 64).find? fun v => symbol v == c

theorem value_symbol : ∀ v < 64, value (symbol v) = some v := by decide

theorem symbol_utf8Size : ∀ v < 64, (symbol v).utf8Size = 1 := by decide

theorem symbol_ne_pad : ∀ v < 64, symbol v ≠ '=' := by decide

theorem value_eq_some {c : Char} {v : ℕ} (h : value c = some v) : v < 64 ∧ symbol v = c := by
  have hfound : (symbol v == c) = true := List.find?_some (p := fun v => symbol v == c) h
  exact ⟨List.mem_range.1 (List.mem_of_find?_eq_some h), beq_iff_eq.1 hfound⟩

theorem mapM_value_eq_some {cs : List Char} {values : List ℕ} :
    cs.mapM value = some values ↔ cs = values.map symbol ∧ ∀ v ∈ values, v < 64 := by
  induction cs generalizing values with
  | nil =>
    rw [List.mapM_nil]
    cases values with
    | nil => simp
    | cons v values => simp
  | cons c cs ih =>
    rw [List.mapM_cons]
    constructor
    · intro h
      obtain ⟨v, hv, h⟩ := Option.bind_eq_some_iff.1 h
      obtain ⟨vs, hvs, h⟩ := Option.bind_eq_some_iff.1 h
      cases h
      obtain ⟨hlt, rfl⟩ := value_eq_some hv
      obtain ⟨rfl, hall⟩ := ih.1 hvs
      exact ⟨rfl, List.forall_mem_cons.2 ⟨hlt, hall⟩⟩
    · rintro ⟨hcs, hall⟩
      cases values with
      | nil => cases hcs
      | cons v values =>
        obtain ⟨rfl, rfl⟩ := List.cons.inj hcs
        obtain ⟨hlt, hall⟩ := List.forall_mem_cons.1 hall
        rw [value_symbol v hlt, ih.2 ⟨rfl, hall⟩]
        rfl

/-! ### Forms -/

/-- `text` writes the values, with `pad` characters of padding, and they have the bits of `data`,
completed by zeros. -/
structure Form (text : List Char) (data : List UInt8) (values : List ℕ) (pad : ℕ) : Prop where
  lt : ∀ v ∈ values, v < 64
  pad_le : pad ≤ 2
  whole : 4 ∣ values.length + pad
  text_eq : text = values.map symbol ++ List.replicate pad '='
  bits_eq : bitString 6 values =
    bitString 8 (data.map UInt8.toNat) ++ List.replicate (2 * pad) false

/-- `text` is the Base64 form of `data`. -/
def Writes (text : List Char) (data : List UInt8) : Prop := ∃ values pad, Form text data values pad

variable {text text' : List Char} {data data' : List UInt8} {values values' : List ℕ} {pad pad' : ℕ}

theorem Form.length_bits_eq (h : Form text data values pad) :
    6 * values.length = 8 * data.length + 2 * pad := by
  simpa using congrArg List.length h.bits_eq

/-- **Four characters for every three bytes that are started.** -/
theorem Writes.length_eq (h : Writes text data) : text.length = 4 * ((data.length + 2) / 3) := by
  obtain ⟨values, pad, h⟩ := h
  obtain ⟨q, hq⟩ := h.whole
  have hbits := h.length_bits_eq
  have hpad := h.pad_le
  rw [h.text_eq, List.length_append, List.length_map, List.length_replicate]
  omega

/-- The characters are of one byte each. -/
theorem Writes.utf8Size_eq (h : Writes text data) : ∀ c ∈ text, c.utf8Size = 1 := by
  obtain ⟨values, pad, h⟩ := h
  intro c hc
  rw [h.text_eq] at hc
  rcases List.mem_append.1 hc with hc | hc
  · obtain ⟨v, hv, rfl⟩ := List.mem_map.1 hc
    exact symbol_utf8Size v (h.lt v hv)
  · rw [List.eq_of_mem_replicate hc]
    decide

theorem Writes.utf8ByteSize_eq {text : String} (h : Writes text.toList data) :
    text.utf8ByteSize = text.length := by
  have hone := h.utf8Size_eq
  clear h
  induction text using String.push_induction with
  | empty => rfl
  | push text c ih =>
    rw [String.toList_push, List.forall_mem_append, List.forall_mem_singleton] at hone
    rw [String.utf8ByteSize_push, String.length_push, ih hone.1, hone.2]

/-- **A byte string has one form.** -/
theorem Writes.unique (h : Writes text data) (h' : Writes text' data) : text = text' := by
  obtain ⟨values, pad, h⟩ := h
  obtain ⟨values', pad', h'⟩ := h'
  have hpad : pad = pad' := by
    obtain ⟨q, hq⟩ := h.whole
    obtain ⟨q', hq'⟩ := h'.whole
    have hbits := h.length_bits_eq
    have hbits' := h'.length_bits_eq
    have hle := h.pad_le
    have hle' := h'.pad_le
    omega
  subst hpad
  have hvalues : values = values' :=
    bitString_inj (by decide) h.lt h'.lt (h.bits_eq.trans h'.bits_eq.symm)
  rw [h.text_eq, h'.text_eq, hvalues]

/-- Whole groups before a form. -/
theorem Form.append (h : Form text data values 0) (h' : Writes text' data') :
    Writes (text ++ text') (data ++ data') := by
  obtain ⟨values', pad', h'⟩ := h'
  refine ⟨values ++ values', pad', fun v hv => ?_, h'.pad_le, ?_, ?_, ?_⟩
  · exact (List.mem_append.1 hv).elim (h.lt v) (h'.lt v)
  · rw [List.length_append, Nat.add_assoc]
    exact Nat.dvd_add h.whole h'.whole
  · rw [h.text_eq, h'.text_eq]
    simp
  · rw [bitString_append, h.bits_eq, h'.bits_eq]
    simp

theorem writes_nil : Writes [] [] := ⟨[], 0, by simp, by decide, by decide, rfl, rfl⟩

/-! ### Decoding -/

/-- The byte string that a text is the form of. -/
def decode (text : String) : Option (List UInt8) := do
  let symbols := text.toList.takeWhile (· ≠ '=')
  let pad := text.length - symbols.length
  guard (text.toList = symbols ++ List.replicate pad '=' ∧ pad ≤ 2 ∧ 4 ∣ text.length)
  let values ← symbols.mapM value
  let written := bitString 6 values
  let data := written.take (written.length - 2 * pad)
  guard (written = data ++ List.replicate (2 * pad) false)
  return (ungroup 8 data).map UInt8.ofNat

/-- Whole bytes are written back. -/
theorem bitString_bytes {l : List Bool} (h : 8 ∣ l.length) :
    bitString 8 (((ungroup 8 l).map UInt8.ofNat).map UInt8.toNat) = l := by
  have hbyte : UInt8.toNat ∘ UInt8.ofNat = fun x => x % 2 ^ 8 := by
    funext x
    exact UInt8.toNat_ofNat'
  rw [List.map_map, hbyte, bitString_mod, bitString_ungroup (by decide) h]

/-- Bytes are read back. -/
theorem bytes_bitString (data : List UInt8) :
    (ungroup 8 (bitString 8 (data.map UInt8.toNat))).map UInt8.ofNat = data := by
  have hlt : ∀ x ∈ data.map UInt8.toNat, x < 2 ^ 8 := by
    intro x hx
    obtain ⟨b, -, rfl⟩ := List.mem_map.1 hx
    exact b.toNat_lt
  have hbyte : UInt8.ofNat ∘ UInt8.toNat = id := by
    funext b
    exact UInt8.ofNat_toNat
  rw [ungroup_bitString (by decide) hlt, List.map_map, hbyte, List.map_id]

/-- The symbols are what stands before the padding. -/
theorem Form.takeWhile_eq (h : Form text data values pad) :
    text.takeWhile (· ≠ '=') = values.map symbol := by
  have hall : ∀ c ∈ values.map symbol, decide (c ≠ '=') = true := by
    intro c hc
    obtain ⟨v, hv, rfl⟩ := List.mem_map.1 hc
    exact decide_eq_true (symbol_ne_pad v (h.lt v hv))
  rw [h.text_eq, List.takeWhile_append_of_pos hall]
  cases pad <;> simp [List.replicate_succ]

theorem decode_eq_some {text : String} (h : decode text = some data) : Writes text.toList data := by
  simp only [decode, bind, Option.bind_eq_some_iff, Option.guard_eq_some', pure,
    Option.some.injEq] at h
  obtain ⟨-, ⟨htext, hpad, hwhole⟩, values, hvalues, -, hzeros, rfl⟩ := h
  obtain ⟨hsymbols, hlt⟩ := mapM_value_eq_some.1 hvalues
  rw [hsymbols, List.length_map] at htext hpad hzeros ⊢
  have hlen := congrArg List.length htext
  rw [String.length_toList, List.length_append, List.length_map, List.length_replicate] at hlen
  generalize text.length - values.length = pad at htext hpad hzeros hlen ⊢
  generalize (bitString 6 values).take _ = written at hzeros ⊢
  have hbits := congrArg List.length hzeros
  rw [List.length_append, List.length_replicate, length_bitString] at hbits
  have hbytes : 8 ∣ written.length := by
    obtain ⟨q, hq⟩ := hwhole
    exact ⟨3 * q - pad, by omega⟩
  refine ⟨values, pad, hlt, hpad, hlen ▸ hwhole, htext, ?_⟩
  rw [bitString_bytes hbytes]
  exact hzeros

theorem Writes.decode_eq {text : String} (h : Writes text.toList data) :
    decode text = some data := by
  obtain ⟨values, pad, h⟩ := h
  have hlen := congrArg List.length h.text_eq
  rw [String.length_toList, List.length_append, List.length_map, List.length_replicate] at hlen
  have hpad : text.length - (values.map symbol).length = pad := by
    rw [List.length_map]
    omega
  have htake : (bitString 6 values).take ((bitString 6 values).length - 2 * pad) =
      bitString 8 (data.map UInt8.toNat) := by
    rw [h.bits_eq, List.length_append, List.length_replicate, Nat.add_sub_cancel, List.take_left]
  simp only [decode, bind, Option.bind_eq_some_iff, Option.guard_eq_some', pure,
    Option.some.injEq, h.takeWhile_eq, hpad, mapM_value_eq_some]
  exact ⟨(), ⟨h.text_eq, h.pad_le, hlen ▸ h.whole⟩, values, ⟨rfl, h.lt⟩, (),
    by rw [htake, h.bits_eq], by rw [htake, bytes_bitString]⟩

/-- **Decoding accepts the forms of byte strings**, and nothing else. -/
theorem decode_eq_some_iff {text : String} : decode text = some data ↔ Writes text.toList data :=
  ⟨decode_eq_some, Writes.decode_eq⟩

example : decode "Zm9vYg==" = some [0x66, 0x6F, 0x6F, 0x62] := by decide

end Base64

end StoneDb
