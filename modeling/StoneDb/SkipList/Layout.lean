import StoneDb.SkipList.Memory
import StoneDb.Lib.Tiling

/-!
# The blocks of an arena

The blocks that the bump allocator has handed out follow one another from offset `8`, and every node
fills the block at its offset (`Arena.Laid`).  So nodes are aligned (`Laid.aligned`), inside the
arena (`Laid.end_le_capacity`), no two of them share a byte (`Laid.disjoint`), and no tower shares
one with the key or the value of a node (`Laid.disjoint_slot`).

The invariant is kept by the stores to a node (`Laid.congr`), the reservation of a block
(`Laid.setPtr`) and its initialisation (`Laid.write`).
-/

namespace StoneDb

namespace Node

/-- The size of the block of a node. -/
def bytes (n : Node) : ℕ := (kvDataOff n.height + n.kv.length + 7) / 8 * 8

/-- The tower is not too high, and the key and the value are bytes of the node. -/
structure Ok (n : Node) : Prop where
  height : n.height < maxHeight
  kv : n.keyLen + n.valueLen ≤ n.kv.length

/-- The bytes of the key and the value of a node at `o`. -/
def kvSpan (n : Node) (o : ℕ) : Set ℕ := span (o + kvDataOff n.height) n.kv.length

/-- What `alloc_node` has written, up to later stores to the back pointer and to the tower. -/
def Written (n : Node) : Prop :=
  ∃ key value height prev tower, height < maxHeight ∧ n = { init key value height with prev, tower }

theorem Written.stores {n : Node} (h : n.Written) (prev : ℕ) (tower : ℕ → ℕ) :
    { n with prev, tower }.Written := by
  obtain ⟨key, value, height, _, _, hh, rfl⟩ := h
  exact ⟨key, value, height, prev, tower, hh, rfl⟩

theorem size_le_bytes (n : Node) : kvDataOff n.height + n.kv.length ≤ n.bytes := by
  simp only [bytes]
  omega

theorem bytes_pos (n : Node) : 0 < n.bytes := by
  simp only [bytes, kvDataOff, towerOff]
  omega

theorem kvSpan_subset (n : Node) (o : ℕ) : n.kvSpan o ⊆ span o n.bytes := by
  have hsize := n.size_le_bytes
  exact span_subset (Nat.le_add_right _ _) (by omega)

variable (key value : Bytes) {height : ℕ}

theorem bytes_init (hh : height < maxHeight) :
    (init key value height).bytes = nodeBytes key value height := by
  rw [bytes, height_init key value hh, nodeBytes, init, List.length_append,
    ← Nat.add_assoc (kvDataOff height)]

theorem ok_init (hh : height < maxHeight) : (init key value height).Ok where
  height := (height_init key value hh).trans_lt hh
  kv := by
    simp only [init, List.length_append]
    exact Nat.add_le_add (Nat.mod_le _ _) (Nat.mod_le _ _)

end Node

/-- The bytes of the slot of level `l` in the tower of a node at `o`. -/
def slotSpan (o l : ℕ) : Set ℕ := span (o + (towerOff + l * slotSize)) slotSize

/-- The slots of a tower end where the key begins. -/
theorem slot_le_kvDataOff {l height : ℕ} (hl : l ≤ height) :
    towerOff + l * slotSize + slotSize ≤ kvDataOff height := by
  have := Nat.mul_le_mul_right slotSize hl
  simp only [kvDataOff, Nat.add_mul] at *
  omega

theorem slotSpan_subset {n : Node} {l : ℕ} (o : ℕ) (hl : l ≤ n.height) :
    slotSpan o l ⊆ span o n.bytes := by
  have hslot := slot_le_kvDataOff hl
  have hsize := n.size_le_bytes
  exact span_subset (Nat.le_add_right _ _) (by omega)

namespace Arena

/-- The blocks `bs` are those that have been handed out, and every node fills its block. -/
structure Laid (a : Arena) (bs : List (ℕ × ℕ)) : Prop where
  tiles : Tiles 8 bs (a.ptr.getD 8)
  dvd : ∀ b ∈ bs, 8 ∣ b.2
  ptr_le : ∀ p, a.ptr = some p → p ≤ a.capacity
  node : ∀ o n, a.node o = some n → (o, n.bytes) ∈ bs ∧ n.Ok

namespace Laid

variable {a a' : Arena} {bs : List (ℕ × ℕ)} {o o' k : ℕ} {n n' : Node}

/-- An arena that nothing has been allocated from. -/
theorem empty (capacity : ℕ) : Laid ⟨none, capacity, fun _ => none⟩ [] :=
  ⟨.nil, by simp, by simp, by simp⟩

section

variable (h : a.Laid bs)

include h

theorem aligned (hn : a.node o = some n) : 8 ∣ o :=
  (h.tiles.dvd (dvd_refl 8) h.dvd).2 _ (h.node o n hn).1

theorem eight_le (hn : a.node o = some n) : 8 ≤ o := h.tiles.le_offset (h.node o n hn).1

theorem end_le (hn : a.node o = some n) : o + n.bytes ≤ a.ptr.getD 8 :=
  h.tiles.end_le (h.node o n hn).1

/-- As long as there is a node, the bump pointer has moved. -/
theorem ptr_le_capacity (ha : a.Alive o) : a.ptr.getD 8 ≤ a.capacity := by
  obtain ⟨n, hn⟩ := ha
  have hend := h.end_le hn
  have hpos := n.bytes_pos
  have h8 := h.eight_le hn
  cases hp : a.ptr with
  | none =>
    rw [hp, Option.getD_none] at hend
    omega
  | some p => exact h.ptr_le p hp

theorem end_le_capacity (hn : a.node o = some n) : o + n.bytes ≤ a.capacity :=
  (h.end_le hn).trans (h.ptr_le_capacity ⟨n, hn⟩)

/-- No byte of a node is one of another block. -/
theorem disjoint_block (hn : a.node o = some n) (hb : (o', k) ∈ bs) (hne : o ≠ o') :
    Disjoint (span o n.bytes) (span o' k) :=
  h.tiles.disjoint_of_ne (h.node o n hn).1 hb fun he => hne (congrArg Prod.fst he)

/-- **No two nodes share a byte.** -/
theorem disjoint (hn : a.node o = some n) (hn' : a.node o' = some n') (hne : o ≠ o') :
    Disjoint (span o n.bytes) (span o' n'.bytes) :=
  h.disjoint_block hn (h.node o' n' hn').1 hne

/-- **No slot of a tower shares a byte with a key or a value**, of its own node or of another. -/
theorem disjoint_slot {l : ℕ} (hn : a.node o = some n) (hl : l ≤ n.height)
    (hn' : a.node o' = some n') : Disjoint (slotSpan o l) (n'.kvSpan o') := by
  by_cases hne : o = o'
  · subst hne
    obtain rfl : n = n' := Option.some.inj (hn.symm.trans hn')
    have hslot := slot_le_kvDataOff hl
    exact disjoint_span (Or.inl (by omega))
  · exact (h.disjoint hn hn' hne).mono (slotSpan_subset o hl) (n'.kvSpan_subset o')

/-- What changes neither the pointer nor the sizes of the nodes keeps the layout. -/
theorem congr (hptr : a'.ptr = a.ptr) (hcap : a'.capacity = a.capacity)
    (hnode : ∀ o n', a'.node o = some n' →
      ∃ n, a.node o = some n ∧ n'.bytes = n.bytes ∧ (n.Ok → n'.Ok)) : a'.Laid bs where
  tiles := hptr ▸ h.tiles
  dvd := h.dvd
  ptr_le p hp := hcap ▸ h.ptr_le p (hptr ▸ hp)
  node o n' hn' := by
    obtain ⟨n, hn, hbytes, hok⟩ := hnode o n' hn'
    rw [hbytes]
    exact (h.node o n hn).imp_right hok

theorem setNext (l x : ℕ) : (a.setNext o l x).Laid bs := by
  refine h.congr (setNext_ptr ..) (setNext_capacity ..) fun o' n' hn' => ?_
  rw [node_setNext, Option.map_eq_some_iff] at hn'
  obtain ⟨n, hn, rfl⟩ := hn'
  refine ⟨n, hn, ?_⟩
  split_ifs
  · exact ⟨rfl, fun hok => ⟨hok.height, hok.kv⟩⟩
  · exact ⟨rfl, id⟩

theorem setPrev (x : ℕ) : (a.setPrev o x).Laid bs := by
  refine h.congr (setPrev_ptr ..) (setPrev_capacity ..) fun o' n' hn' => ?_
  rw [node_setPrev, Option.map_eq_some_iff] at hn'
  obtain ⟨n, hn, rfl⟩ := hn'
  refine ⟨n, hn, ?_⟩
  split_ifs
  · exact ⟨rfl, fun hok => ⟨hok.height, hok.kv⟩⟩
  · exact ⟨rfl, id⟩

/-- A block is reserved at the bump pointer. -/
theorem setPtr (hk : 8 ∣ k) (hle : a.ptr.getD 8 + k ≤ a.capacity) :
    (a.setPtr (a.ptr.getD 8 + k)).Laid (bs ++ [(a.ptr.getD 8, k)]) where
  tiles := h.tiles.concat k
  dvd b hb := by
    rcases List.mem_append.1 hb with hb | hb
    · exact h.dvd b hb
    · rwa [List.mem_singleton.1 hb]
  ptr_le p hp := by
    cases hp
    exact hle
  node o n hn := (h.node o n hn).imp_left (List.mem_append_left _)

/-- A block is initialised. -/
theorem write (hb : (o, n.bytes) ∈ bs) (hok : n.Ok) : (a.write o n).Laid bs where
  tiles := h.tiles
  dvd := h.dvd
  ptr_le := h.ptr_le
  node o' n' hn' := by
    rw [node_write] at hn'
    split_ifs at hn' with ho
    · cases hn'
      exact ho ▸ ⟨hb, hok⟩
    · exact h.node o' n' hn'

end

end Laid

end Arena

end StoneDb
