import StoneDb.SkipList.Layout
import StoneDb.Lib.ByteMemory

/-!
# The arena, byte by byte

The memory of a skiplist below the records of `StoneDb.SkipList.Arena`: the bytes from `start` on,
by their offsets, and the accessors as reads and writes of them.  The bytes of a new arena are
arbitrary.  `start` is 8-byte aligned, so an address is aligned exactly when its offset is.

An access outside the arena, at a misaligned address or through the null pointer is
`Fault.wildAccess`.  The records are an abstraction of the bytes: `Encodes` relates the two, and
the operations on bytes are those on records (`Encodes.allocNode`, `Encodes.nodeSetNext`, …).
-/

namespace StoneDb

/-! ### The bytes of a node -/

/-- Offset of `key_len` in a node. -/
def keyLenOff : ℕ := 0

/-- Offset of `value_len` in a node. -/
def valueLenOff : ℕ := 4

/-- Offset of `height` in a node. -/
def heightOff : ℕ := 8

/-- Offset of the back pointer in a node. -/
def prevOff : ℕ := 16

/-- The arena: the bump pointer as in `Arena`, the capacity, and the bytes. -/
structure ByteArena where
  /-- `ptr`. -/
  ptr : Option ℕ
  /-- `capacity`. -/
  capacity : ℕ
  /-- The bytes behind `start`. -/
  mem : ByteMemory

namespace ByteArena

/-- `Arena::with_capacity`, where the allocator does not return null and its memory holds `mem`. -/
def withCapacity (capacity : ℕ) (mem : ByteMemory) : Except Fault ByteArena := do
  let a ← Arena.withCapacity capacity
  return { ptr := a.ptr, capacity := a.capacity, mem }

/-- What `Arena::alloc` looks at. -/
def bump (a : ByteArena) : Arena := { ptr := a.ptr, capacity := a.capacity, node := fun _ => none }

/-- `Arena::alloc`. -/
def alloc (size : ℕ) : EStateM Fault ByteArena ℕ := fun a =>
  match Arena.alloc size a.bump with
  | .ok offset b => .ok offset { a with ptr := b.ptr }
  | .error e b => .error e { a with ptr := b.ptr }

/-- `Arena::get_mut`, where the result is dereferenced: offset `0` is the null pointer. -/
def getMut (offset : ℕ) : Except Fault ℕ :=
  if offset = 0 then .error .wildAccess else .ok offset

/-- Read the integer of `n` bytes at `p`. -/
def read (a : ByteArena) (p n : ℕ) : Except Fault ℕ :=
  if n ∣ p ∧ p + n ≤ a.capacity then .ok (a.mem.loadLe p n) else .error .wildAccess

/-- `slice::from_raw_parts(p, n)`. -/
def slice (a : ByteArena) (p n : ℕ) : Except Fault Bytes :=
  if p + n ≤ a.capacity then .ok (a.mem.load p n) else .error .wildAccess

/-- Write the integer of `n` bytes at `p`. -/
def write (p n x : ℕ) : EStateM Fault ByteArena Unit := fun a =>
  if n ∣ p ∧ p + n ≤ a.capacity then .ok () { a with mem := a.mem.storeLe p n x }
  else .error .wildAccess a

/-- `copy_nonoverlapping(bs.as_ptr(), p, bs.len())`. -/
def copy (p : ℕ) (bs : Bytes) : EStateM Fault ByteArena Unit := fun a =>
  if p + bs.length ≤ a.capacity then .ok () { a with mem := a.mem.store p bs }
  else .error .wildAccess a

/-! ### Accessors -/

/-- `node_ptr`. -/
def nodePtr (offset : ℕ) : Except Fault ℕ := getMut offset

/-- `node_key_len`. -/
def nodeKeyLen (a : ByteArena) (offset : ℕ) : Except Fault ℕ := do
  a.read ((← nodePtr offset) + keyLenOff) 4

/-- `node_value_len`. -/
def nodeValueLen (a : ByteArena) (offset : ℕ) : Except Fault ℕ := do
  a.read ((← nodePtr offset) + valueLenOff) 4

/-- `node_height`. -/
def nodeHeight (a : ByteArena) (offset : ℕ) : Except Fault ℕ := do
  a.read ((← nodePtr offset) + heightOff) 4

/-- `node_prev`, loaded. -/
def nodePrev (a : ByteArena) (offset : ℕ) : Except Fault ℕ := do
  a.read ((← nodePtr offset) + prevOff) slotSize

/-- `node_next_offset`. -/
def nodeNextOffset (a : ByteArena) (offset level : ℕ) : Except Fault ℕ := do
  a.read ((← nodePtr offset) + (towerOff + level * slotSize)) slotSize

/-- `node_key`. -/
def nodeKey (a : ByteArena) (offset : ℕ) : Except Fault Bytes := do
  let height ← a.nodeHeight offset
  let keyLen ← a.nodeKeyLen offset
  a.slice ((← nodePtr offset) + kvDataOff height) keyLen

/-- `node_value`. -/
def nodeValue (a : ByteArena) (offset : ℕ) : Except Fault Bytes := do
  let height ← a.nodeHeight offset
  let keyLen ← a.nodeKeyLen offset
  let valueLen ← a.nodeValueLen offset
  a.slice ((← nodePtr offset) + (kvDataOff height + keyLen)) valueLen

/-- `node_prev(offset).store(prev)`. -/
def nodeSetPrev (offset prev : ℕ) : EStateM Fault ByteArena Unit := do
  write ((← ofExcept (nodePtr offset)) + prevOff) slotSize prev

/-- `node_set_next`. -/
def nodeSetNext (offset level next : ℕ) : EStateM Fault ByteArena Unit := do
  write ((← ofExcept (nodePtr offset)) + (towerOff + level * slotSize)) slotSize next

/-- The writes of `alloc_node` to the fields before the tower. -/
def initHeader (base keyLen valueLen height : ℕ) : EStateM Fault ByteArena Unit := do
  write (base + keyLenOff) 4 (asU32 keyLen)
  write (base + valueLenOff) 4 (asU32 valueLen)
  write (base + heightOff) 4 (asU32 height)
  write (base + prevOff) slotSize 0

/-- The loop of `alloc_node` over the slots of the tower, from `level` on, `todo` of them. -/
def initTower (base : ℕ) : ℕ → ℕ → EStateM Fault ByteArena Unit
  | 0, _ => return
  | todo + 1, level => do
    write (base + (towerOff + level * slotSize)) slotSize 0
    initTower base todo (level + 1)

/-- The writes of `alloc_node` to its block. -/
def initNode (base : ℕ) (key value : Bytes) (height : ℕ) : EStateM Fault ByteArena Unit := do
  initHeader base key.length value.length height
  initTower base (height + 1) 0
  let kv := base + kvDataOff height
  copy kv key
  copy (kv + key.length) value

/-- `alloc_node`. -/
def allocNode (key value : Bytes) (height : ℕ) : EStateM Fault ByteArena ℕ := do
  let size := nodeSize key value height
  let offset ← alloc size
  let base ← ofExcept (nodePtr offset)
  initNode base key value height
  return offset

end ByteArena

/-! ### The bytes of a record -/

/-- The bytes at `o` spell the node `n`. -/
structure Stored (mem : ByteMemory) (o : ℕ) (n : Node) : Prop where
  keyLen : mem.loadLe (o + keyLenOff) 4 = n.keyLen
  valueLen : mem.loadLe (o + valueLenOff) 4 = n.valueLen
  height : mem.loadLe (o + heightOff) 4 = n.height
  prev : mem.loadLe (o + prevOff) slotSize = n.prev
  tower : ∀ l ≤ n.height, mem.loadLe (o + (towerOff + l * slotSize)) slotSize = n.tower l
  kv : mem.load (o + kvDataOff n.height) n.kv.length = n.kv

variable {mem mem' : ByteMemory} {o l x height : ℕ} {n : Node} {key value : Bytes}

namespace Stored

/-- The bytes outside a node do not matter. -/
theorem congr (h : Stored mem o n)
    (heq : ∀ a ∈ span o (kvDataOff n.height + n.kv.length), mem' a = mem a) : Stored mem' o n := by
  have hsub : ∀ {p k}, o ≤ p → p + k ≤ o + (kvDataOff n.height + n.kv.length) →
      ∀ a ∈ span p k, mem' a = mem a := fun ho hk a ha => heq a (span_subset ho hk ha)
  have hoff : towerOff + slotSize ≤ kvDataOff n.height := by
    simp only [kvDataOff, slotSize]
    omega
  refine ⟨?_, ?_, ?_, ?_, fun l hl => ?_, ?_⟩
  · rw [ByteMemory.loadLe_congr (hsub (by omega) (by simp only [keyLenOff, towerOff] at *; omega)),
      h.keyLen]
  · rw [ByteMemory.loadLe_congr
      (hsub (by omega) (by simp only [valueLenOff, towerOff] at *; omega)), h.valueLen]
  · rw [ByteMemory.loadLe_congr (hsub (by omega) (by simp only [heightOff, towerOff] at *; omega)),
      h.height]
  · rw [ByteMemory.loadLe_congr
      (hsub (by omega) (by simp only [prevOff, towerOff, slotSize] at *; omega)), h.prev]
  · rw [ByteMemory.loadLe_congr (hsub (by omega) (by simp only [kvDataOff, slotSize]; omega)),
      h.tower l hl]
  · rw [ByteMemory.load_congr (hsub (by omega) (by omega)), h.kv]

/-- A store to the back pointer. -/
theorem setPrev (h : Stored mem o n) (hx : x < 2 ^ 64) :
    Stored (mem.storeLe (o + prevOff) slotSize x) o { n with prev := x } := by
  have hother : ∀ {p k}, p + k ≤ o + prevOff ∨ o + prevOff + slotSize ≤ p →
      (mem.storeLe (o + prevOff) slotSize x).loadLe p k = mem.loadLe p k := fun hp =>
    ByteMemory.loadLe_storeLe_of_disjoint (disjoint_span hp)
  refine ⟨?_, ?_, ?_, ?_, fun l hl => ?_, ?_⟩
  · rw [hother (by simp only [keyLenOff, prevOff]; omega), h.keyLen]
  · rw [hother (by simp only [valueLenOff, prevOff]; omega), h.valueLen]
  · rw [hother (by simp only [heightOff, prevOff]; omega), h.height]
  · exact ByteMemory.loadLe_storeLe hx
  · rw [hother (by simp only [prevOff, towerOff, slotSize]; omega), h.tower l hl]
  · rw [ByteMemory.load_storeLe_of_disjoint (disjoint_span (by
      simp only [prevOff, kvDataOff, towerOff, slotSize]; omega)), h.kv]

/-- A store to a slot of the tower. -/
theorem setNext (h : Stored mem o n) (hl : l ≤ n.height) (hx : x < 2 ^ 64) :
    Stored (mem.storeLe (o + (towerOff + l * slotSize)) slotSize x) o
      { n with tower := Function.update n.tower l x } := by
  have hother : ∀ {p k}, p + k ≤ o + (towerOff + l * slotSize) ∨
      o + (towerOff + l * slotSize) + slotSize ≤ p →
      (mem.storeLe (o + (towerOff + l * slotSize)) slotSize x).loadLe p k = mem.loadLe p k :=
    fun hp => ByteMemory.loadLe_storeLe_of_disjoint (disjoint_span hp)
  refine ⟨?_, ?_, ?_, ?_, fun l' hl' => ?_, ?_⟩
  · rw [hother (by simp only [keyLenOff, towerOff]; omega), h.keyLen]
  · rw [hother (by simp only [valueLenOff, towerOff]; omega), h.valueLen]
  · rw [hother (by simp only [heightOff, towerOff]; omega), h.height]
  · rw [hother (by simp only [prevOff, towerOff, slotSize]; omega), h.prev]
  · by_cases he : l' = l
    · subst he
      simp only [Function.update_self]
      exact ByteMemory.loadLe_storeLe hx
    · simp only [Function.update_of_ne he]
      rw [hother (by simp only [slotSize]; omega), h.tower l' hl']
  · rw [ByteMemory.load_storeLe_of_disjoint (disjoint_span (by
      simp only [kvDataOff, towerOff, slotSize]; omega)), h.kv]

end Stored

/-! ### Initialisation -/

namespace ByteArena

variable {a a' : ByteArena} {p k base : ℕ}

theorem write_eq (hp : k ∣ p) (hend : p + k ≤ a.capacity) :
    write p k x a = .ok () { a with mem := a.mem.storeLe p k x } := if_pos ⟨hp, hend⟩

theorem write_bind {α : Type} {f : Unit → EStateM Fault ByteArena α} (hp : k ∣ p)
    (hend : p + k ≤ a.capacity) :
    (write p k x >>= f) a = f () { a with mem := a.mem.storeLe p k x } := by
  simp only [bind, EStateM.bind, write_eq hp hend]

theorem copy_eq (bs : Bytes) (hend : p + bs.length ≤ a.capacity) :
    copy p bs a = .ok () { a with mem := a.mem.store p bs } := if_pos hend

/-- The header holds the lengths and the height, and the null back pointer. -/
theorem initHeader_spec (keyLen valueLen height : ℕ) (hbase : 8 ∣ base)
    (hend : base + towerOff ≤ a.capacity) :
    ∃ mem', initHeader base keyLen valueLen height a = .ok () { a with mem := mem' } ∧
      (∀ p ∉ span base towerOff, mem' p = a.mem p) ∧
      mem'.loadLe (base + keyLenOff) 4 = asU32 keyLen ∧
      mem'.loadLe (base + valueLenOff) 4 = asU32 valueLen ∧
      mem'.loadLe (base + heightOff) 4 = asU32 height ∧
      mem'.loadLe (base + prevOff) slotSize = 0 := by
  have hu32 : ∀ x, asU32 x < 256 ^ 4 := fun x => Nat.mod_lt x (by decide)
  simp only [keyLenOff, valueLenOff, heightOff, prevOff, slotSize, towerOff] at *
  refine ⟨(((a.mem.storeLe (base + 0) 4 (asU32 keyLen)).storeLe (base + 4) 4
    (asU32 valueLen)).storeLe (base + 8) 4 (asU32 height)).storeLe (base + 16) 8 0, ?_,
    fun p hp => ?_, ?_, ?_, ?_, ?_⟩
  · rw [initHeader, write_bind, write_bind, write_bind, write_eq] <;>
      simp only [keyLenOff, valueLenOff, heightOff, prevOff, slotSize] <;> omega
  · rw [mem_span] at hp
    rw [ByteMemory.storeLe_of_notMem (by rw [mem_span]; omega),
      ByteMemory.storeLe_of_notMem (by rw [mem_span]; omega),
      ByteMemory.storeLe_of_notMem (by rw [mem_span]; omega),
      ByteMemory.storeLe_of_notMem (by rw [mem_span]; omega)]
  · rw [ByteMemory.loadLe_storeLe_of_disjoint (disjoint_span (by omega)),
      ByteMemory.loadLe_storeLe_of_disjoint (disjoint_span (by omega)),
      ByteMemory.loadLe_storeLe_of_disjoint (disjoint_span (by omega)),
      ByteMemory.loadLe_storeLe (hu32 _)]
  · rw [ByteMemory.loadLe_storeLe_of_disjoint (disjoint_span (by omega)),
      ByteMemory.loadLe_storeLe_of_disjoint (disjoint_span (by omega)),
      ByteMemory.loadLe_storeLe (hu32 _)]
  · rw [ByteMemory.loadLe_storeLe_of_disjoint (disjoint_span (by omega)),
      ByteMemory.loadLe_storeLe (hu32 _)]
  · exact ByteMemory.loadLe_storeLe (by decide)

/-- The loop over the tower clears its slots. -/
theorem initTower_spec (todo level : ℕ) (hbase : 8 ∣ base)
    (hend : base + (towerOff + (level + todo) * slotSize) ≤ a.capacity) :
    ∃ mem', initTower base todo level a = .ok () { a with mem := mem' } ∧
      (∀ p ∉ span (base + (towerOff + level * slotSize)) (todo * slotSize), mem' p = a.mem p) ∧
      ∀ l, level ≤ l → l < level + todo →
        mem'.loadLe (base + (towerOff + l * slotSize)) slotSize = 0 := by
  induction todo generalizing level a with
  | zero => exact ⟨a.mem, rfl, fun _ _ => rfl, fun l hl hl' => by omega⟩
  | succ todo ih =>
    have hdvd : slotSize ∣ base + (towerOff + level * slotSize) := by
      simp only [towerOff, slotSize] at *
      omega
    have hwrite := write_eq (a := a) (x := 0) hdvd (by simp only [slotSize] at *; omega)
    obtain ⟨mem', hrun, hframe, hzero⟩ :=
      ih (a := { a with mem := a.mem.storeLe (base + (towerOff + level * slotSize)) slotSize 0 })
        (level + 1) (show _ ≤ a.capacity by simp only [slotSize] at *; omega)
    refine ⟨mem', ?_, fun p hp => ?_, fun l hl hl' => ?_⟩
    · simp only [initTower, bind, EStateM.bind, hwrite, hrun]
    · rw [mem_span] at hp
      rw [hframe p (by rw [mem_span]; simp only [slotSize] at *; omega)]
      exact ByteMemory.storeLe_of_notMem (by rw [mem_span]; simp only [slotSize] at *; omega)
    · by_cases he : l = level
      · -- the slots above do not overlap this one
        subst he
        rw [ByteMemory.loadLe_congr fun p hp => hframe p (by
          rw [mem_span] at *; simp only [slotSize] at *; omega)]
        exact ByteMemory.loadLe_storeLe (by simp)
      · exact hzero l (by omega) (by omega)

/-- The writes of `alloc_node` stay inside the block, and leave the bytes of the node there. -/
theorem initNode_spec (key value : Bytes) (hh : height < maxHeight) (hbase : 8 ∣ base)
    (hend : base + (kvDataOff height + (key ++ value).length) ≤ a.capacity) :
    ∃ mem', initNode base key value height a = .ok () { a with mem := mem' } ∧
      (∀ p ∉ span base (kvDataOff height + (key ++ value).length), mem' p = a.mem p) ∧
      Stored mem' base (Node.init key value height) := by
  rw [List.length_append] at hend
  have hoff : kvDataOff height = towerOff + (height + 1) * slotSize := rfl
  obtain ⟨m₁, hrun₁, hframe₁, hkeyLen, hvalueLen, hheight, hprev⟩ :=
    initHeader_spec (a := a) key.length value.length height hbase (by omega)
  obtain ⟨m₂, hrun₂, hframe₂, htower⟩ := initTower_spec (a := { a with mem := m₁ })
    (height + 1) 0 hbase (show _ ≤ a.capacity by rw [Nat.zero_add]; omega)
  have hrun₃ := copy_eq (a := { a with mem := m₂ }) (p := base + kvDataOff height) key
    (show _ ≤ a.capacity by omega)
  have hrun₄ := copy_eq (a := { a with mem := m₂.store (base + kvDataOff height) key })
    (p := base + kvDataOff height + key.length) value (show _ ≤ a.capacity by omega)
  set mem' := m₂.store (base + kvDataOff height) (key ++ value) with hmem'
  refine ⟨mem', ?_, fun p hp => ?_, ?_⟩
  · simp only [initNode, bind, EStateM.bind, hrun₁, hrun₂, hrun₃, hrun₄, ByteMemory.store_append,
      hmem']
  · rw [mem_span, List.length_append] at hp
    rw [hmem', ByteMemory.store_of_notMem (by rw [mem_span, List.length_append]; omega),
      hframe₂ p (by rw [mem_span]; omega)]
    exact hframe₁ p (by rw [mem_span]; omega)
  · -- the later writes are behind the earlier ones
    have hlow : ∀ {p k}, p + k ≤ base + kvDataOff height → mem'.loadLe p k = m₂.loadLe p k :=
      fun hp => ByteMemory.loadLe_store_of_disjoint (disjoint_span (Or.inl hp))
    have hheader : ∀ {p k}, p + k ≤ base + towerOff → mem'.loadLe p k = m₁.loadLe p k := by
      intro p k hp
      rw [hlow (by omega)]
      exact ByteMemory.loadLe_congr fun q hq => hframe₂ q (by rw [mem_span] at *; omega)
    have hinit := Node.height_init key value hh
    refine ⟨?_, ?_, ?_, ?_, fun l hl => ?_, ?_⟩
    · rw [hheader (by simp only [keyLenOff, towerOff]; omega), hkeyLen, Node.init]
    · rw [hheader (by simp only [valueLenOff, towerOff]; omega), hvalueLen, Node.init]
    · rw [hheader (by simp only [heightOff, towerOff]; omega), hheight, Node.init]
    · rw [hheader (by simp only [prevOff, towerOff, slotSize]; omega), hprev, Node.init]
    · rw [hinit] at hl
      rw [hlow (by simp only [slotSize] at *; omega), htower l (Nat.zero_le l) (by omega),
        Node.init]
    · rw [hinit]
      exact ByteMemory.load_store

end ByteArena

end StoneDb
