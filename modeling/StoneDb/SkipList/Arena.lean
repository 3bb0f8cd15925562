import StoneDb.Lib.Loop
import Mathlib.Algebra.Group.Nat.Defs
import Mathlib.Logic.Function.Basic

/-!
# The arena and its nodes

The memory of a skiplist: a bump allocator and the nodes that `alloc_node` writes into the blocks it
hands out.  A node is kept as the record of its fields, by the arena offset of its block; offset `0`
is the null offset and never holds a node.

Memory accesses are checked: a read or write of something that is not the field of an initialised
node is the outcome `Fault.wildAccess` (undefined behaviour in the source), an allocation that does
not fit is the panic `Fault.outOfMemory`.  `usize` arithmetic wraps, as in a release build, and the
three lengths of a node are cut to `u32` as they are stored.

## Main definitions

* `Arena`, `Arena.alloc` : the bump allocator, with its compare-exchange loop.
* `Node`, `allocNode` : the layout of a node and its initialisation.
* `nodeNextOffset`, `nodeKey`, `nodeValue`, `nodeSetNext`, … : the accessors, as in the source.
* `Arena.nextAt`, `Arena.keyAt`, … : the same fields as total functions, for specifications.
-/

namespace StoneDb

/-- A byte string (`&[u8]`, `Bytes`). -/
abbrev Bytes := List UInt8

/-- How an operation can fail to return. -/
inductive Fault where
  /-- The arena's layout is refused by `Layout::from_size_align`. -/
  | invalidLayout
  /-- The panic of `Arena::alloc`. -/
  | outOfMemory
  /-- An access outside the fields of an initialised node. -/
  | wildAccess
  /-- An index outside an array (the `prev` and `next` of `put`) or a slice. -/
  | indexOutOfBounds
  /-- The `assert_eq!(i, 0)` of `put` fails. -/
  | assertFailed
  /-- A loop that ran out of fuel. -/
  | diverged
  deriving DecidableEq, Repr

/-! ### Machine integers -/

/-- `isize::MAX`. -/
def isizeMax : ℕ := 2 ^ 63 - 1

/-- Addition of `usize` values, which wraps. -/
def wrappingAdd (a b : ℕ) : ℕ := (a + b) % 2 ^ 64

theorem wrappingAdd_eq {a b : ℕ} (h : a + b < 2 ^ 64) : wrappingAdd a b = a + b :=
  Nat.mod_eq_of_lt h

/-- `x as u32`. -/
def asU32 (x : ℕ) : ℕ := x % 2 ^ 32

theorem asU32_eq {x : ℕ} (h : x < 2 ^ 32) : asU32 x = x := Nat.mod_eq_of_lt h

/-- What is read back of a value whose length is cut to a `u32`. -/
def storedValue (value : Bytes) : Bytes := value.take (asU32 value.length)

theorem storedValue_eq {value : Bytes} (h : value.length < 2 ^ 32) : storedValue value = value := by
  rw [storedValue, asU32_eq h, List.take_length]

/-! ### Node layout -/

/-- Maximum height of a tower, in slots. -/
def maxHeight : ℕ := 20

/-- Offset of the tower in a node. -/
def towerOff : ℕ := 24

/-- Size of an `AtomicUsize`. -/
def slotSize : ℕ := 8

/-- Offset, within a node, of the key bytes. -/
def kvDataOff (height : ℕ) : ℕ := towerOff + (height + 1) * slotSize

/-- A node, as it is stored in its block. -/
structure Node where
  /-- `key_len`, a `u32`. -/
  keyLen : ℕ
  /-- `value_len`, a `u32`. -/
  valueLen : ℕ
  /-- `height`, a `u32`: the top level; the tower has `height + 1` slots. -/
  height : ℕ
  /-- The level-0 back pointer. -/
  prev : ℕ
  /-- The forward offsets, by level. -/
  tower : ℕ → ℕ
  /-- The bytes behind the tower. -/
  kv : Bytes

namespace Node

/-- `node_key`: the first `key_len` bytes behind the tower. -/
def key (n : Node) : Bytes := n.kv.take n.keyLen

/-- `node_value`: the `value_len` bytes behind the key. -/
def value (n : Node) : Bytes := (n.kv.drop n.keyLen).take n.valueLen

/-- What `alloc_node` writes. -/
def init (key value : Bytes) (height : ℕ) : Node where
  keyLen := asU32 key.length
  valueLen := asU32 value.length
  height := asU32 height
  prev := 0
  tower _ := 0
  kv := key ++ value

theorem key_init {key : Bytes} (value : Bytes) (height : ℕ) (h : key.length < 2 ^ 32) :
    (init key value height).key = key := by
  simp [Node.key, init, asU32_eq h]

theorem value_init {key : Bytes} (value : Bytes) (height : ℕ) (hk : key.length < 2 ^ 32) :
    (init key value height).value = storedValue value := by
  simp [Node.value, init, asU32_eq hk, storedValue]

theorem height_init (key value : Bytes) {height : ℕ} (h : height < maxHeight) :
    (init key value height).height = height :=
  asU32_eq (Nat.lt_trans h (show maxHeight < 2 ^ 32 by decide))

end Node

/-! ### The bump allocator -/

/-- The arena: the bump pointer (as an offset from `start`; `none` is the null pointer), the
capacity, and the initialised nodes by offset. -/
structure Arena where
  /-- `ptr`. -/
  ptr : Option ℕ
  /-- `capacity`. -/
  capacity : ℕ
  /-- The nodes. -/
  node : ℕ → Option Node

namespace Arena

/-- Alignment mask for 8-byte alignment. -/
def addrAlignMask : ℕ := 7

/-- `(size + ADDR_ALIGN_MASK) & !ADDR_ALIGN_MASK`. -/
def alignSize (size : ℕ) : ℕ := wrappingAdd size addrAlignMask &&& (2 ^ 64 - 1 - addrAlignMask)

/-- `Arena::with_capacity`: the layout must be at most `isize::MAX` when rounded up to 8.  The panic
`Arena allocation failed`, when the allocator returns null, is not modelled. -/
def withCapacity (capacity : ℕ) : Except Fault Arena :=
  if isizeMax - addrAlignMask < capacity then .error .invalidLayout
  else .ok { ptr := none, capacity, node := fun _ => none }

/-- The offset and the new pointer computed from a load of `ptr`, or the panic. -/
def reserve (a : Arena) (current : Option ℕ) (size : ℕ) : Except Fault (ℕ × ℕ) :=
  -- the first allocation leaves room for the null offset
  let offset := current.getD 8
  if a.capacity < wrappingAdd offset size then .error .outOfMemory
  else .ok (offset, wrappingAdd offset size)

/-- `ptr.compare_exchange(current, new)`. -/
def compareExchangePtr (a : Arena) (current : Option ℕ) (new : ℕ) : Bool × Arena :=
  if a.ptr = current then (true, { a with ptr := some new }) else (false, a)

/-- One iteration of the loop of `Arena::alloc`, on the rounded size. -/
def allocStep (size : ℕ) (_ : Unit) : EStateM Fault Arena (Iter Unit ℕ) := fun a =>
  let current := a.ptr
  match a.reserve current size with
  | .error e => .error e a
  | .ok (offset, new) =>
    match a.compareExchangePtr current new with
    | (true, a) => .ok (.done offset) a
    | (false, a) => .ok (.next ()) a

/-- `Arena::alloc`. -/
def alloc (size : ℕ) : EStateM Fault Arena ℕ := fun a =>
  loop (allocStep (alignSize size)) (throw .diverged) (a.capacity + 1) () a

/-- `Arena::offset` and `Arena::len`. -/
def len (a : Arena) : ℕ := a.ptr.getD 0

end Arena

/-! ### Accessors -/

/-- `node_ptr`: the node at `offset`. -/
def nodePtr (a : Arena) (offset : ℕ) : Except Fault Node :=
  match a.node offset with
  | some n => .ok n
  | none => .error .wildAccess

/-- `node_prev`, loaded. -/
def nodePrev (a : Arena) (offset : ℕ) : Except Fault ℕ := do
  return (← nodePtr a offset).prev

/-- `node_next_offset`: the slot of `level` must be one of the node's own. -/
def nodeNextOffset (a : Arena) (offset level : ℕ) : Except Fault ℕ := do
  let n ← nodePtr a offset
  if level ≤ n.height then return n.tower level else throw .wildAccess

/-- `node_key`. -/
def nodeKey (a : Arena) (offset : ℕ) : Except Fault Bytes := do
  return (← nodePtr a offset).key

/-- `node_value`. -/
def nodeValue (a : Arena) (offset : ℕ) : Except Fault Bytes := do
  return (← nodePtr a offset).value

namespace Arena

/-- Overwrite the node at `offset`. -/
def write (a : Arena) (offset : ℕ) (n : Node) : Arena :=
  { a with node := Function.update a.node offset (some n) }

end Arena

/-- `node_set_next`. -/
def nodeSetNext (a : Arena) (offset level next : ℕ) : Except Fault Arena := do
  let n ← nodePtr a offset
  if level ≤ n.height then
    return a.write offset { n with tower := Function.update n.tower level next }
  else throw .wildAccess

/-- `node_prev(offset).store(prev)`. -/
def nodeSetPrev (a : Arena) (offset prev : ℕ) : Except Fault Arena := do
  let n ← nodePtr a offset
  return a.write offset { n with prev := prev }

/-- `node_tower(offset, level).compare_exchange(current, new).is_ok()`. -/
def nodeCompareExchange (a : Arena) (offset level current new : ℕ) :
    Except Fault (Bool × Arena) := do
  if (← nodeNextOffset a offset level) = current then
    return (true, ← nodeSetNext a offset level new)
  else return (false, a)

/-- The bytes `alloc_node` asks for. -/
def nodeSize (key value : Bytes) (height : ℕ) : ℕ :=
  wrappingAdd (wrappingAdd (kvDataOff height) key.length) value.length

/-- Initialise the block of `size` bytes at `offset`.  The writes must stay inside the block. -/
def initNode (a : Arena) (offset size : ℕ) (key value : Bytes) (height : ℕ) : Except Fault Arena :=
  if kvDataOff height + key.length + value.length ≤ size then
    .ok (a.write offset (Node.init key value height))
  else .error .wildAccess

/-- `alloc_node`. -/
def allocNode (key value : Bytes) (height : ℕ) : EStateM Fault Arena ℕ := do
  let size := nodeSize key value height
  let offset ← Arena.alloc size
  fun a =>
    match initNode a offset (Arena.alignSize size) key value height with
    | .error e => .error e a
    | .ok a => .ok offset a

end StoneDb
