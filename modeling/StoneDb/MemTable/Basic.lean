import StoneDb.Key.InternalKey

/-!
# The MemTable

`MemTable` over a single-writer skiplist of internal keys.  Writes are programs
`EStateM Fault MemTable`: a panic of the arena leaves the sequence counter advanced.  Reads are
functions into `Except Fault`.

`Write` is a call of `put` or `delete`; `runWrites` is a run that ends at the first panic, and
`runOutcomes` a run whose panics are caught.
-/

namespace StoneDb

/-- `Entry`. -/
structure Entry where
  /-- The key (user key, without sequence/type suffix). -/
  key : Bytes
  /-- The value (empty for deletes). -/
  value : Bytes
  /-- Sequence number (higher = newer). -/
  sequence : ℕ
  /-- Type of entry. -/
  valueType : ValueType
  deriving DecidableEq, Repr

/-- `MemTable`. -/
structure MemTable where
  /-- The underlying skiplist storing internal keys to values. -/
  list : SkipList
  /-- Next sequence number to assign, a `u64`. -/
  nextSequence : ℕ
  /-- Approximate memory usage, a `u64`. -/
  approximateSize : ℕ
  /-- ID for identification. -/
  id : ℕ

namespace MemTable

/-- `MemTable::with_capacity`. -/
def withCapacity (id capacity : ℕ) : Except Fault MemTable := do
  return {
    list := ← SkipList.withCapacity internalKeyComparator capacity false
    nextSequence := 1
    approximateSize := 0
    id }

/-- `len`. -/
def len (mt : MemTable) : Except Fault ℕ := mt.list.len

/-- Programs on a MemTable. -/
abbrev Prog (α : Type) := EStateM Fault MemTable α

/-- `next_sequence.fetch_add(1)`. -/
def fetchAddSequence : Prog ℕ := fun mt =>
  .ok mt.nextSequence { mt with nextSequence := wrappingAdd mt.nextSequence 1 }

/-- `approximate_size.fetch_add(size)`. -/
def fetchAddSize (size : ℕ) : Prog Unit := fun mt =>
  .ok () { mt with approximateSize := wrappingAdd mt.approximateSize size }

/-- Run a program of the list. -/
def onList {α : Type} (f : SkipList.Prog α) : Prog α := fun mt =>
  match f mt.list with
  | .ok a list => .ok a { mt with list }
  | .error e list => .error e { mt with list }

/-- `put`, for the tower height `height`. -/
def put (key value : Bytes) (height : ℕ) : Prog (Except Error ℕ) := do
  let seq ← fetchAddSequence
  if maxSequence < seq then return .error .sequenceOverflow
  else
    let ikey := InternalKey.newPut key seq
    let _ ← onList (SkipList.put ikey.encoded value height)
    let size := wrappingAdd (wrappingAdd key.length value.length) 8
    fetchAddSize size
    return .ok seq

/-- `delete`, for the tower height `height`. -/
def delete (key : Bytes) (height : ℕ) : Prog (Except Error ℕ) := do
  let seq ← fetchAddSequence
  if maxSequence < seq then return .error .sequenceOverflow
  else
    let ikey := InternalKey.newDelete key seq
    let _ ← onList (SkipList.put ikey.encoded [] height)
    let size := wrappingAdd key.length 8
    fetchAddSize size
    return .ok seq

/-- `lookup`. -/
def lookup (mt : MemTable) (key : Bytes) : Except Fault (Option Entry) := do
  let search := InternalKey.newMax key
  let it ← IterRef.seek mt.list search.encoded
  match ← it.key mt.list with
  | none => return none
  | some found =>
    let ikey := InternalKey.fromEncoded found
    if ikey.userKey ≠ key then return none
    else
      let value := (← it.value mt.list).getD []
      return some { key, value, sequence := ← ikey.sequence, valueType := ikey.valueType }

/-- `get`. -/
def get (mt : MemTable) (key : Bytes) : Except Fault (Except Error (Option Bytes)) := do
  match ← mt.lookup key with
  | some entry =>
    if entry.valueType = .value then return .ok (some entry.value) else return .ok none
  | none => return .ok none

/-- `contains`. -/
def contains (mt : MemTable) (key : Bytes) : Except Fault Bool := do
  return (← mt.lookup key).isSome

/-- `get_entry`. -/
def getEntry (mt : MemTable) (key : Bytes) : Except Fault (Except Error (Option Entry)) := do
  return .ok (← mt.lookup key)

end MemTable

/-! ### Runs -/

/-- A call of `put` or `delete`, with the tower height its node draws. -/
inductive Write where
  | put (key value : Bytes) (height : ℕ)
  | delete (key : Bytes) (height : ℕ)
  deriving DecidableEq, Repr

namespace Write

/-- The user key. -/
def key : Write → Bytes
  | put key _ _ => key
  | delete key _ => key

/-- The value stored in the node. -/
def value : Write → Bytes
  | put _ value _ => value
  | delete _ _ => []

/-- The type stored in the internal key. -/
def valueType : Write → ValueType
  | put _ _ _ => .value
  | delete _ _ => .delete

/-- The tower height. -/
def height : Write → ℕ
  | put _ _ height => height
  | delete _ height => height

/-- The internal key of the write, under the sequence number `seq`. -/
def ikey (w : Write) (seq : ℕ) : Bytes := (InternalKey.new w.key seq w.valueType).encoded

/-- The call. -/
def run : Write → MemTable.Prog (Except Error ℕ)
  | put key value height => MemTable.put key value height
  | delete key height => MemTable.delete key height

/-- Key and value, with the trailer, are at most `isize::MAX` bytes, and the height is one that
`random_height` draws. -/
structure Valid (w : Write) : Prop where
  size : w.key.length + w.value.length ≤ isizeMax - 8
  height : w.height < maxHeight

end Write

/-- Writes one after the other, up to the first panic. -/
def runWrites : List Write → MemTable.Prog (List (Except Error ℕ))
  | [] => return []
  | w :: ws => do
    let r ← w.run
    let rs ← runWrites ws
    return r :: rs

/-- How a call ends. -/
inductive Outcome where
  | ok (seq : ℕ)
  | err (e : Error)
  | panic (e : Fault)
  deriving DecidableEq, Repr

/-- One call, a panic caught. -/
def Write.outcome (w : Write) (mt : MemTable) : Outcome × MemTable :=
  match w.run mt with
  | .ok (.ok seq) mt => (.ok seq, mt)
  | .ok (.error e) mt => (.err e, mt)
  | .error e mt => (.panic e, mt)

/-- Writes one after the other, panics caught. -/
def runOutcomes : List Write → MemTable → List Outcome × MemTable
  | [], mt => ([], mt)
  | w :: ws, mt =>
    let (o, mt) := w.outcome mt
    let (os, mt) := runOutcomes ws mt
    (o :: os, mt)

end StoneDb
