import StoneDb.Concurrent.Machine
import StoneDb.SkipList.ByteNodes

/-!
# Interleaved executions, on bytes

The machine of `StoneDb.Concurrent.Machine` once more, with the memory of `ByteArena` below it: the
threads read the fields of a node from its bytes, and store to them.  And where that machine
initialises a block in one step, here every write of `alloc_node` is a step of its own, so that the
other threads run while a node is half written.

Each machine is translated from the source on its own, so the definitions here are the same bodies
over the accessors on bytes.  What reads no memory is shared (`ByteList.list`).
-/

namespace StoneDb

/-! ### The writes of `alloc_node` -/

/-- A write to a block that is being initialised. -/
inductive InitWrite where
  /-- The integer `x` of `n` bytes, at `p`. -/
  | field (p n x : ℕ)
  /-- `copy_nonoverlapping` to `p`. -/
  | copy (p : ℕ) (bs : Bytes)

/-- Make the write. -/
def InitWrite.run : InitWrite → EStateM Fault ByteArena Unit
  | field p n x => ByteArena.write p n x
  | copy p bs => ByteArena.copy p bs

/-- The writes of `alloc_node` to the block at `base`, in program order. -/
def initWrites (base : ℕ) (key value : Bytes) (height : ℕ) : List InitWrite :=
  [.field (base + keyLenOff) 4 (asU32 key.length),
    .field (base + valueLenOff) 4 (asU32 value.length),
    .field (base + heightOff) 4 (asU32 height),
    .field (base + prevOff) slotSize 0] ++
  (List.range (height + 1)).map (fun level =>
    .field (base + (towerOff + level * slotSize)) slotSize 0) ++
  [.copy (base + kvDataOff height) key,
    .copy (base + kvDataOff height + key.length) value]

namespace ByteArena

/-- What a program leaves behind. -/
def after (b : ByteArena) (x : EStateM Fault ByteArena Unit) : Except Fault ByteArena :=
  match x b with
  | .ok _ b => .ok b
  | .error e _ => .error e

/-- `ptr.compare_exchange(current, new)`. -/
def compareExchangePtr (b : ByteArena) (current : Option ℕ) (new : ℕ) : Bool × ByteArena :=
  if b.ptr = current then (true, { b with ptr := some new }) else (false, b)

/-- `node_tower(offset, level).compare_exchange(current, new).is_ok()`. -/
def nodeCompareExchange (b : ByteArena) (offset level current new : ℕ) :
    Except Fault (Bool × ByteArena) := do
  if (← b.nodeNextOffset offset level) = current then
    return (true, ← b.after (nodeSetNext offset level new))
  else return (false, b)

end ByteArena

/-! ### The list -/

/-- A skiplist, with the bytes of its arena. -/
structure ByteList where
  /-- Current max height. -/
  height : ℕ
  /-- Offset of the head node. -/
  head : ℕ
  /-- The arena backing all nodes. -/
  arena : ByteArena
  /-- `cmp`. -/
  cmp : KeyComparator
  /-- `allow_concurrent_write`. -/
  allowConcurrentWrite : Bool

namespace ByteList

open Concurrent SkipList

/-- `SkipList::with_capacity`, where the allocator returns memory that holds `mem`. -/
def withCapacity (cmp : KeyComparator) (capacity : ℕ) (allowConcurrentWrite : Bool)
    (mem : ByteMemory) : Except Fault ByteList := do
  let arena ← ByteArena.withCapacity capacity mem
  match ByteArena.allocNode [] [] (maxHeight - 1) arena with
  | .error e _ => throw e
  | .ok head arena => return { height := 0, head, arena, cmp, allowConcurrentWrite }

/-- The list without its nodes: what a step knows that reads no memory. -/
def list (sl : ByteList) : SkipList where
  height := sl.height
  head := sl.head
  arena := sl.arena.bump
  cmp := sl.cmp
  allowConcurrentWrite := sl.allowConcurrentWrite

/-! ### Reading -/

/-- The body of the loop of `find_splice_for_level`. -/
def spliceStep (sl : ByteList) (key : Bytes) (level before : ℕ) :
    Except Fault (Iter ℕ (ℕ × ℕ)) := do
  let before := if before = 0 then sl.head else before
  let nextOffset ← sl.arena.nodeNextOffset before level
  if nextOffset = 0 then return .done (before, 0)
  else
    match sl.cmp.compareKey (← sl.arena.nodeKey nextOffset) key with
    | .lt => return .next nextOffset
    | .gt => return .done (before, nextOffset)
    | .eq => return .done (nextOffset, nextOffset)

/-- The key and value of a node, copied out. -/
def nodePair (sl : ByteList) (offset : ℕ) : Except Fault (Bytes × Bytes) := do
  return (← sl.arena.nodeKey offset, ← sl.arena.nodeValue offset)

/-- The body of the loop of `lower_bound`, on `(current, level)`. -/
def lowerBoundStep (sl : ByteList) (key : Bytes) :
    ℕ × ℕ → Except Fault (Iter (ℕ × ℕ) (Option (Bytes × Bytes)))
  | (current, level) => do
    let nextOffset ← sl.arena.nodeNextOffset current level
    if nextOffset = 0 then
      if 0 < level then return .next (current, level - 1) else return .done none
    else
      match sl.cmp.compareKey (← sl.arena.nodeKey nextOffset) key with
      | .lt => return .next (nextOffset, level)
      | .gt =>
        if 0 < level then return .next (current, level - 1)
        else return .done (some (← sl.nodePair nextOffset))
      | .eq => return .done (some (← sl.nodePair nextOffset))

/-- The body of the loop of `find_near`, on `(cursor, level)`. -/
def findNearStep (sl : ByteList) (key : Bytes) (less allowEqual : Bool) :
    ℕ × ℕ → Except Fault (Iter (ℕ × ℕ) ℕ)
  | (cursor, level) => do
    let nextOffset ← sl.arena.nodeNextOffset cursor level
    if nextOffset = 0 then
      if 0 < level then return .next (cursor, level - 1)
      else if !less then return .done 0
      else return .done (sl.list.orNone cursor)
    else
      match sl.cmp.compareKey (← sl.arena.nodeKey nextOffset) key with
      | .lt => return .next (nextOffset, level)
      | .eq =>
        if allowEqual then return .done nextOffset
        else if !less then
          -- need to go to the node after the equal one
          return .done (← sl.arena.nodeNextOffset nextOffset 0)
        else if 0 < level then return .next (cursor, level - 1)
        else return .done (sl.list.orNone cursor)
      | .gt =>
        if 0 < level then return .next (cursor, level - 1)
        else if !less then return .done nextOffset
        else return .done (sl.list.orNone cursor)

/-- The body of the loop of `find_last`, on `(cursor, level)`. -/
def findLastStep (sl : ByteList) : ℕ × ℕ → Except Fault (Iter (ℕ × ℕ) ℕ)
  | (cursor, level) => do
    let nextOffset ← sl.arena.nodeNextOffset cursor level
    if nextOffset ≠ 0 then return .next (nextOffset, level)
    else if level = 0 then return .done (sl.list.orNone cursor)
    else return .next (cursor, level - 1)

/-- The body of the loop of `len`, on `(current, count)`. -/
def lenStep (sl : ByteList) : ℕ × ℕ → Except Fault (Iter (ℕ × ℕ) ℕ)
  | (current, count) => do
    let next ← sl.arena.nodeNextOffset current 0
    if next = 0 then return .done count else return .next (next, count + 1)

/-- `IterRef::key`. -/
def key (sl : ByteList) (it : IterRef) : Except Fault (Option Bytes) :=
  if it.valid then return some (← sl.arena.nodeKey it.cursor) else return none

/-- `IterRef::value`. -/
def value (sl : ByteList) (it : IterRef) : Except Fault (Option Bytes) :=
  if it.valid then return some (← sl.arena.nodeValue it.cursor) else return none

/-- `IterRef::next`. -/
def next (sl : ByteList) (it : IterRef) : Except Fault IterRef :=
  if it.valid then return ⟨← sl.arena.nodeNextOffset it.cursor 0⟩ else return it

/-- `IterRef::prev`, in single-writer mode. -/
def prev (sl : ByteList) (it : IterRef) : Except Fault IterRef :=
  if it.valid then do
    let cursor ← sl.arena.nodePrev it.cursor
    return ⟨sl.list.orNone cursor⟩
  else return it

/-- `IterRef::seek_to_first`. -/
def seekToFirst (sl : ByteList) : Except Fault IterRef := do
  return ⟨← sl.arena.nodeNextOffset sl.head 0⟩

/-- What a cursor shows. -/
def entry (sl : ByteList) (it : IterRef) : Except Fault (Option (Bytes × Bytes)) := do
  match ← sl.key it, ← sl.value it with
  | some k, some v => return some (k, v)
  | _, _ => return none

/-- A cursor operation ends at `cursor`. -/
def moveTo (sl : ByteList) (cursor : ℕ) : Except Fault (IterRef × Ret) := do
  return (⟨cursor⟩, .pair (← sl.entry ⟨cursor⟩))

/-- One load of a read: go on in the loop, or end with the new cursor and the answer. -/
def readStep (sl : ByteList) (it : IterRef) (q : ReadCall) (p : ℕ × ℕ) :
    Except Fault (Iter (ℕ × ℕ) (IterRef × Ret)) :=
  match q with
  | .get key => finish (fun r => answer it (.value ((exactMatch key r).map Prod.snd)))
      (sl.lowerBoundStep key p)
  | .getWithKey key => finish (fun r => answer it (.pair (exactMatch key r)))
      (sl.lowerBoundStep key p)
  | .contains key => finish (fun r => answer it (.flag ((exactMatch key r).map Prod.snd).isSome))
      (sl.lowerBoundStep key p)
  | .lowerBound key => finish (fun r => answer it (.pair r)) (sl.lowerBoundStep key p)
  | .len => finish (fun n => answer it (.count n)) (sl.lenStep p)
  | .isEmpty => finish (fun n => answer it (.flag (n = 0))) (sl.lenStep p)
  | .seek target => finish sl.moveTo (sl.findNearStep target false true p)
  | .seekForPrev target => finish sl.moveTo (sl.findNearStep target true true p)
  | .seekToFirst => do return .done (← sl.moveTo (← sl.seekToFirst).cursor)
  | .seekToLast => finish sl.moveTo (sl.findLastStep p)
  | .next => do return .done (← sl.moveTo (← sl.next it).cursor)
  | .prev => do
    if sl.allowConcurrentWrite then
      match ← sl.key it with
      -- concurrent mode: `find_near`, from the key of the cursor
      | some k => finish sl.moveTo (sl.findNearStep k true false p)
      | none => return .done (← sl.moveTo it.cursor)
    else return .done (← sl.moveTo (← sl.prev it).cursor)

/-! ### Inserting -/

/-- The answer of `put` when the key is present at `p`. -/
def conflict (sl : ByteList) (p : ℕ) (key value : Bytes) :
    Except Fault (Option (Bytes × Bytes)) := do
  return if (← sl.arena.nodeValue p) ≠ value then some (key, value) else none

/-- One step of `put`.  `weak` makes `compare_exchange_weak` fail spuriously.  At `init`, the writes
of `alloc_node` have been made. -/
def putStep (sl : ByteList) (c : PutCall) (weak : Bool) :
    PutPc → Except Fault (ByteList × Iter PutPc (Option (Bytes × Bytes)))
  | .search h i s before => do
    match ← sl.spliceStep c.key i before with
    | .next before => return (sl, .next (.search h i s before))
    | .done (p, n) =>
      let s ← s.store i p n
      -- an equal key: nothing is inserted
      if p = n ∧ p ≠ 0 then return (sl, .done (← sl.conflict p c.key c.value))
      else
        match i with
        | 0 => return (sl, .next (.alloc h s))
        | i + 1 => return (sl, .next (.search h i s (← index s.prev (i + 1))))
  | .alloc h s => do
    let current := sl.arena.ptr
    let (offset, new) ← sl.list.arena.reserve current
      (Arena.alignSize (nodeSize c.key c.value c.height))
    return (sl, .next (.allocCas h s current offset new))
  | .allocCas h s current offset new =>
    match sl.arena.compareExchangePtr current new with
    | (true, arena) => do
      let _base ← ByteArena.nodePtr offset
      return ({ sl with arena }, .next (.init h s offset))
    | (false, _) => return (sl, .next (.alloc h s))
  | .init h s node => do
    if h < c.height then return (sl, .next (.raise s node h))
    else return (sl, ← linkLevel sl.list c s node 0)
  -- another thread may have raised the height: compare again with what it is now
  | .raise s node current => do
    if sl.allowConcurrentWrite then
      if !weak && sl.height == current then
        return ({ sl with height := c.height }, ← linkLevel sl.list c s node 0)
      else if sl.height < c.height then return (sl, .next (.raise s node sl.height))
      else return (sl, ← linkLevel sl.list c s node 0)
    else return ({ sl with height := c.height }, ← linkLevel sl.list c s node 0)
  | .splice s node i before => do
    match ← sl.spliceStep c.key i before with
    | .next before => return (sl, .next (.splice s node i before))
    | .done (p, n) => return (sl, .next (.linkNext (← s.store i p n) node i))
  | .linkNext s node i => do
    let arena ← sl.arena.after (ByteArena.nodeSetNext node i (← index s.next i))
    return ({ sl with arena }, .next (.linkCas s node i))
  | .linkCas s node i => do
    let p ← index s.prev i
    match ← sl.arena.nodeCompareExchange p i (← index s.next i) node with
    | (true, arena) => return ({ sl with arena }, ← linkLevel sl.list c s node (i + 1))
    | (false, _) => return (sl, .next (.relink s node i p))
  | .relink s node i before => do
    match ← sl.spliceStep c.key i before with
    | .next before => return (sl, .next (.relink s node i before))
    | .done (p, n) =>
      if p = n then
        if i ≠ 0 then throw .assertFailed
        else return (sl, .done (← sl.conflict p c.key c.value))
      else return (sl, ← linkLevel sl.list c (← s.store i p n) node i)
  | .backNode s node => do
    let arena ← sl.arena.after (ByteArena.nodeSetPrev node (← index s.prev 0))
    return ({ sl with arena },
      .next (if (← index s.next 0) = 0 then .storeNext s node 0 else .backNext s node))
  | .backNext s node => do
    let arena ← sl.arena.after (ByteArena.nodeSetPrev (← index s.next 0) node)
    return ({ sl with arena }, .next (.storeNext s node 0))
  | .storeNext s node i => do
    let arena ← sl.arena.after (ByteArena.nodeSetNext node i (← index s.next i))
    return ({ sl with arena }, .next (.storeLink s node i))
  | .storeLink s node i => do
    let arena ← sl.arena.after (ByteArena.nodeSetNext (← index s.prev i) i node)
    return ({ sl with arena }, ← linkLevel sl.list c s node (i + 1))

/-- One step of a thread, `none` if it is not in a call. -/
def advance (sl : ByteList) (th : Thread) (weak : Bool) :
    Option (Except Fault (ByteList × Thread)) :=
  match th.pc with
  | .loadHeight (.put c) => some do
    let h := sl.height
    let s := Splices.start sl.head h
    return (sl, { th with pc := .put c (.search h h s (← index s.prev (h + 1))) })
  | .loadHeight (.read q) => some (.ok (sl, { th with pc := .read q (sl.head, sl.height) }))
  | .read q p => some do
    match ← sl.readStep th.it q p with
    | .next p => return (sl, { th with pc := .read q p })
    | .done (it, r) => return (sl, { pc := .done r, it })
  | .put c pc => some do
    match ← sl.putStep c weak pc with
    | (sl, .next pc) => return (sl, { th with pc := .put c pc })
    | (sl, .done r) => return (sl, { th with pc := .done (.inserted r) })
  | _ => none

end ByteList

/-! ### The machine -/

namespace Concurrent

/-- The writes that a thread makes in `alloc_node` before it goes on. -/
def Pc.writes : Pc → List InitWrite
  | .put c (.init _ _ node) => initWrites node c.key c.value c.height
  | _ => []

/-- The list and the threads that share it. -/
structure ByteState where
  /-- The list. -/
  list : ByteList
  /-- The threads. -/
  threads : ℕ → Thread
  /-- The writes of `alloc_node` that each thread has yet to make. -/
  todo : ℕ → List InitWrite

namespace ByteState

/-- Replace the list and one thread. -/
def update (s : ByteState) (list : ByteList) (t : ℕ) (th : Thread) : ByteState :=
  ⟨list, Function.update s.threads t th, Function.update s.todo t th.pc.writes⟩

/-- The thread `t` panics. -/
def fault (s : ByteState) (t : ℕ) (e : Fault) : ByteState :=
  s.update s.list t { s.threads t with pc := .faulted e }

/-- One move. -/
def step (s : ByteState) : Label → Option ByteState
  | .invoke t c =>
    match (s.threads t).pc with
    | .idle => some (s.update s.list t
        { s.threads t with pc := c.start s.list.list (s.threads t).it })
    | _ => none
  | .step t weak =>
    match s.todo t with
    | w :: todo =>
      -- in `alloc_node`
      match s.list.arena.after w.run with
      | .ok arena => some { s with list := { s.list with arena },
                                   todo := Function.update s.todo t todo }
      | .error e => some (s.fault t e)
    | [] =>
      match s.list.advance (s.threads t) weak with
      | some (.ok (list, th)) => some (s.update list t th)
      | some (.error e) => some (s.fault t e)
      | none => none
  | .ret t r =>
    match (s.threads t).pc with
    | .done r' => if r' = r then some (s.update s.list t { s.threads t with pc := .idle }) else none
    | _ => none

/-- A list that no thread uses yet. -/
def init (sl : ByteList) : ByteState := ⟨sl, fun _ => ⟨.idle, SkipList.iterRef⟩, fun _ => []⟩

end ByteState

end Concurrent

end StoneDb
