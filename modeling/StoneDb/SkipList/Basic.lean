import StoneDb.SkipList.Memory

/-!
# The skiplist

`SkipList` and its cursor `IterRef`, one operation at a time: `put` and the reads run to completion
with nothing in between.  (The interleaved executions are in `StoneDb.Concurrent`; they take the
same loop bodies one iteration at a time.)

* Reads are functions into `Except Fault`; `put` is a program `EStateM Fault SkipList`, so that its
  effects up to a panic are visible.
* A `loop` of the source is its body (`spliceStep`, `lowerBoundStep`, …) under `loop`, with as much
  fuel as `SkipList.fuel` says.  Running out of it is `Fault.diverged`, which no reachable list
  shows.
* The height drawn by `random_height` is an argument of `put`.
-/

namespace StoneDb

/-! ### Comparators -/

/-- The trait `KeyComparator`. -/
structure KeyComparator where
  /-- Compare two keys. -/
  compareKey : Bytes → Bytes → Ordering
  /-- Do two keys represent the same user key? -/
  sameKey : Bytes → Bytes → Bool

/-- `BytewiseComparator`: keys as raw bytes. -/
def bytewiseComparator : KeyComparator where
  compareKey lhs rhs := compare lhs rhs
  sameKey lhs rhs := lhs == rhs

instance : Std.TransCmp bytewiseComparator.compareKey :=
  inferInstanceAs (Std.TransCmp (compare (α := Bytes)))

instance : Std.LawfulEqCmp bytewiseComparator.compareKey :=
  inferInstanceAs (Std.LawfulEqCmp (compare (α := Bytes)))

/-! ### The list -/

/-- A skiplist: `SkiplistInner` with the comparator and the mode of the handle. -/
structure SkipList where
  /-- Current max height. -/
  height : ℕ
  /-- Offset of the head node. -/
  head : ℕ
  /-- The arena backing all nodes. -/
  arena : Arena
  /-- `cmp`. -/
  cmp : KeyComparator
  /-- `allow_concurrent_write`. -/
  allowConcurrentWrite : Bool

namespace SkipList

/-- `SkipList::with_capacity`. -/
def withCapacity (cmp : KeyComparator) (capacity : ℕ) (allowConcurrentWrite : Bool) :
    Except Fault SkipList := do
  let arena ← Arena.withCapacity capacity
  match allocNode [] [] (maxHeight - 1) arena with
  | .error e _ => throw e
  | .ok head arena => return { height := 0, head, arena, cmp, allowConcurrentWrite }

/-- `list_height`. -/
def listHeight (sl : SkipList) : ℕ := sl.height

/-- `head_offset`. -/
def headOffset (sl : SkipList) : ℕ := sl.head

/-- More iterations than any loop of a reachable list makes. -/
def fuel (sl : SkipList) : ℕ := sl.arena.capacity + maxHeight

/-! ### Searching -/

/-- The body of the loop of `find_splice_for_level`. -/
def spliceStep (sl : SkipList) (key : Bytes) (level before : ℕ) :
    Except Fault (Iter ℕ (ℕ × ℕ)) := do
  let before := if before = 0 then sl.headOffset else before
  let nextOffset ← nodeNextOffset sl.arena before level
  if nextOffset = 0 then return .done (before, 0)
  else
    match sl.cmp.compareKey (← nodeKey sl.arena nextOffset) key with
    | .lt => return .next nextOffset
    | .gt => return .done (before, nextOffset)
    | .eq => return .done (nextOffset, nextOffset)

/-- `find_splice_for_level`: `(n, n)` reports an equal key at `n`. -/
def findSpliceForLevel (sl : SkipList) (key : Bytes) (before level : ℕ) : Except Fault (ℕ × ℕ) :=
  loop (sl.spliceStep key level) (.error .diverged) sl.fuel before

/-- The key and value of a node, copied out. -/
def nodePair (sl : SkipList) (offset : ℕ) : Except Fault (Bytes × Bytes) := do
  return (← nodeKey sl.arena offset, ← nodeValue sl.arena offset)

theorem nodePair_eq {sl : SkipList} {o : ℕ} (h : sl.arena.Alive o) :
    sl.nodePair o = .ok (sl.arena.pairAt o) := by
  rw [nodePair, nodeKey_eq h, nodeValue_eq h]
  rfl

/-- The body of the loop of `lower_bound`, on `(current, level)`. -/
def lowerBoundStep (sl : SkipList) (key : Bytes) :
    ℕ × ℕ → Except Fault (Iter (ℕ × ℕ) (Option (Bytes × Bytes)))
  | (current, level) => do
    let nextOffset ← nodeNextOffset sl.arena current level
    if nextOffset = 0 then
      if 0 < level then return .next (current, level - 1) else return .done none
    else
      match sl.cmp.compareKey (← nodeKey sl.arena nextOffset) key with
      | .lt => return .next (nextOffset, level)
      | .gt =>
        if 0 < level then return .next (current, level - 1)
        else return .done (some (← sl.nodePair nextOffset))
      | .eq => return .done (some (← sl.nodePair nextOffset))

/-- `lower_bound`. -/
def lowerBound (sl : SkipList) (key : Bytes) : Except Fault (Option (Bytes × Bytes)) :=
  loop (sl.lowerBoundStep key) (.error .diverged) sl.fuel (sl.headOffset, sl.listHeight)

/-- What `get_with_key` makes of the answer of `lower_bound`. -/
def exactMatch (key : Bytes) : Option (Bytes × Bytes) → Option (Bytes × Bytes)
  | some (foundKey, value) => if foundKey = key then some (foundKey, value) else none
  | none => none

/-- `get_with_key`. -/
def getWithKey (sl : SkipList) (key : Bytes) : Except Fault (Option (Bytes × Bytes)) := do
  return exactMatch key (← sl.lowerBound key)

/-- `get`. -/
def get (sl : SkipList) (key : Bytes) : Except Fault (Option Bytes) := do
  return (← sl.getWithKey key).map Prod.snd

/-- `contains`. -/
def contains (sl : SkipList) (key : Bytes) : Except Fault Bool := do
  return (← sl.get key).isSome

/-- Not the head: the head sentinel is reported as `0`. -/
def orNone (sl : SkipList) (cursor : ℕ) : ℕ := if cursor = sl.headOffset then 0 else cursor

/-- The body of the loop of `find_near`, on `(cursor, level)`. -/
def findNearStep (sl : SkipList) (key : Bytes) (less allowEqual : Bool) :
    ℕ × ℕ → Except Fault (Iter (ℕ × ℕ) ℕ)
  | (cursor, level) => do
    let nextOffset ← nodeNextOffset sl.arena cursor level
    if nextOffset = 0 then
      if 0 < level then return .next (cursor, level - 1)
      else if !less then return .done 0
      else return .done (sl.orNone cursor)
    else
      match sl.cmp.compareKey (← nodeKey sl.arena nextOffset) key with
      | .lt => return .next (nextOffset, level)
      | .eq =>
        if allowEqual then return .done nextOffset
        else if !less then
          -- need to go to the node after the equal one
          return .done (← nodeNextOffset sl.arena nextOffset 0)
        else if 0 < level then return .next (cursor, level - 1)
        else return .done (sl.orNone cursor)
      | .gt =>
        if 0 < level then return .next (cursor, level - 1)
        else if !less then return .done nextOffset
        else return .done (sl.orNone cursor)

/-- `find_near`. -/
def findNear (sl : SkipList) (key : Bytes) (less allowEqual : Bool) : Except Fault ℕ :=
  loop (sl.findNearStep key less allowEqual) (.error .diverged) sl.fuel
    (sl.headOffset, sl.listHeight)

/-- The body of the loop of `find_last`, on `(cursor, level)`. -/
def findLastStep (sl : SkipList) : ℕ × ℕ → Except Fault (Iter (ℕ × ℕ) ℕ)
  | (cursor, level) => do
    let nextOffset ← nodeNextOffset sl.arena cursor level
    if nextOffset ≠ 0 then return .next (nextOffset, level)
    else if level = 0 then return .done (sl.orNone cursor)
    else return .next (cursor, level - 1)

/-- `find_last`. -/
def findLast (sl : SkipList) : Except Fault ℕ :=
  loop sl.findLastStep (.error .diverged) sl.fuel (sl.headOffset, sl.listHeight)

/-- The body of the loop of `len`, on `(current, count)`. -/
def lenStep (sl : SkipList) : ℕ × ℕ → Except Fault (Iter (ℕ × ℕ) ℕ)
  | (current, count) => do
    let next ← nodeNextOffset sl.arena current 0
    if next = 0 then return .done count else return .next (next, count + 1)

/-- `len`. -/
def len (sl : SkipList) : Except Fault ℕ :=
  loop sl.lenStep (.error .diverged) sl.fuel (sl.headOffset, 0)

/-- `is_empty`. -/
def isEmpty (sl : SkipList) : Except Fault Bool := do
  return (← sl.len) = 0

/-- `mem_size`. -/
def memSize (sl : SkipList) : ℕ := sl.arena.len

/-! ### Inserting -/

/-- The `prev` and `next` arrays of `put`. -/
structure Splices where
  /-- Predecessor offsets by level. -/
  prev : ℕ → ℕ
  /-- Successor offsets by level. -/
  next : ℕ → ℕ

/-- `arr[i]`, for an array of `MAX_HEIGHT + 1` entries. -/
def index (arr : ℕ → ℕ) (i : ℕ) : Except Fault ℕ :=
  if i < maxHeight + 1 then .ok (arr i) else .error .indexOutOfBounds

namespace Splices

/-- The arrays before the search: the levels above the list height start at the head. -/
def start (head listHeight : ℕ) : Splices where
  prev j := if listHeight + 1 ≤ j ∧ j < maxHeight + 1 then head else 0
  next _ := 0

/-- `prev[i] = p; next[i] = n`. -/
def store (s : Splices) (i p n : ℕ) : Except Fault Splices :=
  if i < maxHeight + 1 then
    .ok { prev := Function.update s.prev i p, next := Function.update s.next i n }
  else .error .indexOutOfBounds

end Splices

/-- The answer of `put` when the key is present at `p`. -/
def conflict (sl : SkipList) (p : ℕ) (key value : Bytes) :
    Except Fault (Option (Bytes × Bytes)) := do
  return if (← nodeValue sl.arena p) ≠ value then some (key, value) else none

/-- The search of `put` at the levels `i - 1, …, 0`: an answer, or the splices. -/
def searchLevels (sl : SkipList) (key value : Bytes) :
    ℕ → Splices → Except Fault (Option (Bytes × Bytes) ⊕ Splices)
  | 0, s => .ok (.inr s)
  | i + 1, s => do
    let before ← index s.prev (i + 1)
    let (p, n) ← sl.findSpliceForLevel key before i
    let s ← s.store i p n
    if p = n ∧ p ≠ 0 then return .inl (← sl.conflict p key value)
    else sl.searchLevels key value i s

/-- Programs on a skiplist. -/
abbrev Prog (α : Type) := EStateM Fault SkipList α

/-- Read the list. -/
def reading {α : Type} (f : SkipList → Except Fault α) : Prog α := fun sl =>
  match f sl with
  | .ok a => .ok a sl
  | .error e => .error e sl

/-- Update the arena. -/
def updating {α : Type} (f : Arena → Except Fault (α × Arena)) : Prog α := fun sl =>
  match f sl.arena with
  | .ok (a, arena) => .ok a { sl with arena }
  | .error e => .error e sl

/-- Store to the arena. -/
def storing (f : Arena → Except Fault Arena) : Prog Unit := fun sl =>
  match f sl.arena with
  | .ok arena => .ok () { sl with arena }
  | .error e => .error e sl

/-- Run a program of the arena. -/
def onArena {α : Type} (f : EStateM Fault Arena α) : Prog α := fun sl =>
  match f sl.arena with
  | .ok a arena => .ok a { sl with arena }
  | .error e arena => .error e { sl with arena }

/-- The body of the loop that raises the list height. -/
def raiseStep (height current : ℕ) : Prog (Iter ℕ Unit) := fun sl =>
  if current < height then
    -- `compare_exchange_weak`
    if sl.height = current then .ok (.done ()) { sl with height }
    else .ok (.next sl.height) sl
  else .ok (.done ()) sl

/-- Raise the list height to `height`. -/
def raiseHeight (height listHeight : ℕ) : Prog Unit := fun sl =>
  if listHeight < height then
    if sl.allowConcurrentWrite then
      loop (raiseStep height) (throw .diverged) sl.fuel listHeight sl
    else .ok () { sl with height }
  else .ok () sl

/-- The body of the loop that links `node` at level `i` by compare-exchange. -/
def linkStep (key value : Bytes) (node i : ℕ) (s : Splices) :
    Prog (Iter Splices (Option (Bytes × Bytes) ⊕ Splices)) := do
  let before ← reading fun _ => index s.prev i
  let s ←
    if before = 0 then do
      let (p, n) ← reading fun sl => sl.findSpliceForLevel key sl.headOffset i
      reading fun _ => s.store i p n
    else pure s
  let p ← reading fun _ => index s.prev i
  let nextOffset ← reading fun _ => index s.next i
  storing fun a => nodeSetNext a node i nextOffset
  let linked ← updating fun a => nodeCompareExchange a p i nextOffset node
  if linked then return .done (.inr s)
  else
    let (p, n) ← reading fun sl => sl.findSpliceForLevel key p i
    if p = n then
      if i ≠ 0 then throw .assertFailed
      else return .done (.inl (← reading fun sl => sl.conflict p key value))
    else return .next (← reading fun _ => s.store i p n)

/-- Link `node` at level `i` by direct stores, with the back pointers at level 0. -/
def storeLink (node i : ℕ) (s : Splices) : Prog Splices := do
  let before ← reading fun _ => index s.prev i
  let nextOffset ← reading fun _ => index s.next i
  let s ←
    if before = 0 then do
      let head ← reading fun sl => .ok sl.headOffset
      reading fun _ => s.store i head nextOffset
    else pure s
  let p ← reading fun _ => index s.prev i
  if i = 0 then
    storing fun a => nodeSetPrev a node p
    if nextOffset ≠ 0 then storing fun a => nodeSetPrev a nextOffset node
  storing fun a => nodeSetNext a node i nextOffset
  storing fun a => nodeSetNext a p i node
  return s

/-- The splice of `put` at the levels `i, i + 1, …`, `todo` of them. -/
def linkLevels (key value : Bytes) (node : ℕ) : ℕ → ℕ → Splices → Prog (Option (Bytes × Bytes))
  | 0, _, _ => return none
  | todo + 1, i, s => do
    let concurrent ← reading fun sl => .ok sl.allowConcurrentWrite
    if concurrent then
      let fuel ← reading fun sl => .ok sl.fuel
      match ← loop (linkStep key value node i) (throw .diverged) fuel s with
      | .inl r => return r
      | .inr s => linkLevels key value node todo (i + 1) s
    else
      let s ← storeLink node i s
      linkLevels key value node todo (i + 1) s

/-- `put`, for the tower height `height`. -/
def put (key value : Bytes) (height : ℕ) : Prog (Option (Bytes × Bytes)) := do
  let listHeight ← reading fun sl => .ok sl.listHeight
  let found ← reading fun sl =>
    sl.searchLevels key value (listHeight + 1) (.start sl.headOffset listHeight)
  match found with
  | .inl r => return r
  | .inr s =>
    let node ← onArena (allocNode key value height)
    raiseHeight height listHeight
    linkLevels key value node (height + 1) 0 s

end SkipList

/-! ### Cursors -/

/-- `IterRef`: the offset of the current node, `0` when not positioned. -/
structure IterRef where
  /-- Current node offset. -/
  cursor : ℕ
  deriving DecidableEq, Repr

/-- `iter_ref`. -/
def SkipList.iterRef : IterRef := ⟨0⟩

namespace IterRef

/-- `valid`. -/
def valid (it : IterRef) : Bool := it.cursor ≠ 0

theorem valid_of_ne {it : IterRef} (h0 : it.cursor ≠ 0) : it.valid = true := by simp [valid, h0]

theorem not_valid {it : IterRef} (h0 : it.cursor = 0) : it.valid = false := by simp [valid, h0]

/-- `key`. -/
def key (sl : SkipList) (it : IterRef) : Except Fault (Option Bytes) :=
  if it.valid then return some (← nodeKey sl.arena it.cursor) else return none

/-- `value`. -/
def value (sl : SkipList) (it : IterRef) : Except Fault (Option Bytes) :=
  if it.valid then return some (← nodeValue sl.arena it.cursor) else return none

/-- `next`. -/
def next (sl : SkipList) (it : IterRef) : Except Fault IterRef :=
  if it.valid then return ⟨← nodeNextOffset sl.arena it.cursor 0⟩ else return it

/-- `prev`. -/
def prev (sl : SkipList) (it : IterRef) : Except Fault IterRef :=
  if it.valid then
    if sl.allowConcurrentWrite then do
      -- `prev` is not maintained in concurrent mode
      match ← it.key sl with
      | some k => return ⟨← sl.findNear k true false⟩
      | none => return it
    else do
      let cursor ← nodePrev sl.arena it.cursor
      return ⟨sl.orNone cursor⟩
  else return it

/-- `seek`. -/
def seek (sl : SkipList) (target : Bytes) : Except Fault IterRef := do
  return ⟨← sl.findNear target false true⟩

/-- `seek_for_prev`. -/
def seekForPrev (sl : SkipList) (target : Bytes) : Except Fault IterRef := do
  return ⟨← sl.findNear target true true⟩

/-- `seek_to_first`. -/
def seekToFirst (sl : SkipList) : Except Fault IterRef := do
  return ⟨← nodeNextOffset sl.arena sl.headOffset 0⟩

/-- `seek_to_last`. -/
def seekToLast (sl : SkipList) : Except Fault IterRef := do
  return ⟨← sl.findLast⟩

end IterRef

end StoneDb
