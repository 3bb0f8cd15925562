import StoneDb.SkipList.Refinement
import StoneDb.Lib.Execution

/-!
# Interleaved executions

A skiplist shared by threads.  Every thread makes one call after the other, and a call is carried
out in steps of one atomic access each: a load or store of the list height, of the arena's bump
pointer, of a tower slot or of a back pointer, or a compare-exchange on one of these.  A label says
which thread moves; an interleaving is a list of labels, and all of them are allowed.

The loops of the source appear as the same bodies as in `StoneDb.SkipList.Basic`, one iteration a
step.  Reads of the immutable fields of a node (its key and its value) belong to the step of the
load that led to the node.  A block that has been reserved belongs to one thread until it is linked,
so `alloc_node` initialises it in one step.

The atomics of the source are sequentially consistent, apart from the two back pointer stores of the
single writer, which stand in program order here as well.  A thread has one cursor: a thread of a
program that moves several is several threads here, which allows more interleavings.

A panic ends the call of its thread (`Pc.faulted`); the others go on.
-/

namespace StoneDb

/-- What a cursor shows: the answers of `key` and `value`. -/
def IterRef.entry (sl : SkipList) (it : IterRef) : Except Fault (Option (Bytes × Bytes)) := do
  match ← it.key sl, ← it.value sl with
  | some k, some v => return some (k, v)
  | _, _ => return none

namespace Concurrent

open SkipList

/-! ### Calls -/

/-- A call that only reads the list.  The calls of `IterRef` are on the thread's own cursor. -/
inductive ReadCall where
  | get (key : Bytes)
  | getWithKey (key : Bytes)
  | contains (key : Bytes)
  | lowerBound (key : Bytes)
  | len
  | isEmpty
  | seek (target : Bytes)
  | seekForPrev (target : Bytes)
  | seekToFirst
  | seekToLast
  | next
  | prev
  deriving DecidableEq

/-- A call. -/
inductive Call where
  | put (c : PutCall)
  | read (q : ReadCall)

/-- The answer of a call.  A cursor operation answers with the pair the cursor then shows. -/
inductive Ret where
  /-- The answer of `put`. -/
  | inserted (r : Option (Bytes × Bytes))
  | pair (r : Option (Bytes × Bytes))
  | value (r : Option Bytes)
  | flag (b : Bool)
  | count (n : ℕ)
  deriving DecidableEq

/-! ### Program counters -/

/-- Where a thread is in `put`, with its local variables.  `s` holds the arrays `prev` and `next`,
`h` is the list height that the call has loaded, `node` the node it has allocated. -/
inductive PutPc where
  /-- `find_splice_for_level` of the search, at level `i`, standing at `before`. -/
  | search (h i : ℕ) (s : Splices) (before : ℕ)
  /-- `Arena::alloc`: load the pointer. -/
  | alloc (h : ℕ) (s : Splices)
  /-- `Arena::alloc`: compare-exchange the pointer. -/
  | allocCas (h : ℕ) (s : Splices) (current : Option ℕ) (offset new : ℕ)
  /-- `alloc_node`: initialise the block. -/
  | init (h : ℕ) (s : Splices) (node : ℕ)
  /-- Raise the list height, last seen at `current`. -/
  | raise (s : Splices) (node current : ℕ)
  /-- `find_splice_for_level` for a level without a predecessor. -/
  | splice (s : Splices) (node i before : ℕ)
  /-- Store the forward offset of the new node. -/
  | linkNext (s : Splices) (node i : ℕ)
  /-- Compare-exchange the forward offset of the predecessor. -/
  | linkCas (s : Splices) (node i : ℕ)
  /-- `find_splice_for_level` after a failed compare-exchange. -/
  | relink (s : Splices) (node i before : ℕ)
  /-- Single-writer mode: store the back pointer of the new node. -/
  | backNode (s : Splices) (node : ℕ)
  /-- Single-writer mode: store the back pointer of its successor. -/
  | backNext (s : Splices) (node : ℕ)
  /-- Single-writer mode: store the forward offset of the new node. -/
  | storeNext (s : Splices) (node i : ℕ)
  /-- Single-writer mode: store the forward offset of the predecessor. -/
  | storeLink (s : Splices) (node i : ℕ)

/-- Where a thread is. -/
inductive Pc where
  /-- Between two calls. -/
  | idle
  /-- About to load the list height. -/
  | loadHeight (c : Call)
  /-- In the loop of a read, with its two local variables. -/
  | read (q : ReadCall) (p : ℕ × ℕ)
  | put (c : PutCall) (pc : PutPc)
  /-- About to return. -/
  | done (r : Ret)
  | faulted (e : Fault)

/-! ### Reading -/

/-- The end of a loop, if this iteration is the last one. -/
def finish {α : Type} (f : α → Except Fault (IterRef × Ret)) (r : Except Fault (Iter (ℕ × ℕ) α)) :
    Except Fault (Iter (ℕ × ℕ) (IterRef × Ret)) := do
  match ← r with
  | .next p => return .next p
  | .done a => return .done (← f a)

/-- A lookup leaves the cursor alone. -/
def answer (it : IterRef) (r : Ret) : Except Fault (IterRef × Ret) := .ok (it, r)

/-- A cursor operation ends at `cursor`. -/
def moveTo (sl : SkipList) (cursor : ℕ) : Except Fault (IterRef × Ret) := do
  return (⟨cursor⟩, .pair (← IterRef.entry sl ⟨cursor⟩))

/-- One load of a read: go on in the loop, or end with the new cursor and the answer. -/
def readStep (sl : SkipList) (it : IterRef) (q : ReadCall) (p : ℕ × ℕ) :
    Except Fault (Iter (ℕ × ℕ) (IterRef × Ret)) :=
  match q with
  | .get key => finish (fun r => answer it (.value ((exactMatch key r).map Prod.snd)))
      (sl.lowerBoundStep key p)
  | .getWithKey key => finish (fun r => answer it (.pair (exactMatch key r)))
      (sl.lowerBoundStep key p)
  | .contains key => finish (fun r => answer it (.flag ((exactMatch key r).map Prod.snd).isSome))
      (sl.lowerBoundStep key p)
  | .lowerBound key => finish (fun r => answer it (.pair r)) (sl.lowerBoundStep key p)
  | .len => finish (fun n => answer it (.count n)) (sl.lenStep p)
  | .isEmpty => finish (fun n => answer it (.flag (n = 0))) (sl.lenStep p)
  | .seek target => finish (moveTo sl) (sl.findNearStep target false true p)
  | .seekForPrev target => finish (moveTo sl) (sl.findNearStep target true true p)
  | .seekToFirst => do return .done (← moveTo sl (← IterRef.seekToFirst sl).cursor)
  | .seekToLast => finish (moveTo sl) (sl.findLastStep p)
  | .next => do return .done (← moveTo sl (← it.next sl).cursor)
  | .prev => do
    if sl.allowConcurrentWrite then
      match ← it.key sl with
      -- concurrent mode: `find_near`, from the key of the cursor
      | some k => finish (moveTo sl) (sl.findNearStep k true false p)
      | none => return .done (← moveTo sl it.cursor)
    else return .done (← moveTo sl (← it.prev sl).cursor)

/-- Does the call start with a load of the list height? -/
def ReadCall.loadsHeight (sl : SkipList) (it : IterRef) : ReadCall → Bool
  | .len | .isEmpty | .seekToFirst | .next => false
  | .prev => sl.allowConcurrentWrite && it.valid
  | _ => true

/-- Where a call starts. -/
def Call.start (sl : SkipList) (it : IterRef) : Call → Pc
  | .put c => .loadHeight (.put c)
  | .read q => if q.loadsHeight sl it then .loadHeight (.read q) else .read q (sl.headOffset, 0)

/-! ### Inserting -/

/-- The splice of `put` arrives at level `i`, or is complete. -/
def linkLevel (sl : SkipList) (c : PutCall) (s : Splices) (node i : ℕ) :
    Except Fault (Iter PutPc (Option (Bytes × Bytes))) := do
  if c.height < i then return .done none
  else
    let before ← index s.prev i
    if sl.allowConcurrentWrite then
      -- a level above the height that the call has loaded has no predecessor yet
      if before = 0 then return .next (.splice s node i sl.headOffset)
      else return .next (.linkNext s node i)
    else
      let s ← if before = 0 then s.store i sl.headOffset (← index s.next i) else .ok s
      return .next (if i = 0 then .backNode s node else .storeNext s node i)

/-- One step of `put`.  `weak` makes `compare_exchange_weak` fail spuriously. -/
def putStep (sl : SkipList) (c : PutCall) (weak : Bool) :
    PutPc → Except Fault (SkipList × Iter PutPc (Option (Bytes × Bytes)))
  | .search h i s before => do
    match ← sl.spliceStep c.key i before with
    | .next before => return (sl, .next (.search h i s before))
    | .done (p, n) =>
      let s ← s.store i p n
      -- an equal key: nothing is inserted
      if p = n ∧ p ≠ 0 then return (sl, .done (← sl.conflict p c.key c.value))
      else
        match i with
        | 0 => return (sl, .next (.alloc h s))
        | i + 1 => return (sl, .next (.search h i s (← index s.prev (i + 1))))
  | .alloc h s => do
    let current := sl.arena.ptr
    let (offset, new) ← sl.arena.reserve current
      (Arena.alignSize (nodeSize c.key c.value c.height))
    return (sl, .next (.allocCas h s current offset new))
  | .allocCas h s current offset new =>
    match sl.arena.compareExchangePtr current new with
    | (true, arena) => return ({ sl with arena }, .next (.init h s offset))
    | (false, _) => return (sl, .next (.alloc h s))
  | .init h s node => do
    let arena ← initNode sl.arena node (Arena.alignSize (nodeSize c.key c.value c.height)) c.key
      c.value c.height
    if h < c.height then return ({ sl with arena }, .next (.raise s node h))
    else return ({ sl with arena }, ← linkLevel sl c s node 0)
  -- another thread may have raised the height: compare again with what it is now
  | .raise s node current => do
    if sl.allowConcurrentWrite then
      if !weak && sl.height == current then
        return ({ sl with height := c.height }, ← linkLevel sl c s node 0)
      else if sl.height < c.height then return (sl, .next (.raise s node sl.height))
      else return (sl, ← linkLevel sl c s node 0)
    else return ({ sl with height := c.height }, ← linkLevel sl c s node 0)
  | .splice s node i before => do
    match ← sl.spliceStep c.key i before with
    | .next before => return (sl, .next (.splice s node i before))
    | .done (p, n) => return (sl, .next (.linkNext (← s.store i p n) node i))
  | .linkNext s node i => do
    let arena ← nodeSetNext sl.arena node i (← index s.next i)
    return ({ sl with arena }, .next (.linkCas s node i))
  | .linkCas s node i => do
    let p ← index s.prev i
    match ← nodeCompareExchange sl.arena p i (← index s.next i) node with
    | (true, arena) => return ({ sl with arena }, ← linkLevel sl c s node (i + 1))
    | (false, _) => return (sl, .next (.relink s node i p))
  | .relink s node i before => do
    match ← sl.spliceStep c.key i before with
    | .next before => return (sl, .next (.relink s node i before))
    | .done (p, n) =>
      if p = n then
        if i ≠ 0 then throw .assertFailed
        else return (sl, .done (← sl.conflict p c.key c.value))
      else return (sl, ← linkLevel sl c (← s.store i p n) node i)
  | .backNode s node => do
    let arena ← nodeSetPrev sl.arena node (← index s.prev 0)
    return ({ sl with arena },
      .next (if (← index s.next 0) = 0 then .storeNext s node 0 else .backNext s node))
  | .backNext s node => do
    let arena ← nodeSetPrev sl.arena (← index s.next 0) node
    return ({ sl with arena }, .next (.storeNext s node 0))
  | .storeNext s node i => do
    let arena ← nodeSetNext sl.arena node i (← index s.next i)
    return ({ sl with arena }, .next (.storeLink s node i))
  | .storeLink s node i => do
    let arena ← nodeSetNext sl.arena (← index s.prev i) i node
    return ({ sl with arena }, ← linkLevel sl c s node (i + 1))

/-! ### The machine -/

/-- A thread: where it is, and its cursor. -/
structure Thread where
  /-- The program counter. -/
  pc : Pc
  /-- The cursor. -/
  it : IterRef

/-- The list and the threads that share it. -/
structure State where
  /-- The list. -/
  list : SkipList
  /-- The threads. -/
  threads : ℕ → Thread

/-- A move of one thread: start a call, make one step of it, or return from it. -/
inductive Label where
  | invoke (t : ℕ) (c : Call)
  | step (t : ℕ) (weak : Bool)
  | ret (t : ℕ) (r : Ret)

/-- One step of a thread, `none` if it is not in a call. -/
def Thread.advance (sl : SkipList) (th : Thread) (weak : Bool) :
    Option (Except Fault (SkipList × Thread)) :=
  match th.pc with
  | .loadHeight (.put c) => some do
    let h := sl.listHeight
    let s := Splices.start sl.headOffset h
    return (sl, { th with pc := .put c (.search h h s (← index s.prev (h + 1))) })
  | .loadHeight (.read q) =>
    some (.ok (sl, { th with pc := .read q (sl.headOffset, sl.listHeight) }))
  | .read q p => some do
    match ← readStep sl th.it q p with
    | .next p => return (sl, { th with pc := .read q p })
    | .done (it, r) => return (sl, { pc := .done r, it })
  | .put c pc => some do
    match ← putStep sl c weak pc with
    | (sl, .next pc) => return (sl, { th with pc := .put c pc })
    | (sl, .done r) => return (sl, { th with pc := .done (.inserted r) })
  | _ => none

/-- Replace the list and one thread. -/
def State.update (s : State) (list : SkipList) (t : ℕ) (th : Thread) : State :=
  ⟨list, Function.update s.threads t th⟩

/-- One move.  A call starts when its thread is idle, and returns with the answer it has found. -/
def step (s : State) : Label → Option State
  | .invoke t c =>
    match (s.threads t).pc with
    | .idle => some (s.update s.list t
        { s.threads t with pc := c.start s.list (s.threads t).it })
    | _ => none
  | .step t weak =>
    match (s.threads t).advance s.list weak with
    | some (.ok (list, th)) => some (s.update list t th)
    | some (.error e) => some (s.update s.list t { s.threads t with pc := .faulted e })
    | none => none
  | .ret t r =>
    match (s.threads t).pc with
    | .done r' => if r' = r then some (s.update s.list t { s.threads t with pc := .idle }) else none
    | _ => none

/-- A list that no thread uses yet. -/
def State.init (sl : SkipList) : State := ⟨sl, fun _ => ⟨.idle, SkipList.iterRef⟩⟩

/-- The calls a thread may make: those of a program that type-checks, and in single-writer mode one
thread only, `writer`, calls `put`. -/
def Label.Allowed (mode : Bool) (writer : ℕ) : Label → Prop
  | .invoke t (.put c) => c.Valid ∧ (mode = false → t = writer)
  | _ => True

instance (mode : Bool) (writer : ℕ) : DecidablePred (Label.Allowed mode writer)
  | .invoke t (.put c) => inferInstanceAs (Decidable (c.Valid ∧ (mode = false → t = writer)))
  | .invoke _ (.read _) | .step .. | .ret .. => inferInstanceAs (Decidable True)

end Concurrent

end StoneDb
