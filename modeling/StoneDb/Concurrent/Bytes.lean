import StoneDb.Concurrent.Bounds
import StoneDb.Concurrent.ByteMachine
import StoneDb.Lib.Follows

/-!
# The steps on bytes

Where the bytes represent the nodes (`ByteArena.Encodes`), a step on bytes does what the step on
nodes does, unless that makes an access outside a node (`follows_readStep`, `follows_putStep`), and
its stores are those to the nodes (`ByteArena.Tracks`).  From the accessors this carries over to the
bodies of the loops by the rules of `Follows`.

The writes of `alloc_node`, one by one, leave the node in its block, whatever was there
(`stored_initWrites`).
-/

namespace StoneDb

/-! ### Initialising a block, write by write -/

namespace InitWrite

/-- What the write changes. -/
def apply (mem : ByteMemory) : InitWrite → ByteMemory
  | field p n x => mem.storeLe p n x
  | copy p bs => mem.store p bs

/-- The write is aligned, and inside the `size` bytes at `base`. -/
def Within (base size : ℕ) : InitWrite → Prop
  | field p n _ => n ∣ p ∧ base ≤ p ∧ p + n ≤ base + size
  | copy p bs => base ≤ p ∧ p + bs.length ≤ base + size

variable {w : InitWrite} {ws : List InitWrite} {base size p height : ℕ} {mem mem' : ByteMemory}
  {b : ByteArena} {n : Node} {key value : Bytes}

theorem run_eq (h : w.Within base size) (hend : base + size ≤ b.capacity) :
    w.run b = .ok () { b with mem := w.apply b.mem } := by
  cases w with
  | field p n x => exact ByteArena.write_eq h.1 (h.2.2.trans hend)
  | copy p bs => exact ByteArena.copy_eq bs (h.2.trans hend)

/-- Nothing changes outside the block. -/
theorem apply_of_notMem (h : w.Within base size) (hp : p ∉ span base size) :
    w.apply mem p = mem p := by
  cases w with
  | field q n x =>
    obtain ⟨-, hbase, hend⟩ := h
    exact ByteMemory.storeLe_of_notMem fun hq => hp (span_subset hbase hend hq)
  | copy q bs =>
    obtain ⟨hbase, hend⟩ := h
    exact ByteMemory.store_of_notMem fun hq => hp (span_subset hbase hend hq)

/-- What a write leaves at an address depends on what was there. -/
theorem apply_congr (h : mem p = mem' p) : w.apply mem p = w.apply mem' p := by
  cases w <;> simp only [apply, ByteMemory.storeLe, ByteMemory.store, h]

/-- What some writes leave behind. -/
def applyAll (mem : ByteMemory) (ws : List InitWrite) : ByteMemory := ws.foldl apply mem

theorem applyAll_congr (h : mem p = mem' p) : applyAll mem ws p = applyAll mem' ws p := by
  induction ws generalizing mem mem' with
  | nil => exact h
  | cons w ws ih => exact ih (apply_congr h)

/-- The writes one after the other. -/
theorem forM_run_eq (hws : ∀ w ∈ ws, w.Within base size) (hend : base + size ≤ b.capacity) :
    (forM ws run : EStateM Fault ByteArena Unit) b =
      .ok () { b with mem := applyAll b.mem ws } := by
  induction ws generalizing b with
  | nil => rfl
  | cons w ws ih =>
    obtain ⟨hw, hws⟩ := List.forall_mem_cons.1 hws
    rw [List.forM_cons]
    simp only [bind, EStateM.bind, run_eq hw hend]
    exact ih hws hend

end InitWrite

open InitWrite

section

variable {b : ByteArena} {base height : ℕ} {key value : Bytes}

/-- **The writes of `alloc_node`** are those of `ByteArena.initNode`, in the same order. -/
theorem initNode_eq_writes :
    ByteArena.initNode base key value height = forM (initWrites base key value height) run := by
  have htower : ∀ todo level, ByteArena.initTower base todo level =
      forM ((List.range' level todo).map fun l =>
        InitWrite.field (base + (towerOff + l * slotSize)) slotSize 0) run := by
    intro todo
    induction todo with
    | zero => intro level; rfl
    | succ todo ih =>
      intro level
      simp only [ByteArena.initTower, ih, List.range'_succ, List.map_cons, List.forM_cons, run]
  simp only [ByteArena.initNode, ByteArena.initHeader, initWrites, htower, List.forM_append,
    List.forM_cons, List.forM_nil, List.range_eq_range', run, bind_assoc, bind_pure_unit]

/-- They stay inside the block. -/
theorem initWrites_within (hbase : 8 ∣ base) {w : InitWrite}
    (hw : w ∈ initWrites base key value height) :
    w.Within base (kvDataOff height + (key ++ value).length) := by
  have hoff : kvDataOff height = towerOff + (height + 1) * slotSize := rfl
  simp only [initWrites, List.mem_append, List.mem_cons, List.mem_map, List.mem_range,
    List.not_mem_nil, or_false] at hw
  rcases hw with ((rfl | rfl | rfl | rfl) | ⟨level, hlevel, rfl⟩) | rfl | rfl <;>
    simp only [Within, keyLenOff, valueLenOff, heightOff, prevOff, towerOff, slotSize,
      List.length_append] at * <;>
    omega

/-- All of them leave the node there, whatever was in the block. -/
theorem stored_initWrites (mem : ByteMemory) (hh : height < maxHeight) (hbase : 8 ∣ base) :
    Stored (applyAll mem (initWrites base key value height)) base (Node.init key value height) := by
  obtain ⟨mem', hrun, -, hstored⟩ := ByteArena.initNode_spec
    (a := ⟨none, base + (kvDataOff height + (key ++ value).length), mem⟩) key value hh hbase le_rfl
  rw [initNode_eq_writes, forM_run_eq (fun w hw => initWrites_within hbase hw) le_rfl] at hrun
  cases hrun
  exact hstored

end

/-! ### Reads and writes -/

namespace ByteArena

variable {b b' : ByteArena} {a a' : Arena} {bs : List (ℕ × ℕ)} {n : Node} {o l x : ℕ}

/-- Both arenas after the same write: the new bytes are the new nodes, and the bytes that belong to
no node are those before. -/
structure Tracks (b : ByteArena) (a : Arena) (b' : ByteArena) (a' : Arena) : Prop where
  ptr : b'.ptr = a'.ptr
  capacity : b'.capacity = a'.capacity
  stored : ∀ o n, a'.node o = some n → Stored b'.mem o n
  outside : ∀ p, (∀ o n, a.node o = some n → p ∉ span o n.bytes) → b'.mem p = b.mem p

namespace Encodes

/-- A store into a node. -/
theorem tracks_store (h' : b'.Encodes a' bs) (hn : a.node o = some n) {p k : ℕ}
    (hp : o ≤ p) (hk : p + k ≤ o + n.bytes) (hframe : ∀ q ∉ span p k, b'.mem q = b.mem q) :
    b.Tracks a b' a' :=
  ⟨h'.ptr, h'.capacity, h'.stored, fun q hq => hframe q fun hq' =>
    hq o n hn (span_subset hp hk hq')⟩

variable (h : b.Encodes a bs)

include h

theorem tracks : b.Tracks a b a := ⟨h.ptr, h.capacity, h.stored, fun _ _ => rfl⟩

/-- An offset that a slot may hold is a `usize`. -/
theorem target_lt (hx : a.Target l x) : x < 2 ^ 64 := by
  rcases hx with rfl | ⟨n, hn, -⟩
  · decide
  · have hend := h.laid.end_le_capacity hn
    have hcap := h.capacity_le
    simp only [isizeMax] at hcap
    omega

theorem follows_key : Follows .wildAccess Eq (StoneDb.nodeKey a o) (b.nodeKey o) := by
  cases hn : a.node o with
  | none =>
    rw [StoneDb.nodeKey, StoneDb.nodePtr, hn]
    exact .undefined _
  | some n =>
    rw [StoneDb.nodeKey, StoneDb.nodePtr, hn, (h.hasNode hn).nodeKey]
    exact .ok rfl

theorem follows_value : Follows .wildAccess Eq (StoneDb.nodeValue a o) (b.nodeValue o) := by
  cases hn : a.node o with
  | none =>
    rw [StoneDb.nodeValue, StoneDb.nodePtr, hn]
    exact .undefined _
  | some n =>
    rw [StoneDb.nodeValue, StoneDb.nodePtr, hn, (h.hasNode hn).nodeValue]
    exact .ok rfl

theorem follows_prev : Follows .wildAccess Eq (StoneDb.nodePrev a o) (b.nodePrev o) := by
  cases hn : a.node o with
  | none =>
    rw [StoneDb.nodePrev, StoneDb.nodePtr, hn]
    exact .undefined _
  | some n =>
    rw [StoneDb.nodePrev, StoneDb.nodePtr, hn, (h.hasNode hn).nodePrev]
    exact .ok rfl

theorem follows_next :
    Follows .wildAccess Eq (StoneDb.nodeNextOffset a o l) (b.nodeNextOffset o l) := by
  by_cases hs : a.HasSlot o l
  · obtain ⟨n, hn, hl⟩ := hs
    rw [nodeNextOffset_eq ⟨n, hn, hl⟩, (h.hasNode hn).nodeNextOffset hl, Arena.nextAt, hn]
    exact .ok rfl
  · rw [nodeNextOffset_error hs]
    exact .undefined _

theorem follows_setNext (hx : x < 2 ^ 64) : Follows .wildAccess (fun a' b' => b.Tracks a b' a')
    (StoneDb.nodeSetNext a o l x) (b.after (ByteArena.nodeSetNext o l x)) := by
  by_cases hs : a.HasSlot o l
  · obtain ⟨n, hn, hl⟩ := hs
    obtain ⟨mem', hrun, hrep, hframe⟩ := h.nodeSetNext hn hl hx
    have hsize := n.size_le_bytes
    have hslot := slot_le_kvDataOff hl
    rw [nodeSetNext_eq ⟨n, hn, hl⟩, after, hrun]
    exact .ok (hrep.tracks_store hn (Nat.le_add_right _ _) (by omega) hframe)
  · rw [nodeSetNext_error hs]
    exact .undefined _

theorem follows_setPrev (hx : x < 2 ^ 64) : Follows .wildAccess (fun a' b' => b.Tracks a b' a')
    (StoneDb.nodeSetPrev a o x) (b.after (ByteArena.nodeSetPrev o x)) := by
  cases hn : a.node o with
  | none =>
    rw [StoneDb.nodeSetPrev, StoneDb.nodePtr, hn]
    exact .undefined _
  | some n =>
    obtain ⟨mem', hrun, hrep, hframe⟩ := h.nodeSetPrev hn hx
    have hsize := n.size_le_bytes
    rw [nodeSetPrev_eq ⟨n, hn⟩, after, hrun]
    refine .ok (hrep.tracks_store hn (Nat.le_add_right _ _) ?_ hframe)
    simp only [kvDataOff, towerOff, prevOff, slotSize] at *
    omega

theorem follows_compareExchange {current : ℕ} (hx : x < 2 ^ 64) :
    Follows .wildAccess (fun r r' => r'.1 = r.1 ∧ b.Tracks a r'.2 r.2)
      (StoneDb.nodeCompareExchange a o l current x) (b.nodeCompareExchange o l current x) := by
  refine h.follows_next.bind_eq fun y _ => .ite (fun _ => ?_) fun _ => .pure ⟨rfl, h.tracks⟩
  exact (h.follows_setNext hx).bind fun a' b' _ ht => .pure ⟨rfl, ht⟩

end Encodes

end ByteArena

/-! ### The steps on bytes -/

/-- The list `sl` with the bytes `b` for its nodes. -/
def SkipList.onBytes (sl : SkipList) (b : ByteArena) : ByteList where
  height := sl.height
  head := sl.head
  arena := b
  cmp := sl.cmp
  allowConcurrentWrite := sl.allowConcurrentWrite

namespace SkipList

variable (sl : SkipList) (b : ByteArena)

@[simp] theorem onBytes_arena : (sl.onBytes b).arena = b := rfl

@[simp] theorem onBytes_cmp : (sl.onBytes b).cmp = sl.cmp := rfl

@[simp] theorem onBytes_allowConcurrentWrite :
    (sl.onBytes b).allowConcurrentWrite = sl.allowConcurrentWrite := rfl

end SkipList

namespace Concurrent

open SkipList

variable {sl : SkipList} {b : ByteArena} {bs : List (ℕ × ℕ)} {key value : Bytes} {o l x : ℕ}
  {p : ℕ × ℕ} {it : IterRef} {q : ReadCall} {c : PutCall} {pc : PutPc} {th : Thread}

theorem follows_finish {α : Type} {f g : α → Except Fault (IterRef × Ret)}
    {x y : Except Fault (Iter (ℕ × ℕ) α)} (hxy : Follows .wildAccess Eq x y)
    (hfg : ∀ a, Follows .wildAccess Eq (f a) (g a)) :
    Follows .wildAccess Eq (finish f x) (finish g y) := by
  refine hxy.bind_eq fun r _ => ?_
  cases r with
  | next p => exact .refl _
  | done a => exact (hfg a).andThen _

section Reads

variable (h : b.Encodes sl.arena bs)

include h

theorem follows_spliceStep : Follows .wildAccess Eq (sl.spliceStep key l o)
    ((sl.onBytes b).spliceStep key l o) := by
  refine h.follows_next.bind_eq fun n _ => .ite (fun _ => .refl _) fun _ => ?_
  exact h.follows_key.andThen _

theorem follows_nodePair :
    Follows .wildAccess Eq (sl.nodePair o) ((sl.onBytes b).nodePair o) :=
  h.follows_key.bind_eq fun _ _ => h.follows_value.andThen _

theorem follows_lowerBoundStep : Follows .wildAccess Eq (sl.lowerBoundStep key p)
    ((sl.onBytes b).lowerBoundStep key p) := by
  refine h.follows_next.bind_eq fun n _ => .ite (fun _ => .refl _) fun _ => ?_
  refine h.follows_key.bind_eq fun k _ => ?_
  simp only [onBytes_cmp]
  cases sl.cmp.compareKey k key with
  | lt => exact .refl _
  | gt =>
    exact .ite (fun _ => .refl _) fun _ => (follows_nodePair h).andThen _
  | eq => exact (follows_nodePair h).andThen _

theorem follows_findNearStep {less allowEqual : Bool} :
    Follows .wildAccess Eq (sl.findNearStep key less allowEqual p)
      ((sl.onBytes b).findNearStep key less allowEqual p) := by
  refine h.follows_next.bind_eq fun n _ => .ite (fun _ => .refl _) fun _ => ?_
  refine h.follows_key.bind_eq fun k _ => ?_
  simp only [onBytes_cmp]
  cases sl.cmp.compareKey k key with
  | lt | gt => exact .refl _
  | eq =>
    refine .ite (fun _ => .refl _) fun _ => .ite (fun _ => ?_) fun _ => .refl _
    -- the node after the equal one
    exact h.follows_next.andThen _

theorem follows_findLastStep :
    Follows .wildAccess Eq (sl.findLastStep p) ((sl.onBytes b).findLastStep p) :=
  h.follows_next.andThen _

theorem follows_lenStep : Follows .wildAccess Eq (sl.lenStep p) ((sl.onBytes b).lenStep p) :=
  h.follows_next.andThen _

theorem follows_conflict :
    Follows .wildAccess Eq (sl.conflict o key value) ((sl.onBytes b).conflict o key value) :=
  h.follows_value.andThen _

/-! #### Cursors -/

theorem follows_iterKey : Follows .wildAccess Eq (it.key sl) ((sl.onBytes b).key it) :=
  .ite (fun _ => h.follows_key.andThen _) fun _ => .refl _

theorem follows_iterValue : Follows .wildAccess Eq (it.value sl) ((sl.onBytes b).value it) :=
  .ite (fun _ => h.follows_value.andThen _) fun _ => .refl _

theorem follows_moveTo : Follows .wildAccess Eq (moveTo sl o) ((sl.onBytes b).moveTo o) := by
  refine Follows.andThen ?_ _
  exact (follows_iterKey h).bind_eq fun k _ => (follows_iterValue h).andThen _

/-- **A step of a read** finds the same on bytes. -/
theorem follows_readStep :
    Follows .wildAccess Eq (readStep sl it q p) ((sl.onBytes b).readStep it q p) := by
  have hmove : ∀ a, Follows .wildAccess Eq (moveTo sl a) ((sl.onBytes b).moveTo a) := fun a =>
    follows_moveTo h
  have hdone : ∀ a, Follows .wildAccess Eq
      (do return Iter.done (← moveTo sl a) : Except Fault (Iter (ℕ × ℕ) _))
      (do return Iter.done (← (sl.onBytes b).moveTo a)) := fun a =>
    (hmove a).andThen _
  cases q with
  | get | getWithKey | contains | lowerBound =>
    exact follows_finish (follows_lowerBoundStep h) fun _ => .refl _
  | len | isEmpty => exact follows_finish (follows_lenStep h) fun _ => .refl _
  | seek | seekForPrev => exact follows_finish (follows_findNearStep h) hmove
  | seekToLast => exact follows_finish (follows_findLastStep h) hmove
  | seekToFirst =>
    refine Follows.bind_eq ?_ fun it' _ => hdone it'.cursor
    exact h.follows_next.andThen _
  | next =>
    refine Follows.bind_eq ?_ fun it' _ => hdone it'.cursor
    exact .ite (fun _ => h.follows_next.andThen _) fun _ => .refl _
  | prev =>
    refine .ite (fun _ => ?_) fun hmode => ?_
    · refine (follows_iterKey h).bind_eq fun k _ => ?_
      cases k with
      | none => exact hdone _
      | some k => exact follows_finish (follows_findNearStep h) hmove
    · refine Follows.bind_eq ?_ fun it' _ => hdone it'.cursor
      simp only [IterRef.prev, hmode, Bool.false_eq_true, if_false]
      exact .ite (fun _ => h.follows_prev.andThen _) fun _ => .refl _

end Reads

/-! #### Inserting -/

/-- What a step of `put` does on bytes: the same, and its stores are those to the nodes. -/
def PutTracks (sl : SkipList) (b : ByteArena) {α : Type} (x : SkipList × α) (y : ByteList × α) :
    Prop :=
  ∃ b', y = (x.1.onBytes b', x.2) ∧ b.Tracks sl.arena b' x.1.arena

section Writes

variable {s : Splices} {node i : ℕ} {weak : Bool} (h : b.Encodes sl.arena bs)

include h

/-- A step that stores nothing. -/
theorem putTracks_same {α : Type} (r : α) : PutTracks sl b (sl, r) (sl.onBytes b, r) :=
  ⟨b, rfl, h.tracks⟩

theorem follows_search {height before : ℕ} : Follows .wildAccess (PutTracks sl b)
    (putStep sl c weak (.search height i s before))
    ((sl.onBytes b).putStep c weak (.search height i s before)) := by
  refine (follows_spliceStep h).bind_eq fun r _ => ?_
  cases r with
  | next before => exact .pure (putTracks_same h _)
  | done pn =>
    refine (Follows.refl _).bind_eq fun s' _ => .ite (fun _ => ?_) fun _ => ?_
    · exact (follows_conflict h).bind_eq fun r _ => .pure (putTracks_same h _)
    · cases i with
      | zero => exact .pure (putTracks_same h _)
      | succ i => exact (Follows.refl _).bind_eq fun _ _ => .pure (putTracks_same h _)

theorem follows_alloc {height : ℕ} : Follows .wildAccess (PutTracks sl b)
    (putStep sl c weak (.alloc height s)) ((sl.onBytes b).putStep c weak (.alloc height s)) := by
  have hreserve : ∀ size, (sl.onBytes b).list.arena.reserve sl.arena.ptr size =
      sl.arena.reserve sl.arena.ptr size := by
    intro size
    simp only [Arena.reserve, ByteList.list, onBytes, ByteArena.bump, h.capacity]
  simp only [putStep, ByteList.putStep, onBytes_arena, h.ptr]
  rw [hreserve]
  exact (Follows.refl _).bind_eq fun r _ => .pure (putTracks_same h _)

theorem follows_allocCas {height offset new : ℕ} {current : Option ℕ}
    (hoffset : offset = current.getD 8) : Follows .wildAccess (PutTracks sl b)
    (putStep sl c weak (.allocCas height s current offset new))
    ((sl.onBytes b).putStep c weak (.allocCas height s current offset new)) := by
  simp only [putStep, ByteList.putStep, onBytes_arena, Arena.compareExchangePtr,
    ByteArena.compareExchangePtr, h.ptr]
  by_cases hcas : sl.arena.ptr = current
  · -- the block is not at the null offset
    have h8 := h.laid.tiles.le
    have hne : offset ≠ 0 := by
      rw [hoffset, ← hcas]
      omega
    simp only [if_pos hcas, ByteArena.nodePtr_eq hne]
    exact .pure ⟨_, rfl, rfl, h.capacity, h.stored, fun _ _ => rfl⟩
  · simp only [if_neg hcas]
    exact .pure (putTracks_same h _)

/-- The block has been initialised on bytes, and now it is on nodes. -/
theorem follows_init {height : ℕ}
    (hstored : Stored b.mem node (Node.init c.key c.value c.height)) :
    Follows .wildAccess (PutTracks sl b) (putStep sl c weak (.init height s node))
      ((sl.onBytes b).putStep c weak (.init height s node)) := by
  have hwrite : b.Tracks sl.arena b (sl.arena.write node (Node.init c.key c.value c.height)) := by
    refine ⟨h.ptr, h.capacity, fun o n hn => ?_, fun _ _ => rfl⟩
    rw [Arena.node_write] at hn
    split_ifs at hn with ho
    · cases hn
      exact ho ▸ hstored
    · exact h.stored o n hn
  simp only [putStep, initNode]
  by_cases hsize : kvDataOff c.height + c.key.length + c.value.length ≤
      Arena.alignSize (nodeSize c.key c.value c.height)
  · rw [if_pos hsize]
    refine .ite (fun _ => .pure ⟨b, rfl, hwrite⟩) fun _ => ?_
    exact (Follows.refl (linkLevel sl c s node 0)).bind_eq fun _ _ => .pure ⟨b, rfl, hwrite⟩
  · rw [if_neg hsize]
    exact .undefined _

theorem follows_raise {current : ℕ} : Follows .wildAccess (PutTracks sl b)
    (putStep sl c weak (.raise s node current))
    ((sl.onBytes b).putStep c weak (.raise s node current)) := by
  have hlevel : ∀ height, Follows .wildAccess (PutTracks sl b)
      (do return ({ sl with height }, ← linkLevel sl c s node 0))
      (do return ({ sl.onBytes b with height }, ← linkLevel (sl.onBytes b).list c s node 0)) :=
    fun height => (Follows.refl (linkLevel sl c s node 0)).bind_eq fun _ _ =>
      .pure ⟨b, rfl, h.tracks⟩
  refine .ite (fun _ => .ite (fun _ => hlevel _) fun _ => .ite (fun _ => ?_) fun _ => hlevel _)
    fun _ => hlevel _
  exact .pure (putTracks_same h _)

theorem follows_splice {before : ℕ} : Follows .wildAccess (PutTracks sl b)
    (putStep sl c weak (.splice s node i before))
    ((sl.onBytes b).putStep c weak (.splice s node i before)) := by
  refine (follows_spliceStep h).bind_eq fun r _ => ?_
  cases r with
  | next before => exact .pure (putTracks_same h _)
  | done pn => exact (Follows.refl _).bind_eq fun s' _ => .pure (putTracks_same h _)

theorem follows_relink {before : ℕ} : Follows .wildAccess (PutTracks sl b)
    (putStep sl c weak (.relink s node i before))
    ((sl.onBytes b).putStep c weak (.relink s node i before)) := by
  refine (follows_spliceStep h).bind_eq fun r _ => ?_
  cases r with
  | next before => exact .pure (putTracks_same h _)
  | done pn =>
    refine .ite (fun _ => .ite (fun _ => .error _) fun _ => ?_) fun _ => ?_
    · exact (follows_conflict h).bind_eq fun r _ => .pure (putTracks_same h _)
    · refine (Follows.refl _).bind_eq fun s' _ => ?_
      exact (Follows.refl (linkLevel sl c s' node i)).bind_eq fun _ _ =>
        .pure (putTracks_same h _)

theorem follows_linkCas (hnode : node < 2 ^ 64) :
    Follows .wildAccess (PutTracks sl b) (putStep sl c weak (.linkCas s node i))
      ((sl.onBytes b).putStep c weak (.linkCas s node i)) := by
  refine (Follows.refl _).bind_eq fun p _ => (Follows.refl _).bind_eq fun n _ => ?_
  refine (h.follows_compareExchange hnode).bind fun r r' _ hr => ?_
  obtain ⟨linked, a'⟩ := r
  obtain ⟨linked', b'⟩ := r'
  obtain ⟨rfl, ht⟩ := hr
  cases linked' with
  | true =>
    exact (Follows.refl (linkLevel sl c s node (i + 1))).bind_eq fun _ _ => .pure ⟨b', rfl, ht⟩
  | false => exact .pure (putTracks_same h _)

/-- **A step of `put`** does the same on bytes. -/
theorem follows_putStep (hh : c.height < maxHeight) (hpc : PutSafe sl.arena c pc)
    (hinit : ∀ height s node, pc = .init height s node →
      Stored b.mem node (Node.init c.key c.value c.height)) :
    Follows .wildAccess (PutTracks sl b) (putStep sl c weak pc)
      ((sl.onBytes b).putStep c weak pc) := by
  cases pc with
  | search => exact follows_search h
  | alloc => exact follows_alloc h
  | allocCas => exact follows_allocCas h hpc.2.1
  | init height s node => exact follows_init h (hinit height s node rfl)
  | raise => exact follows_raise h
  | splice => exact follows_splice h
  | relink => exact follows_relink h
  | linkCas s node i => exact follows_linkCas h (h.target_lt hpc.1.slot.target)
  | linkNext s node i | storeNext s node i =>
    obtain ⟨hs, -⟩ := hpc
    refine (Follows.refl _).bind_eq fun x hx => ?_
    rw [index_ok hx]
    have hlt := h.target_lt (hs.splices i (hs.level_le.trans_lt hh)).2
    exact (h.follows_setNext hlt).bind fun _ b' _ ht => .pure ⟨b', rfl, ht⟩
  | storeLink s node i =>
    refine (Follows.refl _).bind_eq fun x _ => ?_
    refine (h.follows_setNext (h.target_lt hpc.1.slot.target)).bind fun _ b' _ ht => ?_
    exact (Follows.refl (linkLevel sl c s node (i + 1))).bind_eq fun _ _ => .pure ⟨b', rfl, ht⟩
  | backNode s node =>
    refine (Follows.refl _).bind_eq fun x hx => ?_
    rw [index_ok hx]
    refine (h.follows_setPrev (h.target_lt hpc.2.target)).bind fun _ b' _ ht => ?_
    exact (Follows.refl _).bind_eq fun _ _ => .pure ⟨b', rfl, ht⟩
  | backNext s node =>
    refine (Follows.refl _).bind_eq fun x _ => ?_
    exact (h.follows_setPrev (h.target_lt hpc.1.slot.target)).bind fun _ b' _ ht =>
      .pure ⟨b', rfl, ht⟩

end Writes

/-! #### A thread -/

theorem start_onBytes (call : Call) : call.start (sl.onBytes b).list it = call.start sl it := by
  cases call with
  | put => rfl
  | read q => cases q <;> rfl

/-- **A step of a thread** does the same on bytes. -/
theorem follows_advance {w : Bool} (h : b.Encodes sl.arena bs) (hpc : PcSafe sl.arena th.pc)
    (hinit : ∀ c height s node, th.pc = .put c (.init height s node) →
      Stored b.mem node (Node.init c.key c.value c.height)) :
    (th.advance sl w = none ∧ (sl.onBytes b).advance th w = none) ∨
      ∃ x y, th.advance sl w = some x ∧ (sl.onBytes b).advance th w = some y ∧
        Follows .wildAccess (PutTracks sl b) x y := by
  obtain ⟨pc, it⟩ := th
  cases pc with
  | idle | done | faulted => exact Or.inl ⟨rfl, rfl⟩
  | loadHeight call =>
    refine Or.inr ?_
    cases call with
    | put c =>
      exact ⟨_, _, rfl, rfl, (Follows.refl _).bind_eq fun _ _ => .pure (putTracks_same h _)⟩
    | read q => exact ⟨_, _, rfl, rfl, .pure (putTracks_same h _)⟩
  | read q p =>
    refine Or.inr ⟨_, _, rfl, rfl, (follows_readStep h).bind_eq fun r _ => ?_⟩
    cases r with
    | next | done => exact .pure (putTracks_same h _)
  | put c pc =>
    have hstep : Follows .wildAccess (PutTracks sl b) (putStep sl c w pc)
        ((sl.onBytes b).putStep c w pc) :=
      follows_putStep h hpc.1.height hpc.2 fun height s node hpc' =>
        hinit c height s node (by rw [hpc'])
    refine Or.inr ⟨_, _, rfl, rfl, hstep.bind fun r r' _ hr => ?_⟩
    obtain ⟨sl', r⟩ := r
    obtain ⟨b', rfl, ht⟩ := hr
    cases r with
    | next | done => exact .pure ⟨b', rfl, ht⟩

end Concurrent

end StoneDb
