import StoneDb.SkipList.ByteNodes
import StoneDb.Lib.Execution

/-!
# The byte arena refines a store of records

A node is a record with the fields `key`, `value`, `height`, `prev` and `tower`; the records of a
run of allocations and stores are what these say (`NodeOp.store`).  `arena_refines_records`: the
accessors read the records back from the bytes, whatever the run.
-/

namespace StoneDb

/-! ### Records -/

/-- What a node is for: the values most recently stored to its fields. -/
structure Record where
  key : Bytes
  value : Bytes
  /-- The top level. -/
  height : ℕ
  prev : ℕ
  tower : ℕ → ℕ

/-- The records, by the offsets of their nodes. -/
abbrev Records := ℕ → Option Record

/-- The bytes of a record, without the padding behind it. -/
def Record.size (r : Record) : ℕ := kvDataOff r.height + (r.key.length + r.value.length)

/-- The node of a record. -/
def Record.node (r : Record) : Node where
  keyLen := r.key.length
  valueLen := r.value.length
  height := r.height
  prev := r.prev
  tower := r.tower
  kv := r.key ++ r.value

/-- An allocation, with the offset it has returned (`none` for the panic), or a store. -/
inductive NodeOp where
  | alloc (key value : Bytes) (height : ℕ) (answer : Option ℕ)
  | setPrev (node x : ℕ)
  | setNext (node level x : ℕ)

namespace NodeOp

/-- What the operation stores. -/
def store (rs : Records) : NodeOp → Records
  | alloc key value height (some o) =>
    Function.update rs o (some { key, value, height, prev := 0, tower := fun _ => 0 })
  | alloc _ _ _ none => rs
  | setPrev o x => Function.update rs o ((rs o).map fun r => { r with prev := x })
  | setNext o l x =>
    Function.update rs o ((rs o).map fun r => { r with tower := Function.update r.tower l x })

/-- The operation on bytes, if it has this answer. -/
def run (b : ByteArena) : NodeOp → Option ByteArena
  | alloc key value height answer =>
    match ByteArena.allocNode key value height b, answer with
    | .ok o b', some o' => if o = o' then some b' else none
    | .error .outOfMemory b', none => some b'
    | _, _ => none
  | setPrev o x =>
    match ByteArena.nodeSetPrev o x b with
    | .ok _ b' => some b'
    | .error .. => none
  | setNext o l x =>
    match ByteArena.nodeSetNext o l x b with
    | .ok _ b' => some b'
    | .error .. => none

/-- The safety conditions of the source: a store is to a node that has been allocated, at a level of
its own, and of a `usize`. -/
def Valid (rs : Records) : NodeOp → Prop
  | alloc _ _ height _ => height < maxHeight
  | setPrev o x => (rs o).isSome ∧ x < 2 ^ 64
  | setNext o l x => (∃ r ∈ rs o, l ≤ r.height) ∧ x < 2 ^ 64

instance (rs : Records) : DecidablePred (Valid rs)
  | alloc _ _ height _ => inferInstanceAs (Decidable (height < maxHeight))
  | setPrev o x => inferInstanceAs (Decidable ((rs o).isSome ∧ x < 2 ^ 64))
  | setNext o l x => inferInstanceAs (Decidable ((∃ r ∈ rs o, l ≤ r.height) ∧ x < 2 ^ 64))

/-- The bytes of the field that a store is to. -/
def field : NodeOp → Set ℕ
  | alloc .. => ∅
  | setPrev o _ => span (o + prevOff) slotSize
  | setNext o l _ => span (o + (towerOff + l * slotSize)) slotSize

end NodeOp

/-- A byte arena, with the records that have been stored in it. -/
structure NodeStore where
  /-- The bytes. -/
  arena : ByteArena
  /-- The records. -/
  records : Records

/-- One operation, if it is allowed and has this answer. -/
def NodeStore.step (s : NodeStore) (op : NodeOp) : Option NodeStore :=
  if op.Valid s.records then
    (op.run s.arena).map fun arena => { arena, records := op.store s.records }
  else none

/-! ### The invariant -/

variable {a : Arena} {s s' : NodeStore} {op : NodeOp} {r : Record} {o l x height : ℕ}
  {key value : Bytes}

/-- The record of a new node. -/
theorem Record.node_new (hh : height < maxHeight) (hk : key.length < 2 ^ 32)
    (hv : value.length < 2 ^ 32) :
    Record.node { key, value, height, prev := 0, tower := fun _ => 0 } =
      Node.init key value height := by
  rw [Record.node, Node.init, asU32_eq hk, asU32_eq hv,
    asU32_eq (hh.trans (show maxHeight < 2 ^ 32 by decide))]

theorem Record.key_node : r.node.key = r.key := by simp [Node.key, Record.node]

theorem Record.value_node : r.node.value = r.value := by simp [Node.value, Record.node]

theorem Record.size_node : kvDataOff r.node.height + r.node.kv.length = r.size := by
  simp [Record.node, Record.size]

/-- **The invariant** of a run: the bytes are the nodes of the records. -/
structure NodeStore.Inv (s : NodeStore) (a : Arena) (bs : List (ℕ × ℕ)) : Prop where
  encodes : s.arena.Encodes a bs
  node : ∀ o, a.node o = (s.records o).map Record.node
  capacity_le : s.arena.capacity ≤ 2 ^ 32

/-- The nodes of `s` keep their heights, and the bytes of their keys and values. -/
def NodeStore.Kept (s s' : NodeStore) : Prop :=
  ∀ o r, s.records o = some r →
    (∃ r', s'.records o = some r' ∧ r'.key = r.key ∧ r'.value = r.value ∧ r'.height = r.height) ∧
    ∀ p ∈ span (o + kvDataOff r.height) (r.key.length + r.value.length),
      s'.arena.mem p = s.arena.mem p

/-- No byte of a record changes, but those of the field that is stored. -/
def NodeStore.Framed (s s' : NodeStore) (op : NodeOp) : Prop :=
  ∀ o r, s.records o = some r → ∀ p ∈ span o r.size, p ∉ op.field →
    s'.arena.mem p = s.arena.mem p

theorem NodeStore.step_eq_some : s.step op = some s' ↔ op.Valid s.records ∧
    ∃ b, op.run s.arena = some b ∧ s' = ⟨b, op.store s.records⟩ := by
  unfold step
  split_ifs with hvalid
  · simp [hvalid, eq_comm]
  · simp [hvalid]

theorem NodeStore.step_isSome (hvalid : op.Valid s.records) (hrun : (op.run s.arena).isSome) :
    (s.step op).isSome := by
  rwa [step, if_pos hvalid, Option.isSome_map]

namespace NodeStore.Inv

variable {bs : List (ℕ × ℕ)} (h : s.Inv a bs)

include h

theorem node_eq (hr : s.records o = some r) : a.node o = some r.node := by
  rw [h.node, hr, Option.map_some]

theorem step_alloc {answer : Option ℕ}
    (hstep : s.step (.alloc key value height answer) = some s') :
    (∃ a' bs', s'.Inv a' bs') ∧ s.Framed s' (.alloc key value height answer) ∧
      ∀ o, answer = some o → s.records o = none := by
  obtain ⟨hh, b, hrun, rfl⟩ := step_eq_some.1 hstep
  simp only [NodeOp.run] at hrun
  split at hrun
  · rename_i o b' o' halloc
    split_ifs at hrun with ho
    cases hrun
    subst ho
    -- what has been written fits in the arena, so neither the sizes nor the lengths have wrapped
    obtain ⟨hnode, hbase, hcap⟩ := ByteArena.allocNode_ok hh halloc
    have hend := hnode.end_le
    rw [Node.height_init key value hh, hcap] at hend
    have hoff : 0 < kvDataOff height := by simp only [kvDataOff, towerOff]; omega
    have hlen : (Node.init key value height).kv.length = key.length + value.length :=
      List.length_append
    have hcap32 := h.capacity_le
    rw [h.encodes.ptr] at hbase
    have hwrap : a.ptr.getD 8 + nodeBytes key value height < 2 ^ 64 := by
      simp only [nodeBytes]
      omega
    rcases h.encodes.allocNode key value hh hwrap with
      ⟨hfull, -⟩ | ⟨o', b'', a', hrun, -, hrep, hnodes, hfresh, hframe⟩
    · rw [hfull] at halloc
      cases halloc
    rw [hrun] at halloc
    cases halloc
    refine ⟨⟨a', _, hrep, fun o' => ?_, hcap.trans_le hcap32⟩, fun o' r hr p hp _ => ?_, ?_⟩
    · simp only [hnodes, NodeOp.store, Function.update_apply]
      split_ifs
      · rw [Option.map_some, Record.node_new hh (by omega) (by omega)]
      · exact h.node o'
    · refine hframe o' r.node (h.node_eq hr) p (span_subset le_rfl (Nat.add_le_add_left ?_ o') hp)
      rw [← Record.size_node]
      exact r.node.size_le_bytes
    · intro o' ho'
      cases ho'
      rw [h.node] at hfresh
      exact Option.map_eq_none_iff.1 hfresh
  · rename_i b' halloc
    cases hrun
    obtain rfl := ByteArena.allocNode_full halloc
    exact ⟨⟨a, bs, h.encodes, h.node, h.capacity_le⟩, fun _ _ _ _ _ _ => rfl,
      fun _ hnone => by cases hnone⟩
  · cases hrun

theorem step_setPrev (hstep : s.step (.setPrev o x) = some s') :
    (∃ a' bs', s'.Inv a' bs') ∧ s.Framed s' (.setPrev o x) := by
  obtain ⟨⟨hsome, hx⟩, b, hrun, rfl⟩ := step_eq_some.1 hstep
  obtain ⟨r, hr⟩ := Option.isSome_iff_exists.1 hsome
  obtain ⟨mem', hset, hrep, hframe⟩ := h.encodes.nodeSetPrev (h.node_eq hr) hx
  simp only [NodeOp.run, hset, Option.some.injEq] at hrun
  subst hrun
  refine ⟨⟨_, _, hrep, fun o' => ?_, h.capacity_le⟩, fun o' r' hr' p _ hp => hframe p hp⟩
  simp only [Arena.node_setPrev, h.node, NodeOp.store, Function.update_apply]
  by_cases ho : o' = o
  · subst ho
    simp [hr, Record.node]
  · simp only [if_neg ho, Option.map_id']

theorem step_setNext (hstep : s.step (.setNext o l x) = some s') :
    (∃ a' bs', s'.Inv a' bs') ∧ s.Framed s' (.setNext o l x) := by
  obtain ⟨⟨⟨r, hr, hl⟩, hx⟩, b, hrun, rfl⟩ := step_eq_some.1 hstep
  obtain ⟨mem', hset, hrep, hframe⟩ := h.encodes.nodeSetNext (h.node_eq hr) hl hx
  simp only [NodeOp.run, hset, Option.some.injEq] at hrun
  subst hrun
  refine ⟨⟨_, _, hrep, fun o' => ?_, h.capacity_le⟩, fun o' r' hr' p _ hp => hframe p hp⟩
  simp only [Arena.node_setNext, h.node, NodeOp.store, Function.update_apply]
  by_cases ho : o' = o
  · subst ho
    simp [Option.mem_def.1 hr, Record.node]
  · simp only [if_neg ho, Option.map_id']

end NodeStore.Inv

/-- **Every operation keeps the invariant**, and the bytes of all records but those of its field. -/
theorem NodeStore.Inv.step {bs : List (ℕ × ℕ)} (h : s.Inv a bs) (hstep : s.step op = some s') :
    (∃ a' bs', s'.Inv a' bs') ∧ s.Framed s' op := by
  cases op with
  | alloc key value height answer => exact (h.step_alloc hstep).imp_right And.left
  | setPrev o x => exact h.step_setPrev hstep
  | setNext o l x => exact h.step_setNext hstep

/-! ### Reading the records back -/

/-- Every accessor returns the field of the record. -/
structure Record.ReadAt (r : Record) (b : ByteArena) (o : ℕ) : Prop where
  key : b.nodeKey o = .ok r.key
  value : b.nodeValue o = .ok r.value
  keyLen : b.nodeKeyLen o = .ok r.key.length
  valueLen : b.nodeValueLen o = .ok r.value.length
  height : b.nodeHeight o = .ok r.height
  prev : b.nodePrev o = .ok r.prev
  tower : ∀ l ≤ r.height, b.nodeNextOffset o l = .ok (r.tower l)

/-- The integer fields of a node at `o` lie at multiples of their sizes. -/
structure FieldsAligned (o : ℕ) : Prop where
  keyLen : 4 ∣ o + keyLenOff
  valueLen : 4 ∣ o + valueLenOff
  height : 4 ∣ o + heightOff
  prev : slotSize ∣ o + prevOff
  tower : ∀ l, slotSize ∣ o + (towerOff + l * slotSize)

/-- The arena is a store of records. -/
structure NodeStore.Faithful (s : NodeStore) : Prop where
  /-- Every field of every node reads as what was last stored to it. -/
  reads : ∀ o r, s.records o = some r → r.ReadAt s.arena o
  /-- All integer fields are aligned. -/
  aligned : ∀ o r, s.records o = some r → FieldsAligned o
  /-- Different nodes have no byte in common. -/
  disjoint : ∀ o r o' r', s.records o = some r → s.records o' = some r' → o ≠ o' →
    Disjoint (span o r.size) (span o' r'.size)
  /-- An allocation returns the offset of a new node. -/
  fresh : ∀ key value height o s', s.step (.alloc key value height (some o)) = some s' →
    s.records o = none
  /-- An operation changes no byte of any node but those of the field that it stores. -/
  frame : ∀ op s', s.step op = some s' → s.Framed s' op
  /-- Keys and values never change. -/
  immutable : ∀ ops s', exec NodeStore.step s ops = some s' → ∀ o r, s.records o = some r →
    ∀ p ∈ span (o + kvDataOff r.height) (r.key.length + r.value.length),
      s'.arena.mem p = s.arena.mem p
  /-- An allocation returns or panics. -/
  alloc : ∀ key value height, height < maxHeight → key.length + value.length ≤ isizeMax →
    ∃ answer, (s.step (.alloc key value height answer)).isSome
  /-- A store to a field returns. -/
  stores : ∀ o r x, s.records o = some r → x < 2 ^ 64 → (s.step (.setPrev o x)).isSome ∧
    ∀ l ≤ r.height, (s.step (.setNext o l x)).isSome

namespace NodeStore.Inv

variable {bs : List (ℕ × ℕ)}

theorem ptr_le (h : s.Inv a bs) : a.ptr.getD 8 ≤ 2 ^ 32 := by
  have hcap := h.capacity_le
  rw [h.encodes.capacity] at hcap
  cases hp : a.ptr with
  | none => exact show 8 ≤ 2 ^ 32 by decide
  | some p => exact (h.encodes.laid.ptr_le p hp).trans hcap

theorem readAt (h : s.Inv a bs) (hr : s.records o = some r) : r.ReadAt s.arena o := by
  have hnode := h.encodes.hasNode (h.node_eq hr)
  refine ⟨?_, ?_, hnode.nodeKeyLen, hnode.nodeValueLen, hnode.nodeHeight, hnode.nodePrev,
    fun l hl => hnode.nodeNextOffset hl⟩
  · rw [hnode.nodeKey, Record.key_node]
  · rw [hnode.nodeValue, Record.value_node]

theorem disjoint (h : s.Inv a bs) {o' : ℕ} {r' : Record} (hr : s.records o = some r)
    (hr' : s.records o' = some r') (hne : o ≠ o') : Disjoint (span o r.size) (span o' r'.size) := by
  have hsub : ∀ {o r}, span o (Record.size r) ⊆ span o r.node.bytes := by
    intro o r
    have hsize := r.node.size_le_bytes
    rw [Record.size_node] at hsize
    exact span_subset le_rfl (Nat.add_le_add_left hsize o)
  exact (h.encodes.laid.disjoint (h.node_eq hr) (h.node_eq hr') hne).mono hsub hsub

/-- What is stored to a field is none of the bytes behind the towers. -/
theorem notMem_field (h : s.Inv a bs) (hvalid : op.Valid s.records) (hr : s.records o = some r)
    {p : ℕ} (hp : p ∈ span (o + kvDataOff r.height) (r.key.length + r.value.length)) :
    p ∉ op.field := by
  have hfront : ∀ o' r', s.records o' = some r' → p ∉ span o' (kvDataOff r'.height) := by
    intro o' r' hr' hp'
    by_cases ho : o = o'
    · subst ho
      cases hr.symm.trans hr'
      rw [mem_span] at hp hp'
      omega
    · have hp : p ∈ span o r.size :=
        span_subset (Nat.le_add_right _ _) (by rw [Record.size]; omega) hp
      have hp' : p ∈ span o' r'.size := span_subset le_rfl (by rw [Record.size]; omega) hp'
      exact Set.disjoint_left.1 (h.disjoint hr hr' ho) hp hp'
  cases op with
  | alloc key value height answer => exact Set.notMem_empty p
  | setPrev o' x =>
    obtain ⟨r', hr'⟩ := Option.isSome_iff_exists.1 hvalid.1
    refine fun hf => hfront o' r' hr' (span_subset (Nat.le_add_right _ _) ?_ hf)
    simp only [prevOff, kvDataOff, towerOff, slotSize]
    omega
  | setNext o' l x =>
    obtain ⟨r', hr', hl⟩ := hvalid.1
    refine fun hf => hfront o' r' hr' (span_subset (Nat.le_add_right _ _) ?_ hf)
    simp only [kvDataOff, slotSize]
    omega

/-- The key, the value and the height of a node stay. -/
theorem step_records (h : s.Inv a bs) (hstep : s.step op = some s') (hr : s.records o = some r) :
    ∃ r', s'.records o = some r' ∧ r'.key = r.key ∧ r'.value = r.value ∧ r'.height = r.height := by
  obtain ⟨-, b, -, rfl⟩ := step_eq_some.1 hstep
  cases op with
  | alloc key value height answer =>
    cases answer with
    | none => exact ⟨r, hr, rfl, rfl, rfl⟩
    | some o' =>
      have hfresh := (h.step_alloc hstep).2.2 o' rfl
      have hne : o ≠ o' := by
        rintro rfl
        rw [hr] at hfresh
        cases hfresh
      exact ⟨r, (Function.update_of_ne hne _ _).trans hr, rfl, rfl, rfl⟩
  | setPrev o' x =>
    by_cases ho : o = o'
    · subst ho
      exact ⟨{ r with prev := x }, by simp [NodeOp.store, hr], rfl, rfl, rfl⟩
    · exact ⟨r, (Function.update_of_ne ho _ _).trans hr, rfl, rfl, rfl⟩
  | setNext o' l x =>
    by_cases ho : o = o'
    · subst ho
      exact ⟨{ r with tower := Function.update r.tower l x }, by simp [NodeOp.store, hr], rfl, rfl,
        rfl⟩
    · exact ⟨r, (Function.update_of_ne ho _ _).trans hr, rfl, rfl, rfl⟩

/-- A whole run keeps the invariant, and the bytes of keys and values. -/
theorem exec (h : s.Inv a bs) {ops : List NodeOp} (hexec : exec NodeStore.step s ops = some s') :
    (∃ a' bs', s'.Inv a' bs') ∧ s.Kept s' := by
  refine exec_induction (P := fun _ => True)
    (I := fun _ s' => (∃ a' bs', s'.Inv a' bs') ∧ s.Kept s')
    ⟨⟨a, bs, h⟩, fun o r hr => ⟨⟨r, hr, rfl, rfl, rfl⟩, fun _ _ => rfl⟩⟩
    (fun _ s₁ op s₂ _ _ hI hstep => ?_) (fun _ _ => trivial) hexec
  obtain ⟨⟨a₁, bs₁, h₁⟩, hkeep⟩ := hI
  refine ⟨(h₁.step hstep).1, fun o r hr => ?_⟩
  obtain ⟨⟨r₁, hr₁, hkey, hvalue, hheight⟩, hmem⟩ := hkeep o r hr
  obtain ⟨r₂, hr₂, hkey₂, hvalue₂, hheight₂⟩ := h₁.step_records hstep hr₁
  refine ⟨⟨r₂, hr₂, hkey₂.trans hkey, hvalue₂.trans hvalue, hheight₂.trans hheight⟩,
    fun p hp => ?_⟩
  rw [← hmem p hp]
  rw [← hkey, ← hvalue, ← hheight] at hp
  refine (h₁.step hstep).2 o r₁ hr₁ p (span_subset (Nat.le_add_right _ _) ?_ hp)
    (h₁.notMem_field (step_eq_some.1 hstep).1 hr₁ hp)
  rw [Record.size]
  omega

theorem faithful (h : s.Inv a bs) : s.Faithful where
  reads o r hr := h.readAt hr
  aligned o r hr := by
    have hdvd := (h.encodes.hasNode (h.node_eq hr)).aligned
    refine ⟨?_, ?_, ?_, ?_, fun l => ?_⟩ <;>
      simp only [keyLenOff, valueLenOff, heightOff, prevOff, towerOff, slotSize] <;> omega
  disjoint o r o' r' hr hr' hne := h.disjoint hr hr' hne
  fresh key value height o s' hstep := (h.step_alloc hstep).2.2 o rfl
  frame op s' hstep := (h.step hstep).2
  immutable ops s' hexec o r hr := ((h.exec hexec).2 o r hr).2
  alloc key value height hh hkv := by
    have hbytes := nodeBytes_le key value hh
    have hptr := h.ptr_le
    simp only [isizeMax] at hkv
    rcases h.encodes.allocNode key value hh (by omega) with ⟨hfull, -⟩ | ⟨o, b', a', hrun, -⟩
    · exact ⟨none, step_isSome hh (by simp only [NodeOp.run, hfull, Option.isSome_some])⟩
    · exact ⟨some o, step_isSome hh (by
        simp only [NodeOp.run, hrun, if_true, Option.isSome_some])⟩
  stores o r x hr hx := by
    obtain ⟨mem', hprev, -⟩ := h.encodes.nodeSetPrev (h.node_eq hr) hx
    refine ⟨step_isSome ⟨Option.isSome_of_eq_some hr, hx⟩ (by
      simp only [NodeOp.run, hprev, Option.isSome_some]), fun l hl => ?_⟩
    obtain ⟨mem', hnext, -⟩ := h.encodes.nodeSetNext (h.node_eq hr) hl hx
    exact step_isSome ⟨⟨r, hr, hl⟩, hx⟩ (by
      simp only [NodeOp.run, hnext, Option.isSome_some])

end NodeStore.Inv

/-- **The byte arena refines a store of records**: after every run of allocations and stores in a
new arena, whatever its memory holds, every field of every node reads as what was last stored to it,
and an operation changes no other byte of a node. -/
theorem arena_refines_records {capacity : ℕ} (hcap : capacity ≤ 2 ^ 32) {mem : ByteMemory}
    {b : ByteArena} (hnew : ByteArena.withCapacity capacity mem = .ok b) {ops : List NodeOp}
    {s : NodeStore} (hexec : exec NodeStore.step ⟨b, fun _ => none⟩ ops = some s) : s.Faithful := by
  obtain ⟨a, ha, hrep⟩ := ByteArena.Encodes.withCapacity hnew
  unfold Arena.withCapacity at ha
  split_ifs at ha
  cases ha
  have hinv : NodeStore.Inv ⟨b, fun _ => none⟩ ⟨none, capacity, fun _ => none⟩ [] :=
    ⟨hrep, fun _ => rfl, hrep.capacity.trans_le hcap⟩
  obtain ⟨⟨a, bs, h⟩, -⟩ := hinv.exec hexec
  exact h.faithful

/-- Two nodes in memory that is not cleared, with stores to both, and an allocation that panics. -/
def nodeOpsSample : List NodeOp :=
  [.alloc [1, 2] [3] 2 (some 8), .alloc [7] [] 0 (some 64), .setNext 8 1 64, .setPrev 64 8,
    .alloc [] (List.replicate 40 9) 0 none, .setNext 8 1 0]

theorem arena_refines_records_sample : ∃ b s,
    ByteArena.withCapacity 128 (fun _ => 255) = .ok b ∧
      exec NodeStore.step ⟨b, fun _ => none⟩ nodeOpsSample = some s ∧ s.Faithful := by
  have hok : (ByteArena.withCapacity 128 (fun _ => 255)).toOption.any (fun b =>
      (exec NodeStore.step ⟨b, fun _ => none⟩ nodeOpsSample).isSome) = true := by decide +kernel
  obtain ⟨b, hb⟩ : ∃ b, ByteArena.withCapacity 128 (fun _ => 255) = .ok b := ⟨_, rfl⟩
  simp only [hb, Except.toOption, Option.any_some] at hok
  obtain ⟨s, hs⟩ := Option.isSome_iff_exists.1 hok
  exact ⟨b, s, hb, hs, arena_refines_records (by decide) hb hs⟩

end StoneDb
