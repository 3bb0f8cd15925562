import StoneDb.SkipList.ByteArena
import StoneDb.Lib.Keeps

/-!
# The nodes in the bytes

The arena of nodes, on which the skiplist works, is an abstraction of the byte arena: the bytes
represent the nodes (`ByteArena.Encodes`).  The accessors on bytes return what those on nodes
return (`HasNode.nodeKey`, `HasNode.nodeNextOffset`, …), and every allocation and store on bytes is
one on nodes (`Encodes.allocNode`, `Encodes.nodeSetPrev`, `Encodes.nodeSetNext`).

`allocNode_ok` is about `alloc_node` alone, in any arena: if it returns, its node is there.
-/

namespace StoneDb

namespace ByteArena

variable {b b' : ByteArena} {a a' : Arena} {bs : List (ℕ × ℕ)} {n : Node} {o l x p k height : ℕ}
  {key value : Bytes}

/-! ### Reads -/

/-- There is a node at `o`, inside the arena. -/
structure HasNode (b : ByteArena) (o : ℕ) (n : Node) : Prop where
  ne_zero : o ≠ 0
  aligned : 8 ∣ o
  end_le : o + (kvDataOff n.height + n.kv.length) ≤ b.capacity
  kv : n.keyLen + n.valueLen ≤ n.kv.length
  stored : Stored b.mem o n

theorem nodePtr_eq (ho : o ≠ 0) : nodePtr o = .ok o := if_neg ho

theorem read_eq (hp : k ∣ p) (hend : p + k ≤ b.capacity) : b.read p k = .ok (b.mem.loadLe p k) :=
  if_pos ⟨hp, hend⟩

theorem slice_eq (hend : p + k ≤ b.capacity) : b.slice p k = .ok (b.mem.load p k) := if_pos hend

namespace HasNode

variable (h : b.HasNode o n)

include h

/-- The fields up to the tower are inside the arena. -/
theorem header_le : o + (towerOff + slotSize) ≤ b.capacity := by
  have hend := h.end_le
  simp only [kvDataOff, slotSize] at *
  omega

theorem nodeKeyLen : b.nodeKeyLen o = .ok n.keyLen := by
  have hend := h.header_le
  have hdvd := h.aligned
  simp only [towerOff] at hend
  rw [ByteArena.nodeKeyLen, nodePtr_eq h.ne_zero, ← h.stored.keyLen]
  exact read_eq (by simp only [keyLenOff]; omega) (by simp only [keyLenOff]; omega)

theorem nodeValueLen : b.nodeValueLen o = .ok n.valueLen := by
  have hend := h.header_le
  have hdvd := h.aligned
  simp only [towerOff] at hend
  rw [ByteArena.nodeValueLen, nodePtr_eq h.ne_zero, ← h.stored.valueLen]
  exact read_eq (by simp only [valueLenOff]; omega) (by simp only [valueLenOff]; omega)

theorem nodeHeight : b.nodeHeight o = .ok n.height := by
  have hend := h.header_le
  have hdvd := h.aligned
  simp only [towerOff] at hend
  rw [ByteArena.nodeHeight, nodePtr_eq h.ne_zero, ← h.stored.height]
  exact read_eq (by simp only [heightOff]; omega) (by simp only [heightOff]; omega)

theorem nodePrev : b.nodePrev o = .ok n.prev := by
  have hend := h.header_le
  have hdvd := h.aligned
  simp only [towerOff, slotSize] at hend
  rw [ByteArena.nodePrev, nodePtr_eq h.ne_zero, ← h.stored.prev]
  exact read_eq (by simp only [prevOff, slotSize]; omega) (by simp only [prevOff, slotSize]; omega)

/-- A slot of the node's tower is inside the arena. -/
theorem slot_le (hl : l ≤ n.height) : o + (towerOff + l * slotSize) + slotSize ≤ b.capacity := by
  have hend := h.end_le
  simp only [kvDataOff, slotSize] at *
  omega

theorem slot_dvd : slotSize ∣ o + (towerOff + l * slotSize) := by
  have hdvd := h.aligned
  simp only [towerOff, slotSize]
  omega

theorem nodeNextOffset (hl : l ≤ n.height) : b.nodeNextOffset o l = .ok (n.tower l) := by
  rw [ByteArena.nodeNextOffset, nodePtr_eq h.ne_zero, ← h.stored.tower l hl]
  exact read_eq h.slot_dvd (h.slot_le hl)

theorem nodeKey : b.nodeKey o = .ok n.key := by
  have hend := h.end_le
  have hkv := h.kv
  rw [ByteArena.nodeKey, h.nodeHeight, h.nodeKeyLen, nodePtr_eq h.ne_zero, Node.key,
    ← h.stored.kv, ByteMemory.take_load (by omega)]
  exact slice_eq (by omega)

theorem nodeValue : b.nodeValue o = .ok n.value := by
  have hend := h.end_le
  have hkv := h.kv
  rw [ByteArena.nodeValue, h.nodeHeight, h.nodeKeyLen, h.nodeValueLen, nodePtr_eq h.ne_zero,
    Node.value, ← h.stored.kv, ByteMemory.drop_load (by omega), ByteMemory.take_load (by omega),
    Nat.add_assoc]
  exact slice_eq (by omega)

end HasNode

/-! ### Allocation -/

theorem alloc_eq (b : ByteArena) (size : ℕ) :
    alloc size b =
      if b.capacity < wrappingAdd (b.ptr.getD 8) (Arena.alignSize size) then .error .outOfMemory b
      else .ok (b.ptr.getD 8)
        { b with ptr := some (wrappingAdd (b.ptr.getD 8) (Arena.alignSize size)) } := by
  by_cases hfit : b.capacity < wrappingAdd (b.ptr.getD 8) (Arena.alignSize size)
  · have halloc := (Arena.alloc_eq b.bump size).trans (if_pos hfit)
    rw [if_pos hfit]
    simp only [alloc, halloc]
    rfl
  · have halloc := (Arena.alloc_eq b.bump size).trans (if_neg hfit)
    rw [if_neg hfit]
    simp only [alloc, halloc]
    rfl

/-- `alloc_node`, as long as the sizes do not wrap. -/
theorem allocNode_cases (b : ByteArena) (key value : Bytes) (hh : height < maxHeight)
    (hptr : 8 ∣ b.ptr.getD 8) (hptr0 : b.ptr.getD 8 ≠ 0)
    (hwrap : b.ptr.getD 8 + nodeBytes key value height < 2 ^ 64) :
    (b.capacity < b.ptr.getD 8 + nodeBytes key value height ∧
        allocNode key value height b = .error .outOfMemory b) ∨
      (b.ptr.getD 8 + nodeBytes key value height ≤ b.capacity ∧
        ∃ mem', allocNode key value height b = .ok (b.ptr.getD 8)
            ⟨some (b.ptr.getD 8 + nodeBytes key value height), b.capacity, mem'⟩ ∧
          (∀ p ∉ span (b.ptr.getD 8) (kvDataOff height + (key ++ value).length),
            mem' p = b.mem p) ∧
          Stored mem' (b.ptr.getD 8) (Node.init key value height)) := by
  have halloc := b.alloc_eq (nodeSize key value height)
  rw [alignSize_nodeSize key value height (by omega), wrappingAdd_eq hwrap] at halloc
  by_cases hfit : b.capacity < b.ptr.getD 8 + nodeBytes key value height
  · rw [if_pos hfit] at halloc
    refine Or.inl ⟨hfit, ?_⟩
    simp only [allocNode, bind, EStateM.bind, halloc]
  · rw [if_neg hfit] at halloc
    have hbytes : kvDataOff height + (key ++ value).length ≤ nodeBytes key value height := by
      simp only [nodeBytes, List.length_append]
      omega
    obtain ⟨mem', hinit, hframe, hstored⟩ := initNode_spec
      (a := { b with ptr := some (b.ptr.getD 8 + nodeBytes key value height) }) key value hh hptr
      (show _ ≤ b.capacity by omega)
    refine Or.inr ⟨not_lt.1 hfit, mem', ?_, hframe, hstored⟩
    simp only [allocNode, bind, EStateM.bind, halloc, nodePtr_eq hptr0, ofExcept, pure,
      EStateM.pure, hinit]

/-- `x` keeps the capacity `c`, and fails with accesses outside the arena only. -/
def Confined {α : Type} (c : ℕ) (x : EStateM Fault ByteArena α) : Prop :=
  Keeps (fun b => b.capacity = c) (· = .wildAccess) x

theorem confined_write {c : ℕ} : Confined c (write p k x) := by
  intro b hb
  unfold write
  split_ifs
  · exact hb
  · rfl

theorem confined_copy {c : ℕ} {bytes : Bytes} : Confined c (copy p bytes) := by
  intro b hb
  unfold copy
  split_ifs
  · exact hb
  · rfl

theorem confined_initHeader {c base keyLen valueLen : ℕ} :
    Confined c (initHeader base keyLen valueLen height) :=
  confined_write.bind fun _ => confined_write.bind fun _ => confined_write.bind fun _ =>
    confined_write

theorem confined_initTower {c base : ℕ} (todo level : ℕ) :
    Confined c (initTower base todo level) := by
  induction todo generalizing level with
  | zero => exact .pure _
  | succ todo ih => exact confined_write.bind fun _ => ih (level + 1)

theorem confined_initNode (c base : ℕ) (key value : Bytes) (height : ℕ) :
    Confined c (initNode base key value height) :=
  confined_initHeader.bind fun _ => (confined_initTower _ _).bind fun _ =>
    confined_copy.bind fun _ => confined_copy

/-- A block that could be initialised is aligned, and as large as the node. -/
theorem initNode_ok {base : ℕ} {u : Unit} (hrun : initNode base key value height b = .ok u b') :
    8 ∣ base ∧ base + (kvDataOff height + (key ++ value).length) ≤ b.capacity := by
  have hwrite : ∀ {p k x b b'}, write p k x b = .ok () b' → k ∣ p := by
    intro p k x b b' hrun
    by_contra hp
    rw [write, if_neg fun hc => hp hc.1] at hrun
    cases hrun
  have hcopy : ∀ {p bytes b b'}, copy p bytes b = .ok () b' → p + bytes.length ≤ b.capacity := by
    intro p bytes b b' hrun
    by_contra hp
    rw [copy, if_neg hp] at hrun
    cases hrun
  obtain ⟨_, b₁, h₁, hrun⟩ := bind_eq_ok.1 hrun
  obtain ⟨_, b₂, h₂, hrun⟩ := bind_eq_ok.1 hrun
  obtain ⟨_, b₃, h₃, h₄⟩ := bind_eq_ok.1 hrun
  -- the back pointer is an aligned field, and the value ends inside the arena
  have hc₁ := confined_initHeader.ok rfl h₁
  have hc₂ := (confined_initTower _ _).ok hc₁ h₂
  have hc₃ := confined_copy.ok hc₂ h₃
  have hend := hcopy h₄
  obtain ⟨_, _, -, h₁⟩ := bind_eq_ok.1 h₁
  obtain ⟨_, _, -, h₁⟩ := bind_eq_ok.1 h₁
  obtain ⟨_, _, -, h₁⟩ := bind_eq_ok.1 h₁
  have hdvd := hwrite h₁
  rw [List.length_append]
  simp only [prevOff, slotSize] at hdvd
  exact ⟨by omega, by omega⟩

/-- **`alloc_node` writes its node**, whatever the sizes: if it returns, they did not wrap. -/
theorem allocNode_ok (hh : height < maxHeight) (hrun : allocNode key value height b = .ok o b') :
    b'.HasNode o (Node.init key value height) ∧ o = b.ptr.getD 8 ∧ b'.capacity = b.capacity := by
  obtain ⟨offset, b₁, halloc, hrun⟩ := bind_eq_ok.1 hrun
  obtain ⟨base, b₂, hbase, hrun⟩ := bind_eq_ok.1 hrun
  obtain ⟨_, b₃, hinit, hret⟩ := bind_eq_ok.1 hrun
  cases hret
  -- the offset is not null, and the base
  by_cases h0 : o = 0
  · rw [nodePtr, getMut, if_pos h0] at hbase
    cases hbase
  rw [nodePtr_eq h0] at hbase
  cases hbase
  rw [alloc_eq] at halloc
  split_ifs at halloc
  cases halloc
  obtain ⟨hdvd, hend⟩ := initNode_ok hinit
  obtain ⟨mem', hinit', -, hstored⟩ := initNode_spec key value hh hdvd hend
  cases hinit'.symm.trans hinit
  refine ⟨⟨h0, hdvd, ?_, (Node.ok_init key value hh).kv, hstored⟩, rfl, rfl⟩
  rw [Node.height_init key value hh]
  exact hend

/-- When `alloc_node` panics, it has changed nothing. -/
theorem allocNode_full (hrun : allocNode key value height b = .error .outOfMemory b') : b' = b := by
  rcases bind_eq_error hrun with halloc | ⟨offset, b₁, -, hrun⟩
  · rw [alloc_eq] at halloc
    split_ifs at halloc
    cases halloc
    rfl
  · -- past the allocator, nothing panics for lack of memory
    have hptr : ∀ e, nodePtr offset = .error e → e = .wildAccess := by
      intro e he
      rw [nodePtr, getMut] at he
      split_ifs at he
      cases he
      rfl
    have hrest := (Keeps.ofExcept hptr).bind fun base =>
      (confined_initNode b₁.capacity base key value height).bind fun _ => .pure offset
    cases hrest.error rfl hrun

/-! ### The nodes -/

/-- The bytes of `b` are the nodes of `a`, in the blocks `bs`. -/
structure Encodes (b : ByteArena) (a : Arena) (bs : List (ℕ × ℕ)) : Prop where
  ptr : b.ptr = a.ptr
  capacity : b.capacity = a.capacity
  capacity_le : a.capacity ≤ isizeMax - 7
  laid : a.Laid bs
  stored : ∀ o n, a.node o = some n → Stored b.mem o n

namespace Encodes

theorem withCapacity {capacity : ℕ} {mem : ByteMemory}
    (hnew : ByteArena.withCapacity capacity mem = .ok b) :
    ∃ a, Arena.withCapacity capacity = .ok a ∧ b.Encodes a [] := by
  unfold ByteArena.withCapacity Arena.withCapacity at hnew
  split_ifs at hnew with hcap
  · cases hnew
  · cases hnew
    exact ⟨⟨none, capacity, fun _ => none⟩, if_neg hcap, rfl, rfl, not_lt.1 hcap, .empty capacity,
      by simp⟩

variable (h : b.Encodes a bs)

include h

theorem hasNode (hn : a.node o = some n) : b.HasNode o n where
  ne_zero := by
    have h8 := h.laid.eight_le hn
    omega
  aligned := h.laid.aligned hn
  end_le := by
    have hend := h.laid.end_le_capacity hn
    have hsize := n.size_le_bytes
    rw [h.capacity]
    omega
  kv := (h.laid.node o n hn).2.kv
  stored := h.stored o n hn

/-- A write to the bytes of one node leaves the others alone. -/
theorem update {mem' : ByteMemory} (hn : a.node o = some n) (hptr : a'.ptr = a.ptr)
    (hcap : a'.capacity = a.capacity) (hlaid : a'.Laid bs)
    (hframe : ∀ p ∉ span o (kvDataOff n.height), mem' p = b.mem p)
    (hself : ∀ n', a'.node o = some n' → Stored mem' o n')
    (hother : ∀ o' n', a'.node o' = some n' → o' ≠ o → a.node o' = some n') :
    Encodes { b with mem := mem' } a' bs where
  ptr := h.ptr.trans hptr.symm
  capacity := h.capacity.trans hcap.symm
  capacity_le := hcap ▸ h.capacity_le
  laid := hlaid
  stored o' n' hn' := by
    by_cases ho : o' = o
    · subst ho
      exact hself n' hn'
    · have hn' := hother o' n' hn' ho
      refine (h.stored o' n' hn').congr fun p hp => hframe p fun hp' => ?_
      have hp := span_subset le_rfl (Nat.add_le_add_left n'.size_le_bytes o') hp
      have hsize := n.size_le_bytes
      exact Set.disjoint_left.1 (h.laid.disjoint hn' hn ho) hp
        (span_subset le_rfl (by omega) hp')

/-- **A store to a back pointer.** -/
theorem nodeSetPrev (hn : a.node o = some n) (hx : x < 2 ^ 64) :
    ∃ mem', ByteArena.nodeSetPrev o x b = .ok () { b with mem := mem' } ∧
      Encodes { b with mem := mem' } (a.setPrev o x) bs ∧
      ∀ p ∉ span (o + prevOff) slotSize, mem' p = b.mem p := by
  have hnode := h.hasNode hn
  have hdvd := hnode.aligned
  have hend := hnode.header_le
  have hwrite := write_eq (a := b) (p := o + prevOff) (k := slotSize) (x := x)
    (by simp only [prevOff, slotSize]; omega)
    (by simp only [prevOff, towerOff, slotSize] at *; omega)
  have hframe : ∀ p ∉ span (o + prevOff) slotSize,
      b.mem.storeLe (o + prevOff) slotSize x p = b.mem p := fun _ => ByteMemory.storeLe_of_notMem
  refine ⟨_, ?_, h.update hn (Arena.setPrev_ptr ..) (Arena.setPrev_capacity ..) (h.laid.setPrev x)
    (fun p hp => hframe p fun hp' => hp ?_) (fun n' hn' => ?_) (fun o' n' hn' ho => ?_), hframe⟩
  · simp only [ByteArena.nodeSetPrev, nodePtr_eq hnode.ne_zero, ofExcept, bind, EStateM.bind, pure,
      EStateM.pure, hwrite]
  · exact span_subset (by omega) (by simp only [kvDataOff, prevOff, towerOff, slotSize]; omega) hp'
  · rw [Arena.node_setPrev, hn, Option.map_some, if_pos rfl] at hn'
    exact Option.some.inj hn' ▸ hnode.stored.setPrev hx
  · simpa [Arena.node_setPrev, ho] using hn'

/-- **A store to a slot of the tower.** -/
theorem nodeSetNext (hn : a.node o = some n) (hl : l ≤ n.height) (hx : x < 2 ^ 64) :
    ∃ mem', ByteArena.nodeSetNext o l x b = .ok () { b with mem := mem' } ∧
      Encodes { b with mem := mem' } (a.setNext o l x) bs ∧
      ∀ p ∉ span (o + (towerOff + l * slotSize)) slotSize, mem' p = b.mem p := by
  have hnode := h.hasNode hn
  have hwrite := write_eq (x := x) (hnode.slot_dvd (l := l)) (hnode.slot_le hl)
  have hframe : ∀ p ∉ span (o + (towerOff + l * slotSize)) slotSize,
      b.mem.storeLe (o + (towerOff + l * slotSize)) slotSize x p = b.mem p :=
    fun _ => ByteMemory.storeLe_of_notMem
  refine ⟨_, ?_, h.update hn (Arena.setNext_ptr ..) (Arena.setNext_capacity ..) (h.laid.setNext l x)
    (fun p hp => hframe p fun hp' => hp ?_) (fun n' hn' => ?_) (fun o' n' hn' ho => ?_), hframe⟩
  · simp only [ByteArena.nodeSetNext, nodePtr_eq hnode.ne_zero, ofExcept, bind, EStateM.bind, pure,
      EStateM.pure, hwrite]
  · exact span_subset (by omega) (by simp only [kvDataOff, slotSize]; omega) hp'
  · rw [Arena.node_setNext, hn, Option.map_some, if_pos rfl] at hn'
    exact Option.some.inj hn' ▸ hnode.stored.setNext hl hx
  · simpa [Arena.node_setNext, ho] using hn'

/-- **`alloc_node`** on bytes is `alloc_node` on nodes, as long as the sizes do not wrap. -/
theorem allocNode (key value : Bytes) (hh : height < maxHeight)
    (hwrap : a.ptr.getD 8 + nodeBytes key value height < 2 ^ 64) :
    (ByteArena.allocNode key value height b = .error .outOfMemory b ∧
        StoneDb.allocNode key value height a = .error .outOfMemory a) ∨
      ∃ o b' a', ByteArena.allocNode key value height b = .ok o b' ∧
        StoneDb.allocNode key value height a = .ok o a' ∧
        b'.Encodes a' (bs ++ [(o, nodeBytes key value height)]) ∧
        a'.node = Function.update a.node o (some (Node.init key value height)) ∧
        a.node o = none ∧
        ∀ o' n', a.node o' = some n' → ∀ p ∈ span o' n'.bytes, b'.mem p = b.mem p := by
  have hptr := (h.laid.tiles.dvd (dvd_refl 8) h.laid.dvd).1
  have h8 := h.laid.tiles.le
  have hspec := b.allocNode_cases key value hh
  rw [h.ptr, h.capacity] at hspec
  rcases hspec hptr (by omega) hwrap with ⟨hfull, hrun⟩ | ⟨hfit, mem', hrun, hframe, hstored⟩
  · rcases allocNode_spec a key value height hwrap with ⟨-, hrun'⟩ | ⟨hfit, -⟩
    · exact Or.inl ⟨hrun, hrun'⟩
    · exact absurd hfull (not_lt.2 hfit)
  · rcases allocNode_spec a key value height hwrap with ⟨hfull, -⟩ | ⟨-, hrun'⟩
    · exact absurd hfull (not_lt.2 hfit)
    -- the nodes end before the bump pointer
    have hbefore : ∀ o' n', a.node o' = some n' → ∀ p ∈ span o' n'.bytes, mem' p = b.mem p := by
      intro o' n' hn' p hp
      have hend := h.laid.end_le hn'
      refine hframe p ?_
      rw [mem_span] at *
      omega
    have hfresh : a.node (a.ptr.getD 8) = none := by
      cases hn : a.node (a.ptr.getD 8) with
      | none => rfl
      | some n =>
        have hend := h.laid.end_le hn
        have hpos := n.bytes_pos
        omega
    refine Or.inr ⟨_, _, _, hrun, hrun', ⟨rfl, rfl, h.capacity_le, ?_, fun o' n' hn' => ?_⟩, rfl,
      hfresh, hbefore⟩
    · refine (h.laid.setPtr (Nat.dvd_mul_left _ _) hfit).write ?_ (Node.ok_init key value hh)
      rw [Node.bytes_init key value hh]
      exact List.mem_append_right _ (List.mem_singleton_self _)
    · rw [Arena.node_write] at hn'
      split_ifs at hn' with ho
      · cases hn'
        exact ho ▸ hstored
      · refine (h.stored o' n' hn').congr fun p hp => hbefore o' n' hn' p ?_
        exact span_subset le_rfl (Nat.add_le_add_left n'.size_le_bytes o') hp

end Encodes

end ByteArena

end StoneDb
