import StoneDb.SkipList.Arena
import Mathlib.Data.Nat.Bitwise

/-!
# Reading and writing nodes

The fields of a node as total functions of the arena (`Arena.keyAt`, `Arena.valueAt`,
`Arena.nextAt`, `Arena.prevAt`), the conditions under which the checked accessors return them
(`Arena.Alive`, `Arena.HasSlot`), and what each store changes.  `allocNode_spec` says what an
allocation does: with sizes that a Rust slice can have, it either panics without touching the arena
or returns the old bump pointer.
-/

namespace StoneDb

namespace Arena

variable (a : Arena)

/-- There is a node at `o`. -/
def Alive (o : ℕ) : Prop := ∃ n, a.node o = some n

/-- There is a node at `o` and its tower has a slot for level `l`. -/
def HasSlot (o l : ℕ) : Prop := ∃ n, a.node o = some n ∧ l ≤ n.height

/-- The key of the node at `o`. -/
def keyAt (o : ℕ) : Bytes := ((a.node o).map Node.key).getD []

/-- The value of the node at `o`. -/
def valueAt (o : ℕ) : Bytes := ((a.node o).map Node.value).getD []

/-- The forward offset of the node at `o` at level `l`. -/
def nextAt (o l : ℕ) : ℕ := ((a.node o).map fun n => n.tower l).getD 0

/-- The back pointer of the node at `o`. -/
def prevAt (o : ℕ) : ℕ := ((a.node o).map Node.prev).getD 0

/-- The key and the value of the node at `o`. -/
def pairAt (o : ℕ) : Bytes × Bytes := (a.keyAt o, a.valueAt o)

/-- The arena after a store to the slot `l` of `o`. -/
def setNext (o l x : ℕ) : Arena :=
  match a.node o with
  | some n => a.write o { n with tower := Function.update n.tower l x }
  | none => a

/-- The arena after a store to the back pointer of `o`. -/
def setPrev (o x : ℕ) : Arena :=
  match a.node o with
  | some n => a.write o { n with prev := x }
  | none => a

/-- The arena with another bump pointer. -/
def setPtr (p : ℕ) : Arena := { a with ptr := some p }

variable {a}

theorem HasSlot.alive {o l : ℕ} (h : a.HasSlot o l) : a.Alive o :=
  let ⟨n, hn, _⟩ := h
  ⟨n, hn⟩

theorem HasSlot.mono {o l l' : ℕ} (h : a.HasSlot o l) (hl : l' ≤ l) : a.HasSlot o l' :=
  let ⟨n, hn, hle⟩ := h
  ⟨n, hn, hl.trans hle⟩

end Arena

/-! ### The checked accessors -/

section Accessors

variable {a : Arena} {o l x : ℕ}

theorem nodeKey_eq (h : a.Alive o) : nodeKey a o = .ok (a.keyAt o) := by
  obtain ⟨n, hn⟩ := h
  simp only [nodeKey, nodePtr, hn, Arena.keyAt]
  rfl

theorem nodeValue_eq (h : a.Alive o) : nodeValue a o = .ok (a.valueAt o) := by
  obtain ⟨n, hn⟩ := h
  simp only [nodeValue, nodePtr, hn, Arena.valueAt]
  rfl

theorem nodePrev_eq (h : a.Alive o) : nodePrev a o = .ok (a.prevAt o) := by
  obtain ⟨n, hn⟩ := h
  simp only [nodePrev, nodePtr, hn, Arena.prevAt]
  rfl

theorem nodeNextOffset_eq (h : a.HasSlot o l) : nodeNextOffset a o l = .ok (a.nextAt o l) := by
  obtain ⟨n, hn, hl⟩ := h
  simp only [nodeNextOffset, nodePtr, hn, Arena.nextAt, bind, Except.bind, hl, if_true]
  rfl

theorem nodeSetNext_eq (h : a.HasSlot o l) : nodeSetNext a o l x = .ok (a.setNext o l x) := by
  obtain ⟨n, hn, hl⟩ := h
  simp only [nodeSetNext, nodePtr, hn, Arena.setNext, bind, Except.bind, hl, if_true]
  rfl

theorem nodeKey_error (h : ¬ a.Alive o) : nodeKey a o = .error .wildAccess := by
  have hn : a.node o = none := Option.eq_none_iff_forall_ne_some.2 fun n hn => h ⟨n, hn⟩
  simp only [nodeKey, nodePtr, hn]
  rfl

theorem nodeNextOffset_error (h : ¬ a.HasSlot o l) : nodeNextOffset a o l = .error .wildAccess := by
  cases hn : a.node o with
  | none => simp only [nodeNextOffset, nodePtr, hn, bind, Except.bind]
  | some n =>
    have hl : ¬ l ≤ n.height := fun hl => h ⟨n, hn, hl⟩
    simp only [nodeNextOffset, nodePtr, hn, bind, Except.bind, hl, if_false]
    rfl

theorem nodeSetNext_error (h : ¬ a.HasSlot o l) : nodeSetNext a o l x = .error .wildAccess := by
  cases hn : a.node o with
  | none => simp only [nodeSetNext, nodePtr, hn, bind, Except.bind]
  | some n =>
    have hl : ¬ l ≤ n.height := fun hl => h ⟨n, hn, hl⟩
    simp only [nodeSetNext, nodePtr, hn, bind, Except.bind, hl, if_false]
    rfl

theorem nodeSetPrev_eq (h : a.Alive o) : nodeSetPrev a o x = .ok (a.setPrev o x) := by
  obtain ⟨n, hn⟩ := h
  simp only [nodeSetPrev, nodePtr, hn, Arena.setPrev]
  rfl

/-- A store that returns has changed the slot. -/
theorem nodeSetNext_ok {a' : Arena} (h : nodeSetNext a o l x = .ok a') : a' = a.setNext o l x := by
  by_cases hs : a.HasSlot o l
  · rw [nodeSetNext_eq hs] at h
    exact (Except.ok.inj h).symm
  · rw [nodeSetNext_error hs] at h
    cases h

/-- A store that returns has changed the back pointer. -/
theorem nodeSetPrev_ok {a' : Arena} (h : nodeSetPrev a o x = .ok a') : a' = a.setPrev o x := by
  cases hn : a.node o with
  | none => simp [nodeSetPrev, nodePtr, hn, bind, Except.bind] at h
  | some n =>
    rw [nodeSetPrev_eq ⟨n, hn⟩] at h
    exact (Except.ok.inj h).symm

theorem nodeCompareExchange_eq (h : a.HasSlot o l) (current : ℕ) :
    nodeCompareExchange a o l current x =
      .ok (if a.nextAt o l = current then (true, a.setNext o l x) else (false, a)) := by
  rw [nodeCompareExchange, nodeNextOffset_eq h, nodeSetNext_eq h]
  by_cases hc : a.nextAt o l = current
  · simp only [bind, Except.bind, hc, if_true, pure, Except.pure]
  · simp only [bind, Except.bind, hc, if_false, pure, Except.pure]

end Accessors

/-! ### What a store changes -/

namespace Arena

variable (a : Arena) (o l x : ℕ)

@[simp] theorem setNext_ptr : (a.setNext o l x).ptr = a.ptr := by
  unfold setNext; split <;> rfl

@[simp] theorem setNext_capacity : (a.setNext o l x).capacity = a.capacity := by
  unfold setNext; split <;> rfl

@[simp] theorem setPrev_ptr : (a.setPrev o x).ptr = a.ptr := by
  unfold setPrev; split <;> rfl

@[simp] theorem setPrev_capacity : (a.setPrev o x).capacity = a.capacity := by
  unfold setPrev; split <;> rfl

variable {a o l x}

theorem node_setNext (o' : ℕ) : (a.setNext o l x).node o' =
    (a.node o').map fun n =>
      if o' = o then { n with tower := Function.update n.tower l x } else n := by
  unfold setNext
  split
  · rename_i n hn
    by_cases ho : o' = o
    · subst ho
      simp [write, hn]
    · simp [write, ho]
  · rename_i hn
    by_cases ho : o' = o
    · subst ho
      simp [hn]
    · simp [ho]

theorem node_setPrev (o' : ℕ) : (a.setPrev o x).node o' =
    (a.node o').map fun n => if o' = o then { n with prev := x } else n := by
  unfold setPrev
  split
  · rename_i n hn
    by_cases ho : o' = o
    · subst ho
      simp [write, hn]
    · simp [write, ho]
  · rename_i hn
    by_cases ho : o' = o
    · subst ho
      simp [hn]
    · simp [ho]

@[simp] theorem keyAt_setNext (o' : ℕ) : (a.setNext o l x).keyAt o' = a.keyAt o' := by
  simp only [keyAt, node_setNext, Option.map_map]
  congr 2; funext n; simp only [Function.comp]; split_ifs <;> rfl

@[simp] theorem valueAt_setNext (o' : ℕ) : (a.setNext o l x).valueAt o' = a.valueAt o' := by
  simp only [valueAt, node_setNext, Option.map_map]
  congr 2; funext n; simp only [Function.comp]; split_ifs <;> rfl

@[simp] theorem prevAt_setNext (o' : ℕ) : (a.setNext o l x).prevAt o' = a.prevAt o' := by
  simp only [prevAt, node_setNext, Option.map_map]
  congr 2; funext n; simp only [Function.comp]; split_ifs <;> rfl

@[simp] theorem alive_setNext {o' : ℕ} : (a.setNext o l x).Alive o' ↔ a.Alive o' := by
  simp only [Alive, node_setNext, Option.map_eq_some_iff]
  exact ⟨fun ⟨_, n, hn, _⟩ => ⟨n, hn⟩, fun ⟨n, hn⟩ => ⟨_, n, hn, rfl⟩⟩

@[simp] theorem hasSlot_setNext {o' l' : ℕ} :
    (a.setNext o l x).HasSlot o' l' ↔ a.HasSlot o' l' := by
  simp only [HasSlot, node_setNext, Option.map_eq_some_iff]
  constructor
  · rintro ⟨_, ⟨n, hn, rfl⟩, hl⟩
    exact ⟨n, hn, by split_ifs at hl <;> exact hl⟩
  · rintro ⟨n, hn, hl⟩
    exact ⟨_, ⟨n, hn, rfl⟩, by split_ifs <;> exact hl⟩

theorem nextAt_setNext_self (h : a.Alive o) : (a.setNext o l x).nextAt o l = x := by
  obtain ⟨n, hn⟩ := h
  simp [nextAt, node_setNext, hn]

theorem nextAt_setNext_of_ne {o' l' : ℕ} (h : o' ≠ o ∨ l' ≠ l) :
    (a.setNext o l x).nextAt o' l' = a.nextAt o' l' := by
  simp only [nextAt, node_setNext, Option.map_map]
  congr 2
  funext n
  simp only [Function.comp]
  split_ifs with ho
  · exact Function.update_of_ne (h.resolve_left fun hne => hne ho) _ _
  · rfl

/-- At the level of the store, the links are updated at `o` only. -/
theorem nextAt_setNext (h : a.Alive o) :
    (fun p => (a.setNext o l x).nextAt p l) = Function.update (fun p => a.nextAt p l) o x := by
  funext p
  by_cases hp : p = o
  · subst hp
    rw [Function.update_self, nextAt_setNext_self h]
  · rw [Function.update_of_ne hp, nextAt_setNext_of_ne (Or.inl hp)]

@[simp] theorem keyAt_setPrev (o' : ℕ) : (a.setPrev o x).keyAt o' = a.keyAt o' := by
  simp only [keyAt, node_setPrev, Option.map_map]
  congr 2; funext n; simp only [Function.comp]; split_ifs <;> rfl

@[simp] theorem valueAt_setPrev (o' : ℕ) : (a.setPrev o x).valueAt o' = a.valueAt o' := by
  simp only [valueAt, node_setPrev, Option.map_map]
  congr 2; funext n; simp only [Function.comp]; split_ifs <;> rfl

@[simp] theorem nextAt_setPrev (o' l' : ℕ) : (a.setPrev o x).nextAt o' l' = a.nextAt o' l' := by
  simp only [nextAt, node_setPrev, Option.map_map]
  congr 2; funext n; simp only [Function.comp]; split_ifs <;> rfl

@[simp] theorem alive_setPrev {o' : ℕ} : (a.setPrev o x).Alive o' ↔ a.Alive o' := by
  simp only [Alive, node_setPrev, Option.map_eq_some_iff]
  exact ⟨fun ⟨_, n, hn, _⟩ => ⟨n, hn⟩, fun ⟨n, hn⟩ => ⟨_, n, hn, rfl⟩⟩

@[simp] theorem hasSlot_setPrev {o' l' : ℕ} : (a.setPrev o x).HasSlot o' l' ↔ a.HasSlot o' l' := by
  simp only [HasSlot, node_setPrev, Option.map_eq_some_iff]
  constructor
  · rintro ⟨_, ⟨n, hn, rfl⟩, hl⟩
    exact ⟨n, hn, by split_ifs at hl <;> exact hl⟩
  · rintro ⟨n, hn, hl⟩
    exact ⟨_, ⟨n, hn, rfl⟩, by split_ifs <;> exact hl⟩

theorem prevAt_setPrev_self (h : a.Alive o) : (a.setPrev o x).prevAt o = x := by
  obtain ⟨n, hn⟩ := h
  simp [prevAt, node_setPrev, hn]

theorem prevAt_setPrev_of_ne {o' : ℕ} (h : o' ≠ o) : (a.setPrev o x).prevAt o' = a.prevAt o' := by
  simp [prevAt, node_setPrev, h]

end Arena

/-! ### Allocation -/

namespace Arena

/-- The mask clears the low three bits. -/
theorem and_alignMask {y : ℕ} (hy : y < 2 ^ 64) :
    y &&& (2 ^ 64 - 1 - addrAlignMask) = y / 8 * 8 := by
  have h1 : 2 ^ 64 - 1 - addrAlignMask = (2 ^ 61 - 1) <<< 3 := by decide
  have h2 : y / 8 * 8 = (y >>> 3) <<< 3 := by rw [Nat.shiftLeft_eq, Nat.shiftRight_eq_div_pow]
  rw [h1, h2]
  refine Nat.eq_of_testBit_eq fun i => ?_
  rw [Nat.testBit_and, Nat.testBit_shiftLeft, Nat.testBit_shiftLeft, Nat.testBit_two_pow_sub_one,
    Nat.testBit_shiftRight]
  by_cases hi : 3 ≤ i
  · have hi' : 3 + (i - 3) = i := by omega
    by_cases hi2 : i - 3 < 61
    · simp [hi, hi2, hi']
    · have : y.testBit i = false :=
        Nat.testBit_lt_two_pow (hy.trans_le (Nat.pow_le_pow_right (by decide) (by omega)))
      simp [hi, hi2, hi', this]
  · simp [hi]

/-- The rounding of a size that has wrapped, or that wraps itself. -/
theorem alignSize_mod (size : ℕ) : alignSize (size % 2 ^ 64) = (size + 7) / 8 * 8 % 2 ^ 64 := by
  have hlt : wrappingAdd (size % 2 ^ 64) addrAlignMask < 2 ^ 64 := Nat.mod_lt _ (by decide)
  rw [alignSize, and_alignMask hlt, wrappingAdd, addrAlignMask]
  omega

theorem alignSize_eq {size : ℕ} (h : size + 7 < 2 ^ 64) : alignSize size = (size + 7) / 8 * 8 := by
  have hsize : size % 2 ^ 64 = size := Nat.mod_eq_of_lt (by omega)
  have hmod := alignSize_mod size
  rwa [hsize, Nat.mod_eq_of_lt (by omega)] at hmod

/-- What a load of the bump pointer leads to, as long as the sum does not wrap. -/
theorem reserve_eq (a : Arena) {current : Option ℕ} {size : ℕ}
    (h : current.getD 8 + size < 2 ^ 64) :
    a.reserve current size =
      if a.capacity < current.getD 8 + size then .error .outOfMemory
      else .ok (current.getD 8, current.getD 8 + size) := by
  simp only [reserve, wrappingAdd_eq h]

/-- Nothing else runs between the load and the compare-exchange: the first attempt succeeds. -/
theorem alloc_eq (a : Arena) (size : ℕ) :
    alloc size a =
      if a.capacity < wrappingAdd (a.ptr.getD 8) (alignSize size) then .error .outOfMemory a
      else .ok (a.ptr.getD 8) (a.setPtr (wrappingAdd (a.ptr.getD 8) (alignSize size))) := by
  set new := wrappingAdd (a.ptr.getD 8) (alignSize size) with hnew
  by_cases hfit : a.capacity < new
  · have hres : a.reserve a.ptr (alignSize size) = .error .outOfMemory := if_pos hfit
    simp only [alloc, loop, bind, EStateM.bind, allocStep, hres, hfit, if_true]
  · have hres : a.reserve a.ptr (alignSize size) = .ok (a.ptr.getD 8, new) := if_neg hfit
    have hcas : a.compareExchangePtr a.ptr new = (true, a.setPtr new) := if_pos rfl
    simp only [alloc, loop, bind, EStateM.bind, allocStep, hres, hcas, hfit, if_false]
    rfl

end Arena

/-! ### Adding a node -/

namespace Arena

variable {a : Arena} {o o' l p : ℕ} {n : Node}

theorem node_write : (a.write o n).node o' = if o' = o then some n else a.node o' := by
  simp [write, Function.update_apply]

@[simp] theorem write_ptr : (a.write o n).ptr = a.ptr := rfl

@[simp] theorem write_capacity : (a.write o n).capacity = a.capacity := rfl

@[simp] theorem setPtr_node : (a.setPtr p).node = a.node := rfl

@[simp] theorem setPtr_ptr : (a.setPtr p).ptr = some p := rfl

@[simp] theorem setPtr_capacity : (a.setPtr p).capacity = a.capacity := rfl

theorem Alive.write (h : a.Alive o') : (a.write o n).Alive o' := by
  by_cases ho : o' = o
  · exact ⟨n, by rw [node_write, if_pos ho]⟩
  · obtain ⟨n', hn'⟩ := h
    exact ⟨n', by rw [node_write, if_neg ho, hn']⟩

theorem keyAt_write_self : (a.write o n).keyAt o = n.key := by simp [keyAt, node_write]

theorem valueAt_write_self : (a.write o n).valueAt o = n.value := by simp [valueAt, node_write]

theorem keyAt_write_of_ne (h : o' ≠ o) : (a.write o n).keyAt o' = a.keyAt o' := by
  simp [keyAt, node_write, h]

theorem valueAt_write_of_ne (h : o' ≠ o) : (a.write o n).valueAt o' = a.valueAt o' := by
  simp [valueAt, node_write, h]

theorem nextAt_write_of_ne (h : o' ≠ o) : (a.write o n).nextAt o' l = a.nextAt o' l := by
  simp [nextAt, node_write, h]

theorem prevAt_write_of_ne (h : o' ≠ o) : (a.write o n).prevAt o' = a.prevAt o' := by
  simp [prevAt, node_write, h]

theorem hasSlot_write_of_ne (h : o' ≠ o) : (a.write o n).HasSlot o' l ↔ a.HasSlot o' l := by
  simp [HasSlot, node_write, h]

theorem alive_write_of_ne (h : o' ≠ o) : (a.write o n).Alive o' ↔ a.Alive o' := by
  simp [Alive, node_write, h]

end Arena

/-- The bytes a node takes. -/
def nodeBytes (key value : Bytes) (height : ℕ) : ℕ :=
  (kvDataOff height + key.length + value.length + 7) / 8 * 8

theorem kvDataOff_le {height : ℕ} (hh : height < maxHeight) : kvDataOff height ≤ 184 := by
  simp only [kvDataOff, towerOff, slotSize, maxHeight] at *; omega

theorem nodeBytes_le (key value : Bytes) {height : ℕ} (hh : height < maxHeight) :
    nodeBytes key value height ≤ key.length + value.length + 191 := by
  have hoff := kvDataOff_le hh
  simp only [nodeBytes]
  omega

/-- The size of a node does not wrap, unless its key and value fill the address space. -/
theorem alignSize_nodeSize (key value : Bytes) (height : ℕ)
    (hkv : nodeBytes key value height < 2 ^ 64) :
    Arena.alignSize (nodeSize key value height) = nodeBytes key value height := by
  simp only [nodeBytes] at hkv
  have h1 : kvDataOff height + key.length < 2 ^ 64 := by omega
  have h2 : kvDataOff height + key.length + value.length < 2 ^ 64 := by omega
  rw [nodeSize, wrappingAdd_eq h1, wrappingAdd_eq h2, Arena.alignSize_eq (by omega), nodeBytes]

/-- A block of the size of a node has room for it. -/
theorem initNode_eq (a : Arena) (offset : ℕ) (key value : Bytes) (height : ℕ)
    (hkv : nodeBytes key value height < 2 ^ 64) :
    initNode a offset (Arena.alignSize (nodeSize key value height)) key value height =
      .ok (a.write offset (Node.init key value height)) := by
  rw [alignSize_nodeSize key value height hkv]
  exact if_pos (by simp only [nodeBytes]; omega)

/-- **`alloc_node`.**  As long as the sizes do not wrap, either the block does not fit, and the
arena is unchanged, or the node is written at the old bump pointer. -/
theorem allocNode_spec (a : Arena) (key value : Bytes) (height : ℕ)
    (hkv : a.ptr.getD 8 + nodeBytes key value height < 2 ^ 64) :
    (a.capacity < a.ptr.getD 8 + nodeBytes key value height ∧
        allocNode key value height a = .error .outOfMemory a) ∨
      (a.ptr.getD 8 + nodeBytes key value height ≤ a.capacity ∧
        allocNode key value height a = .ok (a.ptr.getD 8)
          ((a.setPtr (a.ptr.getD 8 + nodeBytes key value height)).write (a.ptr.getD 8)
            (Node.init key value height))) := by
  have hsize := alignSize_nodeSize key value height (by omega)
  have halloc := Arena.alloc_eq a (nodeSize key value height)
  rw [hsize, wrappingAdd_eq hkv] at halloc
  by_cases hfit : a.capacity < a.ptr.getD 8 + nodeBytes key value height
  · rw [if_pos hfit] at halloc
    refine Or.inl ⟨hfit, ?_⟩
    simp only [allocNode, bind, EStateM.bind, halloc]
  · rw [if_neg hfit] at halloc
    have hlt : nodeBytes key value height < 2 ^ 64 := by omega
    refine Or.inr ⟨not_lt.1 hfit, ?_⟩
    simp only [allocNode, bind, EStateM.bind, halloc, initNode_eq _ _ _ _ _ hlt]

end StoneDb
