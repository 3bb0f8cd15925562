import StoneDb.SkipList.Keeping
import StoneDb.SkipList.Reachable
import StoneDb.SkipList.ByteNodes

/-!
# The lengths of keys and values

A node stores its two lengths as `u32`, so no node has a key or a value of `2^32` bytes or more
(`Arena.Short`), whatever has been allocated (`keeps_put`).  A key or a value that is longer is cut
short, in silence, if the arena has room for it: `stored_iff_short` says when what is stored is what
was given.
-/

namespace StoneDb

/-- The lengths of all nodes are those of a `u32`. -/
def Arena.Short (a : Arena) : Prop :=
  ∀ o n, a.node o = some n → n.keyLen < 2 ^ 32 ∧ n.valueLen < 2 ^ 32

variable {a a' : Arena} {n : Node} {o l x height : ℕ} {key value : Bytes}

/-! ### Every effect keeps the arena short -/

theorem asU32_lt (x : ℕ) : asU32 x < 2 ^ 32 := Nat.mod_lt x (by decide)

theorem node_of_nodePtr (h : nodePtr a o = .ok n) : a.node o = some n := by
  unfold nodePtr at h
  split at h
  · rename_i n' hn
    cases h
    exact hn
  · cases h

namespace Arena.Short

variable (h : a.Short)

include h

theorem write (hk : n.keyLen < 2 ^ 32) (hv : n.valueLen < 2 ^ 32) : (a.write o n).Short := by
  intro o' n' hn'
  rw [node_write] at hn'
  split_ifs at hn'
  · cases hn'
    exact ⟨hk, hv⟩
  · exact h o' n' hn'

theorem length_key (hn : a.node o = some n) : n.key.length < 2 ^ 32 :=
  (List.length_take_le _ _).trans_lt (h o n hn).1

theorem length_value (hn : a.node o = some n) : n.value.length < 2 ^ 32 :=
  (List.length_take_le _ _).trans_lt (h o n hn).2

theorem allocNode (hrun : allocNode key value height a = .ok o a') : a'.Short := by
  obtain ⟨offset, a₁, halloc, hrun⟩ := bind_eq_ok.1 hrun
  have h₁ : a₁.Short := by
    rw [Arena.alloc_eq] at halloc
    split_ifs at halloc
    cases halloc
    exact h
  simp only [initNode] at hrun
  split_ifs at hrun
  cases hrun
  exact h₁.write (asU32_lt _) (asU32_lt _)

omit h in
theorem stable : StoreStable Arena.Short where
  setNext a o l x h o' n' hn' := by
    rw [node_setNext, Option.map_eq_some_iff] at hn'
    obtain ⟨n, hn, rfl⟩ := hn'
    split_ifs <;> exact h o' n hn
  setPrev a o x h o' n' hn' := by
    rw [node_setPrev, Option.map_eq_some_iff] at hn'
    obtain ⟨n, hn, rfl⟩ := hn'
    split_ifs <;> exact h o' n hn

end Arena.Short

/-- `x` keeps the arena of a list short. -/
def KeepsShort {α : Type} (x : SkipList.Prog α) : Prop :=
  Keeps (fun sl => sl.arena.Short) (fun _ => True) x

theorem KeepsShort.put (key value : Bytes) (height : ℕ) :
    KeepsShort (SkipList.put key value height) :=
  KeepsArena.put Arena.Short.stable fun _ _ _ ha => ha.allocNode

/-! ### What is read from a short arena -/

theorem Arena.Short.nodePair {sl : SkipList} (h : sl.arena.Short) {p : Bytes × Bytes}
    (hrun : sl.nodePair o = .ok p) : p.1.length < 2 ^ 32 ∧ p.2.length < 2 ^ 32 := by
  obtain ⟨k, hk, hrun⟩ := except_bind_eq_ok.1 hrun
  obtain ⟨v, hv, hrun⟩ := except_bind_eq_ok.1 hrun
  obtain ⟨n, hn, hk⟩ := except_bind_eq_ok.1 hk
  obtain ⟨n', hn', hv⟩ := except_bind_eq_ok.1 hv
  cases hk
  cases hv
  cases hrun
  exact ⟨h.length_key (node_of_nodePtr hn), h.length_value (node_of_nodePtr hn')⟩

theorem Arena.Short.lowerBoundStep {sl : SkipList} (h : sl.arena.Short) {q : ℕ × ℕ}
    {p : Bytes × Bytes} (hrun : sl.lowerBoundStep key q = .ok (.done (some p))) :
    p.1.length < 2 ^ 32 ∧ p.2.length < 2 ^ 32 := by
  obtain ⟨current, level⟩ := q
  have hdone : ∀ o, (do return .done (some (← sl.nodePair o)) :
      Except Fault (Iter (ℕ × ℕ) (Option (Bytes × Bytes)))) = .ok (.done (some p)) →
      p.1.length < 2 ^ 32 ∧ p.2.length < 2 ^ 32 := by
    intro o ho
    obtain ⟨p', hpair, ho⟩ := except_bind_eq_ok.1 ho
    cases ho
    exact h.nodePair hpair
  obtain ⟨next, -, hrun⟩ := except_bind_eq_ok.1 hrun
  by_cases h0 : next = 0
  · rw [if_pos h0] at hrun
    split_ifs at hrun <;> cases hrun
  · rw [if_neg h0] at hrun
    obtain ⟨k, -, hrun⟩ := except_bind_eq_ok.1 hrun
    split at hrun
    · cases hrun
    · split_ifs at hrun
      · cases hrun
      · exact hdone next hrun
    · exact hdone next hrun

/-- A value that is found is stored in full under its full key. -/
theorem Arena.Short.get {sl : SkipList} (h : sl.arena.Short)
    (hget : sl.get key = .ok (some value)) : key.length < 2 ^ 32 ∧ value.length < 2 ^ 32 := by
  simp only [SkipList.get, SkipList.getWithKey, bind, Except.bind] at hget
  cases hrun : sl.lowerBound key with
  | error e => simp [hrun] at hget
  | ok r =>
    cases r with
    | none => simp [hrun, SkipList.exactMatch, pure, Except.pure] at hget
    | some p =>
      obtain ⟨q, hq⟩ := exists_of_loop_eq_ok hrun
      have hp := h.lowerBoundStep hq
      by_cases hpk : p.1 = key
      · simp only [hrun, SkipList.exactMatch, hpk, if_true, pure, Except.pure, Option.map_some,
          Except.ok.injEq, Option.some.injEq] at hget
        exact hpk ▸ hget ▸ hp
      · simp [hrun, SkipList.exactMatch, hpk, pure, Except.pure] at hget

/-! ### What is stored is what was given -/

/-- A call with lengths of a `u32`. -/
def PutCall.Short (c : PutCall) : Prop :=
  c.height < maxHeight ∧ c.key.length < 2 ^ 32 ∧ c.value.length < 2 ^ 32

section

variable {cmp : KeyComparator} [Std.TransCmp cmp.compareKey] {sl sl' : SkipList} {capacity : ℕ}
  {mode : Bool} {c : PutCall}

theorem PutCall.Short.storable (hc : c.Short) (hcap : capacity ≤ isizeMax - 7) :
    c.Storable capacity := by
  obtain ⟨hh, hk, hv⟩ := hc
  simp only [isizeMax] at hcap
  exact ⟨hh, ⟨by omega, Or.inr ⟨hk, hv⟩⟩⟩

theorem SkipList.Reachable.capacity_le {P : PutCall → Prop}
    (h : sl.Reachable cmp capacity mode P) : capacity ≤ isizeMax - 7 := by
  induction h with
  | new hnew => exact (wf_withCapacity hnew).2.2.2.2
  | put _ _ _ ih => exact ih

theorem SkipList.Reachable.arena_short (h : sl.Reachable cmp capacity mode PutCall.Short) :
    sl.arena.Short := by
  induction h with
  | new hnew =>
    intro o n hn
    rw [node_withCapacity hnew hn]
    exact ⟨asU32_lt _, asU32_lt _⟩
  | @put sl hsl c hc ih =>
    obtain ⟨hcap, S, m, hm, -⟩ := hsl.refines fun c hc => hc.storable hsl.capacity_le
    have hst := hc.storable hsl.capacity_le
    rw [← hcap] at hst
    rw [PutCall.after]
    rcases hm.put_cases hst.1 hst.2.keySized with
      ⟨p, -, hrun⟩ | ⟨-, ⟨-, hrun⟩ | ⟨sl', S', node, hrun, -⟩⟩
    · rw [hrun]
      exact ih
    · rw [hrun]
      exact ih
    · rw [hrun]
      exact (KeepsShort.put c.key c.value c.height).ok ih hrun

/-- `alloc_node` has stored the key and the value in full. -/
def ByteArena.Exact (b : ByteArena) (o : ℕ) (key value : Bytes) : Prop :=
  b.nodeKey o = .ok key ∧ b.nodeValue o = .ok value

/-- A node that `alloc_node` has returned holds what was given exactly if the lengths fit. -/
theorem exact_iff_short {b b' : ByteArena} (hh : height < maxHeight)
    (hrun : ByteArena.allocNode key value height b = .ok o b') :
    b'.Exact o key value ↔ key.length < 2 ^ 32 ∧ value.length < 2 ^ 32 := by
  have hnode := (ByteArena.allocNode_ok hh hrun).1
  rw [ByteArena.Exact, hnode.nodeKey, hnode.nodeValue, Except.ok.injEq, Except.ok.injEq]
  constructor
  · rintro ⟨hkey, hvalue⟩
    refine ⟨?_, ?_⟩
    · rw [← hkey]
      exact (List.length_take_le _ _).trans_lt (asU32_lt _)
    · rw [← hvalue]
      exact (List.length_take_le _ _).trans_lt (asU32_lt _)
  · rintro ⟨hk, hv⟩
    exact ⟨Node.key_init value height hk,
      (Node.value_init value height hk).trans (storedValue_eq hv)⟩

/-- A call with lengths of a `u32` that returns `None` is found, unless its key is not the one that
it compares equal with. -/
theorem get_of_short (hsl : sl.Reachable cmp capacity mode PutCall.Short) (hc : c.Short)
    (hput : SkipList.put c.key c.value c.height sl = .ok none sl') :
    sl'.get c.key = .ok (some c.value) ↔
      ∀ p ∈ sl.pairs, cmp.compareKey p.1 c.key = .eq → p.1 = c.key := by
  obtain ⟨hcap, S, m, hm, -⟩ := hsl.refines fun c hc => hc.storable hsl.capacity_le
  have hst := hc.storable hsl.capacity_le
  rw [← hcap] at hst
  simp only [hm.mem_pairs]
  rcases hm.put_cases hst.1 hst.2.keySized with
    ⟨p, hp, hrun⟩ | ⟨habs, ⟨-, hrun⟩ | ⟨sl₁, S₁, x, hrun, hadd⟩⟩
  · -- present with the same value: the list is as before
    rw [hrun] at hput
    split_ifs at hput with hv
    · cases hput
      obtain ⟨hmem, heq⟩ := (m.getWithKey_eq_some_iff).1 hp
      rw [hm.get_eq_some_iff]
      constructor
      · intro hkey q hq hqe
        have hgot := m.getWithKey_of_mem hkey
        cases hgot.symm.trans ((m.getWithKey_eq_some_iff).2 ⟨hq, hqe⟩)
        rfl
      · intro hall
        rwa [← hall p hmem heq, ← hv]
    · cases hput
  · rw [hrun] at hput
    cases hput
  · cases hrun.symm.trans hput
    have hm' := hm.added hadd habs
    rw [hadd.storedValue hst.2] at hm'
    rw [hm'.get_eq_some_iff]
    refine ⟨fun _ p hp heq => ?_, fun _ => ?_⟩
    · exact absurd heq ((m.getWithKey_eq_none_iff).1 habs p hp)
    · exact ((m.insertIfAbsent_of_absent c.value habs).2 _).2 (Or.inl rfl)

/-- After a `put` that has returned `None`, the value is found exactly if the lengths fit, and no
other key that compares equal was there before. -/
theorem get_iff_short (hsl : sl.Reachable cmp capacity mode PutCall.Short)
    (hh : c.height < maxHeight) (hput : SkipList.put c.key c.value c.height sl = .ok none sl') :
    sl'.get c.key = .ok (some c.value) ↔ (c.key.length < 2 ^ 32 ∧ c.value.length < 2 ^ 32) ∧
      ∀ p ∈ sl.pairs, cmp.compareKey p.1 c.key = .eq → p.1 = c.key := by
  constructor
  · intro hget
    have hshort := ((KeepsShort.put c.key c.value c.height).ok hsl.arena_short hput).get hget
    exact ⟨hshort, (get_of_short hsl ⟨hh, hshort⟩ hput).1 hget⟩
  · rintro ⟨hshort, hall⟩
    exact (get_of_short hsl ⟨hh, hshort⟩ hput).2 hall

/-- **What is stored is what was given exactly if the lengths fit in a `u32`.**  For a node that
`alloc_node` returns, in any arena; and for a call of `put` that returns `None`, on a list built by
calls with such lengths, as long as the key is the only one that compares equal with it. -/
theorem stored_iff_short (cmp : KeyComparator) [Std.TransCmp cmp.compareKey] {capacity : ℕ}
    {mode : Bool} {sl : SkipList} (hsl : sl.Reachable cmp capacity mode PutCall.Short) :
    (∀ (b b' : ByteArena) (key value : Bytes) (height o : ℕ), height < maxHeight →
      ByteArena.allocNode key value height b = .ok o b' →
        (b'.Exact o key value ↔ key.length < 2 ^ 32 ∧ value.length < 2 ^ 32)) ∧
    ∀ (c : PutCall) (sl' : SkipList), c.height < maxHeight →
      SkipList.put c.key c.value c.height sl = .ok none sl' →
        (sl'.get c.key = .ok (some c.value) ↔
          (c.key.length < 2 ^ 32 ∧ c.value.length < 2 ^ 32) ∧
            ∀ p ∈ sl.pairs, cmp.compareKey p.1 c.key = .eq → p.1 = c.key) :=
  ⟨fun _ _ _ _ _ _ hh hrun => exact_iff_short hh hrun, fun _ _ hh hput => get_iff_short hsl hh hput⟩

/-- Has the program returned `r`? -/
def returns {σ α : Type} [DecidableEq α] (r : α) : EStateM.Result Fault σ α → Bool
  | .ok a _ => a = r
  | .error .. => false

theorem of_returns {σ α : Type} [DecidableEq α] {r : α} {x : EStateM.Result Fault σ α}
    (h : returns r x = true) : ∃ s, x = .ok r s := by
  cases x with
  | ok a s => exact ⟨s, by rw [of_decide_eq_true h]⟩
  | error e s => cases h

theorem stored_iff_short_first : ∃ sl sl' b b',
    SkipList.withCapacity bytewiseComparator 1024 false = .ok sl ∧
      SkipList.put [1] [2] 3 sl = .ok none sl' ∧ sl'.get [1] = .ok (some [2]) ∧
      ByteArena.withCapacity 1024 (fun _ => 0) = .ok b ∧
      ByteArena.allocNode [3] [4, 5] 1 b = .ok 8 b' ∧ b'.Exact 8 [3] [4, 5] := by
  have hputs : (SkipList.withCapacity bytewiseComparator 1024 false).toOption.any (fun sl =>
      decide (sl.pairs = []) && returns none (SkipList.put [1] [2] 3 sl)) = true := by
    decide +kernel
  have hallocs : (ByteArena.withCapacity 1024 (fun _ => 0)).toOption.any (fun b =>
      returns 8 (ByteArena.allocNode [3] [4, 5] 1 b)) = true := by decide +kernel
  obtain ⟨sl, hsl⟩ : ∃ sl, SkipList.withCapacity bytewiseComparator 1024 false = .ok sl := ⟨_, rfl⟩
  obtain ⟨b, hb⟩ : ∃ b, ByteArena.withCapacity 1024 (fun _ => 0) = .ok b := ⟨_, rfl⟩
  simp only [hsl, hb, Except.toOption, Option.any_some, Bool.and_eq_true,
    decide_eq_true_eq] at hputs hallocs
  obtain ⟨sl', hput⟩ := of_returns hputs.2
  obtain ⟨b', halloc⟩ := of_returns hallocs
  have hstored := stored_iff_short bytewiseComparator (.new hsl)
  refine ⟨sl, sl', b, b', hsl, hput, ?_, hb, halloc, ?_⟩
  · refine (hstored.2 ⟨[1], [2], 3⟩ sl' (by decide) hput).2 ⟨by decide, ?_⟩
    simp [hputs.1]
  · exact (hstored.1 b b' [3] [4, 5] 1 8 (by decide) halloc).2 (by decide)

end

/-- A key of `2^32` bytes reads back as the empty key. -/
theorem alloc_cut : ∃ b o b', ByteArena.withCapacity (2 ^ 33) (fun _ => 0) = .ok b ∧
    ByteArena.allocNode (List.replicate (2 ^ 32) 0) [] 0 b = .ok o b' ∧ b'.nodeKey o = .ok [] ∧
      ¬ b'.Exact o (List.replicate (2 ^ 32) 0) [] := by
  obtain ⟨key, hkey, hlen⟩ : ∃ key : Bytes, key = List.replicate (2 ^ 32) 0 ∧ key.length = 2 ^ 32 :=
    ⟨_, rfl, List.length_replicate⟩
  rw [← hkey]
  have hbytes : nodeBytes key [] 0 = 2 ^ 32 + 32 := by
    rw [nodeBytes, hlen]
    decide
  obtain ⟨b, hb, hptr, hcap⟩ : ∃ b, ByteArena.withCapacity (2 ^ 33) (fun _ => 0) = .ok b ∧
      b.ptr = none ∧ b.capacity = 2 ^ 33 := ⟨_, rfl, rfl, rfl⟩
  rcases b.allocNode_cases key [] (show 0 < maxHeight by decide) (by rw [hptr]; decide)
    (by rw [hptr]; decide) (by rw [hptr, hbytes]; decide) with ⟨hfull, -⟩ | ⟨-, mem', hrun, -⟩
  · rw [hptr, hbytes, hcap] at hfull
    exact absurd hfull (by decide)
  · refine ⟨b, _, _, hb, hrun, ?_, fun hexact => ?_⟩
    · rw [(ByteArena.allocNode_ok (by decide) hrun).1.nodeKey, Node.key, Node.init, hlen]
      rfl
    · have hshort := ((exact_iff_short (by decide) hrun).1 hexact).1
      rw [hlen] at hshort
      exact absurd hshort (by decide)

end StoneDb
