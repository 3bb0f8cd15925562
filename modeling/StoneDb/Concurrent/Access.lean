import StoneDb.Concurrent.Run

/-!
# Accesses to towers

The slots that the next step of a thread loads, stores or compare-exchanges (`Thread.accesses`), and
the indices that it uses into the arrays of `put` (`Thread.indices`).  Neither the comparator nor
the lengths of the keys matter here, so these are assertions of their own: `ReadSafe` and `PutSafe`
say of a thread that its local offsets lead to nodes with slots of the levels they are used at.

* `readStep_safe` : a step of a read makes no access outside a node.
* `ReadSafe.accesses`, `PutSafe.access`, `PutSafe.indices` : nor do the accesses lie outside.
* `ReadSafe.mono`, `PutSafe.mono` : the assertions survive the steps of the other threads.
-/

namespace StoneDb

/-- The height is one that `random_height` draws, and the arena and the slices are in one address
space, with room for the header and the tower of a node. -/
structure PutCall.Fits (capacity : ℕ) (c : PutCall) : Prop where
  height : c.height < maxHeight
  no_wrap : capacity + (c.key.length + c.value.length) + 192 ≤ 2 ^ 64

instance (capacity : ℕ) (c : PutCall) : Decidable (c.Fits capacity) :=
  decidable_of_iff (c.height < maxHeight ∧
    capacity + (c.key.length + c.value.length) + 192 ≤ 2 ^ 64)
    ⟨fun h => ⟨h.1, h.2⟩, fun h => ⟨h.height, h.no_wrap⟩⟩

namespace Concurrent

open SkipList

/-! ### The accesses of a step -/

/-- The slots, by node and level, that an iteration of `find_near` loads. -/
def nearAccesses (sl : SkipList) (key : Bytes) (less allowEqual : Bool) (p : ℕ × ℕ) :
    List (ℕ × ℕ) :=
  let nextOffset := sl.arena.nextAt p.1 p.2
  if nextOffset ≠ 0 ∧ sl.cmp.compareKey (sl.arena.keyAt nextOffset) key = .eq ∧
      !allowEqual ∧ !less then
    -- the node after the equal one
    [p, (nextOffset, 0)]
  else [p]

/-- The slots that a step of a read loads. -/
def ReadCall.accesses (sl : SkipList) (it : IterRef) (p : ℕ × ℕ) : ReadCall → List (ℕ × ℕ)
  | .get _ | .getWithKey _ | .contains _ | .lowerBound _ | .seekToLast => [p]
  | .len | .isEmpty => [(p.1, 0)]
  | .seek target => nearAccesses sl target false true p
  | .seekForPrev target => nearAccesses sl target true true p
  | .seekToFirst => [(sl.headOffset, 0)]
  | .next => if it.valid then [(it.cursor, 0)] else []
  | .prev =>
    if it.valid && sl.allowConcurrentWrite then
      nearAccesses sl (sl.arena.keyAt it.cursor) true false p
    -- the back pointer is not a slot of the tower
    else []

/-- The slot that a step of `put` loads, stores or compare-exchanges. -/
def PutPc.access (sl : SkipList) : PutPc → Option (ℕ × ℕ)
  | .search _ i _ before | .splice _ _ i before | .relink _ _ i before =>
    some (if before = 0 then sl.headOffset else before, i)
  | .linkNext _ node i | .storeNext _ node i => some (node, i)
  | .linkCas s _ i | .storeLink s _ i => some (s.prev i, i)
  | .alloc .. | .allocCas .. | .init .. | .raise .. | .backNode .. | .backNext .. => none

/-- The indices into `prev` and `next` that a step of `put` uses. -/
def PutPc.indices (c : PutCall) : PutPc → List ℕ
  | .search _ i _ _ | .splice _ _ i _ | .linkNext _ _ i | .relink _ _ i _ | .storeNext _ _ i => [i]
  -- and that of the level at which the splice goes on
  | .linkCas _ _ i | .storeLink _ _ i => if i < c.height then [i, i + 1] else [i]
  | .init .. | .raise .. | .backNode .. | .backNext .. => [0]
  | .alloc .. | .allocCas .. => []

/-- The slots that the next step of a thread accesses. -/
def Thread.accesses (sl : SkipList) (th : Thread) : List (ℕ × ℕ) :=
  match th.pc with
  | .read q p => q.accesses sl th.it p
  | .put _ pc => (pc.access sl).toList
  | .idle | .loadHeight _ | .done _ | .faulted _ => []

/-- The indices into the arrays of `put` that the next step of a thread uses. -/
def Thread.indices (sl : SkipList) (th : Thread) : List ℕ :=
  match th.pc with
  | .loadHeight (.put _) => [sl.listHeight + 1]
  | .put c pc => pc.indices c
  | .idle | .loadHeight (.read _) | .read .. | .done _ | .faulted _ => []

/-- The block that a `put` has reserved and not initialised, with its size. -/
def PutPc.block (c : PutCall) : PutPc → Option (ℕ × ℕ)
  | .init _ _ node => some (node, nodeBytes c.key c.value c.height)
  | _ => none

/-- The block that a thread has reserved and not initialised. -/
def Pc.block : Pc → Option (ℕ × ℕ)
  | .put c pc => pc.block c
  | _ => none

/-! ### What a thread knows -/

/-- A read stands where it can load. -/
def ReadSafe (a : Arena) (q : ReadCall) (p : ℕ × ℕ) : Prop :=
  match q with
  | .len | .isEmpty => a.HasSlot p.1 0
  | _ => a.HasSlot p.1 p.2

/-- The arrays of `put` hold offsets that slots of their levels may hold. -/
def SplicesSafe (a : Arena) (s : Splices) : Prop :=
  ∀ j < maxHeight, a.Target j (s.prev j) ∧ a.Target j (s.next j)

/-- The new node has all levels of the call, and `i` is one of them. -/
structure LevelSafe (a : Arena) (c : PutCall) (s : Splices) (node i : ℕ) : Prop where
  splices : SplicesSafe a s
  slot : a.HasSlot node c.height
  level_le : i ≤ c.height

/-- What `put` knows of its local offsets at each program counter. -/
def PutSafe (a : Arena) (c : PutCall) : PutPc → Prop
  | .search _ i s before => i < maxHeight ∧ a.Target i before ∧ SplicesSafe a s
  | .alloc _ s | .init _ s _ => SplicesSafe a s
  | .allocCas _ s current offset new => SplicesSafe a s ∧ offset = current.getD 8 ∧
    new = offset + nodeBytes c.key c.value c.height ∧ new ≤ a.capacity
  | .raise s node _ => LevelSafe a c s node 0
  | .splice s node i before | .relink s node i before =>
    LevelSafe a c s node i ∧ a.Target i before
  | .linkNext s node i | .linkCas s node i | .storeNext s node i | .storeLink s node i =>
    LevelSafe a c s node i ∧ a.HasSlot (s.prev i) i
  | .backNode s node => LevelSafe a c s node 0 ∧ a.HasSlot (s.prev 0) 0
  | .backNext s node => LevelSafe a c s node 0 ∧ a.HasSlot (s.prev 0) 0 ∧ s.next 0 ≠ 0

variable {sl : SkipList} {a a' : Arena} {it : IterRef} {q : ReadCall} {p : ℕ × ℕ} {c : PutCall}
  {s : Splices} {pc : PutPc} {node i : ℕ}

/-! ### Stability -/

theorem ReadSafe.mono (hq : ReadSafe a q p) (h : a.Extends a') : ReadSafe a' q p := by
  cases q <;> exact h.hasSlot hq

theorem SplicesSafe.mono (hs : SplicesSafe a s) (h : a.Extends a') : SplicesSafe a' s :=
  fun j hj => ⟨h.target (hs j hj).1, h.target (hs j hj).2⟩

theorem LevelSafe.mono (hs : LevelSafe a c s node i) (h : a.Extends a') :
    LevelSafe a' c s node i :=
  ⟨hs.splices.mono h, h.hasSlot hs.slot, hs.level_le⟩

/-- What a `put` knows survives the steps of all threads. -/
theorem PutSafe.mono (hpc : PutSafe a c pc) (h : a.Extends a') : PutSafe a' c pc := by
  cases pc with
  | search => exact ⟨hpc.1, h.target hpc.2.1, hpc.2.2.mono h⟩
  | alloc | init => exact SplicesSafe.mono hpc h
  | allocCas => exact ⟨hpc.1.mono h, hpc.2.1, hpc.2.2.1, by rw [h.capacity]; exact hpc.2.2.2⟩
  | raise => exact LevelSafe.mono hpc h
  | splice | relink => exact ⟨hpc.1.mono h, h.target hpc.2⟩
  | linkNext | linkCas | storeNext | storeLink | backNode =>
    exact ⟨hpc.1.mono h, h.hasSlot hpc.2⟩
  | backNext => exact ⟨hpc.1.mono h, h.hasSlot hpc.2.1, hpc.2.2⟩

/-! ### Reading -/

/-- A read can start at the head, on any level. -/
theorem readSafe_head (h : sl.Leveled) (q : ReadCall) {l : ℕ} (hl : l < maxHeight) :
    ReadSafe sl.arena q (sl.head, l) := by
  cases q with
  | len | isEmpty => exact h.head (by decide)
  | _ => exact h.head hl

theorem near_safe {key : Bytes} (less allowEqual : Bool) (h : sl.Leveled)
    (hp : sl.arena.HasSlot p.1 p.2) :
    (∃ p', finish (moveTo sl) (sl.findNearStep key less allowEqual p) = .ok (.next p') ∧
        sl.arena.HasSlot p'.1 p'.2) ∨
      ∃ it' r, finish (moveTo sl) (sl.findNearStep key less allowEqual p) = .ok (.done (it', r)) ∧
        sl.arena.Target 0 it'.cursor := by
  refine finish_spec ?_
  rcases h.findNearStep_spec less allowEqual hp with ⟨p', hstep, hp'⟩ | ⟨o, hstep, ho⟩
  · exact Or.inl ⟨p', hstep, hp'⟩
  · exact Or.inr ⟨o, ⟨o⟩, _, hstep, moveTo_eq ho, ho⟩

theorem lookup_safe {key : Bytes} {f : Option (Bytes × Bytes) → Ret} (h : sl.Leveled)
    (hit : sl.arena.Target 0 it.cursor) (hp : sl.arena.HasSlot p.1 p.2) :
    (∃ p', finish (fun r => answer it (f r)) (sl.lowerBoundStep key p) = .ok (.next p') ∧
        sl.arena.HasSlot p'.1 p'.2) ∨
      ∃ it' r, finish (fun r => answer it (f r)) (sl.lowerBoundStep key p) = .ok (.done (it', r)) ∧
        sl.arena.Target 0 it'.cursor := by
  refine finish_spec ?_
  rcases h.lowerBoundStep_spec hp with ⟨p', hstep, hp'⟩ | ⟨r, hstep⟩
  · exact Or.inl ⟨p', hstep, hp'⟩
  · exact Or.inr ⟨r, it, _, hstep, rfl, hit⟩

theorem count_safe {f : ℕ → Ret} (h : sl.Leveled) (hit : sl.arena.Target 0 it.cursor)
    (hp : sl.arena.HasSlot p.1 0) :
    (∃ p', finish (fun n => answer it (f n)) (sl.lenStep p) = .ok (.next p') ∧
        sl.arena.HasSlot p'.1 0) ∨
      ∃ it' r, finish (fun n => answer it (f n)) (sl.lenStep p) = .ok (.done (it', r)) ∧
        sl.arena.Target 0 it'.cursor := by
  refine finish_spec ?_
  rcases h.lenStep_spec hp with ⟨p', hstep, hp'⟩ | ⟨n, hstep⟩
  · exact Or.inl ⟨p', hstep, hp'⟩
  · exact Or.inr ⟨n, it, _, hstep, rfl, hit⟩

/-- **A step of a read** stays on nodes with the slots it loads. -/
theorem readStep_safe (h : sl.Leveled) (hit : sl.arena.Target 0 it.cursor)
    (hq : ReadSafe sl.arena q p) :
    (∃ p', readStep sl it q p = .ok (.next p') ∧ ReadSafe sl.arena q p') ∨
      ∃ it' r, readStep sl it q p = .ok (.done (it', r)) ∧ sl.arena.Target 0 it'.cursor := by
  cases q with
  | get | getWithKey | contains | lowerBound => exact lookup_safe h hit hq
  | len | isEmpty => exact count_safe h hit hq
  | seek | seekForPrev => exact near_safe _ _ h hq
  | seekToFirst =>
    have hs := h.head (l := 0) (by decide)
    have ho := h.next _ _ hs
    exact Or.inr ⟨⟨sl.arena.nextAt sl.head 0⟩, _, readStep_seekToFirst hs ho, ho⟩
  | seekToLast =>
    refine finish_spec ?_
    rcases h.findLastStep_spec hq with ⟨p', hstep, hp'⟩ | ⟨o, hstep, ho⟩
    · exact Or.inl ⟨p', hstep, hp'⟩
    · exact Or.inr ⟨o, ⟨o⟩, _, hstep, moveTo_eq ho, ho⟩
  | next =>
    by_cases h0 : it.cursor = 0
    · exact Or.inr ⟨it, _, readStep_of_not_valid (Or.inl rfl) h0, hit⟩
    · have hs := hit.hasSlot h0
      have ho := h.next _ _ hs
      exact Or.inr ⟨⟨sl.arena.nextAt it.cursor 0⟩, _, readStep_next h0 hs ho, ho⟩
  | prev =>
    by_cases h0 : it.cursor = 0
    · exact Or.inr ⟨it, _, readStep_of_not_valid (Or.inr rfl) h0, hit⟩
    have hs := hit.hasSlot h0
    cases hmode : sl.allowConcurrentWrite with
    | true =>
      rw [readStep_prev_concurrent hmode h0 hs.alive]
      exact near_safe _ _ h hq
    | false =>
      have ho := target_orNone (h.prev _ hs)
      exact Or.inr ⟨⟨sl.orNone (sl.arena.prevAt it.cursor)⟩, _,
        readStep_prev_single hmode h0 hs.alive ho, ho⟩

/-- The slots that a step of `find_near` loads are slots of nodes. -/
theorem nearAccesses_safe {key : Bytes} {less allowEqual : Bool} (h : sl.Leveled)
    (hp : sl.arena.HasSlot p.1 p.2) {x : ℕ × ℕ}
    (hx : x ∈ nearAccesses sl key less allowEqual p) : sl.arena.HasSlot x.1 x.2 := by
  simp only [nearAccesses] at hx
  split_ifs at hx with hn
  · rcases List.mem_pair.1 hx with rfl | rfl
    · exact hp
    · exact ((h.next _ _ hp).hasSlot hn.1).mono (Nat.zero_le _)
  · rwa [List.mem_singleton.1 hx]

theorem ReadSafe.accesses (hq : ReadSafe sl.arena q p) (h : sl.Leveled)
    (hit : sl.arena.Target 0 it.cursor) {x : ℕ × ℕ} (hx : x ∈ q.accesses sl it p) :
    sl.arena.HasSlot x.1 x.2 := by
  cases q with
  | get | getWithKey | contains | lowerBound | seekToLast | len | isEmpty =>
    rw [List.mem_singleton.1 hx]
    exact hq
  | seek | seekForPrev => exact nearAccesses_safe h hq hx
  | seekToFirst =>
    rw [List.mem_singleton.1 hx]
    exact h.head (l := 0) (by decide)
  | next =>
    simp only [ReadCall.accesses] at hx
    split_ifs at hx with hval
    · rw [List.mem_singleton.1 hx]
      exact hit.hasSlot (by simpa [IterRef.valid] using hval)
    · cases hx
  | prev =>
    simp only [ReadCall.accesses] at hx
    split_ifs at hx
    · exact nearAccesses_safe h hq hx
    · cases hx

/-! ### Inserting -/

theorem PutSafe.access (hpc : PutSafe sl.arena c pc) (hh : c.height < maxHeight) (h : sl.Leveled)
    {o l : ℕ} (hx : pc.access sl = some (o, l)) : sl.arena.HasSlot o l := by
  -- a search starts again at the head when it has no predecessor
  have hfrom : ∀ {before i : ℕ}, i < maxHeight → sl.arena.Target i before →
      sl.arena.HasSlot (if before = 0 then sl.headOffset else before) i := by
    intro before i hi hb
    split_ifs with h0
    · exact h.head hi
    · exact hb.hasSlot h0
  cases pc with
  | search => cases hx; exact hfrom hpc.1 hpc.2.1
  | splice | relink => cases hx; exact hfrom (hpc.1.level_le.trans_lt hh) hpc.2
  | linkNext | storeNext => cases hx; exact hpc.1.slot.mono hpc.1.level_le
  | linkCas | storeLink => cases hx; exact hpc.2
  | alloc | allocCas | init | raise | backNode | backNext => cases hx

theorem PutSafe.indices (hpc : PutSafe a c pc) (hh : c.height < maxHeight) {j : ℕ}
    (hj : j ∈ pc.indices c) : j < maxHeight + 1 := by
  cases pc with
  | search =>
    have := hpc.1
    rw [List.mem_singleton.1 hj]
    omega
  | splice | linkNext | relink | storeNext =>
    have := hpc.1.level_le
    rw [List.mem_singleton.1 hj]
    omega
  | linkCas | storeLink =>
    have := hpc.1.level_le
    simp only [PutPc.indices] at hj
    split_ifs at hj <;> simp only [List.mem_cons, List.not_mem_nil, or_false] at hj <;> omega
  | init | raise | backNode | backNext =>
    rw [List.mem_singleton.1 hj]
    decide
  | alloc | allocCas => cases hj

/-! ### The accesses are made -/

theorem findNearStep_wildAccess {key : Bytes} {less allowEqual : Bool} {x : ℕ × ℕ}
    (hx : x ∈ nearAccesses sl key less allowEqual p) (hslot : ¬ sl.arena.HasSlot x.1 x.2) :
    sl.findNearStep key less allowEqual p = .error .wildAccess := by
  by_cases hp : sl.arena.HasSlot p.1 p.2
  swap
  · simp only [findNearStep, nodeNextOffset_error hp, bind, Except.bind]
  simp only [nearAccesses] at hx
  split_ifs at hx with hn
  · -- there is no node after the equal one: its key cannot be read
    obtain rfl := (List.mem_pair.1 hx).resolve_left fun he => hslot (he ▸ hp)
    have hdead : ¬ sl.arena.Alive (sl.arena.nextAt p.1 p.2) := fun ha =>
      hslot (Arena.hasSlot_zero.2 ha)
    simp only [findNearStep, nodeNextOffset_eq hp, hn.1, if_false, nodeKey_error hdead, bind,
      Except.bind]
  · exact absurd hp (List.mem_singleton.1 hx ▸ hslot)

theorem readStep_wildAccess {x : ℕ × ℕ} (hx : x ∈ q.accesses sl it p)
    (hslot : ¬ sl.arena.HasSlot x.1 x.2) : readStep sl it q p = .error .wildAccess := by
  cases q with
  | get | getWithKey | contains | lowerBound =>
    obtain rfl := List.mem_singleton.1 hx
    simp only [readStep, finish, lowerBoundStep, nodeNextOffset_error hslot, bind, Except.bind]
  | seekToLast =>
    obtain rfl := List.mem_singleton.1 hx
    simp only [readStep, finish, findLastStep, nodeNextOffset_error hslot, bind, Except.bind]
  | len | isEmpty =>
    obtain rfl := List.mem_singleton.1 hx
    simp only [readStep, finish, lenStep, nodeNextOffset_error hslot, bind, Except.bind]
  | seek | seekForPrev =>
    simp only [readStep, finish, findNearStep_wildAccess hx hslot, bind, Except.bind]
  | seekToFirst =>
    obtain rfl := List.mem_singleton.1 hx
    simp only [readStep, IterRef.seekToFirst, nodeNextOffset_error hslot, bind, Except.bind]
  | next =>
    simp only [ReadCall.accesses] at hx
    split_ifs at hx with hval
    · obtain rfl := List.mem_singleton.1 hx
      simp only [readStep, IterRef.next, hval, if_true, nodeNextOffset_error hslot, bind,
        Except.bind]
    · cases hx
  | prev =>
    simp only [ReadCall.accesses, Bool.and_eq_true] at hx
    split_ifs at hx with hval
    · obtain ⟨hval, hmode⟩ := hval
      by_cases ha : sl.arena.Alive it.cursor
      · simp only [readStep, finish, IterRef.key, hval, hmode, if_true, nodeKey_eq ha,
          findNearStep_wildAccess hx hslot, bind, Except.bind, pure, Except.pure]
      · simp only [readStep, IterRef.key, hval, hmode, if_true, nodeKey_error ha, bind, Except.bind]
    · cases hx

theorem putStep_wildAccess {weak : Bool} {o l : ℕ} (hx : pc.access sl = some (o, l))
    (hix : ∀ j ∈ pc.indices c, j < maxHeight + 1) (hslot : ¬ sl.arena.HasSlot o l) :
    putStep sl c weak pc = .error .wildAccess := by
  cases pc with
  | search | splice | relink =>
    cases hx
    simp only [putStep, spliceStep, nodeNextOffset_error hslot, bind, Except.bind]
  | linkNext s node i | storeNext s node i =>
    have hi : i < maxHeight + 1 := hix i (List.mem_singleton_self i)
    cases hx
    simp only [putStep, index_eq hi, nodeSetNext_error hslot, bind, Except.bind]
  | linkCas s node i | storeLink s node i =>
    have hi : i < maxHeight + 1 := hix i (by simp only [PutPc.indices]; split_ifs <;> simp)
    cases hx
    simp only [putStep, index_eq hi, nodeCompareExchange, nodeNextOffset_error hslot,
      nodeSetNext_error hslot, bind, Except.bind]
  | alloc | allocCas | init | raise | backNode | backNext => cases hx

/-- **The accesses of a step are made by it**: if one of them is outside a node, the step is a
fault. -/
theorem advance_wildAccess {th : Thread} (weak : Bool) {x : ℕ × ℕ} (hx : x ∈ th.accesses sl)
    (hix : ∀ j ∈ th.indices sl, j < maxHeight + 1) (hslot : ¬ sl.arena.HasSlot x.1 x.2) :
    th.advance sl weak = some (.error .wildAccess) := by
  obtain ⟨pc, it⟩ := th
  cases pc with
  | read q p =>
    simp only [Thread.advance, readStep_wildAccess hx hslot, bind, Except.bind]
  | put c pc =>
    simp only [Thread.advance, putStep_wildAccess (Option.mem_toList.1 hx) hix hslot, bind,
      Except.bind]
  | idle | loadHeight | done | faulted => cases hx

end Concurrent

end StoneDb
