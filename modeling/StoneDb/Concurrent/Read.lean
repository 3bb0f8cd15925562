import StoneDb.Concurrent.Invariant
import StoneDb.SkipList.Cursor
import StoneDb.SkipList.Levels

/-!
# One step of a read

`readStep_spec`: a read that stands where `ReadOk` says goes on there, or ends with what `ReadEnd`
says about the list at that instant.  The instant of the last load is the one at which the answer is
that of the map (`ReadEnd.answer`): the end of a chain, a node past the key on level 0, or an equal
key on any level.
-/

namespace StoneDb

namespace Concurrent

open SkipList

/-- A cursor that is not positioned, or at a node. -/
def CursorOk (sl : SkipList) (it : IterRef) : Prop :=
  it.cursor = 0 ∨ (it.cursor ≠ sl.head ∧ sl.arena.Alive it.cursor)

/-- A cursor that is not positioned, or at a linked node. -/
def Linked (S : ℕ → Finset ℕ) (it : IterRef) : Prop := it.cursor = 0 ∨ it.cursor ∈ S 0

variable (cmp : KeyComparator) [Std.TransCmp cmp.compareKey]

/-- How a lookup of `key` ends: `r` is made of the least pair not below the key. -/
def LookupEnd (sl : SkipList) (S : ℕ → Finset ℕ) (it : IterRef) (key : Bytes) (it' : IterRef)
    (r : Ret) (f : Option (Bytes × Bytes) → Ret) : Prop :=
  it' = it ∧ ∃ o, LeastWhere 0 (pos cmp sl) (S 0) (fun x => keyPos cmp key ≤ x) o ∧
    r = f (sl.pairOf o)

/-- How a cursor operation ends: the cursor is at a node with the property `P`. -/
def MoveEnd (sl : SkipList) (it' : IterRef) (r : Ret) (P : ℕ → Prop) : Prop :=
  r = .pair (sl.pairOf it'.cursor) ∧ P it'.cursor

/-- What holds of the list at the instant when a read ends. -/
def ReadEnd (sl : SkipList) (S : ℕ → Finset ℕ) (it : IterRef) (q : ReadCall) (it' : IterRef)
    (r : Ret) : Prop :=
  match q with
  | .get key => LookupEnd cmp sl S it key it' r
    fun o => .value ((exactMatch key o).map Prod.snd)
  | .getWithKey key => LookupEnd cmp sl S it key it' r fun o => .pair (exactMatch key o)
  | .contains key => LookupEnd cmp sl S it key it' r
    fun o => .flag ((exactMatch key o).map Prod.snd).isSome
  | .lowerBound key => LookupEnd cmp sl S it key it' r .pair
  | .len => it' = it ∧ ∃ n, r = .count n
  | .isEmpty => it' = it ∧ ∃ b, r = .flag b
  | .seek key => MoveEnd sl it' r (NearOk cmp sl S key false true)
  | .seekForPrev key => MoveEnd sl it' r (NearOk cmp sl S key true true)
  | .seekToFirst => MoveEnd sl it' r (· = sl.arena.nextAt sl.head 0)
  | .seekToLast => MoveEnd sl it' r (GreatestWhere 0 (pos cmp sl) (S 0) fun _ => True)
  | .next => MoveEnd sl it' r fun o =>
    if it.cursor = 0 then o = 0 else o = sl.arena.nextAt it.cursor 0
  | .prev => MoveEnd sl it' r fun o =>
    if it.cursor = 0 then o = 0
    else if sl.allowConcurrentWrite then NearOk cmp sl S (sl.arena.keyAt it.cursor) true false o
    else o = sl.orNone (sl.arena.prevAt it.cursor)

variable {cmp} {sl : SkipList} {S : ℕ → Finset ℕ} {it it' : IterRef} {q : ReadCall} {p : ℕ × ℕ}
  {r : Ret} {o : ℕ}

theorem CursorOk.of_linked (hwf : Wf cmp sl S) (h : Linked S it) : CursorOk sl it :=
  h.imp id fun hm => ⟨hwf.ne_head hm, hwf.alive hm⟩

theorem CursorOk.alive (h : CursorOk sl it) (h0 : it.cursor ≠ 0) : sl.arena.Alive it.cursor :=
  (h.resolve_left h0).2

theorem CursorOk.mono {sl' : SkipList} {S' : ℕ → Finset ℕ} (h : CursorOk sl it)
    (hgrow : Grows sl S sl' S') : CursorOk sl' it :=
  h.imp id fun ⟨hne, ha⟩ => ⟨by rw [hgrow.head]; exact hne, hgrow.alive ha⟩

theorem CursorOk.target (h : CursorOk sl it) : sl.arena.Target 0 it.cursor :=
  h.imp_right fun ⟨_, ha⟩ => Arena.hasSlot_zero.2 ha

/-- What a cursor shows is the pair of its node. -/
theorem entry_eq (h : sl.arena.Target 0 it.cursor) :
    IterRef.entry sl it = .ok (sl.pairOf it.cursor) := by
  by_cases h0 : it.cursor = 0
  · have hvalid := IterRef.not_valid h0
    simp [IterRef.entry, IterRef.key, IterRef.value, hvalid, pairOf, h0, bind, Except.bind, pure,
      Except.pure]
  · have ha := (h.hasSlot h0).alive
    have hvalid := IterRef.valid_of_ne h0
    simp only [IterRef.entry, IterRef.key, IterRef.value, hvalid, if_true, nodeKey_eq ha,
      nodeValue_eq ha, bind, Except.bind, pure, Except.pure, pairOf, h0, if_false, Arena.pairAt]

/-- The end of a cursor operation: the cursor shows the pair of its node. -/
theorem moveTo_eq (h : sl.arena.Target 0 o) :
    moveTo sl o = .ok (⟨o⟩, .pair (sl.pairOf o)) := by
  have hentry : IterRef.entry sl ⟨o⟩ = .ok (sl.pairOf o) := entry_eq h
  simp only [moveTo, hentry, bind, Except.bind, pure, Except.pure]

/-! ### The moves of a cursor that make one load -/

theorem readStep_seekToFirst (hs : sl.arena.HasSlot sl.head 0)
    (ho : sl.arena.Target 0 (sl.arena.nextAt sl.head 0)) :
    readStep sl it .seekToFirst p = .ok (.done (⟨sl.arena.nextAt sl.head 0⟩,
      .pair (sl.pairOf (sl.arena.nextAt sl.head 0)))) := by
  simp only [readStep, IterRef.seekToFirst, headOffset, nodeNextOffset_eq hs, bind, Except.bind,
    pure, Except.pure, moveTo_eq ho]

/-- A cursor that is not positioned stays so. -/
theorem readStep_of_not_valid (hq : q = .next ∨ q = .prev) (h0 : it.cursor = 0) :
    readStep sl it q p = .ok (.done (it, .pair (sl.pairOf it.cursor))) := by
  have hmove : moveTo sl it.cursor = _ := moveTo_eq (Or.inl h0)
  rcases hq with rfl | rfl
  · simp only [readStep, IterRef.next, IterRef.not_valid h0, Bool.false_eq_true, if_false, bind,
      Except.bind, pure, Except.pure, hmove]
  · cases hmode : sl.allowConcurrentWrite <;>
      simp only [readStep, IterRef.key, IterRef.prev, IterRef.not_valid h0, hmode,
        Bool.false_eq_true, if_false, if_true, bind, Except.bind, pure, Except.pure, hmove]

theorem readStep_next (h0 : it.cursor ≠ 0) (hs : sl.arena.HasSlot it.cursor 0)
    (ho : sl.arena.Target 0 (sl.arena.nextAt it.cursor 0)) :
    readStep sl it .next p = .ok (.done (⟨sl.arena.nextAt it.cursor 0⟩,
      .pair (sl.pairOf (sl.arena.nextAt it.cursor 0)))) := by
  simp only [readStep, IterRef.next, IterRef.valid_of_ne h0, if_true, nodeNextOffset_eq hs, bind,
    Except.bind, pure, Except.pure, moveTo_eq ho]

/-- In concurrent mode, `prev` is `find_near`. -/
theorem readStep_prev_concurrent (hmode : sl.allowConcurrentWrite = true) (h0 : it.cursor ≠ 0)
    (ha : sl.arena.Alive it.cursor) : readStep sl it .prev p =
      finish (moveTo sl) (sl.findNearStep (sl.arena.keyAt it.cursor) true false p) := by
  simp only [readStep, hmode, if_true, IterRef.key, IterRef.valid_of_ne h0, nodeKey_eq ha, bind,
    Except.bind, pure, Except.pure]

/-- In single-writer mode, `prev` follows the back pointer. -/
theorem readStep_prev_single (hmode : sl.allowConcurrentWrite = false) (h0 : it.cursor ≠ 0)
    (ha : sl.arena.Alive it.cursor)
    (ho : sl.arena.Target 0 (sl.orNone (sl.arena.prevAt it.cursor))) :
    readStep sl it .prev p = .ok (.done (⟨sl.orNone (sl.arena.prevAt it.cursor)⟩,
      .pair (sl.pairOf (sl.orNone (sl.arena.prevAt it.cursor))))) := by
  simp only [readStep, IterRef.prev, IterRef.valid_of_ne h0, hmode, Bool.false_eq_true, if_false,
    if_true, nodePrev_eq ha, bind, Except.bind, pure, Except.pure, moveTo_eq ho]

/-! ### One step -/

/-- A loop that goes on, or ends with a value for which `f` gives the answer. -/
theorem finish_spec {α : Type} {f : α → Except Fault (IterRef × Ret)}
    {step : Except Fault (Iter (ℕ × ℕ) α)} {I : ℕ × ℕ → Prop} {Q : IterRef → Ret → Prop}
    (h : (∃ p, step = .ok (.next p) ∧ I p) ∨
      ∃ a it' r, step = .ok (.done a) ∧ f a = .ok (it', r) ∧ Q it' r) :
    (∃ p, finish f step = .ok (.next p) ∧ I p) ∨
      ∃ it' r, finish f step = .ok (.done (it', r)) ∧ Q it' r := by
  rcases h with ⟨p, rfl, hp⟩ | ⟨a, it', r, rfl, hf, hQ⟩
  · exact Or.inl ⟨p, rfl, hp⟩
  · refine Or.inr ⟨it', r, ?_, hQ⟩
    simp only [finish, bind, Except.bind, hf]
    rfl

theorem lookup_spec {key : Bytes} {f : Option (Bytes × Bytes) → Ret} (hwf : Wf cmp sl S)
    (hit : CursorOk sl it) (hat : SearchAt cmp sl S key p.1 p.2) :
    (∃ p', finish (fun r => answer it (f r)) (sl.lowerBoundStep key p) = .ok (.next p') ∧
        SearchAt cmp sl S key p'.1 p'.2) ∨
      ∃ it' r, finish (fun r => answer it (f r)) (sl.lowerBoundStep key p) = .ok (.done (it', r)) ∧
        CursorOk sl it' ∧ LookupEnd cmp sl S it key it' r f := by
  refine finish_spec ?_
  rcases hwf.lowerBoundStep_spec hat with ⟨c', l', hstep, hat', -⟩ | ⟨o, hstep, ho⟩
  · exact Or.inl ⟨(c', l'), hstep, hat'⟩
  · exact Or.inr ⟨_, it, f (sl.pairOf o), hstep, rfl, hit, rfl, o, ho, rfl⟩

theorem near_spec {key : Bytes} (less allowEqual : Bool) (hwf : Wf cmp sl S)
    (hat : SearchAt cmp sl S key p.1 p.2) :
    (∃ p', finish (moveTo sl) (sl.findNearStep key less allowEqual p) = .ok (.next p') ∧
        SearchAt cmp sl S key p'.1 p'.2) ∨
      ∃ it' r, finish (moveTo sl) (sl.findNearStep key less allowEqual p) = .ok (.done (it', r)) ∧
        CursorOk sl it' ∧ MoveEnd sl it' r (NearOk cmp sl S key less allowEqual) := by
  refine finish_spec ?_
  rcases hwf.findNearStep_spec hat with ⟨c', l', hstep, hat', -⟩ | ⟨o, hstep, ho⟩
  · exact Or.inl ⟨(c', l'), hstep, hat'⟩
  · have hok : CursorOk sl ⟨o⟩ := .of_linked hwf ho.null_or_mem
    exact Or.inr ⟨o, ⟨o⟩, _, hstep, moveTo_eq hok.target, hok, rfl, ho⟩

theorem count_spec {f : ℕ → Ret} {Q : Ret → Prop} (hwf : Wf cmp sl S) (hit : CursorOk sl it)
    (hc : p.1 = sl.head ∨ p.1 ∈ S 0) (hf : ∀ n, Q (f n)) :
    (∃ p', finish (fun n => answer it (f n)) (sl.lenStep p) = .ok (.next p') ∧
        (p'.1 = sl.head ∨ p'.1 ∈ S 0)) ∨
      ∃ it' r, finish (fun n => answer it (f n)) (sl.lenStep p) = .ok (.done (it', r)) ∧
        CursorOk sl it' ∧ it' = it ∧ Q r := by
  refine finish_spec ?_
  rcases hwf.lenStep_spec hc p.2 with ⟨ho, hstep⟩ | ⟨-, hstep⟩
  · exact Or.inl ⟨_, hstep, Or.inr ho⟩
  · exact Or.inr ⟨_, it, _, hstep, rfl, hit, rfl, hf _⟩

/-- **One step of a read.** -/
theorem readStep_spec (hwf : Wf cmp sl S) (hclosed : Closed sl S) (hit : CursorOk sl it)
    (hq : ReadOk cmp sl S it q p) :
    (∃ p', readStep sl it q p = .ok (.next p') ∧ ReadOk cmp sl S it q p') ∨
      ∃ it' r, readStep sl it q p = .ok (.done (it', r)) ∧ CursorOk sl it' ∧
        ReadEnd cmp sl S it q it' r := by
  cases q with
  | get key | getWithKey key | contains key | lowerBound key => exact lookup_spec hwf hit hq
  | len => exact count_spec (Q := fun r => ∃ n, r = .count n) hwf hit hq fun n => ⟨n, rfl⟩
  | isEmpty => exact count_spec (Q := fun r => ∃ b, r = .flag b) hwf hit hq fun n => ⟨_, rfl⟩
  | seek key | seekForPrev key => exact near_spec _ _ hwf hq
  | seekToFirst =>
    have hok : CursorOk sl ⟨sl.arena.nextAt sl.head 0⟩ :=
      .of_linked hwf
        (LeastWhere.null_or_mem (hwf.isNext (l := 0) (by decide) (Or.inl rfl)).leastWhere)
    exact Or.inr ⟨⟨sl.arena.nextAt sl.head 0⟩, _,
      readStep_seekToFirst (hwf.hasSlot (by decide) (Or.inl rfl)) hok.target, hok, rfl, rfl⟩
  | seekToLast =>
    refine finish_spec ?_
    rcases hwf.findLastStep_spec hq.1 hq.2 with ⟨c', l', hstep, hl', hc', -⟩ | ⟨o, hstep, ho⟩
    · exact Or.inl ⟨(c', l'), hstep, hl', hc'⟩
    · have hok : CursorOk sl ⟨o⟩ := .of_linked hwf ho.null_or_mem
      exact Or.inr ⟨o, ⟨o⟩, _, hstep, moveTo_eq hok.target, hok, rfl, ho⟩
  | next =>
    by_cases h0 : it.cursor = 0
    · exact Or.inr ⟨it, _, readStep_of_not_valid (Or.inl rfl) h0, hit, rfl, by simp [h0]⟩
    · have ha := hit.alive h0
      -- the node of the cursor need not be linked: its level 0 leads to nodes all the same
      have hok : CursorOk sl ⟨sl.arena.nextAt it.cursor 0⟩ := .of_linked hwf (hclosed.next _ ha)
      exact Or.inr ⟨⟨sl.arena.nextAt it.cursor 0⟩, _,
        readStep_next h0 (Arena.hasSlot_zero.2 ha) hok.target, hok, rfl, by simp [h0]⟩
  | prev =>
    by_cases h0 : it.cursor = 0
    · exact Or.inr ⟨it, _, readStep_of_not_valid (Or.inr rfl) h0, hit, rfl, by simp [h0]⟩
    have ha := hit.alive h0
    cases hmode : sl.allowConcurrentWrite with
    | true =>
      rw [readStep_prev_concurrent hmode h0 ha]
      rcases near_spec true false hwf (hq hmode h0) with
        ⟨p', hstep, hat⟩ | ⟨it', r, hstep, hok, hr, ho⟩
      · exact Or.inl ⟨p', hstep, fun _ _ => hat⟩
      · exact Or.inr ⟨it', r, hstep, hok, hr, by simpa [h0, hmode] using ho⟩
    | false =>
      -- the back pointer may lead to a node that is not linked yet
      have hok : CursorOk sl ⟨sl.orNone (sl.arena.prevAt it.cursor)⟩ := by
        unfold orNone headOffset
        by_cases hhead : sl.arena.prevAt it.cursor = sl.head
        · exact Or.inl (if_pos hhead)
        · rw [if_neg hhead]
          exact (hclosed.prev _ ha).imp id fun ha' => ⟨hhead, ha'⟩
      exact Or.inr ⟨⟨sl.orNone (sl.arena.prevAt it.cursor)⟩, _,
        readStep_prev_single hmode h0 ha hok.target, hok, rfl, by simp [h0, hmode]⟩

/-! ### Answers -/

/-- What a read answers on the map `m`, with the cursor at the pair `p`. -/
def ReadCall.spec (m : OrderedMap cmp.compareKey Bytes) (p : Option (Bytes × Bytes)) :
    ReadCall → Ret
  | .get key => .value (m.get key)
  | .getWithKey key => .pair (m.getWithKey key)
  | .contains key => .flag (m.contains key)
  | .lowerBound key => .pair (m.leastGE key)
  | .len => .count m.size
  | .isEmpty => .flag (m.size = 0)
  | .seek target => .pair (m.leastGE target)
  | .seekForPrev target => .pair (m.greatestLE target)
  | .seekToFirst => .pair m.first
  | .seekToLast => .pair m.last
  | .next => .pair (p.bind fun x => m.leastGT x.1)
  | .prev => .pair (p.bind fun x => m.greatestLT x.1)

/-- The lookups that compare bytes, after the search. -/
def ReadCall.Exact : ReadCall → Prop
  | .get _ | .getWithKey _ | .contains _ => True
  | _ => False

/-- The reads that answer from the list at one instant.  The others are `len` and `is_empty`, which
count while the list changes, and `prev` in single-writer mode, which follows a back pointer. -/
def ReadCall.Atomic (mode : Bool) : ReadCall → Prop
  | .len | .isEmpty => False
  | .prev => mode = true
  | _ => True

theorem lookupEnd_answer {m : OrderedMap cmp.compareKey Bytes} {key : Bytes}
    {f : Option (Bytes × Bytes) → Ret} (hm : Represents cmp sl S m)
    (h : LookupEnd cmp sl S it key it' r f) : r = f (m.leastGE key) ∧ it' = it := by
  obtain ⟨hit, o, ho, hr⟩ := h
  rw [hr, hm.leastGE_eq ho]
  exact ⟨rfl, hit⟩

/-- **The answer of a read is that of the map** at the instant of its last load. -/
theorem ReadEnd.answer {m : OrderedMap cmp.compareKey Bytes} (hm : Represents cmp sl S m)
    (hlaw : q.Exact → Std.LawfulEqCmp cmp.compareKey) (hatomic : q.Atomic sl.allowConcurrentWrite)
    (hit : q = .next ∨ q = .prev → CursorOk sl it)
    (hnext : q = .next → Linked S it) (h : ReadEnd cmp sl S it q it' r) :
    r = q.spec m (sl.pairOf it.cursor) := by
  have hpair : ∀ {x}, sl.arena.Alive x → x ≠ 0 → sl.pairOf x = some (sl.arena.pairAt x) :=
    fun _ h0 => if_neg h0
  cases q with
  | get key | getWithKey key | contains key =>
    -- these compare bytes after the search, which agrees with the comparator
    have := hlaw trivial
    simp only [ReadEnd] at h
    rw [(lookupEnd_answer hm h).1, Represents.exactMatch_eq m key]
    rfl
  | lowerBound key => exact (lookupEnd_answer hm h).1
  | len | isEmpty => exact hatomic.elim
  | seek key => rw [h.1, hm.leastGE_eq h.2]; rfl
  | seekForPrev key => rw [h.1, hm.greatestLE_eq h.2]; rfl
  | seekToFirst =>
    obtain ⟨hr, ho⟩ := h
    rw [hr, ho, hm.first_eq]
    rfl
  | seekToLast => rw [h.1, hm.last_eq h.2]; rfl
  | next =>
    obtain ⟨hr, ho⟩ := h
    by_cases h0 : it.cursor = 0
    · rw [if_pos h0] at ho
      rw [hr, ho, h0]
      rfl
    · rw [if_neg h0] at ho
      have hmem := (hnext rfl).resolve_left h0
      have hleast := (hm.wf.isNext (l := 0) (by decide) (Or.inr hmem)).leastWhere
      rw [hm.wf.pos_mem hmem] at hleast
      rw [hr, ho, hm.leastGT_eq hleast, hpair (hm.wf.alive hmem) h0]
      rfl
  | prev =>
    obtain ⟨hr, ho⟩ := h
    by_cases h0 : it.cursor = 0
    · rw [if_pos h0] at ho
      rw [hr, ho, h0]
      rfl
    · have hmode : sl.allowConcurrentWrite = true := hatomic
      rw [if_neg h0, if_pos hmode] at ho
      rw [hr, hm.greatestLT_eq ho, hpair ((hit (Or.inr rfl)).alive h0) h0]
      rfl

/-- Every read but `prev` leaves the cursor where it is, or at a linked node. -/
theorem ReadEnd.linked (hwf : Wf cmp sl S) (hclosed : Closed sl S) (hit : CursorOk sl it)
    (hprev : q ≠ .prev) (h : ReadEnd cmp sl S it q it' r) : it' = it ∨ Linked S it' := by
  cases q with
  | get key | getWithKey key | contains key | lowerBound key => exact Or.inl h.1
  | len | isEmpty => exact Or.inl h.1
  | seek key | seekForPrev key => exact Or.inr (NearOk.null_or_mem h.2)
  | seekToFirst =>
    refine Or.inr ?_
    rw [Linked, h.2]
    exact LeastWhere.null_or_mem (hwf.isNext (l := 0) (by decide) (Or.inl rfl)).leastWhere
  | seekToLast => exact Or.inr (GreatestWhere.null_or_mem h.2)
  | next =>
    obtain ⟨-, ho⟩ := h
    refine Or.inr ?_
    by_cases h0 : it.cursor = 0
    · rw [if_pos h0] at ho
      exact Or.inl ho
    · rw [if_neg h0] at ho
      rw [Linked, ho]
      exact hclosed.next _ (hit.alive h0)
  | prev => exact absurd rfl hprev

end Concurrent

end StoneDb
