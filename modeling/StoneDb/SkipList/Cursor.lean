import StoneDb.SkipList.Refinement

/-!
# Cursors

A cursor over a skiplist that refines a map stands at a pair of the map, or at no pair
(`CursorAt`).  Every operation of `IterRef` moves it as the corresponding query of the map does
(`Refines.next`, `Refines.prev`, `Refines.seek`, …); the two mechanisms behind `prev`, the back
pointers of single-writer mode and `find_near` of concurrent mode, have the same specification.  A
`put` leaves every cursor where it stands (`CursorAt.mono`).

`cursor_run_refines` follows any number of cursors through any sequence of operations, and
`Refines.scanForward`, `Refines.scanBackward` are the two full scans.
-/

namespace StoneDb

variable {cmp : KeyComparator} [Std.TransCmp cmp.compareKey] {sl sl' : SkipList}
  {S S' : ℕ → Finset ℕ} {m : OrderedMap cmp.compareKey Bytes} {it : IterRef}
  {p : Option (Bytes × Bytes)} {o x : ℕ}

/-- The cursor stands at the pair `p` of the list, or, if `p` is `none`, is not positioned. -/
def CursorAt (sl : SkipList) (S : ℕ → Finset ℕ) (it : IterRef) (p : Option (Bytes × Bytes)) :
    Prop :=
  (it.cursor = 0 ∨ it.cursor ∈ S 0) ∧ sl.pairOf it.cursor = p

theorem cursorAt_none : CursorAt sl S SkipList.iterRef none := ⟨Or.inl rfl, if_pos rfl⟩

/-- Insertions do not move a cursor. -/
theorem CursorAt.mono (h : CursorAt sl S it p) (hwf : Wf cmp sl S) (hgrow : Grows sl S sl' S') :
    CursorAt sl' S' it p := by
  obtain ⟨hmem, hp⟩ := h
  refine ⟨hmem.imp id fun hm => hgrow.subset 0 hm, ?_⟩
  rw [hgrow.pairOf (hmem.imp id hwf.alive), hp]

theorem LeastWhere.null_or_mem {P : Pos cmp → Prop} (h : LeastWhere 0 (pos cmp sl) (S 0) P o) :
    o = 0 ∨ o ∈ S 0 := h.imp And.left And.left

theorem GreatestWhere.null_or_mem {P : Pos cmp → Prop}
    (h : GreatestWhere 0 (pos cmp sl) (S 0) P o) : o = 0 ∨ o ∈ S 0 := h.imp And.left And.left

theorem NearOk.null_or_mem {key : Bytes} {less allowEqual : Bool}
    (h : NearOk cmp sl S key less allowEqual o) : o = 0 ∨ o ∈ S 0 := by
  cases less <;> cases allowEqual
  · exact LeastWhere.null_or_mem (P := fun x => keyPos cmp key < x) h
  · exact LeastWhere.null_or_mem (P := fun x => keyPos cmp key ≤ x) h
  · exact GreatestWhere.null_or_mem (P := fun x => x < keyPos cmp key) h
  · exact GreatestWhere.null_or_mem (P := fun x => x ≤ keyPos cmp key) h

namespace Refines

variable (h : Refines cmp sl S m)

include h

/-- What a positioned cursor shows. -/
theorem cursor_shows (hp : CursorAt sl S it p) :
    it.valid = p.isSome ∧ it.key sl = .ok (p.map Prod.fst) ∧ it.value sl = .ok (p.map Prod.snd) ∧
      ∀ q, p = some q → q ∈ m.entries := by
  obtain ⟨hmem, rfl⟩ := hp
  by_cases h0 : it.cursor = 0
  · have hinv := IterRef.not_valid h0
    simp [SkipList.pairOf, h0, IterRef.key, IterRef.value, hinv, pure, Except.pure]
  · have hx := hmem.resolve_left h0
    have hval := IterRef.valid_of_ne h0
    rw [h.pairOf_mem hx, IterRef.key, IterRef.value, if_pos hval, if_pos hval,
      nodeKey_eq (h.wf.alive hx), nodeValue_eq (h.wf.alive hx)]
    refine ⟨hval, rfl, rfl, fun q hq => ?_⟩
    cases hq
    exact h.mem hx

theorem seek (target : Bytes) :
    ∃ it', IterRef.seek sl target = .ok it' ∧ CursorAt sl S it' (m.leastGE target) := by
  obtain ⟨o, hrun, ho⟩ := h.wf.findNear_spec target false true
  exact ⟨⟨o⟩, by simp only [IterRef.seek, hrun, bind, Except.bind]; rfl, ho.null_or_mem,
    h.leastGE_eq ho⟩

theorem seekForPrev (target : Bytes) :
    ∃ it', IterRef.seekForPrev sl target = .ok it' ∧ CursorAt sl S it' (m.greatestLE target) := by
  obtain ⟨o, hrun, ho⟩ := h.wf.findNear_spec target true true
  exact ⟨⟨o⟩, by simp only [IterRef.seekForPrev, hrun, bind, Except.bind]; rfl, ho.null_or_mem,
    h.greatestLE_eq ho⟩

theorem seekToFirst :
    ∃ it', IterRef.seekToFirst sl = .ok it' ∧ CursorAt sl S it' m.first := by
  have hload := (h.wf.load (l := 0) (by decide) (Or.inl rfl)).1
  have hleast := (h.wf.isNext (l := 0) (by decide) (Or.inl rfl)).leastWhere
  refine ⟨⟨sl.arena.nextAt sl.head 0⟩, ?_, hleast.null_or_mem, h.first_eq⟩
  simp only [IterRef.seekToFirst, SkipList.headOffset, hload, bind, Except.bind]
  rfl

theorem seekToLast :
    ∃ it', IterRef.seekToLast sl = .ok it' ∧ CursorAt sl S it' m.last := by
  obtain ⟨o, hrun, ho⟩ := h.wf.findLast_spec
  exact ⟨⟨o⟩, by simp only [IterRef.seekToLast, hrun, bind, Except.bind]; rfl, ho.null_or_mem,
    h.last_eq ho⟩

theorem next (hp : CursorAt sl S it p) :
    ∃ it', it.next sl = .ok it' ∧ CursorAt sl S it' (p.bind fun q => m.leastGT q.1) := by
  obtain ⟨hmem, rfl⟩ := hp
  by_cases h0 : it.cursor = 0
  · have hinv := IterRef.not_valid h0
    refine ⟨it, by simp [IterRef.next, hinv, pure, Except.pure], Or.inl h0, ?_⟩
    simp [SkipList.pairOf, h0]
  · have hx := hmem.resolve_left h0
    have hval := IterRef.valid_of_ne h0
    have hleast := (h.wf.isNext (l := 0) (by decide) (Or.inr hx)).leastWhere
    rw [h.pos_pair hx] at hleast
    refine ⟨⟨sl.arena.nextAt it.cursor 0⟩, ?_, hleast.null_or_mem, ?_⟩
    · rw [IterRef.next, if_pos hval, nodeNextOffset_eq (h.wf.slot 0 _ hx)]
      rfl
    · rw [h.pairOf_mem hx]
      exact h.leastGT_eq hleast

/-- The node before `x` along the back pointers is the greatest one below it. -/
theorem back_greatest (hb : Back sl S) (hx : x ∈ S 0) :
    GreatestWhere 0 (pos cmp sl) (S 0) (fun y => y < pos cmp sl x)
      (sl.orNone (sl.arena.prevAt x)) := by
  obtain ⟨hmem, hnext⟩ := hb x hx
  have hnext' := h.wf.isNext (l := 0) (by decide) hmem
  -- `x` is the node after the one that its back pointer leads to
  rw [hnext] at hnext'
  refine h.wf.greatestWhere_orNone (P := fun y => y < pos cmp sl x) hmem
    (fun _ => hnext'.lt (h.wf.ne_zero hx)) fun y hy hlt => ?_
  exact hnext'.le_of_lt h.wf.threaded_zero.null_notMem (Or.inr le_rfl) hy hlt

/-- **`prev`**, through the back pointers or through `find_near`. -/
theorem prev (hp : CursorAt sl S it p) :
    ∃ it', it.prev sl = .ok it' ∧ CursorAt sl S it' (p.bind fun q => m.greatestLT q.1) := by
  have hshow := h.cursor_shows hp
  obtain ⟨hmem, rfl⟩ := hp
  by_cases h0 : it.cursor = 0
  · have hinv := IterRef.not_valid h0
    refine ⟨it, by simp [IterRef.prev, hinv, pure, Except.pure], Or.inl h0, ?_⟩
    simp [SkipList.pairOf, h0]
  · have hx := hmem.resolve_left h0
    have hval := IterRef.valid_of_ne h0
    rw [h.pairOf_mem hx] at hshow ⊢
    cases hmode : sl.allowConcurrentWrite with
    | true =>
      -- `find_near` for the greatest key below the one of the cursor
      obtain ⟨o, hrun, ho⟩ := h.wf.findNear_spec (sl.arena.pairAt it.cursor).1 true false
      refine ⟨⟨o⟩, ?_, ho.null_or_mem, h.greatestLT_eq ho⟩
      simp only [IterRef.prev, hval, if_true, hmode, hshow.2.1, Option.map_some, bind, Except.bind,
        hrun]
      rfl
    | false =>
      -- the back pointer
      have hgreatest := h.back_greatest (h.back hmode) hx
      rw [h.pos_pair hx] at hgreatest
      refine ⟨⟨sl.orNone (sl.arena.prevAt it.cursor)⟩, ?_, hgreatest.null_or_mem,
        h.greatestLT_eq hgreatest⟩
      simp only [IterRef.prev, hval, if_true, hmode, Bool.false_eq_true, if_false,
        nodePrev_eq (h.wf.alive hx), bind, Except.bind]
      rfl

/-! ### Full scans -/

/-- The cursor stands at the `i`-th pair, or after the last one. -/
theorem next_getElem {i : ℕ} (hp : CursorAt sl S it m.entries[i]?) (hi : i < m.entries.length) :
    ∃ it', it.next sl = .ok it' ∧ CursorAt sl S it' m.entries[i + 1]? := by
  obtain ⟨it', hrun, hp'⟩ := h.next hp
  refine ⟨it', hrun, ?_⟩
  rwa [List.getElem?_eq_getElem hi, Option.bind_some, m.leastGT_getElem hi] at hp'

end Refines

/-- One iteration of a scan, on the cursor and the pairs seen so far: report the current pair and
move. -/
def scanStep (sl : SkipList) (move : SkipList → IterRef → Except Fault IterRef) :
    IterRef × List (Bytes × Bytes) → Except Fault (Iter (IterRef × List (Bytes × Bytes))
      (List (Bytes × Bytes)))
  | (it, seen) => do
    match ← it.key sl, ← it.value sl with
    | some k, some v => return .next (← move sl it, seen ++ [(k, v)])
    | _, _ => return .done seen

/-- `seek_to_first`, then `next` until the cursor is invalid: the pairs met. -/
def scanForward (sl : SkipList) : Except Fault (List (Bytes × Bytes)) := do
  let it ← IterRef.seekToFirst sl
  loop (scanStep sl IterRef.next) (.error .diverged) sl.fuel (it, [])

/-- `seek_to_last`, then `prev` until the cursor is invalid: the pairs met. -/
def scanBackward (sl : SkipList) : Except Fault (List (Bytes × Bytes)) := do
  let it ← IterRef.seekToLast sl
  loop (scanStep sl IterRef.prev) (.error .diverged) sl.fuel (it, [])

namespace Refines

variable (h : Refines cmp sl S m)

include h

/-- A scan step at the pair `q` reports `q`. -/
theorem scanStep_some {q : Bytes × Bytes} {move : SkipList → IterRef → Except Fault IterRef}
    {it' : IterRef} (hp : CursorAt sl S it (some q)) (hmove : move sl it = .ok it')
    (seen : List (Bytes × Bytes)) :
    scanStep sl move (it, seen) = .ok (.next (it', seen ++ [q])) := by
  obtain ⟨-, hkey, hvalue, -⟩ := h.cursor_shows hp
  simp only [scanStep, hkey, hvalue, hmove, Option.map_some, bind, Except.bind]
  rfl

/-- A scan ends where the cursor is invalid. -/
theorem scanStep_none {move : SkipList → IterRef → Except Fault IterRef}
    (hp : CursorAt sl S it none) (seen : List (Bytes × Bytes)) :
    scanStep sl move (it, seen) = .ok (.done seen) := by
  obtain ⟨-, hkey, hvalue, -⟩ := h.cursor_shows hp
  simp only [scanStep, hkey, hvalue, Option.map_none, bind, Except.bind]
  rfl

theorem size_lt_fuel : m.entries.length < sl.fuel := by
  have hsize := h.size_eq
  have hcard := h.wf.card_le 0
  simp only [OrderedMap.size] at hsize
  simp only [SkipList.fuel, maxHeight]
  omega

/-- **The forward scan** meets the pairs in order. -/
theorem scanForward_eq : scanForward sl = .ok m.entries := by
  obtain ⟨it, hrun, hp⟩ := h.seekToFirst
  rw [OrderedMap.first_eq_getElem] at hp
  -- the first `i` pairs have been seen and the cursor is at the `i`-th
  have hloop : ∃ r, loop (scanStep sl IterRef.next) (.error .diverged) sl.fuel (it, []) = .ok r ∧
      r = m.entries := by
    refine loop_ok (I := fun s => s.2.length ≤ m.entries.length ∧
        s.2 = m.entries.take s.2.length ∧ CursorAt sl S s.1 m.entries[s.2.length]?)
      (μ := fun s => m.entries.length - s.2.length) (fun s hs => ?_) sl.fuel _
      ⟨Nat.zero_le _, rfl, hp⟩ (by have := h.size_lt_fuel; simp only [List.length_nil]; omega)
    obtain ⟨it, seen⟩ := s
    obtain ⟨hlen, hseen, hat⟩ := hs
    simp only at hlen hseen hat
    by_cases hi : seen.length < m.entries.length
    · obtain ⟨it', hmove, hat'⟩ := h.next_getElem hat hi
      rw [List.getElem?_eq_getElem hi] at hat
      refine Or.inl ⟨_, h.scanStep_some hat hmove seen, ⟨?_, ?_, ?_⟩, ?_⟩
      · simp only [List.length_append, List.length_cons, List.length_nil]
        omega
      · simp only [List.length_append, List.length_cons, List.length_nil, Nat.zero_add]
        rw [← List.take_append_getElem hi, ← hseen]
      · simpa using hat'
      · simp only [List.length_append, List.length_cons, List.length_nil]
        omega
    · have hall : m.entries.length ≤ seen.length := not_lt.1 hi
      rw [List.getElem?_eq_none hall] at hat
      refine Or.inr ⟨seen, h.scanStep_none hat seen, ?_⟩
      rw [hseen, List.take_of_length_le hall]
  obtain ⟨_, hr, rfl⟩ := hloop
  simp only [scanForward, hrun, bind, Except.bind, hr]

/-- **The backward scan** meets the pairs in reverse order. -/
theorem scanBackward_eq : scanBackward sl = .ok m.entries.reverse := by
  obtain ⟨it, hrun, hp⟩ := h.seekToLast
  rw [OrderedMap.last_eq_getElem] at hp
  -- the cursor is at the last pair that has not been seen
  have hloop : ∃ r, loop (scanStep sl IterRef.prev) (.error .diverged) sl.fuel (it, []) = .ok r ∧
      r = m.entries.reverse := by
    refine loop_ok (I := fun s => ∃ i ≤ m.entries.length, s.2 = (m.entries.drop i).reverse ∧
        CursorAt sl S s.1 (if i = 0 then none else m.entries[i - 1]?))
      (μ := fun s => m.entries.length - s.2.length) (fun s hs => ?_) sl.fuel _
      ⟨m.entries.length, le_rfl, by simp, ?_⟩
      (by have := h.size_lt_fuel; simp only [List.length_nil]; omega)
    · obtain ⟨it, seen⟩ := s
      obtain ⟨i, hi, hseen, hat⟩ := hs
      simp only at hseen hat
      subst hseen
      cases i with
      | zero => exact Or.inr ⟨_, h.scanStep_none hat _, by rw [List.drop_zero]⟩
      | succ i =>
        rw [if_neg (Nat.succ_ne_zero i), Nat.add_sub_cancel, List.getElem?_eq_getElem hi] at hat
        obtain ⟨it', hmove, hat'⟩ := h.prev hat
        refine Or.inl ⟨_, h.scanStep_some hat hmove _, ⟨i, by omega, ?_, ?_⟩, ?_⟩
        · rw [List.drop_eq_getElem_cons hi, List.reverse_cons]
        · rw [Option.bind_some] at hat'
          cases i with
          | zero => rwa [if_pos rfl, ← m.greatestLT_getElem_zero hi]
          | succ i =>
            rw [if_neg (Nat.succ_ne_zero i), Nat.add_sub_cancel, ← m.greatestLT_getElem_succ hi]
            exact hat'
        · simp only [List.length_append, List.length_reverse, List.length_drop, List.length_cons,
            List.length_nil]
          omega
    · split_ifs with h0
      · rwa [h0, Nat.zero_sub, List.getElem?_eq_none (by omega)] at hp
      · exact hp
  obtain ⟨_, hr, rfl⟩ := hloop
  simp only [scanBackward, hrun, bind, Except.bind, hr]

end Refines

/-! ### Runs -/

/-- An operation on the list, or on the cursor `i`. -/
inductive Op where
  | put (c : PutCall)
  | seek (i : ℕ) (target : Bytes)
  | seekForPrev (i : ℕ) (target : Bytes)
  | seekToFirst (i : ℕ)
  | seekToLast (i : ℕ)
  | next (i : ℕ)
  | prev (i : ℕ)

/-- The calls of `put` are valid. -/
def Op.Valid : Op → Prop
  | .put c => c.Valid
  | _ => True

/-- A list and the cursors over it. -/
structure Session where
  /-- The list. -/
  list : SkipList
  /-- The cursors. -/
  cursors : ℕ → IterRef

/-- Store the result of an operation in the cursor `i`. -/
def Session.setCursor (s : Session) (i : ℕ) (it : Except Fault IterRef) : Except Fault Session := do
  return { s with cursors := Function.update s.cursors i (← it) }

/-- One operation. -/
def Op.run (s : Session) : Op → Except Fault Session
  | .put c =>
    match SkipList.put c.key c.value c.height s.list with
    | .ok _ list => .ok { s with list }
    | .error e _ => .error e
  | .seek i target => s.setCursor i (IterRef.seek s.list target)
  | .seekForPrev i target => s.setCursor i (IterRef.seekForPrev s.list target)
  | .seekToFirst i => s.setCursor i (IterRef.seekToFirst s.list)
  | .seekToLast i => s.setCursor i (IterRef.seekToLast s.list)
  | .next i => s.setCursor i ((s.cursors i).next s.list)
  | .prev i => s.setCursor i ((s.cursors i).prev s.list)

/-- Operations one after the other. -/
def Session.run (s : Session) : List Op → Except Fault Session
  | [] => .ok s
  | op :: ops => do (← op.run s).run ops

/-- A map and the pairs the cursors stand at. -/
structure MapSession (cmp : KeyComparator) where
  /-- The map. -/
  map : OrderedMap cmp.compareKey Bytes
  /-- The positions: a pair of the map, or none. -/
  positions : ℕ → Option (Bytes × Bytes)

/-- Move the cursor `i`. -/
def MapSession.setPosition (a : MapSession cmp) (i : ℕ) (p : Option (Bytes × Bytes)) :
    MapSession cmp := { a with positions := Function.update a.positions i p }

/-- What an operation means on the map. -/
def Op.spec (a : MapSession cmp) : Op → MapSession cmp
  | .put c => { a with map := (a.map.insertIfAbsent c.key c.value).1 }
  | .seek i target => a.setPosition i (a.map.leastGE target)
  | .seekForPrev i target => a.setPosition i (a.map.greatestLE target)
  | .seekToFirst i => a.setPosition i a.map.first
  | .seekToLast i => a.setPosition i a.map.last
  | .next i => a.setPosition i ((a.positions i).bind fun q => a.map.leastGT q.1)
  | .prev i => a.setPosition i ((a.positions i).bind fun q => a.map.greatestLT q.1)

/-- A list that refines the map, with every cursor at its position. -/
structure SessionRefines (s : Session) (a : MapSession cmp) : Prop where
  list : ∃ S, Refines cmp s.list S a.map ∧ ∀ i, CursorAt s.list S (s.cursors i) (a.positions i)
  capacity : s.list.arena.capacity ≤ 2 ^ 32

theorem SessionRefines.setCursor {s : Session} {a : MapSession cmp} {r : Except Fault IterRef}
    (hlist : Refines cmp s.list S a.map)
    (hcur : ∀ i, CursorAt s.list S (s.cursors i) (a.positions i))
    (hcap : s.list.arena.capacity ≤ 2 ^ 32) (hrun : ∃ it', r = .ok it' ∧ CursorAt s.list S it' p)
    (i : ℕ) : ∃ s', s.setCursor i r = .ok s' ∧ SessionRefines s' (a.setPosition i p) := by
  obtain ⟨it', rfl, hit'⟩ := hrun
  refine ⟨_, rfl, ⟨S, hlist, fun j => ?_⟩, hcap⟩
  by_cases hji : j = i
  · subst hji
    simpa [MapSession.setPosition] using hit'
  · simpa [MapSession.setPosition, Function.update_of_ne hji] using hcur j

/-- **One operation** keeps the refinement, unless it exhausts the arena. -/
theorem SessionRefines.step {s : Session} {a : MapSession cmp} (h : SessionRefines s a) {op : Op}
    (hop : op.Valid) :
    op.run s = .error .outOfMemory ∨ ∃ s', op.run s = .ok s' ∧ SessionRefines s' (op.spec a) := by
  obtain ⟨⟨S, hlist, hcur⟩, hcap⟩ := h
  cases op with
  | put c =>
    rcases hlist.put hop.height (sized_of_le hcap hop.size) with
      hput | ⟨sl', S', hput, hlist', hgrow⟩
    · exact Or.inl (by simp only [Op.run, hput])
    · refine Or.inr ⟨{ s with list := sl' }, by simp only [Op.run, hput], ⟨S', hlist', fun i => ?_⟩,
        hgrow.capacity ▸ hcap⟩
      exact (hcur i).mono hlist.wf hgrow
  | seek i target => exact Or.inr (SessionRefines.setCursor hlist hcur hcap (hlist.seek target) i)
  | seekForPrev i target =>
    exact Or.inr (SessionRefines.setCursor hlist hcur hcap (hlist.seekForPrev target) i)
  | seekToFirst i => exact Or.inr (SessionRefines.setCursor hlist hcur hcap hlist.seekToFirst i)
  | seekToLast i => exact Or.inr (SessionRefines.setCursor hlist hcur hcap hlist.seekToLast i)
  | next i => exact Or.inr (SessionRefines.setCursor hlist hcur hcap (hlist.next (hcur i)) i)
  | prev i => exact Or.inr (SessionRefines.setCursor hlist hcur hcap (hlist.prev (hcur i)) i)

/-- A run keeps the refinement, unless it exhausts the arena. -/
theorem SessionRefines.run {ops : List Op} (hops : ∀ op ∈ ops, op.Valid) {s : Session}
    {a : MapSession cmp} (h : SessionRefines s a) :
    s.run ops = .error .outOfMemory ∨
      ∃ s', s.run ops = .ok s' ∧ SessionRefines s' (ops.foldl Op.spec a) := by
  induction ops generalizing s a with
  | nil => exact Or.inr ⟨s, rfl, h⟩
  | cons op ops ih =>
    obtain ⟨hop, hops⟩ := List.forall_mem_cons.1 hops
    rcases h.step hop with hrun | ⟨s₁, hrun, h₁⟩
    · exact Or.inl (by simp only [Session.run, hrun, bind, Except.bind])
    · simpa only [Session.run, hrun, bind, Except.bind, List.foldl_cons] using ih hops h₁

/-- What can be seen of a session: every cursor shows its position, which is a pair of the map, and
the two full scans list the map in the two orders. -/
structure Session.Shows (s : Session) (a : MapSession cmp) : Prop where
  valid : ∀ i, (s.cursors i).valid = (a.positions i).isSome
  key : ∀ i, (s.cursors i).key s.list = .ok ((a.positions i).map Prod.fst)
  value : ∀ i, (s.cursors i).value s.list = .ok ((a.positions i).map Prod.snd)
  mem : ∀ i q, a.positions i = some q → q ∈ a.map.entries
  scanForward : scanForward s.list = .ok a.map.entries
  scanBackward : scanBackward s.list = .ok a.map.entries.reverse

theorem SessionRefines.shows {s : Session} {a : MapSession cmp} (h : SessionRefines s a) :
    s.Shows a := by
  obtain ⟨⟨S, hlist, hcur⟩, -⟩ := h
  exact ⟨fun i => (hlist.cursor_shows (hcur i)).1, fun i => (hlist.cursor_shows (hcur i)).2.1,
    fun i => (hlist.cursor_shows (hcur i)).2.2.1, fun i => (hlist.cursor_shows (hcur i)).2.2.2,
    hlist.scanForward_eq, hlist.scanBackward_eq⟩

/-- A new session: no cursor is positioned. -/
def Session.init (sl : SkipList) : Session := ⟨sl, fun _ => SkipList.iterRef⟩

/-- The empty map, with no cursor positioned. -/
def MapSession.init (cmp : KeyComparator) : MapSession cmp := ⟨.empty, fun _ => none⟩

/-- **Cursors refine positions of the map**: along every sequence of `put` calls and cursor
operations on a new list, in either mode, every cursor shows the position that the operations give
it in the map, until a `put` exhausts the arena. -/
theorem cursor_run_refines (cmp : KeyComparator) [Std.TransCmp cmp.compareKey] {capacity : ℕ}
    (hcap : capacity ≤ 2 ^ 32) (mode : Bool) {sl : SkipList}
    (hnew : SkipList.withCapacity cmp capacity mode = .ok sl) {ops : List Op}
    (hops : ∀ op ∈ ops, op.Valid) :
    (Session.init sl).run ops = .error .outOfMemory ∨
      ∃ s', (Session.init sl).run ops = .ok s' ∧
        s'.Shows (ops.foldl Op.spec (MapSession.init cmp)) := by
  have hinit : SessionRefines (Session.init sl) (MapSession.init cmp) :=
    ⟨⟨_, refines_withCapacity hnew, fun _ => cursorAt_none⟩, (wf_withCapacity hnew).2.2.1 ▸ hcap⟩
  exact (hinit.run hops).imp id fun ⟨s', hrun, h'⟩ => ⟨s', hrun, h'.shows⟩

/-- In single-writer mode: a key is inserted between two others, just before the cursor moves
back. -/
theorem cursor_run_refines_sample :
    ∃ sl, SkipList.withCapacity bytewiseComparator 1024 false = .ok sl ∧
      ∃ s', (Session.init sl).run [.put ⟨[1], [], 2⟩, .put ⟨[9], [], 0⟩, .seekToLast 0,
          .put ⟨[5], [7], 1⟩, .prev 0] = .ok s' ∧
        s'.Shows ([.put ⟨[1], [], 2⟩, .put ⟨[9], [], 0⟩, .seekToLast 0, .put ⟨[5], [7], 1⟩,
          .prev 0].foldl Op.spec (MapSession.init bytewiseComparator)) := by
  have hok : (SkipList.withCapacity bytewiseComparator 1024 false).toOption.all (fun sl =>
      (Session.init sl).run [.put ⟨[1], [], 2⟩, .put ⟨[9], [], 0⟩, .seekToLast 0,
        .put ⟨[5], [7], 1⟩, .prev 0] matches .ok _) = true := by
    decide +kernel
  obtain ⟨sl, hsl⟩ : ∃ sl, SkipList.withCapacity bytewiseComparator 1024 false = .ok sl := ⟨_, rfl⟩
  rw [hsl] at hok
  refine ⟨sl, hsl, (cursor_run_refines bytewiseComparator (show 1024 ≤ 2 ^ 32 by decide) false hsl
    fun op hop => ?_).resolve_left fun hrun => ?_⟩
  · simp only [List.mem_cons, List.not_mem_nil, or_false] at hop
    rcases hop with rfl | rfl | rfl | rfl | rfl
    · exact ⟨by decide, by decide⟩
    · exact ⟨by decide, by decide⟩
    · trivial
    · exact ⟨by decide, by decide⟩
    · trivial
  · simp [hrun, Except.toOption] at hok

end StoneDb
