import StoneDb.Concurrent.Access

/-!
# The stores of a step

What a step of `put` does to the arena (`Stores`): at most one store, to a back pointer or to the
slot that the step accesses, or the reservation or the initialisation of a block.  `putStep_safe`
says of every step that it makes no access outside a node, keeps `SkipList.Leveled` and leaves the
call with what it has to know (`SafeStep`), whatever the comparator answers.
-/

namespace StoneDb

namespace Concurrent

open SkipList

/-- What a step of `put` does to the arena, and the block that it leaves reserved: at most one slot
or back pointer is stored, and the slot is the one that the step accesses. -/
inductive Stores (sl : SkipList) (c : PutCall) : PutPc → Arena → Option (ℕ × ℕ) → Prop
  | none (pc : PutPc) : Stores sl c pc sl.arena none
  | reserve (h : ℕ) (s : Splices) (offset new : ℕ) :
    Stores sl c (.allocCas h s sl.arena.ptr offset new) (sl.arena.setPtr new)
      (some (offset, nodeBytes c.key c.value c.height))
  | init (h : ℕ) (s : Splices) (node : ℕ) :
    Stores sl c (.init h s node) (sl.arena.write node (Node.init c.key c.value c.height)) none
  | prev (pc : PutPc) (o x : ℕ) : Stores sl c pc (sl.arena.setPrev o x) none
  | next (pc : PutPc) (o l x : ℕ) : pc.access sl = some (o, l) →
    Stores sl c pc (sl.arena.setNext o l x) none

variable {sl : SkipList} {a a' : Arena} {c : PutCall} {s : Splices} {pc : PutPc} {node i : ℕ}

/-! ### Going on at a level -/

theorem SplicesSafe.store (hs : SplicesSafe a s) {x n : ℕ} (hx : a.Target i x) (hn : a.Target i n) :
    SplicesSafe a { prev := Function.update s.prev i x, next := Function.update s.next i n } := by
  intro j hj
  refine forall_store (P := fun j x n => a.Target j x ∧ a.Target j n) ⟨hx, hn⟩ j fun _ => hs j hj

/-- The splice is at level `i`, with a predecessor. -/
theorem levelPc_safe (hs : LevelSafe a c s node i) (hprev : a.HasSlot (s.prev i) i) (mode : Bool) :
    PutSafe a c (levelPc mode s node i) ∧ (levelPc mode s node i).block c = none := by
  unfold levelPc
  split_ifs with hmode hi
  · exact ⟨⟨hs, hprev⟩, rfl⟩
  · subst hi
    exact ⟨⟨hs, hprev⟩, rfl⟩
  · exact ⟨⟨hs, hprev⟩, rfl⟩

/-- The splice arrives at level `i`, or is complete. -/
theorem linkLevel_safe (hhead : a.HasSlot sl.head (maxHeight - 1)) (hh : c.height < maxHeight)
    (hs : SplicesSafe a s) (hslot : a.HasSlot node c.height) :
    ∃ r, linkLevel sl c s node i = .ok r ∧ (afterPut c r).block = none ∧
      ∀ pc', r = .next pc' → PutSafe a c pc' := by
  unfold linkLevel
  by_cases hi : c.height < i
  · rw [if_pos hi]
    exact ⟨_, rfl, rfl, nofun⟩
  have hle : i ≤ c.height := not_lt.1 hi
  have hlt : i < maxHeight := hle.trans_lt hh
  have hhead' : a.HasSlot sl.head i := hhead.mono (Nat.le_sub_one_of_lt hlt)
  have hix : i < maxHeight + 1 := by omega
  -- with a predecessor, in the arrays `s'`
  have hlevel : ∀ s', SplicesSafe a s' → a.HasSlot (s'.prev i) i →
      ∀ mode : Bool, ∃ r : Iter PutPc (Option (Bytes × Bytes)),
        (.ok (.next (levelPc mode s' node i)) : Except Fault _) = .ok r ∧
          (afterPut c r).block = none ∧ ∀ pc', r = .next pc' → PutSafe a c pc' := by
    intro s' hs' hprev mode
    obtain ⟨hsafe, hblock⟩ := levelPc_safe ⟨hs', hslot, hle⟩ hprev mode
    refine ⟨_, rfl, hblock, fun pc' hr => ?_⟩
    cases hr
    exact hsafe
  rw [if_neg hi]
  simp only [index_eq hix, store_eq s hix, bind, Except.bind, pure, Except.pure]
  by_cases h0 : s.prev i = 0
  · simp only [h0, if_true]
    cases sl.allowConcurrentWrite with
    | true =>
      -- the search of this level starts at the head
      refine ⟨_, rfl, rfl, fun pc' hr => ?_⟩
      cases hr
      exact ⟨⟨hs, hslot, hle⟩, hhead'.target⟩
    | false =>
      exact hlevel _ (hs.store hhead'.target (hs i hlt).2) (by simpa using hhead') false
  · simp only [h0, if_false]
    have hprev := (hs i hlt).1.hasSlot h0
    cases sl.allowConcurrentWrite with
    | true => exact hlevel s hs hprev true
    | false => exact hlevel s hs hprev false

/-! ### The steps -/

/-- What a step of `put` leaves behind. -/
structure SafeStep (sl : SkipList) (c : PutCall) (pc : PutPc) (sl' : SkipList)
    (r : Iter PutPc (Option (Bytes × Bytes))) : Prop where
  leveled : sl'.Leveled
  stores : Stores sl c pc sl'.arena (afterPut c r).block
  safe : ∀ pc', r = .next pc' → PutSafe sl'.arena c pc'

namespace SafeStep

variable {sl' : SkipList} {pc' : PutPc}

/-- The call goes on, with no block that it would have to initialise. -/
theorem next (hlev : sl'.Leveled) (hstores : Stores sl c pc sl'.arena none)
    (hblock : pc'.block c = none) (hsafe : PutSafe sl'.arena c pc') :
    SafeStep sl c pc sl' (.next pc') := by
  refine ⟨hlev, ?_, fun pc'' hr => ?_⟩
  · rw [show (afterPut c (.next pc')).block = none from hblock]
    exact hstores
  · cases hr
    exact hsafe

/-- The call ends. -/
theorem done (h : sl.Leveled) (answer : Option (Bytes × Bytes)) :
    SafeStep sl c pc sl (.done answer) :=
  ⟨h, .none pc, nofun⟩

/-- The splice arrives at a level, or is complete. -/
theorem level (hlev : sl'.Leveled) (hstores : Stores sl c pc sl'.arena none)
    (hhead : sl'.head = sl.head) (hh : c.height < maxHeight) (hs : SplicesSafe sl'.arena s)
    (hslot : sl'.arena.HasSlot node c.height) :
    ∃ r, linkLevel sl c s node i = .ok r ∧ SafeStep sl c pc sl' r := by
  have hhead' : sl'.arena.HasSlot sl.head (maxHeight - 1) := hhead ▸ hlev.head_slot
  obtain ⟨r, hrun, hblock, hsafe⟩ := linkLevel_safe (i := i) hhead' hh hs hslot
  exact ⟨r, hrun, hlev, by rw [hblock]; exact hstores, hsafe⟩

end SafeStep

section

variable {h : ℕ} {before : ℕ} (weak : Bool) (hlev : sl.Leveled) (hh : c.height < maxHeight)

include hlev

theorem search_safe (hpc : PutSafe sl.arena c (.search h i s before)) :
    ∃ r, putStep sl c weak (.search h i s before) = .ok (sl, r) ∧
      SafeStep sl c (.search h i s before) sl r := by
  obtain ⟨hi, hb, hs⟩ := hpc
  rcases hlev.spliceStep_spec c.key hi hb with ⟨q, hstep, hq⟩ | ⟨x, n, hstep, hx, hn⟩
  · refine ⟨_, by simp only [putStep, hstep, bind, Except.bind]; rfl, ?_⟩
    exact .next hlev (.none _) rfl ⟨hi, hq.target, hs⟩
  have hix : i < maxHeight + 1 := by omega
  simp only [putStep, hstep, store_eq s hix, bind, Except.bind]
  split_ifs
  · -- an equal key
    rw [conflict_eq hx.alive]
    exact ⟨_, rfl, .done hlev _⟩
  · have hs' := hs.store hx.target hn
    cases i with
    | zero => exact ⟨_, rfl, .next hlev (.none _) rfl hs'⟩
    | succ i =>
      -- a node with a slot of this level has one of the level below
      have hdown : sl.arena.HasSlot x i := hx.mono (Nat.le_succ i)
      simp only [index_eq hix, Function.update_self]
      exact ⟨_, rfl, .next hlev (.none _) rfl ⟨Nat.lt_of_succ_lt hi, hdown.target, hs'⟩⟩

theorem alloc_safe (hfits : c.Fits sl.arena.capacity)
    (hptr : sl.arena.ptr.getD 8 ≤ sl.arena.capacity) (hpc : PutSafe sl.arena c (.alloc h s)) :
    putStep sl c weak (.alloc h s) = .error .outOfMemory ∨
      ∃ r, putStep sl c weak (.alloc h s) = .ok (sl, r) ∧ SafeStep sl c (.alloc h s) sl r := by
  have hwrap := hfits.no_wrap
  have hbytes := nodeBytes_le c.key c.value hfits.height
  have hsize := alignSize_nodeSize c.key c.value c.height (by omega)
  have hres : sl.arena.reserve sl.arena.ptr (nodeBytes c.key c.value c.height) = _ :=
    sl.arena.reserve_eq (by omega)
  simp only [putStep, hsize, hres, bind, Except.bind]
  by_cases hfit : sl.arena.capacity < sl.arena.ptr.getD 8 + nodeBytes c.key c.value c.height
  · rw [if_pos hfit]
    exact Or.inl rfl
  · rw [if_neg hfit]
    exact Or.inr ⟨_, rfl, .next hlev (.none _) rfl ⟨hpc, rfl, rfl, not_lt.1 hfit⟩⟩

theorem allocCas_safe {current : Option ℕ} {offset new : ℕ}
    (hpc : PutSafe sl.arena c (.allocCas h s current offset new)) :
    ∃ sl' r, putStep sl c weak (.allocCas h s current offset new) = .ok (sl', r) ∧
      SafeStep sl c (.allocCas h s current offset new) sl' r := by
  obtain ⟨hs, -⟩ := hpc
  simp only [putStep, Arena.compareExchangePtr]
  by_cases hcas : sl.arena.ptr = current
  · subst hcas
    rw [if_pos rfl]
    refine ⟨_, _, rfl, hlev.setPtr new, .reserve h s offset new, fun pc' hr => ?_⟩
    cases hr
    exact hs.mono (.setPtr _ _)
  · rw [if_neg hcas]
    exact ⟨_, _, rfl, .next hlev (.none _) rfl hs⟩

theorem init_safe (hfits : c.Fits sl.arena.capacity) (hfresh : ¬ sl.arena.Alive node)
    (hpc : PutSafe sl.arena c (.init h s node)) :
    ∃ sl' r, putStep sl c weak (.init h s node) = .ok (sl', r) ∧
      SafeStep sl c (.init h s node) sl' r := by
  have hh := hfits.height
  have hwrap := hfits.no_wrap
  have hbytes := nodeBytes_le c.key c.value hh
  have hinit := initNode_eq sl.arena node c.key c.value c.height (by omega)
  have hlev' := hlev.write hfresh c.key c.value c.height
  have hs' : SplicesSafe (sl.arena.write node (Node.init c.key c.value c.height)) s :=
    SplicesSafe.mono hpc (.write hfresh _)
  have hslot : (sl.arena.write node (Node.init c.key c.value c.height)).HasSlot node c.height :=
    ⟨_, by rw [Arena.node_write, if_pos rfl], (Node.height_init _ _ hh).ge⟩
  simp only [putStep, hinit, bind, Except.bind]
  split_ifs
  · exact ⟨_, _, rfl, .next hlev' (.init h s node) rfl ⟨hs', hslot, Nat.zero_le _⟩⟩
  · obtain ⟨r, hlevel, hstep⟩ := SafeStep.level (i := 0) hlev' (.init h s node) rfl hh hs' hslot
    rw [hlevel]
    exact ⟨_, r, rfl, hstep⟩

theorem backNode_safe (hpc : PutSafe sl.arena c (.backNode s node)) :
    ∃ sl' r, putStep sl c weak (.backNode s node) = .ok (sl', r) ∧
      SafeStep sl c (.backNode s node) sl' r := by
  obtain ⟨hs, hprev⟩ := hpc
  have hext := Arena.Extends.setPrev sl.arena node (s.prev 0)
  have hstores : Stores sl c (.backNode s node) (sl.arena.setPrev node (s.prev 0)) none :=
    .prev _ _ _
  simp only [putStep, index_eq (show 0 < maxHeight + 1 by decide), nodeSetPrev_eq hs.slot.alive,
    bind, Except.bind]
  split_ifs with hn
  · exact ⟨_, _, rfl, .next (hlev.setPrev hprev.target) hstores rfl
      ⟨hs.mono hext, hext.hasSlot hprev⟩⟩
  · exact ⟨_, _, rfl, .next (hlev.setPrev hprev.target) hstores rfl
      ⟨hs.mono hext, hext.hasSlot hprev, hn⟩⟩

theorem backNext_safe (hpc : PutSafe sl.arena c (.backNext s node)) :
    ∃ sl' r, putStep sl c weak (.backNext s node) = .ok (sl', r) ∧
      SafeStep sl c (.backNext s node) sl' r := by
  obtain ⟨hs, hprev, hn⟩ := hpc
  have hext := Arena.Extends.setPrev sl.arena (s.next 0) node
  have hnext := (hs.splices 0 (by decide)).2.hasSlot hn
  simp only [putStep, index_eq (show 0 < maxHeight + 1 by decide), nodeSetPrev_eq hnext.alive,
    bind, Except.bind]
  exact ⟨_, _, rfl, .next (hlev.setPrev (hs.slot.mono (Nat.zero_le _)).target) (.prev _ _ _) rfl
    ⟨hs.mono hext, hext.hasSlot hprev⟩⟩

include hh

theorem raise_safe {current : ℕ} (hpc : PutSafe sl.arena c (.raise s node current)) :
    ∃ sl' r, putStep sl c weak (.raise s node current) = .ok (sl', r) ∧
      SafeStep sl c (.raise s node current) sl' r := by
  obtain ⟨hs, hslot, -⟩ := hpc
  have hset : ∃ r, linkLevel sl c s node 0 = .ok r ∧
      SafeStep sl c (.raise s node current) { sl with height := c.height } r :=
    SafeStep.level (hlev.raise hh) (.none _) rfl hh hs hslot
  have hkeep : ∃ r, linkLevel sl c s node 0 = .ok r ∧
      SafeStep sl c (.raise s node current) sl r := SafeStep.level hlev (.none _) rfl hh hs hslot
  obtain ⟨r, hlevel, hraised⟩ := hset
  obtain ⟨r', hlevel', hkept⟩ := hkeep
  simp only [putStep, bind, Except.bind]
  split_ifs
  · simp only [hlevel]
    exact ⟨_, r, rfl, hraised⟩
  · exact ⟨_, _, rfl, .next hlev (.none _) rfl ⟨hs, hslot, Nat.zero_le _⟩⟩
  · simp only [hlevel']
    exact ⟨_, r', rfl, hkept⟩
  · simp only [hlevel]
    exact ⟨_, r, rfl, hraised⟩

theorem splice_safe (hpc : PutSafe sl.arena c (.splice s node i before)) :
    ∃ r, putStep sl c weak (.splice s node i before) = .ok (sl, r) ∧
      SafeStep sl c (.splice s node i before) sl r := by
  obtain ⟨hs, hb⟩ := hpc
  have hi : i < maxHeight := hs.level_le.trans_lt hh
  rcases hlev.spliceStep_spec c.key hi hb with ⟨q, hstep, hq⟩ | ⟨x, n, hstep, hx, hn⟩
  · refine ⟨_, by simp only [putStep, hstep, bind, Except.bind]; rfl, ?_⟩
    exact .next hlev (.none _) rfl ⟨hs, hq.target⟩
  simp only [putStep, hstep, store_eq s (show i < maxHeight + 1 by omega), bind, Except.bind]
  refine ⟨_, rfl, .next hlev (.none _) rfl
    ⟨⟨hs.splices.store hx.target hn, hs.slot, hs.level_le⟩, ?_⟩⟩
  simpa using hx

/-- A search after a failed compare-exchange may end in a failed assertion, but not in an access
outside a node. -/
theorem relink_safe (hpc : PutSafe sl.arena c (.relink s node i before)) :
    putStep sl c weak (.relink s node i before) = .error .assertFailed ∨
      ∃ r, putStep sl c weak (.relink s node i before) = .ok (sl, r) ∧
        SafeStep sl c (.relink s node i before) sl r := by
  obtain ⟨hs, hb⟩ := hpc
  have hi : i < maxHeight := hs.level_le.trans_lt hh
  rcases hlev.spliceStep_spec c.key hi hb with ⟨q, hstep, hq⟩ | ⟨x, n, hstep, hx, hn⟩
  · refine Or.inr ⟨_, by simp only [putStep, hstep, bind, Except.bind]; rfl, ?_⟩
    exact .next hlev (.none _) rfl ⟨hs, hq.target⟩
  simp only [putStep, hstep, store_eq s (show i < maxHeight + 1 by omega), bind, Except.bind]
  split_ifs with hxn hi0
  · exact Or.inl rfl
  · rw [conflict_eq hx.alive]
    exact Or.inr ⟨_, rfl, .done hlev _⟩
  · obtain ⟨r, hlevel, hstep⟩ := SafeStep.level (i := i) hlev
      (.none (.relink s node i before)) rfl hh (hs.splices.store hx.target hn) hs.slot
    simp only [hlevel]
    exact Or.inr ⟨r, rfl, hstep⟩

/-- Storing the forward offset of the new node. -/
theorem self_safe {pc pc' : PutPc} (haccess : pc.access sl = some (node, i))
    (hs : LevelSafe sl.arena c s node i) (hblock : pc'.block c = none)
    (hpc' : PutSafe sl.arena c pc') :
    ∃ sl' r, (do
      let arena ← nodeSetNext sl.arena node i (← index s.next i)
      return ({ sl with arena }, (.next pc' : Iter PutPc (Option (Bytes × Bytes)))) :
        Except Fault _) = .ok (sl', r) ∧ SafeStep sl c pc sl' r := by
  have hi : i < maxHeight := hs.level_le.trans_lt hh
  simp only [index_eq (show i < maxHeight + 1 by omega),
    nodeSetNext_eq (hs.slot.mono hs.level_le), bind, Except.bind]
  exact ⟨_, _, rfl, .next (hlev.setNext (hs.splices i hi).2) (.next pc node i _ haccess) hblock
    (hpc'.mono (.setNext _ _ _ _))⟩

/-- Pointing the predecessor at the new node. -/
theorem link_safe (pc : PutPc) (haccess : pc.access sl = some (s.prev i, i))
    (hs : LevelSafe sl.arena c s node i) :
    ∃ r, linkLevel sl c s node (i + 1) = .ok r ∧
      SafeStep sl c pc { sl with arena := sl.arena.setNext (s.prev i) i node } r :=
  SafeStep.level (hlev.setNext (hs.slot.mono hs.level_le).target) (.next pc _ _ _ haccess) rfl hh
    (hs.splices.mono (.setNext _ _ _ _)) ((Arena.Extends.setNext _ _ _ _).hasSlot hs.slot)

theorem linkCas_safe (hpc : PutSafe sl.arena c (.linkCas s node i)) :
    ∃ sl' r, putStep sl c weak (.linkCas s node i) = .ok (sl', r) ∧
      SafeStep sl c (.linkCas s node i) sl' r := by
  obtain ⟨hs, hprev⟩ := hpc
  have hi : i < maxHeight := hs.level_le.trans_lt hh
  have hix : i < maxHeight + 1 := by omega
  have hcas := nodeCompareExchange_eq (x := node) hprev (s.next i)
  simp only [putStep, index_eq hix, hcas, bind, Except.bind]
  by_cases heq : sl.arena.nextAt (s.prev i) i = s.next i
  · obtain ⟨r, hlevel, hstep⟩ := link_safe hlev hh (.linkCas s node i) rfl hs
    rw [if_pos heq]
    simp only [hlevel]
    exact ⟨_, r, rfl, hstep⟩
  · rw [if_neg heq]
    exact ⟨_, _, rfl, .next hlev (.none _) rfl ⟨hs, hprev.target⟩⟩

theorem storeLink_safe (hpc : PutSafe sl.arena c (.storeLink s node i)) :
    ∃ sl' r, putStep sl c weak (.storeLink s node i) = .ok (sl', r) ∧
      SafeStep sl c (.storeLink s node i) sl' r := by
  obtain ⟨hs, hprev⟩ := hpc
  have hi : i < maxHeight := hs.level_le.trans_lt hh
  obtain ⟨r, hlevel, hstep⟩ := link_safe hlev hh (.storeLink s node i) rfl hs
  simp only [putStep, index_eq (show i < maxHeight + 1 by omega), nodeSetNext_eq hprev, bind,
    Except.bind, hlevel]
  exact ⟨_, r, rfl, hstep⟩

end

/-- **A step of `put`** makes no access outside a node, and uses no index outside its arrays. -/
theorem putStep_safe (hlev : sl.Leveled) (hfits : c.Fits sl.arena.capacity)
    (hptr : sl.arena.ptr.getD 8 ≤ sl.arena.capacity)
    (hfresh : ∀ b, pc.block c = some b → ¬ sl.arena.Alive b.1) (hpc : PutSafe sl.arena c pc)
    (weak : Bool) :
    (∃ e, putStep sl c weak pc = .error e ∧ e ≠ .wildAccess ∧ e ≠ .indexOutOfBounds) ∨
      ∃ sl' r, putStep sl c weak pc = .ok (sl', r) ∧ SafeStep sl c pc sl' r := by
  have hh := hfits.height
  cases pc with
  | search h i s before =>
    obtain ⟨r, hrun, hstep⟩ := search_safe weak hlev hpc
    exact Or.inr ⟨sl, r, hrun, hstep⟩
  | alloc h s =>
    rcases alloc_safe weak hlev hfits hptr hpc with hrun | ⟨r, hrun, hstep⟩
    · exact Or.inl ⟨_, hrun, nofun, nofun⟩
    · exact Or.inr ⟨sl, r, hrun, hstep⟩
  | allocCas h s current offset new => exact Or.inr (allocCas_safe weak hlev hpc)
  | init h s node => exact Or.inr (init_safe weak hlev hfits (hfresh _ rfl) hpc)
  | raise s node current => exact Or.inr (raise_safe weak hlev hh hpc)
  | splice s node i before =>
    obtain ⟨r, hrun, hstep⟩ := splice_safe weak hlev hh hpc
    exact Or.inr ⟨sl, r, hrun, hstep⟩
  | linkNext s node i =>
    exact Or.inr (self_safe hlev hh rfl hpc.1 rfl hpc)
  | linkCas s node i => exact Or.inr (linkCas_safe weak hlev hh hpc)
  | relink s node i before =>
    rcases relink_safe weak hlev hh hpc with hrun | ⟨r, hrun, hstep⟩
    · exact Or.inl ⟨_, hrun, nofun, nofun⟩
    · exact Or.inr ⟨sl, r, hrun, hstep⟩
  | backNode s node => exact Or.inr (backNode_safe weak hlev hpc)
  | backNext s node => exact Or.inr (backNext_safe weak hlev hpc)
  | storeNext s node i =>
    exact Or.inr (self_safe hlev hh rfl hpc.1 rfl hpc)
  | storeLink s node i => exact Or.inr (storeLink_safe weak hlev hh hpc)

end Concurrent

end StoneDb
