import StoneDb.Concurrent.Put

/-!
# Splicing a node in, step by step

The steps of `put` that link its node, among other writers (`linkNext_step`, `linkCas_step`,
`relink_step`) and alone (`backNode_step`, `backNext_step`, `storeNext_step`, `storeLink_step`), and
`putStep_spec`, which collects all steps of `put`.

Both ways of linking end in the same update of the predecessor's slot (`Placing.link`).  A lone
writer knows that its splice is adjacent; a writer among others has just compared the slot.  After a
failed compare-exchange the level is searched again.  Above level 0 that search cannot meet an equal
key: the node itself is linked on level 0, so it is the only one with its key.
-/

namespace StoneDb

namespace Concurrent

open SkipList

variable {cmp : KeyComparator} [Std.TransCmp cmp.compareKey] {sl sl' : SkipList}
  {S S' : ℕ → Finset ℕ} {c : PutCall} {s : Splices} {h i node before p n : ℕ} {pc : PutPc}
  (weak : Bool)

/-- Recording a new splice for level `i`. -/
theorem linking_store (hl : Linking cmp sl S c.key c.value node c.height i s
    (sl.allowConcurrentWrite = false)) (hmode : sl.allowConcurrentWrite = true)
    (hok : SpliceOk cmp sl S c.key i p n) :
    Linking cmp sl S c.key c.value node c.height i
      { prev := Function.update s.prev i p, next := Function.update s.next i n }
      (sl.allowConcurrentWrite = false) := by
  refine ⟨hl.ne_head, hl.ne_zero, hl.slot, hl.pair, hl.below, hl.fresh, ?_,
    fun hf => by simp [hmode] at hf⟩
  intro j hj hj'
  exact forall_store (P := SpliceOk cmp sl S c.key) hok j fun _ => hl.splice j hj hj'

namespace Placing

variable (hp : Placing cmp sl S c s node i)

include hp

theorem level_lt (hh : c.height < maxHeight) : i < maxHeight := hp.level_le.trans_lt hh

theorem splice : SpliceOk cmp sl S c.key i (s.prev i) (s.next i) :=
  hp.linking.splice i le_rfl hp.level_le

/-- No equal key is linked on level 0 when the splice is adjacent there. -/
theorem absent (hwf : Wf cmp sl S) (hi : i = 0) (hprev : sl.arena.nextAt (s.prev i) i = s.next i) :
    ∀ x ∈ S 0, pos cmp sl x ≠ keyPos cmp c.key := by
  subst hi
  obtain ⟨hmem, hlt, hn⟩ := hp.splice
  intro x hx
  have hnext := hwf.isNext (l := 0) (by decide) hmem
  rw [hprev] at hnext
  exact hnext.not_between hwf.threaded_zero.null_notMem hlt (hn.imp id And.right) hx

/-- Pointing the node at its successor changes nothing that is linked. -/
theorem self (hwf : Wf cmp sl S) (hclosed : Closed sl S) :
    Wf cmp { sl with arena := sl.arena.setNext node i (s.next i) } S ∧
      Closed { sl with arena := sl.arena.setNext node i (s.next i) } S ∧
      Placing cmp { sl with arena := sl.arena.setNext node i (s.next i) } S c s node i ∧
      (sl.arena.setNext node i (s.next i)).nextAt node i = s.next i := by
  obtain ⟨hwf', hl', hself⟩ := hp.linking.self hwf hp.level_le
  refine ⟨hwf', hclosed.setNext (Finset.Subset.refl _) ?_, ⟨hl', hp.level_le, hp.height_le⟩, hself⟩
  rintro rfl
  exact hp.splice.2.2.imp id And.left

/-- **Linking the node at level `i`**: the predecessor, still adjacent, is pointed at the node. -/
theorem link (hwf : Wf cmp sl S) (hclosed : Closed sl S) (hh : c.height < maxHeight)
    (hpc : pc = .linkCas s node i ∨ pc = .storeLink s node i)
    (hself : sl.arena.nextAt node i = s.next i) (hprev : sl.arena.nextAt (s.prev i) i = s.next i)
    (hback : sl.allowConcurrentWrite = false → BackOk cmp sl S (.next pc) →
      ∀ x ∈ Function.update S i (insert node (S i)) 0,
        BackTo cmp { sl with arena := sl.arena.setNext (s.prev i) i node }
          (Function.update S i (insert node (S i))) x) :
    ∃ r, linkLevel sl c s node (i + 1) = .ok r ∧
      PutStep cmp sl S c pc { sl with arena := sl.arena.setNext (s.prev i) i node }
        (Function.update S i (insert node (S i))) r := by
  have hl := hp.linking
  have hnode : pc.node = some node := by rcases hpc with rfl | rfl <;> rfl
  have hlinked : pc.linked = decide (0 < i) := by rcases hpc with rfl | rfl <;> rfl
  obtain ⟨hwf', hgrow, hl'⟩ := hl.link hwf hp.height_le hp.level_le hself hprev
  have hclosed' : Closed { sl with arena := sl.arena.setNext (s.prev i) i node }
      (Function.update S i (insert node (S i))) := by
    refine hclosed.setNext (hgrow.subset 0) fun hi => Or.inr ?_
    subst hi
    simp
  refine PutStep.level _ hwf' hclosed' (.link hnode hp.splice.1) hh hnode hp.height_le hl' ?_
    (fun x hx hx' => ?_) hback
  swap
  · by_cases hi : i = 0
    · subst hi
      rw [Function.update_self] at hx
      obtain rfl := (Finset.mem_insert.1 hx).resolve_right hx'
      exact ⟨s, hpc⟩
    · rw [Function.update_of_ne (Ne.symm hi)] at hx
      exact absurd hx hx'
  rw [outcome_next hlinked, if_pos (Nat.succ_pos i)]
  -- the insert takes effect on level 0
  by_cases hi : i = 0
  · subst hi
    refine .added node (hp.absent hwf rfl hprev) (hl.fresh 0 le_rfl) (by simp) ?_
    exact (hgrow.pair _ hl.slot.alive).trans hl.pair
  · rw [if_pos (Nat.pos_of_ne_zero hi)]
    exact .same _ (Function.update_of_ne (Ne.symm hi) _ _)

end Placing

/-! ### Among writers -/

theorem linkNext_step (hwf : Wf cmp sl S) (hclosed : Closed sl S) (hh : c.height < maxHeight)
    (hpc : PutOk cmp sl S c (.linkNext s node i)) :
    ∃ sl' r, putStep sl c weak (.linkNext s node i) = .ok (sl', r) ∧
      PutStep cmp sl S c (.linkNext s node i) sl' S r := by
  obtain ⟨hmode, hp⟩ := hpc
  have hi := hp.level_lt hh
  obtain ⟨hwf', hclosed', hp', hself⟩ := hp.self hwf hclosed
  simp only [putStep, index_eq (show i < maxHeight + 1 by omega),
    nodeSetNext_eq (hp.linking.slot.mono hp.level_le), bind, Except.bind]
  refine ⟨_, _, rfl, .write hwf' hclosed' (.setNext rfl) ⟨hmode, hp', hself⟩
    (fun x hx => Or.inl hx) rfl ?_⟩
  intro hf
  simp [hmode] at hf

theorem linkCas_step (hwf : Wf cmp sl S) (hclosed : Closed sl S) (hh : c.height < maxHeight)
    (hpc : PutOk cmp sl S c (.linkCas s node i)) :
    ∃ sl' S' r, putStep sl c weak (.linkCas s node i) = .ok (sl', r) ∧
      PutStep cmp sl S c (.linkCas s node i) sl' S' r := by
  obtain ⟨hmode, hp, hself⟩ := hpc
  have hi := hp.level_lt hh
  obtain ⟨hmem, hlt, -⟩ := hp.splice
  have hix : i < maxHeight + 1 := by omega
  have hcas := nodeCompareExchange_eq (x := node) (hwf.hasSlot hi hmem) (s.next i)
  simp only [putStep, index_eq hix, hcas, bind, Except.bind]
  -- the exchange succeeds if the splice is still adjacent
  by_cases hprev : sl.arena.nextAt (s.prev i) i = s.next i
  · obtain ⟨r, hlevel, hstep⟩ := hp.link hwf hclosed hh (Or.inl rfl) hself hprev
      fun hf => by simp [hmode] at hf
    rw [if_pos hprev]
    simp only [hlevel]
    exact ⟨_, _, r, rfl, hstep⟩
  · rw [if_neg hprev]
    exact ⟨_, _, _, rfl, .read hwf hclosed ⟨hmode, hp, hi, hmem, hlt⟩ (Or.inr rfl) rfl
      fun hb => (hb : ∀ x ∈ S 0, BackTo cmp sl S x)⟩

/-- **A search after a failed compare-exchange** meets an equal key on level 0 only. -/
theorem relink_step (hwf : Wf cmp sl S) (hclosed : Closed sl S) (hh : c.height < maxHeight)
    (hpc : PutOk cmp sl S c (.relink s node i before)) :
    ∃ r, putStep sl c weak (.relink s node i before) = .ok (sl, r) ∧
      PutStep cmp sl S c (.relink s node i before) sl S r := by
  obtain ⟨hmode, hp, hat⟩ := hpc
  have hi := hp.level_lt hh
  rcases hwf.spliceStep_spec hat with ⟨q, hstep, -, -, hat'⟩ | ⟨⟨p, n⟩, hstep, hres⟩
  · refine ⟨_, by simp only [putStep, hstep, bind, Except.bind]; rfl, ?_⟩
    exact .read hwf hclosed ⟨hmode, hp, hat'⟩ (Or.inr rfl) rfl id
  simp only [putStep, hstep, bind, Except.bind]
  rcases hres with ⟨-, hok⟩ | ⟨hpn, hmem, heq⟩
  · have hl := linking_store hp.linking hmode hok
    obtain ⟨r, hlevel, hstep⟩ := PutStep.level (.relink s node i before) hwf hclosed
      (.refl _ _ _) hh rfl hp.height_le hl (by rw [outcome_next rfl]; exact .same _ rfl)
      (fun x hx hx' => absurd hx hx') fun hf => by simp [hmode] at hf
    simp only [hok.ne hwf, if_false, store_eq s (show i < maxHeight + 1 by omega), hlevel]
    exact ⟨r, rfl, hstep⟩
  · simp only at hpn hmem heq
    subst hpn
    by_cases hi0 : i = 0
    · subst hi0
      simp only [if_true, ne_eq, not_true, if_false, hwf.conflict_eq hmem]
      exact ⟨_, rfl, .found hwf hclosed rfl hmem heq id⟩
    · -- the equal key is that of the node itself, which is not linked on this level
      have hbelow := hp.linking.below 0 (Nat.pos_of_ne_zero hi0)
      have hsame : p = node := hwf.inj (hwf.subset_zero i hmem) hbelow
        (heq.trans hp.linking.pos_node.symm)
      exact absurd (hsame ▸ hmem) (hp.linking.fresh i le_rfl)

/-! ### Alone -/

theorem backNode_step (hwf : Wf cmp sl S) (hclosed : Closed sl S)
    (hpc : PutOk cmp sl S c (.backNode s node)) :
    ∃ sl' r, putStep sl c weak (.backNode s node) = .ok (sl', r) ∧
      PutStep cmp sl S c (.backNode s node) sl' S r := by
  obtain ⟨hmode, hp⟩ := hpc
  obtain ⟨hmem, hlt, -⟩ := hp.splice
  have halive := hp.linking.slot.alive
  have hgrow : Grows sl S { sl with arena := sl.arena.setPrev node (s.prev 0) } S := grows_setPrev
  have hp' : Placing cmp { sl with arena := sl.arena.setPrev node (s.prev 0) } S c s node 0 :=
    ⟨hp.linking.setPrev hwf node (s.prev 0), hp.level_le, hp.height_le⟩
  have hback : (∀ x ∈ S 0, BackTo cmp sl S x) →
      (∀ x ∈ S 0, BackTo cmp { sl with arena := sl.arena.setPrev node (s.prev 0) } S x) ∧
        BackTo cmp { sl with arena := sl.arena.setPrev node (s.prev 0) } S node := by
    refine fun hb => ⟨fun x hx => (hb x hx).mono hwf (hwf.alive hx) hgrow ?_, ?_⟩
    · exact Arena.prevAt_setPrev_of_ne fun he => hp.linking.fresh 0 le_rfl (he ▸ hx)
    · have hself : (sl.arena.setPrev node (s.prev 0)).prevAt node = s.prev 0 :=
        Arena.prevAt_setPrev_self halive
      rw [BackTo, hself, hgrow.pos_mem hwf hmem, hgrow.pos_eq (Or.inr halive), hp.linking.pos_node]
      exact ⟨hmem, hlt⟩
  simp only [putStep, index_eq (show 0 < maxHeight + 1 by decide), nodeSetPrev_eq halive, bind,
    Except.bind]
  have hclosed' := hclosed.setPrev (o := node) (Or.inr (hwf.hasSlot (by decide) hmem).alive)
  by_cases hn : s.next 0 = 0
  · -- the new node is the last one: there is no back pointer to redirect
    simp only [hn, if_true]
    refine ⟨_, _, rfl, .write hwf.setPrev hclosed' .setPrev ⟨hmode, hp'⟩ (fun x hx => Or.inl hx)
      rfl ?_⟩
    intro _ hb
    obtain ⟨hall, hnode⟩ := hback hb
    exact ⟨fun x hx _ => hall x hx, hnode, fun hne => absurd hn hne⟩
  · simp only [hn, if_false]
    exact ⟨_, _, rfl, .write hwf.setPrev hclosed' .setPrev ⟨hmode, hp', hn⟩
      (fun x hx => Or.inl hx) rfl fun _ hb => hback hb⟩

theorem backNext_step (hwf : Wf cmp sl S) (hclosed : Closed sl S)
    (hpc : PutOk cmp sl S c (.backNext s node)) :
    ∃ sl' r, putStep sl c weak (.backNext s node) = .ok (sl', r) ∧
      PutStep cmp sl S c (.backNext s node) sl' S r := by
  obtain ⟨hmode, hp, hn0⟩ := hpc
  have halive := hp.linking.slot.alive
  have hnext : s.next 0 ∈ S 0 := (hp.splice.2.2.resolve_left hn0).1
  have hne : node ≠ s.next 0 := fun he => hp.linking.fresh 0 le_rfl (he ▸ hnext)
  have hgrow : Grows sl S { sl with arena := sl.arena.setPrev (s.next 0) node } S := grows_setPrev
  simp only [putStep, index_eq (show 0 < maxHeight + 1 by decide), nodeSetPrev_eq (hwf.alive hnext),
    bind, Except.bind]
  refine ⟨_, _, rfl, .write hwf.setPrev (hclosed.setPrev (Or.inr halive)) .setPrev ?_
    (fun x hx => Or.inl hx) rfl ?_⟩
  · exact ⟨hmode, hp.linking.setPrev hwf _ _, hp.level_le, hp.height_le⟩
  · intro _ hb
    obtain ⟨hall, hnode⟩ := hb
    refine ⟨?_, ?_, fun _ => Arena.prevAt_setPrev_self (hwf.alive hnext)⟩
    · intro x hx hxn
      exact (hall x hx).mono hwf (hwf.alive hx) hgrow (Arena.prevAt_setPrev_of_ne hxn)
    · exact hnode.mono hwf halive hgrow (Arena.prevAt_setPrev_of_ne hne)

theorem storeNext_step (hwf : Wf cmp sl S) (hclosed : Closed sl S) (hh : c.height < maxHeight)
    (hpc : PutOk cmp sl S c (.storeNext s node i)) :
    ∃ sl' r, putStep sl c weak (.storeNext s node i) = .ok (sl', r) ∧
      PutStep cmp sl S c (.storeNext s node i) sl' S r := by
  obtain ⟨hmode, hp⟩ := hpc
  have hi := hp.level_lt hh
  obtain ⟨hwf', hclosed', hp', hself⟩ := hp.self hwf hclosed
  have halive := hp.linking.slot.alive
  have hgrow : Grows sl S { sl with arena := sl.arena.setNext node i (s.next i) } S := grows_setNext
  have hkeep : ∀ x, sl.arena.Alive x → BackTo cmp sl S x →
      BackTo cmp { sl with arena := sl.arena.setNext node i (s.next i) } S x := fun x hx hb =>
    hb.mono hwf hx hgrow (by simp)
  simp only [putStep, index_eq (show i < maxHeight + 1 by omega),
    nodeSetNext_eq (hp.linking.slot.mono hp.level_le), bind, Except.bind]
  refine ⟨_, _, rfl, .write hwf' hclosed' (.setNext rfl) ⟨hmode, hp', hself⟩
    (fun x hx => Or.inl hx) rfl ?_⟩
  intro _ hb
  cases i with
  | zero =>
    -- the successor is redirected already, until the node is linked
    obtain ⟨hall, hnode, hsucc⟩ := hb
    exact ⟨fun x hx hxn => hkeep x (hwf.alive hx) (hall x hx hxn), hkeep node halive hnode,
      fun hn => by simpa using hsucc hn⟩
  | succ i => exact fun x hx => hkeep x (hwf.alive hx) (hb x hx)

theorem storeLink_step (hwf : Wf cmp sl S) (hclosed : Closed sl S) (hh : c.height < maxHeight)
    (hpc : PutOk cmp sl S c (.storeLink s node i)) :
    ∃ sl' S' r, putStep sl c weak (.storeLink s node i) = .ok (sl', r) ∧
      PutStep cmp sl S c (.storeLink s node i) sl' S' r := by
  obtain ⟨hmode, hp, hself⟩ := hpc
  have hi := hp.level_lt hh
  obtain ⟨hmem, hlt, hn⟩ := hp.splice
  have hprev := (hp.linking.exact hmode i le_rfl hp.level_le).symm
  have hgrow : Grows sl S { sl with arena := sl.arena.setNext (s.prev i) i node }
      (Function.update S i (insert node (S i))) := grows_link
  have hkeep : ∀ x, sl.arena.Alive x → BackTo cmp sl S x →
      BackTo cmp { sl with arena := sl.arena.setNext (s.prev i) i node }
        (Function.update S i (insert node (S i))) x := fun x hx hb =>
    hb.mono hwf hx hgrow (by simp)
  have hback : BackOk cmp sl S (.next (.storeLink s node i)) →
      ∀ x ∈ Function.update S i (insert node (S i)) 0,
        BackTo cmp { sl with arena := sl.arena.setNext (s.prev i) i node }
          (Function.update S i (insert node (S i))) x := by
    intro hb x hx
    cases i with
    | zero =>
      obtain ⟨hall, hnode, hsucc⟩ := hb
      rw [Function.update_self, Finset.mem_insert] at hx
      rcases hx with rfl | hx
      · exact hkeep x hp.linking.slot.alive hnode
      by_cases hxn : x = s.next 0
      · -- the successor: its back pointer already leads to the new node
        have hn0 : s.next 0 ≠ 0 := hxn ▸ hwf.ne_zero hx
        have hgt := (hn.resolve_left hn0).2
        rw [hxn, BackTo]
        simp only [Arena.prevAt_setNext, hsucc hn0]
        rw [hgrow.pos_eq (Or.inr hp.linking.slot.alive), hgrow.pos_eq (Or.inr (hxn ▸ hwf.alive hx)),
          hp.linking.pos_node]
        exact ⟨Or.inr (by simp), hgt⟩
      · exact hkeep x (hwf.alive hx) (hall x hx hxn)
    | succ i =>
      rw [Function.update_of_ne (Nat.succ_ne_zero i).symm] at hx
      exact hkeep x (hwf.alive hx) (hb x hx)
  obtain ⟨r, hlevel, hstep⟩ := hp.link hwf hclosed hh (Or.inr rfl) hself hprev
    fun _ hb => hback hb
  simp only [putStep, index_eq (show i < maxHeight + 1 by omega),
    nodeSetNext_eq (hwf.hasSlot hi hmem), bind, Except.bind, hlevel]
  exact ⟨_, _, r, rfl, hstep⟩

/-! ### All steps -/

/-- **One step of `put`**, among writers or alone.  Only the allocation can panic. -/
theorem putStep_spec (hwf : Wf cmp sl S) (hclosed : Closed sl S) (hh : c.height < maxHeight)
    (hsz : Sized sl.arena.capacity c.key c.value) (hpc : PutOk cmp sl S c pc) (weak : Bool) :
    (putStep sl c weak pc = .error .outOfMemory ∧ ∃ h s, pc = .alloc h s) ∨
      ∃ sl' S' r, putStep sl c weak pc = .ok (sl', r) ∧ PutStep cmp sl S c pc sl' S' r := by
  cases pc with
  | search h i s before =>
    obtain ⟨r, hrun, hstep⟩ := search_step weak hwf hclosed hpc
    exact Or.inr ⟨sl, S, r, hrun, hstep⟩
  | alloc h s =>
    rcases alloc_step weak hwf hclosed hh hsz hpc with hrun | ⟨r, hrun, hstep⟩
    · exact Or.inl ⟨hrun, h, s, rfl⟩
    · exact Or.inr ⟨sl, S, r, hrun, hstep⟩
  | allocCas h s current offset new =>
    obtain ⟨sl', r, hrun, hstep⟩ := allocCas_step weak hwf hclosed hsz hpc
    exact Or.inr ⟨sl', S, r, hrun, hstep⟩
  | init h s node =>
    obtain ⟨sl', r, hrun, hstep⟩ := init_step weak hwf hclosed hh hsz hpc
    exact Or.inr ⟨sl', S, r, hrun, hstep⟩
  | raise s node current =>
    obtain ⟨sl', r, hrun, hstep⟩ := raise_step weak hwf hclosed hh hpc
    exact Or.inr ⟨sl', S, r, hrun, hstep⟩
  | splice s node i before => exact hpc.elim
  | linkNext s node i =>
    obtain ⟨sl', r, hrun, hstep⟩ := linkNext_step weak hwf hclosed hh hpc
    exact Or.inr ⟨sl', S, r, hrun, hstep⟩
  | linkCas s node i => exact Or.inr (linkCas_step weak hwf hclosed hh hpc)
  | relink s node i before =>
    obtain ⟨r, hrun, hstep⟩ := relink_step weak hwf hclosed hh hpc
    exact Or.inr ⟨sl, S, r, hrun, hstep⟩
  | backNode s node =>
    obtain ⟨sl', r, hrun, hstep⟩ := backNode_step weak hwf hclosed hpc
    exact Or.inr ⟨sl', S, r, hrun, hstep⟩
  | backNext s node =>
    obtain ⟨sl', r, hrun, hstep⟩ := backNext_step weak hwf hclosed hpc
    exact Or.inr ⟨sl', S, r, hrun, hstep⟩
  | storeNext s node i =>
    obtain ⟨sl', r, hrun, hstep⟩ := storeNext_step weak hwf hclosed hh hpc
    exact Or.inr ⟨sl', S, r, hrun, hstep⟩
  | storeLink s node i => exact Or.inr (storeLink_step weak hwf hclosed hh hpc)

end Concurrent

end StoneDb
