import StoneDb.Concurrent.Chains

/-!
# Compare-exchanges

The words that `put` calls compete for among writers: the bump pointer of the arena, the list height
and the tower slots (`Word`).  A step that compare-exchanges a word wins it or loses it (`Wins`,
`Loses`), and nothing but a win changes a word that other calls can reach (`PutMove.word`).

`PutMove` says exactly what a step of a `put` among writers does, when `compare_exchange_weak` does
not fail spuriously, and `Turn` what a step of the machine does to the calls of `put`
(`step_turn`).
-/

namespace StoneDb

namespace Concurrent

open SkipList

/-! ### Words -/

/-- The words that `put` calls compare-exchange. -/
inductive Word where
  /-- The bump pointer of the arena. -/
  | bump
  /-- The list height. -/
  | height
  /-- The tower slot of the node `o` at level `l`. -/
  | slot (o l : ℕ)
  deriving DecidableEq

/-- What a word holds. -/
def Word.load (sl : SkipList) : Word → Option ℕ
  | .bump => sl.arena.ptr
  | .height => some sl.height
  | .slot o l => some (sl.arena.nextAt o l)

/-- The word that a step of `put` compare-exchanges, and what it expects there. -/
def PutPc.exchange : PutPc → Option (Word × Option ℕ)
  | .allocCas _ _ current _ _ => some (.bump, current)
  | .raise _ _ current => some (.height, some current)
  | .linkCas s _ i => some (.slot (s.prev i) i, some (s.next i))
  | _ => none

/-- The word that a label compare-exchanges. -/
def Label.exchange (s : State) : Label → Option (Word × Option ℕ)
  | .step t _ =>
    match (s.threads t).pc with
    | .put _ pc => pc.exchange
    | _ => none
  | .invoke .. | .ret .. => none

/-- The compare-exchange of `w` that the label makes succeeds. -/
def Wins (s : State) (l : Label) (w : Word) : Prop := l.exchange s = some (w, w.load s.list)

/-- The compare-exchange of `w` that the label makes fails. -/
def Loses (s : State) (l : Label) (w : Word) : Prop :=
  ∃ e, l.exchange s = some (w, e) ∧ w.load s.list ≠ e

/-! ### Steps of `put` -/

/-- The arrays with another splice for level `i`. -/
def record (s : Splices) (i p n : ℕ) : Splices where
  prev := Function.update s.prev i p
  next := Function.update s.next i n

/-- Among writers, the splice goes on at level `i`, or is complete. -/
def goOn (c : PutCall) (s : Splices) (node i : ℕ) : Iter PutPc (Option (Bytes × Bytes)) :=
  if c.height < i then .done none else .next (.linkNext s node i)

/-- **What a step of `put` does** among writers. -/
inductive PutMove (cmp : KeyComparator) [Std.TransCmp cmp.compareKey] (sl : SkipList)
    (S : ℕ → Finset ℕ) (c : PutCall) : PutPc → SkipList → (ℕ → Finset ℕ) →
      Iter PutPc (Option (Bytes × Bytes)) → Prop
  | advance (h i : ℕ) (s : Splices) (before : ℕ) : sl.arena.nextAt before i ∈ S i →
    pos cmp sl before < pos cmp sl (sl.arena.nextAt before i) →
    PutMove cmp sl S c (.search h i s before) sl S
      (.next (.search h i s (sl.arena.nextAt before i)))
  | found (h i : ℕ) (s : Splices) (before : ℕ) (r : Option (Bytes × Bytes)) :
    PutMove cmp sl S c (.search h i s before) sl S (.done r)
  | descend (h i : ℕ) (s : Splices) (before : ℕ) :
    PutMove cmp sl S c (.search h (i + 1) s before) sl S
      (.next (.search h i (record s (i + 1) before (sl.arena.nextAt before (i + 1))) before))
  | searched (h : ℕ) (s : Splices) (before : ℕ) :
    PutMove cmp sl S c (.search h 0 s before) sl S
      (.next (.alloc h (record s 0 before (sl.arena.nextAt before 0))))
  | load (h : ℕ) (s : Splices) (offset new : ℕ) :
    PutMove cmp sl S c (.alloc h s) sl S (.next (.allocCas h s sl.arena.ptr offset new))
  | reserve (h : ℕ) (s : Splices) (offset new : ℕ) :
    PutMove cmp sl S c (.allocCas h s sl.arena.ptr offset new)
      { sl with arena := sl.arena.setPtr new } S (.next (.init h s offset))
  | reload (h : ℕ) (s : Splices) (current : Option ℕ) (offset new : ℕ) : sl.arena.ptr ≠ current →
    PutMove cmp sl S c (.allocCas h s current offset new) sl S (.next (.alloc h s))
  | init (h : ℕ) (s : Splices) (node : ℕ) : ¬ sl.arena.Alive node →
    PutMove cmp sl S c (.init h s node)
      { sl with arena := sl.arena.write node (Node.init c.key c.value c.height) } S
      (if h < c.height then .next (.raise s node h) else goOn c s node 0)
  | raised (s : Splices) (node : ℕ) :
    PutMove cmp sl S c (.raise s node sl.height) { sl with height := c.height } S (goOn c s node 0)
  | higher (s : Splices) (node current : ℕ) : sl.height ≠ current → sl.height < c.height →
    PutMove cmp sl S c (.raise s node current) sl S (.next (.raise s node sl.height))
  | overtaken (s : Splices) (node current : ℕ) : sl.height ≠ current →
    PutMove cmp sl S c (.raise s node current) sl S (goOn c s node 0)
  | point (s : Splices) (node i : ℕ) : node ≠ sl.head → node ∉ S i →
    PutMove cmp sl S c (.linkNext s node i)
      { sl with arena := sl.arena.setNext node i (s.next i) } S (.next (.linkCas s node i))
  | link (s : Splices) (node i : ℕ) : sl.arena.nextAt (s.prev i) i = s.next i →
    PutMove cmp sl S c (.linkCas s node i)
      { sl with arena := sl.arena.setNext (s.prev i) i node }
      (Function.update S i (insert node (S i))) (goOn c s node (i + 1))
  | miss (s : Splices) (node i : ℕ) : sl.arena.nextAt (s.prev i) i ≠ s.next i →
    PutMove cmp sl S c (.linkCas s node i) sl S (.next (.relink s node i (s.prev i)))
  | readvance (s : Splices) (node i before : ℕ) : sl.arena.nextAt before i ∈ S i →
    pos cmp sl before < pos cmp sl (sl.arena.nextAt before i) →
    PutMove cmp sl S c (.relink s node i before) sl S
      (.next (.relink s node i (sl.arena.nextAt before i)))
  | conflict (s : Splices) (node i before : ℕ) (r : Option (Bytes × Bytes)) :
    PutMove cmp sl S c (.relink s node i before) sl S (.done r)
  | resplice (s : Splices) (node i before : ℕ) :
    PutMove cmp sl S c (.relink s node i before) sl S
      (.next (.linkNext (record s i before (sl.arena.nextAt before i)) node i))

variable {cmp : KeyComparator} [Std.TransCmp cmp.compareKey] {writer t : ℕ} {s s' : State}
  {sl sl' : SkipList} {S S' : ℕ → Finset ℕ} {l : Label} {c : PutCall} {pc : PutPc} {w : Word}
  {sp : Splices} {i node before p n : ℕ} {r : Iter PutPc (Option (Bytes × Bytes))}

/-- One iteration of `find_splice_for_level`, from what it loads. -/
theorem spliceStep_load {key : Bytes} (hwf : Wf cmp sl S) (hat : SearchAt cmp sl S key before i) :
    (sl.spliceStep key i before = .ok (.next (sl.arena.nextAt before i)) ∧
        sl.arena.nextAt before i ∈ S i ∧
        pos cmp sl before < pos cmp sl (sl.arena.nextAt before i)) ∨
      sl.spliceStep key i before = .ok (.done (before, sl.arena.nextAt before i)) ∨
      ∃ x ∈ S i, sl.spliceStep key i before = .ok (.done (x, x)) := by
  obtain ⟨hi, hmem, -⟩ := hat
  obtain ⟨hload, hnext⟩ := hwf.load hi hmem
  have hstart : (if before = 0 then sl.headOffset else before) = before :=
    if_neg (hwf.ne_zero' hmem)
  simp only [SkipList.spliceStep, hstart, hload, bind, Except.bind]
  by_cases hnull : sl.arena.nextAt before i = 0
  · simp only [hnull, if_true]
    exact Or.inr (Or.inl rfl)
  obtain ⟨hnmem, hpos⟩ := hnext hnull
  simp only [hnull, if_false, hwf.nodeKey_of_mem hnmem]
  cases sl.cmp.compareKey (sl.arena.keyAt (sl.arena.nextAt before i)) key with
  | lt => exact Or.inl ⟨rfl, hnmem, hpos⟩
  | gt => exact Or.inr (Or.inl rfl)
  | eq => exact Or.inr (Or.inr ⟨_, hnmem, rfl⟩)

theorem nextAt_ne {key : Bytes} (hwf : Wf cmp sl S) (hat : SearchAt cmp sl S key before i) :
    sl.arena.nextAt before i ≠ before := by
  intro he
  have hnext := (hwf.load hat.1 hat.2.1).2 (he.symm ▸ hwf.ne_zero' hat.2.1)
  rw [he] at hnext
  exact lt_irrefl _ hnext.2

theorem linkLevel_goOn (hmode : sl.allowConcurrentWrite = true) (hh : c.height < maxHeight)
    (hp : i ≤ c.height → sp.prev i ≠ 0) : linkLevel sl c sp node i = .ok (goOn c sp node i) := by
  rw [linkLevel_eq hh hp, hmode]
  rfl

/-- A step of `put` is determined by its run. -/
theorem PutMove.of_run {sl₁ : SkipList} {S₁ : ℕ → Finset ℕ}
    {r₁ : Iter PutPc (Option (Bytes × Bytes))} (hmove : PutMove cmp sl S c pc sl₁ S₁ r₁)
    (hwf₁ : Wf cmp sl₁ S₁) (hwf' : Wf cmp sl' S')
    (hrun : (.ok (sl₁, r₁) : Except Fault _) = .ok (sl', r)) : PutMove cmp sl S c pc sl' S' r := by
  obtain ⟨rfl, rfl⟩ := hrun
  rwa [← hwf₁.unique hwf']

/-- **Every step of `put` among writers** is one of these. -/
theorem putStep_move (hwf : Wf cmp sl S) (hmode : sl.allowConcurrentWrite = true)
    (hh : c.height < maxHeight) (hsz : Sized sl.arena.capacity c.key c.value)
    (hpc : PutOk cmp sl S c pc) (hwf' : Wf cmp sl' S')
    (hrun : putStep sl c false pc = .ok (sl', r)) : PutMove cmp sl S c pc sl' S' r := by
  cases pc with
  | search h i s before =>
    obtain ⟨-, hat, -⟩ := hpc
    have hix : i < maxHeight + 1 := hat.1.trans (Nat.lt_succ_self _)
    rcases spliceStep_load hwf hat with ⟨hstep, hmem, hlt⟩ | hstep | ⟨x, hx, hstep⟩
    · simp only [putStep, hstep, bind, Except.bind, pure, Except.pure] at hrun
      exact .of_run (.advance h i s before hmem hlt) hwf hwf' hrun
    · have hne : ¬ (before = sl.arena.nextAt before i ∧ before ≠ 0) := fun he =>
        nextAt_ne hwf hat he.1.symm
      simp only [putStep, hstep, store_eq s hix, hne, if_false, bind, Except.bind, pure,
        Except.pure] at hrun
      cases i with
      | zero => exact .of_run (.searched h s before) hwf hwf' hrun
      | succ i =>
        simp only [index_eq hix, Function.update_self] at hrun
        exact .of_run (.descend h i s before) hwf hwf' hrun
    · simp only [putStep, hstep, store_eq s hix, true_and, ne_eq, hwf.ne_zero hx, not_false_eq_true,
        if_true, hwf.conflict_eq hx, bind, Except.bind, pure, Except.pure] at hrun
      exact .of_run (.found h i s before _) hwf hwf' hrun
  | alloc h s =>
    simp only [putStep, bind, Except.bind, pure, Except.pure] at hrun
    split at hrun
    · cases hrun
    · exact .of_run (.load h s _ _) hwf hwf' hrun
  | allocCas h s current offset new =>
    obtain ⟨-, rfl, rfl, hcap⟩ := hpc
    simp only [putStep, Arena.compareExchangePtr] at hrun
    by_cases hcas : sl.arena.ptr = some offset
    · have hlen : sl.arena.len = offset := by simp [Arena.len, hcas]
      simp only [if_pos hcas] at hrun
      have hmove : PutMove cmp sl S c (.allocCas h s sl.arena.ptr offset
          (offset + nodeBytes c.key c.value c.height)) _ S _ := .reserve h s offset _
      rw [hcas] at hmove
      exact hmove.of_run (hwf.setPtr (by omega) hcap) hwf' hrun
    · simp only [if_neg hcas] at hrun
      exact .of_run (.reload h s _ offset _ hcas) hwf hwf' hrun
  | init h s node =>
    obtain ⟨hs, hlt, hfresh, hnode0, -⟩ := hpc
    have hwrap := hsz.no_wrap
    have hbytes := nodeBytes_le c.key c.value hh
    have hinit := initNode_eq sl.arena node c.key c.value c.height (by omega)
    have hgo : linkLevel sl c s node 0 = .ok (goOn c s node 0) :=
      linkLevel_goOn hmode hh fun _ => hwf.ne_zero' (hs.splice 0 le_rfl (by decide)).1
    simp only [putStep, hinit, hgo, bind, Except.bind, pure, Except.pure] at hrun
    refine .of_run (.init h s node hfresh) (hwf.write hfresh hlt) hwf' ?_
    rw [← hrun]
    split_ifs <;> rfl
  | raise s node current =>
    obtain ⟨hl, hlt, -⟩ := hpc
    have hgo : linkLevel sl c s node 0 = .ok (goOn c s node 0) :=
      linkLevel_goOn hmode hh fun hi => hwf.ne_zero' (hl.splice 0 le_rfl hi).1
    simp only [putStep, if_pos hmode, Bool.not_false, Bool.true_and, beq_iff_eq, hgo, bind,
      Except.bind, pure, Except.pure] at hrun
    by_cases hcas : sl.height = current
    · subst hcas
      rw [if_pos rfl] at hrun
      exact .of_run (.raised s node) (hwf.raise hlt.le hh) hwf' hrun
    · rw [if_neg hcas] at hrun
      split_ifs at hrun with hlow
      · exact .of_run (.higher s node current hcas hlow) hwf hwf' hrun
      · exact .of_run (.overtaken s node current hcas) hwf hwf' hrun
  | splice s node i before => exact hpc.elim
  | linkNext s node i =>
    have hl := hpc.2.linking
    have hi := hpc.2.level_lt hh
    have hfresh := hl.fresh i le_rfl
    simp only [putStep, index_eq (show i < maxHeight + 1 by omega),
      nodeSetNext_eq (hl.slot.mono hpc.2.level_le), bind, Except.bind, pure, Except.pure] at hrun
    exact .of_run (.point s node i hl.ne_head hfresh) (hwf.setNext hl.ne_head hfresh) hwf' hrun
  | linkCas s node i =>
    obtain ⟨-, hp, hself⟩ := hpc
    have hi := hp.level_lt hh
    have hcas := nodeCompareExchange_eq (x := node) (hwf.hasSlot hi hp.splice.1) (s.next i)
    simp only [putStep, index_eq (show i < maxHeight + 1 by omega), hcas, bind, Except.bind, pure,
      Except.pure] at hrun
    by_cases hprev : sl.arena.nextAt (s.prev i) i = s.next i
    · obtain ⟨hlink, -, hl'⟩ := hp.linking.link hwf hp.height_le hp.level_le hself hprev
      have hgo : linkLevel sl c s node (i + 1) = .ok (goOn c s node (i + 1)) :=
        linkLevel_goOn hmode hh fun hle => hlink.ne_zero' (hl'.splice (i + 1) le_rfl hle).1
      simp only [if_pos hprev, hgo] at hrun
      exact .of_run (.link s node i hprev) hlink hwf' hrun
    · simp only [if_neg hprev] at hrun
      exact .of_run (.miss s node i hprev) hwf hwf' hrun
  | relink s node i before =>
    obtain ⟨-, hp, hat⟩ := hpc
    have hix : i < maxHeight + 1 := hat.1.trans (Nat.lt_succ_self _)
    rcases spliceStep_load hwf hat with ⟨hstep, hmem, hlt⟩ | hstep | ⟨x, hx, hstep⟩
    · simp only [putStep, hstep, bind, Except.bind, pure, Except.pure] at hrun
      exact .of_run (.readvance s node i before hmem hlt) hwf hwf' hrun
    · have hgo : linkLevel sl c (record s i before (sl.arena.nextAt before i)) node i =
          .ok (.next (.linkNext (record s i before (sl.arena.nextAt before i)) node i)) := by
        rw [linkLevel_goOn hmode hh fun _ => ?_, goOn, if_neg (not_lt.2 hp.level_le)]
        simpa [record] using hwf.ne_zero' hat.2.1
      simp only [record] at hgo
      simp only [putStep, hstep, store_eq s hix, (nextAt_ne hwf hat).symm, if_false, hgo, bind,
        Except.bind, pure, Except.pure] at hrun
      exact .of_run (.resplice s node i before) hwf hwf' hrun
    · simp only [putStep, hstep, if_true, hwf.conflict_eq hx, bind, Except.bind, pure,
        Except.pure] at hrun
      split_ifs at hrun
      exact .of_run (.conflict s node i before _) hwf hwf' hrun
  | backNode s node | backNext s node | storeNext s node i | storeLink s node i =>
    exact absurd (hmode.symm.trans hpc.1) (by decide)

/-! ### What changes a word -/

/-- The word is not a slot of a node that only its owner can reach. -/
def Word.Linked (sl : SkipList) (S : ℕ → Finset ℕ) : Word → Prop
  | .slot o l => o = sl.head ∨ o ∈ S l
  | .bump | .height => True

/-- **Only a successful compare-exchange changes a word.** -/
theorem PutMove.word (hm : PutMove cmp sl S c pc sl' S' r) (hwf : Wf cmp sl S)
    (hw : w.Linked sl S) :
    w.load sl' = w.load sl ∨ pc.exchange = some (w, w.load sl) := by
  cases hm with
  | advance | found | descend | searched | load | reload | higher | overtaken | miss | readvance
  | conflict | resplice => exact Or.inl rfl
  | reserve h s offset new =>
    cases w with
    | bump => exact Or.inr rfl
    | height | slot => exact Or.inl rfl
  | init h s node hfresh =>
    cases w with
    | bump | height => exact Or.inl rfl
    | slot o l =>
      have hne : o ≠ node := hwf.ne_of_not_alive hfresh hw
      exact Or.inl (congrArg some (Arena.nextAt_write_of_ne hne))
  | raised s node =>
    cases w with
    | height => exact Or.inr rfl
    | bump | slot => exact Or.inl rfl
  | point s node i hhead hfresh =>
    cases w with
    | bump | height => exact Or.inl (by simp [Word.load])
    | slot o l =>
      refine Or.inl (congrArg some (Arena.nextAt_setNext_of_ne ?_))
      by_cases hl : l = i
      · refine Or.inl ?_
        rintro rfl
        exact hw.elim hhead fun hm => hfresh (hl ▸ hm)
      · exact Or.inr hl
  | link s node i hprev =>
    cases w with
    | bump | height => exact Or.inl (by simp [Word.load])
    | slot o l =>
      by_cases ho : o = s.prev i ∧ l = i
      · obtain ⟨rfl, rfl⟩ := ho
        refine Or.inr ?_
        simp only [PutPc.exchange, Word.load, hprev]
      · refine Or.inl (congrArg some (Arena.nextAt_setNext_of_ne ?_))
        by_contra hcon
        push Not at hcon
        exact ho hcon

/-- A win finds what it expects. -/
theorem exchange_holds {w' : Word} {e : Option ℕ} (h : some (w', e) = some (w, w.load sl)) :
    w = w' ∧ w'.load sl = e := by
  obtain ⟨rfl, rfl⟩ := Prod.mk.inj (Option.some.inj h)
  exact ⟨rfl, rfl⟩

/-- A node is linked at a level by winning a slot of it. -/
theorem PutMove.links (hm : PutMove cmp sl S c pc sl' S' r) :
    S' = S ∨ ∃ o i x, pc.exchange = some (.slot o i, Word.load sl (.slot o i)) ∧
      S' = Function.update S i (insert x (S i)) := by
  cases hm with
  | link s node i hprev =>
    refine Or.inr ⟨s.prev i, i, node, ?_, rfl⟩
    simp only [PutPc.exchange, Word.load, hprev]
  | _ => exact Or.inl rfl

/-! ### Turns -/

/-- `compare_exchange_weak` does not fail spuriously. -/
def Label.Steady : Label → Prop
  | .step _ weak => weak = false
  | .invoke .. | .ret .. => True

instance : DecidablePred Label.Steady
  | .step _ weak => inferInstanceAs (Decidable (weak = false))
  | .invoke .. | .ret .. => inferInstanceAs (Decidable True)

/-- The call of `put` that a label starts. -/
def Label.putCall : Label → Option PutCall
  | .invoke _ (.put c) => some c
  | _ => none

/-- **What a step of the machine does to the calls of `put`**: one of them starts, loads the list
height or makes a step; or none is in progress in the thread afterwards. -/
inductive Turn (cmp : KeyComparator) [Std.TransCmp cmp.compareKey] (s : State) (S : ℕ → Finset ℕ) :
    Label → State → (ℕ → Finset ℕ) → Prop
  | call (t : ℕ) (c : PutCall) : (s.threads t).pc = .idle →
    Turn cmp s S (.invoke t (.put c)) (s.setPc t (.loadHeight (.put c))) S
  | snapshot (t : ℕ) (c : PutCall) : (s.threads t).pc = .loadHeight (.put c) →
    Turn cmp s S (.step t false) (s.setPc t (.put c (.search s.list.height s.list.height
      (.start s.list.head s.list.height) s.list.head))) S
  | put (t : ℕ) (c : PutCall) (pc : PutPc) (sl : SkipList) (S' : ℕ → Finset ℕ)
    (r : Iter PutPc (Option (Bytes × Bytes))) : (s.threads t).pc = .put c pc →
    PutMove cmp s.list S c pc sl S' r →
    Turn cmp s S (.step t false) (s.update sl t { s.threads t with pc := afterPut c r }) S'
  | aside (l : Label) (th : Thread) : l.exchange s = none → l.putCall = none → ¬ th.pc.Inserting →
    Turn cmp s S l (s.update s.list l.thread th) S

theorem afterPut_inj {r r' : Iter PutPc (Option (Bytes × Bytes))}
    (h : afterPut c r = afterPut c r') : r = r' := by
  cases r <;> cases r' <;> cases h <;> rfl

/-- A step of a `put` that is a move of the machine. -/
theorem step_put {weak : Bool} (hpc : (s.threads t).pc = .put c pc)
    (hstep : step s (.step t weak) = some (s.update sl t { s.threads t with pc := afterPut c r })) :
    putStep s.list c weak pc = .ok (sl, r) := by
  have hthread : ∀ {sl₁ : SkipList} {th : Thread},
      s.update sl₁ t th = s.update sl t { s.threads t with pc := afterPut c r } →
        sl₁ = sl ∧ th.pc = afterPut c r := by
    intro sl₁ th he
    have hpc' := congrArg (fun s' : State => (s'.threads t).pc) he
    simp only [State.update_self] at hpc'
    exact ⟨congrArg State.list he, hpc'⟩
  simp only [step, Thread.advance, hpc] at hstep
  cases hrun : putStep s.list c weak pc with
  | error e =>
    simp only [hrun, bind, Except.bind, Option.some.injEq] at hstep
    have hpc' := (hthread hstep).2
    cases r <;> cases hpc'
  | ok v =>
    obtain ⟨sl₁, r₁⟩ := v
    simp only [hrun, bind, Except.bind, pure, Except.pure] at hstep
    have hafter : sl₁ = sl ∧ afterPut c r₁ = afterPut c r := by
      cases r₁ <;> exact hthread (Option.some.inj hstep)
    obtain ⟨rfl, hr⟩ := hafter
    rw [afterPut_inj hr]

theorem exchange_of_not_put {weak : Bool} (h : ∀ c pc, (s.threads t).pc ≠ .put c pc) :
    Label.exchange s (.step t weak) = none := by
  cases hpc : (s.threads t).pc with
  | put c pc => exact absurd hpc (h c pc)
  | idle | loadHeight | read | done | faulted => simp only [Label.exchange, hpc]

/-- **Every step of the machine is a turn.** -/
theorem step_turn (h : Inv cmp true writer s S) (hl : l.Steady) (hstep : step s l = some s') :
    ∃ S', Move cmp s S l s' S' ∧ Turn cmp s S l s' S' := by
  obtain ⟨S', hm⟩ := step_move h hstep
  refine ⟨S', hm, ?_⟩
  cases hm with
  | invoke t c hpc =>
    cases c with
    | put c => exact .call t c hpc
    | read q =>
      refine .aside _ _ rfl rfl ?_
      simp only [Call.start]
      split_ifs <;> exact id
  | ret t r hpc => exact .aside _ _ rfl rfl id
  | search t weak c hpc =>
    obtain rfl : weak = false := hl
    exact .snapshot t c hpc
  | descend t weak q hpc =>
    exact .aside _ _ (exchange_of_not_put (by simp [hpc])) rfl id
  | read t weak q p p' hpc =>
    exact .aside _ _ (exchange_of_not_put (by simp [hpc])) rfl id
  | answer t weak q p it r hpc =>
    exact .aside _ _ (exchange_of_not_put (by simp [hpc])) rfl id
  | put t weak c pc sl S' r hpc hput =>
    obtain rfl : weak = false := hl
    have hok := h.pc t
    rw [hpc] at hok
    obtain ⟨hvalid, hok⟩ := hok
    refine .put t c pc sl S' r hpc (putStep_move h.wf h.mode_eq hvalid.height
      (sized_of_le h.capacity_le hvalid.size) hok hput.wf (step_put hpc hstep))
  | panic t weak c height sp hpc =>
    refine .aside _ _ ?_ rfl id
    simp only [Label.exchange, hpc, PutPc.exchange]

end Concurrent

end StoneDb
