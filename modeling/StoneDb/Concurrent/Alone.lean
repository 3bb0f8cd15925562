import StoneDb.Concurrent.Run
import StoneDb.SkipList.Keeping
import StoneDb.SkipList.Put
import StoneDb.SkipList.Reachable

/-!
# A call that nothing interrupts

The two models of the source agree: a call whose thread moves alone from its start on, in a machine
where the other threads have stopped wherever they are, does what the operation of
`StoneDb.SkipList.Basic` does (`call_alone`).  So such a call always ends.

The operations of `StoneDb.SkipList.Basic` are loops inside loops, and a call of the machine is one
loop over program counters.  `Runs` says that the steps of a `put` lead to a result, and there is
one lemma for each part of `put`, which reduces the steps of the part to those of what follows it.
-/

namespace StoneDb

namespace Concurrent

open SkipList

/-! ### The steps of a `put` -/

/-- The steps of the `put` call `c` from `pc` on lead to the result `R`. -/
inductive Runs (c : PutCall) (R : EStateM.Result Fault SkipList (Option (Bytes × Bytes))) :
    SkipList → PutPc → Prop
  | next {sl sl' : SkipList} {pc pc' : PutPc} : putStep sl c false pc = .ok (sl', .next pc') →
    Runs c R sl' pc' → Runs c R sl pc
  | done {sl sl' : SkipList} {pc : PutPc} {r : Option (Bytes × Bytes)} :
    putStep sl c false pc = .ok (sl', .done r) → R = .ok r sl' → Runs c R sl pc
  | panic {sl : SkipList} {pc : PutPc} {e : Fault} : putStep sl c false pc = .error e →
    R = .error e sl → Runs c R sl pc

/-- What a step of `put` has returned leads to the result `R`. -/
def Leads (c : PutCall) (R : EStateM.Result Fault SkipList (Option (Bytes × Bytes)))
    (sl : SkipList) : Iter PutPc (Option (Bytes × Bytes)) → Prop
  | .next pc => Runs c R sl pc
  | .done r => R = .ok r sl

/-- From level `i` on, the splice of `put` leads to the result `R`. -/
def LevelRuns (c : PutCall) (R : EStateM.Result Fault SkipList (Option (Bytes × Bytes)))
    (sl : SkipList) (s : Splices) (node i : ℕ) : Prop :=
  ∃ r, linkLevel sl c s node i = .ok r ∧ Leads c R sl r

variable {c : PutCall} {R : EStateM.Result Fault SkipList (Option (Bytes × Bytes))}
  {sl sl' : SkipList} {s : Splices} {h i node before : ℕ} {pc : PutPc}

/-- Only the mode and the head of the list matter where a splice goes on. -/
theorem LevelRuns.level (hlevel : LevelRuns c R sl' s node i) (sl : SkipList)
    (hmode : sl'.allowConcurrentWrite = sl.allowConcurrentWrite) (hhead : sl'.head = sl.head) :
    ∃ r, linkLevel sl c s node i = .ok r ∧ Leads c R sl' r := by
  obtain ⟨r, hrun, hr⟩ := hlevel
  refine ⟨r, ?_, hr⟩
  rw [← hrun]
  simp only [linkLevel, hmode, headOffset, hhead]

theorem Runs.of_step {r : Iter PutPc (Option (Bytes × Bytes))}
    (hstep : putStep sl c false pc = .ok (sl', r)) (hr : Leads c R sl' r) : Runs c R sl pc := by
  cases r with
  | next pc' => exact .next hstep hr
  | done r => exact .done hstep hr

/-- The loop of `find_splice_for_level`, at one of the three places where `put` calls it. -/
theorem Runs.find {n : ℕ} {r : ℕ × ℕ} (pcAt : ℕ → PutPc)
    (hnext : ∀ b b', sl.spliceStep c.key i b = .ok (.next b') →
      putStep sl c false (pcAt b) = .ok (sl, .next (pcAt b')))
    (hlast : ∀ b, sl.spliceStep c.key i b = .ok (.done r) → Runs c R sl (pcAt b))
    (hfind : Iterates (sl.spliceStep c.key i) r n before) : Runs c R sl (pcAt before) := by
  induction hfind with
  | done hstep => exact hlast _ hstep
  | next hstep _ ih => exact .next (hnext _ _ hstep) ih

/-- A level of the search of `put`. -/
theorem searchLevels_level {found : Option (Bytes × Bytes) ⊕ Splices}
    (hsearch : sl.searchLevels c.key c.value (i + 1) s = .ok found)
    (hbefore : index s.prev (i + 1) = .ok before) :
    ∃ p n s' k, Iterates (sl.spliceStep c.key i) (p, n) k before ∧ s.store i p n = .ok s' ∧
      ((p = n ∧ p ≠ 0) ∧ (∃ r, sl.conflict p c.key c.value = .ok r ∧ found = .inl r) ∨
        ¬ (p = n ∧ p ≠ 0) ∧ sl.searchLevels c.key c.value i s' = .ok found) := by
  rw [searchLevels] at hsearch
  obtain ⟨b, hb, hsearch⟩ := except_bind_eq_ok.1 hsearch
  obtain rfl : before = b := Except.ok.inj (hbefore.symm.trans hb)
  obtain ⟨⟨p, n⟩, hfind, hsearch⟩ := except_bind_eq_ok.1 hsearch
  obtain ⟨s', hstore, hsearch⟩ := except_bind_eq_ok.1 hsearch
  obtain ⟨k, -, hiter⟩ := iterates_of_loop hfind
  refine ⟨p, n, s', k, hiter, hstore, ?_⟩
  split_ifs at hsearch with hpn
  · obtain ⟨r, hr, hsearch⟩ := except_bind_eq_ok.1 hsearch
    exact Or.inl ⟨hpn, r, hr, (Except.ok.inj hsearch).symm⟩
  · exact Or.inr ⟨hpn, hsearch⟩

/-- The search of `put`. -/
theorem searchLevels_runs {found : Option (Bytes × Bytes) ⊕ Splices}
    (hsearch : sl.searchLevels c.key c.value (i + 1) s = .ok found)
    (hbefore : index s.prev (i + 1) = .ok before)
    (hfound : ∀ r, found = .inl r → R = .ok r sl)
    (hnone : ∀ s', found = .inr s' → Runs c R sl (.alloc h s')) :
    Runs c R sl (.search h i s before) := by
  induction i generalizing s before with
  | zero =>
    obtain ⟨p, n, s', k, hiter, hstore, hend⟩ := searchLevels_level hsearch hbefore
    refine .find (fun b => .search h 0 s b) (fun b b' hstep => ?_) (fun b hstep => ?_) hiter
    · simp only [putStep, hstep, bind, Except.bind, pure, Except.pure]
    rcases hend with ⟨hpn, r, hr, rfl⟩ | ⟨hpn, hrest⟩
    · refine .done ?_ (hfound r rfl)
      simp only [putStep, hstep, hstore, if_pos hpn, hr, bind, Except.bind, pure, Except.pure]
    · cases hrest
      refine .next ?_ (hnone s' rfl)
      simp only [putStep, hstep, hstore, hpn, if_false, bind, Except.bind, pure, Except.pure]
  | succ i ih =>
    obtain ⟨p, n, s', k, hiter, hstore, hend⟩ := searchLevels_level hsearch hbefore
    refine .find (fun b => .search h (i + 1) s b) (fun b b' hstep => ?_) (fun b hstep => ?_) hiter
    · simp only [putStep, hstep, bind, Except.bind, pure, Except.pure]
    rcases hend with ⟨hpn, r, hr, rfl⟩ | ⟨hpn, hrest⟩
    · refine .done ?_ (hfound r rfl)
      simp only [putStep, hstep, hstore, if_pos hpn, hr, bind, Except.bind, pure, Except.pure]
    · have hrest' := hrest
      rw [searchLevels] at hrest'
      obtain ⟨b', hb', -⟩ := except_bind_eq_ok.1 hrest'
      refine .next ?_ (ih hrest hb')
      simp only [putStep, hstep, hstore, hpn, hb', if_false, bind, Except.bind, pure, Except.pure]

/-- The allocation. -/
theorem allocNode_runs {a : Arena} (halloc : allocNode c.key c.value c.height sl.arena = .ok node a)
    (hraise : h < c.height → Runs c R { sl with arena := a } (.raise s node h))
    (hlink : ¬ h < c.height → LevelRuns c R { sl with arena := a } s node 0) :
    Runs c R sl (.alloc h s) := by
  obtain ⟨offset, a₁, halloc, hinit⟩ := bind_eq_ok.1 halloc
  simp only [Arena.alloc, loop, bind, EStateM.bind, Arena.allocStep] at halloc
  cases hres : sl.arena.reserve sl.arena.ptr
      (Arena.alignSize (nodeSize c.key c.value c.height)) with
  | error e =>
    rw [hres] at halloc
    cases halloc
  | ok r =>
    obtain ⟨o, new⟩ := r
    simp only [hres, Arena.compareExchangePtr, if_true] at halloc
    cases halloc
    cases hnode : initNode { sl.arena with ptr := some new } offset
        (Arena.alignSize (nodeSize c.key c.value c.height)) c.key c.value c.height with
    | error e =>
      simp only [hnode] at hinit
      cases hinit
    | ok a₂ =>
      simp only [hnode] at hinit
      cases hinit
      have hload : putStep sl c false (.alloc h s) =
          .ok (sl, .next (.allocCas h s sl.arena.ptr node new)) := by
        simp only [putStep, hres, bind, Except.bind, pure, Except.pure]
      have hreserve : putStep sl c false (.allocCas h s sl.arena.ptr node new) =
          .ok ({ sl with arena := { sl.arena with ptr := some new } }, .next (.init h s node)) := by
        simp only [putStep, Arena.compareExchangePtr, if_true, pure, Except.pure]
      refine .next hload (.next hreserve ?_)
      by_cases hh : h < c.height
      · refine .next ?_ (hraise hh)
        simp only [putStep, hnode, hh, if_true, bind, Except.bind, pure, Except.pure]
      · obtain ⟨r, hlevel, hr⟩ := (hlink hh).level
          { sl with arena := { sl.arena with ptr := some new } } rfl rfl
        refine .of_step ?_ hr
        simp only [putStep, hnode, hh, if_false, hlevel, bind, Except.bind, pure, Except.pure]

/-- The loop that raises the list height. -/
theorem raiseLoop_runs {current fuel : ℕ} (hmode : sl.allowConcurrentWrite = true)
    (hlt : current < c.height)
    (hraise : loop (raiseStep c.height) (throw .diverged) fuel current sl = .ok () sl')
    (hlink : LevelRuns c R sl' s node 0) : Runs c R sl (.raise s node current) := by
  induction fuel generalizing current with
  | zero => cases hraise
  | succ fuel ih =>
    simp only [loop, bind, EStateM.bind, raiseStep, if_pos hlt] at hraise
    by_cases heq : sl.height = current
    · simp only [if_pos heq] at hraise
      cases hraise
      obtain ⟨r, hlevel, hr⟩ := hlink.level sl rfl rfl
      have hcas : (!false && sl.height == current) = true := by simp [heq]
      refine .of_step ?_ hr
      simp only [putStep, hmode, if_true, if_pos hcas, hlevel, bind, Except.bind, pure, Except.pure]
    · simp only [if_neg heq] at hraise
      have hcas : ¬ (!false && sl.height == current) = true := by simp [heq]
      by_cases hagain : sl.height < c.height
      · refine .next ?_ (ih hagain hraise)
        simp only [putStep, hmode, if_true, if_neg hcas, hagain, bind, Except.bind, pure,
          Except.pure]
      · -- the loop sees that the height is enough
        obtain rfl : sl = sl' := by
          cases fuel with
          | zero => cases hraise
          | succ fuel =>
            simp only [loop, bind, EStateM.bind, raiseStep, if_neg hagain] at hraise
            cases hraise
            rfl
        obtain ⟨r, hlevel, hr⟩ := hlink
        refine .of_step ?_ hr
        simp only [putStep, hmode, if_true, if_neg hcas, hagain, if_false, hlevel, bind,
          Except.bind, pure, Except.pure]

/-- Raising the list height. -/
theorem raiseHeight_runs (hlt : h < c.height) (hraise : raiseHeight c.height h sl = .ok () sl')
    (hlink : LevelRuns c R sl' s node 0) : Runs c R sl (.raise s node h) := by
  simp only [raiseHeight, if_pos hlt] at hraise
  by_cases hmode : sl.allowConcurrentWrite = true
  · rw [if_pos hmode] at hraise
    exact raiseLoop_runs hmode hlt hraise hlink
  · rw [if_neg hmode] at hraise
    cases hraise
    obtain ⟨r, hlevel, hr⟩ := hlink.level sl rfl rfl
    refine .of_step ?_ hr
    simp only [putStep, if_neg hmode, hlevel, bind, Except.bind, pure, Except.pure]

theorem reading_bind_eq_ok {α β : Type} {f : SkipList → Except Fault α} {g : α → Prog β} {b : β} :
    (reading f >>= g) sl = .ok b sl' ↔ ∃ a, f sl = .ok a ∧ g a sl = .ok b sl' := by
  simp only [bind, EStateM.bind, reading]
  cases f sl <;> simp

theorem storing_bind_eq_ok {β : Type} {f : Arena → Except Fault Arena} {g : Unit → Prog β} {b : β} :
    (storing f >>= g) sl = .ok b sl' ↔
      ∃ a, f sl.arena = .ok a ∧ g () { sl with arena := a } = .ok b sl' := by
  simp only [bind, EStateM.bind, storing]
  cases f sl.arena <;> simp

theorem updating_bind_eq_ok {α β : Type} {f : Arena → Except Fault (α × Arena)} {g : α → Prog β}
    {b : β} : (updating f >>= g) sl = .ok b sl' ↔
      ∃ x a, f sl.arena = .ok (x, a) ∧ g x { sl with arena := a } = .ok b sl' := by
  simp only [bind, EStateM.bind, updating]
  cases f sl.arena with
  | error e => simp
  | ok r => simp [Prod.ext_iff]

/-- `linkStep`, when the level has a predecessor. -/
def linkAttempt (key value : Bytes) (node i : ℕ) (s : Splices) :
    Prog (Iter Splices (Option (Bytes × Bytes) ⊕ Splices)) := do
  let p ← reading fun _ => index s.prev i
  let nextOffset ← reading fun _ => index s.next i
  storing fun a => nodeSetNext a node i nextOffset
  let linked ← updating fun a => nodeCompareExchange a p i nextOffset node
  if linked then return .done (.inr s)
  else
    let (p, n) ← reading fun sl => sl.findSpliceForLevel key p i
    if p = n then
      if i ≠ 0 then throw .assertFailed
      else return .done (.inl (← reading fun sl => sl.conflict p key value))
    else return .next (← reading fun _ => s.store i p n)

theorem linkStep_eq (key value : Bytes) : linkStep key value node i s = (do
    let before ← reading fun _ => index s.prev i
    if before = 0 then
      let (p, n) ← reading fun sl => sl.findSpliceForLevel key sl.headOffset i
      let s ← reading fun _ => s.store i p n
      linkAttempt key value node i s
    else linkAttempt key value node i s) := rfl

/-- An attempt to link the node at level `i`, among writers. -/
theorem linkAttempt_runs {r : Iter Splices (Option (Bytes × Bytes) ⊕ Splices)}
    (hrun : linkAttempt c.key c.value node i s sl = .ok r sl')
    (hnext : ∀ s', r = .next s' → sl'.allowConcurrentWrite = sl.allowConcurrentWrite →
      LevelRuns c R sl' s' node i)
    (hfound : ∀ a, r = .done (.inl a) → R = .ok a sl')
    (hlinked : ∀ s', r = .done (.inr s') → LevelRuns c R sl' s' node (i + 1)) :
    Runs c R sl (.linkNext s node i) := by
  simp only [linkAttempt, reading_bind_eq_ok, storing_bind_eq_ok, updating_bind_eq_ok] at hrun
  obtain ⟨p, hp, nextOffset, hnextOffset, a, hself, linked, a', hcas, hrun⟩ := hrun
  have hstore : putStep sl c false (.linkNext s node i) =
      .ok ({ sl with arena := a }, .next (.linkCas s node i)) := by
    simp only [putStep, hnextOffset, hself, bind, Except.bind, pure, Except.pure]
  refine .next hstore ?_
  cases linked with
  | true =>
    cases hrun
    obtain ⟨r, hlevel, hr⟩ := (hlinked s rfl).level { sl with arena := a } rfl rfl
    refine .of_step ?_ hr
    simp only [putStep, hp, hnextOffset, hcas, hlevel, bind, Except.bind, pure, Except.pure]
  | false =>
    -- search the level again
    simp only [Bool.false_eq_true, if_false, reading_bind_eq_ok] at hrun
    obtain ⟨⟨p', n⟩, hfind, hrun⟩ := hrun
    obtain ⟨k, -, hiter⟩ := iterates_of_loop hfind
    have haa : a' = a := by
      obtain ⟨x, -, hcas⟩ := except_bind_eq_ok.1 hcas
      split_ifs at hcas
      · obtain ⟨b, -, hcas⟩ := except_bind_eq_ok.1 hcas
        cases hcas
      · cases hcas
        rfl
    subst haa
    have hmiss : putStep { sl with arena := a' } c false (.linkCas s node i) =
        .ok ({ sl with arena := a' }, .next (.relink s node i p)) := by
      simp only [putStep, hp, hnextOffset, hcas, bind, Except.bind, pure, Except.pure]
    refine .next hmiss ?_
    refine .find (fun b => .relink s node i b) (fun b b' hstep => ?_) (fun b hstep => ?_) hiter
    · simp only [putStep, hstep, bind, Except.bind, pure, Except.pure]
    split_ifs at hrun with hpn hi0
    · cases hrun
    · obtain ⟨answer, hanswer, hrun⟩ := reading_bind_eq_ok.1 hrun
      cases hrun
      refine .done ?_ (hfound answer rfl)
      simp only [putStep, hstep, if_pos hpn, hi0, if_false, hanswer, bind, Except.bind, pure,
        Except.pure]
    · obtain ⟨s', hstore, hrun⟩ := reading_bind_eq_ok.1 hrun
      cases hrun
      obtain ⟨r, hlevel, hr⟩ := hnext s' rfl rfl
      refine .of_step ?_ hr
      simp only [putStep, hstep, if_neg hpn, hstore, hlevel, bind, Except.bind, pure, Except.pure]

/-- An iteration of the loop that links the node at level `i`, among writers. -/
theorem linkStep_runs {r : Iter Splices (Option (Bytes × Bytes) ⊕ Splices)}
    (hmode : sl.allowConcurrentWrite = true) (hi : i ≤ c.height)
    (hrun : linkStep c.key c.value node i s sl = .ok r sl')
    (hnext : ∀ s', r = .next s' → sl'.allowConcurrentWrite = sl.allowConcurrentWrite →
      LevelRuns c R sl' s' node i)
    (hfound : ∀ a, r = .done (.inl a) → R = .ok a sl')
    (hlinked : ∀ s', r = .done (.inr s') → LevelRuns c R sl' s' node (i + 1)) :
    LevelRuns c R sl s node i := by
  rw [linkStep_eq, reading_bind_eq_ok] at hrun
  obtain ⟨before, hbefore, hrun⟩ := hrun
  split_ifs at hrun with h0
  · simp only [reading_bind_eq_ok] at hrun
    obtain ⟨⟨p, n⟩, hfind, s', hstore, hrun⟩ := hrun
    obtain ⟨k, -, hiter⟩ := iterates_of_loop hfind
    refine ⟨.next (.splice s node i sl.headOffset), ?_, ?_⟩
    · simp only [linkLevel, not_lt.2 hi, if_false, hbefore, hmode, h0, if_true, bind, Except.bind,
        pure, Except.pure]
    · refine .find (fun b => .splice s node i b) (fun b b' hstep => ?_) (fun b hstep => ?_) hiter
      · simp only [putStep, hstep, bind, Except.bind, pure, Except.pure]
      refine .next ?_ (linkAttempt_runs hrun hnext hfound hlinked)
      simp only [putStep, hstep, hstore, bind, Except.bind, pure, Except.pure]
  · refine ⟨.next (.linkNext s node i), ?_, linkAttempt_runs hrun hnext hfound hlinked⟩
    simp only [linkLevel, not_lt.2 hi, if_false, hbefore, hmode, h0, if_true, bind, Except.bind,
      pure, Except.pure]

/-- The loop that links the node at level `i`, among writers. -/
theorem linkLoop_runs {fuel : ℕ} {out : Option (Bytes × Bytes) ⊕ Splices} (hi : i ≤ c.height)
    (hmode : sl.allowConcurrentWrite = true)
    (hrun : loop (linkStep c.key c.value node i) (throw .diverged) fuel s sl = .ok out sl')
    (hfound : ∀ a, out = .inl a → R = .ok a sl')
    (hlinked : ∀ s', out = .inr s' → LevelRuns c R sl' s' node (i + 1)) :
    LevelRuns c R sl s node i := by
  induction fuel generalizing s sl with
  | zero => cases hrun
  | succ fuel ih =>
    rw [loop] at hrun
    obtain ⟨r, sl₁, hstep, hrun⟩ := bind_eq_ok.1 hrun
    refine linkStep_runs hmode hi hstep ?_ ?_ ?_
    · rintro s' rfl hmode'
      exact ih (hmode'.trans hmode) hrun
    · rintro a rfl
      cases hrun
      exact hfound a rfl
    · rintro s' rfl
      cases hrun
      exact hlinked s' rfl

/-- `storeLink`, when the level has a predecessor. -/
def storeAttempt (node i nextOffset : ℕ) (s : Splices) : Prog Splices := do
  let p ← reading fun _ => index s.prev i
  if i = 0 then
    storing fun a => nodeSetPrev a node p
    if nextOffset ≠ 0 then storing fun a => nodeSetPrev a nextOffset node
  storing fun a => nodeSetNext a node i nextOffset
  storing fun a => nodeSetNext a p i node
  return s

theorem storeLink_eq : storeLink node i s = (do
    let before ← reading fun _ => index s.prev i
    let nextOffset ← reading fun _ => index s.next i
    if before = 0 then
      let head ← reading fun sl => .ok sl.headOffset
      let s ← reading fun _ => s.store i head nextOffset
      storeAttempt node i nextOffset s
    else storeAttempt node i nextOffset s) := rfl

/-- Both forward stores of a level. -/
theorem storeNext_runs {nextOffset p : ℕ} {a a' : Arena} (hp : index s.prev i = .ok p)
    (hn : index s.next i = .ok nextOffset) (hself : nodeSetNext sl.arena node i nextOffset = .ok a)
    (hlink : nodeSetNext a p i node = .ok a')
    (hlinked : LevelRuns c R { sl with arena := a' } s node (i + 1)) :
    Runs c R sl (.storeNext s node i) := by
  have hstore : putStep sl c false (.storeNext s node i) =
      .ok ({ sl with arena := a }, .next (.storeLink s node i)) := by
    simp only [putStep, hn, hself, bind, Except.bind, pure, Except.pure]
  obtain ⟨r, hlevel, hr⟩ := hlinked.level { sl with arena := a } rfl rfl
  refine .next hstore (.of_step ?_ hr)
  simp only [putStep, hp, hlink, hlevel, bind, Except.bind, pure, Except.pure]

/-- Linking the node at level `i`, alone. -/
theorem storeAttempt_runs {nextOffset : ℕ} {s' : Splices} (hn : index s.next i = .ok nextOffset)
    (hrun : storeAttempt node i nextOffset s sl = .ok s' sl')
    (hlinked : LevelRuns c R sl' s' node (i + 1)) :
    Runs c R sl (if i = 0 then .backNode s node else .storeNext s node i) := by
  rw [storeAttempt, reading_bind_eq_ok] at hrun
  obtain ⟨p, hp, hrun⟩ := hrun
  by_cases hi : i = 0
  · subst hi
    rw [if_pos rfl] at hrun ⊢
    rw [storing_bind_eq_ok] at hrun
    obtain ⟨a, hback, hrun⟩ := hrun
    by_cases hnull : nextOffset = 0
    · have hstep : putStep sl c false (.backNode s node) =
          .ok ({ sl with arena := a }, .next (.storeNext s node 0)) := by
        simp only [putStep, hp, hback, hn, if_pos hnull, bind, Except.bind, pure, Except.pure]
      simp only [hnull, ne_eq, not_true, if_false, storing_bind_eq_ok] at hrun
      obtain ⟨a₁, hself, a₂, hlink, hrun⟩ := hrun
      cases hrun
      exact .next hstep (storeNext_runs hp (hnull ▸ hn) hself hlink hlinked)
    · have hstep : putStep sl c false (.backNode s node) =
          .ok ({ sl with arena := a }, .next (.backNext s node)) := by
        simp only [putStep, hp, hback, hn, if_neg hnull, bind, Except.bind, pure, Except.pure]
      simp only [ne_eq, hnull, not_false_eq_true, if_true, storing_bind_eq_ok] at hrun
      obtain ⟨a₁, hsucc, a₂, hself, a₃, hlink, hrun⟩ := hrun
      cases hrun
      have hstep' : putStep { sl with arena := a } c false (.backNext s node) =
          .ok ({ sl with arena := a₁ }, .next (.storeNext s node 0)) := by
        simp only [putStep, hn, hsucc, bind, Except.bind, pure, Except.pure]
      exact .next hstep (.next hstep' (storeNext_runs hp hn hself hlink hlinked))
  · rw [if_neg hi] at hrun ⊢
    simp only [storing_bind_eq_ok] at hrun
    obtain ⟨a₁, hself, a₂, hlink, hrun⟩ := hrun
    cases hrun
    exact storeNext_runs hp hn hself hlink hlinked

theorem storeLink_runs {s' : Splices} (hmode : sl.allowConcurrentWrite = false) (hi : i ≤ c.height)
    (hrun : storeLink node i s sl = .ok s' sl') (hlinked : LevelRuns c R sl' s' node (i + 1)) :
    LevelRuns c R sl s node i := by
  simp only [storeLink_eq, reading_bind_eq_ok] at hrun
  obtain ⟨before, hbefore, nextOffset, hn, hrun⟩ := hrun
  by_cases h0 : before = 0
  · simp only [if_pos h0, reading_bind_eq_ok, Except.ok.injEq, exists_eq_left'] at hrun
    obtain ⟨s₁, hstore, hrun⟩ := hrun
    have hn' : index s₁.next i = .ok nextOffset := by
      unfold Splices.store at hstore
      split_ifs at hstore with hix
      cases hstore
      simp only [index_eq hix, Function.update_self]
    refine ⟨.next _, ?_, storeAttempt_runs hn' hrun hlinked⟩
    simp only [linkLevel, not_lt.2 hi, if_false, hbefore, hmode, Bool.false_eq_true, if_pos h0, hn,
      hstore, bind, Except.bind, pure, Except.pure]
  · rw [if_neg h0] at hrun
    refine ⟨.next _, ?_, storeAttempt_runs hn hrun hlinked⟩
    simp only [linkLevel, not_lt.2 hi, if_false, hbefore, hmode, Bool.false_eq_true, if_neg h0,
      bind, Except.bind, pure, Except.pure]

/-- All levels. -/
theorem linkLevels_runs {todo : ℕ} {r : Option (Bytes × Bytes)} (hi : i + todo = c.height + 1)
    (hrun : linkLevels c.key c.value node todo i s sl = .ok r sl') :
    LevelRuns c (.ok r sl') sl s node i := by
  induction todo generalizing i s sl with
  | zero =>
    cases hrun
    refine ⟨.done none, ?_, rfl⟩
    simp only [linkLevel, show c.height < i by omega, if_true, pure, Except.pure]
  | succ todo ih =>
    simp only [linkLevels, reading_bind_eq_ok, Except.ok.injEq, exists_eq_left'] at hrun
    cases hmode : sl.allowConcurrentWrite with
    | true =>
      simp only [hmode, if_true, reading_bind_eq_ok, Except.ok.injEq, exists_eq_left'] at hrun
      obtain ⟨out, sl₁, hloop, hrun⟩ := bind_eq_ok.1 hrun
      refine linkLoop_runs (by omega) hmode hloop ?_ ?_
      · rintro a rfl
        cases hrun
        rfl
      · rintro s' rfl
        exact ih (by omega) hrun
    | false =>
      simp only [hmode, Bool.false_eq_true, if_false] at hrun
      obtain ⟨s', sl₁, hstore, hrun⟩ := bind_eq_ok.1 hrun
      exact storeLink_runs hmode (by omega) hstore (ih (by omega) hrun)

/-- **A `put` that returns**, step by step. -/
theorem put_runs {r : Option (Bytes × Bytes)}
    (hrun : SkipList.put c.key c.value c.height sl = .ok r sl')
    (hbefore : index (Splices.start sl.head sl.height).prev (sl.height + 1) = .ok before) :
    Runs c (.ok r sl') sl (.search sl.height sl.height (.start sl.head sl.height) before) := by
  simp only [SkipList.put, reading_bind_eq_ok, Except.ok.injEq, exists_eq_left', listHeight,
    headOffset] at hrun
  obtain ⟨found, hsearch, hrun⟩ := hrun
  refine searchLevels_runs hsearch hbefore ?_ ?_
  · rintro a rfl
    cases hrun
    rfl
  · rintro s rfl
    obtain ⟨node, sl₁, halloc, hrun⟩ := bind_eq_ok.1 hrun
    obtain ⟨⟨⟩, sl₂, hraise, hlink⟩ := bind_eq_ok.1 hrun
    have hlevel := linkLevels_runs (Nat.zero_add _) hlink
    simp only [onArena] at halloc
    cases hnode : allocNode c.key c.value c.height sl.arena with
    | error e a =>
      rw [hnode] at halloc
      cases halloc
    | ok o a =>
      rw [hnode] at halloc
      cases halloc
      refine allocNode_runs hnode (fun hh => raiseHeight_runs hh hraise hlevel) fun hh => ?_
      rw [raiseHeight, if_neg hh] at hraise
      cases hraise
      exact hlevel

/-! ### A `put` returns -/

section

variable {cmp : KeyComparator} [Std.TransCmp cmp.compareKey] {S : ℕ → Finset ℕ}

theorem linkLevels_returns {key value stored : Bytes} {height : ℕ} (todo : ℕ) :
    ∀ {sl : SkipList} {S : ℕ → Finset ℕ} {i : ℕ}, Wf cmp sl S → height ≤ sl.height →
      Linking cmp sl S key stored node height i s True → i + todo = height + 1 →
      ∃ sl', linkLevels key value node todo i s sl = .ok none sl' ∧ sl'.height = sl.height := by
  induction todo with
  | zero => exact fun {sl} _ _ _ _ _ _ => ⟨sl, rfl, rfl⟩
  | succ todo ih =>
    intro sl S i hwf hheight h hi
    have hih : i ≤ height := by omega
    have hil : i < maxHeight := (hih.trans hheight).trans_lt hwf.height_lt
    cases hmode : sl.allowConcurrentWrite with
    | true =>
      obtain ⟨hwf', -, h'⟩ := h.link_self hwf hheight hih
      rw [linkLevels_concurrent hmode (h.linkStep_eq hwf hil hih)]
      exact ih hwf' hheight h' (by omega)
    | false =>
      rw [linkLevels_single hmode (h.storeLink_eq hwf hil hih)]
      by_cases hi0 : i = 0
      · subst hi0
        obtain ⟨hwf₁, -, h₁⟩ := h.repairBack hwf (s.prev 0) (s.next 0)
        obtain ⟨hwf', -, h'⟩ := h₁.link_self hwf₁ hheight hih
        exact ih hwf' hheight h' (by omega)
      · obtain ⟨hwf', -, h'⟩ := h.link_self hwf hheight hih
        simp only [if_neg hi0]
        exact ih hwf' hheight h' (by omega)

/-- With the invariant, a `put` returns or panics for lack of memory, after its search. -/
theorem put_returns (h : Wf cmp sl S) (hh : c.height < maxHeight)
    (hsz : Sized sl.arena.capacity c.key c.value) :
    (∃ r sl', SkipList.put c.key c.value c.height sl = .ok r sl' ∧
        sl'.height ≤ max sl.height c.height) ∨
      SkipList.put c.key c.value c.height sl = .error .outOfMemory sl ∧
        sl.arena.capacity < sl.arena.len + nodeBytes c.key c.value c.height ∧
        ∃ s, sl.searchLevels c.key c.value (sl.height + 1) (.start sl.head sl.height) =
          .ok (.inr s) := by
  have hprev : (Splices.start sl.head sl.height).prev (sl.height + 1) = sl.head :=
    if_pos ⟨le_rfl, Nat.succ_lt_succ h.height_lt⟩
  rcases h.searchLevels_spec c.key c.value (sl.height + 1) _ h.height_lt (Or.inl hprev)
    (by rw [hprev, pos_head]; exact bot_lt_keyPos) (fun j hj hj' => h.start_exact c.key hj hj') with
    ⟨x, -, -, hsearch⟩ | ⟨s, hsearch, hexact⟩
  · refine Or.inl ⟨conflictAnswer sl x c.key c.value, sl, ?_, le_max_left _ _⟩
    simp only [SkipList.put, bind, EStateM.bind, reading, listHeight, headOffset, hsearch]
    rfl
  rcases h.allocNode_cases hh hsz.keySized with ⟨hfull, halloc⟩ | ⟨hfit, halloc⟩
  · refine Or.inr ⟨?_, hfull, s, hsearch⟩
    simp only [SkipList.put, bind, EStateM.bind, reading, listHeight, headOffset, hsearch, onArena,
      halloc]
  · obtain ⟨hwf, hgrow, hslot, hpair, hfresh⟩ := h.push hh (hsz.lt_of_fits hfit).1 hfit
    have hlen0 : sl.arena.len ≠ 0 := by
      have := h.alive_lt _ h.head_slot.alive
      omega
    have hlinking : Linking cmp { sl with
        height := max sl.height c.height, arena := sl.arena.push c.key c.value c.height } S c.key
        (storedValue c.value) sl.arena.len c.height 0 s True :=
      .start h (hgrow.trans (grows_raise (le_max_left _ _))) hfresh hlen0 hslot hpair
        (fun x hx _ => Arena.nextAt_write_of_ne hx)
        (fun j hj => (hexact j (hj.trans_lt hh)).2) fun _ j hj => (hexact j (hj.trans_lt hh)).1
    obtain ⟨sl', hlink, hheight⟩ := linkLevels_returns (c.height + 1)
      (hwf.raise (le_max_left _ _) (max_lt h.height_lt hh)) (le_max_right _ _) hlinking (by omega)
    refine Or.inl ⟨none, sl', ?_, hheight.le⟩
    have hraise := raiseHeight_eq { sl with arena := sl.arena.push c.key c.value c.height } c.height
    simp only [SkipList.put, bind, EStateM.bind, reading, listHeight, headOffset, hsearch, onArena,
      halloc]
    simp only at hraise
    rw [hraise]
    exact hlink

/-- **The steps of a `put`** lead to what the operation returns. -/
theorem put_runs_result (h : Wf cmp sl S) (hh : c.height < maxHeight)
    (hsz : Sized sl.arena.capacity c.key c.value) :
    Runs c (SkipList.put c.key c.value c.height sl) sl
      (.search sl.height sl.height (.start sl.head sl.height) sl.head) := by
  have hbefore : index (Splices.start sl.head sl.height).prev (sl.height + 1) = .ok sl.head :=
    index_start h.height_lt
  rcases put_returns h hh hsz with ⟨r, sl', hrun, -⟩ | ⟨hrun, hfull, s, hsearch⟩
  · rw [hrun]
    exact put_runs hrun hbefore
  · rw [hrun]
    refine searchLevels_runs hsearch hbefore nofun fun s' hs' => ?_
    cases hs'
    have hwrap := hsz.no_wrap
    have hbytes := nodeBytes_le c.key c.value hh
    have hlen := h.len_le
    refine .panic (e := .outOfMemory) ?_ rfl
    have hres : sl.arena.reserve (some sl.arena.len) (nodeBytes c.key c.value c.height) = _ :=
      sl.arena.reserve_eq (by rw [Option.getD_some]; omega)
    simp only [putStep, h.ptr_eq, alignSize_nodeSize c.key c.value c.height (by omega), hres,
      Option.getD_some, hfull, if_true, bind, Except.bind]

end

/-! ### Reads -/

/-- A read, all at once: the cursor afterwards, and the answer. -/
def ReadCall.run (sl : SkipList) (it : IterRef) : ReadCall → Except Fault (IterRef × Ret)
  | .get key => do answer it (.value (← sl.get key))
  | .getWithKey key => do answer it (.pair (← sl.getWithKey key))
  | .contains key => do answer it (.flag (← sl.contains key))
  | .lowerBound key => do answer it (.pair (← sl.lowerBound key))
  | .len => do answer it (.count (← sl.len))
  | .isEmpty => do answer it (.flag (← sl.isEmpty))
  | .seek target => do moveTo sl (← IterRef.seek sl target).cursor
  | .seekForPrev target => do moveTo sl (← IterRef.seekForPrev sl target).cursor
  | .seekToFirst => do moveTo sl (← IterRef.seekToFirst sl).cursor
  | .seekToLast => do moveTo sl (← IterRef.seekToLast sl).cursor
  | .next => do moveTo sl (← it.next sl).cursor
  | .prev => do moveTo sl (← it.prev sl).cursor

/-- Where the loop of a read starts. -/
def ReadCall.startAt (sl : SkipList) (it : IterRef) (q : ReadCall) : ℕ × ℕ :=
  (sl.headOffset, if q.loadsHeight sl it then sl.listHeight else 0)

variable {it it' : IterRef} {q : ReadCall} {r : Ret} {p : ℕ × ℕ} {n : ℕ}

theorem iterates_finish {α : Type} {body : ℕ × ℕ → Except Fault (Iter (ℕ × ℕ) α)} {a : α}
    {f : α → Except Fault (IterRef × Ret)} (hf : f a = .ok (it', r)) (h : Iterates body a n p) :
    Iterates (fun p => finish f (body p)) (it', r) n p := by
  induction h with
  | done hstep =>
    refine .done ?_
    simp only [finish, hstep, hf, bind, Except.bind, pure, Except.pure]
  | next hstep _ ih =>
    refine .next ?_ ih
    simp only [finish, hstep, bind, Except.bind, pure, Except.pure]

/-- A loop of a read that returns, step by step. -/
theorem loop_iterates {α : Type} {body : ℕ × ℕ → Except Fault (Iter (ℕ × ℕ) α)} {fuel : ℕ}
    {f : α → Except Fault (IterRef × Ret)}
    (hrun : (do f (← loop body (.error .diverged) fuel p)) = .ok (it', r)) :
    ∃ n, Iterates (fun p => finish f (body p)) (it', r) n p := by
  obtain ⟨a, hloop, hf⟩ := except_bind_eq_ok.1 hrun
  obtain ⟨n, -, hiter⟩ := iterates_of_loop hloop
  exact ⟨n, iterates_finish hf hiter⟩

/-- A read that makes one load. -/
theorem iterates_once (hstep : readStep sl it q p = do return .done (← q.run sl it))
    (hrun : q.run sl it = .ok (it', r)) : Iterates (readStep sl it q) (it', r) 1 p := by
  refine .done ?_
  rw [hstep, hrun]
  rfl

/-- **A read that returns**, step by step. -/
theorem ReadCall.iterates (hrun : q.run sl it = .ok (it', r)) :
    ∃ n, Iterates (readStep sl it q) (it', r) n (q.startAt sl it) := by
  cases q with
  | get key | getWithKey key | contains key =>
    simp only [ReadCall.run, SkipList.get, SkipList.getWithKey, SkipList.contains, bind_assoc,
      pure_bind] at hrun
    exact loop_iterates hrun
  | lowerBound key => exact loop_iterates hrun
  | len => exact loop_iterates hrun
  | isEmpty =>
    simp only [ReadCall.run, SkipList.isEmpty, bind_assoc, pure_bind] at hrun
    exact loop_iterates hrun
  | seek target | seekForPrev target | seekToLast =>
    simp only [ReadCall.run, IterRef.seek, IterRef.seekForPrev, IterRef.seekToLast, bind_assoc,
      pure_bind] at hrun
    exact loop_iterates hrun
  | seekToFirst | next =>
    refine ⟨1, iterates_once ?_ hrun⟩
    simp only [readStep, ReadCall.run, bind_assoc]
  | prev =>
    cases hmode : sl.allowConcurrentWrite with
    | false =>
      refine ⟨1, iterates_once ?_ hrun⟩
      simp only [readStep, hmode, Bool.false_eq_true, if_false, ReadCall.run, bind_assoc]
    | true =>
      by_cases hvalid : it.valid = true
      · obtain ⟨k, hk⟩ : ∃ k, nodeKey sl.arena it.cursor = .ok k := by
          simp only [ReadCall.run, IterRef.prev, hvalid, hmode, if_true, IterRef.key, bind_assoc,
            pure_bind] at hrun
          obtain ⟨k, hk, -⟩ := except_bind_eq_ok.1 hrun
          exact ⟨k, hk⟩
        have hbody : readStep sl it .prev =
            fun p => finish (moveTo sl) (sl.findNearStep k true false p) := by
          funext p
          simp only [readStep, hmode, IterRef.key, hvalid, if_true, hk, bind, Except.bind, pure,
            Except.pure]
        rw [hbody]
        have hok (a : Bytes) : (Except.ok a : Except Fault Bytes) = pure a := rfl
        simp only [ReadCall.run, IterRef.prev, IterRef.key, hvalid, hmode, if_true, hk, hok,
          bind_assoc, pure_bind] at hrun
        simp only [ReadCall.startAt, ReadCall.loadsHeight, hvalid, hmode, Bool.and_self, if_true]
        exact loop_iterates hrun
      · refine ⟨1, iterates_once ?_ hrun⟩
        simp only [readStep, ReadCall.run, IterRef.prev, IterRef.key, hvalid, hmode, if_true,
          Bool.false_eq_true, if_false, pure_bind]

/-- Reads return. -/
theorem ReadCall.exists_run {cmp : KeyComparator} [Std.TransCmp cmp.compareKey]
    {S : ℕ → Finset ℕ} (hwf : Wf cmp sl S) (hclosed : Closed sl S) (hit : CursorOk sl it)
    (q : ReadCall) : ∃ it' r, q.run sl it = .ok (it', r) := by
  have hmove {o : ℕ} (ho : sl.arena.Target 0 o) : ∃ it' r, moveTo sl o = .ok (it', r) :=
    ⟨_, _, moveTo_eq ho⟩
  have hnear (key : Bytes) (less allowEqual : Bool) :
      ∃ o, sl.findNear key less allowEqual = .ok o ∧ sl.arena.Target 0 o := by
    obtain ⟨o, hrun, ho⟩ := hwf.findNear_spec key less allowEqual
    have hok : CursorOk sl ⟨o⟩ := .of_linked hwf ho.null_or_mem
    exact ⟨o, hrun, hok.target⟩
  -- a read of one load returns because its step does
  have honce (q : ReadCall)
      (hstep : readStep sl it q (sl.head, 0) = do return .done (← q.run sl it)) :
      ∃ it' r, q.run sl it = .ok (it', r) := by
    have hok : ∃ x, readStep sl it q (sl.head, 0) = .ok x := by
      rcases readStep_spec hwf hclosed hit (readOk_head it q (i := 0) (by decide)) with
        ⟨p', hread, -⟩ | ⟨it', r, hread, -⟩
      · exact ⟨_, hread⟩
      · exact ⟨_, hread⟩
    obtain ⟨x, hx⟩ := hok
    rw [hstep] at hx
    obtain ⟨⟨it', r⟩, hrun, -⟩ := except_bind_eq_ok.1 hx
    exact ⟨it', r, hrun⟩
  cases q with
  | get key | getWithKey key | contains key | lowerBound key =>
    obtain ⟨o, hrun, -⟩ := hwf.lowerBound_spec key
    simp only [ReadCall.run, SkipList.get, SkipList.getWithKey, SkipList.contains, hrun]
    exact ⟨_, _, rfl⟩
  | len | isEmpty =>
    simp only [ReadCall.run, SkipList.isEmpty, hwf.len_spec]
    exact ⟨_, _, rfl⟩
  | seek key =>
    obtain ⟨o, hrun, ho⟩ := hnear key false true
    obtain ⟨it', r, hend⟩ := hmove ho
    exact ⟨it', r, by simp only [ReadCall.run, IterRef.seek, hrun, bind, Except.bind, pure,
      Except.pure, hend]⟩
  | seekForPrev key =>
    obtain ⟨o, hrun, ho⟩ := hnear key true true
    obtain ⟨it', r, hend⟩ := hmove ho
    exact ⟨it', r, by simp only [ReadCall.run, IterRef.seekForPrev, hrun, bind, Except.bind, pure,
      Except.pure, hend]⟩
  | seekToLast =>
    obtain ⟨o, hrun, ho⟩ := hwf.findLast_spec
    have hok : CursorOk sl ⟨o⟩ := .of_linked hwf ho.null_or_mem
    obtain ⟨it', r, hend⟩ := hmove hok.target
    exact ⟨it', r, by simp only [ReadCall.run, IterRef.seekToLast, hrun, bind, Except.bind, pure,
      Except.pure, hend]⟩
  | seekToFirst => exact honce _ (by simp only [readStep, ReadCall.run, bind_assoc])
  | next => exact honce _ (by simp only [readStep, ReadCall.run, bind_assoc])
  | prev =>
    by_cases hfind : sl.allowConcurrentWrite = true ∧ it.cursor ≠ 0
    · obtain ⟨hmode, h0⟩ := hfind
      obtain ⟨o, hrun, ho⟩ := hnear (sl.arena.keyAt it.cursor) true false
      obtain ⟨it', r, hend⟩ := hmove ho
      exact ⟨it', r, by simp only [ReadCall.run, IterRef.prev, IterRef.key, IterRef.valid_of_ne h0,
        hmode, if_true, nodeKey_eq (hit.alive h0), hrun, bind, Except.bind, pure, Except.pure,
        hend]⟩
    · refine honce _ ?_
      by_cases h0 : it.cursor = 0
      · cases hmode : sl.allowConcurrentWrite <;>
          simp only [readStep, ReadCall.run, IterRef.prev, IterRef.key, IterRef.not_valid h0, hmode,
            Bool.false_eq_true, if_true, if_false, pure_bind]
      · have hmode : sl.allowConcurrentWrite = false :=
          Bool.eq_false_iff.2 fun hmode => hfind ⟨hmode, h0⟩
        simp only [readStep, ReadCall.run, hmode, Bool.false_eq_true, if_false, bind_assoc]

/-! ### The machine -/

/-- Where a `put` leaves the list and its thread. -/
def afterRun (it : IterRef) :
    EStateM.Result Fault SkipList (Option (Bytes × Bytes)) → SkipList × Thread
  | .ok r sl => (sl, ⟨.done (.inserted r), it⟩)
  | .error e sl => (sl, ⟨.faulted e, it⟩)

/-- A call, all at once: the list and the thread afterwards. -/
def Call.alone (sl : SkipList) (it : IterRef) : Call → SkipList × Thread
  | .put c => afterRun it (SkipList.put c.key c.value c.height sl)
  | .read q =>
    match q.run sl it with
    | .ok (it, r) => (sl, ⟨.done r, it⟩)
    | .error e => (sl, ⟨.faulted e, it⟩)

variable {cmp : KeyComparator} [Std.TransCmp cmp.compareKey] {mode : Bool} {writer : ℕ}
  {S : ℕ → Finset ℕ} {st : State} {t : ℕ} {call : Call}

theorem State.update_update (th th' : Thread) :
    (st.update sl t th).update sl' t th' = st.update sl' t th' :=
  congrArg (State.mk sl') (Function.update_idem ..)

theorem exec_steps_succ {st' : State} (hstep : step st (.step t false) = some st') :
    exec step st (steps t (n + 1)) = exec step st' (steps t n) := by
  rw [steps, List.replicate_succ, exec, hstep]
  rfl

/-- The thread carries out a `put`. -/
theorem exec_runs (hruns : Runs c R sl pc) :
    ∃ n, exec step (st.update sl t ⟨.put c pc, it⟩) (steps t n) =
      some (st.update (afterRun it R).1 t (afterRun it R).2) := by
  induction hruns with
  | @next sl sl' pc pc' hput _ ih =>
    obtain ⟨n, hn⟩ := ih
    refine ⟨n + 1, (exec_steps_succ ?_).trans hn⟩
    simp only [step, State.update_self, State.update_list, Thread.advance, hput, bind, Except.bind,
      pure, Except.pure, State.update_update]
  | @done sl sl' pc r hput hR =>
    subst hR
    refine ⟨1, (exec_steps_succ ?_).trans rfl⟩
    simp only [step, State.update_self, State.update_list, Thread.advance, hput, bind, Except.bind,
      pure, Except.pure, State.update_update, afterRun]
  | @panic sl pc e hput hR =>
    subst hR
    refine ⟨1, (exec_steps_succ ?_).trans rfl⟩
    simp only [step, State.update_self, State.update_list, Thread.advance, hput, bind, Except.bind,
      State.update_update, afterRun]

/-- The thread carries out the loop of a read. -/
theorem exec_iterates (hiter : Iterates (readStep st.list it q) (it', r) n p) :
    exec step (st.update st.list t ⟨.read q p, it⟩) (steps t n) =
      some (st.update st.list t ⟨.done r, it'⟩) := by
  induction hiter with
  | done hread =>
    refine (exec_steps_succ ?_).trans rfl
    simp only [step, State.update_self, State.update_list, Thread.advance, hread, bind, Except.bind,
      pure, Except.pure, State.update_update]
  | next hread _ ih =>
    refine (exec_steps_succ ?_).trans ih
    simp only [step, State.update_self, State.update_list, Thread.advance, hread, bind, Except.bind,
      pure, Except.pure, State.update_update]

/-- A call that nothing interrupts, from a state that satisfies the invariant. -/
theorem Inv.exec_alone (h : Inv cmp mode writer st S) (hidle : (st.threads t).pc = .idle)
    (hcall : (Label.invoke t call).Allowed mode writer) :
    ∃ n, exec step st (.invoke t call :: steps t n) =
      some (st.update (call.alone st.list (st.threads t).it).1 t
        (call.alone st.list (st.threads t).it).2) := by
  have hinvoke : step st (.invoke t call) =
      some (st.setPc t (call.start st.list (st.threads t).it)) := by
    simp only [step, hidle]
    rfl
  cases call with
  | put c =>
    have hvalid : c.Valid := hcall.1
    have hruns := put_runs_result h.wf hvalid.height (sized_of_le h.capacity_le hvalid.size)
    obtain ⟨n, hn⟩ : ∃ n, exec step _ (steps t n) =
        some (st.update _ t (afterRun (st.threads t).it _).2) := exec_runs hruns
    refine ⟨n + 1, exec_cons_eq_some.2 ⟨_, hinvoke, (exec_steps_succ ?_).trans hn⟩⟩
    simp only [step, State.setPc, Call.start, State.update_self, State.update_list, Thread.advance,
      listHeight, headOffset, index_start h.wf.height_lt, bind, Except.bind, pure, Except.pure,
      State.update_update]
  | read q =>
    obtain ⟨it', r, hrun⟩ := ReadCall.exists_run h.wf h.closed (h.cursor t) q
    obtain ⟨n, hiter⟩ := ReadCall.iterates hrun
    have hn := exec_iterates (t := t) hiter
    simp only [Call.alone, hrun]
    by_cases hload : q.loadsHeight st.list (st.threads t).it = true
    · rw [ReadCall.startAt, if_pos hload] at hn
      refine ⟨n + 1, exec_cons_eq_some.2 ⟨_, hinvoke, (exec_steps_succ ?_).trans hn⟩⟩
      simp only [step, State.setPc, Call.start, hload, if_true, State.update_self,
        State.update_list, Thread.advance, State.update_update]
    · rw [ReadCall.startAt, if_neg hload] at hn
      refine ⟨n, exec_cons_eq_some.2 ⟨_, hinvoke, ?_⟩⟩
      rw [Call.start, if_neg hload]
      exact hn

/-- How a call that nothing interrupts ends. -/
theorem Inv.alone_ends (h : Inv cmp mode writer st S)
    (hcall : (Label.invoke t call).Allowed mode writer) :
    (∃ r, (call.alone st.list (st.threads t).it).2.pc = .done r) ∨
      ∃ c, call = .put c ∧
        st.list.arena.capacity < st.list.arena.len + nodeBytes c.key c.value c.height ∧
        call.alone st.list (st.threads t).it =
          (st.list, ⟨.faulted .outOfMemory, (st.threads t).it⟩) := by
  cases call with
  | put c =>
    have hvalid : c.Valid := hcall.1
    rcases put_returns h.wf hvalid.height (sized_of_le h.capacity_le hvalid.size) with
      ⟨r, sl', hrun, -⟩ | ⟨hrun, hfull, -⟩
    · exact Or.inl ⟨.inserted r, by simp only [Call.alone, hrun, afterRun]⟩
    · exact Or.inr ⟨c, rfl, hfull, by simp only [Call.alone, hrun, afterRun]⟩
  | read q =>
    obtain ⟨it', r, hrun⟩ := ReadCall.exists_run h.wf h.closed (h.cursor t) q
    exact Or.inl ⟨r, by simp only [Call.alone, hrun]⟩

/-- **A call that nothing interrupts**, whatever calls of other threads are under way: the steps of
its thread, as long as no `compare_exchange_weak` fails spuriously, lead to what the operation of
`StoneDb.SkipList.Basic` makes of the list.  So the call ends, and only a `put` that does not fit in
the arena panics. -/
theorem call_alone {capacity : ℕ} {sl : SkipList} {ls : List Label} (hcap : capacity ≤ 2 ^ 32)
    (hnew : SkipList.withCapacity cmp capacity mode = .ok sl)
    (hls : ∀ l ∈ ls, l.Allowed mode writer) (hexec : exec step (State.init sl) ls = some st)
    (hidle : (st.threads t).pc = .idle) (hcall : (Label.invoke t call).Allowed mode writer) :
    (∃ n, exec step st (.invoke t call :: steps t n) =
      some (st.update (call.alone st.list (st.threads t).it).1 t
        (call.alone st.list (st.threads t).it).2)) ∧
    ((∃ r, (call.alone st.list (st.threads t).it).2.pc = .done r) ∨
      ∃ c, call = .put c ∧
        st.list.arena.capacity < st.list.arena.len + nodeBytes c.key c.value c.height ∧
        call.alone st.list (st.threads t).it =
          (st.list, ⟨.faulted .outOfMemory, (st.threads t).it⟩)) := by
  have hinit : Inv cmp mode writer (State.init sl) fun _ => ∅ := inv_init hcap hnew
  obtain ⟨S, h, -⟩ := exec_inv hinit hls hexec
  exact ⟨h.exec_alone hidle hcall, h.alone_ends hcall⟩

/-- A `put` stalls when it has linked its node at level 0 only; another for the same key runs on its
own, and is refused. -/
theorem call_alone_stalled :
    ∃ sl st st' n, SkipList.withCapacity bytewiseComparator 600 true = .ok sl ∧
      exec step (State.init sl) (.invoke 0 (.put ⟨[5], [1], 2⟩) :: steps 0 8) = some st ∧
      exec step st (.invoke 1 (.put ⟨[5], [2], 1⟩) :: steps 1 n) = some st' ∧
      (st'.threads 1).pc = .done (.inserted (some ([5], [2]))) := by
  obtain ⟨sl, hsl, st, hst, hend⟩ :
      ∃ sl, SkipList.withCapacity bytewiseComparator 600 true = .ok sl ∧
        ∃ st, exec step (State.init sl) (.invoke 0 (.put ⟨[5], [1], 2⟩) :: steps 0 8) = some st ∧
          ((step st (.invoke 1 (.put ⟨[5], [2], 1⟩))).isSome &&
            (SkipList.put [5] [2] 1).run' st.list == some (some ([5], [2]))) = true :=
    exists_exec_and (by decide +kernel)
  rw [Bool.and_eq_true, beq_iff_eq] at hend
  obtain ⟨hinvoke, hput⟩ := hend
  obtain ⟨_, hinvoke⟩ := Option.isSome_iff_exists.1 hinvoke
  have hidle : (st.threads 1).pc = .idle := (step_invoke hinvoke).1
  obtain ⟨sl', hput⟩ : ∃ sl', SkipList.put [5] [2] 1 st.list = .ok (some ([5], [2])) sl' := by
    delta EStateM.run' EStateM.run at hput
    cases hrun : SkipList.put [5] [2] 1 st.list with
    | error e sl' => simp [hrun] at hput
    | ok r sl' =>
      simp only [hrun, Option.some.injEq] at hput
      exact ⟨sl', hput ▸ rfl⟩
  have hcall : (Label.invoke 1 (.put ⟨[5], [2], 1⟩)).Allowed true 0 :=
    ⟨by decide, fun hmode => absurd hmode (by decide)⟩
  obtain ⟨⟨n, hn⟩, -⟩ := call_alone (by decide) hsl (by decide) hst hidle hcall
  refine ⟨sl, st, _, n, hsl, hst, hn, ?_⟩
  rw [State.update_self]
  simp only [Call.alone, hput, afterRun]

/-- **The lists of the operations are lists of the machine**, between two calls. -/
theorem reachable_exec {capacity : ℕ} {sl : SkipList} (writer : ℕ) (hcap : capacity ≤ 2 ^ 32)
    (h : sl.Reachable cmp capacity mode PutCall.Valid) :
    ∃ new ls st, SkipList.withCapacity cmp capacity mode = .ok new ∧
      (∀ l ∈ ls, l.Allowed mode writer) ∧ exec step (State.init new) ls = some st ∧
      st.list = sl ∧ ∀ t, (st.threads t).pc = .idle := by
  induction h with
  | @new sl hnew => exact ⟨sl, [], _, hnew, by simp, rfl, rfl, fun _ => rfl⟩
  | @put sl hsl c hc ih =>
    obtain ⟨new, ls, st, hnew, hls, hexec, rfl, hidle⟩ := ih
    have hcall : (Label.invoke writer (.put c)).Allowed mode writer := ⟨hc, fun _ => rfl⟩
    have hinit : Inv cmp mode writer (State.init new) fun _ => ∅ := inv_init hcap hnew
    obtain ⟨S, h, -⟩ := exec_inv hinit hls hexec
    rcases put_returns h.wf hc.height (sized_of_le h.capacity_le hc.size) with
      ⟨r, sl', hrun, -⟩ | ⟨hrun, -, -⟩
    · -- the call is carried out by one thread
      obtain ⟨n, hn⟩ := h.exec_alone (hidle writer) hcall
      simp only [Call.alone, hrun, afterRun] at hn
      refine ⟨new, ls ++ (.invoke writer (.put c) :: steps writer n ++ [.ret writer (.inserted r)]),
        _, hnew, fun l hl => ?_, exec_append_eq_some.2 ⟨st, hexec, exec_concat_eq_some.2
          ⟨_, hn, by simp only [step, State.update_self, if_true]; rfl⟩⟩, ?_, ?_⟩
      · rcases List.mem_append.1 hl with hl | hl
        · exact hls l hl
        · simp only [steps, List.cons_append, List.mem_cons, List.mem_append, List.mem_replicate]
            at hl
          rcases hl with rfl | ⟨-, rfl⟩ | rfl | hl
          · exact hcall
          · trivial
          · trivial
          · cases hl
      · simp only [PutCall.after, hrun, State.update_list]
      · exact State.forall_update (P := fun _ th => th.pc = .idle) rfl fun t ht => by
          rw [State.update_of_ne ht]
          exact hidle t
    · -- a panic leaves the list as it is
      exact ⟨new, ls, st, hnew, hls, hexec, by simp only [PutCall.after, hrun], hidle⟩

end Concurrent

end StoneDb
