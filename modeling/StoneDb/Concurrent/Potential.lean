import StoneDb.Concurrent.Stages

/-!
# Potentials of `put` calls

Two potentials bound what a call of `put` can do among others, however they are interleaved.

* `Pc.risk` : how many compare-exchanges a call can still lose.  In each stage it can lose one for
  every other call that has yet to win the stage, and one more if it already holds a stale value.
* `Pc.effort` : how many steps a call makes if it loses no compare-exchange.  A search step leaves a
  node behind, and every node that another call links ahead of it is paid for by that call's win.

The own steps of a call pay from its potentials, a lost compare-exchange costing three steps more
(`Turn.risk`, `Turn.effort`), and the steps of the others do not raise them (`Turn.risk_other`,
`Turn.effort_other`).
-/

namespace StoneDb

namespace Concurrent

open SkipList

/-! ### Potentials -/

/-- `1` if the word does not hold `e`. -/
def Word.stale (w : Word) (sl : SkipList) (e : Option ℕ) : ℕ := if w.load sl = e then 0 else 1

/-- The compare-exchanges that a label loses. -/
def losses (s : State) (l : Label) : ℕ :=
  match l.exchange s with
  | some (w, e) => w.stale s.list e
  | none => 0

instance : DecidablePred Pc.Inserting
  | .loadHeight (.put _) | .put .. => .isTrue trivial
  | .loadHeight (.read _) | .idle | .read .. | .done _ | .faulted _ => .isFalse id

/-- The steps of `put` calls in a label. -/
def putSteps (s : State) : Label → ℕ
  | .step t _ => if (s.threads t).pc.Inserting then 1 else 0
  | .invoke .. | .ret .. => 0

/-- How often others can still win a stage that a call has ahead of it, among `puts` calls. -/
def room (puts : ℕ) (won : Stage → ℕ) (k : Stage) : ℕ := puts - 1 - won k

/-- How many compare-exchanges a `put` can still lose, at most `rivals` in every stage, and as often
as the others have `room` in the one it is in. -/
def PutPc.risk (rivals : ℕ) (room : Stage → ℕ) (sl : SkipList) (c : PutCall) : PutPc → ℕ
  | .search .. => (c.height + 3) * rivals
  | .alloc .. => room .arena + (c.height + 2) * rivals
  | .allocCas _ _ current _ _ => room .arena + Word.bump.stale sl current + (c.height + 2) * rivals
  | .init .. => (c.height + 2) * rivals
  | .raise _ _ current =>
    room .height + Word.height.stale sl (some current) + (c.height + 1) * rivals
  | .linkNext s _ i | .linkCas s _ i =>
    room (.level i) + (Word.slot (s.prev i) i).stale sl (some (s.next i)) + (c.height - i) * rivals
  | .relink _ _ i _ => room (.level i) + (c.height - i) * rivals
  | _ => 0

/-- How many compare-exchanges a thread can still lose in its call. -/
def Pc.risk (rivals : ℕ) (room : Stage → ℕ) (sl : SkipList) : Pc → ℕ
  | .loadHeight (.put c) => (c.height + 3) * rivals
  | .put c pc => pc.risk rivals room sl c
  | _ => 0

/-- How far a search along level `i` can still go: the nodes after `before`, and those that others
may still link. -/
noncomputable def way (cmp : KeyComparator) [Std.TransCmp cmp.compareKey] (room : Stage → ℕ)
    (sl : SkipList) (S : ℕ → Finset ℕ) (i before : ℕ) : ℕ :=
  (Threaded.after (pos cmp sl) (S i) before).card + room (.level i)

/-- The steps of a call of `put` that loses no compare-exchange, on levels of up to `n` nodes. -/
def plainSteps (n : ℕ) (c : PutCall) : ℕ := maxHeight * (n + 1) + (c.height + 1) * (n + 2) + 5

/-- The steps that are left of a `put` that loses no compare-exchange, on levels of up to `n`
nodes. -/
noncomputable def PutPc.effort (cmp : KeyComparator) [Std.TransCmp cmp.compareKey] (n : ℕ)
    (room : Stage → ℕ) (sl : SkipList) (S : ℕ → Finset ℕ) (c : PutCall) : PutPc → ℕ
  | .search _ i _ before => way cmp room sl S i before + i * (n + 1) + (c.height + 1) * (n + 2) + 5
  | .alloc .. => (c.height + 1) * (n + 2) + 4
  | .allocCas .. => (c.height + 1) * (n + 2) + 3
  | .init .. => (c.height + 1) * (n + 2) + 2
  | .raise .. => (c.height + 1) * (n + 2) + 1
  | .linkNext s _ i => way cmp room sl S i (s.prev i) + (c.height - i) * (n + 2) + 2
  | .linkCas s _ i => way cmp room sl S i (s.prev i) + (c.height - i) * (n + 2) + 1
  | .relink _ _ i before => way cmp room sl S i before + (c.height - i) * (n + 2) + 3
  | _ => 1

/-- The steps that are left of the `put` of a thread. -/
noncomputable def Pc.effort (cmp : KeyComparator) [Std.TransCmp cmp.compareKey] (n : ℕ)
    (room : Stage → ℕ) (sl : SkipList) (S : ℕ → Finset ℕ) : Pc → ℕ
  | .loadHeight (.put c) => plainSteps n c
  | .put c pc => pc.effort cmp n room sl S c
  | _ => 0

variable {cmp : KeyComparator} [Std.TransCmp cmp.compareKey] {writer puts size t : ℕ}
  {s s' s₀ : State} {sl sl' : SkipList} {S S' : ℕ → Finset ℕ} {l : Label} {c : PutCall}
  {pc pc' : PutPc} {w : Word} {e : Option ℕ} {sp : Splices} {i node before n rivals : ℕ}
  {ls done : List Label} {k : Stage} {won won' room₁ room₂ : Stage → ℕ}
  {r : Iter PutPc (Option (Bytes × Bytes))}

theorem Word.stale_load : w.stale sl (w.load sl) = 0 := if_pos rfl

theorem Word.stale_le : w.stale sl e ≤ 1 := by
  unfold Word.stale
  split_ifs <;> omega

theorem Word.stale_of_ne (h : w.load sl ≠ e) : w.stale sl e = 1 := if_neg h

theorem Word.stale_congr (h : w.load sl' = w.load sl) : w.stale sl' e = w.stale sl e := by
  rw [Word.stale, Word.stale, h]

/-- Arriving at a stage, a call can lose its compare-exchange once for every rival. -/
theorem Scene.slack_le (hs : Scene cmp writer puts size won s S)
    (hpc : (s.threads t).pc = .put c pc) (he : pc.Expects c w e) (hahead : pc.Ahead w.stage) :
    room puts won w.stage + w.stale s.list e ≤ puts - 1 := by
  have hlead := hs.lead t w.stage (by rw [hpc]; exact hahead)
  unfold room
  by_cases hload : w.load s.list = e
  · rw [← hload, Word.stale_load]
    omega
  · have hwon := hs.stale t c pc w e hpc he hload
    have hone := Word.stale_of_ne hload
    omega

/-- What a step of `put` pays for the compare-exchange that it loses. -/
def PutPc.lost (sl : SkipList) (pc : PutPc) : ℕ :=
  match pc.exchange with
  | some (w, e) => w.stale sl e
  | none => 0

theorem goOn_risk (h : ∀ pc', goOn c sp node i = .next pc' → ∀ w e, pc'.Expects c w e →
      pc'.Ahead w.stage → room₂ w.stage + w.stale sl' e ≤ rivals) :
    (afterPut c (goOn c sp node i)).risk rivals room₂ sl' ≤ (c.height + 1 - i) * rivals := by
  by_cases hi : c.height < i
  · rw [goOn, if_pos hi]
    exact Nat.zero_le _
  · have hgo : goOn c sp node i = .next (.linkNext sp node i) := if_neg hi
    have hslack := h _ hgo (.slot (sp.prev i) i) (some (sp.next i))
      ⟨i, le_rfl, not_lt.1 hi, rfl, rfl⟩ ⟨i, le_rfl, rfl⟩
    have hsplit : c.height + 1 - i = c.height - i + 1 := by omega
    rw [hgo, hsplit, Nat.succ_mul]
    simp only [afterPut, Pc.risk, PutPc.risk]
    simp only [Word.stage] at hslack
    omega

/-- **A step of `put` pays for the compare-exchange that it loses.** -/
theorem PutMove.risk (hm : PutMove cmp sl S c pc sl' S' r) (hpc : PutOk cmp sl S c pc)
    (hle : ∀ k, room₂ k ≤ room₁ k)
    (hrivals : ∀ k, room₂ k ≤ rivals) (harrive : ∀ pc', r = .next pc' → ∀ w e, pc'.Expects c w e →
      pc'.Ahead w.stage → room₂ w.stage + w.stale sl' e ≤ rivals) :
    (afterPut c r).risk rivals room₂ sl' + pc.lost sl ≤ pc.risk rivals room₁ sl c := by
  cases hm with
  | advance | descend => exact le_rfl
  | found | conflict => exact Nat.zero_le _
  | searched h s before =>
    have hroom := hrivals .arena
    have hsplit : (c.height + 3) * rivals = (c.height + 2) * rivals + rivals := Nat.succ_mul _ _
    simp only [afterPut, Pc.risk, PutPc.risk, PutPc.lost, PutPc.exchange, hsplit]
    omega
  | load h s offset new =>
    have hroom := hle .arena
    have hstale : Word.bump.stale sl sl.arena.ptr = 0 := Word.stale_load
    simp only [afterPut, Pc.risk, PutPc.risk, PutPc.lost, PutPc.exchange, hstale]
    omega
  | reserve h s offset new =>
    have hstale : Word.bump.stale sl sl.arena.ptr = 0 := Word.stale_load
    simp only [afterPut, Pc.risk, PutPc.risk, PutPc.lost, PutPc.exchange, hstale]
    omega
  | reload h s current offset new hne =>
    have hroom := hle .arena
    simp only [afterPut, Pc.risk, PutPc.risk, PutPc.lost, PutPc.exchange]
    omega
  | init h s node =>
    simp only [PutPc.risk, PutPc.lost, PutPc.exchange]
    split_ifs with hraise
    · have hslack :=
        harrive _ (if_pos hraise) .height (some h) (Or.inl ⟨rfl, rfl⟩) Stage.noConfusion
      have hsplit : (c.height + 2) * rivals = (c.height + 1) * rivals + rivals := Nat.succ_mul _ _
      simp only [afterPut, Pc.risk, PutPc.risk, hsplit]
      simp only [Word.stage] at hslack
      omega
    · have hgo := goOn_risk fun pc' hr => harrive pc' ((if_neg hraise).trans hr)
      have hmono : (c.height + 1 - 0) * rivals ≤ (c.height + 2) * rivals :=
        Nat.mul_le_mul_right _ (by omega)
      omega
  | raised s node =>
    have hgo := goOn_risk harrive
    have hstale : Word.height.stale sl (some sl.height) = 0 := Word.stale_load
    simp only [PutPc.risk, PutPc.lost, PutPc.exchange, hstale]
    simp only [Nat.sub_zero] at hgo
    omega
  | higher s node current hne =>
    have hroom := hle .height
    have hstale : Word.height.stale sl (some sl.height) = 0 := Word.stale_load
    simp only [afterPut, Pc.risk, PutPc.risk, PutPc.lost, PutPc.exchange, hstale]
    omega
  | overtaken s node current hne =>
    have hgo := goOn_risk harrive
    simp only [PutPc.risk, PutPc.lost, PutPc.exchange]
    simp only [Nat.sub_zero] at hgo
    omega
  | point s node i hhead hfresh =>
    have hroom := hle (.level i)
    have hne : s.prev i ≠ node := hpc.2.linking.ne hpc.2.splice.1
    have hload : (Word.slot (s.prev i) i).load
        { sl with arena := sl.arena.setNext node i (s.next i) } =
          (Word.slot (s.prev i) i).load sl :=
      congrArg some (Arena.nextAt_setNext_of_ne (Or.inl hne))
    simp only [afterPut, Pc.risk, PutPc.risk, PutPc.lost, PutPc.exchange, Word.stale_congr hload]
    omega
  | link s node i hprev =>
    have hgo := goOn_risk harrive
    have hstale : (Word.slot (s.prev i) i).stale sl (some (s.next i)) = 0 := by
      rw [← hprev]
      exact Word.stale_load
    simp only [PutPc.risk, PutPc.lost, PutPc.exchange, hstale]
    simp only [Nat.add_sub_add_right] at hgo
    omega
  | miss s node i hprev =>
    have hroom := hle (.level i)
    simp only [afterPut, Pc.risk, PutPc.risk, PutPc.lost, PutPc.exchange]
    omega
  | readvance s node i before =>
    have hroom := hle (.level i)
    simp only [afterPut, Pc.risk, PutPc.risk, PutPc.lost, PutPc.exchange]
    omega
  | resplice s node i before =>
    have hroom := hle (.level i)
    have hstale : (Word.slot before i).stale sl (some (sl.arena.nextAt before i)) = 0 :=
      Word.stale_load
    simp only [afterPut, Pc.risk, PutPc.risk, PutPc.lost, PutPc.exchange, record,
      Function.update_self, hstale]
    omega

/-- While the list grows, a search gets no more nodes ahead of it than the level gains. -/
theorem after_grows (hgrow : Grows sl S sl' S') (hwf : Wf cmp sl S)
    (hp : before = sl.head ∨ before ∈ S i) :
    (Threaded.after (pos cmp sl') (S' i) before).card + (S i).card ≤
      (Threaded.after (pos cmp sl) (S i) before).card + (S' i).card := by
  have hold : Threaded.after (pos cmp sl') (S i) before =
      Threaded.after (pos cmp sl) (S i) before :=
    Threaded.after_congr (fun y hy => hgrow.pos_mem hwf (Or.inr hy)) (hgrow.pos_mem hwf hp)
  rw [← hold]
  exact Threaded.card_after_add_le (pos cmp sl') (hgrow.subset i) before

theorem goOn_effort (hway : ∀ i x, (afterPut c r).Ahead (.level i) →
      way cmp room₂ sl' S' i x ≤ n) (hr : r = goOn c sp node i) :
    (afterPut c r).effort cmp n room₂ sl' S' ≤ (c.height + 1 - i) * (n + 2) := by
  by_cases hi : c.height < i
  · rw [hr, goOn, if_pos hi]
    exact Nat.zero_le _
  · have hgo : r = .next (.linkNext sp node i) := hr.trans (if_neg hi)
    subst hgo
    have hlevel := hway i (sp.prev i) ⟨i, le_rfl, rfl⟩
    have hsplit : c.height + 1 - i = c.height - i + 1 := by omega
    rw [hsplit, Nat.succ_mul]
    simp only [afterPut, Pc.effort, PutPc.effort]
    omega

/-- **A step of `put` leaves less to do**, unless it loses a compare-exchange. -/
theorem PutMove.effort (hm : PutMove cmp sl S c pc sl' S' r) (hwf : Wf cmp sl S)
    (hpc : PutOk cmp sl S c pc) (hle : ∀ k, room₂ k ≤ room₁ k)
    (hway : ∀ i x, (afterPut c r).Ahead (.level i) → way cmp room₂ sl' S' i x ≤ n) :
    (afterPut c r).effort cmp n room₂ sl' S' + 1 ≤
      pc.effort cmp n room₁ sl S c + 3 * pc.lost sl := by
  -- a node further, or where it was, and others have no more room than before
  have hahead : ∀ {i x y}, y ∈ S i → pos cmp sl x < pos cmp sl y →
      way cmp room₂ sl S i y + 1 ≤ way cmp room₁ sl S i x := fun {i x y} hy hlt => by
    have hcard := Threaded.card_after_lt hy hlt
    have hroom := hle (.level i)
    unfold way
    omega
  have hstay : ∀ {i x}, way cmp room₂ sl S i x ≤ way cmp room₁ sl S i x := fun {i x} =>
    Nat.add_le_add_left (hle _) _
  cases hm with
  | advance h i s before hmem hlt =>
    have hnext := hahead hmem hlt
    simp only [afterPut, Pc.effort, PutPc.effort]
    omega
  | found h i s before r =>
    simp only [afterPut, Pc.effort, PutPc.effort]
    omega
  | descend h i s before =>
    have hlevel := hway i before trivial
    have hsplit : (i + 1) * (n + 1) = i * (n + 1) + (n + 1) := Nat.succ_mul _ _
    simp only [afterPut, Pc.effort, PutPc.effort, hsplit]
    omega
  | searched | load | reserve =>
    simp only [afterPut, Pc.effort, PutPc.effort]
    omega
  | reload h s current offset new hne =>
    have hlost : Word.bump.stale sl current = 1 := Word.stale_of_ne hne
    simp only [afterPut, Pc.effort, PutPc.effort, PutPc.lost, PutPc.exchange, hlost]
    omega
  | init h s node =>
    simp only [PutPc.effort]
    split_ifs at hway ⊢ with hraise
    · simp only [afterPut, Pc.effort, PutPc.effort]
      omega
    · have hgo := goOn_effort hway rfl
      simp only [Nat.sub_zero] at hgo
      omega
  | raised s node =>
    have hgo := goOn_effort hway rfl
    simp only [Nat.sub_zero] at hgo
    simp only [PutPc.effort]
    omega
  | higher s node current hne =>
    have hlost : Word.height.stale sl (some current) = 1 :=
      Word.stale_of_ne fun he => hne (Option.some.inj he)
    simp only [afterPut, Pc.effort, PutPc.effort, PutPc.lost, PutPc.exchange, hlost]
    omega
  | overtaken s node current hne =>
    have hgo := goOn_effort hway rfl
    simp only [Nat.sub_zero] at hgo
    simp only [PutPc.effort]
    omega
  | point s node i hhead hfresh =>
    have hroom := hle (.level i)
    have hgrow : Grows sl S { sl with arena := sl.arena.setNext node i (s.next i) } S :=
      grows_setNext
    have hafter := after_grows hgrow hwf hpc.2.splice.1
    simp only [afterPut, Pc.effort, PutPc.effort, way]
    omega
  | link s node i hprev =>
    have hgo := goOn_effort hway rfl
    simp only [Nat.add_sub_add_right] at hgo
    simp only [PutPc.effort]
    omega
  | miss s node i hprev =>
    have hlost : (Word.slot (s.prev i) i).stale sl (some (s.next i)) = 1 :=
      Word.stale_of_ne fun he => hprev (Option.some.inj he)
    have hsame : way cmp room₂ sl S i (s.prev i) ≤ way cmp room₁ sl S i (s.prev i) := hstay
    simp only [afterPut, Pc.effort, PutPc.effort, PutPc.lost, PutPc.exchange, hlost]
    omega
  | readvance s node i before hmem hlt =>
    have hnext := hahead hmem hlt
    simp only [afterPut, Pc.effort, PutPc.effort]
    omega
  | conflict s node i before r =>
    simp only [afterPut, Pc.effort, PutPc.effort]
    omega
  | resplice s node i before =>
    have hsame : way cmp room₂ sl S i before ≤ way cmp room₁ sl S i before := hstay
    simp only [afterPut, Pc.effort, PutPc.effort, record, Function.update_self]
    omega

/-! ### Turns -/

theorem risk_of_not_inserting {pc : Pc} (h : ¬ pc.Inserting) : pc.risk rivals room₁ sl = 0 := by
  cases pc with
  | loadHeight c =>
    cases c with
    | put c => exact absurd trivial h
    | read q => rfl
  | put c pc => exact absurd trivial h
  | idle | read | done | faulted => rfl

theorem effort_of_not_inserting {pc : Pc} (h : ¬ pc.Inserting) :
    pc.effort cmp n room₁ sl S = 0 := by
  cases pc with
  | loadHeight c =>
    cases c with
    | put c => exact absurd trivial h
    | read q => rfl
  | put c pc => exact absurd trivial h
  | idle | read | done | faulted => rfl

theorem effort_pos {pc : Pc} (h : pc.Inserting) : 1 ≤ pc.effort cmp n room₁ sl S := by
  cases pc with
  | loadHeight c =>
    cases c with
    | put c =>
      simp only [Pc.effort, plainSteps]
      omega
    | read q => exact h.elim
  | put c pc => cases pc <;> simp only [Pc.effort, PutPc.effort] <;> omega
  | idle | read | done | faulted => exact h.elim

theorem putSteps_le : putSteps s l ≤ 1 := by
  cases l with
  | step t weak =>
    simp only [putSteps]
    split_ifs <;> omega
  | invoke | ret => exact Nat.zero_le _

theorem putSteps_le_effort (n : ℕ) (room : Stage → ℕ) (S : ℕ → Finset ℕ) :
    putSteps s l ≤ (s.threads l.thread).pc.effort cmp n room s.list S := by
  cases l with
  | step t weak =>
    simp only [putSteps]
    split_ifs with hpc
    · exact effort_pos hpc
    · exact Nat.zero_le _
  | invoke | ret => exact Nat.zero_le _

theorem losses_put {weak : Bool} (hpc : (s.threads t).pc = .put c pc) :
    losses s (.step t weak) = pc.lost s.list := by
  rw [losses, exchange_put hpc]
  rfl

theorem losses_of_none (h : l.exchange s = none) : losses s l = 0 := by
  rw [losses, h]

section

variable (hs : Scene cmp writer puts size won s S) (hs' : Scene cmp writer puts size won' s' S')
  (hwon : ∀ k, won' k = won k + wins k s l) (ht : Turn cmp s S l s' S') (hm : Move cmp s S l s' S')

include hwon in
theorem room_le (k : Stage) : room puts won' k ≤ room puts won k := by
  have := hwon k
  unfold room
  omega

include hs hs' hwon ht

/-- **The thread that moves pays** for the compare-exchange that it loses. -/
theorem Turn.risk : (s'.threads l.thread).pc.risk (puts - 1) (room puts won') s'.list + losses s l ≤
    (s.threads l.thread).pc.risk (puts - 1) (room puts won) s.list +
      granted (fun c => (c.height + 3) * (puts - 1)) l := by
  cases ht with
  | call t c hpc =>
    have hlost : losses s (.invoke t (.put c)) = 0 := losses_of_none rfl
    simp only [Label.thread, State.setPc, State.update_self, hpc, Pc.risk, hlost, granted,
      Label.putCall, Option.elim_some]
    omega
  | snapshot t c hpc =>
    have hlost : losses s (.step t false) = 0 :=
      losses_of_none (exchange_of_not_put (by simp [hpc]))
    simp only [Label.thread, State.setPc, State.update_self, hpc, Pc.risk, PutPc.risk, hlost]
    omega
  | put t c pc sl S' r hpc hmove =>
    have hok := hs.inv.pc t
    rw [hpc] at hok
    have hrisk : (afterPut c r).risk (puts - 1) (room puts won') sl + pc.lost s.list ≤
        pc.risk (puts - 1) (room puts won) s.list c := by
      refine hmove.risk hok.2 (room_le hwon) (fun k => Nat.sub_le _ _)
        fun pc' hr w e he hahead => ?_
      subst hr
      exact hs'.slack_le (congrArg Thread.pc State.update_self) he hahead
    simp only [Label.thread, State.update_self, State.update_list, hpc, losses_put hpc]
    exact hrisk.trans (Nat.le_add_right _ _)
  | aside l th hex _ hth =>
    rw [State.update_self, risk_of_not_inserting hth, losses_of_none hex]
    exact Nat.zero_le _

/-- The thread that moves **has less to do** afterwards, unless it loses a compare-exchange. -/
theorem Turn.effort :
    (s'.threads l.thread).pc.effort cmp (size + puts) (room puts won') s'.list S' + putSteps s l ≤
    (s.threads l.thread).pc.effort cmp (size + puts) (room puts won) s.list S +
      (granted (plainSteps (size + puts)) l + 3 * losses s l) := by
  -- what a search has before it at most
  have hway : ∀ i x, (s'.threads l.thread).pc.Ahead (.level i) →
      way cmp (room puts won') s'.list S' i x ≤ size + puts := by
    intro i x hahead
    have hlead := hs'.lead _ _ hahead
    have hcard := hs'.card i
    have hafter : (Threaded.after (pos cmp s'.list) (S' i) x).card ≤ (S' i).card :=
      Finset.card_le_card (Finset.filter_subset _ _)
    unfold way room
    omega
  cases ht with
  | call t c hpc =>
    simp only [Label.thread, State.setPc, State.update_self, hpc, Pc.effort, putSteps, granted,
      Label.putCall, Option.elim_some]
    omega
  | snapshot t c hpc =>
    have hhead := hway s.list.height s.list.head
    simp only [Label.thread, State.setPc, State.update_self, State.update_list] at hhead ⊢
    have hlevels : (s.list.height + 1) * (size + puts + 1) ≤ maxHeight * (size + puts + 1) :=
      Nat.mul_le_mul_right _ hs.inv.wf.height_lt
    rw [Nat.succ_mul] at hlevels
    have hsteps : putSteps s (.step t false) ≤ 1 := putSteps_le
    have hhead := hhead trivial
    simp only [hpc, Pc.effort, PutPc.effort, plainSteps]
    omega
  | put t c pc sl S' r hpc hmove =>
    have hok := hs.inv.pc t
    rw [hpc] at hok
    simp only [Label.thread, State.update_self, State.update_list] at hway ⊢
    have heffort := hmove.effort hs.inv.wf hok.2 (room_le hwon) hway
    have hsteps : putSteps s (.step t false) ≤ 1 := putSteps_le
    simp only [hpc, Pc.effort, losses_put hpc] at heffort ⊢
    omega
  | aside l th hex _ hth =>
    rw [State.update_self, effort_of_not_inserting hth, Nat.zero_add]
    exact (putSteps_le_effort _ _ _).trans (Nat.le_add_right _ _)

include hm

omit hs ht in
/-- What the others win, a call that has the stage ahead of it has no longer to fear. -/
theorem room_add (hne : t ≠ l.thread) (hk : (s.threads t).pc.Ahead k) :
    room puts won' k + wins k s l = room puts won k := by
  have hlead := hs'.lead t k (by rw [hm.other hne]; exact hk)
  have hk := hwon k
  unfold room
  omega

/-- **A win of another call** makes one value stale, and is one win less to come. -/
theorem Turn.slack (hne : t ≠ l.thread) (hpc : (s.threads t).pc = .put c pc)
    (he : pc.Expects c w e) (hahead : pc.Ahead w.stage) :
    room puts won' w.stage + w.stale s'.list e ≤ room puts won w.stage + w.stale s.list e := by
  have hok := hs.inv.pc t
  rw [hpc] at hok
  have hstage : (s.threads t).pc.Ahead w.stage := by
    rw [hpc]
    exact hahead
  have hroom := room_add hs' hwon hm hne hstage
  rcases ht.word hs.inv.wf (hok.2.linked hok.1.height he) with hsame | hwin
  · rw [Word.stale_congr hsame]
    omega
  · have hone := hwin.wins
    have hstale : w.stale s'.list e ≤ 1 := Word.stale_le
    omega

/-- The steps of the others do not raise the risk of a call. -/
theorem Turn.risk_other (hne : t ≠ l.thread) :
    (s'.threads t).pc.risk (puts - 1) (room puts won') s'.list ≤
      (s.threads t).pc.risk (puts - 1) (room puts won) s.list := by
  rw [hm.other hne]
  cases hpc : (s.threads t).pc with
  | idle | read | done | faulted => exact le_rfl
  | loadHeight c => cases c <;> exact le_rfl
  | put c pc =>
    have hok := hs.inv.pc t
    rw [hpc] at hok
    have hroom : ∀ k, room puts won' k ≤ room puts won k := room_le hwon
    have hslack := fun w e => ht.slack hs hs' hwon hm hne (w := w) (e := e) hpc
    cases pc with
    | search | init | splice | backNode | backNext | storeNext | storeLink => exact le_rfl
    | alloc h sp => exact Nat.add_le_add_right (hroom _) _
    | allocCas h sp current offset new =>
      exact Nat.add_le_add_right (hslack .bump current (Or.inl ⟨rfl, rfl⟩) trivial) _
    | raise sp node current =>
      exact Nat.add_le_add_right (hslack .height (some current) (Or.inl ⟨rfl, rfl⟩) nofun) _
    | linkNext sp node i =>
      exact Nat.add_le_add_right (hslack (.slot (sp.prev i) i) (some (sp.next i))
        ⟨i, le_rfl, hok.2.2.level_le, rfl, rfl⟩ ⟨i, le_rfl, rfl⟩) _
    | linkCas sp node i =>
      exact Nat.add_le_add_right (hslack (.slot (sp.prev i) i) (some (sp.next i))
        ⟨i, le_rfl, hok.2.2.1.level_le, rfl, rfl⟩ ⟨i, le_rfl, rfl⟩) _
    | relink sp node i before => exact Nat.add_le_add_right (hroom _) _

/-- Every node that another call links ahead of a search is a win that it has paid for. -/
theorem Turn.way_le (hne : t ≠ l.thread) (hahead : (s.threads t).pc.Ahead (.level i))
    (hp : before = s.list.head ∨ before ∈ S i) :
    way cmp (room puts won') s'.list S' i before ≤ way cmp (room puts won) s.list S i before := by
  have hroom := room_add hs' hwon hm hne hahead
  have hafter := after_grows hm.grows hs.inv.wf hp
  have hcard := ht.card i
  unfold way
  omega

/-- The steps of the others do not raise the effort of a call. -/
theorem Turn.effort_other (hne : t ≠ l.thread) :
    (s'.threads t).pc.effort cmp n (room puts won') s'.list S' ≤
      (s.threads t).pc.effort cmp n (room puts won) s.list S := by
  rw [hm.other hne]
  have hway : ∀ i x, (s.threads t).pc.Ahead (.level i) → (x = s.list.head ∨ x ∈ S i) →
      way cmp (room puts won') s'.list S' i x ≤ way cmp (room puts won) s.list S i x :=
    fun i x => ht.way_le hs hs' hwon hm hne
  cases hpc : (s.threads t).pc with
  | idle | read | done | faulted => exact le_rfl
  | loadHeight c => cases c <;> exact le_rfl
  | put c pc =>
    have hok := hs.inv.pc t
    rw [hpc] at hok hway
    cases pc with
    | alloc | allocCas | init | raise | splice | backNode | backNext | storeNext | storeLink =>
      exact le_rfl
    | search h i sp before =>
      have := hway i before trivial hok.2.2.1.2.1
      simp only [Pc.effort, PutPc.effort]
      omega
    | linkNext sp node i =>
      have := hway i (sp.prev i) ⟨i, le_rfl, rfl⟩ hok.2.2.splice.1
      simp only [Pc.effort, PutPc.effort]
      omega
    | linkCas sp node i =>
      have := hway i (sp.prev i) ⟨i, le_rfl, rfl⟩ hok.2.2.1.splice.1
      simp only [Pc.effort, PutPc.effort]
      omega
    | relink sp node i before =>
      have := hway i before ⟨i, le_rfl, rfl⟩ hok.2.2.2.2.1
      simp only [Pc.effort, PutPc.effort]
      omega

end

end Concurrent

end StoneDb
