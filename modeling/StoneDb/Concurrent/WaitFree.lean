import StoneDb.Concurrent.Chains
import StoneDb.Lib.Keeps

/-!
# Reads are wait-free

Whatever the other threads do, a read ends after at most as many steps of its own thread as there
are nodes on level 0 and levels, and two more (`reads_wait_free`); until then the thread can always
make a step, and the step does not panic.

A read never stands at the same place twice: every turn of its loop goes right, past at least one
node, or down one level (`readStep_left`).  An insert puts at most one node more before it, and a
node more on level 0 (`left_mono`), so what the read has done and what it has left are together at
most the nodes and the levels of the list at every instant.
-/

namespace StoneDb

namespace Concurrent

open SkipList

variable {cmp : KeyComparator} [Std.TransCmp cmp.compareKey] {mode : Bool} {writer t : ℕ}
  {s s' : State} {sl sl' : SkipList} {S S' : ℕ → Finset ℕ} {l : Label} {q : ReadCall}
  {it : IterRef} {p p' : ℕ × ℕ} {ls before during : List Label}

/-! ### Steps -/

/-- Is this a step of the thread `t`? -/
def Label.stepOf (t : ℕ) : Label → Bool
  | .step t' _ => t' = t
  | .invoke .. | .ret .. => false

/-- The steps that the thread `t` makes. -/
def ownSteps (t : ℕ) (ls : List Label) : ℕ := ls.countP (Label.stepOf t)

theorem ownSteps_concat_other (h : t ≠ l.thread) :
    ownSteps t (ls ++ [l]) = ownSteps t ls := by
  have hnot : l.stepOf t = false := by
    cases l with
    | invoke | ret => rfl
    | step t' weak => exact decide_eq_false fun he => h he.symm
  rw [ownSteps, List.countP_append, List.countP_singleton, hnot, ownSteps]
  rfl

theorem ownSteps_concat (weak : Bool) :
    ownSteps t (ls ++ [.step t weak]) = ownSteps t ls + 1 := by
  have hstep : (Label.step t weak).stepOf t = true := decide_eq_true rfl
  rw [ownSteps, List.countP_append, List.countP_singleton, hstep, ownSteps]
  rfl

/-! ### What is left -/

/-- The level at which a read stands; `len` counts in its place. -/
def ReadCall.level (q : ReadCall) (l : ℕ) : ℕ :=
  match q with
  | .len | .isEmpty => 0
  | _ => l

/-- The steps a read has left at most: one for each node ahead, one for each level, and the last. -/
noncomputable def left (cmp : KeyComparator) [Std.TransCmp cmp.compareKey] (sl : SkipList)
    (S : ℕ → Finset ℕ) : Pc → ℕ
  | .loadHeight _ => (S 0).card + sl.height + 2
  | .read q p => (Threaded.after (pos cmp sl) (S 0) p.1).card + q.level p.2 + 1
  | _ => 0

/-- A loop of a read that goes on has gone on in its search. -/
theorem next_of_finish {α : Type} {f : α → Except Fault (IterRef × Ret)}
    {r : Except Fault (Iter (ℕ × ℕ) α)} (h : finish f r = .ok (.next p)) : r = .ok (.next p) := by
  cases r with
  | error e => cases h
  | ok v =>
    cases v with
    | next p' =>
      cases h
      rfl
    | done a => cases hf : f a <;> simp [finish, hf, bind, Except.bind, pure, Except.pure] at h

/-- The turn of a loop that leads from `c`, on level `l`, to `p`: right, or down. -/
def Gone (cmp : KeyComparator) [Std.TransCmp cmp.compareKey] (sl : SkipList) (S : ℕ → Finset ℕ)
    (c l : ℕ) (p : ℕ × ℕ) : Prop :=
  (p.1 = sl.head ∨ p.1 ∈ S 0) ∧ (Threaded.after (pos cmp sl) (S 0) p.1).card + p.2 <
    (Threaded.after (pos cmp sl) (S 0) c).card + l

theorem of_next {α : Type} {r : Except Fault (Iter (ℕ × ℕ) α)} {I : ℕ × ℕ → Prop}
    (h : (∃ p, r = .ok (.next p) ∧ I p) ∨ ∃ a, r = .ok (.done a)) (hr : r = .ok (.next p)) :
    I p := by
  rcases h with ⟨p', hp, hI⟩ | ⟨a, ha⟩
  · obtain rfl : p' = p := Iter.next.inj (Except.ok.inj (hp.symm.trans hr))
    exact hI
  · rw [ha] at hr
    cases hr

section

variable {c l : ℕ}

theorem lowerBoundStep_gone {key : Bytes} (hwf : Wf cmp sl S) (hat : SearchAt cmp sl S key c l)
    (hrun : sl.lowerBoundStep key (c, l) = .ok (.next p)) : Gone cmp sl S c l p := by
  refine of_next ((hwf.lowerBoundStep_spec hat).imp ?_ fun ⟨o, hr, _⟩ => ⟨_, hr⟩) hrun
  rintro ⟨c', l', hr, hat', hlt⟩
  exact ⟨(c', l'), hr, hat'.2.1.imp_right (hwf.subset_zero l' ·), hlt⟩

theorem findNearStep_gone {key : Bytes} {less allowEqual : Bool} (hwf : Wf cmp sl S)
    (hat : SearchAt cmp sl S key c l)
    (hrun : sl.findNearStep key less allowEqual (c, l) = .ok (.next p)) :
    Gone cmp sl S c l p := by
  refine of_next ((hwf.findNearStep_spec hat).imp ?_ fun ⟨o, hr, _⟩ => ⟨_, hr⟩) hrun
  rintro ⟨c', l', hr, hat', hlt⟩
  exact ⟨(c', l'), hr, hat'.2.1.imp_right (hwf.subset_zero l' ·), hlt⟩

theorem findLastStep_gone (hwf : Wf cmp sl S) (hl : l < maxHeight) (hc : c = sl.head ∨ c ∈ S l)
    (hrun : sl.findLastStep (c, l) = .ok (.next p)) : Gone cmp sl S c l p := by
  refine of_next ((hwf.findLastStep_spec hl hc).imp ?_ fun ⟨o, hr, _⟩ => ⟨_, hr⟩) hrun
  rintro ⟨c', l', hr, -, hc', hlt⟩
  exact ⟨(c', l'), hr, hc'.imp_right (hwf.subset_zero l' ·), hlt⟩

theorem lenStep_gone {n : ℕ} (hwf : Wf cmp sl S) (hc : c = sl.head ∨ c ∈ S 0)
    (hrun : sl.lenStep (c, n) = .ok (.next p)) : Gone cmp sl S c 0 (p.1, 0) := by
  refine of_next (I := fun p => Gone cmp sl S c 0 (p.1, 0))
    ((hwf.lenStep_spec hc n).imp ?_ fun ⟨_, hr⟩ => ⟨_, hr⟩) hrun
  rintro ⟨hmem, hr⟩
  have hlt := ((hwf.load (l := 0) (by decide) hc).2 (hwf.ne_zero hmem)).2
  exact ⟨_, hr, Or.inr hmem, Nat.add_lt_add_right (hwf.ahead_lt hmem hlt) 0⟩

end

/-- **A turn of a read** leaves less to do. -/
theorem readStep_left (hwf : Wf cmp sl S) (hit : CursorOk sl it) (hok : ReadOk cmp sl S it q p)
    (hrun : readStep sl it q p = .ok (.next p')) : (p'.1 = sl.head ∨ p'.1 ∈ S 0) ∧
      left cmp sl S (.read q p') < left cmp sl S (.read q p) := by
  have hturn {l l' : ℕ} (h : Gone cmp sl S p.1 l (p'.1, l')) :
      (p'.1 = sl.head ∨ p'.1 ∈ S 0) ∧
        (Threaded.after (pos cmp sl) (S 0) p'.1).card + l' + 1 <
          (Threaded.after (pos cmp sl) (S 0) p.1).card + l + 1 := ⟨h.1, Nat.succ_lt_succ h.2⟩
  simp only [left]
  cases q with
  | get key | getWithKey key | contains key | lowerBound key =>
    exact hturn (lowerBoundStep_gone hwf hok (next_of_finish hrun))
  | seek key | seekForPrev key =>
    exact hturn (findNearStep_gone hwf hok (next_of_finish hrun))
  | len | isEmpty => exact hturn (lenStep_gone hwf hok (next_of_finish hrun))
  | seekToLast => exact hturn (findLastStep_gone hwf hok.1 hok.2 (next_of_finish hrun))
  | seekToFirst | next =>
    -- one load, and no loop
    simp only [readStep] at hrun
    obtain ⟨o, -, hrun⟩ := except_bind_eq_ok.1 hrun
    obtain ⟨r, -, hrun⟩ := except_bind_eq_ok.1 hrun
    cases hrun
  | prev =>
    by_cases h0 : it.cursor = 0
    · rw [readStep_of_not_valid (Or.inr rfl) h0] at hrun
      cases hrun
    cases hmode : sl.allowConcurrentWrite with
    | true =>
      rw [readStep_prev_concurrent hmode h0 (hit.alive h0)] at hrun
      exact hturn (findNearStep_gone hwf (hok hmode h0) (next_of_finish hrun))
    | false =>
      simp only [readStep, hmode, Bool.false_eq_true, if_false] at hrun
      obtain ⟨o, -, hrun⟩ := except_bind_eq_ok.1 hrun
      obtain ⟨r, -, hrun⟩ := except_bind_eq_ok.1 hrun
      cases hrun

/-! ### One call -/

/-- Where a thread is in a read, after `n` steps of its own. -/
def Reading (sl : SkipList) (S : ℕ → Finset ℕ) (n : ℕ) : Pc → Prop
  | .loadHeight (.read _) => n = 0
  | .read _ p => p.1 = sl.head ∨ p.1 ∈ S 0
  | .done _ => True
  | _ => False

theorem Reading.left_pos {n : ℕ} {pc : Pc} (h : Reading sl S n pc) (hdone : ∀ r, pc ≠ .done r) :
    0 < left cmp sl S pc := by
  cases pc with
  | loadHeight | read => exact Nat.succ_pos _
  | done r => exact absurd rfl (hdone r)
  | idle | put | faulted => exact h.elim

/-- What a read has done, and what it has left. -/
structure Paid (cmp : KeyComparator) [Std.TransCmp cmp.compareKey] (sl : SkipList)
    (S : ℕ → Finset ℕ) (n : ℕ) (pc : Pc) : Prop where
  reading : Reading sl S n pc
  le : n + left cmp sl S pc ≤ (S 0).card + sl.height + 2

/-- An insert adds at most one to what a read has left, and one to the nodes of the list. -/
theorem Paid.mono {pc : Pc} {n : ℕ} (h : Paid cmp sl S n pc) (hwf : Wf cmp sl S)
    (hgrow : Grows sl S sl' S') : Paid cmp sl' S' n pc := by
  obtain ⟨hread, hle⟩ := h
  have hcard := Finset.card_le_card (hgrow.subset 0)
  have hheight := hgrow.height
  cases pc with
  | loadHeight c =>
    cases c with
    | put c => exact hread.elim
    | read q =>
      obtain rfl : n = 0 := hread
      refine ⟨rfl, ?_⟩
      simp only [left]
      omega
  | read q p =>
    have hc : p.1 = sl.head ∨ p.1 ∈ S 0 := hread
    have hsame : Threaded.after (pos cmp sl') (S 0) p.1 = Threaded.after (pos cmp sl) (S 0) p.1 :=
      Threaded.after_congr (fun y hy => hgrow.pos_mem hwf (Or.inr hy)) (hgrow.pos_mem hwf hc)
    have hahead := Threaded.card_after_add_le (pos cmp sl') (hgrow.subset 0) p.1
    rw [hsame] at hahead
    refine ⟨hc.imp (·.trans hgrow.head.symm) (hgrow.subset 0 ·), ?_⟩
    simp only [left] at hle ⊢
    omega
  | done r =>
    refine ⟨trivial, ?_⟩
    simp only [left] at hle ⊢
    omega
  | idle | put | faulted => exact hread.elim

/-- From the head on, all nodes are ahead. -/
theorem left_head_le (q : ReadCall) (l : ℕ) :
    left cmp sl S (.read q (sl.head, l)) ≤ (S 0).card + l + 1 := by
  have hall := Finset.card_le_card (Finset.filter_subset
    (fun y => pos cmp sl sl.head < pos cmp sl y) (S 0))
  have hlevel : q.level l ≤ l := by cases q <;> simp [ReadCall.level]
  simp only [left, Threaded.after]
  omega

/-- The start of a read. -/
theorem paid_start (it : IterRef) (q : ReadCall) :
    Paid cmp sl S 0 (Call.start sl it (.read q)) := by
  simp only [Call.start]
  split_ifs
  · refine ⟨rfl, ?_⟩
    simp only [left]
    omega
  · have hhead : left cmp sl S (.read q (sl.head, 0)) ≤ _ := left_head_le q 0
    exact ⟨Or.inl rfl, by simp only [headOffset]; omega⟩

/-- A move during a read. -/
theorem Move.paid (hm : Move cmp s S l s' S') (h : Inv cmp mode writer s S) (hl : l.Within t)
    (hpaid : Paid cmp s.list S (ownSteps t ls) (s.threads t).pc) :
    Paid cmp s'.list S' (ownSteps t (ls ++ [l])) (s'.threads t).pc := by
  rcases hl.cases with ht | ⟨weak, rfl⟩
  · rw [hm.other ht, ownSteps_concat_other ht]
    exact hpaid.mono h.wf hm.grows
  rw [ownSteps_concat]
  obtain ⟨hread, hle⟩ := hpaid
  have hok := h.pc t
  cases hm with
  | search _ _ c hpc | put _ _ c pc sl S' r hpc | panic _ _ c _ _ hpc =>
    rw [hpc] at hread
    exact hread.elim
  | descend _ _ q hpc =>
    rw [hpc] at hread
    have hn : ownSteps t ls = 0 := hread
    simp only [State.setPc, State.update_self, State.update_list]
    have hhead : left cmp s.list S (.read q (s.list.head, s.list.height)) ≤ _ := left_head_le q _
    exact ⟨Or.inl rfl, by omega⟩
  | read _ _ q p p' hpc hrun =>
    rw [hpc] at hle hok
    obtain ⟨hc, hlt⟩ := readStep_left h.wf (h.cursor t) hok hrun
    simp only [State.setPc, State.update_self, State.update_list]
    exact ⟨hc, by omega⟩
  | answer _ _ q p it r hpc =>
    rw [hpc] at hle
    simp only [State.update_self, State.update_list]
    refine ⟨trivial, ?_⟩
    simp only [left] at hle ⊢
    omega

/-- A thread in a read can make a step, which does not panic. -/
theorem reading_enabled {n : ℕ} (h : Inv cmp mode writer s S)
    (hread : Reading s.list S n (s.threads t).pc) (hdone : ∀ r, (s.threads t).pc ≠ .done r)
    (weak : Bool) : ∃ s', step s (.step t weak) = some s' ∧
      ∀ e, (s'.threads t).pc ≠ .faulted e := by
  have hok := h.pc t
  simp only [step, Thread.advance]
  cases hpc : (s.threads t).pc with
  | idle | put | faulted =>
    rw [hpc] at hread
    exact hread.elim
  | done r => exact absurd hpc (hdone r)
  | loadHeight c =>
    cases c with
    | put c =>
      rw [hpc] at hread
      exact hread.elim
    | read q => exact ⟨_, rfl, fun e => by simp⟩
  | read q p =>
    rw [hpc] at hok
    rcases readStep_spec h.wf h.closed (h.cursor t) hok with
      ⟨p', hrun, -⟩ | ⟨it, r, hrun, -⟩ <;>
    · simp only [hrun, bind, Except.bind, pure, Except.pure]
      exact ⟨_, rfl, fun e => by simp⟩

/-- What the thread `t` can rely on after `n` steps of a read: it has its answer, or it can make one
more step, and then it has one less left. -/
def State.Progresses (s : State) (t n : ℕ) : Prop :=
  (∃ r, (s.threads t).pc = .done r) ∧ n ≤ (s.list.chain 0).length + s.list.height + 2 ∨
    n < (s.list.chain 0).length + s.list.height + 2 ∧
      ∀ weak, ∃ s', step s (.step t weak) = some s' ∧ ∀ e, (s'.threads t).pc ≠ .faulted e

/-- **Reads are wait-free**, in every run. -/
theorem reads_wait_free (cmp : KeyComparator) [Std.TransCmp cmp.compareKey] {capacity : ℕ}
    (hcap : capacity ≤ 2 ^ 32) (hnew : SkipList.withCapacity cmp capacity mode = .ok sl)
    (hls : ∀ l ∈ before ++ .invoke t (.read q) :: during, l.Allowed mode writer)
    (hwithin : ∀ l ∈ during, l.Within t)
    (hexec : exec step (State.init sl) (before ++ .invoke t (.read q) :: during) = some s) :
    s.Progresses t (ownSteps t during) := by
  have hinit : Inv cmp mode writer (State.init sl) fun _ => ∅ := inv_init hcap hnew
  obtain ⟨s₁, hs₁, hcall⟩ := exec_append_eq_some.1 hexec
  obtain ⟨s₀, hinvoke, hduring⟩ := exec_cons_eq_some.1 hcall
  obtain ⟨S₁, h₁, -⟩ := exec_inv hinit (fun l hl => hls l (List.mem_append_left _ hl)) hs₁
  obtain ⟨hidle, hs₀⟩ := step_invoke hinvoke
  have h₀ : Inv cmp mode writer s₀ S₁ := hs₀ ▸ (Move.invoke t _ hidle).inv h₁ trivial
  have hstart : Paid cmp s₀.list S₁ (ownSteps t []) (s₀.threads t).pc := by
    rw [hs₀]
    simp only [State.setPc, State.update_self, State.update_list]
    exact paid_start _ q
  obtain ⟨S, h, hpaid⟩ := run_induction
    (I := fun ls s S => Paid cmp s.list S (ownSteps t ls) (s.threads t).pc) h₀ hstart
    (fun ls₁ s₁ S₁ l s₂ S₂ hl _ h₁ hpaid hm _ => hm.paid h₁ (hwithin l hl) hpaid)
    (fun l hl => hls l (List.mem_append_right _ (List.mem_cons_of_mem _ hl))) hduring
  have hle := hpaid.le
  rw [h.wf.card_eq, SkipList.pairs, List.length_map] at hle
  by_cases hdone : ∃ r, (s.threads t).pc = .done r
  · exact Or.inl ⟨hdone, by omega⟩
  · refine Or.inr ⟨?_, fun weak => ?_⟩
    · have hleft : 0 < left cmp s.list S (s.threads t).pc :=
        hpaid.reading.left_pos fun r hr => hdone ⟨r, hr⟩
      omega
    · exact reading_enabled h hpaid.reading (fun r hr => hdone ⟨r, hr⟩) weak

/-- A call of `put`. -/
def firstPut : List Label :=
  .invoke 0 (.put ⟨[3], [], 0⟩) :: steps 0 7 ++ [.ret 0 (.inserted none)]

/-- A `len` that is at the first node when a second one is linked behind it. -/
def overtakenLen : List Label :=
  .step 1 false :: (.invoke 0 (.put ⟨[4], [], 0⟩) :: steps 0 8 ++ [.ret 0 (.inserted none)]) ++
    steps 1 2

theorem reads_wait_free_overtaken :
    ∃ sl s, SkipList.withCapacity bytewiseComparator 600 true = .ok sl ∧
      exec step (State.init sl) (firstPut ++ .invoke 1 (.read .len) :: overtakenLen) = some s ∧
      s.Progresses 1 3 := by
  obtain ⟨sl, hsl, s, hs⟩ :
      ∃ sl, SkipList.withCapacity bytewiseComparator 600 true = .ok sl ∧
        ∃ s, exec step (State.init sl) (firstPut ++ .invoke 1 (.read .len) :: overtakenLen) =
          some s := exists_exec (by decide +kernel)
  have hls : ∀ l ∈ firstPut ++ .invoke 1 (.read .len) :: overtakenLen, l.Allowed true 0 := by
    decide
  have hwithin : ∀ l ∈ overtakenLen, l.Within 1 := by decide
  have hcount : ownSteps 1 overtakenLen = 3 := by decide
  exact ⟨sl, s, hsl, hs,
    hcount ▸ reads_wait_free bytewiseComparator (by decide) hsl hls hwithin hs⟩

end Concurrent

end StoneDb
