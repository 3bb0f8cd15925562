import StoneDb.Concurrent.Lookup

/-!
# Forward scans

A scan starts with `seek_to_first` or `seek` and repeats `next` until the cursor is invalid
(`Scan`).  Every move lands at the least node ahead at one instant (`exec_forward`), so nothing that
was linked when the scan started can be passed by, although inserts land before, at and after the
cursor (`Scan.spec`).  `len` makes the same walk and counts (`Counting`).
-/

namespace StoneDb

namespace Concurrent

open SkipList

variable {cmp : KeyComparator} [Std.TransCmp cmp.compareKey] {mode : Bool} {writer t : ℕ}
  {s s' : State} {sl sl' : SkipList} {S S' : ℕ → Finset ℕ} {l : Label} {q : ReadCall}
  {it it' : IterRef} {r : Ret} {ls during : List Label} {ps : List (Bytes × Bytes)}

/-! ### One move -/

/-- Where an instant lies in a run. -/
theorem Instant.between {P : SkipList → (ℕ → Finset ℕ) → Prop} (h : Inv cmp mode writer s S)
    (hls : ∀ l ∈ ls, l.Allowed mode writer) (hexec : exec step s ls = some s')
    (hi : Instant cmp mode writer s ls P) :
    ∃ sl₁ S₁ S', Wf cmp sl₁ S₁ ∧ P sl₁ S₁ ∧ Inv cmp mode writer s' S' ∧
      Grows s.list S sl₁ S₁ ∧ Grows sl₁ S₁ s'.list S' := by
  obtain ⟨pre, s₁, S₁, ⟨rest, rfl⟩, hs₁, h₁, hP⟩ := hi
  obtain ⟨s₁', hs₁', hrest⟩ := exec_append_eq_some.1 hexec
  obtain rfl : s₁ = s₁' := Option.some.inj (hs₁.symm.trans hs₁')
  obtain ⟨S₁', h₁', hgrow⟩ := exec_inv h (fun l hl => hls l (List.mem_append_left _ hl)) hs₁
  obtain rfl : S₁' = S₁ := h₁'.wf.unique h₁.wf
  obtain ⟨S', h', hgrow'⟩ := exec_inv h₁ (fun l hl => hls l (List.mem_append_right _ hl)) hrest
  exact ⟨s₁.list, S₁', S', h₁.wf, hP, h', hgrow, hgrow'⟩

/-- The positions ahead of a forward move from `it`. -/
def ReadCall.Ahead (cmp : KeyComparator) [Std.TransCmp cmp.compareKey] (sl : SkipList)
    (it : IterRef) : ReadCall → Pos cmp → Prop
  | .seek target, x => keyPos cmp target ≤ x
  | .seekToFirst, _ => True
  | .next, x => pos cmp sl it.cursor < x
  | _, _ => False

/-- A forward move that can be made: `next` needs a cursor at a linked node. -/
def ReadCall.Forward (S : ℕ → Finset ℕ) (it : IterRef) : ReadCall → Prop
  | .seek _ | .seekToFirst => True
  | .next => it.cursor ∈ S 0
  | _ => False

theorem ReadCall.Ahead.mono {x y : Pos cmp} (h : q.Ahead cmp sl it x) (hle : x ≤ y) :
    q.Ahead cmp sl it y := by
  cases q with
  | seek target => exact le_trans h hle
  | seekToFirst => trivial
  | next => exact lt_of_lt_of_le h hle
  | get | getWithKey | contains | lowerBound | len | isEmpty | seekForPrev | seekToLast | prev =>
    exact h.elim

/-- A forward move lands at the least node ahead. -/
theorem ReadEnd.ahead (hwf : Wf cmp sl S) (hq : q.Forward S it) (h : ReadEnd cmp sl S it q it' r) :
    r = .pair (sl.pairOf it'.cursor) ∧
      LeastWhere 0 (pos cmp sl) (S 0) (q.Ahead cmp sl it) it'.cursor := by
  cases q with
  | seek target => exact h
  | seekToFirst =>
    obtain ⟨hr, ho⟩ := h
    have hleast := (hwf.isNext (l := 0) (by decide) (Or.inl rfl)).leastWhere
    rw [← ho] at hleast
    refine ⟨hr, hleast.imp (fun ⟨hn, hall⟩ => ⟨hn, ?_⟩) fun ⟨hn, _, hall⟩ => ⟨hn, trivial, ?_⟩⟩
    · intro y hy _
      exact hall y hy (hwf.threaded_zero.head_lt y hy)
    · intro y hy _
      exact hall y hy (hwf.threaded_zero.head_lt y hy)
  | next =>
    obtain ⟨hr, ho⟩ := h
    have hmem : it.cursor ∈ S 0 := hq
    rw [if_neg (hwf.ne_zero hmem)] at ho
    have hleast := (hwf.isNext (l := 0) (by decide) (Or.inr hmem)).leastWhere
    rw [← ho] at hleast
    exact ⟨hr, hleast⟩
  | get | getWithKey | contains | lowerBound | len | isEmpty | seekForPrev | seekToLast | prev =>
    exact hq.elim

theorem ReadCall.Forward.mono (hq : q.Forward S it) (hgrow : Grows sl S sl' S') :
    q.Forward S' it := by
  cases q with
  | seek | seekToFirst => trivial
  | next => exact hgrow.subset 0 hq
  | get | getWithKey | contains | lowerBound | len | isEmpty | seekForPrev | seekToLast | prev =>
    exact hq.elim

theorem ReadCall.Forward.ahead_eq (hq : q.Forward S it) (hwf : Wf cmp sl S)
    (hgrow : Grows sl S sl' S') : q.Ahead cmp sl' it = q.Ahead cmp sl it := by
  cases q with
  | next =>
    funext x
    simp only [ReadCall.Ahead, hgrow.pos_mem hwf (Or.inr hq)]
  | seek | seekToFirst => rfl
  | get | getWithKey | contains | lowerBound | len | isEmpty | seekForPrev | seekToLast | prev =>
    exact hq.elim

/-- An idle thread that makes no call stays as it is. -/
theorem Move.idle (hm : Move cmp s S l s' S') (hl : l.Within t) (hidle : (s.threads t).pc = .idle) :
    s'.threads t = s.threads t := by
  rcases hl.cases with ht | ⟨weak, rfl⟩
  · exact hm.other ht
  cases hm with
  | search _ _ c hpc | descend _ _ q hpc | read _ _ q p p' hpc | answer _ _ q p it r hpc
  | put _ _ c pc sl S' r hpc | panic _ _ c _ _ hpc =>
    rw [hidle] at hpc
    cases hpc

theorem exec_idle (h : Inv cmp mode writer s S) (hls : ∀ l ∈ ls, l.Allowed mode writer)
    (hwithin : ∀ l ∈ ls, l.Within t) (hidle : (s.threads t).pc = .idle)
    (hexec : exec step s ls = some s') : s'.threads t = s.threads t := by
  have hrun := run_induction (I := fun _ s' _ => s'.threads t = s.threads t) h rfl
    (fun ls₁ s₁ S₁ l s₂ S₂ hl _ _ heq hm _ =>
      (hm.idle (hwithin l hl) (by rw [heq, hidle])).trans heq) hls hexec
  obtain ⟨-, -, heq⟩ := hrun
  exact heq

/-- **A forward move** of a scan: what it lands at, compared with the nodes when it starts. -/
theorem exec_forward (h : Inv cmp mode writer s S)
    (hls : ∀ l ∈ .invoke t (.read q) :: during ++ [.ret t r], l.Allowed mode writer)
    (hwithin : ∀ l ∈ during, l.Within t) (hq : q.Forward S (s.threads t).it)
    (hexec : exec step s (.invoke t (.read q) :: during ++ [.ret t r]) = some s') :
    ∃ S' o, Inv cmp mode writer s' S' ∧ Grows s.list S s'.list S' ∧
      s'.threads t = ⟨.idle, ⟨o⟩⟩ ∧ r = .pair (s'.list.pairOf o) ∧
      (o = 0 ∨ o ∈ S' 0 ∧ q.Ahead cmp s.list (s.threads t).it (pos cmp s'.list o)) ∧
      ∀ y ∈ S 0, q.Ahead cmp s.list (s.threads t).it (pos cmp s.list y) →
        o ≠ 0 ∧ pos cmp s'.list o ≤ pos cmp s.list y := by
  obtain ⟨-, -, hidle, s₀, hinvoke, pre, s₁, S₁, hpre, hs₁, h₁, hend⟩ :=
    exec_read h hls hwithin hexec
  have hinstant : Instant cmp mode writer s (.invoke t (.read q) :: during ++ [.ret t r])
      fun sl S => ReadEnd cmp sl S (s.threads t).it q (s'.threads t).it r := by
    refine ⟨.invoke t (.read q) :: pre, s₁, S₁, ?_, ?_, h₁, hend⟩
    · exact ((List.prefix_cons_inj _).2 hpre).trans (List.prefix_append _ _)
    · exact exec_cons_eq_some.2 ⟨s₀, hinvoke, hs₁⟩
  -- the move answers from the list at one instant between its start and its end
  obtain ⟨sl₁, S₁, S', hwf₁, hend, h', hgrow, hgrow'⟩ := hinstant.between h hls hexec
  obtain ⟨hr, hleast⟩ := hend.ahead hwf₁ (hq.mono hgrow)
  rw [hq.ahead_eq h.wf hgrow] at hleast
  have hok : CursorOk sl₁ (s'.threads t).it := .of_linked hwf₁ hleast.null_or_mem
  have hpair := hgrow'.pairOf (hok.imp id And.right)
  refine ⟨S', (s'.threads t).it.cursor, h', hgrow.trans hgrow', ?_, by rw [hr, hpair], ?_, ?_⟩
  · rw [← hidle]
  · refine hleast.imp And.left fun ⟨hmem, hahead, _⟩ => ⟨hgrow'.subset 0 hmem, ?_⟩
    rwa [hgrow'.pos_mem hwf₁ (Or.inr hmem)]
  · intro y hy hahead
    have hy₁ := hgrow.subset 0 hy
    rw [← hgrow.pos_mem h.wf (Or.inr hy)] at hahead ⊢
    rcases hleast with ⟨-, hnone⟩ | ⟨hmem, -, hle⟩
    · exact absurd hahead (hnone y hy₁)
    · refine ⟨hwf₁.ne_zero hmem, ?_⟩
      rw [hgrow'.pos_mem hwf₁ (Or.inr hmem)]
      exact hle y hy₁ hahead

/-! ### Scans -/

/-- A scan of the thread `t` from the call `q` on: it calls `next` until the cursor is invalid, and
shows the pairs `ps`. -/
inductive Scan (t : ℕ) : ReadCall → List Label → List (Bytes × Bytes) → Prop
  | stop (q : ReadCall) (during : List Label) : (∀ l ∈ during, l.Within t) →
    Scan t q (callLabels t q during (.pair none)) []
  | more (q : ReadCall) (during gap ls : List Label) (p : Bytes × Bytes)
    (ps : List (Bytes × Bytes)) : (∀ l ∈ during, l.Within t) → (∀ l ∈ gap, l.Within t) →
    Scan t .next ls ps → Scan t q (callLabels t q during (.pair (some p)) ++ (gap ++ ls)) (p :: ps)

/-- **What a scan shows**, compared with the list when it starts and when it ends. -/
theorem Scan.spec (hscan : Scan t q ls ps) (h : Inv cmp mode writer s S)
    (hls : ∀ l ∈ ls, l.Allowed mode writer) (hq : q.Forward S (s.threads t).it)
    (hexec : exec step s ls = some s') :
    ∃ S', Inv cmp mode writer s' S' ∧ Grows s.list S s'.list S' ∧
      (ps.Pairwise fun p p' => cmp.compareKey p.1 p'.1 = .lt) ∧
      (∀ y ∈ S 0, q.Ahead cmp s.list (s.threads t).it (pos cmp s.list y) →
        s.list.arena.pairAt y ∈ ps) ∧
      ∀ p ∈ ps, p ∈ s'.list.pairs ∧ q.Ahead cmp s.list (s.threads t).it (keyPos cmp p.1) := by
  induction hscan generalizing s S with
  | stop q during hwithin =>
    obtain ⟨S', o, h', hgrow, -, hr, -, hall⟩ := exec_forward h hls hwithin hq hexec
    refine ⟨S', h', hgrow, List.Pairwise.nil, fun y hy hahead => ?_, by simp⟩
    have hne := (hall y hy hahead).1
    simp [pairOf, hne] at hr
  | more q during gap ls p ps hwithin hgap _ ih =>
    obtain ⟨s₁, hs₁, hrest⟩ := exec_append_eq_some.1 hexec
    obtain ⟨s₂, hs₂, hrest⟩ := exec_append_eq_some.1 hrest
    simp only [List.forall_mem_append] at hls
    obtain ⟨hcallOk, hgapOk, hrestOk⟩ := hls
    obtain ⟨S₁, o, h₁, hgrow₁, hthread₁, hr, ho, hall⟩ :=
      exec_forward h hcallOk hwithin hq hs₁
    have ho0 : o ≠ 0 := by
      rintro rfl
      simp [pairOf] at hr
    obtain ⟨hmem₁, hahead⟩ := ho.resolve_left ho0
    obtain rfl : p = s₁.list.arena.pairAt o := by simpa [pairOf, ho0] using hr
    obtain ⟨S₂, h₂, hgrow₂⟩ := exec_inv h₁ hgapOk hs₂
    -- the cursor stays at its node between two calls
    have hthread₂ := (exec_idle h₁ hgapOk hgap (by rw [hthread₁]) hs₂).trans hthread₁
    have hmem₂ := hgrow₂.subset 0 hmem₁
    obtain ⟨S', h', hgrow', hsorted, hseen, hfound⟩ := ih h₂ hrestOk
      (show (s₂.threads t).it.cursor ∈ S₂ 0 by rwa [hthread₂]) hrest
    rw [hthread₂] at hseen hfound
    have hpos₂ : pos cmp s₂.list o = keyPos cmp (s₁.list.arena.keyAt o) := by
      rw [hgrow₂.pos_mem h₁.wf (Or.inr hmem₁), h₁.wf.pos_mem hmem₁]
    refine ⟨S', h', hgrow₁.trans (hgrow₂.trans hgrow'), List.pairwise_cons.2 ⟨?_, hsorted⟩, ?_, ?_⟩
    · intro p' hp'
      have hlt : pos cmp s₂.list o < keyPos cmp p'.1 := (hfound p' hp').2
      rwa [hpos₂, keyPos_lt_keyPos] at hlt
    · -- a node that was there is the one that the cursor lands at, or after it
      intro y hy hahead
      have hgrow₂' := hgrow₁.trans hgrow₂
      have hy₂ := hgrow₂'.subset 0 hy
      have hpair := hgrow₂'.pair y (h.wf.alive hy)
      have hle := (hall y hy hahead).2
      rw [← hgrow₂.pos_mem h₁.wf (Or.inr hmem₁), ← hgrow₂'.pos_mem h.wf (Or.inr hy)] at hle
      rcases eq_or_lt_of_le hle with heq | hlt
      · obtain rfl := h₂.wf.inj hmem₂ hy₂ heq
        rw [← hgrow₁.pair o (h.wf.alive hy)]
        exact List.mem_cons_self
      · rw [← hpair]
        exact List.mem_cons_of_mem _ (hseen y hy₂ hlt)
    · intro p' hp'
      rcases List.mem_cons.1 hp' with rfl | hp'
      · rw [h₁.wf.pos_mem hmem₁] at hahead
        refine ⟨h'.wf.mem_pairs.2 ⟨o, hgrow'.subset 0 hmem₂, ?_⟩, hahead⟩
        exact (hgrow₂.trans hgrow').pair o (h₁.wf.alive hmem₁)
      · obtain ⟨hmem, hlt⟩ := hfound p' hp'
        have hlt' : pos cmp s₂.list o < keyPos cmp p'.1 := hlt
        rw [hgrow₂.pos_mem h₁.wf (Or.inr hmem₁)] at hlt'
        exact ⟨hmem, hahead.mono hlt'.le⟩

/-! ### Counting -/

/-- How far a thread is in `len`, which it started with the nodes `S₀`: what it has counted and what
is ahead make up at least `S₀`, and at most the nodes that are linked now. -/
def Counting (cmp : KeyComparator) [Std.TransCmp cmp.compareKey] (S₀ : Finset ℕ) (sl : SkipList)
    (S : ℕ → Finset ℕ) : Pc → Prop
  | .read .len (c, n) => S₀.card ≤ n + (Threaded.after (pos cmp sl) S₀ c).card ∧
      n + (Threaded.after (pos cmp sl) (S 0) c).card ≤ (S 0).card
  | .done (.count n) => S₀.card ≤ n ∧ n ≤ (S 0).card
  | _ => False

/-- Inserts land before or after the thread. -/
theorem Counting.mono {S₀ : Finset ℕ} {pc : Pc} (h : Counting cmp S₀ sl S pc)
    (hpc : PcOk cmp sl S it pc) (hwf : Wf cmp sl S) (hsub : S₀ ⊆ S 0) (hgrow : Grows sl S sl' S') :
    Counting cmp S₀ sl' S' pc := by
  have hcard := Finset.card_le_card (hgrow.subset 0)
  unfold Counting at h
  split at h
  · rename_i c n
    have hc : c = sl.head ∨ c ∈ S 0 := hpc
    have hpos : ∀ {T : Finset ℕ}, T ⊆ S 0 →
        Threaded.after (pos cmp sl') T c = Threaded.after (pos cmp sl) T c := fun hT =>
      Threaded.after_congr (fun y hy => hgrow.pos_mem hwf (Or.inr (hT hy))) (hgrow.pos_mem hwf hc)
    have hadd := Threaded.card_after_add_le (pos cmp sl') (hgrow.subset 0) c
    rw [hpos (Finset.Subset.refl _)] at hadd
    obtain ⟨hlow, hhigh⟩ := h
    refine ⟨?_, by omega⟩
    rw [hpos hsub]
    exact hlow
  · exact ⟨h.1, h.2.trans hcard⟩
  · exact h.elim

/-- A move during `len`. -/
theorem Move.counting {S₀ : Finset ℕ} (hm : Move cmp s S l s' S') (h : Inv cmp mode writer s S)
    (hl : l.Within t) (hsub : S₀ ⊆ S 0) (hcount : Counting cmp S₀ s.list S (s.threads t).pc) :
    Counting cmp S₀ s'.list S' (s'.threads t).pc := by
  rcases hl.cases with ht | ⟨weak, rfl⟩
  · rw [hm.other ht]
    exact hcount.mono (h.pc t) h.wf hsub hm.grows
  have hok := h.pc t
  cases hm with
  | search _ _ c hpc | descend _ _ q hpc | put _ _ c pc sl S' r hpc | panic _ _ c _ _ hpc =>
    rw [hpc] at hcount
    exact hcount.elim
  | read _ _ q p p' hpc hrun =>
    rw [hpc] at hcount hok
    cases q with
    | len =>
      obtain ⟨c, n⟩ := p
      obtain ⟨hlow, hhigh⟩ := hcount
      have hc : c = s.list.head ∨ c ∈ S 0 := hok
      rcases h.wf.lenStep_spec hc n with ⟨hmem, hstep⟩ | ⟨-, hstep⟩
      · -- one more node is counted, and at most one of those at the start is passed
        have hne := h.wf.ne_zero hmem
        have hpassed := h.wf.threaded_zero.card_after_next hc hne
        have hpassed₀ := h.wf.threaded_zero.card_after_le hsub hc hne
        simp only [readStep, finish, hstep, bind, Except.bind, pure, Except.pure, Except.ok.injEq,
          Iter.next.injEq] at hrun
        subst hrun
        simp only [State.setPc, State.update_self, State.update_list]
        exact ⟨by omega, by omega⟩
      · simp only [readStep, finish, hstep, Concurrent.answer, bind, Except.bind, pure, Except.pure,
          Except.ok.injEq, reduceCtorEq] at hrun
    | get | getWithKey | contains | lowerBound | isEmpty | seek | seekForPrev | seekToFirst
    | seekToLast | next | prev => exact hcount.elim
  | answer _ _ q p it r hpc hrun =>
    rw [hpc] at hcount hok
    cases q with
    | len =>
      obtain ⟨c, n⟩ := p
      obtain ⟨hlow, hhigh⟩ := hcount
      have hc : c = s.list.head ∨ c ∈ S 0 := hok
      rcases h.wf.lenStep_spec hc n with ⟨-, hstep⟩ | ⟨hnull, hstep⟩
      · simp only [readStep, finish, hstep, bind, Except.bind, pure, Except.pure, Except.ok.injEq,
          reduceCtorEq] at hrun
      · -- the end of the chain: nothing is ahead
        have hempty := h.wf.threaded_zero.after_eq_empty hc hnull
        have hempty₀ : Threaded.after (pos cmp s.list) S₀ c = ∅ :=
          Finset.subset_empty.1 (hempty ▸ Finset.filter_subset_filter _ hsub)
        rw [hempty₀, Finset.card_empty] at hlow
        simp only [readStep, finish, hstep, Concurrent.answer, bind, Except.bind, pure, Except.pure,
          Except.ok.injEq, Iter.done.injEq, Prod.mk.injEq] at hrun
        obtain ⟨rfl, rfl⟩ := hrun
        simp only [State.update_self]
        exact ⟨hlow, (Nat.le_add_right _ _).trans hhigh⟩
    | get | getWithKey | contains | lowerBound | isEmpty | seek | seekForPrev | seekToFirst
    | seekToLast | next | prev => exact hcount.elim

/-- **`len`** returns a number between those of the nodes when it starts and when it returns. -/
theorem exec_len (h : Inv cmp mode writer s S)
    (hls : ∀ l ∈ callLabels t .len during r, l.Allowed mode writer)
    (hwithin : ∀ l ∈ during, l.Within t)
    (hexec : exec step s (callLabels t .len during r) = some s') :
    ∃ s₁ n, exec step s (.invoke t (.read .len) :: during) = some s₁ ∧ r = .count n ∧
      s.list.pairs.length ≤ n ∧ n ≤ s₁.list.pairs.length := by
  obtain ⟨s₀, s₁, hidle, hs₀, hinvoke, hduring, hdone, rfl⟩ := exec_call hexec
  have h₀ : Inv cmp mode writer s₀ S := hs₀ ▸ (Move.invoke t _ hidle).inv h trivial
  have hstart : S 0 ⊆ S 0 ∧ Counting cmp (S 0) s₀.list S (s₀.threads t).pc := by
    have hhead := h.wf.threaded_zero.after_head
    refine ⟨Finset.Subset.refl _, ?_⟩
    simp only [hs₀, State.setPc, State.update_self, State.update_list, Call.start,
      ReadCall.loadsHeight, Bool.false_eq_true, if_false]
    simp only [Counting, headOffset, hhead]
    exact ⟨Nat.le_add_left _ _, (Nat.zero_add _).le⟩
  obtain ⟨S₁, h₁, hsub, hcount⟩ := run_induction
    (I := fun _ s₁ S₁ => S 0 ⊆ S₁ 0 ∧ Counting cmp (S 0) s₁.list S₁ (s₁.threads t).pc) h₀ hstart
    (fun _ _ _ l _ _ hl _ h₁ hcount hm _ =>
      ⟨hcount.1.trans (hm.grows.subset 0), hm.counting h₁ (hwithin l hl) hcount.1 hcount.2⟩)
    (fun l hl => hls l (List.mem_append_left _ (List.mem_cons_of_mem _ hl))) hduring
  rw [hdone] at hcount
  cases r with
  | count n =>
    obtain ⟨hlow, hhigh⟩ := hcount
    rw [h.wf.card_eq] at hlow
    rw [h₁.wf.card_eq] at hhigh
    exact ⟨s₁, n, exec_cons_eq_some.2 ⟨s₀, hinvoke, hduring⟩, rfl, hlow, hhigh⟩
  | inserted | pair | value | flag => exact hcount.elim

/-! ### The calls of a run -/

/-- The call that starts a scan: `seek_to_first`, or `seek` to a target. -/
def scanStart : Option Bytes → ReadCall
  | none => .seekToFirst
  | some target => .seek target

/-- The key is not below the target. -/
def FromTarget (cmp : KeyComparator) (start : Option Bytes) (key : Bytes) : Prop :=
  ∀ target ∈ start, cmp.compareKey key target ≠ .lt

theorem scanStart_ahead {start : Option Bytes} {key : Bytes} :
    (scanStart start).Ahead cmp sl it (keyPos cmp key) ↔ FromTarget cmp start key := by
  cases start with
  | none => simp [scanStart, ReadCall.Ahead, FromTarget]
  | some target => simp [scanStart, ReadCall.Ahead, FromTarget, ← keyPos_lt_keyPos]

/-- What can be relied on in a run `ls`, which ends in the state `s`: every forward scan, and every
call of `len`. -/
structure ScansInOrder (cmp : KeyComparator) (sl : SkipList) (ls : List Label) (s : State) :
    Prop where
  /-- A scan is sorted, shows every pair from the target on that was linked when it started, and
  shows only pairs that are linked when it ends, with the value that the key keeps. -/
  scan : ∀ before scan after t start ps, ls = before ++ scan ++ after →
    Scan t (scanStart start) scan ps → ∃ s₀ s₁, exec step (State.init sl) before = some s₀ ∧
      exec step (State.init sl) (before ++ scan) = some s₁ ∧
      (ps.Pairwise fun p p' => cmp.compareKey p.1 p'.1 = .lt) ∧
      (∀ p ∈ s₀.list.pairs, FromTarget cmp start p.1 → p ∈ ps) ∧
      ∀ p ∈ ps, p ∈ s₁.list.pairs ∧ FromTarget cmp start p.1 ∧
        ∀ p' ∈ s.list.pairs, cmp.compareKey p'.1 p.1 = .eq → p' = p
  /-- `len` returns a number between those of the pairs when it starts and when it returns. -/
  len : ∀ c : Span ls, c.q = .len → ∃ s₀ s₁ n, exec step (State.init sl) c.before = some s₀ ∧
    exec step (State.init sl) (c.before ++ .invoke c.t (.read .len) :: c.during) = some s₁ ∧
    c.r = .count n ∧ s₀.list.pairs.length ≤ n ∧ n ≤ s₁.list.pairs.length

/-- **Forward scans and `len` under concurrent inserts**, in either mode. -/
theorem concurrent_scans (cmp : KeyComparator) [Std.TransCmp cmp.compareKey] {capacity : ℕ}
    (hcap : capacity ≤ 2 ^ 32) {mode : Bool} {sl : SkipList}
    (hnew : SkipList.withCapacity cmp capacity mode = .ok sl) {writer : ℕ} {ls : List Label}
    (hls : ∀ l ∈ ls, l.Allowed mode writer) {s : State}
    (hexec : exec step (State.init sl) ls = some s) : ScansInOrder cmp sl ls s := by
  have hinit : Inv cmp mode writer (State.init sl) fun _ => ∅ := inv_init hcap hnew
  refine ⟨?_, ?_⟩
  · intro before scan after t start ps heq hscan
    subst heq
    obtain ⟨s₁, hs₁, hafter⟩ := exec_append_eq_some.1 hexec
    obtain ⟨s₀, hs₀, hrun⟩ := exec_append_eq_some.1 hs₁
    simp only [List.forall_mem_append] at hls
    obtain ⟨⟨hbeforeOk, hscanOk⟩, hafterOk⟩ := hls
    obtain ⟨S₀, h₀, -⟩ := exec_inv hinit hbeforeOk hs₀
    have hforward : (scanStart start).Forward S₀ (s₀.threads t).it := by
      cases start <;> trivial
    obtain ⟨S₁, h₁, -, hsorted, hseen, hfound⟩ := hscan.spec h₀ hscanOk hforward hrun
    obtain ⟨S, h, hgrow⟩ := exec_inv h₁ hafterOk hafter
    refine ⟨s₀, s₁, hs₀, hs₁, hsorted, ?_, fun p hp => ⟨(hfound p hp).1, ?_, ?_⟩⟩
    · intro p hp hfrom
      obtain ⟨y, hy, rfl⟩ := h₀.wf.mem_pairs.1 hp
      refine hseen y hy ?_
      rw [h₀.wf.pos_mem hy]
      exact scanStart_ahead.2 hfrom
    · exact scanStart_ahead.1 (hfound p hp).2
    · intro p' hp' heq
      have hkept := hgrow.pairs_subset h₁.wf h.wf (hfound p hp).1
      exact h.wf.map.eq_of_cmp_eq hp' hkept heq
  · intro c hq
    obtain ⟨before, t, q, during, r, after, rfl, hwithin⟩ := c
    obtain rfl : q = .len := hq
    obtain ⟨s₁, hs₁, hafter⟩ := exec_append_eq_some.1 hexec
    obtain ⟨s₀, hs₀, hrun⟩ := exec_append_eq_some.1 hs₁
    obtain ⟨s₂, hret, -⟩ := exec_cons_eq_some.1 hafter
    obtain ⟨S₀, h₀, -⟩ := exec_inv hinit (fun l hl => hls l (by simp [hl])) hs₀
    have hcall : exec step s₀ (callLabels t .len during r) = some s₂ :=
      exec_concat_eq_some.2 ⟨s₁, hrun, hret⟩
    have hcallOk : ∀ l ∈ callLabels t .len during r, l.Allowed mode writer := by
      intro l hl
      refine hls l ?_
      simp only [callLabels, List.cons_append, List.mem_cons, List.mem_append, List.not_mem_nil,
        or_false] at hl ⊢
      tauto
    obtain ⟨s₁', n, hrun', hr, hlow, hhigh⟩ := exec_len h₀ hcallOk hwithin hcall
    obtain rfl : s₁ = s₁' := Option.some.inj (hrun.symm.trans hrun')
    exact ⟨s₀, s₁, n, hs₀, hs₁, hr, hlow, hhigh⟩

/-- A scan and a `len` that start after the first of two inserts and end after the second. -/
def scanning : List Label :=
  [.invoke 0 (.put ⟨[3], [30], 0⟩)] ++ steps 0 7 ++ [.ret 0 (.inserted none)] ++
    callLabels 1 .seekToFirst (steps 1 1) (.pair (some ([3], [30]))) ++
    [.invoke 2 (.read .len)] ++ steps 2 1 ++
    [.invoke 0 (.put ⟨[4], [40], 0⟩)] ++ steps 0 8 ++ [.ret 0 (.inserted none)] ++
    callLabels 1 .next (steps 1 1) (.pair (some ([4], [40]))) ++
    steps 2 2 ++ [.ret 2 (.count 2)] ++ callLabels 1 .next (steps 1 1) (.pair none)

theorem concurrent_scans_scanning :
    ∃ sl, SkipList.withCapacity bytewiseComparator 1024 true = .ok sl ∧
      ∃ s, exec step (State.init sl) scanning = some s ∧
        ScansInOrder bytewiseComparator sl scanning s := by
  obtain ⟨sl, hsl, s, hs⟩ : ∃ sl, SkipList.withCapacity bytewiseComparator 1024 true = .ok sl ∧
      ∃ s, exec step (State.init sl) scanning = some s := exists_exec (by decide +kernel)
  have hls : ∀ l ∈ scanning, l.Allowed true 0 := by decide
  exact ⟨sl, hsl, s, hs, concurrent_scans bytewiseComparator (show 1024 ≤ 2 ^ 32 by decide) hsl hls
    hs⟩

end Concurrent

end StoneDb
