import StoneDb.Concurrent.Scan

/-!
# Back pointers under a single writer

In single-writer mode `prev` follows the back pointer of its node.  The writer redirects the back
pointer of the new node's successor to the new node before it stores the two forward offsets of
level 0, so in between (`State.Redirected`) a reader that stands at the successor and calls `prev`
gets to a node that is not linked (`prev_unsafe`): its `next` ends the scan, and a `get` of its key
does not find it.

`prev_safe_iff`: such a load is the only thing that can go wrong.  In a run without one, every
cursor stands at a linked node at every instant.
-/

namespace StoneDb

namespace Concurrent

open SkipList

variable {cmp : KeyComparator} [Std.TransCmp cmp.compareKey] {writer t x : ℕ} {weak : Bool}
  {s s' s₀ : State} {sl sl' : SkipList} {S S' : ℕ → Finset ℕ} {l : Label} {p : ℕ × ℕ} {th : Thread}
  {r : Ret} {ls ls' during : List Label}

/-- The writer has redirected the back pointer of `x` to its new node, and not linked that yet. -/
def State.Redirected (s : State) (x : ℕ) : Prop :=
  x ≠ 0 ∧ ∃ t c sp node, ((s.threads t).pc = .put c (.storeNext sp node 0) ∨
    (s.threads t).pc = .put c (.storeLink sp node 0)) ∧ sp.next 0 = x

/-- In the run `ls` from `s₀`, no `prev` loads a redirected back pointer. -/
def State.PrevsInTime (s₀ : State) (ls : List Label) : Prop :=
  ∀ pre t weak s p, pre ++ [.step t weak] <+: ls → exec step s₀ pre = some s →
    (s.threads t).pc = .read .prev p → ¬ s.Redirected (s.threads t).it.cursor

theorem State.PrevsInTime.left (h : s₀.PrevsInTime (ls ++ ls')) : s₀.PrevsInTime ls :=
  fun pre t weak s p hpre => h pre t weak s p (hpre.trans (List.prefix_append _ _))

theorem State.PrevsInTime.right (h : s₀.PrevsInTime (ls ++ ls'))
    (hexec : exec step s₀ ls = some s) : s.PrevsInTime ls' := by
  intro pre t weak s₁ p hpre hs₁
  refine h (ls ++ pre) t weak s₁ p ?_ (exec_append_eq_some.2 ⟨s, hexec, hs₁⟩)
  rw [List.append_assoc]
  exact (List.prefix_append_right_inj _).2 hpre

/-! ### The back pointers -/

/-- How far a thread is in `put`. -/
def Pc.progress : Pc → Iter PutPc (Option (Bytes × Bytes))
  | .put _ pc => .next pc
  | _ => .done none

/-- The back pointers, with the writer where it is. -/
def Backs (cmp : KeyComparator) [Std.TransCmp cmp.compareKey] (writer : ℕ) (s : State)
    (S : ℕ → Finset ℕ) : Prop := BackOk cmp s.list S (s.threads writer).pc.progress

/-- A move that leaves the list alone. -/
theorem Backs.setThread (hb : Backs cmp writer s S)
    (hth : BackOk cmp s.list S (s.threads t).pc.progress → BackOk cmp s.list S th.pc.progress) :
    Backs cmp writer (s.update s.list t th) S := by
  unfold Backs at hb ⊢
  by_cases ht : writer = t
  · subst ht
    rw [State.update_self]
    exact hth hb
  · rw [State.update_of_ne ht]
    exact hb

theorem Move.backs (hm : Move cmp s S l s' S') (h : Inv cmp false writer s S)
    (hb : Backs cmp writer s S) : Backs cmp writer s' S' := by
  cases hm with
  | invoke t c hpc =>
    refine hb.setThread fun hback => ?_
    rw [hpc] at hback
    cases c with
    | put c => exact hback
    | read q =>
      simp only [Call.start]
      split_ifs <;> exact hback
  | search t weak c hpc | descend t weak q hpc | read t weak q p p' hpc
  | answer t weak q p it r hpc | panic t weak c height sp hpc | ret t r hpc =>
    refine hb.setThread fun hback => ?_
    rw [hpc] at hback
    exact hback
  | put t weak c pc sl S' r hpc hput =>
    -- only the writer stores back pointers
    obtain rfl : t = writer := h.lone rfl t (by rw [hpc]; trivial)
    unfold Backs at hb ⊢
    rw [hpc] at hb
    have hback := hput.back h.mode_eq hb
    rw [State.update_self]
    cases r with
    | next pc' => exact hback
    | done r => exact hback

/-- A back pointer that is not redirected leads to a linked node, or to the head. -/
theorem Backs.backTo (hb : Backs cmp writer s S) (h : Inv cmp false writer s S) (hx : x ∈ S 0)
    (hclear : ¬ s.Redirected x) : BackTo cmp s.list S x := by
  unfold Backs at hb
  cases hpc : (s.threads writer).pc with
  | idle | loadHeight | read | done | faulted =>
    rw [hpc] at hb
    exact hb x hx
  | put c pc =>
    rw [hpc] at hb
    have hne : x ≠ 0 := h.wf.ne_zero hx
    cases pc with
    | backNext sp node => exact hb.1 x hx
    | storeNext sp node i =>
      cases i with
      | zero => exact hb.1 x hx fun he => hclear ⟨hne, writer, c, sp, node, Or.inl hpc, he.symm⟩
      | succ i => exact hb x hx
    | storeLink sp node i =>
      cases i with
      | zero => exact hb.1 x hx fun he => hclear ⟨hne, writer, c, sp, node, Or.inr hpc, he.symm⟩
      | succ i => exact hb x hx
    | search | alloc | allocCas | init | raise | splice | linkNext | linkCas | relink | backNode =>
      exact hb x hx

/-- A redirected back pointer leads to a node that is not linked. -/
theorem Backs.redirected (hb : Backs cmp writer s S) (h : Inv cmp false writer s S)
    (hx : s.Redirected x) : s.list.arena.prevAt x ∉ S 0 ∧ s.list.arena.prevAt x ≠ 0 ∧
      s.list.arena.prevAt x ≠ s.list.head := by
  obtain ⟨hne, t, c, sp, node, hpc, rfl⟩ := hx
  obtain rfl : t = writer := h.lone rfl t (by rcases hpc with hpc | hpc <;> rw [hpc] <;> trivial)
  have hok := h.pc t
  unfold Backs at hb
  have hplaced : s.list.arena.prevAt (sp.next 0) = node ∧ Placing cmp s.list S c sp node 0 := by
    rcases hpc with hpc | hpc <;> rw [hpc] at hb hok
    · exact ⟨hb.2.2 hne, hok.2.2⟩
    · exact ⟨hb.2.2 hne, hok.2.2.1⟩
  obtain ⟨hprev, hp⟩ := hplaced
  rw [hprev]
  exact ⟨hp.linking.fresh 0 le_rfl, hp.linking.ne_zero, hp.linking.ne_head⟩

/-! ### The cursors -/

/-- Where `prev` ends in single-writer mode. -/
theorem ReadEnd.prev_eq {it it' : IterRef} (hmode : sl.allowConcurrentWrite = false)
    (h : ReadEnd cmp sl S it .prev it' r) : r = .pair (sl.pairOf it'.cursor) ∧
      it'.cursor = if it.cursor = 0 then 0 else sl.orNone (sl.arena.prevAt it.cursor) := by
  obtain ⟨hr, ho⟩ := h
  refine ⟨hr, ?_⟩
  by_cases h0 : it.cursor = 0
  · rwa [if_pos h0] at ho ⊢
  · rw [if_neg h0] at ho ⊢
    rwa [if_neg (by simp [hmode])] at ho

/-- A good back pointer leads to an earlier linked node, or off the list. -/
theorem BackTo.lands (hb : BackTo cmp sl S x) (hwf : Wf cmp sl S) :
    sl.orNone (sl.arena.prevAt x) = 0 ∨ (sl.orNone (sl.arena.prevAt x) ∈ S 0 ∧
      pos cmp sl (sl.orNone (sl.arena.prevAt x)) < pos cmp sl x) := by
  obtain ⟨hhead | hmem, hlt⟩ := hb
  · exact Or.inl (if_pos hhead)
  · rw [orNone, headOffset, if_neg (hwf.ne_head hmem)]
    exact Or.inr ⟨hmem, hlt⟩

/-- `prev` in single-writer mode is one load. -/
theorem Move.prev (hm : Move cmp s S (.step t weak) s' S') (h : Inv cmp false writer s S)
    (hpc : (s.threads t).pc = .read .prev p) :
    ∃ o, S' = S ∧ s' = s.update s.list t ⟨.done (.pair (s.list.pairOf o)), ⟨o⟩⟩ ∧
      o = if (s.threads t).it.cursor = 0 then 0
        else s.list.orNone (s.list.arena.prevAt (s.threads t).it.cursor) := by
  have hmode : s.list.allowConcurrentWrite = false := h.mode_eq
  cases hm with
  | search _ _ c hpc' | descend _ _ q hpc' | put _ _ c pc sl S' r hpc' | panic _ _ c _ _ hpc' =>
    rw [hpc] at hpc'
    cases hpc'
  | read _ _ q p₁ p' hpc' hrun =>
    rw [hpc] at hpc'
    cases hpc'
    -- it has no loop
    simp only [readStep, hmode, Bool.false_eq_true, if_false, bind, Except.bind, pure,
      Except.pure] at hrun
    split at hrun
    · cases hrun
    · split at hrun <;> cases hrun
  | answer _ _ q p₁ it r hpc' _ _ hend =>
    rw [hpc] at hpc'
    cases hpc'
    obtain ⟨rfl, ho⟩ := hend.prev_eq hmode
    exact ⟨it.cursor, rfl, rfl, ho⟩

/-- The state of a run in which every `prev` has been in time. -/
structure Backward (cmp : KeyComparator) [Std.TransCmp cmp.compareKey] (writer : ℕ) (s : State)
    (S : ℕ → Finset ℕ) : Prop extends Inv cmp false writer s S where
  backs : Backs cmp writer s S
  linked : ∀ t, Linked S (s.threads t).it

/-- **A move in time** leaves all cursors at linked nodes. -/
theorem Move.backward (hm : Move cmp s S l s' S') (h : Backward cmp writer s S)
    (hl : l.Allowed false writer) (hclear : ∀ t weak p, l = .step t weak →
      (s.threads t).pc = .read .prev p → ¬ s.Redirected (s.threads t).it.cursor) :
    Backward cmp writer s' S' := by
  refine ⟨hm.inv h.toInv hl, hm.backs h.toInv h.backs, fun t => ?_⟩
  have hkeep : Linked S' (s.threads t).it := (h.linked t).imp id fun hx => hm.grows.subset 0 hx
  by_cases ht : t = l.thread
  swap
  · rw [hm.other ht]
    exact hkeep
  cases hm with
  | invoke t' c hpc | search t' weak c hpc | descend t' weak q hpc | read t' weak q p p' hpc
  | panic t' weak c height sp hpc | ret t' r hpc =>
    obtain rfl : t = t' := ht
    rw [State.setPc, State.update_self]
    exact hkeep
  | put t' weak c pc sl S' r hpc hput =>
    obtain rfl : t = t' := ht
    rw [State.update_self]
    exact hkeep
  | answer t' weak q p it r hpc hrun hit hend =>
    obtain rfl : t = t' := ht
    rw [State.update_self]
    by_cases hq : q = .prev
    · subst hq
      obtain ⟨-, ho⟩ := hend.prev_eq h.mode_eq
      change it.cursor = 0 ∨ it.cursor ∈ S 0
      rw [ho]
      split_ifs with h0
      · exact Or.inl rfl
      have hx : (s.threads t).it.cursor ∈ S 0 := (h.linked t).resolve_left h0
      have hback := h.backs.backTo h.toInv hx (hclear t weak p rfl hpc)
      exact (hback.lands h.wf).imp id And.left
    · rcases hend.linked h.wf h.closed (h.cursor t) hq with rfl | hlinked
      · exact hkeep
      · exact hlinked

theorem exec_backward (h : Backward cmp writer s S) (hls : ∀ l ∈ ls, l.Allowed false writer)
    (hclear : s.PrevsInTime ls) (hexec : exec step s ls = some s') :
    ∃ S', Backward cmp writer s' S' ∧ Grows s.list S s'.list S' := by
  have hrun := run_induction (I := fun ls s' S' => s.PrevsInTime ls →
      Backward cmp writer s' S' ∧ Grows s.list S s'.list S') h.toInv
    (fun _ => ⟨h, Grows.refl _ _⟩) (fun ls₁ s₁ S₁ l s₂ S₂ hl hs₁ _ hI hm _ hclear => ?_) hls hexec
  · obtain ⟨S', -, hI⟩ := hrun
    exact ⟨S', hI hclear⟩
  · obtain ⟨h₁, hgrow⟩ := hI hclear.left
    refine ⟨hm.backward h₁ (hls l hl) fun t weak p he hpc => ?_, hgrow.trans hm.grows⟩
    subst he
    exact hclear ls₁ t weak s₁ p (List.prefix_refl _) hs₁ hpc

/-! ### One `prev` -/

/-- How far a thread is in `prev`, which it started at `x`. -/
def PrevFrom (cmp : KeyComparator) [Std.TransCmp cmp.compareKey] (sl : SkipList) (x : ℕ)
    (th : Thread) : Prop :=
  match th.pc with
  | .read .prev _ => th.it.cursor = x
  | .done r => r = .pair (sl.pairOf th.it.cursor) ∧
      (th.it.cursor = 0 ∨ (x ≠ 0 ∧ pos cmp sl th.it.cursor < pos cmp sl x))
  | _ => False

theorem PrevFrom.mono (h : PrevFrom cmp sl x th) (hwf : Wf cmp sl S) (hth : Linked S th.it)
    (hx : x = 0 ∨ x ∈ S 0) (hgrow : Grows sl S sl' S') : PrevFrom cmp sl' x th := by
  unfold PrevFrom at h ⊢
  split at h
  · exact h
  · obtain ⟨hr, hend⟩ := h
    refine ⟨?_, ?_⟩
    · rw [hgrow.pairOf (hth.imp id hwf.alive)]
      exact hr
    · by_cases h0 : th.it.cursor = 0
      · exact Or.inl h0
      · obtain ⟨hx0, hlt⟩ := hend.resolve_left h0
        refine Or.inr ⟨hx0, ?_⟩
        rwa [hgrow.pos_mem hwf (Or.inr (hth.resolve_left h0)),
          hgrow.pos_mem hwf (Or.inr (hx.resolve_left hx0))]
  · exact h.elim

/-- A move during `prev`. -/
theorem Move.prevFrom (hm : Move cmp s S l s' S') (h : Backward cmp writer s S) (hl : l.Within t)
    (hclear : ∀ t weak p, l = .step t weak →
      (s.threads t).pc = .read .prev p → ¬ s.Redirected (s.threads t).it.cursor)
    (hx : x = 0 ∨ x ∈ S 0) (hfrom : PrevFrom cmp s.list x (s.threads t)) :
    PrevFrom cmp s'.list x (s'.threads t) := by
  rcases hl.cases with ht | ⟨weak, rfl⟩
  · rw [hm.other ht]
    exact hfrom.mono h.wf (h.linked t) hx hm.grows
  unfold PrevFrom at hfrom
  split at hfrom
  · rename_i p hpc
    obtain ⟨o, -, rfl, ho⟩ := hm.prev h.toInv hpc
    subst hfrom
    simp only [PrevFrom, State.update_self, State.update_list, true_and]
    by_cases h0 : (s.threads t).it.cursor = 0
    · rw [if_pos h0] at ho
      exact Or.inl ho
    · rw [if_neg h0] at ho
      have hback := h.backs.backTo h.toInv (hx.resolve_left h0) (hclear t weak p rfl hpc)
      rw [ho]
      exact (hback.lands h.wf).imp id fun hlt => ⟨h0, hlt.2⟩
  · -- it has ended, and makes no step
    rename_i r hpc
    cases hm with
    | search _ _ c hpc' | descend _ _ q hpc' | read _ _ q p p' hpc' | answer _ _ q p it r' hpc'
    | put _ _ c pc sl S' r' hpc' | panic _ _ c _ _ hpc' =>
      rw [hpc] at hpc'
      cases hpc'
  · exact hfrom.elim

/-- **A call of `prev` in time** ends at an earlier linked node, or off the list. -/
theorem exec_prev (h : Backward cmp writer s S)
    (hls : ∀ l ∈ callLabels t .prev during r, l.Allowed false writer)
    (hwithin : ∀ l ∈ during, l.Within t) (hclear : s.PrevsInTime (callLabels t .prev during r))
    (hexec : exec step s (callLabels t .prev during r) = some s') :
    ∃ S', Backward cmp writer s' S' ∧ Grows s.list S s'.list S' ∧ (s'.threads t).pc = .idle ∧
      r = .pair (s'.list.pairOf (s'.threads t).it.cursor) ∧
      ((s'.threads t).it.cursor = 0 ∨ ((s.threads t).it.cursor ≠ 0 ∧
        pos cmp s'.list (s'.threads t).it.cursor < pos cmp s'.list (s.threads t).it.cursor)) := by
  obtain ⟨s₀, s₁, hidle, hs₀, hinvoke, hduring, hdone, rfl⟩ := exec_call hexec
  have h₀ : Backward cmp writer s₀ S := hs₀ ▸ (Move.invoke t _ hidle).backward h trivial (by simp)
  have hlist : s₀.list = s.list := by rw [hs₀]; rfl
  have hx : (s.threads t).it.cursor = 0 ∨ (s.threads t).it.cursor ∈ S 0 := h.linked t
  have hstart : PrevFrom cmp s₀.list (s.threads t).it.cursor (s₀.threads t) := by
    have hmode : s.list.allowConcurrentWrite = false := h.mode_eq
    simp only [hs₀, PrevFrom, State.setPc, State.update_self, Call.start, ReadCall.loadsHeight,
      hmode, Bool.false_and, Bool.false_eq_true, if_false]
  have hclear₀ : s₀.PrevsInTime during := by
    have hcall : s.PrevsInTime ([.invoke t (.read .prev)] ++ during) := hclear.left
    exact hcall.right (exec_cons_eq_some.2 ⟨s₀, hinvoke, rfl⟩)
  obtain ⟨S₁, h₁, hI⟩ := run_induction (I := fun ls s₁ S₁ => s₀.PrevsInTime ls →
      Backward cmp writer s₁ S₁ ∧ Grows s.list S s₁.list S₁ ∧
        PrevFrom cmp s₁.list (s.threads t).it.cursor (s₁.threads t)) h₀.toInv
    (fun _ => ⟨h₀, hlist ▸ Grows.refl _ _, hstart⟩)
    (fun ls₁ s₁ S₁ l s₂ S₂ hl hs₁ _ hI hm _ hclear => by
      obtain ⟨h₁, hgrow, hfrom⟩ := hI hclear.left
      have hclear₁ : ∀ t weak p, l = .step t weak →
          (s₁.threads t).pc = .read .prev p → ¬ s₁.Redirected (s₁.threads t).it.cursor := by
        rintro t weak p rfl hpc
        exact hclear ls₁ t weak s₁ p (List.prefix_refl _) hs₁ hpc
      refine ⟨hm.backward h₁ (hls l (by simp [callLabels, hl])) hclear₁, hgrow.trans hm.grows, ?_⟩
      exact hm.prevFrom h₁ (hwithin l hl) hclear₁ (hx.imp id fun hx => hgrow.subset 0 hx) hfrom)
    (fun l hl => hls l (by simp [callLabels, hl])) hduring
  obtain ⟨h₁, hgrow₁, hfrom⟩ := hI hclear₀
  have h' := (Move.ret t r hdone).backward h₁ trivial (by simp)
  simp only [PrevFrom, hdone] at hfrom
  obtain ⟨hr, hend⟩ := hfrom
  refine ⟨S₁, h', hgrow₁, ?_, ?_, ?_⟩
  · simp only [State.setPc, State.update_self]
  · simpa only [State.setPc, State.update_self, State.update_list] using hr
  · simpa only [State.setPc, State.update_self, State.update_list] using hend

/-! ### What readers rely on -/

/-- What the readers of a single-writer list can rely on when they turn around. -/
structure PrevSafe (cmp : KeyComparator) (sl : SkipList) (ls : List Label) : Prop where
  /-- At every instant every cursor is invalid or at a node that is linked on level 0. -/
  linked : ∀ pre s t, pre <+: ls → exec step (State.init sl) pre = some s →
    (s.threads t).it.cursor = 0 ∨ (s.threads t).it.cursor ∈ s.list.chain 0
  /-- After `prev` has shown the pair `p₁`, `next` is valid, and does not skip past a pair that is
  linked when it starts.  One of these is the pair that the cursor showed before. -/
  next : ∀ (c₁ c₂ : Span ls) gap p₁, c₁.q = .prev → c₁.r = .pair (some p₁) → c₂.q = .next →
    c₂.t = c₁.t → c₂.before = c₁.before ++ callLabels c₁.t .prev c₁.during c₁.r ++ gap →
    (∀ l ∈ gap, l.Within c₁.t) → ∃ s p₀ p₂, exec step (State.init sl) c₂.before = some s ∧
      c₁.Shows sl (some p₀) ∧ p₀ ∈ s.list.pairs ∧ cmp.compareKey p₁.1 p₀.1 = .lt ∧
      c₂.r = .pair (some p₂) ∧ cmp.compareKey p₁.1 p₂.1 = .lt ∧
      ∀ p ∈ s.list.pairs, cmp.compareKey p₁.1 p.1 = .lt → cmp.compareKey p₂.1 p.1 ≠ .gt
  /-- A key that `prev` has shown is found by every later `get`. -/
  found : ∀ (c₁ c₂ : Span ls) key value, c₁.q = .prev → c₁.r = .pair (some (key, value)) →
    c₁.Precedes c₂ → c₂.q = .get key → c₂.r = .value (some value)

/-- A run with a `prev` that is not in time brings a cursor to a node that is not linked. -/
theorem prevsInTime_of_linked (h₀ : Inv cmp false writer s₀ S) (hb₀ : Backs cmp writer s₀ S)
    (hls : ∀ l ∈ ls, l.Allowed false writer) (hexec : exec step s₀ ls = some s')
    (hlinked : ∀ pre s t, pre <+: ls → exec step s₀ pre = some s →
      (s.threads t).it.cursor = 0 ∨ (s.threads t).it.cursor ∈ s.list.chain 0) :
    s₀.PrevsInTime ls := by
  intro pre t weak s p hpre hs hpc hred
  have hrun := run_induction (I := fun _ s S => Backs cmp writer s S) h₀ hb₀
    (fun _ _ _ _ _ _ _ _ h hb hm _ => hm.backs h hb)
    (fun l hl => hls l (hpre.subset (List.mem_append_left _ hl))) hs
  obtain ⟨S₁, h, hb⟩ := hrun
  obtain ⟨rest, rfl⟩ := hpre
  obtain ⟨s₂, hs₂, -⟩ := exec_append_eq_some.1 hexec
  obtain ⟨s₁, hs₁, hstep⟩ := exec_concat_eq_some.1 hs₂
  obtain rfl : s = s₁ := Option.some.inj (hs.symm.trans hs₁)
  obtain ⟨S₂, hm⟩ := step_move h hstep
  -- the cursor ends at the node that the writer has not linked yet
  obtain ⟨hout, hne, hhead⟩ := hb.redirected h hred
  obtain ⟨o, -, rfl, ho⟩ := hm.prev h hpc
  rw [if_neg hred.1, orNone, headOffset, if_neg hhead] at ho
  have hcursor := hlinked _ _ t (List.prefix_append _ _) hs₂
  simp only [State.update_self, State.update_list, h.wf.mem_chain_zero, ho] at hcursor
  exact hcursor.elim hne hout

/-- What a call of `prev` in time has done that started at `s`, ended at `s₁` and showed `p`. -/
structure Turned (cmp : KeyComparator) [Std.TransCmp cmp.compareKey] (writer t : ℕ) (s s₁ : State)
    (p : Bytes × Bytes) (S₁ : ℕ → Finset ℕ) : Prop extends Backward cmp writer s₁ S₁ where
  idle : (s₁.threads t).pc = .idle
  mem : (s₁.threads t).it.cursor ∈ S₁ 0
  pair : s₁.list.arena.pairAt (s₁.threads t).it.cursor = p
  mem_start : (s.threads t).it.cursor ∈ S₁ 0
  shown : IterRef.entry s.list (s.threads t).it =
    .ok (some (s₁.list.arena.pairAt (s.threads t).it.cursor))
  lt : pos cmp s₁.list (s₁.threads t).it.cursor < pos cmp s₁.list (s.threads t).it.cursor

theorem Span.turned (c : Span ls) (h₀ : Backward cmp writer s₀ S)
    (hls : ∀ l ∈ ls, l.Allowed false writer) (hclear : s₀.PrevsInTime ls)
    (hexec : exec step s₀ ls = some s') (hq : c.q = .prev) {p : Bytes × Bytes}
    (hr : c.r = .pair (some p)) : ∃ s s₁ S₁, exec step s₀ c.before = some s ∧
      exec step s₀ (c.before ++ callLabels c.t .prev c.during c.r) = some s₁ ∧
      Turned cmp writer c.t s s₁ p S₁ := by
  have heq : ls = c.before ++ callLabels c.t .prev c.during c.r ++ c.after := hq ▸ c.eq_append
  have hallowed := hls
  rw [heq] at hexec hclear hallowed
  simp only [List.forall_mem_append] at hallowed
  obtain ⟨s₁, hs₁, -⟩ := exec_append_eq_some.1 hexec
  obtain ⟨s, hs, hcall⟩ := exec_append_eq_some.1 hs₁
  obtain ⟨⟨hbeforeOk, hcallOk⟩, -⟩ := hallowed
  obtain ⟨S, h, -⟩ := exec_backward h₀ hbeforeOk hclear.left.left hs
  obtain ⟨S₁, h₁, hgrow, hidle, hr', hend⟩ :=
    exec_prev h hcallOk c.within (hclear.left.right hs) hcall
  have hshown : s₁.list.pairOf (s₁.threads c.t).it.cursor = some p :=
    (Ret.pair.inj (hr.symm.trans hr')).symm
  have hne : (s₁.threads c.t).it.cursor ≠ 0 := by
    intro h0
    simp [pairOf, h0] at hshown
  obtain ⟨hx0, hlt⟩ := hend.resolve_left hne
  have hx := (h.linked c.t).resolve_left hx0
  refine ⟨s, s₁, S₁, hs, hs₁, h₁, hidle, (h₁.linked c.t).resolve_left hne, ?_, hgrow.subset 0 hx,
    ?_, hlt⟩
  · simpa [pairOf, hne] using hshown
  · rw [entry_eq (h.cursor c.t).target, pairOf, if_neg hx0, hgrow.pair _ (h.wf.alive hx)]

/-- After a call of `prev` in time, `next` goes on along level 0. -/
theorem Turned.next {p₁ : Bytes × Bytes} {s₁ s₂ : State} {S₁ : ℕ → Finset ℕ} {gap : List Label}
    (h : Turned cmp writer t s s₁ p₁ S₁) (hgap : ∀ l ∈ gap, l.Within t)
    (hgapOk : ∀ l ∈ gap, l.Allowed false writer) (hs₂ : exec step s₁ gap = some s₂)
    (hwithin : ∀ l ∈ during, l.Within t)
    (hls : ∀ l ∈ callLabels t .next during r, l.Allowed false writer)
    (hexec : exec step s₂ (callLabels t .next during r) = some s') :
    ∃ p₀ p₂, IterRef.entry s.list (s.threads t).it = .ok (some p₀) ∧ p₀ ∈ s₂.list.pairs ∧
      cmp.compareKey p₁.1 p₀.1 = .lt ∧ r = .pair (some p₂) ∧ cmp.compareKey p₁.1 p₂.1 = .lt ∧
      ∀ p ∈ s₂.list.pairs, cmp.compareKey p₁.1 p.1 = .lt → cmp.compareKey p₂.1 p.1 ≠ .gt := by
  obtain ⟨S₂, h₂, hgrow⟩ := exec_inv h.toInv hgapOk hs₂
  have hthread := exec_idle h.toInv hgapOk hgap h.idle hs₂
  have hmem := hgrow.subset 0 h.mem
  have hx := hgrow.subset 0 h.mem_start
  have hpair₁ : s₂.list.arena.pairAt (s₁.threads t).it.cursor = p₁ := by
    rw [hgrow.pair _ (h.wf.alive h.mem), h.pair]
  have hpos₁ : pos cmp s₂.list (s₁.threads t).it.cursor = keyPos cmp p₁.1 := by
    rw [h₂.wf.pos_mem hmem, ← hpair₁]
    rfl
  obtain ⟨S', o, h', hgrow', -, hr, ho, hall⟩ := exec_forward h₂ hls hwithin
    (show (s₂.threads t).it.cursor ∈ S₂ 0 by rwa [hthread]) hexec
  simp only [ReadCall.Ahead, hthread, hpos₁] at ho hall
  have hlt : keyPos cmp p₁.1 < pos cmp s₂.list (s.threads t).it.cursor := by
    have hlt := h.lt
    rwa [← hgrow.pos_mem h.wf (Or.inr h.mem), ← hgrow.pos_mem h.wf (Or.inr h.mem_start),
      hpos₁] at hlt
  -- the node where `prev` started is ahead, so `next` cannot end the scan
  obtain ⟨ho0, -⟩ := hall _ hx hlt
  obtain ⟨homem, holt⟩ := ho.resolve_left ho0
  have hpair₀ := hgrow.pair _ (h.wf.alive h.mem_start)
  refine ⟨_, s'.list.arena.pairAt o, h.shown, h₂.wf.mem_pairs.2 ⟨_, hx, hpair₀⟩, ?_, ?_, ?_, ?_⟩
  · rw [← hpair₀]
    rwa [h₂.wf.pos_mem hx, keyPos_lt_keyPos] at hlt
  · rw [hr, pairOf, if_neg ho0]
  · rwa [h'.wf.pos_mem homem, keyPos_lt_keyPos] at holt
  · intro p hp hlt₁
    obtain ⟨y, hy, rfl⟩ := h₂.wf.mem_pairs.1 hp
    rw [← keyPos_lt_keyPos] at hlt₁
    have hle := (hall y hy (by rwa [h₂.wf.pos_mem hy])).2
    rw [h'.wf.pos_mem homem, h₂.wf.pos_mem hy] at hle
    intro hgt
    rw [← keyPos_lt_keyPos_iff_gt] at hgt
    exact absurd hle (not_le.2 hgt)

/-- A linked key is found by every `get` that starts later. -/
theorem Span.get_found (c : Span ls) (h₀ : Inv cmp false writer s₀ S)
    (hls : ∀ l ∈ ls, l.Allowed false writer) (hexec : exec step s₀ ls = some s') {s₁ : State}
    (hpre : ls' <+: ls) (hle : ls'.length ≤ c.before.length) (hs₁ : exec step s₀ ls' = some s₁)
    {key value : Bytes} (hmem : (key, value) ∈ s₁.list.pairs) (hq : c.q = .get key) :
    c.r = .value (some value) := by
  obtain ⟨s, S, it, pre, s₂, S₂, -, -, hpre₂, hs₂, h₂, -, hend⟩ := c.ended h₀ hls hexec
  have hsub := pairs_subset h₀ hls hpre (c.initial hpre₂) (by simp; omega) hs₁ hs₂
  have hmem₂ : (key, value) ∈ h₂.wf.map.entries := hsub hmem
  simp only [hq, ReadEnd] at hend
  obtain ⟨hr, -⟩ := lookupEnd_answer h₂.wf.represents hend
  rw [hr, h₂.wf.map.leastGE_of_mem hmem₂]
  simp [exactMatch]

/-- **`prev` under a single writer** is safe in exactly the runs in which no `prev` loads a
redirected back pointer. -/
theorem prev_safe_iff (cmp : KeyComparator) [Std.TransCmp cmp.compareKey] {capacity : ℕ}
    (hcap : capacity ≤ 2 ^ 32) {sl : SkipList}
    (hnew : SkipList.withCapacity cmp capacity false = .ok sl) {writer : ℕ} {ls : List Label}
    (hls : ∀ l ∈ ls, l.Allowed false writer) {s : State}
    (hexec : exec step (State.init sl) ls = some s) :
    PrevSafe cmp sl ls ↔ (State.init sl).PrevsInTime ls := by
  have hinit : Inv cmp false writer (State.init sl) fun _ => ∅ := inv_init hcap hnew
  have hbacks : Backs cmp writer (State.init sl) fun _ => ∅ := by
    intro x hx
    simp at hx
  refine ⟨fun hsafe => prevsInTime_of_linked hinit hbacks hls hexec hsafe.linked, fun hclear => ?_⟩
  have h₀ : Backward cmp writer (State.init sl) fun _ => ∅ := ⟨hinit, hbacks, fun _ => Or.inl rfl⟩
  refine ⟨?_, ?_, ?_⟩
  · intro pre s t hpre hs
    obtain ⟨rest, rfl⟩ := hpre
    obtain ⟨S, h, -⟩ := exec_backward h₀ (fun l hl => hls l (List.mem_append_left _ hl))
      hclear.left hs
    exact (h.linked t).imp id h.wf.mem_chain_zero.2
  · intro c₁ c₂ gap p₁ hq₁ hr₁ hq₂ ht heq hgap
    obtain ⟨s, s₁, S₁, hs, hs₁, hturned⟩ := c₁.turned h₀ hls hclear hexec hq₁ hr₁
    -- `next` follows `prev` on the same thread
    have hls₂ : ls = c₁.before ++ callLabels c₁.t .prev c₁.during c₁.r ++ gap ++
        callLabels c₁.t .next c₂.during c₂.r ++ c₂.after := by
      rw [← heq, ← ht, ← hq₂]
      exact c₂.eq_append
    have hallowed := hls
    rw [hls₂] at hexec hallowed
    simp only [List.forall_mem_append] at hallowed
    obtain ⟨⟨⟨-, hgapOk⟩, hcallOk⟩, -⟩ := hallowed
    obtain ⟨s₃, hs₃, -⟩ := exec_append_eq_some.1 hexec
    obtain ⟨s₂, hs₂, hcall⟩ := exec_append_eq_some.1 hs₃
    obtain ⟨s₁', hs₁', hgapRun⟩ := exec_append_eq_some.1 hs₂
    obtain rfl : s₁ = s₁' := Option.some.inj (hs₁.symm.trans hs₁')
    obtain ⟨p₀, p₂, hshown, hrest⟩ :=
      hturned.next hgap hgapOk hgapRun (ht ▸ c₂.within) hcallOk hcall
    exact ⟨s₂, p₀, p₂, heq ▸ hs₂, ⟨s, hs, hshown⟩, hrest⟩
  · intro c₁ c₂ key value hq₁ hr₁ hprec hq₂
    obtain ⟨s, s₁, S₁, -, hs₁, hturned⟩ := c₁.turned h₀ hls hclear hexec hq₁ hr₁
    have hmem : (key, value) ∈ s₁.list.pairs :=
      hturned.wf.mem_pairs.2 ⟨_, hturned.mem, hturned.pair⟩
    have hpre : c₁.before ++ callLabels c₁.t .prev c₁.during c₁.r <+: ls :=
      ⟨c₁.after, (hq₁ ▸ c₁.eq_append).symm⟩
    refine c₂.get_found hinit hls hexec hpre ?_ hs₁ hmem hq₂
    simp only [Span.Precedes] at hprec
    simp only [callLabels, List.length_append, List.length_cons, List.length_nil]
    omega

/-- A reader stands at the key `3` while the writer inserts `2`, and calls `prev` when the writer
has redirected the back pointer of `3`. -/
def turning : List Label :=
  [.invoke 0 (.put ⟨[3], [30], 0⟩)] ++ steps 0 8 ++ [.ret 0 (.inserted none)] ++
    callLabels 1 (.seek [3]) (steps 1 2) (.pair (some ([3], [30]))) ++
    [.invoke 0 (.put ⟨[2], [20], 0⟩)] ++ steps 0 7 ++
    callLabels 1 .prev (steps 1 1) (.pair (some ([2], [20])))

/-- What the reader does then, and another one: `next` ends the scan before `3`, and `get` does not
find `2`. -/
def turned : List Label :=
  callLabels 1 .next (steps 1 1) (.pair none) ++
    callLabels 2 (.get [2]) (steps 2 2) (.value none) ++ steps 0 2 ++ [.ret 0 (.inserted none)]

theorem prev_safe_iff_turned :
    ∃ sl, SkipList.withCapacity bytewiseComparator 1024 false = .ok sl ∧
      (PrevSafe bytewiseComparator sl (turning ++ turned) ↔
        (State.init sl).PrevsInTime (turning ++ turned)) := by
  obtain ⟨sl, hsl, s, hs⟩ : ∃ sl, SkipList.withCapacity bytewiseComparator 1024 false = .ok sl ∧
      ∃ s, exec step (State.init sl) (turning ++ turned) = some s := exists_exec (by decide +kernel)
  have hls : ∀ l ∈ turning ++ turned, l.Allowed false 0 := by decide
  exact ⟨sl, hsl, prev_safe_iff bytewiseComparator (show 1024 ≤ 2 ^ 32 by decide) hsl hls hs⟩

/-- **`prev` under a single writer is not safe.** -/
theorem prev_unsafe :
    ∃ sl, SkipList.withCapacity bytewiseComparator 1024 false = .ok sl ∧
      (∀ l ∈ turning ++ turned, l.Allowed false 0) ∧
      (∃ s, exec step (State.init sl) (turning ++ turned) = some s) ∧
      ¬ PrevSafe bytewiseComparator sl (turning ++ turned) := by
  obtain ⟨sl, hsl, s, hs, hP⟩ : ∃ sl,
      SkipList.withCapacity bytewiseComparator 1024 false = .ok sl ∧
        ∃ s, exec step (State.init sl) turning = some s ∧
          ((s.threads 1).it.cursor != 0 && !(s.list.chain 0).contains (s.threads 1).it.cursor &&
            (exec step s turned).isSome) = true := exists_exec_and (by decide +kernel)
  simp only [Bool.and_eq_true, bne_iff_ne, Bool.not_eq_true', List.contains_eq_mem,
    decide_eq_false_iff_not, Option.isSome_iff_exists] at hP
  obtain ⟨⟨hne, hout⟩, s', hs'⟩ := hP
  refine ⟨sl, hsl, by decide, ⟨s', exec_append_eq_some.2 ⟨s, hs, hs'⟩⟩, fun hsafe => ?_⟩
  exact (hsafe.linked turning s 1 (List.prefix_append _ _) hs).elim hne hout

end Concurrent

end StoneDb
