import StoneDb.Concurrent.Splice
import StoneDb.Concurrent.Read

/-!
# Runs of the machine

`Inv` is the invariant of the machine: the list satisfies the skiplist invariant, every thread knows
what its program counter says (`PcOk`), no block has two owners, and in single-writer mode only one
thread is in `put`.

`step_move` says once what a step can do (`Move`), and `Move.inv` that every move keeps the
invariant.  From these, `exec_inv`: it holds in every state of every run, and the list only grows.
-/

namespace StoneDb

namespace Concurrent

open SkipList

/-- What a thread knows. -/
def PcOk (cmp : KeyComparator) [Std.TransCmp cmp.compareKey] (sl : SkipList) (S : ℕ → Finset ℕ)
    (it : IterRef) : Pc → Prop
  | .idle | .done _ | .loadHeight (.read _) => True
  | .loadHeight (.put c) => c.Valid
  | .read q p => ReadOk cmp sl S it q p
  | .put c pc => c.Valid ∧ PutOk cmp sl S c pc
  | .faulted e => e = .outOfMemory

/-- The block that a thread owns. -/
def Pc.node : Pc → Option ℕ
  | .put _ pc => pc.node
  | _ => none

/-- The thread is in `put`. -/
def Pc.Inserting : Pc → Prop
  | .loadHeight (.put _) | .put .. => True
  | _ => False

/-- **The invariant of the machine**, with the nodes `S l` linked at each level `l`. -/
structure Inv (cmp : KeyComparator) [Std.TransCmp cmp.compareKey] (mode : Bool) (writer : ℕ)
    (s : State) (S : ℕ → Finset ℕ) : Prop where
  wf : Wf cmp s.list S
  closed : Closed s.list S
  mode_eq : s.list.allowConcurrentWrite = mode
  capacity_le : s.list.arena.capacity ≤ 2 ^ 32
  cursor : ∀ t, CursorOk s.list (s.threads t).it
  pc : ∀ t, PcOk cmp s.list S (s.threads t).it (s.threads t).pc
  own : ∀ t t' x, (s.threads t).pc.node = some x → (s.threads t').pc.node = some x → t = t'
  lone : mode = false → ∀ t, (s.threads t).pc.Inserting → t = writer

/-- Where a `put` is after a step. -/
def afterPut (c : PutCall) : Iter PutPc (Option (Bytes × Bytes)) → Pc
  | .next pc => .put c pc
  | .done r => .done (.inserted r)

/-- Replace the program counter of a thread. -/
def State.setPc (s : State) (t : ℕ) (pc : Pc) : State :=
  s.update s.list t { s.threads t with pc }

/-- **What a step can do.** -/
inductive Move (cmp : KeyComparator) [Std.TransCmp cmp.compareKey] (s : State) (S : ℕ → Finset ℕ) :
    Label → State → (ℕ → Finset ℕ) → Prop
  | invoke (t : ℕ) (c : Call) : (s.threads t).pc = .idle →
    Move cmp s S (.invoke t c) (s.setPc t (c.start s.list (s.threads t).it)) S
  | search (t : ℕ) (weak : Bool) (c : PutCall) : (s.threads t).pc = .loadHeight (.put c) →
    Move cmp s S (.step t weak) (s.setPc t (.put c (.search s.list.height s.list.height
      (.start s.list.head s.list.height) s.list.head))) S
  | descend (t : ℕ) (weak : Bool) (q : ReadCall) : (s.threads t).pc = .loadHeight (.read q) →
    Move cmp s S (.step t weak) (s.setPc t (.read q (s.list.head, s.list.height))) S
  | read (t : ℕ) (weak : Bool) (q : ReadCall) (p p' : ℕ × ℕ) : (s.threads t).pc = .read q p →
    readStep s.list (s.threads t).it q p = .ok (.next p') →
    ReadOk cmp s.list S (s.threads t).it q p' →
    Move cmp s S (.step t weak) (s.setPc t (.read q p')) S
  | answer (t : ℕ) (weak : Bool) (q : ReadCall) (p : ℕ × ℕ) (it : IterRef) (r : Ret) :
    (s.threads t).pc = .read q p → readStep s.list (s.threads t).it q p = .ok (.done (it, r)) →
    CursorOk s.list it → ReadEnd cmp s.list S (s.threads t).it q it r →
    Move cmp s S (.step t weak) (s.update s.list t ⟨.done r, it⟩) S
  | put (t : ℕ) (weak : Bool) (c : PutCall) (pc : PutPc) (sl : SkipList) (S' : ℕ → Finset ℕ)
    (r : Iter PutPc (Option (Bytes × Bytes))) : (s.threads t).pc = .put c pc →
    PutStep cmp s.list S c pc sl S' r →
    Move cmp s S (.step t weak) (s.update sl t { s.threads t with pc := afterPut c r }) S'
  | panic (t : ℕ) (weak : Bool) (c : PutCall) (height : ℕ) (sp : Splices) :
    (s.threads t).pc = .put c (.alloc height sp) →
    Move cmp s S (.step t weak) (s.setPc t (.faulted .outOfMemory)) S
  | ret (t : ℕ) (r : Ret) : (s.threads t).pc = .done r →
    Move cmp s S (.ret t r) (s.setPc t .idle) S

variable {cmp : KeyComparator} [Std.TransCmp cmp.compareKey] {mode : Bool} {writer : ℕ}
  {s s' : State} {S S' : ℕ → Finset ℕ} {l : Label} {sl : SkipList} {t : ℕ} {th : Thread}

@[simp] theorem State.update_list : (s.update sl t th).list = sl := rfl

@[simp] theorem State.update_self : (s.update sl t th).threads t = th := Function.update_self ..

theorem State.update_of_ne {t' : ℕ} (h : t' ≠ t) : (s.update sl t th).threads t' = s.threads t' :=
  Function.update_of_ne h ..

/-- What holds of the thread that moves and of the others holds of every thread. -/
theorem State.forall_update {P : ℕ → Thread → Prop} (hself : P t th)
    (hother : ∀ t', t' ≠ t → P t' (s.threads t')) (t' : ℕ) :
    P t' ((s.update sl t th).threads t') := by
  by_cases ht : t' = t
  · subst ht
    rwa [State.update_self]
  · rw [State.update_of_ne ht]
    exact hother t' ht

/-- What no two threads share (`P`) they do not share after a move, if none of the others shares it
with the thread that has moved. -/
theorem State.unique_update {P : Thread → Thread → Prop} (hsymm : ∀ th th', P th th' → P th' th)
    (hother : ∀ t' ≠ t, ¬ P (s.threads t') th)
    (h : ∀ t₁ t₂, P (s.threads t₁) (s.threads t₂) → t₁ = t₂) (t₁ t₂ : ℕ)
    (hP : P ((s.update sl t th).threads t₁) ((s.update sl t th).threads t₂)) : t₁ = t₂ := by
  by_cases ht₁ : t₁ = t
  · by_cases ht₂ : t₂ = t
    · exact ht₁.trans ht₂.symm
    · rw [ht₁, State.update_self, State.update_of_ne ht₂] at hP
      exact absurd (hsymm _ _ hP) (hother t₂ ht₂)
  · rw [State.update_of_ne ht₁] at hP
    by_cases ht₂ : t₂ = t
    · rw [ht₂, State.update_self] at hP
      exact absurd hP (hother t₁ ht₁)
    · rw [State.update_of_ne ht₂] at hP
      exact h t₁ t₂ hP

/-! ### Every step is a move -/

/-- A search can start at the head, on any level. -/
theorem readOk_head (it : IterRef) (q : ReadCall) {i : ℕ} (hi : i < maxHeight) :
    ReadOk cmp sl S it q (sl.head, i) := by
  cases q with
  | get | getWithKey | contains | lowerBound | seek | seekForPrev => exact searchAt_head hi
  | len | isEmpty => exact Or.inl rfl
  | seekToLast => exact ⟨hi, Or.inl rfl⟩
  | prev => exact fun _ _ => searchAt_head hi
  | seekToFirst | next => trivial

/-- A thread that starts a call is idle. -/
theorem step_invoke {c : Call} (hstep : step s (.invoke t c) = some s') :
    (s.threads t).pc = .idle ∧ s' = s.setPc t (c.start s.list (s.threads t).it) := by
  simp only [step] at hstep
  cases hpc : (s.threads t).pc <;> simp only [hpc, Option.some.injEq, reduceCtorEq] at hstep
  exact ⟨rfl, hstep.symm⟩

/-- A thread that returns has found its answer. -/
theorem step_ret {r : Ret} (hstep : step s (.ret t r) = some s') :
    (s.threads t).pc = .done r ∧ s' = s.setPc t .idle := by
  simp only [step] at hstep
  cases hpc : (s.threads t).pc <;>
    simp only [hpc, Option.ite_none_right_eq_some, Option.some.injEq, reduceCtorEq] at hstep
  obtain ⟨rfl, hs'⟩ := hstep
  exact ⟨rfl, hs'.symm⟩

/-- **Every step is one of the moves.** -/
theorem step_move (h : Inv cmp mode writer s S) (hstep : step s l = some s') :
    ∃ S', Move cmp s S l s' S' := by
  cases l with
  | invoke t c =>
    obtain ⟨hidle, rfl⟩ := step_invoke hstep
    exact ⟨S, .invoke t c hidle⟩
  | ret t r =>
    obtain ⟨hdone, rfl⟩ := step_ret hstep
    exact ⟨S, .ret t r hdone⟩
  | step t weak =>
    have hok := h.pc t
    simp only [step, Thread.advance] at hstep
    cases hpc : (s.threads t).pc with
    | idle | done r | faulted e => simp [hpc] at hstep
    | loadHeight c =>
      cases c with
      | put c =>
        simp only [hpc, listHeight, headOffset, index_start h.wf.height_lt, bind, Except.bind, pure,
          Except.pure, Option.some.injEq] at hstep
        subst hstep
        exact ⟨S, .search t weak c hpc⟩
      | read q =>
        simp only [hpc, listHeight, headOffset, Option.some.injEq] at hstep
        subst hstep
        exact ⟨S, .descend t weak q hpc⟩
    | read q p =>
      rw [hpc] at hok
      rcases readStep_spec h.wf h.closed (h.cursor t) hok with
        ⟨p', hrun, hok'⟩ | ⟨it, r, hrun, hit, hend⟩
      · simp only [hpc, hrun, bind, Except.bind, pure, Except.pure, Option.some.injEq] at hstep
        subst hstep
        exact ⟨S, .read t weak q p p' hpc hrun hok'⟩
      · simp only [hpc, hrun, bind, Except.bind, pure, Except.pure, Option.some.injEq] at hstep
        subst hstep
        exact ⟨S, .answer t weak q p it r hpc hrun hit hend⟩
    | put c pc =>
      rw [hpc] at hok
      obtain ⟨hvalid, hput⟩ := hok
      have hsz := sized_of_le h.capacity_le hvalid.size
      rcases putStep_spec h.wf h.closed hvalid.height hsz hput weak with
        ⟨hrun, height, sp, rfl⟩ | ⟨sl, S', r, hrun, hput'⟩
      · simp only [hpc, hrun, bind, Except.bind, Option.some.injEq] at hstep
        subst hstep
        exact ⟨S, .panic t weak c height sp hpc⟩
      · have hmove := Move.put t weak c pc sl S' r hpc hput'
        cases r with
        | next pc' | done r =>
          simp only [hpc, hrun, bind, Except.bind, pure, Except.pure, Option.some.injEq] at hstep
          subst hstep
          exact ⟨S', hmove⟩

/-! ### Every move keeps the invariant -/

/-- The other threads still know what they knew. -/
theorem PcOk.mono {it : IterRef} {pc : Pc} {own : ℕ → Prop} (hpc : PcOk cmp sl S it pc)
    (hwf : Wf cmp sl S) {sl' : SkipList} (heff : Effects own sl S sl' S') (hit : CursorOk sl it)
    (hlone : sl.allowConcurrentWrite = false → pc.Inserting → sl' = sl ∧ S' = S)
    (hown : ∀ x, pc.node = some x → ¬ own x) : PcOk cmp sl' S' it pc := by
  cases pc with
  | idle | done r | faulted e => exact hpc
  | loadHeight c => cases c <;> exact hpc
  | read q p => exact ReadOk.mono hpc hwf heff.grows hit.alive
  | put c pc =>
    obtain ⟨hvalid, hput⟩ := hpc
    refine ⟨hvalid, ?_⟩
    cases hmode : sl.allowConcurrentWrite with
    | true => exact hput.mono hwf heff hmode hown
    | false =>
      obtain ⟨rfl, rfl⟩ := hlone hmode trivial
      exact hput

/-- A move of the thread `t` that does to the list what it may. -/
theorem Inv.update (h : Inv cmp mode writer s S) (hwf : Wf cmp sl S') (hclosed : Closed sl S')
    (heff : Effects (fun x => (s.threads t).pc.node = some x) s.list S sl S')
    (hlone : mode = false → t ≠ writer → sl = s.list ∧ S' = S) (hit : CursorOk sl th.it)
    (hpc : PcOk cmp sl S' th.it th.pc)
    (hnode : ∀ x, th.pc.node = some x → (s.threads t).pc.node = some x ∨ s.list.arena.len ≤ x)
    (hins : mode = false → th.pc.Inserting → t = writer) :
    Inv cmp mode writer (s.update sl t th) S' := by
  -- a block that a thread owns has been reserved
  have hlt : ∀ t' x, (s.threads t').pc.node = some x → x < s.list.arena.len := by
    intro t' x hx
    have hok := h.pc t'
    cases hpc' : (s.threads t').pc with
    | put c pc =>
      rw [hpc'] at hok hx
      exact hok.2.node_lt h.wf hx
    | idle | loadHeight | read | done | faulted => rw [hpc'] at hx; cases hx
  refine ⟨hwf, hclosed, heff.grows.mode.trans h.mode_eq, heff.grows.capacity ▸ h.capacity_le, ?_,
    ?_, ?_, ?_⟩
  · exact State.forall_update (P := fun _ th => CursorOk sl th.it) hit fun t' _ =>
      (h.cursor t').mono heff.grows
  · refine State.forall_update (P := fun _ th => PcOk cmp sl S' th.it th.pc) hpc fun t' ht => ?_
    refine (h.pc t').mono h.wf heff (h.cursor t') (fun hm hi => ?_) fun x hx hown =>
      ht (h.own t' t x hx hown)
    have hm' : mode = false := h.mode_eq ▸ hm
    exact hlone hm' fun he => ht ((h.lone hm' t' hi).trans he.symm)
  · intro t₁ t₂ x h₁ h₂
    refine State.unique_update (P := fun th th' => th.pc.node = some x ∧ th'.pc.node = some x)
      (fun _ _ hx => hx.symm) (fun t' ht hx => ?_) (fun t₁ t₂ hx => h.own t₁ t₂ x hx.1 hx.2) t₁ t₂
      ⟨h₁, h₂⟩
    -- a new owner takes over its own block, or one that nobody owned
    rcases hnode x hx.2 with hold | hle
    · exact ht (h.own t' t x hx.1 hold)
    · exact absurd (hlt t' x hx.1) (not_lt.2 hle)
  · intro hm
    exact State.forall_update (P := fun t' th => th.pc.Inserting → t' = writer) (hins hm)
      fun t' _ => h.lone hm t'

/-- A move that leaves the list alone. -/
theorem Inv.setThread (h : Inv cmp mode writer s S) (hit : CursorOk s.list th.it)
    (hpc : PcOk cmp s.list S th.it th.pc) (hnode : th.pc.node = none)
    (hins : mode = false → th.pc.Inserting → t = writer) :
    Inv cmp mode writer (s.update s.list t th) S :=
  h.update h.wf h.closed (.refl _ _ _) (fun _ _ => ⟨rfl, rfl⟩) hit hpc
    (fun x hx => by rw [hnode] at hx; cases hx) hins

theorem start_ok {c : Call} (hc : l = .invoke t c) (hl : l.Allowed mode writer)
    (it : IterRef) : PcOk cmp sl S it (c.start sl it) ∧ (c.start sl it).node = none ∧
      (mode = false → (c.start sl it).Inserting → t = writer) := by
  subst hc
  cases c with
  | put c => exact ⟨hl.1, rfl, fun hm _ => hl.2 hm⟩
  | read q =>
    simp only [Call.start]
    split_ifs
    · exact ⟨trivial, rfl, fun _ hi => hi.elim⟩
    · exact ⟨readOk_head it q (by decide), rfl, fun _ hi => hi.elim⟩

/-- **Every move keeps the invariant.** -/
theorem Move.inv (hm : Move cmp s S l s' S') (h : Inv cmp mode writer s S)
    (hl : l.Allowed mode writer) : Inv cmp mode writer s' S' := by
  cases hm with
  | invoke t c hpc =>
    obtain ⟨hok, hnode, hins⟩ : PcOk cmp s.list S (s.threads t).it _ ∧ _ ∧ _ :=
      start_ok rfl hl (s.threads t).it
    exact h.setThread (h.cursor t) hok hnode hins
  | search t weak c hpc =>
    have hvalid := h.pc t
    rw [hpc] at hvalid
    have hlone : mode = false → t = writer := fun hm => h.lone hm t (by rw [hpc]; trivial)
    refine h.setThread (h.cursor t) ⟨hvalid, le_rfl, searchAt_head h.wf.height_lt, le_rfl, fun _ =>
      rfl, ?_, ?_⟩ rfl fun hm _ => hlone hm
    · intro j hj hj'
      exact (h.wf.start_exact c.key hj hj').2
    · intro _ j hj hj'
      exact (h.wf.start_exact c.key hj hj').1
  | descend t weak q hpc =>
    exact h.setThread (h.cursor t) (readOk_head _ q h.wf.height_lt) rfl fun _ hi => hi.elim
  | read t weak q p p' hpc _ hok =>
    exact h.setThread (h.cursor t) hok rfl fun _ hi => hi.elim
  | answer t weak q p it r hpc _ hit _ => exact h.setThread hit trivial rfl fun _ hi => hi.elim
  | put t weak c pc sl S' r hpc hput =>
    have hvalid := h.pc t
    rw [hpc] at hvalid
    have hlone : mode = false → t = writer := fun hm => h.lone hm t (by rw [hpc]; trivial)
    have hnode : (s.threads t).pc.node = pc.node := by rw [hpc]; rfl
    refine h.update hput.wf hput.closed (by rw [hnode]; exact hput.effects)
      (fun hm ht => absurd (hlone hm) ht) ((h.cursor t).mono hput.effects.grows) ?_
      (fun x hx => ?_) fun hm _ => hlone hm
    · cases r with
      | next pc' => exact ⟨hvalid.1, hput.ok pc' rfl⟩
      | done r => trivial
    · rw [hnode]
      cases r with
      | next pc' => exact hput.node pc' rfl x hx
      | done r => cases hx
  | panic t weak c _ _ hpc => exact h.setThread (h.cursor t) rfl rfl fun _ hi => hi.elim
  | ret t r hpc => exact h.setThread (h.cursor t) trivial rfl fun _ hi => hi.elim

/-- Every move grows the list. -/
theorem Move.grows (hm : Move cmp s S l s' S') : Grows s.list S s'.list S' := by
  cases hm with
  | put t weak c pc sl S' r hpc hput => exact hput.effects.grows
  | invoke | search | descend | read | answer | panic | ret => exact Grows.refl _ _

/-- The thread that a label moves. -/
def Label.thread : Label → ℕ
  | .invoke t _ | .step t _ | .ret t _ => t

/-- A move leaves the other threads alone. -/
theorem Move.other (hm : Move cmp s S l s' S') (ht : t ≠ l.thread) :
    s'.threads t = s.threads t := by
  cases hm <;> exact State.update_of_ne ht

/-! ### Runs -/

/-- A new list, with all threads idle. -/
theorem inv_init {capacity : ℕ} (hcap : capacity ≤ 2 ^ 32)
    (h : SkipList.withCapacity cmp capacity mode = .ok sl) :
    Inv cmp mode writer (State.init sl) fun _ => ∅ := by
  obtain ⟨hwf, hmode, hcapacity, -, -⟩ := wf_withCapacity h
  have hclosed : Closed sl fun _ => ∅ := by
    refine ⟨fun x ⟨n, hn⟩ => Or.inl ?_, fun x ⟨n, hn⟩ => Or.inl ?_⟩
    · simp [Arena.nextAt, hn, node_withCapacity h hn, Node.init]
    · simp [Arena.prevAt, hn, node_withCapacity h hn, Node.init]
  exact ⟨hwf, hclosed, hmode, hcapacity ▸ hcap, fun _ => Or.inl rfl, fun _ => trivial,
    fun t t' x hx => (by cases hx), fun _ t hi => hi.elim⟩

/-- **Induction on runs**: what holds at the start and is kept by every move holds at the end, with
the labels so far. -/
theorem run_induction {I : List Label → State → (ℕ → Finset ℕ) → Prop} {ls : List Label}
    (h : Inv cmp mode writer s S) (hnil : I [] s S)
    (hmove : ∀ ls₁ s₁ S₁ l s₂ S₂, l ∈ ls → exec step s ls₁ = some s₁ →
      Inv cmp mode writer s₁ S₁ → I ls₁ s₁ S₁ → Move cmp s₁ S₁ l s₂ S₂ →
      Inv cmp mode writer s₂ S₂ → I (ls₁ ++ [l]) s₂ S₂)
    (hls : ∀ l ∈ ls, l.Allowed mode writer) (hexec : exec step s ls = some s') :
    ∃ S', Inv cmp mode writer s' S' ∧ I ls s' S' := by
  refine exec_induction (I := fun ls s => ∃ S, Inv cmp mode writer s S ∧ I ls s S)
    (P := fun l => l ∈ ls) ⟨S, h, hnil⟩ (fun ls₁ s₁ l s₂ hl hs₁ ih hstep => ?_) (fun _ hl => hl)
    hexec
  obtain ⟨S₁, h₁, hI⟩ := ih
  obtain ⟨S₂, hm⟩ := step_move h₁ hstep
  have h₂ := hm.inv h₁ (hls l hl)
  exact ⟨S₂, h₂, hmove ls₁ s₁ S₁ l s₂ S₂ hl hs₁ h₁ hI hm h₂⟩

/-- **In every state of every run** the invariant holds, and the list only grows. -/
theorem exec_inv {ls : List Label} (h : Inv cmp mode writer s S)
    (hls : ∀ l ∈ ls, l.Allowed mode writer) (hexec : exec step s ls = some s') :
    ∃ S', Inv cmp mode writer s' S' ∧ Grows s.list S s'.list S' :=
  run_induction (I := fun _ s' S' => Grows s.list S s'.list S') h (Grows.refl _ _)
    (fun _ _ _ _ _ _ _ _ _ hgrow hm _ => hgrow.trans hm.grows) hls hexec

/-- A run leaves the threads alone that it does not move. -/
theorem exec_other {ls : List Label} (h : Inv cmp mode writer s S)
    (hls : ∀ l ∈ ls, l.Allowed mode writer) (ht : ∀ l ∈ ls, t ≠ l.thread)
    (hexec : exec step s ls = some s') : s'.threads t = s.threads t := by
  obtain ⟨S', -, hsame⟩ := run_induction (I := fun _ s' _ => s'.threads t = s.threads t) h rfl
    (fun _ _ _ _ _ _ hl _ _ hsame hm _ => (hm.other (ht _ hl)).trans hsame) hls hexec
  exact hsame

/-- The thread `t` makes `n` steps in a row. -/
def steps (t n : ℕ) : List Label := List.replicate n (.step t false)

/-- A schedule that can be carried out on a new list and ends with `P`, as a decidable condition. -/
theorem exists_exec_and {cmp : KeyComparator} {capacity : ℕ} {ls : List Label} {P : State → Bool}
    (h : (SkipList.withCapacity cmp capacity mode).toOption.any (fun sl =>
      (exec step (State.init sl) ls).any P) = true) :
    ∃ sl, SkipList.withCapacity cmp capacity mode = .ok sl ∧
      ∃ s, exec step (State.init sl) ls = some s ∧ P s = true := by
  cases hsl : SkipList.withCapacity cmp capacity mode with
  | error e => simp [hsl, Except.toOption] at h
  | ok sl =>
    simp only [hsl, Except.toOption, Option.any_some, Option.any_eq_true] at h
    exact ⟨sl, rfl, h⟩

theorem exists_exec {cmp : KeyComparator} {capacity : ℕ} {ls : List Label}
    (h : (SkipList.withCapacity cmp capacity mode).toOption.any (fun sl =>
      (exec step (State.init sl) ls).any fun _ => true) = true) :
    ∃ sl, SkipList.withCapacity cmp capacity mode = .ok sl ∧
      ∃ s, exec step (State.init sl) ls = some s := by
  obtain ⟨sl, hsl, s, hs, -⟩ := exists_exec_and h
  exact ⟨sl, hsl, s, hs⟩

/-! ### One call -/

/-- No call of the thread `t` starts or ends. -/
def Label.Within (t : ℕ) : Label → Prop
  | .invoke t' _ | .ret t' _ => t' ≠ t
  | .step .. => True

instance (t : ℕ) : DecidablePred (Label.Within t)
  | .invoke t' _ | .ret t' _ => inferInstanceAs (Decidable (t' ≠ t))
  | .step .. => inferInstanceAs (Decidable True)

/-- During a call either another thread moves, or the thread makes a step. -/
theorem Label.Within.cases (h : l.Within t) : t ≠ l.thread ∨ ∃ weak, l = .step t weak := by
  cases l with
  | invoke t' c | ret t' r => exact Or.inl (Ne.symm h)
  | step t' weak =>
    by_cases ht : t = t'
    · subst ht
      exact Or.inr ⟨weak, rfl⟩
    · exact Or.inl ht

/-- A call from its start to its return. -/
theorem exec_call {c : Call} {during : List Label} {r : Ret}
    (hexec : exec step s (.invoke t c :: during ++ [.ret t r]) = some s') :
    ∃ s₀ s₁, (s.threads t).pc = .idle ∧ s₀ = s.setPc t (c.start s.list (s.threads t).it) ∧
      step s (.invoke t c) = some s₀ ∧ exec step s₀ during = some s₁ ∧
      (s₁.threads t).pc = .done r ∧ s' = s₁.setPc t .idle := by
  obtain ⟨s₁, hs₁, hret⟩ := exec_concat_eq_some.1 hexec
  obtain ⟨s₀, hinvoke, hduring⟩ := exec_cons_eq_some.1 hs₁
  obtain ⟨hidle, hs₀⟩ := step_invoke hinvoke
  obtain ⟨hdone, hs'⟩ := step_ret hret
  exact ⟨s₀, s₁, hidle, hs₀, hinvoke, hduring, hdone, hs'⟩

end Concurrent

end StoneDb
