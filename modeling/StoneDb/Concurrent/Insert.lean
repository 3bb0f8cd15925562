import StoneDb.Concurrent.Chains

/-!
# Concurrent inserts are linearizable

`put_linearizable`: in every run, in either mode, the history of the `put` calls is one of an atomic
insert-if-absent map.  A call takes effect at the step whose `Commit` says so: the load that finds
an equal key, or the store or compare-exchange that links its node on level 0.  The simulation
relates a state to the map on level 0 and every thread in `put` to a client of the atomic map
(`Pc.client`).

`concurrent_puts` adds, for the writers in concurrent mode, what a caller of `put` relies on: what
an answer of `put` says about the chain, and where the nodes of the chain come from.
-/

namespace StoneDb

namespace Concurrent

open SkipList

variable (cmp : KeyComparator) [Std.TransCmp cmp.compareKey]

/-- `put` on a map. -/
def insertCall (m : OrderedMap cmp.compareKey Bytes) (c : PutCall) :
    OrderedMap cmp.compareKey Bytes × Option (Bytes × Bytes) :=
  m.insertIfAbsent c.key c.value

/-- What a label shows of the `put` calls. -/
def Label.putEvent : Label → Option (Event ℕ PutCall (Option (Bytes × Bytes)))
  | .invoke t (.put c) => some (.call t c)
  | .ret t (.inserted r) => some (.answer t r)
  | _ => none

/-- A pending `put` as a client of the map. -/
def clientOf (c : PutCall) : Option (Option (Bytes × Bytes)) →
    Client PutCall (Option (Bytes × Bytes))
  | none => .called c
  | some r => .served r

/-- A thread as a client of the map. -/
def Pc.client : Pc → Client PutCall (Option (Bytes × Bytes))
  | .loadHeight (.put c) => .called c
  | .put c pc => clientOf c (outcome (.next pc))
  | .done (.inserted r) => .served r
  | _ => .idle

/-- A state of the machine and one of the atomic map.  A call that has panicked stays pending. -/
def Simulates (mode : Bool) (writer : ℕ) (s : State) (m : OrderedMap cmp.compareKey Bytes)
    (f : ℕ → Client PutCall (Option (Bytes × Bytes))) : Prop :=
  ∃ S, Inv cmp mode writer s S ∧ Represents cmp s.list S m ∧
    ∀ t, (∀ e, (s.threads t).pc ≠ .faulted e) → f t = (s.threads t).pc.client

/-- The answer `r` of a `put` agrees with the node of its key. -/
def Settled (sl : SkipList) (S : ℕ → Finset ℕ) (c : PutCall) (r : Option (Bytes × Bytes)) : Prop :=
  ∃ x ∈ S 0, pos cmp sl x = keyPos cmp c.key ∧ r = conflictAnswer sl x c.key c.value

/-- How far a thread is that carries out the `put` call `c`. -/
def InPut (sl : SkipList) (S : ℕ → Finset ℕ) (c : PutCall) : Pc → Prop
  | .loadHeight (.put c') => c' = c
  | .put c' pc => c' = c ∧ ∀ r, outcome (.next pc) = some r → Settled cmp sl S c r
  | .done (.inserted r) => Settled cmp sl S c r
  | .faulted _ => True
  | _ => False

variable {cmp} {mode : Bool} {writer t : ℕ} {s s' : State} {sl sl' : SkipList} {S S' : ℕ → Finset ℕ}
  {l : Label} {c : PutCall} {before after : Option (Option (Bytes × Bytes))}
  {r : Option (Bytes × Bytes)} {m : OrderedMap cmp.compareKey Bytes}

/-! ### What a step commits -/

/-- A step of a `put` is a step of the atomic map, or none. -/
theorem Commit.serves (hc : Commit cmp sl S c sl' S' before after) (hm : Represents cmp sl S m)
    (hwf : Wf cmp sl' S') (hgrow : Grows sl S sl' S')
    {f : ℕ → Client PutCall (Option (Bytes × Bytes))} (hf : f t = clientOf c before) :
    ∃ m' f', Represents cmp sl' S' m' ∧ f' t = clientOf c after ∧ (∀ t' ≠ t, f' t' = f t') ∧
      Serves (insertCall cmp) m f [] m' f' := by
  cases hc with
  | same r hS => exact ⟨m, f, hm.mono hwf hgrow hS, hf, fun _ _ => rfl, .nil⟩
  | present x hx heq hsl hS =>
    subst hsl hS
    have hpresent := m.insertIfAbsent_of_present c.value (hm.getWithKey_of_mem hx heq)
    have hanswer : (insertCall cmp m c).2 = conflictAnswer sl' x c.key c.value := by
      rw [insertCall, hpresent, conflictAnswer]
      by_cases hv : sl'.arena.valueAt x = c.value <;> simp [Arena.pairAt, hv]
    have hserve : Serves (insertCall cmp) m f [] _ _ := .serve t c .nil hf
    refine ⟨_, _, ?_, ?_, fun t' ht => Function.update_of_ne ht _ _, hserve⟩
    · rw [insertCall, hpresent]
      exact hm
    · rw [Function.update_self, hanswer]
      rfl
  | added node habs _ hS hpair =>
    have habs' := hm.getWithKey_of_absent habs
    have hserve : Serves (insertCall cmp) m f [] _ _ := .serve t c .nil hf
    refine ⟨_, _, hm.added hwf hgrow hS hpair habs', ?_,
      fun t' ht => Function.update_of_ne ht _ _, hserve⟩
    rw [Function.update_self, insertCall, (m.insertIfAbsent_of_absent c.value habs').1]
    rfl

theorem Settled.mono (h : Settled cmp sl S c r) (hwf : Wf cmp sl S) (hgrow : Grows sl S sl' S') :
    Settled cmp sl' S' c r := by
  obtain ⟨x, hx, heq, hr⟩ := h
  refine ⟨x, hgrow.subset 0 hx, ?_, ?_⟩
  · rw [hgrow.pos_mem hwf (Or.inr hx)]
    exact heq
  · rw [hr, conflictAnswer, conflictAnswer, hgrow.valueAt (hwf.alive hx)]

/-- The answer that a step settles agrees with the chain. -/
theorem Commit.settled (hc : Commit cmp sl S c sl' S' before after) (hwf : Wf cmp sl S)
    (hwf' : Wf cmp sl' S') (hgrow : Grows sl S sl' S')
    (hbefore : ∀ r, before = some r → Settled cmp sl S c r) (hafter : after = some r) :
    Settled cmp sl' S' c r := by
  cases hc with
  | same r' hS => exact (hbefore r hafter).mono hwf hgrow
  | present x hx heq hsl hS =>
    subst hsl hS
    exact ⟨x, hx, heq, (Option.some.inj hafter).symm⟩
  | added node _ _ hS hpair =>
    have hnode : node ∈ S' 0 := hS ▸ Finset.mem_insert_self _ _
    refine ⟨node, hnode, ?_, ?_⟩
    · rw [hwf'.pos_mem hnode, show sl'.arena.keyAt node = c.key from congrArg Prod.fst hpair]
    · rw [← Option.some.inj hafter, conflictAnswer, if_neg]
      exact not_not.2 (congrArg Prod.snd hpair)

/-! ### Linearizability -/

theorem client_afterPut (c : PutCall) (r : Iter PutPc (Option (Bytes × Bytes))) :
    (afterPut c r).client = clientOf c (outcome r) := by
  cases r <;> rfl

theorem ReadEnd.ne_inserted {it it' : IterRef} {q : ReadCall} {r : Ret}
    (h : ReadEnd cmp sl S it q it' r) (p : Option (Bytes × Bytes)) : r ≠ .inserted p := by
  cases q with
  | get | getWithKey | contains | lowerBound =>
    obtain ⟨-, o, -, rfl⟩ := h
    exact nofun
  | len | isEmpty =>
    obtain ⟨-, n, rfl⟩ := h
    exact nofun
  | seek | seekForPrev | seekToFirst | seekToLast | next | prev =>
    obtain ⟨rfl, -⟩ := h
    exact nofun

/-- One thread moves in the machine, and its client in the atomic map. -/
theorem Simulates.update {sl : SkipList} {th : Thread}
    {f f' : ℕ → Client PutCall (Option (Bytes × Bytes))}
    (hinv : Inv cmp mode writer (s.update sl t th) S') (hm : Represents cmp sl S' m)
    (hf : ∀ t, (∀ e, (s.threads t).pc ≠ .faulted e) → f t = (s.threads t).pc.client)
    (ht : (∀ e, th.pc ≠ .faulted e) → f' t = th.pc.client) (hother : ∀ t' ≠ t, f' t' = f t') :
    Simulates cmp mode writer (s.update sl t th) m f' := by
  refine ⟨S', hinv, hm, State.forall_update
    (P := fun t' th => (∀ e, th.pc ≠ .faulted e) → f' t' = th.pc.client) ht fun t' htt hpc => ?_⟩
  rw [hother t' htt]
  exact hf t' hpc

/-- **Every step is simulated by the atomic map.** -/
theorem Simulates.step {f : ℕ → Client PutCall (Option (Bytes × Bytes))}
    (hl : l.Allowed mode writer) (hsim : Simulates cmp mode writer s m f)
    (hstep : step s l = some s') :
    ∃ m' f', Simulates cmp mode writer s' m' f' ∧
      Serves (insertCall cmp) m f l.putEvent.toList m' f' := by
  obtain ⟨S, h, hm, hf⟩ := hsim
  obtain ⟨S', hmove⟩ := step_move h hstep
  have h' := hmove.inv h hl
  have hclient : ∀ {t pc}, (s.threads t).pc = pc → (∀ e, pc ≠ .faulted e) → f t = pc.client :=
    fun {t pc} hpc hne => by
      rw [hf t fun e => by rw [hpc]; exact hne e, hpc]
  cases hmove with
  | invoke t c hpc =>
    have hidle : f t = .idle := hclient hpc (by simp)
    cases c with
    | put c =>
      refine ⟨m, _, .update h' hm hf (fun _ => ?_) (fun t' ht => Function.update_of_ne ht _ _),
        .call t c .nil hidle⟩
      exact Function.update_self _ _ _
    | read q =>
      refine ⟨m, f, .update h' hm hf (fun _ => ?_) (fun _ _ => rfl), .nil⟩
      simp only [Call.start]
      split_ifs <;> exact hidle
  | search t weak c hpc =>
    have hft := hclient hpc (by simp)
    exact ⟨m, f, .update h' hm hf (fun _ => hft) (fun _ _ => rfl), .nil⟩
  | descend t weak q hpc =>
    have hft := hclient hpc (by simp)
    exact ⟨m, f, .update h' hm hf (fun _ => hft) (fun _ _ => rfl), .nil⟩
  | read t weak q p p' hpc _ _ =>
    have hft := hclient hpc (by simp)
    exact ⟨m, f, .update h' hm hf (fun _ => hft) (fun _ _ => rfl), .nil⟩
  | answer t weak q p it r hpc _ _ hend =>
    refine ⟨m, f, .update h' hm hf (fun _ => ?_) (fun _ _ => rfl), .nil⟩
    have hidle : f t = .idle := hclient hpc (by simp)
    cases r with
    | inserted r => exact absurd rfl (hend.ne_inserted r)
    | pair | value | flag | count => exact hidle
  | put t weak c pc sl S' r hpc hput =>
    obtain ⟨m', f', hm', hft, hother, hserves⟩ :=
      hput.commit.serves hm hput.wf hput.effects.grows (hclient hpc (by simp))
    refine ⟨m', f', .update h' hm' hf (fun _ => ?_) hother, hserves⟩
    rw [hft]
    exact (client_afterPut c r).symm
  | panic t weak c _ _ hpc =>
    exact ⟨m, f, .update h' hm hf (fun hne => absurd rfl (hne _)) (fun _ _ => rfl), .nil⟩
  | ret t r hpc =>
    have hft := hclient hpc (by simp)
    cases r with
    | inserted r =>
      refine ⟨m, _, .update h' hm hf (fun _ => ?_) (fun t' ht => Function.update_of_ne ht _ _),
        .answer t r .nil hft⟩
      exact Function.update_self _ _ _
    | pair | value | flag | count =>
      exact ⟨m, f, .update h' hm hf (fun _ => hft) (fun _ _ => rfl), .nil⟩

/-- **`put` is linearizable**: the history of the `put` calls of every run is one of the atomic
insert-if-absent map. -/
theorem put_linearizable {capacity : ℕ} (hcap : capacity ≤ 2 ^ 32)
    (hnew : SkipList.withCapacity cmp capacity mode = .ok sl) {ls : List Label}
    (hls : ∀ l ∈ ls, l.Allowed mode writer)
    (hexec : exec Concurrent.step (State.init sl) ls = some s) :
    Linearizable (insertCall cmp) .empty (ls.filterMap Label.putEvent) := by
  have hinit : Simulates cmp mode writer (State.init sl) .empty fun _ => .idle :=
    ⟨_, inv_init hcap hnew, (refines_withCapacity hnew).toRepresents, fun _ _ => rfl⟩
  have hstep : ∀ s l s' m f, l.Allowed mode writer → Simulates cmp mode writer s m f →
      Concurrent.step s l = some s' → ∃ m' f', Simulates cmp mode writer s' m' f' ∧
        Serves (insertCall cmp) m f l.putEvent.toList m' f' := fun s l s' m f hl hsim hstep =>
    hsim.step hl hstep
  obtain ⟨m, f, -, hserves⟩ := exec_serves hstep hls hinit hexec
  exact ⟨m, f, hserves⟩

/-! ### One call -/

theorem InPut.mono {pc : Pc} (h : InPut cmp sl S c pc) (hwf : Wf cmp sl S)
    (hgrow : Grows sl S sl' S') : InPut cmp sl' S' c pc := by
  cases pc with
  | idle | read => exact h.elim
  | loadHeight c' => cases c' <;> exact h
  | put c' pc => exact ⟨h.1, fun r hr => (h.2 r hr).mono hwf hgrow⟩
  | done r =>
    cases r with
    | inserted r => exact Settled.mono h hwf hgrow
    | pair | value | flag | count => exact h.elim
  | faulted e => trivial

/-- A move during a call of `put`. -/
theorem Move.inPut (hm : Move cmp s S l s' S') (h : Inv cmp mode writer s S)
    (hl : l.Within t) (hput : InPut cmp s.list S c (s.threads t).pc) :
    InPut cmp s'.list S' c (s'.threads t).pc := by
  rcases hl.cases with ht | ⟨weak, rfl⟩
  · rw [hm.other ht]
    exact hput.mono h.wf hm.grows
  cases hm with
  | search _ _ c' hpc =>
    rw [hpc] at hput
    simp only [State.setPc, State.update_self]
    exact ⟨hput, nofun⟩
  | descend _ _ q hpc | read _ _ q p p' hpc | answer _ _ q p it r hpc =>
    rw [hpc] at hput
    exact hput.elim
  | put _ _ c' pc sl S' r hpc hstep =>
    rw [hpc] at hput
    obtain ⟨rfl, hbefore⟩ := hput
    have hafter : ∀ r', outcome r = some r' → Settled cmp sl S' c' r' := fun r' hr' =>
      hstep.commit.settled h.wf hstep.wf hstep.effects.grows hbefore hr'
    rw [State.update_self]
    cases r with
    | next pc' => exact ⟨rfl, hafter⟩
    | done r => exact hafter r rfl
  | panic _ _ c' _ _ hpc =>
    simp only [State.setPc, State.update_self]
    trivial

/-- What is known at the end of a call of `put` that nothing interrupts. -/
theorem exec_inPut {ls : List Label} (h : Inv cmp mode writer s S)
    (hls : ∀ l ∈ ls, l.Allowed mode writer) (hwithin : ∀ l ∈ ls, l.Within t)
    (hput : InPut cmp s.list S c (s.threads t).pc) (hexec : exec step s ls = some s') :
    ∃ S', Inv cmp mode writer s' S' ∧ InPut cmp s'.list S' c (s'.threads t).pc :=
  run_induction (I := fun _ s' S' => InPut cmp s'.list S' c (s'.threads t).pc) h hput
    (fun _ _ _ _ _ _ hl _ h₁ hput hm _ => hm.inPut h₁ (hwithin _ hl) hput) hls hexec

/-! ### Where the nodes come from -/

/-- Every `put` in progress is one of the calls of the run, and every linked node holds the pair of
one. -/
structure Origin (ls : List Label) (s : State) (S : ℕ → Finset ℕ) : Prop where
  pending : ∀ t c, (s.threads t).pc = .loadHeight (.put c) → .invoke t (.put c) ∈ ls
  running : ∀ t c pc, (s.threads t).pc = .put c pc → .invoke t (.put c) ∈ ls
  linked : ∀ x ∈ S 0, ∃ t c, .invoke t (.put c) ∈ ls ∧ s.list.arena.pairAt x = (c.key, c.value)

/-- A move of one thread, which may link its node. -/
theorem Origin.update {ls : List Label} (ho : Origin ls s S) {th : Thread}
    (hpending : ∀ c, th.pc = .loadHeight (.put c) → .invoke t (.put c) ∈ ls ++ [l])
    (hrunning : ∀ c pc, th.pc = .put c pc → .invoke t (.put c) ∈ ls ++ [l])
    (hlinked : ∀ x ∈ S' 0, ∃ t c, .invoke t (.put c) ∈ ls ++ [l] ∧
      sl.arena.pairAt x = (c.key, c.value)) : Origin (ls ++ [l]) (s.update sl t th) S' := by
  refine ⟨?_, ?_, hlinked⟩
  · exact State.forall_update (P := fun t' th => ∀ c, th.pc = .loadHeight (.put c) →
      .invoke t' (.put c) ∈ ls ++ [l]) hpending fun t' _ c hpc =>
        List.mem_append_left _ (ho.pending t' c hpc)
  · exact State.forall_update (P := fun t' th => ∀ c pc, th.pc = .put c pc →
      .invoke t' (.put c) ∈ ls ++ [l]) hrunning fun t' _ c pc hpc =>
        List.mem_append_left _ (ho.running t' c pc hpc)

/-- A move that leaves the linked nodes alone. -/
theorem Origin.setThread {ls : List Label} (ho : Origin ls s S) {th : Thread}
    (hpending : ∀ c, th.pc = .loadHeight (.put c) → .invoke t (.put c) ∈ ls ++ [l])
    (hrunning : ∀ c pc, th.pc = .put c pc → .invoke t (.put c) ∈ ls ++ [l]) :
    Origin (ls ++ [l]) (s.update s.list t th) S :=
  ho.update hpending hrunning fun x hx => by
    obtain ⟨t', c, hmem, hpair⟩ := ho.linked x hx
    exact ⟨t', c, List.mem_append_left _ hmem, hpair⟩

theorem Move.origin {ls : List Label} (hm : Move cmp s S l s' S') (h : Inv cmp mode writer s S)
    (ho : Origin ls s S) : Origin (ls ++ [l]) s' S' := by
  cases hm with
  | invoke t c hpc =>
    refine ho.setThread ?_ ?_
    · intro c' hc'
      cases c with
      | put c => cases hc'; simp
      | read q =>
        simp only [Call.start] at hc'
        split_ifs at hc'
        cases hc'
    · intro c' pc hc'
      cases c with
      | put c => cases hc'
      | read q =>
        simp only [Call.start] at hc'
        split_ifs at hc'
  | search t weak c hpc =>
    refine ho.setThread (fun c' hc' => by cases hc') (fun c' pc hc' => ?_)
    cases hc'
    exact List.mem_append_left _ (ho.pending t c hpc)
  | put t weak c pc sl S' r hpc hstep =>
    have hcall := ho.running t c pc hpc
    have hgrow := hstep.effects.grows
    refine ho.update ?_ ?_ ?_
    · intro c' hpc'
      cases r <;> cases hpc'
    · intro c' pc' hpc'
      cases r with
      | next pc'' =>
        cases hpc'
        exact List.mem_append_left _ hcall
      | done r => cases hpc'
    · intro x hx
      -- the nodes that were linked before
      have hold : x ∈ S 0 → ∃ t' c', .invoke t' (.put c') ∈ ls ++ [Label.step t weak] ∧
          sl.arena.pairAt x = (c'.key, c'.value) := fun hx => by
        obtain ⟨t', c', hmem, hpair⟩ := ho.linked x hx
        exact ⟨t', c', List.mem_append_left _ hmem, (hgrow.pair x (h.wf.alive hx)).trans hpair⟩
      have hcommit := hstep.commit
      generalize outcome (.next pc) = before at hcommit
      generalize outcome r = after at hcommit
      cases hcommit with
      | same _ hS => exact hold (hS ▸ hx)
      | present _ _ _ _ hS => exact hold (hS ▸ hx)
      | added node _ _ hS hpair =>
        rw [hS, Finset.mem_insert] at hx
        rcases hx with rfl | hx
        · exact ⟨t, c, List.mem_append_left _ hcall, hpair⟩
        · exact hold hx
  | descend | read | answer | panic | ret =>
    exact ho.setThread (fun c' hc' => by cases hc') (fun c' pc hc' => by cases hc')

theorem exec_origin {ls : List Label} {capacity : ℕ} (hcap : capacity ≤ 2 ^ 32)
    (hnew : SkipList.withCapacity cmp capacity mode = .ok sl)
    (hls : ∀ l ∈ ls, l.Allowed mode writer) (hexec : exec step (State.init sl) ls = some s) :
    ∃ S, Inv cmp mode writer s S ∧ Origin ls s S :=
  run_induction (I := Origin) (inv_init hcap hnew)
    ⟨fun _ _ hpc => (by cases hpc), fun _ _ _ hpc => (by cases hpc), fun _ hx => by simp at hx⟩
    (fun _ _ _ _ _ _ _ _ h₁ ho hm _ => hm.origin h₁ ho) hls hexec

/-! ### Writers in concurrent mode -/

/-- The node `x` of the level-0 chain holds the key `key`. -/
def State.KeyAt (cmp : KeyComparator) (s : State) (key : Bytes) (x : ℕ) : Prop :=
  x ∈ s.list.chain 0 ∧ cmp.compareKey (s.list.arena.keyAt x) key = .eq

theorem Inv.keyAt_iff (h : Inv cmp mode writer s S) {key : Bytes} {x : ℕ} :
    s.KeyAt cmp key x ↔ x ∈ S 0 ∧ pos cmp s.list x = keyPos cmp key := by
  rw [State.KeyAt, h.wf.mem_chain_zero]
  constructor
  · rintro ⟨hx, heq⟩
    exact ⟨hx, (h.wf.compareKey_eq hx).1 heq⟩
  · rintro ⟨hx, heq⟩
    exact ⟨hx, (h.wf.compareKey_eq hx).2 heq⟩

/-- What the callers of `put` can rely on in the state `s` after the labels `ls`. -/
structure PutsLinearize (cmp : KeyComparator) [Std.TransCmp cmp.compareKey] (writer : ℕ)
    (sl : SkipList) (ls : List Label) (s : State) : Prop where
  /-- The history of `put` is one of an atomic insert-if-absent map. -/
  linearizable : Linearizable (insertCall cmp) .empty (ls.filterMap Label.putEvent)
  /-- After a `put` has returned `None`, its key has one node, with its value. -/
  inserted : ∀ before during after t c,
    ls = before ++ .invoke t (.put c) :: during ++ .ret t (.inserted none) :: after →
    (∀ l ∈ during, l.Within t) →
    ∃ x, (∀ y, s.KeyAt cmp c.key y ↔ y = x) ∧ s.list.arena.valueAt x = c.value
  /-- A `put` returns its pair only if a node for its key with another value was linked before. -/
  rejected : ∀ before during after t c p,
    ls = before ++ .invoke t (.put c) :: during ++ .ret t (.inserted (some p)) :: after →
    (∀ l ∈ during, l.Within t) →
    p = (c.key, c.value) ∧ ∃ s₁ x,
      exec step (State.init sl) (before ++ .invoke t (.put c) :: during) = some s₁ ∧
        s₁.KeyAt cmp c.key x ∧ s₁.list.arena.valueAt x ≠ c.value
  /-- A key has one node at most. -/
  unique : ∀ key x y, s.KeyAt cmp key x → s.KeyAt cmp key y → x = y
  /-- A node is linked by the level-0 compare-exchange of its `put`, when its key has none. -/
  first : ∀ l s', l.Allowed true writer → step s l = some s' →
    ∀ x, x ∈ s'.list.chain 0 → x ∉ s.list.chain 0 → ∃ t weak c sp, l = .step t weak ∧
      (s.threads t).pc = .put c (.linkCas sp x 0) ∧
      s'.list.arena.pairAt x = (c.key, c.value) ∧ ∀ y, ¬ s.KeyAt cmp c.key y
  /-- No node is unlinked. -/
  kept : ∀ ls' s', (∀ l ∈ ls', l.Allowed true writer) → exec step s ls' = some s' →
    s.list.chain 0 ⊆ s'.list.chain 0
  /-- Every linked node holds the pair of a call. -/
  origin : ∀ x ∈ s.list.chain 0, ∃ t c, .invoke t (.put c) ∈ ls ∧
    s.list.arena.pairAt x = (c.key, c.value)

/-- The answer of a call, from the state in which it is returned. -/
theorem exec_settled {capacity : ℕ} (hcap : capacity ≤ 2 ^ 32)
    (hnew : SkipList.withCapacity cmp capacity mode = .ok sl) {before during after : List Label}
    (hls : ∀ l ∈ before ++ .invoke t (.put c) :: during ++ .ret t (.inserted r) :: after,
      l.Allowed mode writer)
    (hexec : exec step (State.init sl)
      (before ++ .invoke t (.put c) :: during ++ .ret t (.inserted r) :: after) = some s)
    (hwithin : ∀ l ∈ during, l.Within t) :
    ∃ s₁ S₁, exec step (State.init sl) (before ++ .invoke t (.put c) :: during) = some s₁ ∧
      Inv cmp mode writer s₁ S₁ ∧ Settled cmp s₁.list S₁ c r ∧
      exec step s₁ (.ret t (.inserted r) :: after) = some s := by
  obtain ⟨s₁, hs₁, hafter⟩ := exec_append_eq_some.1 hexec
  obtain ⟨s₀, hs₀, hcall⟩ := exec_append_eq_some.1 hs₁
  obtain ⟨s₀', hinvoke, hduring⟩ := exec_cons_eq_some.1 hcall
  obtain ⟨S₀, h₀, -⟩ := exec_inv (inv_init hcap hnew)
    (fun l hl => hls l (List.mem_append_left _ (List.mem_append_left _ hl))) hs₀
  obtain ⟨hidle, rfl⟩ := step_invoke hinvoke
  have h₀' := (Move.invoke t (.put c) hidle).inv h₀ (hls _ (by simp))
  have hput : InPut cmp s₀.list S₀ c ((s₀.setPc t (.loadHeight (.put c))).threads t).pc := by
    simp only [State.setPc, State.update_self]
    rfl
  obtain ⟨S₁, h₁, hput₁⟩ := exec_inPut h₀' (fun l hl => hls l (by simp [hl])) hwithin hput hduring
  obtain ⟨s₂, hret, -⟩ := exec_cons_eq_some.1 hafter
  rw [(step_ret hret).1] at hput₁
  exact ⟨s₁, S₁, hs₁, h₁, hput₁, hafter⟩

/-- A new node on level 0 is the work of an exchange: the `put` of an absent key links it. -/
theorem Inv.linked_by_exchange (h : Inv cmp true writer s S) {l : Label} {x : ℕ}
    (hl : l.Allowed true writer) (hstep : step s l = some s') (hx : x ∈ s'.list.chain 0)
    (hx' : x ∉ s.list.chain 0) : ∃ t weak c sp, l = .step t weak ∧
      (s.threads t).pc = .put c (.linkCas sp x 0) ∧
      s'.list.arena.pairAt x = (c.key, c.value) ∧ ∀ y, ¬ s.KeyAt cmp c.key y := by
  obtain ⟨S', hm⟩ := step_move h hstep
  have h' := hm.inv h hl
  have hx₁ : x ∈ S' 0 := h'.wf.mem_chain_zero.1 hx
  have hx₀ : x ∉ S 0 := fun hx₀ => hx' (h.wf.mem_chain_zero.2 hx₀)
  cases hm with
  | put t weak c pc sl' S' r hpc hput =>
    obtain ⟨sp, rfl | rfl⟩ := hput.linker x hx₁ hx₀
    · have hcommit : Commit cmp s.list S c sl' S' none (outcome r) := hput.commit
      refine ⟨t, weak, c, sp, rfl, hpc, ?_⟩
      generalize outcome r = after at hcommit
      cases hcommit with
      | same _ hS => exact absurd (hS ▸ hx₁) hx₀
      | present _ _ _ _ hS => exact absurd (hS ▸ hx₁) hx₀
      | added node habs _ hS hpair =>
        rw [hS, Finset.mem_insert] at hx₁
        obtain rfl := hx₁.resolve_right hx₀
        refine ⟨hpair, fun y hy => ?_⟩
        obtain ⟨hy, heq⟩ := h.keyAt_iff.1 hy
        exact habs y hy heq
    · have hok := h.pc t
      rw [hpc] at hok
      have hmode := hok.2.1
      rw [h.mode_eq] at hmode
      cases hmode
  | invoke | search | descend | read | answer | panic | ret => exact absurd hx₁ hx₀

/-- **Concurrent `put` calls are atomic inserts**: along every run of any number of threads, no
write is lost or duplicated. -/
theorem concurrent_puts (cmp : KeyComparator) [Std.TransCmp cmp.compareKey] {capacity : ℕ}
    (hcap : capacity ≤ 2 ^ 32) {sl : SkipList}
    (hnew : SkipList.withCapacity cmp capacity true = .ok sl) {writer : ℕ} {ls : List Label}
    (hls : ∀ l ∈ ls, l.Allowed true writer) {s : State}
    (hexec : exec step (State.init sl) ls = some s) : PutsLinearize cmp writer sl ls s := by
  obtain ⟨S, h, horigin⟩ : ∃ S, Inv cmp true writer s S ∧ Origin ls s S :=
    exec_origin hcap hnew hls hexec
  have hunique : ∀ key x y, s.KeyAt cmp key x → s.KeyAt cmp key y → x = y := by
    intro key x y hx hy
    obtain ⟨hx, hxk⟩ := h.keyAt_iff.1 hx
    obtain ⟨hy, hyk⟩ := h.keyAt_iff.1 hy
    exact h.wf.inj hx hy (hxk.trans hyk.symm)
  refine ⟨put_linearizable hcap hnew hls hexec, ?_, ?_, hunique, ?_, ?_, fun x hx =>
    horigin.linked x (h.wf.mem_chain_zero.1 hx)⟩
  · intro before during after t c hsplit hwithin
    subst hsplit
    obtain ⟨s₁, S₁, -, h₁, hsettled, hafter⟩ := exec_settled hcap hnew hls hexec hwithin
    obtain ⟨S', h', hgrow⟩ := exec_inv h₁ (fun l hl => hls l (by simp at hl ⊢; tauto)) hafter
    obtain ⟨x, hx, hpos, hr⟩ := hsettled.mono h₁.wf hgrow
    refine ⟨x, fun y => ⟨fun hy => hunique c.key y x hy (h'.keyAt_iff.2 ⟨hx, hpos⟩), ?_⟩, ?_⟩
    · rintro rfl
      exact h'.keyAt_iff.2 ⟨hx, hpos⟩
    · by_contra hv
      rw [conflictAnswer, if_pos hv] at hr
      cases hr
  · intro before during after t c p hsplit hwithin
    subst hsplit
    obtain ⟨s₁, S₁, hs₁, h₁, ⟨x, hx, hpos, hr⟩, -⟩ := exec_settled hcap hnew hls hexec hwithin
    have hv : s₁.list.arena.valueAt x ≠ c.value := by
      intro hv
      rw [conflictAnswer, if_neg (not_not.2 hv)] at hr
      cases hr
    rw [conflictAnswer, if_pos hv] at hr
    exact ⟨Option.some.inj hr, s₁, x, hs₁, h₁.keyAt_iff.2 ⟨hx, hpos⟩, hv⟩
  · exact fun l s' hl hstep x hx hx' => h.linked_by_exchange hl hstep hx hx'
  · intro ls' s' hls' hexec'
    obtain ⟨S', h', hgrow⟩ := exec_inv h hls' hexec'
    exact hgrow.chain_subset h.wf h'.wf (by decide)

theorem concurrent_puts_race :
    ∃ sl, SkipList.withCapacity bytewiseComparator 1024 true = .ok sl ∧
      ∃ s, exec step (State.init sl) race = some s ∧
        PutsLinearize bytewiseComparator 0 sl race s := by
  obtain ⟨sl, hsl, s, hs⟩ := race_exec
  exact ⟨sl, hsl, s, hs, concurrent_puts bytewiseComparator (show 1024 ≤ 2 ^ 32 by decide) hsl
    race_allowed hs⟩

end Concurrent

end StoneDb
