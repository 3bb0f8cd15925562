import StoneDb.Concurrent.Run
import StoneDb.SkipList.Reachable

/-!
# The chains between two atomic steps

With any number of writers, in every state of every run: each level is a finite sorted chain, a part
of the level below (`SkipList.Shape`); the list height only grows; no assertion of `put` fails; and
a node whose `put` has lost the race for its key stays out of every chain.  In all these states, as
after calls of `put` one after the other, `find_near` finds the nearest node (`findNear_correct`).

A block that no thread owns and that is linked nowhere is dead (`Dead`): only its owner could link
it, and only a block that is not reserved yet finds a new owner.
-/

namespace StoneDb

namespace Concurrent

open SkipList

variable {cmp : KeyComparator} [Std.TransCmp cmp.compareKey] {mode : Bool} {writer : ℕ}
  {s s' : State} {S S' : ℕ → Finset ℕ} {l : Label} {x : ℕ}

/-- A node that is linked on no level and owned by no thread. -/
structure Dead (s : State) (S : ℕ → Finset ℕ) (x : ℕ) : Prop where
  reserved : x < s.list.arena.len
  unowned : ∀ t, (s.threads t).pc.node ≠ some x
  unlinked : ∀ j, x ∉ S j

/-- A move that touches one thread and not the list. -/
theorem Dead.setThread (hd : Dead s S x) {t : ℕ} {th : Thread}
    (hnode : th.pc.node = none ∨ th.pc.node = (s.threads t).pc.node) :
    Dead (s.update s.list t th) S x := by
  refine ⟨hd.reserved, State.forall_update (P := fun _ th => th.pc.node ≠ some x) ?_ fun t' _ =>
    hd.unowned t', hd.unlinked⟩
  rcases hnode with hnode | hnode
  · simp [hnode]
  · rw [hnode]
    exact hd.unowned t

/-- **Dead nodes stay dead.** -/
theorem Move.dead (hm : Move cmp s S l s' S') (hd : Dead s S x) : Dead s' S' x := by
  cases hm with
  | invoke t c hpc =>
    refine hd.setThread (Or.inl ?_)
    cases c with
    | put c => rfl
    | read q =>
      simp only [Call.start]
      split_ifs <;> rfl
  | put t weak c pc sl S' r hpc hput =>
    have hunowned : pc.node ≠ some x := by
      have := hd.unowned t
      rwa [hpc] at this
    refine ⟨hd.reserved.trans_le hput.effects.grows.len,
      State.forall_update (P := fun _ th => th.pc.node ≠ some x) (fun hx => ?_) fun t' _ =>
        hd.unowned t', fun j hj => hd.unlinked j (hput.effects.mem x j hd.reserved hunowned hj)⟩
    -- a thread comes to own a block only when it reserves it
    cases r with
    | next pc' =>
      rcases hput.node pc' rfl x hx with hown | hle
      · exact hunowned hown
      · exact absurd hd.reserved (not_lt.2 hle)
    | done r => cases hx
  | search | descend | read | answer | panic | ret => exact hd.setThread (Or.inl rfl)

theorem exec_dead {ls : List Label} (h : Inv cmp mode writer s S)
    (hls : ∀ l ∈ ls, l.Allowed mode writer) (hexec : exec step s ls = some s') (hd : Dead s S x) :
    ∃ S', Inv cmp mode writer s' S' ∧ Dead s' S' x :=
  run_induction (I := fun _ s' S' => Dead s' S' x) h hd
    (fun _ _ _ _ _ _ _ _ _ hd hm _ => hm.dead hd) hls hexec

/-- When a `put` ends and its node is not linked, the node is dead. -/
theorem Inv.abandoned (h : Inv cmp mode writer s S) {t : ℕ} {c : PutCall} {pc : PutPc} {node : ℕ}
    (hpc : (s.threads t).pc = .put c pc) (hnode : pc.node = some node)
    (h' : Inv cmp mode writer s' S') {weak : Bool} (hm : Move cmp s S (.step t weak) s' S')
    {r : Ret} (hdone : (s'.threads t).pc = .done r) (hunlinked : node ∉ S' 0) :
    Dead s' S' node := by
  have hok := h.pc t
  have hown : (s.threads t).pc.node = some node := by
    rw [hpc]
    exact hnode
  rw [hpc] at hok
  refine ⟨(hok.2.node_lt h.wf hnode).trans_le hm.grows.len, fun t' hx => ?_,
    fun j hj => hunlinked (h'.wf.subset_zero j hj)⟩
  by_cases ht : t' = t
  · rw [ht, hdone] at hx
    cases hx
  · rw [hm.other ht] at hx
    exact ht (h.own t' t node hx hown)

/-- The list between two atomic steps of its writers. -/
structure State.Orderly (writer : ℕ) (s : State) : Prop where
  /-- Every level is a finite sorted chain, and part of the one below. -/
  shape : s.list.Shape
  /-- No call ends in another panic than that of the exhausted arena: not in an access outside a
  node, and not in the `assert_eq!` of `put`. -/
  panic : ∀ t e, (s.threads t).pc = .faulted e → e = .outOfMemory
  /-- The list height never decreases. -/
  height : ∀ ls s', (∀ l ∈ ls, l.Allowed true writer) → exec step s ls = some s' →
    s.list.height ≤ s'.list.height
  /-- A node that is not linked when its `put` ends is on no chain, then or later. -/
  abandoned : ∀ t weak c pc node s₁ r, (s.threads t).pc = .put c pc → pc.node = some node →
    step s (.step t weak) = some s₁ → (s₁.threads t).pc = .done r → node ∉ s₁.list.chain 0 →
    ∀ ls s', (∀ l ∈ ls, l.Allowed true writer) → exec step s₁ ls = some s' →
      ∀ l < maxHeight, node ∉ s'.list.chain l

/-- **Between any two atomic steps**, with any number of writers (and readers), the list is in
order. -/
theorem chains_between_steps (cmp : KeyComparator) [Std.TransCmp cmp.compareKey] {capacity : ℕ}
    (hcap : capacity ≤ 2 ^ 32) {sl : SkipList}
    (hnew : SkipList.withCapacity cmp capacity true = .ok sl) {writer : ℕ} {ls : List Label}
    (hls : ∀ l ∈ ls, l.Allowed true writer) {s : State}
    (hexec : exec step (State.init sl) ls = some s) : s.Orderly writer := by
  have hinit : Inv cmp true writer (State.init sl) fun _ => ∅ := inv_init hcap hnew
  obtain ⟨S, h, -⟩ := exec_inv hinit hls hexec
  refine ⟨h.wf.shape, ?_, ?_, ?_⟩
  · intro t e he
    have hok := h.pc t
    rwa [he] at hok
  · intro ls' s' hls' hexec'
    obtain ⟨S', -, hgrow⟩ := exec_inv h hls' hexec'
    exact hgrow.height
  · intro t weak c pc node s₁ r hpc hnode hstep hdone hout ls' s' hls' hexec' l hl hmem
    obtain ⟨S₁, hm⟩ := step_move h hstep
    have h₁ := hm.inv h trivial
    have hdead := h.abandoned hpc hnode h₁ hm hdone fun hx => hout (h₁.wf.mem_chain_zero.2 hx)
    obtain ⟨S', h', hdead'⟩ := exec_dead h₁ hls' hexec' hdead
    exact hdead'.unlinked l ((h'.wf.mem_chain hl).1 hmem)

/-- A race of two writers for one key.  Both search the empty list; the second one loses the
compare-exchange of the arena but wins that of level 0, before the first one, which raises the list
height, tries it. -/
def race : List Label :=
  [.invoke 0 (.put ⟨[1], [10], 1⟩), .invoke 1 (.put ⟨[1], [20], 0⟩),
    -- load the list height, search, load the pointer of the arena
    .step 0 false, .step 1 false, .step 0 false, .step 1 false, .step 0 false, .step 1 false,
    -- the second compare-exchange of the arena fails and is repeated
    .step 0 false, .step 1 false, .step 1 false, .step 1 false, .step 0 false, .step 1 false,
    -- raise the height, at the second attempt
    .step 0 true, .step 0 false,
    -- link on level 0
    .step 1 false, .step 0 false, .step 1 false, .step 0 false,
    -- search again, and find the key
    .step 0 false, .ret 0 (.inserted (some ([1], [10]))), .ret 1 (.inserted none)]

theorem race_allowed : ∀ l ∈ race, l.Allowed true 0 := by decide

theorem race_exec : ∃ sl, SkipList.withCapacity bytewiseComparator 1024 true = .ok sl ∧
    ∃ s, exec step (State.init sl) race = some s :=
  exists_exec (by decide +kernel)

theorem chains_between_steps_race :
    ∃ sl, SkipList.withCapacity bytewiseComparator 1024 true = .ok sl ∧
      ∃ s, exec step (State.init sl) race = some s ∧ s.Orderly 0 := by
  obtain ⟨sl, hsl, s, hs⟩ := race_exec
  exact ⟨sl, hsl, s, hs, chains_between_steps bytewiseComparator (show 1024 ≤ 2 ^ 32 by decide) hsl
    race_allowed hs⟩

/-! ### `find_near` -/

/-- The lists that calls of `put` build: one after the other, or interleaved. -/
inductive Built (cmp : KeyComparator) (capacity : ℕ) : SkipList → Prop
  | calls {mode : Bool} {sl : SkipList} (hsl : sl.Reachable cmp capacity mode PutCall.Valid) :
    Built cmp capacity sl
  | interleaved {mode : Bool} {writer : ℕ} {sl : SkipList} {ls : List Label} {s : State}
    (hnew : SkipList.withCapacity cmp capacity mode = .ok sl)
    (hls : ∀ l ∈ ls, l.Allowed mode writer) (hexec : exec step (State.init sl) ls = some s) :
    Built cmp capacity s.list

/-- **`find_near` finds the nearest node**, for all four combinations of its flags and every target,
and `lower_bound` agrees with it, on every list that calls of `put` build. -/
theorem findNear_correct (cmp : KeyComparator) [Std.TransCmp cmp.compareKey] {capacity : ℕ}
    (hcap : capacity ≤ 2 ^ 32) {sl : SkipList} (hsl : Built cmp capacity sl) (target : Bytes) :
    sl.NearCorrect target := by
  cases hsl with
  | calls hsl =>
    obtain ⟨-, S, m, hm, -⟩ := hsl.refines fun c hc => hc.storable hcap
    exact hm.wf.nearCorrect target
  | @interleaved mode writer sl ls s hnew hls hexec =>
    have hinit : Inv cmp mode writer (State.init sl) fun _ => ∅ := inv_init hcap hnew
    obtain ⟨S, h, -⟩ := exec_inv hinit hls hexec
    exact h.wf.nearCorrect target

theorem findNear_correct_race :
    ∃ sl, SkipList.withCapacity bytewiseComparator 1024 true = .ok sl ∧
      ∃ s, exec step (State.init sl) race = some s ∧ s.list.NearCorrect [1] := by
  obtain ⟨sl, hsl, s, hs⟩ := race_exec
  exact ⟨sl, hsl, s, hs, findNear_correct bytewiseComparator (show 1024 ≤ 2 ^ 32 by decide)
    (.interleaved hsl race_allowed hs) [1]⟩

end Concurrent

end StoneDb
