import StoneDb.Concurrent.Potential
import Mathlib.Data.Set.Finite.Lattice
import Mathlib.Tactic.Ring

/-!
# Every `put` finishes

From a state in which no thread is in `put`, the calls of `put` that a schedule starts lose a
number of compare-exchanges, and make a number of steps, that only depend on the calls and the
length of the list (`exec_losses_le`, `exec_steps_le`).  So no schedule of finitely many calls goes
on forever; and as no step of `put` is ever blocked, every call comes to its end (`put_finishes`).
`Contention` says of every state why a compare-exchange fails there and where a search moves.
-/

namespace StoneDb

namespace Concurrent

open SkipList

/-- The tower slots that the calls link. -/
def slots (calls : List PutCall) : ℕ := (calls.map fun c => c.height + 1).sum

/-- The nodes on the levels of a list. -/
def links (sl : SkipList) (l : ℕ) : Finset ℕ := if l < maxHeight then (sl.chain l).toFinset else ∅

variable {cmp : KeyComparator} [Std.TransCmp cmp.compareKey] {writer t : ℕ}
  {s s' s₀ : State} {sl : SkipList} {S : ℕ → Finset ℕ} {ls : List Label}

theorem links_eq (h : Wf cmp sl S) : links sl = S := by
  funext l
  unfold links
  split_ifs with hl
  · ext x
    rw [List.mem_toFinset, h.mem_chain hl]
  · exact (h.above l (h.height_lt.trans_le (not_lt.1 hl))).symm

theorem sum_stages (calls : List PutCall) (m : ℕ) :
    (calls.map fun c => (c.height + 3) * m).sum = m * (slots calls + 2 * calls.length) := by
  unfold slots
  induction calls with
  | nil => rfl
  | cons c calls ih =>
    simp only [List.map_cons, List.sum_cons, List.length_cons, ih]
    ring

section

variable (h : Inv cmp true writer s₀ S) (hquiet : s₀.Quiet)
  (hls : ∀ l ∈ ls, l.Allowed true writer ∧ l.Steady) (hexec : exec step s₀ ls = some s)

include h hquiet hls hexec

/-- **The compare-exchanges that the calls of a run lose.** -/
theorem exec_losses_le : spent step losses s₀ ls ≤
    ((putCalls ls).length - 1) * (slots (putCalls ls) + 2 * (putCalls ls).length) := by
  have hsum := spent_add_sum_le Label.thread
    (fun done s t => (State.threads s t).pc.risk ((putCalls ls).length - 1)
      (room (putCalls ls).length fun k => spent step (wins k) s₀ done) s.list) losses
    (fun _ l => granted (fun c => (c.height + 3) * ((putCalls ls).length - 1)) l)
    (fun htakes => by
      obtain ⟨S₁, S₂, hs, hs', -, ht⟩ := takes_scene h hquiet hls htakes
      exact ht.risk hs hs' fun k => spent_concat htakes.before)
    (fun htakes hne => by
      obtain ⟨S₁, S₂, hs, hs', hm, ht⟩ := takes_scene h hquiet hls htakes
      exact ht.risk_other hs hs' (fun k => spent_concat htakes.before) hm hne)
    hexec fun l hl => List.mem_toFinset.2 (List.mem_map_of_mem hl)
  rw [Finset.sum_eq_zero fun t _ => risk_of_not_inserting (hquiet t), zero_add,
    spent_eq_sum hexec, sum_granted, sum_stages] at hsum
  exact (Nat.le_add_right _ _).trans hsum

/-- **The steps that the calls of a run make.** -/
theorem exec_steps_le : spent step putSteps s₀ ls ≤ 3 * spent step losses s₀ ls +
    ((putCalls ls).map (plainSteps ((S 0).card + (putCalls ls).length))).sum := by
  have hsum := spent_add_sum_le Label.thread
    (fun done s t => (State.threads s t).pc.effort cmp ((S 0).card + (putCalls ls).length)
      (room (putCalls ls).length fun k => spent step (wins k) s₀ done) s.list (links s.list))
    putSteps
    (fun s l => granted (plainSteps ((S 0).card + (putCalls ls).length)) l + 3 * losses s l)
    (fun htakes => by
      obtain ⟨S₁, S₂, hs, hs', -, ht⟩ := takes_scene h hquiet hls htakes
      rw [links_eq hs.inv.wf, links_eq hs'.inv.wf]
      exact ht.effort hs hs' fun k => spent_concat htakes.before)
    (fun htakes hne => by
      obtain ⟨S₁, S₂, hs, hs', hm, ht⟩ := takes_scene h hquiet hls htakes
      rw [links_eq hs.inv.wf, links_eq hs'.inv.wf]
      exact ht.effort_other hs hs' (fun k => spent_concat htakes.before) hm hne)
    hexec fun l hl => List.mem_toFinset.2 (List.mem_map_of_mem hl)
  rw [Finset.sum_eq_zero fun t _ => effort_of_not_inserting (hquiet t), zero_add, spent_add_mul,
    spent_eq_sum hexec, sum_granted] at hsum
  omega

end

/-! ### Schedules -/

/-- How many steps the calls can make, on a list of `size` nodes. -/
def stepBound (size : ℕ) (calls : List PutCall) : ℕ :=
  3 * ((calls.length - 1) * (slots calls + 2 * calls.length)) +
    (calls.map (plainSteps (size + calls.length))).sum

/-- The loop of `find_splice_for_level` that a thread is in: its level, and where it stands. -/
def Pc.searching : Pc → Option (ℕ × ℕ)
  | .put _ (.search _ i _ before) | .put _ (.splice _ _ i before)
  | .put _ (.relink _ _ i before) => some (i, before)
  | _ => none

/-- The state `s` that the schedule `ls` leads to from `s₀`, with the calls of `put` that it has
started. -/
structure Contention (s₀ : State) (ls : List Label) (s : State) : Prop where
  /-- No step of `put` is blocked. -/
  enabled : ∀ t, (s.threads t).pc.Inserting → ∃ s', step s (.step t false) = some s'
  /-- A lost compare-exchange has been won by another call since this one last saw the word. -/
  beaten : ∀ t weak w, Loses s (.step t weak) w → Beaten s₀ ls t w
  /-- That of the list height is lost to a greater height. -/
  raised : ∀ t c sp node current, (s.threads t).pc = .put c (.raise sp node current) →
    s.list.height ≠ current → current < s.list.height
  /-- Every level is a finite sorted chain. -/
  shape : s.list.Shape
  /-- A search that goes on along a level moves to the next node of the chain. -/
  forward : ∀ t s' i before after, (s.threads t).pc.searching = some (i, before) →
    step s (.step t false) = some s' → (s'.threads t).pc.searching = some (i, after) →
    after ∈ s.list.chain i ∧ [before, after] <:+: s.list.head :: (s.list.chain i ++ [0])
  /-- Every call loses at most one compare-exchange in each of its stages for every other call. -/
  losses_le : spent step losses s₀ ls ≤
    ((putCalls ls).length - 1) * (slots (putCalls ls) + 2 * (putCalls ls).length)
  steps_le : spent step putSteps s₀ ls ≤ stepBound (s₀.list.chain 0).length (putCalls ls)

/-- **Every `put` finishes**: no schedule of finitely many calls has infinitely many of their
steps. -/
structure State.PutsFinish (writer : ℕ) (s₀ : State) : Prop where
  finite : ∀ (schedule : ℕ → Label) (run : ℕ → State), run 0 = s₀ →
    (∀ n, (schedule n).Allowed true writer ∧ (schedule n).Steady) →
    (∀ n, step (run n) (schedule n) = some (run (n + 1))) →
    {n | ∃ t c, schedule n = .invoke t (.put c)}.Finite →
    {n | ∃ t weak, schedule n = .step t weak ∧ ((run n).threads t).pc.Inserting}.Finite
  contention : ∀ ls s, (∀ l ∈ ls, l.Allowed true writer ∧ l.Steady) →
    exec step s₀ ls = some s → Contention s₀ ls s

theorem card_zero_eq (h : Wf cmp sl S) : (S 0).card = (sl.chain 0).length := by
  rw [h.card_eq, SkipList.pairs, List.length_map]

/-- A thread in `put` can always make a step. -/
theorem inserting_enabled (hpc : (s.threads t).pc.Inserting) :
    ∃ s', step s (.step t false) = some s' := by
  have hadvance : ∃ r, (s.threads t).advance s.list false = some r := by
    unfold Thread.advance
    cases hpc' : (s.threads t).pc with
    | loadHeight c => cases c <;> exact ⟨_, rfl⟩
    | put c pc => exact ⟨_, rfl⟩
    | idle | read | done | faulted =>
      rw [hpc'] at hpc
      exact hpc.elim
  obtain ⟨r, hr⟩ := hadvance
  cases r with
  | error e => exact ⟨_, by simp only [step, hr]; rfl⟩
  | ok v => exact ⟨_, by simp only [step, hr]; rfl⟩

theorem searching_inserting {pc : Pc} {x : ℕ × ℕ} (h : pc.searching = some x) : pc.Inserting := by
  cases pc with
  | put c pc => trivial
  | idle | loadHeight | read | done | faulted => cases h

/-- A step of a search along a level ends it, or moves it to the next node. -/
theorem PutMove.searching {c : PutCall} {pc : PutPc} {sl' : SkipList} {S' : ℕ → Finset ℕ}
    {r : Iter PutPc (Option (Bytes × Bytes))} {i before after : ℕ}
    (hm : PutMove cmp sl S c pc sl' S' r) (hpc : PutOk cmp sl S c pc)
    (hbefore : (Pc.put c pc).searching = some (i, before))
    (hafter : (afterPut c r).searching = some (i, after)) :
    SearchAt cmp sl S c.key before i ∧ after = sl.arena.nextAt before i ∧ after ∈ S i := by
  cases hm with
  | advance h j s x hmem hlt =>
    obtain ⟨rfl, rfl⟩ := Prod.mk.inj (Option.some.inj hbefore)
    obtain ⟨-, rfl⟩ := Prod.mk.inj (Option.some.inj hafter)
    exact ⟨hpc.2.1, rfl, hmem⟩
  | readvance s node j x hmem hlt =>
    obtain ⟨rfl, rfl⟩ := Prod.mk.inj (Option.some.inj hbefore)
    obtain ⟨-, rfl⟩ := Prod.mk.inj (Option.some.inj hafter)
    exact ⟨hpc.2.2, rfl, hmem⟩
  | descend h j s x =>
    obtain ⟨rfl, -⟩ := Prod.mk.inj (Option.some.inj hbefore)
    obtain ⟨hj, -⟩ := Prod.mk.inj (Option.some.inj hafter)
    omega
  | found | searched | conflict | resplice => cases hafter
  | load | reserve | reload | init | raised | higher | overtaken | point | link | miss =>
    cases hbefore

/-- A search that goes on along a level follows its chain. -/
theorem search_forward (h : Inv cmp true writer s S) {i before after : ℕ}
    (hpc : (s.threads t).pc.searching = some (i, before))
    (hstep : step s (.step t false) = some s')
    (hpc' : (s'.threads t).pc.searching = some (i, after)) :
    after ∈ s.list.chain i ∧ [before, after] <:+: s.list.head :: (s.list.chain i ++ [0]) := by
  have hsteady : (Label.step t false).Steady := rfl
  obtain ⟨S', hm, ht⟩ := step_turn h hsteady hstep
  cases ht with
  | snapshot t c hload =>
    rw [hload] at hpc
    cases hpc
  | aside l th _ _ hth =>
    rw [Label.thread, State.update_self] at hpc'
    exact absurd (searching_inserting hpc') hth
  | put t c pc sl S' r hput hmove =>
    have hok := h.pc t
    rw [hput] at hok hpc
    rw [State.update_self] at hpc'
    obtain ⟨⟨hi, hmem, -⟩, rfl, hafter⟩ := hmove.searching hok.2 hpc hpc'
    refine ⟨(h.wf.mem_chain hi).2 hafter, (h.wf.spells_chain hi).infix_link ?_⟩
    exact List.mem_cons.2 (hmem.imp id (h.wf.mem_chain hi).2)

/-! ### The result -/

theorem putCall_eq_some {l : Label} {c : PutCall} (h : l.putCall = some c) :
    ∃ t, l = .invoke t (.put c) := by
  cases l with
  | invoke t c' =>
    cases c' with
    | put c' => exact ⟨t, by rw [Option.some.inj h]⟩
    | read q => cases h
  | step | ret => cases h

/-- After its last call, a schedule starts no more of them. -/
theorem putCalls_schedule {schedule : ℕ → Label} {m : ℕ}
    (hm : ∀ n, m ≤ n → (schedule n).putCall = none) (d : ℕ) :
    putCalls ((List.range (m + d)).map schedule) = putCalls ((List.range m).map schedule) := by
  induction d with
  | zero => rfl
  | succ d ih =>
    have hnone := hm (m + d) (Nat.le_add_right m d)
    rw [← Nat.add_assoc, List.range_succ, List.map_append, List.map_singleton, putCalls,
      List.filterMap_append, List.filterMap_cons_none hnone, List.filterMap_nil, List.append_nil]
    exact ih

/-- The bound on the steps, from the list that the run starts with. -/
theorem exec_stepBound (h : Inv cmp true writer s₀ S) (hquiet : s₀.Quiet)
    (hls : ∀ l ∈ ls, l.Allowed true writer ∧ l.Steady) (hexec : exec step s₀ ls = some s) :
    spent step putSteps s₀ ls ≤ stepBound (s₀.list.chain 0).length (putCalls ls) := by
  have hle := exec_steps_le h hquiet hls hexec
  have hlost := exec_losses_le h hquiet hls hexec
  rw [card_zero_eq h.wf] at hle
  unfold stepBound
  omega

/-- Finitely many calls make finitely many steps, in any schedule. -/
theorem schedule_finite {schedule : ℕ → Label} {run : ℕ → State}
    (h : Inv cmp true writer (run 0) S) (hquiet : (run 0).Quiet)
    (hallowed : ∀ n, (schedule n).Allowed true writer ∧ (schedule n).Steady)
    (hrun : ∀ n, step (run n) (schedule n) = some (run (n + 1)))
    (hcalls : {n | ∃ t c, schedule n = .invoke t (.put c)}.Finite) :
    {n | ∃ t weak, schedule n = .step t weak ∧ ((run n).threads t).pc.Inserting}.Finite := by
  obtain ⟨m, hm⟩ := hcalls.bddAbove
  have hnone : ∀ n, m + 1 ≤ n → (schedule n).putCall = none := by
    intro n hn
    by_contra hsome
    obtain ⟨c, hc⟩ := Option.ne_none_iff_exists'.1 hsome
    obtain ⟨t, ht⟩ := putCall_eq_some hc
    have := hm (show n ∈ {n | ∃ t c, schedule n = .invoke t (.put c)} from ⟨t, c, ht⟩)
    omega
  have hbound : ∀ n, m + 1 ≤ n → spent step putSteps (run 0) ((List.range n).map schedule) ≤
      stepBound ((run 0).list.chain 0).length (putCalls ((List.range (m + 1)).map schedule)) := by
    intro n hn
    obtain ⟨d, rfl⟩ := Nat.exists_eq_add_of_le hn
    rw [← putCalls_schedule hnone d]
    refine exec_stepBound h hquiet (fun l hl => ?_) (exec_schedule hrun _)
    obtain ⟨i, -, rfl⟩ := List.mem_map.1 hl
    exact hallowed i
  refine (finite_of_spent_le hrun hbound).subset ?_
  rintro n ⟨t, weak, hstep, hpc⟩
  have hone : putSteps (run n) (schedule n) = 1 := by rw [hstep, putSteps, if_pos hpc]
  exact hone.ge

/-- **Puts under contention always finish.**  On a list for concurrent writers, from any state in
which no call of `put` is in progress, every finite collection of calls makes finitely many steps in
any schedule; every compare-exchange that fails has been won by another call in the meantime; and
the number of failures is bounded by the tower slots that the calls link. -/
theorem put_finishes (cmp : KeyComparator) [Std.TransCmp cmp.compareKey] {capacity : ℕ}
    (hcap : capacity ≤ 2 ^ 32) {sl : SkipList}
    (hnew : SkipList.withCapacity cmp capacity true = .ok sl) {writer : ℕ} {before : List Label}
    (hbefore : ∀ l ∈ before, l.Allowed true writer) {s₀ : State}
    (hs₀ : exec step (State.init sl) before = some s₀) (hquiet : s₀.Quiet) :
    s₀.PutsFinish writer := by
  have hinit : Inv cmp true writer (State.init sl) fun _ => ∅ := inv_init hcap hnew
  obtain ⟨S₀, h₀, -⟩ := exec_inv hinit hbefore hs₀
  refine ⟨fun schedule run hrun₀ hallowed hrun hcalls => ?_, fun ls s hls hexec => ?_⟩
  · subst hrun₀
    exact schedule_finite h₀ hquiet hallowed hrun hcalls
  · obtain ⟨S, h, -⟩ := exec_tracked h₀ hquiet hls hexec
    refine ⟨fun t hpc => inserting_enabled hpc, fun t weak w hloses =>
      exec_beaten h₀ hquiet hls hexec hloses, fun t c sp node current hpc hne => ?_, h.wf.shape,
      fun t s' i x y hpc hstep hpc' => search_forward h hpc hstep hpc',
      exec_losses_le h₀ hquiet hls hexec, exec_stepBound h₀ hquiet hls hexec⟩
    have hexpects : (PutPc.raise sp node current).Expects c .height (some current) :=
      Or.inl ⟨rfl, rfl⟩
    exact lt_of_le_of_ne (exec_height_le h₀ hquiet hls hexec hpc hexpects) (Ne.symm hne)

/-- After a race of two writers, which has left an abandoned node behind. -/
theorem put_finishes_race : ∃ sl, SkipList.withCapacity bytewiseComparator 1024 true = .ok sl ∧
    ∃ s, exec step (State.init sl) race = some s ∧ s.list.memSize = 280 ∧ s.PutsFinish 0 := by
  have hend : ∃ sl, SkipList.withCapacity bytewiseComparator 1024 true = .ok sl ∧
      ∃ s, exec step (State.init sl) race = some s ∧ decide (s.list.memSize = 280 ∧
        ¬ (s.threads 0).pc.Inserting ∧ ¬ (s.threads 1).pc.Inserting) = true :=
    exists_exec_and (by decide +kernel)
  obtain ⟨sl, hsl, s, hs, hP⟩ := hend
  obtain ⟨hsize, hend₀, hend₁⟩ := of_decide_eq_true hP
  refine ⟨sl, hsl, s, hs, hsize, put_finishes bytewiseComparator (show 1024 ≤ 2 ^ 32 by decide) hsl
    race_allowed hs fun t => ?_⟩
  by_cases ht : t = 0 ∨ t = 1
  · rcases ht with rfl | rfl
    · exact hend₀
    · exact hend₁
  · -- only two threads have moved
    have hmoves : ∀ l ∈ race, l.thread = 0 ∨ l.thread = 1 := by decide
    have hinit : Inv bytewiseComparator true 0 (State.init sl) fun _ => ∅ :=
      inv_init (show 1024 ≤ 2 ^ 32 by decide) hsl
    have hstill : ∀ l ∈ race, t ≠ l.thread := fun l hl he => ht (by
      rw [he]
      exact hmoves l hl)
    rw [exec_other hinit race_allowed hstill hs]
    exact id

end Concurrent

end StoneDb
