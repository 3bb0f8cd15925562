import StoneDb.Concurrent.Contention
import StoneDb.Lib.Amortized

/-!
# The stages of a `put`

A `put` among writers has to win the bump pointer of the arena once, the list height at most once,
and a slot on every level of its tower once: these are its stages (`Stage`).  Every win completes a
stage of one call for good (`PutMove.ahead`), so no stage is won more often than there are calls
(`exec_credit`).

`Scene` collects what is known between two steps of a run: how often each stage has been won, and
that this is at most once for every call that does not have the stage ahead of it.
-/

namespace StoneDb

namespace Concurrent

open SkipList

/-! ### Stages -/

/-- The compare-exchanges that a `put` has to win. -/
inductive Stage where
  /-- Reserve a block. -/
  | arena
  /-- Raise the list height. -/
  | height
  /-- Link the node at the level `i`. -/
  | level (i : ℕ)
  deriving DecidableEq

/-- The stage in which calls compete for a word. -/
def Word.stage : Word → Stage
  | .bump => .arena
  | .height => .height
  | .slot _ i => .level i

/-- The `put` may still win the stage `k`. -/
def PutPc.Ahead (k : Stage) : PutPc → Prop
  | .search .. | .alloc .. | .allocCas .. => True
  | .init .. | .raise .. => k ≠ .arena
  | .linkNext _ _ i | .linkCas _ _ i | .relink _ _ i _ => ∃ j, i ≤ j ∧ k = .level j
  | _ => False

/-- The thread is in a `put` that may still win the stage `k`. -/
def Pc.Ahead (k : Stage) : Pc → Prop
  | .loadHeight (.put _) => True
  | .put _ pc => pc.Ahead k
  | _ => False

/-- The wins of the stage `k` in a step. -/
def wins (k : Stage) (s : State) (l : Label) : ℕ :=
  match l.exchange s with
  | some (w, e) => if w.load s.list = e ∧ w.stage = k then 1 else 0
  | none => 0

/-- The calls of `put` that the labels start. -/
def putCalls (ls : List Label) : List PutCall := ls.filterMap Label.putCall

/-- What `f` grants the call that a label starts. -/
def granted (f : PutCall → ℕ) (l : Label) : ℕ := l.putCall.elim 0 f

variable {cmp : KeyComparator} [Std.TransCmp cmp.compareKey] {writer t : ℕ} {s s' s₀ : State}
  {sl sl' : SkipList} {S S' : ℕ → Finset ℕ} {l : Label} {c : PutCall} {pc pc' : PutPc} {w : Word}
  {e : Option ℕ} {sp : Splices} {i node before n : ℕ} {ls done : List Label} {k : Stage}
  {r : Iter PutPc (Option (Bytes × Bytes))}

theorem Wins.wins (h : Wins s l w) : wins w.stage s l = 1 := by
  simp only [Concurrent.wins, show l.exchange s = some (w, w.load s.list) from h, and_self, if_true]

theorem wins_eq_zero (h : ∀ w, w.stage = k → ¬ Wins s l w) : wins k s l = 0 := by
  unfold wins
  cases hex : l.exchange s with
  | none => rfl
  | some v =>
    obtain ⟨w, e⟩ := v
    refine if_neg ?_
    rintro ⟨rfl, hk⟩
    exact h w hk hex

theorem sum_granted (f : PutCall → ℕ) :
    (ls.map (granted f)).sum = ((putCalls ls).map f).sum := by
  induction ls with
  | nil => rfl
  | cons l ls ih =>
    simp only [List.map_cons, List.sum_cons, ih, granted, putCalls, List.filterMap_cons]
    cases l.putCall with
    | none => simp
    | some c => simp

theorem goOn_ahead (h : (afterPut c (goOn c sp node i)).Ahead k) : ∃ j, i ≤ j ∧ k = .level j := by
  unfold goOn at h
  split_ifs at h
  · exact h.elim
  · exact h

/-- **Stages are passed in order**: none comes back, and a win passes its own. -/
theorem PutMove.ahead (hm : PutMove cmp sl S c pc sl' S' r) :
    (∀ k, (afterPut c r).Ahead k → pc.Ahead k) ∧ ∀ w, pc.exchange = some (w, w.load sl) →
      pc.Ahead w.stage ∧ ¬ (afterPut c r).Ahead w.stage := by
  cases hm with
  | advance | descend | searched | load => exact ⟨fun _ _ => trivial, nofun⟩
  | found | conflict => exact ⟨fun _ h => h.elim, nofun⟩
  | point | readvance | resplice => exact ⟨fun _ => id, nofun⟩
  | reserve h s offset new =>
    refine ⟨fun _ _ => trivial, fun w hex => ?_⟩
    obtain ⟨rfl, -⟩ := exchange_holds hex
    exact ⟨trivial, fun hne => hne rfl⟩
  | reload h s current offset new hne =>
    exact ⟨fun _ _ => trivial, fun w hex => absurd (exchange_holds hex).2 hne⟩
  | init h s node =>
    refine ⟨fun k hk => ?_, nofun⟩
    split_ifs at hk
    · exact hk
    · obtain ⟨j, -, rfl⟩ := goOn_ahead hk
      exact nofun
  | raised s node =>
    refine ⟨fun k hk => ?_, fun w hex => ?_⟩
    · obtain ⟨j, -, rfl⟩ := goOn_ahead hk
      exact nofun
    · obtain ⟨rfl, -⟩ := exchange_holds hex
      refine ⟨nofun, fun hk => ?_⟩
      obtain ⟨j, -, hj⟩ := goOn_ahead hk
      cases hj
  | higher s node current hne =>
    exact ⟨fun _ => id, fun w hex => absurd (Option.some.inj (exchange_holds hex).2) hne⟩
  | overtaken s node current hne =>
    refine ⟨fun k hk => ?_, fun w hex => ?_⟩
    · obtain ⟨j, -, rfl⟩ := goOn_ahead hk
      exact nofun
    · exact absurd (Option.some.inj (exchange_holds hex).2) hne
  | link s node i hprev =>
    refine ⟨fun k hk => ?_, fun w hex => ?_⟩
    · obtain ⟨j, hj, rfl⟩ := goOn_ahead hk
      exact ⟨j, Nat.le_of_succ_le hj, rfl⟩
    · obtain ⟨rfl, -⟩ := exchange_holds hex
      refine ⟨⟨i, le_rfl, rfl⟩, fun hk => ?_⟩
      obtain ⟨j, hj, hi⟩ := goOn_ahead hk
      obtain rfl : i = j := Stage.level.inj hi
      omega
  | miss s node i hprev =>
    exact ⟨fun _ => id, fun w hex => absurd (Option.some.inj (exchange_holds hex).2) hprev⟩

/-! ### Counting wins -/

open Classical in
/-- The win of the stage `k` that a call may still have. -/
noncomputable def credit (k : Stage) (pc : Pc) : ℕ := if pc.Ahead k then 1 else 0

theorem credit_of_ahead {pc : Pc} (h : pc.Ahead k) : credit k pc = 1 := if_pos h

theorem credit_of_not {pc : Pc} (h : ¬ pc.Ahead k) : credit k pc = 0 := if_neg h

theorem credit_mono {pc pc' : Pc} (h : pc'.Ahead k → pc.Ahead k) : credit k pc' ≤ credit k pc := by
  by_cases hk : pc'.Ahead k
  · rw [credit_of_ahead hk, credit_of_ahead (h hk)]
  · rw [credit_of_not hk]
    exact Nat.zero_le _

theorem Pc.Ahead.inserting {pc : Pc} (h : pc.Ahead k) : pc.Inserting := by
  cases pc with
  | loadHeight c =>
    cases c with
    | put c => trivial
    | read q => exact h
  | put c pc => trivial
  | idle | read | done | faulted => exact h

/-- A call pays for its wins. -/
theorem Turn.credit (ht : Turn cmp s S l s' S') :
    credit k (s'.threads l.thread).pc + wins k s l ≤
      credit k (s.threads l.thread).pc + granted (fun _ => 1) l := by
  cases ht with
  | call t c hpc =>
    have hwins : wins k s (.invoke t (.put c)) = 0 := rfl
    have hidle : ¬ Pc.Ahead k .idle := id
    have hahead : Pc.Ahead k (.loadHeight (.put c)) := trivial
    simp only [Label.thread, State.setPc, State.update_self, hpc, hwins, credit_of_not hidle,
      credit_of_ahead hahead, granted, Label.putCall, Option.elim_some]
    omega
  | snapshot t c hpc =>
    have hwins : wins k s (.step t false) = 0 :=
      wins_eq_zero fun w _ hw => by simp [Wins, Label.exchange, hpc] at hw
    have hahead : Pc.Ahead k (.loadHeight (.put c)) := trivial
    have hahead' : Pc.Ahead k (.put c (.search s.list.height s.list.height
        (.start s.list.head s.list.height) s.list.head)) := trivial
    simp only [Label.thread, State.setPc, State.update_self, hpc, hwins, credit_of_ahead hahead,
      credit_of_ahead hahead']
    omega
  | put t c pc sl S' r hpc hm =>
    simp only [Label.thread, State.update_self, hpc]
    by_cases hwin : ∃ w, w.stage = k ∧ Wins s (.step t false) w
    · obtain ⟨w, rfl, hw⟩ := hwin
      have hex : pc.exchange = some (w, w.load s.list) := (exchange_put hpc).symm.trans hw
      obtain ⟨hahead, hpassed⟩ : Pc.Ahead w.stage (.put c pc) ∧ _ := hm.ahead.2 w hex
      rw [credit_of_not hpassed, credit_of_ahead hahead, hw.wins]
      omega
    · have hold : (afterPut c r).Ahead k → Pc.Ahead k (.put c pc) := hm.ahead.1 k
      rw [wins_eq_zero fun w hk hw => hwin ⟨w, hk, hw⟩]
      exact (credit_mono hold).trans (Nat.le_add_right _ _)
  | aside l th hex _ hth =>
    have hwins : wins k s l = 0 := wins_eq_zero fun w _ hw => by
      rw [Wins, hex] at hw
      cases hw
    have hnot : ¬ th.pc.Ahead k := fun hk => hth hk.inserting
    rw [State.update_self, credit_of_not hnot, hwins]
    omega

/-- Every step of a steady run among writers is a turn. -/
theorem takes_turn (h : Inv cmp true writer s₀ S) (hquiet : s₀.Quiet)
    (hls : ∀ l ∈ ls, l.Allowed true writer ∧ l.Steady) (htakes : Takes step s₀ ls done s l s') :
    ∃ S S', Inv cmp true writer s S ∧ Tracked s₀ done s ∧ Move cmp s S l s' S' ∧
      Turn cmp s S l s' S' := by
  have hdone : ∀ l ∈ done, l.Allowed true writer ∧ l.Steady := fun l' hl' =>
    hls l' (htakes.within.subset (List.mem_append_left _ hl'))
  obtain ⟨S₁, h₁, htracked⟩ := exec_tracked h hquiet hdone htakes.before
  obtain ⟨S₂, hm, ht⟩ := step_turn h₁ (hls l htakes.mem).2 htakes.step
  exact ⟨S₁, S₂, h₁, htracked, hm, ht⟩

/-- **No stage is won more often than there are calls**, and every call that has the stage ahead of
it accounts for one more win. -/
theorem exec_credit (h : Inv cmp true writer s₀ S) (hquiet : s₀.Quiet)
    (hls : ∀ l ∈ ls, l.Allowed true writer ∧ l.Steady) (hexec : exec step s₀ ls = some s)
    (k : Stage) {U : Finset ℕ} (hU : ∀ l ∈ ls, l.thread ∈ U) :
    spent step (wins k) s₀ ls + ∑ t ∈ U, credit k (s.threads t).pc ≤ (putCalls ls).length := by
  have hsum := spent_add_sum_le Label.thread (fun _ s t => credit k (State.threads s t).pc) (wins k)
    (fun _ l => granted (fun _ => 1) l)
    (fun htakes => by
      obtain ⟨S₁, S₂, -, -, -, ht⟩ := takes_turn h hquiet hls htakes
      exact ht.credit)
    (fun htakes hne => by
      obtain ⟨S₁, S₂, -, -, hm, -⟩ := takes_turn h hquiet hls htakes
      simp only [hm.other hne, le_refl]) hexec hU
  have hstart : ∑ t ∈ U, credit k (s₀.threads t).pc = 0 :=
    Finset.sum_eq_zero fun t _ => credit_of_not fun hk => hquiet t hk.inserting
  rw [hstart, zero_add, spent_eq_sum hexec, sum_granted] at hsum
  simpa using hsum

/-! ### Between two steps -/

/-- **Between two steps** of a run with `puts` calls of `put`, on a list that had at most `size`
nodes on a level: the stage `k` has been won `won k` times. -/
structure Scene (cmp : KeyComparator) [Std.TransCmp cmp.compareKey] (writer puts size : ℕ)
    (won : Stage → ℕ) (s : State) (S : ℕ → Finset ℕ) : Prop where
  inv : Inv cmp true writer s S
  /-- A call that has a stage ahead of it has not won it. -/
  lead : ∀ t k, (s.threads t).pc.Ahead k → won k + 1 ≤ puts
  /-- When a word is not what a call expects, its stage has been won. -/
  stale : ∀ t c pc w e, (s.threads t).pc = .put c pc → pc.Expects c w e → w.load s.list ≠ e →
    1 ≤ won w.stage
  /-- A node on a level is an old one, or linked by a win. -/
  card : ∀ i, (S i).card ≤ size + won (.level i)

theorem Turn.card (ht : Turn cmp s S l s' S') (i : ℕ) :
    (S' i).card ≤ (S i).card + wins (.level i) s l := by
  cases ht with
  | call | snapshot | aside => exact Nat.le_add_right _ _
  | put t c pc sl S' r hpc hm =>
    rcases hm.links with rfl | ⟨o, j, x, hex, rfl⟩
    · exact Nat.le_add_right _ _
    · have hwin : Wins s (.step t false) (.slot o j) := (exchange_put hpc).trans hex
      by_cases hij : i = j
      · subst hij
        have hone : wins (.level i) s (.step t false) = 1 := hwin.wins
        rw [Function.update_self, hone]
        exact Finset.card_insert_le _ _
      · rw [Function.update_of_ne hij]
        exact Nat.le_add_right _ _

theorem exec_card (h : Inv cmp true writer s₀ S)
    (hls : ∀ l ∈ ls, l.Allowed true writer ∧ l.Steady) (hexec : exec step s₀ ls = some s) :
    ∃ S', Inv cmp true writer s S' ∧
      ∀ i, (S' i).card ≤ (S i).card + spent step (wins (.level i)) s₀ ls :=
  turn_induction (I := fun ls _ S' => ∀ i, (S' i).card ≤ (S i).card +
      spent step (wins (.level i)) s₀ ls) h (fun _ => le_rfl)
    (fun hs _ hcard _ _ ht _ i => by
      have hturn := ht.card i
      have hbefore := hcard i
      rw [spent_concat hs]
      omega) hls hexec

theorem Beaten.won (h : Beaten s₀ ls t w) : 1 ≤ spent step (wins w.stage) s₀ ls := by
  obtain ⟨before, l, after, s₁, s₂, rfl, hs₁, -, hs₂, -, -, s', l', hperf, -, hwin⟩ := h
  have hexec : exec step s₀ (before ++ [l]) = some s₂ := exec_concat_eq_some.2 ⟨s₁, hs₁, hs₂⟩
  have hall : wins w.stage s' l' ≤ spent step (wins w.stage) s₀ _ :=
    (hperf.append hexec).cost_le_spent
  rw [hwin.wins] at hall
  simpa using hall

/-- **Every state of a steady run among writers is a scene.** -/
theorem exec_scene (h : Inv cmp true writer s₀ S) (hquiet : s₀.Quiet)
    (hls : ∀ l ∈ ls, l.Allowed true writer ∧ l.Steady) (hexec : exec step s₀ ls = some s) {puts : ℕ}
    (hputs : (putCalls ls).length ≤ puts) :
    ∃ S', Scene cmp writer puts (S 0).card (fun k => spent step (wins k) s₀ ls) s S' := by
  obtain ⟨S₁, h₁, hcard⟩ := exec_card h hls hexec
  obtain ⟨-, -, htracked⟩ := exec_tracked h hquiet hls hexec
  have hcredit : ∀ k (U : Finset ℕ), spent step (wins k) s₀ ls +
      ∑ t ∈ U, credit k (s.threads t).pc ≤ puts := by
    intro k U
    have hall := exec_credit h hquiet hls hexec k (U := U ∪ (ls.map Label.thread).toFinset)
      fun l hl => Finset.mem_union_right _ (List.mem_toFinset.2 (List.mem_map_of_mem hl))
    have hsub : U ⊆ U ∪ (ls.map Label.thread).toFinset := Finset.subset_union_left
    have hsum := Finset.sum_le_sum_of_subset (f := fun t => credit k (s.threads t).pc) hsub
    omega
  refine ⟨S₁, h₁, fun t k hk => ?_, fun t c pc w e hpc he hload => ?_, fun i => ?_⟩
  · simpa [credit_of_ahead hk] using hcredit k {t}
  · obtain ⟨before, l, after, s₁, s₂, hsplit, hs₁, hsees, hs₂, hlast, hin, hstate⟩ :=
      htracked t c pc w e hpc he
    exact Beaten.won ⟨before, l, after, s₁, s₂, hsplit, hs₁, hsees, hs₂, hlast, hin,
      hstate.resolve_left hload⟩
  · exact (hcard i).trans (Nat.add_le_add_right (Finset.card_le_card (h.wf.subset_zero i)) _)

/-- Every step of a steady run among writers is a turn from a scene to the next. -/
theorem takes_scene (h : Inv cmp true writer s₀ S) (hquiet : s₀.Quiet)
    (hls : ∀ l ∈ ls, l.Allowed true writer ∧ l.Steady) (htakes : Takes step s₀ ls done s l s') :
    ∃ S₁ S₂, Scene cmp writer (putCalls ls).length (S 0).card (fun k => spent step (wins k) s₀ done)
        s S₁ ∧
      Scene cmp writer (putCalls ls).length (S 0).card
        (fun k => spent step (wins k) s₀ (done ++ [l])) s' S₂ ∧
      Move cmp s S₁ l s' S₂ ∧ Turn cmp s S₁ l s' S₂ := by
  have hsub : ∀ l' ∈ done ++ [l], l'.Allowed true writer ∧ l'.Steady := fun l' hl' =>
    hls l' (htakes.within.subset hl')
  have hputs : (putCalls (done ++ [l])).length ≤ (putCalls ls).length :=
    (htakes.within.sublist.filterMap Label.putCall).length_le
  have hputs' : (putCalls done).length ≤ (putCalls ls).length :=
    (((List.prefix_append done [l]).trans htakes.within).sublist.filterMap
      Label.putCall).length_le
  obtain ⟨S₁, hscene⟩ := exec_scene h hquiet
    (fun l' hl' => hsub l' (List.mem_append_left _ hl')) htakes.before hputs'
  obtain ⟨S₂, hscene'⟩ := exec_scene h hquiet hsub htakes.after hputs
  obtain ⟨S', hm, ht⟩ := step_turn hscene.inv (hls l htakes.mem).2 htakes.step
  obtain rfl : S' = S₂ := (hm.inv hscene.inv (hls l htakes.mem).1).wf.unique hscene'.inv.wf
  exact ⟨S₁, S', hscene, hscene', hm, ht⟩

end Concurrent

end StoneDb
