import StoneDb.Concurrent.Alone
import StoneDb.Concurrent.Stages

/-!
# Readers leave no trace

A read loads and never stores.  So the moves of threads that only read can be left out of a run: the
others make the same moves, with the same answers, and the list comes out the same
(`readers_erased`).

With one writer nothing is left to interleave: whatever the readers do meanwhile, the list, down to
the layout of its arena, is what the `put` of `StoneDb.SkipList.Basic` makes of the calls one after
the other, with the same answers, and a panic comes where that `put` panics (`single_writer`).
-/

namespace StoneDb

namespace Concurrent

open SkipList

variable {cmp : KeyComparator} [Std.TransCmp cmp.compareKey] {mode : Bool} {writer t : ℕ}
  {s s' a : State} {S : ℕ → Finset ℕ} {l : Label} {ls : List Label} {sl new : SkipList}

/-! ### Threads that are not in `put` -/

/-- Not in `put`, nor about to return from it, nor panicked. -/
def Pc.Aside : Pc → Prop
  | .idle | .loadHeight (.read _) | .read .. => True
  | .done r => ∀ o, r ≠ .inserted o
  | .loadHeight (.put _) | .put .. | .faulted _ => False

theorem Pc.Aside.start (it : IterRef) (q : ReadCall) : (Call.start sl it (.read q)).Aside := by
  rw [Call.start]
  split_ifs <;> trivial

/-- A read does not answer as `put` does. -/
theorem ReadEnd.aside {it it' : IterRef} {q : ReadCall} {r : Ret}
    (h : ReadEnd cmp sl S it q it' r) : (Pc.done r).Aside := by
  intro o ho
  subst ho
  cases q with
  | get key | getWithKey key | contains key | lowerBound key =>
    obtain ⟨-, o', -, hr⟩ := h
    cases hr
  | len | isEmpty =>
    obtain ⟨-, n, hr⟩ := h
    cases hr
  | seek | seekForPrev | seekToFirst | seekToLast | next | prev =>
    obtain ⟨hr, -⟩ := h
    cases hr

/-- A move of such a thread leaves the list alone. -/
theorem Move.aside {S' : ℕ → Finset ℕ} (hm : Move cmp s S l s' S')
    (haside : (s.threads l.thread).pc.Aside) (hput : l.putCall = none) :
    s'.list = s.list ∧ (s'.threads l.thread).pc.Aside := by
  cases hm with
  | invoke t c hpc =>
    cases c with
    | put c => cases hput
    | read q =>
      rw [Label.thread, State.setPc, State.update_self]
      exact ⟨rfl, Pc.Aside.start _ q⟩
  | search t weak c hpc =>
    rw [Label.thread, hpc] at haside
    exact haside.elim
  | put t weak c pc sl S' r hpc =>
    rw [Label.thread, hpc] at haside
    exact haside.elim
  | panic t weak c h sp hpc =>
    rw [Label.thread, hpc] at haside
    exact haside.elim
  | answer t weak q p it r hpc hread hit hend =>
    rw [Label.thread, State.update_self]
    exact ⟨rfl, hend.aside⟩
  | descend | read | ret =>
    rw [Label.thread, State.setPc, State.update_self]
    exact ⟨rfl, trivial⟩

omit [Std.TransCmp cmp.compareKey] in
/-- A step depends on the list and on the thread that makes it. -/
theorem step_congr (hlist : a.list = s.list) (hthread : a.threads l.thread = s.threads l.thread)
    (hstep : step s l = some s') :
    step a l = some (a.update s'.list l.thread (s'.threads l.thread)) := by
  cases l with
  | invoke t c =>
    obtain ⟨hidle, rfl⟩ := step_invoke hstep
    rw [Label.thread] at hthread
    simp only [step, hthread, hidle, hlist, Label.thread, State.setPc, State.update_self,
      State.update_list]
  | ret t r =>
    obtain ⟨hdone, rfl⟩ := step_ret hstep
    rw [Label.thread] at hthread
    simp only [step, hthread, hdone, hlist, Label.thread, State.setPc, State.update_self,
      State.update_list, if_true]
  | step t weak =>
    rw [Label.thread] at hthread
    simp only [step] at hstep ⊢
    rw [hthread, hlist]
    cases hadv : (s.threads t).advance s.list weak with
    | none => simp [hadv] at hstep
    | some r =>
      cases r with
      | ok r | error e =>
        simp only [hadv, Option.some.injEq] at hstep
        subst hstep
        simp only [Label.thread, State.update_self, State.update_list]

/-! ### Leaving out the readers -/

/-- The list and the threads outside `R` are the same; those in `R` are not in `put`. -/
structure Erased (cmp : KeyComparator) [Std.TransCmp cmp.compareKey] (mode : Bool) (writer : ℕ)
    (R : ℕ → Prop) (s a : State) : Prop where
  inv : ∃ S, Inv cmp mode writer s S
  list : a.list = s.list
  threads : ∀ t, ¬ R t → a.threads t = s.threads t
  aside : ∀ t, R t → (s.threads t).pc.Aside

/-- One step: a reader's changes nothing for the others, and another's is the same without the
readers. -/
theorem Erased.step {R : ℕ → Prop} [DecidablePred R] (h : Erased cmp mode writer R s a)
    (hl : l.Allowed mode writer ∧ (R l.thread → l.putCall = none))
    (hstep : Concurrent.step s l = some s') :
    ∃ a', exec Concurrent.step a (if R l.thread then none else some l).toList = some a' ∧
      Erased cmp mode writer R s' a' := by
  obtain ⟨S, hinv⟩ := h.inv
  obtain ⟨S', hm⟩ := step_move hinv hstep
  have hinv' := hm.inv hinv hl.1
  by_cases hR : R l.thread
  · rw [if_pos hR]
    obtain ⟨hlist, haside⟩ := hm.aside (h.aside _ hR) (hl.2 hR)
    refine ⟨a, rfl, ⟨S', hinv'⟩, h.list.trans hlist.symm, fun t ht => ?_, fun t ht => ?_⟩
    · have hne : t ≠ l.thread := fun heq => ht (heq ▸ hR)
      rw [h.threads t ht, hm.other hne]
    · by_cases hne : t = l.thread
      · rwa [hne]
      · rw [hm.other hne]
        exact h.aside t ht
  · rw [if_neg hR]
    refine ⟨a.update s'.list l.thread (s'.threads l.thread), exec_cons_eq_some.2
      ⟨_, step_congr h.list (h.threads _ hR) hstep, rfl⟩, ⟨S', hinv'⟩, rfl, fun t ht => ?_,
      fun t ht => ?_⟩
    · by_cases hne : t = l.thread
      · rw [hne, State.update_self]
      · rw [State.update_of_ne hne, hm.other hne, h.threads t ht]
    · have hne : t ≠ l.thread := fun heq => hR (heq ▸ ht)
      rw [hm.other hne]
      exact h.aside t ht

/-- **Readers leave no trace.**  Let the threads `R` of a run never call `put`.  The run without
their moves is a run, too, and the list and the other threads end up as they do with them. -/
theorem readers_erased (cmp : KeyComparator) [Std.TransCmp cmp.compareKey] {capacity : ℕ}
    (hcap : capacity ≤ 2 ^ 32) {mode : Bool} {writer : ℕ} {sl : SkipList}
    (hnew : SkipList.withCapacity cmp capacity mode = .ok sl) {ls : List Label}
    (hls : ∀ l ∈ ls, l.Allowed mode writer) {R : ℕ → Prop} [DecidablePred R]
    (hread : ∀ l ∈ ls, R l.thread → l.putCall = none) {s : State}
    (hexec : exec step (State.init sl) ls = some s) :
    ∃ a, exec step (State.init sl) (ls.filter fun l => ¬ R l.thread) = some a ∧
      a.list = s.list ∧ ∀ t, ¬ R t → a.threads t = s.threads t := by
  have hinit : Erased cmp mode writer R (State.init sl) (State.init sl) :=
    ⟨⟨_, inv_init hcap hnew⟩, rfl, fun _ _ => rfl, fun _ _ => trivial⟩
  have hstep : ∀ s l s' a, l.Allowed mode writer ∧ (R l.thread → l.putCall = none) →
      Erased cmp mode writer R s a → step s l = some s' →
      ∃ a', exec step a (if R l.thread then none else some l).toList = some a' ∧
        Erased cmp mode writer R s' a' := fun _ _ _ _ hl h hs' => h.step hl hs'
  obtain ⟨a, ha, herased⟩ := exec_simulates hstep (fun l hl => ⟨hls l hl, hread l hl⟩) hinit hexec
  refine ⟨a, ?_, herased.list, herased.threads⟩
  have hfilter : ls.filterMap (fun l => if R l.thread then none else some l) =
      ls.filter fun l => ¬ R l.thread := by
    rw [← List.filterMap_eq_filter]
    refine List.filterMap_congr fun l _ => ?_
    by_cases hR : R l.thread <;> simp [hR, Option.guard]
  rwa [← hfilter]

/-- A `len` during a `put`, in single-writer mode. -/
def countedWhilePut : List Label :=
  .invoke 0 (.put ⟨[3], [], 0⟩) :: steps 0 4 ++ .invoke 1 (.read .len) :: steps 1 1 ++
    .ret 1 (.count 0) :: steps 0 4 ++ [.ret 0 (.inserted none)]

theorem readers_erased_len :
    ∃ sl s a, SkipList.withCapacity bytewiseComparator 600 false = .ok sl ∧
      exec step (State.init sl) countedWhilePut = some s ∧
      exec step (State.init sl) (countedWhilePut.filter fun l => ¬ l.thread = 1) = some a ∧
      a.list = s.list ∧ a.threads 0 = s.threads 0 := by
  obtain ⟨sl, hsl, s, hs⟩ : ∃ sl, SkipList.withCapacity bytewiseComparator 600 false = .ok sl ∧
      ∃ s, exec step (State.init sl) countedWhilePut = some s := exists_exec (by decide +kernel)
  have hls : ∀ l ∈ countedWhilePut, l.Allowed false 0 := by decide
  have hread : ∀ l ∈ countedWhilePut, l.thread = 1 → l.putCall.isNone := by decide
  obtain ⟨a, ha, hlist, hthreads⟩ := readers_erased bytewiseComparator
    (show 600 ≤ 2 ^ 32 by decide) hsl hls (R := fun t => t = 1)
    (fun l hl ht => Option.isNone_iff_eq_none.1 (hread l hl ht)) hs
  exact ⟨sl, s, a, hsl, hs, ha, hlist, hthreads 0 (by decide)⟩

/-! ### One writer -/

/-- The `put` of `StoneDb.SkipList.Basic`, for one call after the other. -/
def putAll (cs : List PutCall) : Prog (List (Option (Bytes × Bytes))) :=
  cs.mapM fun c => SkipList.put c.key c.value c.height

/-- The answers of the calls of `put`. -/
def putAnswers (ls : List Label) : List (Option (Bytes × Bytes)) :=
  ls.filterMap fun
    | .ret _ (.inserted r) => some r
    | _ => none

theorem putAll_concat_ok {cs : List PutCall} {c : PutCall} {rs : List (Option (Bytes × Bytes))}
    {r : Option (Bytes × Bytes)} {sl₁ sl₂ : SkipList} (hcs : putAll cs sl = .ok rs sl₁)
    (hc : SkipList.put c.key c.value c.height sl₁ = .ok r sl₂) :
    putAll (cs ++ [c]) sl = .ok (rs ++ [r]) sl₂ := by
  simp only [putAll] at hcs ⊢
  rw [List.mapM_append]
  refine bind_eq_ok.2 ⟨rs, sl₁, hcs, bind_eq_ok.2 ⟨[r], sl₂, ?_, rfl⟩⟩
  rw [List.mapM_cons, List.mapM_nil]
  exact bind_eq_ok.2 ⟨r, sl₂, hc, rfl⟩

theorem putAll_concat_error {cs : List PutCall} {c : PutCall}
    {rs : List (Option (Bytes × Bytes))} {e : Fault} {sl₁ sl₂ : SkipList}
    (hcs : putAll cs sl = .ok rs sl₁)
    (hc : SkipList.put c.key c.value c.height sl₁ = .error e sl₂) :
    putAll (cs ++ [c]) sl = .error e sl₂ := by
  simp only [putAll] at hcs ⊢
  simp only [List.mapM_append, List.mapM_cons, bind, EStateM.bind, hcs, hc]

/-- A step of a `put` is one on its way to the result, whether or not `compare_exchange_weak` fails
spuriously: the height is then compared again with what it was. -/
theorem Runs.step {c : PutCall} {R : EStateM.Result Fault SkipList (Option (Bytes × Bytes))}
    {pc : PutPc} (h : Runs c R sl pc)
    (hraise : ∀ s node current, pc = .raise s node current → current < c.height) (weak : Bool) :
    (∀ sl' r, putStep sl c weak pc = .ok (sl', r) → Leads c R sl' r) ∧
      ∀ e, putStep sl c weak pc = .error e → R = .error e sl := by
  have hfirm : (∀ sl' r, putStep sl c false pc = .ok (sl', r) → Leads c R sl' r) ∧
      ∀ e, putStep sl c false pc = .error e → R = .error e sl := by
    cases h with
    | next hput hruns =>
      rw [hput]
      refine ⟨fun sl' r h' => ?_, fun e h' => by cases h'⟩
      cases h'
      exact hruns
    | done hput hR =>
      rw [hput]
      refine ⟨fun sl' r h' => ?_, fun e h' => by cases h'⟩
      cases h'
      exact hR
    | panic hput hR =>
      rw [hput]
      refine ⟨fun sl' r h' => (by cases h'), fun e h' => ?_⟩
      cases h'
      exact hR
  cases weak with
  | false => exact hfirm
  | true =>
    have hstep : putStep sl c true pc = putStep sl c false pc ∨
        putStep sl c true pc = .ok (sl, .next pc) := by
      cases pc with
      | raise s node current =>
        have hlt := hraise s node current rfl
        by_cases hcas : sl.allowConcurrentWrite = true ∧ sl.height = current
        · obtain ⟨hmode, rfl⟩ := hcas
          right
          simp only [putStep, hmode, Bool.not_true, Bool.false_and, Bool.false_eq_true, if_true,
            if_false, hlt]
          rfl
        · left
          cases hmode : sl.allowConcurrentWrite with
          | false => simp only [putStep, hmode, Bool.false_eq_true, if_false]
          | true =>
            have hne : (sl.height == current) = false :=
              beq_eq_false_iff_ne.2 fun heq => hcas ⟨hmode, heq⟩
            simp only [putStep, hne, Bool.and_false, Bool.false_eq_true, if_false]
      | _ => exact Or.inl rfl
    rcases hstep with hstep | hstep
    · rwa [hstep]
    · rw [hstep]
      refine ⟨fun sl' r h' => ?_, fun e h' => by cases h'⟩
      cases h'
      exact h

/-- How far the writer is with the calls `cs`, of which the first have returned with `rs`. -/
inductive Writes (new : SkipList) : (cs : List PutCall) → (rs : List (Option (Bytes × Bytes))) →
    SkipList → Pc → Prop
  | aside {cs rs sl pc} : pc.Aside → putAll cs new = .ok rs sl → Writes new cs rs sl pc
  | called {cs c rs sl} : putAll cs new = .ok rs sl →
    Writes new (cs ++ [c]) rs sl (.loadHeight (.put c))
  | put {cs c rs sl₁ sl pc} : putAll cs new = .ok rs sl₁ →
    Runs c (SkipList.put c.key c.value c.height sl₁) sl pc →
    Writes new (cs ++ [c]) rs sl (.put c pc)
  | done {cs rs r sl} : putAll cs new = .ok (rs ++ [r]) sl →
    Writes new cs rs sl (.done (.inserted r))
  | panic {cs rs sl e} : putAll cs new = .error e sl → Writes new cs rs sl (.faulted e)

section

variable {cs : List PutCall} {rs : List (Option (Bytes × Bytes))} {pc : Pc}

theorem Writes.idle (h : Writes new cs rs sl .idle) : putAll cs new = .ok rs sl := by
  cases h with
  | aside _ hall => exact hall

theorem Writes.done_cases {r : Ret} (h : Writes new cs rs sl (.done r)) :
    ((Pc.done r).Aside ∧ putAll cs new = .ok rs sl) ∨
      ∃ o, r = .inserted o ∧ putAll cs new = .ok (rs ++ [o]) sl := by
  cases h with
  | aside hpc hall => exact Or.inl ⟨hpc, hall⟩
  | done hall => exact Or.inr ⟨_, rfl, hall⟩

theorem Writes.faulted {e : Fault} (h : Writes new cs rs sl (.faulted e)) :
    putAll cs new = .error e sl := by
  cases h with
  | aside hpc => exact hpc.elim
  | panic hall => exact hall

end

/-- A step of the writer. -/
theorem Writes.step {weak : Bool} {cs : List PutCall} {rs : List (Option (Bytes × Bytes))}
    (hinv : Inv cmp mode writer s S) (h : Writes new cs rs s.list (s.threads t).pc)
    (hstep : Concurrent.step s (.step t weak) = some s') :
    Writes new cs rs s'.list (s'.threads t).pc := by
  obtain ⟨S', hm⟩ := step_move hinv hstep
  generalize hpc : (s.threads t).pc = pc at h
  cases h with
  | aside haside hall =>
    obtain ⟨hlist, haside'⟩ := hm.aside (show (s.threads t).pc.Aside by rwa [hpc]) rfl
    rw [← hlist] at hall
    exact .aside haside' hall
  | @called _ c _ _ hall =>
    cases hm with
    | search _ _ c' hpc' =>
      obtain rfl : c' = c := by simpa [hpc] using hpc'.symm
      have hvalid : c'.Valid := by
        have hok := hinv.pc t
        rwa [hpc] at hok
      rw [State.setPc, State.update_self]
      exact .put hall
        (put_runs_result hinv.wf hvalid.height (sized_of_le hinv.capacity_le hvalid.size))
    | descend _ _ _ hpc' | read _ _ _ _ _ hpc' | answer _ _ _ _ _ _ hpc'
    | put _ _ _ _ _ _ _ hpc' | panic _ _ _ _ _ hpc' =>
      rw [hpc] at hpc'
      cases hpc'
  | @put cs c _ sl₁ _ pc hall hruns =>
    have hok := hinv.pc t
    rw [hpc] at hok
    obtain ⟨hnext, herror⟩ := hruns.step (fun sp node current hraise => by
      rw [hraise] at hok
      exact hok.2.2.1) weak
    simp only [Concurrent.step, Thread.advance, hpc] at hstep
    cases hput : putStep s.list c weak pc with
    | error e =>
      simp only [hput, bind, Except.bind, Option.some.injEq] at hstep
      subst hstep
      rw [State.update_self]
      exact .panic (putAll_concat_error hall (herror e hput))
    | ok r =>
      obtain ⟨sl', r⟩ := r
      have hleads := hnext sl' r hput
      cases r with
      | next pc' =>
        simp only [hput, bind, Except.bind, pure, Except.pure, Option.some.injEq] at hstep
        subst hstep
        rw [State.update_self]
        exact .put hall hleads
      | done o =>
        simp only [hput, bind, Except.bind, pure, Except.pure, Option.some.injEq] at hstep
        subst hstep
        rw [State.update_self]
        exact .done (putAll_concat_ok hall hleads)
  | done hall => simp [Concurrent.step, Thread.advance, hpc] at hstep
  | panic hall => simp [Concurrent.step, Thread.advance, hpc] at hstep

/-- Where the writer of a run is, with the others aside. -/
structure WriterAt (cmp : KeyComparator) [Std.TransCmp cmp.compareKey] (mode : Bool) (writer : ℕ)
    (new : SkipList) (ls : List Label) (s : State) : Prop where
  inv : ∃ S, Inv cmp mode writer s S
  writes : Writes new (putCalls ls) (putAnswers ls) s.list (s.threads writer).pc
  aside : ∀ t, t ≠ writer → (s.threads t).pc.Aside

/-- A label that neither starts a `put` nor returns from one. -/
theorem writes_concat (ls : List Label) (hput : l.putCall = none)
    (hret : ∀ t o, l ≠ .ret t (.inserted o)) :
    putCalls (ls ++ [l]) = putCalls ls ∧ putAnswers (ls ++ [l]) = putAnswers ls := by
  refine ⟨?_, ?_⟩
  · rw [putCalls, List.filterMap_append]
    simp [putCalls, hput]
  · rw [putAnswers, List.filterMap_append]
    refine (congrArg _ (List.filterMap_eq_nil_iff.2 fun l' hl' => ?_)).trans (List.append_nil _)
    obtain rfl := List.mem_singleton.1 hl'
    cases l' with
    | ret t r =>
      cases r with
      | inserted o => exact absurd rfl (hret t o)
      | _ => rfl
    | _ => rfl

/-- A move of the writer. -/
theorem WriterAt.own (h : WriterAt cmp mode writer new ls s) (hl : l.thread = writer)
    (hstep : step s l = some s') :
    Writes new (putCalls (ls ++ [l])) (putAnswers (ls ++ [l])) s'.list (s'.threads writer).pc := by
  have hwrites := h.writes
  cases l with
  | invoke t c =>
    obtain rfl : t = writer := hl
    obtain ⟨hidle, rfl⟩ := step_invoke hstep
    rw [State.setPc, State.update_self, State.update_list]
    rw [hidle] at hwrites
    cases c with
    | put c =>
      have hcalls : putCalls (ls ++ [.invoke t (.put c)]) = putCalls ls ++ [c] := by
        simp [putCalls, Label.putCall]
      have hanswers : putAnswers (ls ++ [.invoke t (.put c)]) = putAnswers ls := by
        simp [putAnswers]
      rw [hcalls, hanswers]
      exact .called hwrites.idle
    | read q =>
      obtain ⟨hcalls, hanswers⟩ := writes_concat ls (l := .invoke t (.read q)) rfl
        (by rintro _ _ ⟨⟩)
      rw [hcalls, hanswers]
      exact .aside (Pc.Aside.start _ q) hwrites.idle
  | ret t r =>
    obtain rfl : t = writer := hl
    obtain ⟨hdone, rfl⟩ := step_ret hstep
    rw [State.setPc, State.update_self, State.update_list]
    rw [hdone] at hwrites
    rcases hwrites.done_cases with ⟨haside, hall⟩ | ⟨o, rfl, hall⟩
    · obtain ⟨hcalls, hanswers⟩ := writes_concat ls (l := .ret t r) rfl
        (by rintro _ o ⟨⟩; exact haside o rfl)
      rw [hcalls, hanswers]
      exact .aside trivial hall
    · have hanswers : putAnswers (ls ++ [.ret t (.inserted o)]) = putAnswers ls ++ [o] := by
        simp [putAnswers]
      have hcalls : putCalls (ls ++ [.ret t (.inserted o)]) = putCalls ls := by
        simp [putCalls, Label.putCall]
      rw [hcalls, hanswers]
      exact .aside trivial hall
  | step t weak =>
    obtain rfl : t = writer := hl
    obtain ⟨S, hinv⟩ := h.inv
    obtain ⟨hcalls, hanswers⟩ := writes_concat ls (l := .step t weak) rfl
      (by rintro _ _ ⟨⟩)
    rw [hcalls, hanswers]
    exact hwrites.step hinv hstep

theorem WriterAt.concat (h : WriterAt cmp mode writer new ls s) (hl : l.Allowed mode writer)
    (honly : l.putCall ≠ none → l.thread = writer) (hstep : step s l = some s') :
    WriterAt cmp mode writer new (ls ++ [l]) s' := by
  obtain ⟨S, hinv⟩ := h.inv
  obtain ⟨S', hm⟩ := step_move hinv hstep
  have hinv' := hm.inv hinv hl
  by_cases hw : l.thread = writer
  · refine ⟨⟨S', hinv'⟩, h.own hw hstep, fun t ht => ?_⟩
    rw [hm.other (hw ▸ ht)]
    exact h.aside t ht
  · have hput : l.putCall = none := not_not.1 fun hput => hw (honly hput)
    have haside := h.aside _ hw
    obtain ⟨hlist, haside'⟩ := hm.aside haside hput
    have hret : ∀ t o, l ≠ .ret t (.inserted o) := by
      rintro t o rfl
      obtain ⟨hdone, -⟩ := step_ret hstep
      rw [Label.thread, hdone] at haside
      exact haside o rfl
    obtain ⟨hcalls, hanswers⟩ := writes_concat ls hput hret
    refine ⟨⟨S', hinv'⟩, ?_, fun t ht => ?_⟩
    · rw [hcalls, hanswers, hlist, hm.other (Ne.symm hw)]
      exact h.writes
    · by_cases hne : t = l.thread
      · rwa [hne]
      · rw [hm.other hne]
        exact h.aside t ht

/-- **One writer and any number of readers.**  In a run in which only `writer` calls `put`, the list
between two of its calls is the one that the `put` of `StoneDb.SkipList.Basic` builds from the calls
so far, with the same answers; and where the thread panics, that `put` panics, too. -/
theorem single_writer (cmp : KeyComparator) [Std.TransCmp cmp.compareKey] {capacity : ℕ}
    (hcap : capacity ≤ 2 ^ 32) {mode : Bool} {writer : ℕ} {sl : SkipList}
    (hnew : SkipList.withCapacity cmp capacity mode = .ok sl) {ls : List Label}
    (hls : ∀ l ∈ ls, l.Allowed mode writer)
    (honly : ∀ l ∈ ls, l.putCall ≠ none → l.thread = writer) {s : State}
    (hexec : exec step (State.init sl) ls = some s) :
    ((s.threads writer).pc = .idle → putAll (putCalls ls) sl = .ok (putAnswers ls) s.list) ∧
    ∀ e, (s.threads writer).pc = .faulted e → putAll (putCalls ls) sl = .error e s.list := by
  have hwriter : WriterAt cmp mode writer sl ls s := by
    refine exec_induction (I := WriterAt cmp mode writer sl)
      (P := fun l => l.Allowed mode writer ∧ (l.putCall ≠ none → l.thread = writer)) ?_
      (fun _ _ _ _ hl _ h hstep => h.concat hl.1 hl.2 hstep)
      (fun l hl => ⟨hls l hl, honly l hl⟩) hexec
    exact ⟨⟨_, inv_init hcap hnew⟩, .aside trivial rfl, fun _ _ => trivial⟩
  refine ⟨fun hidle => ?_, fun e hpanic => ?_⟩
  · have hwrites := hwriter.writes
    rw [hidle] at hwrites
    exact hwrites.idle
  · have hwrites := hwriter.writes
    rw [hpanic] at hwrites
    exact hwrites.faulted

theorem single_writer_len :
    ∃ sl s, SkipList.withCapacity bytewiseComparator 600 false = .ok sl ∧
      exec step (State.init sl) countedWhilePut = some s ∧
      putAll [⟨[3], [], 0⟩] sl = .ok [none] s.list := by
  obtain ⟨sl, hsl, s, hs⟩ : ∃ sl, SkipList.withCapacity bytewiseComparator 600 false = .ok sl ∧
      ∃ s, exec step (State.init sl) countedWhilePut = some s := exists_exec (by decide +kernel)
  have hls : ∀ l ∈ countedWhilePut, l.Allowed false 0 := by decide
  have honly : ∀ l ∈ countedWhilePut, l.putCall.isSome → l.thread = 0 := by decide
  have hidle : (s.threads 0).pc = .idle := by
    obtain ⟨s₁, -, hret⟩ := exec_concat_eq_some.1 hs
    obtain ⟨-, rfl⟩ := step_ret hret
    rw [State.setPc, State.update_self]
  obtain ⟨hput, -⟩ := single_writer bytewiseComparator (show 600 ≤ 2 ^ 32 by decide) hsl hls
    (fun l hl hput => honly l hl (Option.isSome_iff_ne_none.2 hput)) hs
  exact ⟨sl, s, hsl, hs, hput hidle⟩

end Concurrent

end StoneDb
