import StoneDb.Checkpoint.Capture

/-!
# Calls of `wait`

What a call of `wait` has done when it returns, however the other threads interleave
(`wait_spec`): it has asked the hook once and returned what the decision says; unless that was to
proceed, it has been counted and has left the loop because it found the flag up, within the timeout
and with a `release_all` before it that no `reset` undid.

A test reads `waiting_count` to learn that its threads have come to the checkpoint, and then
inspects the captures: `all_counted` says what it may conclude.
-/

namespace StoneDb

namespace Checkpoint

namespace Capture

variable {σ T : Type} {c : Config σ T} {st : σ} {s s' : State σ T} {l : Label T}
  {ls before during : List (Label T)} {t : ℕ} {v : T} {d : Decision} {r : Option T}

/-- The steps of one thread. -/
def own (t : ℕ) (ls : List (Label T)) : List (Label T) := ls.filter fun l => l.thread = t

/-- What `wait` returns. -/
def result (v : T) : Decision → Option T
  | .captureAndBlock => some v
  | .blockWithoutCapture | .proceed => none

/-- The steps of a call of `wait`, up to `wait_for_release`. -/
def opening (t : ℕ) (v : T) : Decision → List (Label T)
  | .captureAndBlock => [.decide t v .captureAndBlock, .push t v]
  | .blockWithoutCapture => [.decide t v .blockWithoutCapture]
  | .proceed => [.decide t v .proceed]

/-- The steps of `wait_for_release` in the loop, with loads that find the flag down at `mss`. -/
def looping (t : ℕ) (mss : List UInt64) : List (Label T) := .enter t :: mss.map (.sleep t)

/-- The steps of a call of `wait`. -/
def waitSteps (t : ℕ) (v : T) (d : Decision) (mss : List UInt64) : List (Label T) :=
  opening t v d ++ if d.blocks then looping t mss ++ [.leave t] else []

/-- The last store to `released` was that of a `release_all`. -/
def Up (ls : List (Label T)) : Prop :=
  ∃ before u after, ls = before ++ .store u :: after ∧ ∀ w, .reset w ∉ after

/-- A call has taken these steps, and the decision `d` is that of the hook. -/
structure Begun (c : Config σ T) (st : σ) (t : ℕ) (v : T) (d : Decision) (steps : List (Label T))
    (before during : List (Label T)) : Prop where
  steps : own t during = steps
  asked : ∃ first rest, during = first ++ .decide t v d :: rest ∧
    d = (c.decide (c.replay st ((decided (before ++ .wait t v :: first)).map Prod.fst)).2 v).1

/-- A call has done what it is to do. -/
structure Waited (c : Config σ T) (st : σ) (t : ℕ) (v : T) (d : Decision)
    (before during : List (Label T)) : Prop where
  begun : ∃ mss, Begun c st t v d (waitSteps t v d mss) before during ∧
    ∀ ms ∈ mss, ms ≤ c.timeoutMs
  released : d.blocks = true → ∃ done rest, during = done ++ .leave t :: rest ∧
    Up (before ++ .wait t v :: done)

/-- The call of `wait` by `t` on `v` that is still going on, and what it has done. -/
def SinceCall (t : ℕ) (v : T) (ls : List (Label T))
    (P : List (Label T) → List (Label T) → Prop) : Prop :=
  ∃ before during, ls = before ++ .wait t v :: during ∧ P before during

/-- How a thread has come to where it is. -/
def Pc.Story (c : Config σ T) (st : σ) (t : ℕ) (ls : List (Label T)) : Pc T → Prop
  | .hook v => SinceCall t v ls fun _ during => own t during = []
  | .push v => SinceCall t v ls
      (Begun c st t v .captureAndBlock [.decide t v .captureAndBlock])
  | .enter r => ∃ v d, d.blocks = true ∧ r = result v d ∧
      SinceCall t v ls (Begun c st t v d (opening t v d))
  | .poll r => ∃ v d mss, d.blocks = true ∧ r = result v d ∧ (∀ ms ∈ mss, ms ≤ c.timeoutMs) ∧
      SinceCall t v ls (Begun c st t v d (opening t v d ++ looping t mss))
  | .ret r => ∃ v d, r = result v d ∧ SinceCall t v ls (Waited c st t v d)
  | .idle | .zero | .clear => True

@[simp] theorem own_append (t : ℕ) (ls ls' : List (Label T)) :
    own t (ls ++ ls') = own t ls ++ own t ls' := List.filter_append ..

theorem own_self (l : Label T) : own l.thread [l] = [l] := by simp [own]

theorem own_of_ne (h : t ≠ l.thread) : own t [l] = [] := by simp [own, Ne.symm h]

theorem SinceCall.concat {P P' : List (Label T) → List (Label T) → Prop}
    (h : SinceCall t v ls P) (hP : ∀ before during, ls = before ++ .wait t v :: during →
      P before during → P' before (during ++ [l])) : SinceCall t v (ls ++ [l]) P' := by
  obtain ⟨before, during, rfl, hbefore⟩ := h
  exact ⟨before, during ++ [l], by simp, hP before during rfl hbefore⟩

/-! ### The flag -/

theorem Up.concat (h : Up ls) (hl : ∀ w, l ≠ .reset w) : Up (ls ++ [l]) := by
  obtain ⟨before, u, after, rfl, hafter⟩ := h
  refine ⟨before, u, after ++ [l], by simp, fun w hw => ?_⟩
  rcases List.mem_append.1 hw with hw | hw
  · exact hafter w hw
  · exact hl w (List.mem_singleton.1 hw).symm

theorem Move.up (hm : Move c s l s') (h : s.released = true → Up ls) (hup : s'.released = true) :
    Up (ls ++ [l]) := by
  cases hm with
  | store t => exact ⟨ls, t, [], rfl, fun _ => List.not_mem_nil⟩
  | reset t => exact absurd hup Bool.false_ne_true
  | _ => exact (h hup).concat (by rintro _ ⟨⟩)

/-! ### The call -/

section

variable {steps : List (Label T)}

theorem Begun.concat (h : Begun c st t v d steps before during) :
    Begun c st t v d (steps ++ own t [l]) before (during ++ [l]) where
  steps := by rw [own_append, h.steps]
  asked := by
    obtain ⟨first, rest, rfl, hd⟩ := h.asked
    exact ⟨first, rest ++ [l], by simp, hd⟩

theorem Begun.other (h : Begun c st t v d steps before during) (hl : t ≠ l.thread) :
    Begun c st t v d steps before (during ++ [l]) := by
  have hconcat := h.concat (l := l)
  rwa [own_of_ne hl, List.append_nil] at hconcat

end

theorem Waited.other (h : Waited c st t v d before during) (hl : t ≠ l.thread) :
    Waited c st t v d before (during ++ [l]) where
  begun := by
    obtain ⟨mss, hbegun, hmss⟩ := h.begun
    exact ⟨mss, hbegun.other hl, hmss⟩
  released hblocks := by
    obtain ⟨done, rest, rfl, hup⟩ := h.released hblocks
    exact ⟨done, rest ++ [l], by simp, hup⟩

/-- The steps of the others change nothing about a call. -/
theorem Pc.Story.other {p : Pc T} (h : p.Story c st t ls) (hl : t ≠ l.thread) :
    p.Story c st t (ls ++ [l]) := by
  cases p with
  | idle | zero | clear => trivial
  | hook v =>
    refine h.concat fun before during _ hown => ?_
    rw [own_append, hown, own_of_ne hl]
    rfl
  | push v => exact SinceCall.concat h fun _ _ _ hbegun => hbegun.other hl
  | enter r =>
    obtain ⟨v, d, hblocks, hr, hcall⟩ := h
    exact ⟨v, d, hblocks, hr, hcall.concat fun _ _ _ hbegun => hbegun.other hl⟩
  | poll r =>
    obtain ⟨v, d, mss, hblocks, hr, hmss, hcall⟩ := h
    exact ⟨v, d, mss, hblocks, hr, hmss, hcall.concat fun _ _ _ hbegun => hbegun.other hl⟩
  | ret r =>
    obtain ⟨v, d, hr, hcall⟩ := h
    exact ⟨v, d, hr, hcall.concat fun _ _ _ hwaited => hwaited.other hl⟩

/-- The hook decides. -/
theorem Pc.Story.afterHook (h : (Pc.hook v).Story c st t ls)
    (hst : s.hook = (c.replay st ((decided ls).map Prod.fst)).2)
    (hd : d = (c.decide s.hook v).1) :
    (Pc.afterHook v d).Story c st t (ls ++ [.decide t v d]) := by
  have hbegun : SinceCall t v (ls ++ [.decide t v d]) (Begun c st t v d [.decide t v d]) := by
    refine h.concat fun before during hls hown => ⟨?_, during, [], rfl, ?_⟩
    · rw [own_append, hown]
      exact own_self (.decide t v d)
    · rw [← hls, ← hst, hd]
  cases hd' : d with
  | captureAndBlock => rwa [hd'] at hbegun
  | blockWithoutCapture =>
    rw [hd'] at hbegun
    exact ⟨v, .blockWithoutCapture, rfl, rfl, hbegun⟩
  | proceed =>
    rw [hd'] at hbegun
    refine ⟨v, .proceed, rfl, ?_⟩
    obtain ⟨before, during, hls, hbegun⟩ := hbegun
    exact ⟨before, during, hls, ⟨[], hbegun, by simp⟩, fun hblocks => Bool.noConfusion hblocks⟩

/-- One step of the thread itself. -/
theorem Move.story (hm : Move c s l s') (hup : s.released = true → Up ls)
    (hst : s.hook = (c.replay st ((decided ls).map Prod.fst)).2)
    (h : ∀ t, (s.pc t).Story c st t ls) (u : ℕ) : (s'.pc u).Story c st u (ls ++ [l]) := by
  by_cases hu : u = l.thread
  · subst hu
    have hown := h l.thread
    cases hm with
    | wait t v hpc =>
      rw [Label.thread, goto_pc_self]
      exact ⟨ls, [], rfl, rfl⟩
    | decide t v hpc =>
      rw [Label.thread, goto_pc_self]
      rw [Label.thread, hpc] at hown
      exact hown.afterHook hst rfl
    | push t v hpc =>
      rw [Label.thread, goto_pc_self]
      rw [Label.thread, hpc] at hown
      refine ⟨v, .captureAndBlock, rfl, rfl, SinceCall.concat hown fun _ _ _ hbegun => ?_⟩
      have hconcat := hbegun.concat (l := .push t v)
      rwa [show own t [Label.push t v] = [.push t v] from own_self _] at hconcat
    | enter t r hpc =>
      rw [Label.thread, goto_pc_self]
      rw [Label.thread, hpc] at hown
      obtain ⟨v, d, hblocks, hr, hcall⟩ := hown
      refine ⟨v, d, [], hblocks, hr, by simp, hcall.concat fun _ _ _ hbegun => ?_⟩
      have hconcat := hbegun.concat (l := .enter t)
      rwa [show own t [Label.enter t] = looping t [] from own_self (.enter t)] at hconcat
    | leave t r hpc hreleased =>
      rw [Label.thread, goto_pc_self]
      rw [Label.thread, hpc] at hown
      obtain ⟨v, d, mss, hblocks, hr, hmss, hcall⟩ := hown
      refine ⟨v, d, hr, hcall.concat fun before during hls hbegun => ⟨⟨mss, ?_, hmss⟩, fun _ => ?_⟩⟩
      · have hconcat := hbegun.concat (l := .leave t)
        rw [show own t [Label.leave t] = [.leave t] from own_self (.leave t)] at hconcat
        rwa [waitSteps, if_pos hblocks, ← List.append_assoc]
      · exact ⟨during, [], rfl, hls ▸ hup hreleased⟩
    | sleep t r ms hpc hdown hms =>
      rw [Label.thread, hpc] at hown ⊢
      obtain ⟨v, d, mss, hblocks, hr, hmss, hcall⟩ := hown
      refine ⟨v, d, mss ++ [ms], hblocks, hr, ?_, hcall.concat fun _ _ _ hbegun => ?_⟩
      · simpa [or_imp, forall_and] using ⟨hmss, hms⟩
      · have hconcat := hbegun.concat (l := .sleep t ms)
        rw [show own t [Label.sleep t ms] = [.sleep t ms] from own_self (.sleep t ms)] at hconcat
        rwa [looping, List.map_append, List.map_singleton, ← List.cons_append, ← looping,
          ← List.append_assoc]
    | timeOut | ret | store | zero | reset | clear =>
      rw [Label.thread, goto_pc_self]
      trivial
  · rw [hm.pc_of_ne hu]
    exact (h u).other hu

/-- **A call of `wait` that returns.**  Since it was made, its thread has taken exactly the steps of
`wait` for the decision of the hook on its value: the value returned is that value if the decision
was to capture, and none otherwise; a call that blocks has left the loop within the timeout, on a
load that came after the store of a `release_all` and before the next `reset`. -/
theorem wait_spec [DecidableEq T] (hrun : exec (step c) (new st) (ls ++ [.ret t r]) = some s) :
    ∃ before v d during, ls = before ++ .wait t v :: during ∧ r = result v d ∧
      Waited c st t v d before during := by
  obtain ⟨s₁, hs₁, hret⟩ := exec_concat_eq_some.1 hrun
  have hinv : (s₁.released = true → Up ls) ∧ ∀ t, (s₁.pc t).Story c st t ls := by
    refine exec_induction (I := fun ls s => (s.released = true → Up ls) ∧
      ∀ t, (s.pc t).Story c st t ls) (P := fun _ => True) ?_ ?_ (fun _ _ => trivial) hs₁
    · exact ⟨fun h => absurd h Bool.false_ne_true, fun _ => trivial⟩
    · intro ls s₁ l s₂ _ hs₁ h hl
      have hst : s₁.hook = (c.replay st ((decided ls).map Prod.fst)).2 := by
        rw [(captured hs₁).sequential]
      exact ⟨(step_move hl).up h.1, (step_move hl).story h.1 hst h.2⟩
  cases step_move hret with
  | ret t r hpc =>
    have hstory := hinv.2 t
    rw [hpc] at hstory
    obtain ⟨v, d, hr, before, during, hls, hwaited⟩ := hstory
    exact ⟨before, v, d, during, hls, hr, hwaited⟩

/-- A call that finds the flag down once, and then up. -/
theorem wait_spec_released : ∃ s : State Unit Bool, exec (step onTrue) (new ())
    ([.wait 0 true, .decide 0 true .captureAndBlock, .push 0 true, .enter 0, .sleep 0 1, .store 1,
      .leave 0] ++ [.ret 0 (some true)]) = some s ∧
    ∃ before v d during, [.wait 0 true, .decide 0 true .captureAndBlock, .push 0 true, .enter 0,
      .sleep 0 1, .store 1, .leave 0] = before ++ .wait 0 v :: during ∧
        some true = result v d ∧ Waited onTrue () 0 v d before during := by
  have hrun : (exec (step onTrue) (new ())
      ([.wait 0 true, .decide 0 true .captureAndBlock, .push 0 true, .enter 0, .sleep 0 1,
        .store 1, .leave 0] ++ [.ret 0 (some true)])).isSome = true := by decide
  obtain ⟨s, hs⟩ := Option.isSome_iff_exists.1 hrun
  exact ⟨s, hs, wait_spec hs⟩

/-! ### What the count shows -/

/-- A step of `wait`, other than the panic. -/
def Label.ofWait : Label T → Bool
  | .wait .. | .decide .. | .push .. | .enter .. | .leave .. | .sleep .. | .ret .. => true
  | .timeOut .. | .store .. | .zero .. | .reset .. | .clear .. => false

/-- The calls that block, if the hook decides as `f` does. -/
def blockingCalls (f : T → Decision) (ls : List (Label T)) : List (ℕ × T) :=
  (calls ls).filter fun x => (f x.2).blocks

/-- The threads that have been counted. -/
def entered (ls : List (Label T)) : List ℕ :=
  ls.filterMap fun
    | .enter t => some t
    | _ => none

/-- How far a thread is with its blocking calls `calls`, of which it has pushed `pushed` and been
counted `n` times, while nobody releases it. -/
inductive Pc.Waits (f : T → Decision) : Pc T → (calls pushed : List T) → (n : ℕ) → Prop
  | idle : Waits f .idle [] [] 0
  | proceed (v : T) : f v = .proceed → Waits f (.hook v) [] [] 0
  | hook (v : T) : (f v).blocks = true → Waits f (.hook v) [v] [] 0
  | push (v : T) : f v = .captureAndBlock → Waits f (.push v) [v] [] 0
  | enter (v : T) : (f v).blocks = true →
    Waits f (.enter (result v (f v))) [v] (result v (f v)).toList 0
  | poll (v : T) : (f v).blocks = true →
    Waits f (.poll (result v (f v))) [v] (result v (f v)).toList 1
  | ret : Waits f (.ret none) [] [] 0

@[simp] theorem blockingCalls_append (f : T → Decision) (ls ls' : List (Label T)) :
    blockingCalls f (ls ++ ls') = blockingCalls f ls ++ blockingCalls f ls' := by
  rw [blockingCalls, calls_append, List.filter_append]
  rfl

@[simp] theorem entered_append (ls ls' : List (Label T)) :
    entered (ls ++ ls') = entered ls ++ entered ls' := List.filterMap_append

/-- While nobody releases anyone. -/
structure Quiet (f : T → Decision) (ls : List (Label T)) (s : State σ T) : Prop where
  released : s.released = false
  waiting : s.waiting = (entered ls).length
  captures : s.captures = (pushed ls).map Prod.snd
  waits : ∀ t, (s.pc t).Waits f (byThread t (blockingCalls f ls)) (byThread t (pushed ls))
    ((entered ls).count t)

theorem quiet_new (f : T → Decision) (st : σ) : Quiet f [] (new st) :=
  ⟨rfl, rfl, rfl, fun _ => .idle⟩

/-- What a step of `wait` does to its thread. -/
theorem Move.waits {f : T → Decision} {B P : List T} {n : ℕ} (hm : Move c s l s')
    (hf : ∀ st v, (c.decide st v).1 = f v) (hl : l.ofWait = true) (hdown : s.released = false)
    (h : (s.pc l.thread).Waits f B P n) :
    (s'.pc l.thread).Waits f (B ++ byThread l.thread (blockingCalls f [l]))
      (P ++ byThread l.thread (pushed [l])) (n + (entered [l]).count l.thread) := by
  cases hm with
  | wait t v hpc =>
    rw [Label.thread, hpc] at h
    cases h
    cases hd : (f v).blocks with
    | true =>
      simpa [Label.thread, blockingCalls, calls, pushed, entered, byThread, hd] using
        Pc.Waits.hook v hd
    | false =>
      have hproceed : f v = .proceed := by
        cases hv : f v <;> simp_all [Decision.blocks]
      simpa [Label.thread, blockingCalls, calls, pushed, entered, byThread, hd] using
        Pc.Waits.proceed v hproceed
  | decide t v hpc =>
    rw [Label.thread, hpc] at h
    rw [Label.thread, goto_pc_self, hf]
    cases h with
    | proceed _ hproceed =>
      rw [hproceed]
      exact .ret
    | hook _ hblocks =>
      cases hv : f v with
      | captureAndBlock => exact .push v hv
      | blockWithoutCapture =>
        have hresult : result v (f v) = none := by rw [hv]; rfl
        have henter := Pc.Waits.enter (f := f) v hblocks
        rw [hresult] at henter
        exact henter
      | proceed =>
        rw [hv] at hblocks
        cases hblocks
  | push t v hpc =>
    rw [Label.thread, hpc] at h
    cases h with
    | push _ hv =>
      have hresult : result v (f v) = some v := by rw [hv]; rfl
      have henter := Pc.Waits.enter (f := f) v (by rw [hv]; rfl)
      rw [hresult] at henter
      simpa [Label.thread, blockingCalls, calls, pushed, entered, byThread] using henter
  | enter t r hpc =>
    rw [Label.thread, hpc] at h
    cases h with
    | enter v hblocks =>
      simpa [Label.thread, blockingCalls, calls, pushed, entered, byThread] using
        Pc.Waits.poll v hblocks
  | leave t r hpc hup => exact absurd (hup.symm.trans hdown) (by decide)
  | sleep t r ms hpc =>
    simpa [Label.thread, blockingCalls, calls, pushed, entered, byThread] using h
  | ret t r hpc =>
    rw [Label.thread, hpc] at h
    cases h with
    | ret =>
      simpa [Label.thread, blockingCalls, calls, pushed, entered, byThread] using Pc.Waits.idle
  | timeOut | store | zero | reset | clear => cases hl

theorem blockingCalls_of_ne (f : T → Decision) (h : t ≠ l.thread) :
    byThread t (blockingCalls f [l]) = [] ∧ (entered [l]).count t = 0 := by
  cases l with
  | wait u v =>
    refine ⟨?_, rfl⟩
    have hu : u ≠ t := Ne.symm h
    cases hv : (f v).blocks <;> simp [blockingCalls, calls, byThread, hv, hu]
  | enter u => exact ⟨rfl, List.count_eq_zero.2 fun ht => h (List.mem_singleton.1 ht)⟩
  | _ => exact ⟨rfl, rfl⟩

/-- What a step of `wait` does. -/
theorem Move.quiet {f : T → Decision} (hm : Move c s l s')
    (hf : ∀ st v, (c.decide st v).1 = f v) (hl : l.ofWait = true) (h : Quiet f ls s) :
    Quiet f (ls ++ [l]) s' where
  released := by
    cases hm with
    | store | reset => cases hl
    | _ => exact h.released
  waiting := by
    rw [entered_append, List.length_append]
    cases hm with
    | enter t r hpc => exact congrArg (· + 1) h.waiting
    | zero => cases hl
    | _ => exact h.waiting
  captures := by
    rw [pushed_append, List.map_append]
    cases hm with
    | push t v hpc => exact congrArg (· ++ [v]) h.captures
    | clear => cases hl
    | _ => exact h.captures.trans (List.append_nil _).symm
  waits t := by
    rw [blockingCalls_append, pushed_append, entered_append, byThread_append, byThread_append,
      List.count_append]
    by_cases ht : t = l.thread
    · rw [ht]
      exact hm.waits hf hl h.released (h.waits l.thread)
    · obtain ⟨hcalls, -, hpushed⟩ := byThread_of_ne ht
      obtain ⟨hblocking, hentered⟩ := blockingCalls_of_ne f ht
      rw [hblocking, hpushed, hentered, List.append_nil, List.append_nil, hm.pc_of_ne ht]
      exact h.waits t

theorem quiet [DecidableEq T] {f : T → Decision} (hf : ∀ st v, (c.decide st v).1 = f v)
    (hwaits : ∀ l ∈ ls, l.ofWait = true) (hrun : exec (step c) (new st) ls = some s) :
    Quiet f ls s :=
  exec_induction (I := Quiet f) (quiet_new f st)
    (fun _ _ _ _ hl _ h hstep => (step_move hstep).quiet hf hl h) hwaits hrun

theorem length_byThread (t : ℕ) (xs : List (ℕ × T)) :
    (byThread t xs).length = (xs.map Prod.fst).count t := by
  induction xs with
  | nil => rfl
  | cons x xs ih =>
    simp only [byThread, List.filterMap_cons, List.map_cons, List.count_cons] at ih ⊢
    by_cases hx : x.1 = t <;> simp [hx, ih]

theorem mem_byThread {xs : List (ℕ × T)} : v ∈ byThread t xs ↔ (t, v) ∈ xs := by
  simp [byThread]

theorem byThread_filter (q : T → Bool) (t : ℕ) (xs : List (ℕ × T)) :
    byThread t (xs.filter fun x => q x.2) = (byThread t xs).filter q := by
  induction xs with
  | nil => rfl
  | cons x xs ih =>
    simp only [byThread] at ih ⊢
    by_cases hx : x.1 = t <;> by_cases hq : q x.2 = true <;> simp [hx, hq, ih]

/-- Lists with the same values for every thread. -/
theorem perm_of_byThread [DecidableEq T] {xs ys : List (ℕ × T)}
    (h : ∀ t, byThread t xs = byThread t ys) : xs.Perm ys := by
  have hcount : ∀ (x : ℕ × T) (zs : List (ℕ × T)), zs.count x = (byThread x.1 zs).count x.2 := by
    intro x zs
    induction zs with
    | nil => rfl
    | cons z zs ih =>
      simp only [byThread, List.filterMap_cons, List.count_cons] at ih ⊢
      by_cases hz : z.1 = x.1 <;> simp [hz, ih, Prod.ext_iff, List.count_cons]
  exact List.perm_iff_count.2 fun x => by rw [hcount, hcount, h]

/-- A thread that has been counted for each of its blocking calls is in the loop of the last one. -/
theorem Pc.Waits.count_iff {f : T → Decision} {p : Pc T} {B P : List T} {n : ℕ}
    (h : p.Waits f B P n) : n ≤ B.length ∧
      (n = B.length ↔ ∀ v ∈ B, p = .poll (result v (f v))) ∧
      (n = B.length → P = B.filter fun v => f v = .captureAndBlock) := by
  cases h with
  | idle | proceed | ret => simp
  | hook | push | enter => simp
  | poll v hblocks =>
    refine ⟨le_rfl, by simp, fun _ => ?_⟩
    cases hv : f v <;> simp [result, hv]

/-- **What a test may conclude from `waiting_count`.**  The hook decides on the value alone, and so
far there were only `wait` calls, of which none has timed out.  Then the count has reached the
number of the calls that block exactly if all of these are in the loop; and if it has, the captures
are the values of the calls that capture. -/
theorem all_counted [DecidableEq T] {f : T → Decision} (hf : ∀ st v, (c.decide st v).1 = f v)
    (hwaits : ∀ l ∈ ls, l.ofWait = true) (hrun : exec (step c) (new st) ls = some s) :
    (s.waitingCount = (blockingCalls f ls).length ↔
      ∀ x ∈ blockingCalls f ls, s.pc x.1 = .poll (result x.2 (f x.2))) ∧
    (s.waitingCount = (blockingCalls f ls).length → s.captures.Perm
      (((calls ls).filter fun x => f x.2 = .captureAndBlock).map Prod.snd)) := by
  have h := quiet hf hwaits hrun
  have hcount : ∀ t, (entered ls).count t ≤ ((blockingCalls f ls).map Prod.fst).count t ∧
      ((entered ls).count t = ((blockingCalls f ls).map Prod.fst).count t ↔
        ∀ v, (t, v) ∈ blockingCalls f ls → s.pc t = .poll (result v (f v))) := by
    intro t
    obtain ⟨hle, hiff, -⟩ := (h.waits t).count_iff
    rw [length_byThread] at hle hiff
    simp only [mem_byThread] at hiff
    exact ⟨hle, hiff⟩
  -- the count is that of the calls exactly if it is for each thread
  have hwaiting : s.waitingCount = (blockingCalls f ls).length ↔
      ∀ t, (entered ls).count t = ((blockingCalls f ls).map Prod.fst).count t := by
    rw [State.waitingCount, h.waiting, ← List.length_map (f := Prod.fst), ← List.perm_iff_count]
    refine ⟨fun hlen => ?_, fun hperm => hperm.length_eq⟩
    exact (List.subperm_iff_count.2 fun t => (hcount t).1).perm_of_length_le hlen.ge
  refine ⟨?_, fun hlen => ?_⟩
  · rw [hwaiting, Prod.forall]
    exact forall_congr' fun t => (hcount t).2
  · rw [h.captures]
    refine List.Perm.map _ (perm_of_byThread fun t => ?_)
    obtain ⟨-, -, hpushed⟩ := (h.waits t).count_iff
    rw [hpushed (by rw [length_byThread]; exact hwaiting.1 hlen t), blockingCalls,
      byThread_filter (fun v => (f v).blocks), byThread_filter fun v => f v = .captureAndBlock,
      List.filter_filter]
    refine List.filter_congr fun v _ => ?_
    cases f v <;> rfl

/-- One of two calls blocks, and has been counted. -/
theorem all_counted_one : ∃ s : State Unit Bool, exec (step onTrue) (new ())
    [.wait 0 true, .wait 1 false, .decide 0 true .captureAndBlock, .push 0 true,
      .decide 1 false .proceed, .enter 0] = some s ∧
    s.waitingCount = 1 ∧ s.pc 0 = .poll (some true) ∧ s.captures.Perm [true] := by
  have hrun : (exec (step onTrue) (new ())
      [.wait 0 true, .wait 1 false, .decide 0 true .captureAndBlock, .push 0 true,
        .decide 1 false .proceed, .enter 0]).map State.waitingCount = some 1 := by decide
  obtain ⟨s, hs, hcount⟩ := Option.map_eq_some_iff.1 hrun
  obtain ⟨hiff, hcaptures⟩ := all_counted
    (f := fun v => if v then .captureAndBlock else .proceed) (fun _ v => by cases v <;> rfl)
    (by decide) hs
  exact ⟨s, hs, hcount, hiff.1 hcount (0, true) (by decide), hcaptures hcount⟩

end Capture

end Checkpoint

end StoneDb
