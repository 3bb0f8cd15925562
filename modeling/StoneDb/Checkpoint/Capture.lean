import StoneDb.Checkpoint.Blocking
import Mathlib.Data.List.Perm.Subperm

/-!
# Captures

A whole `Checkpoint`: `wait` asks the hook about its value, stores a clone of it if the hook says
so, and blocks until a `release_all`; `reset` drops what was stored.  `Capture.step` is the machine
with one step for each access to shared memory, for any number of threads and any hook.

* `simulates_blocking` : with the hook and the captures forgotten, it is the machine of
  `StoneDb.Checkpoint.Blocking`,
* `captured` : the hook is asked about one value after the other, and the captures are the values
  that it wanted and that were pushed since the last `reset`.
-/

namespace StoneDb

namespace Checkpoint

namespace Capture

/-- The arguments of `Checkpoint::new`, and the `Debug` implementation of the values. -/
structure Config (σ T : Type) where
  /-- `name`. -/
  name : String
  /-- `timeout_ms`. -/
  timeoutMs : UInt64
  /-- `hook`, a closure with the state `σ`. -/
  hook : Option (σ → String → Decision × σ)
  /-- `format!("{:?}", _)`. -/
  debug : T → String

/-- Where a thread is. -/
inductive Pc (T : Type) where
  /-- In none of the operations. -/
  | idle
  /-- `wait`: before the call of the hook. -/
  | hook (v : T)
  /-- `wait`: before `push`. -/
  | push (v : T)
  /-- `wait_for_release`: before the increment of `waiting`.  `wait` will return `r`. -/
  | enter (r : Option T)
  /-- `wait_for_release`: in the loop. -/
  | poll (r : Option T)
  /-- `wait`: before the return. -/
  | ret (r : Option T)
  /-- `release_all`: before the count reset. -/
  | zero
  /-- `reset`: before `clear`. -/
  | clear
  deriving DecidableEq

/-- A checkpoint and the threads that use it. -/
structure State (σ T : Type) where
  /-- `released`. -/
  released : Bool
  /-- `waiting`. -/
  waiting : ℕ
  /-- `captures`. -/
  captures : List T
  /-- The state of the hook. -/
  hook : σ
  /-- The threads. -/
  pc : ℕ → Pc T

/-- A step of a thread, with the values that it meets. -/
inductive Label (T : Type) where
  /-- `wait`: the call, up to `provide_value`. -/
  | wait (t : ℕ) (v : T)
  /-- `wait`: the hook decides. -/
  | decide (t : ℕ) (v : T) (d : Decision)
  /-- `wait`: a clone of the value is stored. -/
  | push (t : ℕ) (v : T)
  /-- `wait_for_release`: the increment of `waiting`. -/
  | enter (t : ℕ)
  /-- A load of `released` that finds the flag up. -/
  | leave (t : ℕ)
  /-- A load that finds it down, `ms` milliseconds after the start of the loop. -/
  | sleep (t : ℕ) (ms : UInt64)
  /-- The same after the timeout: the panic. -/
  | timeOut (t : ℕ) (ms : UInt64) (message : String)
  /-- `wait` returns. -/
  | ret (t : ℕ) (r : Option T)
  /-- `release_all`: the store to `released`. -/
  | store (t : ℕ)
  /-- `release_all`: the count reset. -/
  | zero (t : ℕ)
  /-- `reset`: the store to `released`. -/
  | reset (t : ℕ)
  /-- `reset`: `clear`. -/
  | clear (t : ℕ)
  deriving DecidableEq

/-- The thread that takes the step. -/
def Label.thread {T : Type} : Label T → ℕ
  | .wait t _ | .decide t _ _ | .push t _ | .enter t | .leave t | .sleep t _ | .timeOut t _ _
  | .ret t _ | .store t | .zero t | .reset t | .clear t => t

variable {σ T : Type}

/-- `new`: nothing captured, nobody there. -/
def new (st : σ) : State σ T := ⟨false, 0, [], st, fun _ => .idle⟩

/-- The thread is at `p`. -/
def State.goto (s : State σ T) (t : ℕ) (p : Pc T) : State σ T :=
  { s with pc := Function.update s.pc t p }

/-- `waiting_count`. -/
def State.waitingCount (s : State σ T) : ℕ := s.waiting

/-- What the hook decides about a value, and its state after it. -/
def Config.decide (c : Config σ T) (st : σ) (v : T) : Decision × σ :=
  match c.hook with
  | some h => h st (c.debug v)
  | none => (.blockWithoutCapture, st)

/-- The text of the panic. -/
def Config.timeOutMessage (c : Config σ T) : String :=
  "Checkpoint '" ++ c.name ++ "' timed out after " ++ toString c.timeoutMs.toNat ++
    "ms - likely missing release_all() in test"

/-- The `match` on the decision. -/
def Pc.afterHook (v : T) : Decision → Pc T
  | .captureAndBlock => .push v
  | .blockWithoutCapture => .enter none
  | .proceed => .ret none

/-- One step; `none` if the thread is not there. -/
def step [DecidableEq T] (c : Config σ T) (s : State σ T) : Label T → Option (State σ T)
  | .wait t v => if s.pc t = .idle then some (s.goto t (.hook v)) else none
  | .decide t v d =>
    if s.pc t = .hook v ∧ (c.decide s.hook v).1 = d then
      some ({ s with hook := (c.decide s.hook v).2 }.goto t (.afterHook v d))
    else none
  | .push t v =>
    if s.pc t = .push v then
      some ({ s with captures := s.captures ++ [v] }.goto t (.enter (some v)))
    else none
  | .enter t =>
    match s.pc t with
    | .enter r => some ({ s with waiting := s.waiting + 1 }.goto t (.poll r))
    | _ => none
  | .leave t =>
    match s.pc t with
    | .poll r => if s.released then some (s.goto t (.ret r)) else none
    | _ => none
  | .sleep t ms =>
    match s.pc t with
    | .poll _ => if s.released = false ∧ ms ≤ c.timeoutMs then some s else none
    | _ => none
  | .timeOut t ms message =>
    match s.pc t with
    | .poll _ =>
      if s.released = false ∧ c.timeoutMs < ms ∧ message = c.timeOutMessage then
        some (s.goto t .idle)
      else none
    | _ => none
  | .ret t r => if s.pc t = .ret r then some (s.goto t .idle) else none
  | .store t =>
    if s.pc t = .idle then some ({ s with released := true }.goto t .zero) else none
  | .zero t => if s.pc t = .zero then some ({ s with waiting := 0 }.goto t .idle) else none
  | .reset t =>
    if s.pc t = .idle then some ({ s with released := false }.goto t .clear) else none
  | .clear t => if s.pc t = .clear then some ({ s with captures := [] }.goto t .idle) else none

@[simp] theorem goto_pc_self (s : State σ T) (t : ℕ) (p : Pc T) : (s.goto t p).pc t = p :=
  Function.update_self ..

theorem goto_pc_of_ne (s : State σ T) {t u : ℕ} (p : Pc T) (h : u ≠ t) :
    (s.goto t p).pc u = s.pc u := Function.update_of_ne h ..

@[simp] theorem goto_released (s : State σ T) (t : ℕ) (p : Pc T) :
    (s.goto t p).released = s.released := rfl

@[simp] theorem goto_waiting (s : State σ T) (t : ℕ) (p : Pc T) :
    (s.goto t p).waiting = s.waiting := rfl

@[simp] theorem goto_captures (s : State σ T) (t : ℕ) (p : Pc T) :
    (s.goto t p).captures = s.captures := rfl

@[simp] theorem goto_hook (s : State σ T) (t : ℕ) (p : Pc T) : (s.goto t p).hook = s.hook := rfl

variable {c : Config σ T} {st : σ} {s s' : State σ T} {l : Label T} {ls : List (Label T)}
  {t u : ℕ} {v : T} {d : Decision} {r : Option T}

/-- **What a step can do.** -/
inductive Move (c : Config σ T) (s : State σ T) : Label T → State σ T → Prop
  | wait (t : ℕ) (v : T) : s.pc t = .idle → Move c s (.wait t v) (s.goto t (.hook v))
  | decide (t : ℕ) (v : T) : s.pc t = .hook v → Move c s (.decide t v (c.decide s.hook v).1)
    ({ s with hook := (c.decide s.hook v).2 }.goto t (.afterHook v (c.decide s.hook v).1))
  | push (t : ℕ) (v : T) : s.pc t = .push v → Move c s (.push t v)
    ({ s with captures := s.captures ++ [v] }.goto t (.enter (some v)))
  | enter (t : ℕ) (r : Option T) : s.pc t = .enter r → Move c s (.enter t)
    ({ s with waiting := s.waiting + 1 }.goto t (.poll r))
  | leave (t : ℕ) (r : Option T) : s.pc t = .poll r → s.released = true →
    Move c s (.leave t) (s.goto t (.ret r))
  | sleep (t : ℕ) (r : Option T) (ms : UInt64) : s.pc t = .poll r → s.released = false →
    ms ≤ c.timeoutMs → Move c s (.sleep t ms) s
  | timeOut (t : ℕ) (r : Option T) (ms : UInt64) : s.pc t = .poll r → s.released = false →
    c.timeoutMs < ms → Move c s (.timeOut t ms c.timeOutMessage) (s.goto t .idle)
  | ret (t : ℕ) (r : Option T) : s.pc t = .ret r → Move c s (.ret t r) (s.goto t .idle)
  | store (t : ℕ) : s.pc t = .idle → Move c s (.store t)
    ({ s with released := true }.goto t .zero)
  | zero (t : ℕ) : s.pc t = .zero → Move c s (.zero t) ({ s with waiting := 0 }.goto t .idle)
  | reset (t : ℕ) : s.pc t = .idle → Move c s (.reset t)
    ({ s with released := false }.goto t .clear)
  | clear (t : ℕ) : s.pc t = .clear → Move c s (.clear t)
    ({ s with captures := [] }.goto t .idle)

/-- The other threads stay where they are. -/
theorem Move.pc_of_ne (hm : Move c s l s') (h : t ≠ l.thread) : s'.pc t = s.pc t := by
  cases hm with
  | sleep => rfl
  | _ => exact goto_pc_of_ne _ _ h

theorem step_move [DecidableEq T] (h : step c s l = some s') : Move c s l s' := by
  cases l with
  | wait t v =>
    simp only [step, Option.ite_none_right_eq_some, Option.some.injEq] at h
    obtain ⟨hpc, rfl⟩ := h
    exact .wait t v hpc
  | decide t v d =>
    simp only [step, Option.ite_none_right_eq_some, Option.some.injEq] at h
    obtain ⟨⟨hpc, rfl⟩, rfl⟩ := h
    exact .decide t v hpc
  | push t v =>
    simp only [step, Option.ite_none_right_eq_some, Option.some.injEq] at h
    obtain ⟨hpc, rfl⟩ := h
    exact .push t v hpc
  | enter t =>
    simp only [step] at h
    split at h
    · next r hpc =>
      cases h
      exact .enter t r hpc
    · cases h
  | leave t =>
    simp only [step] at h
    split at h
    · next r hpc =>
      simp only [Option.ite_none_right_eq_some, Option.some.injEq] at h
      obtain ⟨hup, rfl⟩ := h
      exact .leave t r hpc hup
    · cases h
  | sleep t ms =>
    simp only [step] at h
    split at h
    · next r hpc =>
      simp only [Option.ite_none_right_eq_some, Option.some.injEq] at h
      obtain ⟨⟨hdown, hms⟩, rfl⟩ := h
      exact .sleep t r ms hpc hdown hms
    · cases h
  | timeOut t ms message =>
    simp only [step] at h
    split at h
    · next r hpc =>
      simp only [Option.ite_none_right_eq_some, Option.some.injEq] at h
      obtain ⟨⟨hdown, hms, rfl⟩, rfl⟩ := h
      exact .timeOut t r ms hpc hdown hms
    · cases h
  | ret t r =>
    simp only [step, Option.ite_none_right_eq_some, Option.some.injEq] at h
    obtain ⟨hpc, rfl⟩ := h
    exact .ret t r hpc
  | store t =>
    simp only [step, Option.ite_none_right_eq_some, Option.some.injEq] at h
    obtain ⟨hpc, rfl⟩ := h
    exact .store t hpc
  | zero t =>
    simp only [step, Option.ite_none_right_eq_some, Option.some.injEq] at h
    obtain ⟨hpc, rfl⟩ := h
    exact .zero t hpc
  | reset t =>
    simp only [step, Option.ite_none_right_eq_some, Option.some.injEq] at h
    obtain ⟨hpc, rfl⟩ := h
    exact .reset t hpc
  | clear t =>
    simp only [step, Option.ite_none_right_eq_some, Option.some.injEq] at h
    obtain ⟨hpc, rfl⟩ := h
    exact .clear t hpc

/-! ### The blocking alone -/

/-- What a step is to the machine without hook and captures. -/
def Label.blocking : Label T → Option Checkpoint.Label
  | .enter t => some (.wait t .blockWithoutCapture)
  | .leave t | .sleep t _ => some (.poll t)
  | .timeOut t _ _ => some (.timeOut t)
  | .store t => some (.store t)
  | .zero t => some (.zero t)
  | .reset t => some (.reset t)
  | .wait .. | .decide .. | .push .. | .ret .. | .clear .. => none

/-- In the loop of `wait_for_release`. -/
def Pc.inLoop : Pc T → Bool
  | .poll _ => true
  | .idle | .hook _ | .push _ | .enter _ | .ret _ | .zero | .clear => false

/-- Between the two steps of `release_all`. -/
def Pc.halfway : Pc T → Bool
  | .zero => true
  | .idle | .hook _ | .push _ | .enter _ | .poll _ | .ret _ | .clear => false

/-- The two machines agree on the flag, the count and the threads in `wait_for_release` and in
`release_all`. -/
structure Blocks (s : State σ T) (b : Checkpoint.State) : Prop where
  released : b.released = s.released
  waiting : b.waiting = s.waiting
  polling : ∀ t, t ∈ b.polling ↔ (s.pc t).inLoop = true
  releasing : ∀ t, t ∈ b.releasing ↔ (s.pc t).halfway = true

theorem blocks_new (st : σ) : Blocks (new st : State σ T) Checkpoint.new where
  released := rfl
  waiting := rfl
  polling t := iff_of_false (Finset.notMem_empty t) Bool.false_ne_true
  releasing t := iff_of_false (Finset.notMem_empty t) Bool.false_ne_true

section

variable {b b' : Checkpoint.State} {s₁ : State σ T} {p : Pc T}

/-- A thread goes on to `p`, with `s₁` for the shared memory. -/
theorem Blocks.goto (h : Blocks s b) (hpc : s₁.pc = s.pc) (hreleased : b'.released = s₁.released)
    (hwaiting : b'.waiting = s₁.waiting)
    (hpolling : ∀ u, u ∈ b'.polling ↔ if u = t then p.inLoop = true else u ∈ b.polling)
    (hreleasing : ∀ u, u ∈ b'.releasing ↔ if u = t then p.halfway = true else u ∈ b.releasing) :
    Blocks (s₁.goto t p) b' where
  released := hreleased
  waiting := hwaiting
  polling u := by
    rw [hpolling, h.polling]
    split_ifs with hu
    · rw [hu, goto_pc_self]
    · rw [goto_pc_of_ne s₁ p hu, hpc]
  releasing u := by
    rw [hreleasing, h.releasing]
    split_ifs with hu
    · rw [hu, goto_pc_self]
    · rw [goto_pc_of_ne s₁ p hu, hpc]

/-- A step that has nothing to do with the blocking. -/
theorem Blocks.elsewhere (h : Blocks s b) (hpc : s₁.pc = s.pc)
    (hreleased : s₁.released = s.released) (hwaiting : s₁.waiting = s.waiting)
    (hloop : (s.pc t).inLoop = p.inLoop) (hhalf : (s.pc t).halfway = p.halfway) :
    Blocks (s₁.goto t p) b := by
  refine h.goto hpc (h.released.trans hreleased.symm) (h.waiting.trans hwaiting.symm)
    (fun u => ?_) fun u => ?_
  · split_ifs with hu
    · rw [hu, h.polling, hloop]
    · rfl
  · split_ifs with hu
    · rw [hu, h.releasing, hhalf]
    · rfl

theorem Blocks.idle_iff (h : Blocks s b) :
    b.idle t = true ↔ (s.pc t).inLoop = false ∧ (s.pc t).halfway = false := by
  rw [Checkpoint.idle_iff, h.polling, h.releasing, Bool.not_eq_true, Bool.not_eq_true]

/-- A thread leaves the loop. -/
theorem Blocks.leave (h : Blocks s b) (ht : (s.pc t).halfway = false) (hloop : p.inLoop = false)
    (hhalf : p.halfway = false) : Blocks (s.goto t p) (b.leave t) := by
  refine h.goto rfl h.released h.waiting (fun u => ?_) fun u => ?_
  · rw [State.leave, Finset.mem_erase]
    split_ifs with hu
    · simp [hu, hloop]
    · exact and_iff_right hu
  · rw [State.leave]
    split_ifs with hu
    · simp [hu, h.releasing, ht, hhalf]
    · rfl

/-- One step, as the blocking sees it. -/
theorem Move.blocking (hm : Move c s l s') (h : Blocks s b) :
    ∃ b', exec Checkpoint.step b l.blocking.toList = some b' ∧ Blocks s' b' := by
  -- a step with a label of its own
  have hone : ∀ {l' b'}, l.blocking = some l' → Checkpoint.step b l' = some b' → Blocks s' b' →
      ∃ b', exec Checkpoint.step b l.blocking.toList = some b' ∧ Blocks s' b' := by
    intro l' b' hl hstep hb'
    rw [hl]
    exact ⟨b', exec_cons_eq_some.2 ⟨b', hstep, rfl⟩, hb'⟩
  cases hm with
  | wait t v hpc => exact ⟨b, rfl, h.elsewhere rfl rfl rfl (by rw [hpc]; rfl) (by rw [hpc]; rfl)⟩
  | decide t v hpc =>
    refine ⟨b, rfl, h.elsewhere rfl rfl rfl ?_ ?_⟩ <;> rw [hpc] <;>
      cases (c.decide s.hook v).1 <;> rfl
  | push t v hpc => exact ⟨b, rfl, h.elsewhere rfl rfl rfl (by rw [hpc]; rfl) (by rw [hpc]; rfl)⟩
  | enter t r hpc =>
    have hidle : b.idle t = true := h.idle_iff.2 ⟨by rw [hpc]; rfl, by rw [hpc]; rfl⟩
    refine hone rfl (if_pos hidle) (h.goto rfl h.released (congrArg (· + 1) h.waiting)
      (fun u => ?_) fun u => ?_)
    · split_ifs with hu
      · simp [hu, Pc.inLoop]
      · simp [hu]
    · split_ifs with hu
      · simp [hu, h.releasing, hpc, Pc.halfway]
      · rfl
  | leave t r hpc hup =>
    have hin : t ∈ b.polling := (h.polling t).2 (by rw [hpc]; rfl)
    refine hone rfl (if_pos hin) ?_
    rw [if_pos (h.released.trans hup)]
    exact h.leave (by rw [hpc]; rfl) rfl rfl
  | sleep t r ms hpc hdown _ =>
    have hin : t ∈ b.polling := (h.polling t).2 (by rw [hpc]; rfl)
    refine hone rfl (if_pos hin) ?_
    rw [h.released, hdown]
    exact h
  | timeOut t r ms hpc hdown _ =>
    have hin : t ∈ b.polling := (h.polling t).2 (by rw [hpc]; rfl)
    exact hone rfl (if_pos ⟨hin, h.released.trans hdown⟩) (h.leave (by rw [hpc]; rfl) rfl rfl)
  | ret t r hpc => exact ⟨b, rfl, h.elsewhere rfl rfl rfl (by rw [hpc]; rfl) (by rw [hpc]; rfl)⟩
  | store t hpc =>
    have hidle : b.idle t = true := h.idle_iff.2 ⟨by rw [hpc]; rfl, by rw [hpc]; rfl⟩
    refine hone rfl (if_pos hidle) (h.goto rfl rfl h.waiting (fun u => ?_) fun u => ?_)
    · split_ifs with hu
      · simp [hu, h.polling, hpc, Pc.inLoop]
      · rfl
    · split_ifs with hu
      · simp [hu, Pc.halfway]
      · simp [hu]
  | zero t hpc =>
    have hin : t ∈ b.releasing := (h.releasing t).2 (by rw [hpc]; rfl)
    refine hone rfl (if_pos hin) (h.goto rfl h.released rfl (fun u => ?_) fun u => ?_)
    · split_ifs with hu
      · simp [hu, h.polling, hpc, Pc.inLoop]
      · rfl
    · rw [Finset.mem_erase]
      split_ifs with hu
      · simp [hu, Pc.halfway]
      · exact and_iff_right hu
  | reset t hpc =>
    have hidle : b.idle t = true := h.idle_iff.2 ⟨by rw [hpc]; rfl, by rw [hpc]; rfl⟩
    refine hone rfl (if_pos hidle) (h.goto rfl rfl h.waiting (fun u => ?_) fun u => ?_)
    · split_ifs with hu
      · simp [hu, h.polling, hpc, Pc.inLoop]
      · rfl
    · split_ifs with hu
      · simp [hu, h.releasing, hpc, Pc.halfway]
      · rfl
  | clear t hpc =>
    exact ⟨b, rfl, h.elsewhere rfl rfl rfl (by rw [hpc]; rfl) (by rw [hpc]; rfl)⟩

/-- **The hook and the captures do not matter to the blocking.**  Whatever the hook decides, a run
of a checkpoint is, as far as the flag, the count and the threads in `wait_for_release` and
`release_all` go, a run of the machine that has only these. -/
theorem simulates_blocking [DecidableEq T]
    (hrun : exec (step c) (new st) ls = some s) :
    ∃ b, exec Checkpoint.step Checkpoint.new (ls.filterMap Label.blocking) = some b ∧
      Blocks s b :=
  exec_simulates (P := fun _ => True) (fun _ _ _ _ _ hb hl => (step_move hl).blocking hb)
    (fun _ _ => trivial) (blocks_new st) hrun

end

/-- A hook that has `true` captured and lets `false` pass. -/
def onTrue : Config Unit Bool where
  name := "on_true"
  timeoutMs := 5000
  hook := some fun st text => (if text = "true" then .captureAndBlock else .proceed, st)
  debug v := if v then "true" else "false"

/-- Two calls of `wait`, of which one blocks and is released. -/
theorem simulates_blocking_released : ∃ s b, exec (step onTrue) (new ())
    [.wait 0 true, .wait 1 false, .decide 1 false .proceed, .decide 0 true .captureAndBlock,
      .push 0 true, .ret 1 none, .enter 0, .sleep 0 1, .store 1, .leave 0, .zero 1] = some s ∧
    exec Checkpoint.step Checkpoint.new
      [.wait 0 .blockWithoutCapture, .poll 0, .store 1, .poll 0, .zero 1] = some b ∧
    Blocks s b := by
  have hrun : (exec (step onTrue) (new ())
      [.wait 0 true, .wait 1 false, .decide 1 false .proceed, .decide 0 true .captureAndBlock,
        .push 0 true, .ret 1 none, .enter 0, .sleep 0 1, .store 1, .leave 0, .zero 1]).isSome =
      true := by decide
  obtain ⟨s, hs⟩ := Option.isSome_iff_exists.1 hrun
  obtain ⟨b, hb, hblocks⟩ := simulates_blocking hs
  exact ⟨s, b, hs, hb, hblocks⟩

/-! ### The hook and the captures -/

/-- The calls of `wait`. -/
def calls (ls : List (Label T)) : List (ℕ × T) :=
  ls.filterMap fun
    | .wait t v => some (t, v)
    | _ => none

/-- What the hook has been asked, and what it has decided. -/
def decided (ls : List (Label T)) : List (T × Decision) :=
  ls.filterMap fun
    | .decide _ v d => some (v, d)
    | _ => none

/-- The values that the hook wanted to have captured. -/
def wanted (ls : List (Label T)) : List (ℕ × T) :=
  ls.filterMap fun
    | .decide t v .captureAndBlock => some (t, v)
    | _ => none

/-- The values that have been captured. -/
def pushed (ls : List (Label T)) : List (ℕ × T) :=
  ls.filterMap fun
    | .push t v => some (t, v)
    | _ => none

/-- What a thread has in a list. -/
def byThread (t : ℕ) (xs : List (ℕ × T)) : List T :=
  xs.filterMap fun x => if x.1 = t then some x.2 else none

/-- The decisions on values that come one after the other, and the state of the hook after them. -/
def Config.replay (c : Config σ T) : σ → List T → List Decision × σ
  | st, [] => ([], st)
  | st, v :: vs =>
    let (d, st) := c.decide st v
    let (ds, st) := c.replay st vs
    (d :: ds, st)

/-- The value that the thread has yet to push. -/
def Pc.unpushed : Pc T → List T
  | .push v => [v]
  | .idle | .hook _ | .enter _ | .poll _ | .ret _ | .zero | .clear => []

theorem replay_concat (c : Config σ T) (st : σ) (vs : List T) (v : T) :
    c.replay st (vs ++ [v]) = ((c.replay st vs).1 ++ [(c.decide (c.replay st vs).2 v).1],
      (c.decide (c.replay st vs).2 v).2) := by
  induction vs generalizing st with
  | nil => rfl
  | cons w vs ih => simp only [List.cons_append, Config.replay, ih]

@[simp] theorem byThread_append (t : ℕ) (xs ys : List (ℕ × T)) :
    byThread t (xs ++ ys) = byThread t xs ++ byThread t ys := List.filterMap_append

@[simp] theorem calls_append (ls ls' : List (Label T)) :
    calls (ls ++ ls') = calls ls ++ calls ls' := List.filterMap_append

@[simp] theorem decided_append (ls ls' : List (Label T)) :
    decided (ls ++ ls') = decided ls ++ decided ls' := List.filterMap_append

@[simp] theorem wanted_append (ls ls' : List (Label T)) :
    wanted (ls ++ ls') = wanted ls ++ wanted ls' := List.filterMap_append

@[simp] theorem pushed_append (ls ls' : List (Label T)) :
    pushed (ls ++ ls') = pushed ls ++ pushed ls' := List.filterMap_append

/-- The other threads neither call nor want nor push anything for `t`. -/
theorem byThread_of_ne (h : t ≠ l.thread) : byThread t (calls [l]) = [] ∧
    byThread t (wanted [l]) = [] ∧ byThread t (pushed [l]) = [] := by
  have hone : ∀ v : T, byThread t [(l.thread, v)] = [] := fun v => by
    simp [byThread, Ne.symm h]
  cases l with
  | wait u v => exact ⟨hone v, rfl, rfl⟩
  | decide u v d =>
    cases d with
    | captureAndBlock => exact ⟨rfl, hone v, rfl⟩
    | blockWithoutCapture | proceed => exact ⟨rfl, rfl, rfl⟩
  | push u v => exact ⟨rfl, rfl, hone v⟩
  | _ => exact ⟨rfl, rfl, rfl⟩

/-- The hook is asked under its lock. -/
theorem Move.sequential (hm : Move c s l s')
    (h : c.replay st ((decided ls).map Prod.fst) = ((decided ls).map Prod.snd, s.hook)) :
    c.replay st ((decided (ls ++ [l])).map Prod.fst) =
      ((decided (ls ++ [l])).map Prod.snd, s'.hook) := by
  cases hm with
  | decide t v hpc =>
    rw [decided_append, List.map_append, List.map_append]
    refine (replay_concat c st _ v).trans ?_
    rw [h]
    rfl
  | _ => simpa [decided] using h

/-- A value is wanted, and then pushed. -/
theorem Move.wanted (hm : Move c s l s')
    (h : ∀ t, byThread t (wanted ls) = byThread t (pushed ls) ++ (s.pc t).unpushed) (u : ℕ) :
    byThread u (Capture.wanted (ls ++ [l])) =
      byThread u (pushed (ls ++ [l])) ++ (s'.pc u).unpushed := by
  rw [wanted_append, pushed_append, byThread_append, byThread_append]
  by_cases hu : u = l.thread
  · subst hu
    rw [h]
    cases hm with
    | decide t v hpc =>
      cases hd : (c.decide s.hook v).1 <;>
        simp [Label.thread, Capture.wanted, pushed, byThread, Pc.afterHook, Pc.unpushed, hpc]
    | push t v hpc =>
      simp [Label.thread, Capture.wanted, pushed, byThread, Pc.unpushed, hpc]
    | wait t v hpc | enter t r hpc | leave t r hpc | sleep t r ms hpc | timeOut t r ms hpc
    | ret t r hpc | store t hpc | zero t hpc | reset t hpc | clear t hpc =>
      simp [Label.thread, Capture.wanted, pushed, byThread, Pc.unpushed, hpc]
  · obtain ⟨-, hwanted, hpushed⟩ := byThread_of_ne hu
    rw [hwanted, hpushed, List.append_nil, List.append_nil, hm.pc_of_ne hu, h]

/-- These are the values pushed since the last `clear`. -/
def SinceClear (ls : List (Label T)) (captures : List T) : Prop :=
  ∃ before after, ls = before ++ after ∧ captures = (pushed after).map Prod.snd ∧
    (∀ u, .clear u ∉ after) ∧ (before = [] ∨ ∃ before' u, before = before' ++ [.clear u])

theorem SinceClear.concat {captures : List T} (h : SinceClear ls captures)
    (hl : ∀ u, l ≠ .clear u) :
    SinceClear (ls ++ [l]) (captures ++ (pushed [l]).map Prod.snd) := by
  obtain ⟨before, after, rfl, rfl, hclear, hbefore⟩ := h
  refine ⟨before, after ++ [l], List.append_assoc .., by rw [pushed_append, List.map_append],
    fun u hu => ?_, hbefore⟩
  rcases List.mem_append.1 hu with hu | hu
  · exact hclear u hu
  · exact hl u (List.mem_singleton.1 hu).symm

theorem SinceClear.other {captures : List T} (h : SinceClear ls captures) (hpush : pushed [l] = [])
    (hl : ∀ u, l ≠ .clear u) : SinceClear (ls ++ [l]) captures := by
  have hconcat := h.concat hl
  rwa [hpush, List.map_nil, List.append_nil] at hconcat

theorem Move.sinceClear (hm : Move c s l s') (h : SinceClear ls s.captures) :
    SinceClear (ls ++ [l]) s'.captures := by
  cases hm with
  | push t v hpc => exact h.concat (by rintro _ ⟨⟩)
  | clear t hpc =>
    exact ⟨ls ++ [.clear t], [], (List.append_nil _).symm, rfl, fun _ => List.not_mem_nil,
      Or.inr ⟨ls, t, rfl⟩⟩
  | wait | decide | enter | leave | sleep | timeOut | ret | store | zero | reset =>
    exact h.other rfl (by rintro _ ⟨⟩)

/-- What the hook and the captures of a checkpoint are after the steps `ls`. -/
structure Captured (c : Config σ T) (st : σ) (ls : List (Label T)) (s : State σ T) : Prop where
  /-- The hook is asked about one value after the other. -/
  sequential : c.replay st ((decided ls).map Prod.fst) = ((decided ls).map Prod.snd, s.hook)
  /-- A thread pushes what the hook wanted of it, in this order, and nothing else. -/
  wanted : ∀ t, byThread t (wanted ls) = byThread t (pushed ls) ++ (s.pc t).unpushed
  /-- The captures are what was pushed since the last `clear`, in this order. -/
  sinceClear : SinceClear ls s.captures

/-- **What is captured.**  However the threads interleave, the hook decides as if it were called by
one thread; each thread pushes the values on which the decision was to capture, once each; and the
captures are the values pushed since the last `reset`. -/
theorem captured [DecidableEq T] (hrun : exec (step c) (new st) ls = some s) :
    Captured c st ls s := by
  refine exec_induction (I := Captured c st) (P := fun _ => True) ?_ ?_ (fun _ _ => trivial) hrun
  · exact ⟨rfl, fun _ => rfl, ⟨[], [], rfl, rfl, fun _ => List.not_mem_nil, Or.inl rfl⟩⟩
  · intro ls s₁ l s₂ _ _ h hl
    have hm := step_move hl
    exact ⟨hm.sequential h.sequential, hm.wanted h.wanted, hm.sinceClear h.sinceClear⟩

/-- A capture before a `reset`, and one after it. -/
theorem captured_reset : ∃ s, exec (step onTrue) (new ())
    [.wait 0 true, .decide 0 true .captureAndBlock, .push 0 true, .wait 1 true, .reset 2,
      .decide 1 true .captureAndBlock, .clear 2, .push 1 true, .wait 3 false] = some s ∧
    s.captures = [true] ∧ Captured onTrue ()
      [.wait 0 true, .decide 0 true .captureAndBlock, .push 0 true, .wait 1 true, .reset 2,
        .decide 1 true .captureAndBlock, .clear 2, .push 1 true, .wait 3 false] s := by
  have hrun : (exec (step onTrue) (new ())
      [.wait 0 true, .decide 0 true .captureAndBlock, .push 0 true, .wait 1 true, .reset 2,
        .decide 1 true .captureAndBlock, .clear 2, .push 1 true, .wait 3 false]).map
      State.captures = some [true] := by decide
  obtain ⟨s, hs, hcaptures⟩ := Option.map_eq_some_iff.1 hrun
  exact ⟨s, hs, hcaptures, captured hs⟩

end Capture

end Checkpoint

end StoneDb
