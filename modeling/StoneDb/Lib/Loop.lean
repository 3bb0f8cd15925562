import Mathlib.Order.Basic

/-!
# Loops

A `loop { … }` of an imperative program whose iterations work on local variables `σ` and leave the
loop with an `α` is `loop body diverged fuel s`: the body is iterated at most `fuel` times, and
running out of fuel is the outcome `diverged`.  Bodies may fail, in any monad.

The rule `loop_ok` is for total correctness, of bodies in `Except ε` (reads of a fixed state): an
invariant, and a measure that every further iteration decreases.  It concludes that the loop
*returns*, so a result proved with it does not depend on the fuel.  `Iterates` and `iterations`
count the iterations of such a loop.
-/

namespace StoneDb

/-- How an iteration ends: go on with new local variables, or leave the loop with a result. -/
inductive Iter (σ α : Type*) where
  /-- Go on. -/
  | next (s : σ)
  /-- Leave the loop. -/
  | done (a : α)
  deriving DecidableEq, Repr

variable {σ α ε : Type}

/-- At most `fuel` iterations of `body`, from the local variables `s`. -/
def loop {m : Type → Type} [Monad m] (body : σ → m (Iter σ α)) (diverged : m α) : ℕ → σ → m α
  | 0, _ => diverged
  | fuel + 1, s => do
    match ← body s with
    | .next s' => loop body diverged fuel s'
    | .done a => pure a

/-- A loop whose body keeps the invariant `I` and decreases `μ` as long as it goes on returns, and
its result satisfies what the last iteration establishes. -/
theorem loop_ok {body : σ → Except ε (Iter σ α)} {diverged : Except ε α} {I : σ → Prop}
    {Q : α → Prop} {μ : σ → ℕ}
    (hbody : ∀ s, I s → (∃ s', body s = .ok (.next s') ∧ I s' ∧ μ s' < μ s) ∨
      ∃ a, body s = .ok (.done a) ∧ Q a) :
    ∀ fuel s, I s → μ s < fuel → ∃ a, loop body diverged fuel s = .ok a ∧ Q a := by
  intro fuel
  induction fuel with
  | zero => intro s _ hμ; exact absurd hμ (Nat.not_lt_zero _)
  | succ fuel ih =>
    intro s hs hμ
    rcases hbody s hs with ⟨s', hstep, hs', hlt⟩ | ⟨a, hstep, ha⟩
    · obtain ⟨a, hloop, ha⟩ := ih s' hs' (by omega)
      refine ⟨a, ?_, ha⟩
      simp only [loop, hstep, bind, Except.bind, hloop]
    · refine ⟨a, ?_, ha⟩
      simp only [loop, hstep, bind, Except.bind, pure, Except.pure]

/-- A loop that returns leaves in one of its iterations. -/
theorem exists_of_loop_eq_ok {body : σ → Except ε (Iter σ α)} {e : ε} {fuel : ℕ} {s : σ} {a : α}
    (h : loop body (.error e) fuel s = .ok a) : ∃ s', body s' = .ok (.done a) := by
  induction fuel generalizing s with
  | zero => cases h
  | succ fuel ih =>
    simp only [loop, bind, Except.bind] at h
    cases hbody : body s with
    | error e => simp [hbody] at h
    | ok r =>
      cases r with
      | next s' => exact ih (by simpa [hbody] using h)
      | done b =>
        simp only [hbody, pure, Except.pure, Except.ok.injEq] at h
        exact ⟨s, h ▸ hbody⟩

/-! ### Counting iterations -/

/-- The loop makes `n` iterations from the local variables `s`, and leaves with `a`. -/
inductive Iterates (body : σ → Except ε (Iter σ α)) (a : α) : ℕ → σ → Prop
  | done {s : σ} : body s = .ok (.done a) → Iterates body a 1 s
  | next {n : ℕ} {s s' : σ} : body s = .ok (.next s') → Iterates body a n s' →
    Iterates body a (n + 1) s

theorem iterates_of_loop {body : σ → Except ε (Iter σ α)} {e : ε} {fuel : ℕ} {s : σ} {a : α}
    (h : loop body (.error e) fuel s = .ok a) : ∃ n ≤ fuel, Iterates body a n s := by
  induction fuel generalizing s with
  | zero => cases h
  | succ fuel ih =>
    simp only [loop, bind, Except.bind] at h
    cases hbody : body s with
    | error e => simp [hbody] at h
    | ok r =>
      cases r with
      | next s' =>
        obtain ⟨n, hn, hiter⟩ := ih (s := s') (by simpa [hbody] using h)
        exact ⟨n + 1, Nat.succ_le_succ hn, .next hbody hiter⟩
      | done b =>
        simp only [hbody, pure, Except.pure, Except.ok.injEq] at h
        exact ⟨1, Nat.succ_le_succ (Nat.zero_le _), .done (h ▸ hbody)⟩

/-- How many iterations of `body` begin, from the local variables `s`. -/
def iterations (body : σ → Except ε (Iter σ α)) : ℕ → σ → ℕ
  | 0, _ => 0
  | fuel + 1, s =>
    match body s with
    | .ok (.next s') => iterations body fuel s' + 1
    | .ok (.done _) | .error _ => 1

theorem Iterates.iterations_eq {body : σ → Except ε (Iter σ α)} {a : α} {n fuel : ℕ} {s : σ}
    (h : Iterates body a n s) (hfuel : n ≤ fuel) : iterations body fuel s = n := by
  induction h generalizing fuel with
  | done hstep =>
    cases fuel with
    | zero => exact absurd hfuel (Nat.not_succ_le_zero _)
    | succ fuel => simp only [iterations, hstep]
  | next hstep _ ih =>
    cases fuel with
    | zero => exact absurd hfuel (Nat.not_succ_le_zero _)
    | succ fuel =>
      simp only [iterations, hstep]
      rw [ih (Nat.le_of_succ_le_succ hfuel)]

end StoneDb
