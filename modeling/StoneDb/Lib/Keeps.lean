import StoneDb.Lib.Loop

/-!
# Invariants of programs

`Keeps I E x`: from a state with `I` the program `x` returns in a state with `I`, or fails with an
error in `E`.  The rules follow the constructs programs are made of, so a program keeps what each of
its effects keeps, whatever it computes.
-/

namespace StoneDb

variable {ε σ α β τ : Type}

/-- `x` keeps the invariant `I`, and fails with errors in `E` only. -/
def Keeps (I : σ → Prop) (E : ε → Prop) (x : EStateM ε σ α) : Prop :=
  ∀ s, I s → match x s with
    | .ok _ s' => I s'
    | .error e _ => E e

namespace Keeps

variable {I : σ → Prop} {E : ε → Prop} {x : EStateM ε σ α} {f : α → EStateM ε σ β}

theorem ok (h : Keeps I E x) {s s' : σ} {a : α} (hs : I s) (hrun : x s = .ok a s') : I s' := by
  have hx := h s hs
  rwa [hrun] at hx

theorem error (h : Keeps I E x) {s s' : σ} {e : ε} (hs : I s) (hrun : x s = .error e s') : E e := by
  have hx := h s hs
  rwa [hrun] at hx

theorem pure (a : α) : Keeps I E (Pure.pure a : EStateM ε σ α) := fun _ hs => hs

theorem throw {e : ε} (he : E e) : Keeps I E (throw e : EStateM ε σ α) := fun _ _ => he

theorem bind (hx : Keeps I E x) (hf : ∀ a, Keeps I E (f a)) : Keeps I E (x >>= f) := by
  intro s hs
  simp only [Bind.bind, EStateM.bind]
  cases hrun : x s with
  | ok a s' => exact hf a s' (hx.ok hs hrun)
  | error e s' => exact hx.error hs hrun

theorem ite {c : Prop} [Decidable c] {y : EStateM ε σ α} (hx : Keeps I E x) (hy : Keeps I E y) :
    Keeps I E (if c then x else y) := by
  split_ifs
  · exact hx
  · exact hy

theorem ofExcept {r : Except ε α} (he : ∀ e, r = .error e → E e) :
    Keeps I E (ofExcept r : EStateM ε σ α) := by
  cases hr : r with
  | ok a => exact .pure a
  | error e => exact .throw (he e hr)

theorem loop {body : τ → EStateM ε σ (Iter τ α)} {diverged : EStateM ε σ α}
    (hbody : ∀ t, Keeps I E (body t)) (hdiv : Keeps I E diverged) (fuel : ℕ) (t : τ) :
    Keeps I E (StoneDb.loop body diverged fuel t) := by
  induction fuel generalizing t with
  | zero => exact hdiv
  | succ fuel ih =>
    refine (hbody t).bind fun r => ?_
    cases r with
    | next t => exact ih t
    | done a => exact .pure a

end Keeps

/-- A program that returns has run its parts. -/
theorem bind_eq_ok {x : EStateM ε σ α} {f : α → EStateM ε σ β} {s s'' : σ} {b : β} :
    (x >>= f) s = .ok b s'' ↔ ∃ a s', x s = .ok a s' ∧ f a s' = .ok b s'' := by
  constructor
  · intro h
    simp only [bind, EStateM.bind] at h
    cases hx : x s with
    | ok a s' => exact ⟨a, s', rfl, by rwa [hx] at h⟩
    | error e s' =>
      rw [hx] at h
      cases h
  · rintro ⟨a, s', hx, hf⟩
    simp only [bind, EStateM.bind, hx, hf]

/-- A read that returns has run its parts. -/
theorem except_bind_eq_ok {x : Except ε α} {f : α → Except ε β} {b : β} :
    (x >>= f) = .ok b ↔ ∃ a, x = .ok a ∧ f a = .ok b := by
  cases x with
  | error e => exact ⟨nofun, nofun⟩
  | ok a =>
    refine ⟨fun h => ⟨a, rfl, h⟩, ?_⟩
    rintro ⟨a', ha, hf⟩
    cases ha
    exact hf

/-- A program fails in one of its parts. -/
theorem bind_eq_error {x : EStateM ε σ α} {f : α → EStateM ε σ β} {s s'' : σ} {e : ε}
    (h : (x >>= f) s = .error e s'') :
    x s = .error e s'' ∨ ∃ a s', x s = .ok a s' ∧ f a s' = .error e s'' := by
  simp only [bind, EStateM.bind] at h
  cases hx : x s with
  | ok a s' => exact Or.inr ⟨a, s', rfl, by rwa [hx] at h⟩
  | error e s' =>
    rw [hx] at h
    cases h
    exact Or.inl rfl

end StoneDb
