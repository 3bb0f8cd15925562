import Mathlib.Order.Basic
import Mathlib.Tactic.SplitIfs

/-!
# Programs on two memories

A program that runs on an abstract memory and on a concrete one: `Follows ub R x y` says that the
concrete run `y` fails as the abstract run `x` does, or returns what `R` relates to the value of
`x`.  If `x` is the fault `ub`, an undefined access, nothing is promised of `y`.

The rules follow the program: `Follows.bind` for a sequence, `Follows.pure` for a return.  So from
the reads and writes of the two memories it carries over to every program that is built from them.
-/

namespace StoneDb

/-- `y` does what `x` does, with values related by `R`, unless `x` is undefined. -/
inductive Follows {ε α β : Type} (ub : ε) (R : α → β → Prop) : Except ε α → Except ε β → Prop
  | ok {a : α} {b : β} : R a b → Follows ub R (.ok a) (.ok b)
  | error (e : ε) : Follows ub R (.error e) (.error e)
  | undefined (y : Except ε β) : Follows ub R (.error ub) y

namespace Follows

variable {ε α β α' β' : Type} {ub : ε} {R : α → β → Prop} {R' : α' → β' → Prop}
  {x : Except ε α} {y : Except ε β}

protected theorem pure {a : α} {b : β} (h : R a b) :
    Follows ub R (pure a : Except ε α) (pure b : Except ε β) := .ok h

/-- A program that touches no memory refines itself. -/
protected theorem refl (x : Except ε α) : Follows ub Eq x x := by
  cases x with
  | error e => exact .error e
  | ok a => exact .ok rfl

/-- **Sequences**: a continuation need only refine after values that `x` can return. -/
protected theorem bind {f : α → Except ε α'} {g : β → Except ε β'} (h : Follows ub R x y)
    (hf : ∀ a b, x = .ok a → R a b → Follows ub R' (f a) (g b)) :
    Follows ub R' (x >>= f) (y >>= g) := by
  cases h with
  | ok hR => exact hf _ _ rfl hR
  | error e => exact .error e
  | undefined y => exact .undefined _

/-- A sequence whose first part returns the same value on both memories. -/
theorem bind_eq {x y : Except ε α} {f : α → Except ε α'} {g : α → Except ε β'}
    (h : Follows ub Eq x y) (hf : ∀ a, x = .ok a → Follows ub R' (f a) (g a)) :
    Follows ub R' (x >>= f) (y >>= g) := by
  refine h.bind fun a b hx hab => ?_
  subst hab
  exact hf a hx

/-- A sequence whose last part touches no memory. -/
theorem andThen {x y : Except ε α} (h : Follows ub Eq x y) (f : α → Except ε α') :
    Follows ub Eq (x >>= f) (y >>= f) := h.bind_eq fun a _ => .refl (f a)

protected theorem ite {c : Prop} [Decidable c] {x' : Except ε α} {y' : Except ε β}
    (h : c → Follows ub R x y) (h' : ¬ c → Follows ub R x' y') :
    Follows ub R (if c then x else x') (if c then y else y') := by
  split_ifs with hc
  · exact h hc
  · exact h' hc

/-- What the abstract run does, unless it is undefined, the concrete one does too. -/
theorem cases_of_ne (h : Follows ub R x y) (hub : x ≠ .error ub) :
    (∃ a b, x = .ok a ∧ y = .ok b ∧ R a b) ∨ ∃ e, x = .error e ∧ y = .error e := by
  cases h with
  | ok hR => exact Or.inl ⟨_, _, rfl, rfl, hR⟩
  | error e => exact Or.inr ⟨e, rfl, rfl⟩
  | undefined y => exact absurd rfl hub

end Follows

end StoneDb
