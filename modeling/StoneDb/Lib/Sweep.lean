import Mathlib.Data.Set.Basic
import Mathlib.Data.List.Pairwise

/-!
# Sweeps over growing sets

A sweep visits the elements of a set one after the other, in the order of a relation `R`, while the
set grows: every move looks for the first element ahead at some instant of its own.

`Sweep.spec` : whatever is added, and when, the sweep visits its elements in order, visits all that
were ahead when it started, and nothing that is not there when it ends.
-/

namespace StoneDb

/-- A **sweep**: the set is `A` when the sweep starts and `A'` when it ends, it visits the elements
`xs`, and all of these are among those that are `ahead` at the start. -/
inductive Sweep {α : Type*} (R : α → α → Prop) : Set α → Set α → List α → Set α → Prop
  | stop {ahead A A' : Set α} : A ⊆ A' → (∀ y ∈ A, y ∉ ahead) → Sweep R ahead A [] A'
  | more {ahead A B A' : Set α} {x : α} {xs : List α} : A ⊆ B → x ∈ B → x ∈ ahead →
    (∀ y ∈ A, y ∈ ahead → y = x ∨ R x y) → Sweep R {y | R x y} B xs A' →
    Sweep R ahead A (x :: xs) A'

/-- **What a sweep visits.** -/
theorem Sweep.spec {α : Type*} {R : α → α → Prop} {ahead A A' : Set α} {xs : List α}
    (htrans : ∀ x y z, R x y → R y z → R x z) (hahead : ∀ x y, x ∈ ahead → R x y → y ∈ ahead)
    (h : Sweep R ahead A xs A') : A ⊆ A' ∧ xs.Pairwise R ∧ (∀ y ∈ A, y ∈ ahead → y ∈ xs) ∧
      ∀ x ∈ xs, x ∈ A' ∧ x ∈ ahead := by
  induction h with
  | stop hA hnone => exact ⟨hA, .nil, fun y hy hya => absurd hya (hnone y hy), by simp⟩
  | @more ahead A B A' x xs hA hx hxa hfirst _ ih =>
    obtain ⟨hB, hsorted, hseen, hfound⟩ := ih (htrans x)
    refine ⟨hA.trans hB, List.pairwise_cons.2 ⟨fun y hy => (hfound y hy).2, hsorted⟩, ?_, ?_⟩
    · intro y hy hya
      rcases hfirst y hy hya with rfl | hxy
      · exact List.mem_cons_self
      · exact List.mem_cons_of_mem _ (hseen y (hA hy) hxy)
    · intro y hy
      rcases List.mem_cons.1 hy with rfl | hy
      · exact ⟨hB hx, hxa⟩
      · exact ⟨(hfound y hy).1, hahead x y hxa (hfound y hy).2⟩

end StoneDb
