import StoneDb.Lib.Execution
import Mathlib.Algebra.BigOperators.Group.Finset.Basic
import Mathlib.Algebra.Order.BigOperators.Group.Finset
import Mathlib.Data.Set.Finite.Basic
import Mathlib.Tactic.Ring

/-!
# Amortized bounds

Every step of an execution has a cost, and `spent` is the cost of all of them.  `spent_add_sum_le`
is the rule for machines with several movers: if every mover has a potential that its own steps pay
from, topped up by what a step is granted, and that the steps of the others do not raise, then an
execution spends no more than it starts with and is granted.  The potentials may depend on what the
execution has done so far.

`finite_of_spent_le` : steps whose cost is bounded along the beginnings of an infinite run are
finitely many.
-/

namespace StoneDb

variable {S L : Type*} {step : S → L → Option S} {s s' s₁ s₂ : S} {l : L} {ls ls' done : List L}
  {cost : S → L → ℕ}

/-- What the steps of an execution cost, all together. -/
def spent (step : S → L → Option S) (cost : S → L → ℕ) : S → List L → ℕ
  | _, [] => 0
  | s, l :: ls => cost s l + (step s l).elim 0 fun s' => spent step cost s' ls

@[simp] theorem spent_nil : spent step cost s [] = 0 := rfl

theorem spent_append (hexec : exec step s ls = some s') :
    spent step cost s (ls ++ ls') = spent step cost s ls + spent step cost s' ls' := by
  induction ls generalizing s with
  | nil =>
    obtain rfl : s = s' := by simpa using hexec
    simp
  | cons l ls ih =>
    obtain ⟨s₁, hs₁, hexec⟩ := exec_cons_eq_some.1 hexec
    simp only [List.cons_append, spent, hs₁, Option.elim_some, ih hexec]
    omega

theorem spent_singleton : spent step cost s [l] = cost s l := by
  cases hs' : step s l <;> simp [spent, hs']

theorem spent_concat (hexec : exec step s ls = some s') :
    spent step cost s (ls ++ [l]) = spent step cost s ls + cost s' l := by
  rw [spent_append hexec, spent_singleton]

/-- Costs that only depend on the labels. -/
theorem spent_eq_sum {f : L → ℕ} (hexec : exec step s ls = some s') :
    spent step (fun _ l => f l) s ls = (ls.map f).sum := by
  induction ls generalizing s with
  | nil => rfl
  | cons l ls ih =>
    obtain ⟨s₁, hs₁, hexec⟩ := exec_cons_eq_some.1 hexec
    simp only [spent, hs₁, Option.elim_some, ih hexec, List.map_cons, List.sum_cons]

theorem spent_add_mul {cost' : S → L → ℕ} (m : ℕ) :
    spent step (fun s l => cost s l + m * cost' s l) s ls =
      spent step cost s ls + m * spent step cost' s ls := by
  induction ls generalizing s with
  | nil => rfl
  | cons l ls ih =>
    cases hs' : step s l with
    | none => simp [spent, hs']
    | some s' =>
      simp only [spent, hs', Option.elim_some, ih, Nat.mul_add]
      omega

/-- A step that is performed is paid for. -/
theorem Performs.cost_le_spent (h : Performs step s ls s' l) :
    cost s' l ≤ spent step cost s ls := by
  obtain ⟨done, ⟨rest, rfl⟩, hexec⟩ := h
  rw [List.append_assoc, spent_append hexec, List.singleton_append, spent]
  omega

/-! ### Potentials -/

/-- The execution of `ls` from `s` performs `done` and then the step `l`, from `s₁` to `s₂`. -/
structure Takes (step : S → L → Option S) (s : S) (ls done : List L) (s₁ : S) (l : L) (s₂ : S) :
    Prop where
  within : done ++ [l] <+: ls
  before : exec step s done = some s₁
  step : step s₁ l = some s₂

namespace Takes

theorem mem (h : Takes step s ls done s₁ l s₂) : l ∈ ls := h.within.subset (by simp)

theorem mono (h : Takes step s ls done s₁ l s₂) (hls : ls <+: ls') :
    Takes step s ls' done s₁ l s₂ := ⟨h.within.trans hls, h.before, h.step⟩

theorem after (h : Takes step s ls done s₁ l s₂) : exec step s (done ++ [l]) = some s₂ :=
  exec_concat_eq_some.2 ⟨s₁, h.before, h.step⟩

end Takes

/-- The growth of a measure in a step. -/
def growth (step : S → L → Option S) (f : S → ℕ) (s : S) (l : L) : ℕ :=
  (step s l).elim 0 fun s' => f s' - f s

theorem growth_of_step {f : S → ℕ} (hstep : step s l = some s') :
    growth step f s l = f s' - f s := by
  rw [growth, hstep, Option.elim_some]

/-- A measure that no step decreases grows by what its steps add. -/
theorem spent_growth {f : S → ℕ}
    (hle : ∀ {done s₁ l s₂}, Takes step s ls done s₁ l s₂ → f s₁ ≤ f s₂)
    (hexec : exec step s ls = some s') : f s + spent step (growth step f) s ls = f s' := by
  induction ls using List.reverseRecOn generalizing s' with
  | nil =>
    obtain rfl : s = s' := by simpa using hexec
    rfl
  | append_singleton ls l ih =>
    obtain ⟨s₁, hs₁, hl⟩ := exec_concat_eq_some.1 hexec
    have hbefore := ih (fun h => hle (h.mono (List.prefix_append ..))) hs₁
    have hstep : f s₁ ≤ f s' := hle ⟨List.prefix_rfl, hs₁, hl⟩
    rw [spent_concat hs₁, growth_of_step hl]
    omega

/-- **Amortized accounting**: movers that pay for their own steps, with potentials that the others
do not raise, spend no more than they have. -/
theorem spent_add_sum_le {ι : Type*} [DecidableEq ι] (mover : L → ι)
    (potential : List L → S → ι → ℕ) (cost grant : S → L → ℕ)
    (hown : ∀ {done s₁ l s₂}, Takes step s ls done s₁ l s₂ →
      potential (done ++ [l]) s₂ (mover l) + cost s₁ l ≤ potential done s₁ (mover l) + grant s₁ l)
    (hother : ∀ {done s₁ l s₂ t}, Takes step s ls done s₁ l s₂ → t ≠ mover l →
      potential (done ++ [l]) s₂ t ≤ potential done s₁ t)
    (hexec : exec step s ls = some s') {U : Finset ι} (hU : ∀ l ∈ ls, mover l ∈ U) :
    spent step cost s ls + ∑ t ∈ U, potential ls s' t ≤
      ∑ t ∈ U, potential [] s t + spent step grant s ls := by
  induction ls using List.reverseRecOn generalizing s' with
  | nil =>
    obtain rfl : s = s' := by simpa using hexec
    simp
  | append_singleton ls l ih =>
    obtain ⟨s₁, hs₁, hl⟩ := exec_concat_eq_some.1 hexec
    have htakes : Takes step s (ls ++ [l]) ls s₁ l s' := ⟨List.prefix_rfl, hs₁, hl⟩
    have hbefore := ih (fun h => hown (h.mono (List.prefix_append ..)))
      (fun h => hother (h.mono (List.prefix_append ..))) hs₁
      fun l' hl' => hU l' (List.mem_append_left _ hl')
    have hmem : mover l ∈ U := hU l (by simp)
    have hothers : ∑ t ∈ U.erase (mover l), potential (ls ++ [l]) s' t ≤
        ∑ t ∈ U.erase (mover l), potential ls s₁ t :=
      Finset.sum_le_sum fun t ht => hother htakes (Finset.ne_of_mem_erase ht)
    have hmover := hown htakes
    rw [spent_concat hs₁, spent_concat hs₁]
    rw [← Finset.add_sum_erase U (potential (ls ++ [l]) s') hmem]
    rw [← Finset.add_sum_erase U (potential ls s₁) hmem] at hbefore
    omega

/-! ### Infinite runs -/

section

variable {run : ℕ → S} {schedule : ℕ → L}
  (hrun : ∀ n, step (run n) (schedule n) = some (run (n + 1)))

include hrun

theorem exec_schedule (n : ℕ) :
    exec step (run 0) ((List.range n).map schedule) = some (run n) := by
  induction n with
  | zero => rfl
  | succ n ih =>
    rw [List.range_succ, List.map_append, List.map_singleton]
    exact exec_concat_eq_some.2 ⟨run n, ih, hrun n⟩

theorem spent_schedule (n : ℕ) : spent step cost (run 0) ((List.range n).map schedule) =
    ∑ i ∈ Finset.range n, cost (run i) (schedule i) := by
  induction n with
  | zero => rfl
  | succ n ih =>
    rw [List.range_succ, List.map_append, List.map_singleton, spent_concat (exec_schedule hrun n),
      Finset.sum_range_succ, ih]

/-- **Steps with a bounded cost** are finitely many. -/
theorem finite_of_spent_le {start bound : ℕ} (hbound : ∀ n, start ≤ n →
      spent step cost (run 0) ((List.range n).map schedule) ≤ bound) :
    {n | 0 < cost (run n) (schedule n)}.Finite := by
  by_contra hinf
  obtain ⟨A, hA, hcard⟩ := Set.Infinite.exists_subset_card_eq hinf (bound + 1)
  -- a beginning of the run that has all the steps of `A`
  obtain ⟨m, hm⟩ : ∃ m, A ⊆ Finset.range m := A.exists_nat_subset_range
  have hsub : A ⊆ Finset.range (max m start) :=
    hm.trans (Finset.range_mono (Nat.le_max_left m start))
  have hcost : A.card ≤ ∑ i ∈ A, cost (run i) (schedule i) := by
    rw [Finset.card_eq_sum_ones]
    exact Finset.sum_le_sum fun i hi => hA hi
  have hsum := Finset.sum_le_sum_of_subset (f := fun i => cost (run i) (schedule i)) hsub
  have hle := hbound (max m start) (Nat.le_max_right m start)
  rw [spent_schedule hrun] at hle
  omega

end

end StoneDb
