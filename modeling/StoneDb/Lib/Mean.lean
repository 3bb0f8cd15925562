import Mathlib.Probability.ProbabilityMassFunction.Constructions

/-!
# Means and independent draws

The mean `mean p f` of a non-negative function under a probability mass function, as a sum in
`ℝ≥0∞` (so that nothing has to be summable), and `draws p n`, the list of `n` independent draws.

The mean of a product of functions of the single draws is the product of their means
(`mean_draws_prod`).  From it come the two facts that a count over draws is made of: the mean of a
function of one draw (`mean_draws_getD`) and the probability that one draw satisfies a property and
those of a set another (`mean_draws_event`).
-/

open scoped ENNReal

namespace StoneDb

variable {α β ι : Type*} {p : PMF α} {f g : α → ℝ≥0∞}

/-! ### Means -/

/-- The mean of `f` under `p`. -/
noncomputable def mean (p : PMF α) (f : α → ℝ≥0∞) : ℝ≥0∞ := tsum fun a => p a * f a

theorem mean_mono (h : ∀ a ∈ p.support, f a ≤ g a) : mean p f ≤ mean p g := by
  refine ENNReal.tsum_le_tsum fun a => ?_
  by_cases ha : p a = 0
  · simp [ha]
  · gcongr
    exact h a ((p.mem_support_iff a).2 ha)

theorem mean_congr (h : ∀ a ∈ p.support, f a = g a) : mean p f = mean p g :=
  le_antisymm (mean_mono fun a ha => (h a ha).le) (mean_mono fun a ha => (h a ha).ge)

theorem mean_const (p : PMF α) (c : ℝ≥0∞) : mean p (fun _ => c) = c := by
  rw [mean, ENNReal.tsum_mul_right, p.tsum_coe, one_mul]

theorem mean_add (p : PMF α) (f g : α → ℝ≥0∞) :
    mean p (fun a => f a + g a) = mean p f + mean p g := by
  simp only [mean, mul_add]
  exact ENNReal.tsum_add

theorem mean_sum (p : PMF α) (s : Finset ι) (f : ι → α → ℝ≥0∞) :
    mean p (fun a => ∑ i ∈ s, f i a) = ∑ i ∈ s, mean p (f i) := by
  classical
  induction s using Finset.induction_on with
  | empty => simpa using mean_const p 0
  | insert i s hi ih =>
    simp only [Finset.sum_insert hi]
    rw [mean_add, ih]

theorem mean_mul_const (p : PMF α) (f : α → ℝ≥0∞) (c : ℝ≥0∞) :
    mean p (fun a => f a * c) = mean p f * c := by
  simp only [mean, ← mul_assoc]
  exact ENNReal.tsum_mul_right

theorem mean_const_mul (p : PMF α) (f : α → ℝ≥0∞) (c : ℝ≥0∞) :
    mean p (fun a => c * f a) = c * mean p f := by
  simp only [mul_comm c, mean_mul_const]

theorem mean_pure (a : α) (f : α → ℝ≥0∞) : mean (PMF.pure a) f = f a := by
  rw [mean, tsum_eq_single a fun b hb => by simp [PMF.pure_apply, hb]]
  simp

theorem mean_bind (p : PMF α) (q : α → PMF β) (f : β → ℝ≥0∞) :
    mean (p.bind q) f = mean p fun a => mean (q a) f := by
  calc tsum (fun b => (tsum fun a => p a * q a b) * f b)
      = tsum (fun b => tsum fun a => p a * (q a b * f b)) := by
        simp only [← ENNReal.tsum_mul_right, mul_assoc]
    _ = tsum (fun a => tsum fun b => p a * (q a b * f b)) := ENNReal.tsum_comm
    _ = tsum (fun a => p a * tsum fun b => q a b * f b) := by simp only [ENNReal.tsum_mul_left]

theorem mean_map (p : PMF α) (q : α → β) (f : β → ℝ≥0∞) :
    mean (p.map q) f = mean p fun a => f (q a) := by
  simp only [PMF.map, mean_bind, Function.comp_apply, mean_pure]

theorem mean_bool (p : PMF Bool) (f : Bool → ℝ≥0∞) :
    mean p f = p true * f true + p false * f false := by
  rw [mean, tsum_fintype, Fintype.sum_bool]

/-- The indicator of a property. -/
noncomputable def ind (Q : α → Prop) [DecidablePred Q] (a : α) : ℝ≥0∞ := if Q a then 1 else 0

theorem mean_ind_eq (p : PMF α) (a : α) [DecidablePred (· = a)] : mean p (ind (· = a)) = p a := by
  rw [mean, tsum_eq_single a fun b hb => by simp [ind, hb]]
  simp [ind]

theorem mean_ind_add (p : PMF α) (Q : α → Prop) [DecidablePred Q] :
    mean p (ind Q) + mean p (ind fun a => ¬ Q a) = 1 := by
  rw [← mean_add, ← mean_const p 1]
  refine mean_congr fun a _ => ?_
  simp only [ind]
  split_ifs <;> simp

/-! ### Independent draws -/

/-- The list of `n` independent draws. -/
noncomputable def draws (p : PMF α) : ℕ → PMF (List α)
  | 0 => PMF.pure []
  | n + 1 => p.bind fun a => (draws p n).map (a :: ·)

theorem mem_support_draws {n : ℕ} {as : List α} (h : as ∈ (draws p n).support) :
    as.length = n ∧ ∀ a ∈ as, a ∈ p.support := by
  induction n generalizing as with
  | zero =>
    obtain rfl := (PMF.mem_support_pure_iff _ _).1 h
    exact ⟨rfl, by simp⟩
  | succ n ih =>
    obtain ⟨a, ha, h⟩ := (PMF.mem_support_bind_iff _ _ _).1 h
    obtain ⟨as', has', rfl⟩ := (PMF.mem_support_map_iff _ _ _).1 h
    obtain ⟨hlen, hmem⟩ := ih has'
    refine ⟨congrArg (· + 1) hlen, fun b hb => ?_⟩
    rcases List.mem_cons.1 hb with rfl | hb
    · exact ha
    · exact hmem b hb

/-- **Independence**: the mean of a product over the draws. -/
theorem mean_draws_prod (p : PMF α) (d : α) (n : ℕ) (g : ℕ → α → ℝ≥0∞) :
    mean (draws p n) (fun as => ∏ k ∈ Finset.range n, g k (as.getD k d)) =
      ∏ k ∈ Finset.range n, mean p (g k) := by
  induction n generalizing g with
  | zero => simp [draws, mean_pure]
  | succ n ih =>
    simp only [draws, mean_bind, mean_map, Finset.prod_range_succ', List.getD_cons_succ,
      List.getD_cons_zero, mean_mul_const, mean_const_mul, ih fun k => g (k + 1)]

variable {n i : ℕ} {B : Finset ℕ} {d : α}

theorem prod_ite_pair (hi : i < n) (hB : B ⊆ Finset.range n) (x : ℝ≥0∞) (f : ℕ → ℝ≥0∞) :
    (∏ k ∈ Finset.range n, (if k = i then x else 1) * if k ∈ B then f k else 1) =
      x * ∏ k ∈ B, f k := by
  rw [Finset.prod_mul_distrib, Finset.prod_ite_eq', if_pos (Finset.mem_range.2 hi),
    Finset.prod_ite_mem, Finset.inter_eq_right.2 hB]

/-- The probability that one draw satisfies `Q`, and those of a set of others satisfy `R`. -/
theorem mean_draws_event (Q R : α → Prop) [DecidablePred Q] [DecidablePred R] (hi : i < n)
    (hB : B ⊆ Finset.range n) (hiB : i ∉ B) :
    mean (draws p n) (ind fun as => Q (as.getD i d) ∧ ∀ j ∈ B, R (as.getD j d)) =
      mean p (ind Q) * mean p (ind R) ^ B.card := by
  have hind (as : List α) : ind (fun as => Q (as.getD i d) ∧ ∀ j ∈ B, R (as.getD j d)) as =
      ∏ k ∈ Finset.range n, (if k = i then ind Q (as.getD i d) else 1) *
        if k ∈ B then ind R (as.getD k d) else 1 := by
    rw [prod_ite_pair hi hB]
    simp only [ind, Finset.prod_ite_zero, Finset.prod_const_one]
    by_cases hQ : Q (as.getD i d)
    · by_cases hR : ∀ j ∈ B, R (as.getD j d)
      · rw [if_pos ⟨hQ, hR⟩, if_pos hQ, if_pos hR, one_mul]
      · rw [if_neg fun h => hR h.2, if_neg hR, mul_zero]
    · rw [if_neg fun h => hQ h.1, if_neg hQ, zero_mul]
  have hmean (k : ℕ) : mean p (fun a => (if k = i then ind Q a else 1) *
      if k ∈ B then ind R a else 1) =
        (if k = i then mean p (ind Q) else 1) * if k ∈ B then mean p (ind R) else 1 := by
    by_cases hk : k = i
    · subst hk
      simp only [if_true, if_neg hiB, mul_one]
    · by_cases hkB : k ∈ B
      · simp only [if_neg hk, if_pos hkB, one_mul]
      · simp only [if_neg hk, if_neg hkB, mul_one, mean_const]
  have hdraws := mean_draws_prod p d n fun k a => (if k = i then ind Q a else 1) *
    if k ∈ B then ind R a else 1
  simp only [hmean] at hdraws
  rw [prod_ite_pair hi hB, Finset.prod_const] at hdraws
  rw [← hdraws]
  refine mean_congr fun as _ => (hind as).trans (Finset.prod_congr rfl fun k _ => ?_)
  by_cases hk : k = i
  · rw [hk]
  · simp only [if_neg hk]

/-- The mean of a function of one draw. -/
theorem mean_draws_getD (f : α → ℝ≥0∞) (hi : i < n) :
    mean (draws p n) (fun as => f (as.getD i d)) = mean p f := by
  have hprod (x : ℝ≥0∞) : (∏ k ∈ Finset.range n, if k = i then x else 1) = x := by
    rw [Finset.prod_ite_eq', if_pos (Finset.mem_range.2 hi)]
  have hmean (k : ℕ) : mean p (fun a => if k = i then f a else 1) =
      if k = i then mean p f else 1 := by
    by_cases hk : k = i
    · simp only [if_pos hk]
    · simp only [if_neg hk, mean_const]
  have hdraws := mean_draws_prod p d n fun k a => if k = i then f a else 1
  simp only [hmean, hprod] at hdraws
  rw [← hdraws]
  refine mean_congr fun as _ => (hprod _).symm.trans (Finset.prod_congr rfl fun k _ => ?_)
  by_cases hk : k = i
  · rw [hk]
  · simp only [if_neg hk]

end StoneDb
