import StoneDb.SkipList.Reachable
import StoneDb.Lib.Geometric

/-!
# Random heights

`random_height`, and runs of `put` whose heights it draws.  Both are programs of any monad with a
`gen_ratio`.  With the one that `rand` documents (`GenRatio`), the heights are geometric with ratio
1/3, cut off at the top level (`randomHeight_geometric`): `HEIGHT_INCREASE` is exactly a third of
`u32::MAX`, so the probabilities in the source's comments are exact (`randomHeight_apply`).
-/

open scoped ENNReal

namespace StoneDb

open SkipList

section

variable {m : Type → Type} [Monad m] (genRatio : ℕ → ℕ → m Bool)

/-- `u32::MAX`. -/
def u32Max : ℕ := 2 ^ 32 - 1

/-- `HEIGHT_INCREASE`. -/
def heightIncrease : ℕ := u32Max / 3

/-- The loop of `random_height` from `h` on, `todo` iterations before its end. -/
def heightFrom : ℕ → ℕ → m ℕ
  | 0, _ => return maxHeight - 1
  | todo + 1, h => do
    if !(← genRatio heightIncrease u32Max) then return h
    else heightFrom todo (h + 1)

/-- `random_height`. -/
def randomHeight : m ℕ := heightFrom genRatio (maxHeight - 1) 0

/-- Calls of `put` for these keys and values, one after the other, panics caught. -/
def randomPuts : List (Bytes × Bytes) → SkipList → m SkipList
  | [], sl => return sl
  | (key, value) :: pairs, sl => do
    let height ← randomHeight genRatio
    randomPuts pairs (PutCall.after ⟨key, value, height⟩ sl)

end

/-- `Rng::gen_ratio`: true with probability `numerator / denominator`. -/
def GenRatio (genRatio : ℕ → ℕ → PMF Bool) : Prop :=
  ∀ numerator denominator, 0 < denominator → numerator ≤ denominator →
    genRatio numerator denominator true = numerator / denominator

variable {genRatio : ℕ → ℕ → PMF Bool}

/-- The odds of one more level: `u32::MAX` is a multiple of 3. -/
theorem GenRatio.apply (hgen : GenRatio genRatio) :
    genRatio heightIncrease u32Max true = 3⁻¹ ∧
      genRatio heightIncrease u32Max false = 1 - 3⁻¹ := by
  have hthird : ((heightIncrease : ℕ) : ℝ≥0∞) / (u32Max : ℕ) = 3⁻¹ := by
    have hmul : u32Max = 3 * heightIncrease := by decide
    have hne : ((heightIncrease : ℕ) : ℝ≥0∞) ≠ 0 := Nat.cast_ne_zero.2 (by decide)
    rw [hmul, Nat.cast_mul, ENNReal.div_eq_inv_mul,
      ENNReal.mul_inv (Or.inr (ENNReal.natCast_ne_top _)) (Or.inr hne), mul_assoc,
      ENNReal.inv_mul_cancel hne (ENNReal.natCast_ne_top _), mul_one]
    rfl
  have htrue : genRatio heightIncrease u32Max true = 3⁻¹ :=
    (hgen _ _ (by decide) (by decide)).trans hthird
  have hsum := (genRatio heightIncrease u32Max).tsum_coe
  rw [tsum_fintype, Fintype.sum_bool, htrue, add_comm] at hsum
  exact ⟨htrue, ENNReal.eq_sub_of_add_eq (by simp) hsum⟩

/-- One iteration of the loop. -/
theorem mean_heightFrom (hgen : GenRatio genRatio) (todo h : ℕ) (f : ℕ → ℝ≥0∞) :
    mean (heightFrom genRatio (todo + 1) h) f =
      3⁻¹ * mean (heightFrom genRatio todo (h + 1)) f + (1 - 3⁻¹) * f h := by
  obtain ⟨htrue, hfalse⟩ := hgen.apply
  have hbind : heightFrom genRatio (todo + 1) h =
      (genRatio heightIncrease u32Max).bind fun b =>
        if !b then PMF.pure h else heightFrom genRatio todo (h + 1) := rfl
  rw [hbind, mean_bind, mean_bool, htrue, hfalse]
  simp only [Bool.not_true, Bool.not_false, Bool.false_eq_true, if_false, if_true, mean_pure]

/-- The tail of the loop. -/
theorem heightFrom_tail (hgen : GenRatio genRatio) {todo h l : ℕ} (htodo : h + todo = maxHeight - 1)
    (hl : l ≤ maxHeight - 1) :
    mean (heightFrom genRatio todo h) (ind (l ≤ ·)) = 3⁻¹ ^ (l - h) := by
  induction todo generalizing h with
  | zero =>
    have hpure : heightFrom genRatio 0 h = PMF.pure (maxHeight - 1) := rfl
    rw [hpure, mean_pure, ind, if_pos hl, show l - h = 0 by omega, pow_zero]
  | succ todo ih =>
    rw [mean_heightFrom hgen, ih (by omega)]
    rcases Nat.lt_or_ge h l with hlt | hge
    · rw [ind, if_neg (not_le.2 hlt), mul_zero, add_zero, ← pow_succ', show l - h =
        l - (h + 1) + 1 by omega]
    · rw [ind, if_pos hge, show l - h = 0 by omega, show l - (h + 1) = 0 by omega, pow_zero,
        mul_one, mul_one, add_tsub_cancel_of_le (by simp)]

theorem heightFrom_le {todo h x : ℕ} (htodo : h + todo = maxHeight - 1)
    (hx : x ∈ (heightFrom genRatio todo h).support) : x ≤ maxHeight - 1 := by
  induction todo generalizing h with
  | zero =>
    obtain rfl := (PMF.mem_support_pure_iff _ _).1 hx
    exact le_rfl
  | succ todo ih =>
    obtain ⟨b, -, hx⟩ := (PMF.mem_support_bind_iff _ _ _).1 hx
    cases b with
    | true => exact ih (by omega) hx
    | false =>
      obtain rfl := (PMF.mem_support_pure_iff _ _).1 hx
      omega

/-- **Heights are geometric** with ratio 1/3, cut off at the top level. -/
theorem randomHeight_geometric (hgen : GenRatio genRatio) :
    Geometric (randomHeight genRatio) 3⁻¹ (maxHeight - 1) where
  tail _ hl := heightFrom_tail hgen (Nat.zero_add _) hl
  le _ hx := heightFrom_le (Nat.zero_add _) hx

theorem one_sub_third : (1 - 3⁻¹ : ℝ≥0∞) = 2 * 3⁻¹ := by
  refine (ENNReal.eq_sub_of_add_eq (by simp) ?_).symm
  calc (2 * 3⁻¹ + 3⁻¹ : ℝ≥0∞) = 3 * 3⁻¹ := by ring
    _ = 1 := ENNReal.mul_inv_cancel (by simp) (by simp)

/-- **The law of `random_height`**: 2/3, 2/9, and so on, the rest on the top level. -/
theorem randomHeight_apply (hgen : GenRatio genRatio) :
    (∀ h < maxHeight - 1, randomHeight genRatio h = 2 / 3 ^ (h + 1)) ∧
      randomHeight genRatio (maxHeight - 1) = 1 / 3 ^ (maxHeight - 1) ∧
      ∀ h, maxHeight ≤ h → randomHeight genRatio h = 0 := by
  have hp := randomHeight_geometric hgen
  refine ⟨fun h hh => ?_, ?_, fun h hh => ?_⟩
  · rw [← mean_ind_eq, hp.mean_eq hh, one_sub_third, ENNReal.div_eq_inv_mul, pow_succ,
      ENNReal.mul_inv (Or.inr (by simp)) (Or.inr (by simp)), ENNReal.inv_pow]
    ring
  · rw [← mean_ind_eq, one_div, ENNReal.inv_pow, ← hp.tail _ le_rfl]
    refine mean_congr fun x hx => ?_
    have hle := hp.le x hx
    simp only [ind, show (x = maxHeight - 1) = (maxHeight - 1 ≤ x) from
      propext ⟨fun he => he.ge, fun hge => le_antisymm hle hge⟩]
  · refine (PMF.apply_eq_zero_iff _ _).2 fun hx => ?_
    have hle := hp.le h hx
    simp only [maxHeight] at hh hle
    omega

/-- A coin for each ratio. -/
noncomputable def ratioCoin (numerator denominator : ℕ) : PMF Bool :=
  if h : (numerator : ℝ≥0∞) / denominator ≤ 1 then
    .ofFintype (fun b => if b then numerator / denominator else 1 - numerator / denominator)
      (by rw [Fintype.sum_bool, if_pos rfl, if_neg (by decide), add_tsub_cancel_of_le h])
  else .pure false

theorem genRatio_ratioCoin : GenRatio ratioCoin := by
  intro numerator denominator hpos hle
  have hratio : (numerator : ℝ≥0∞) / denominator ≤ 1 :=
    ENNReal.div_le_of_le_mul (by rw [one_mul]; exact_mod_cast hle)
  rw [ratioCoin, dif_pos hratio, PMF.ofFintype_apply, if_pos rfl]

theorem randomHeight_apply_coin : (∀ h < 19, randomHeight ratioCoin h = 2 / 3 ^ (h + 1)) ∧
    randomHeight ratioCoin 19 = 1 / 3 ^ 19 ∧ ∀ h, 20 ≤ h → randomHeight ratioCoin h = 0 :=
  randomHeight_apply genRatio_ratioCoin

end StoneDb
