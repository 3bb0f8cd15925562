import StoneDb.Lib.Mean
import StoneDb.Lib.Staircase
import Mathlib.Analysis.SpecificLimits.Basic

/-!
# Geometric heights

Heights whose tail is geometric up to a bound (`Geometric p r H`: at least `l` with probability
`r ^ l`, for each `l ≤ H`), as the towers of a skip list have.

* `Geometric.mean_sub_le` : how far a height exceeds a level, on average.
* `Geometric.mean_stairs_le` : among points with independent heights, whatever their positions, the
  stairs of a point are at most `L * (1 - r) / r + m * r ^ L` on average, for every level `L`.

A point is a stair of height `l` if its height is `l` and those of the points between it and the
observer are at most `l`.  No two points have the same number of points in between, so for each `l`
the probabilities sum to at most a geometric series.
-/

open scoped ENNReal

namespace StoneDb

/-- The heights are at most `H`, and at least `l` with probability `r ^ l`. -/
structure Geometric (p : PMF ℕ) (r : ℝ≥0∞) (H : ℕ) : Prop where
  tail : ∀ l ≤ H, mean p (ind (l ≤ ·)) = r ^ l
  le : ∀ h ∈ p.support, h ≤ H

variable {p : PMF ℕ} {r : ℝ≥0∞} {H l L : ℕ}

/-- Different powers of a number sum to at most the geometric series. -/
theorem sum_pow_le {ι : Type*} {s : Finset ι} {b : ι → ℕ} (hb : Set.InjOn b s) (q : ℝ≥0∞) :
    ∑ i ∈ s, q ^ b i ≤ (1 - q)⁻¹ := by
  classical
  rw [← ENNReal.tsum_geometric, ← Finset.sum_image (f := fun k => q ^ k) hb]
  exact ENNReal.sum_le_tsum _

namespace Geometric

variable (hp : Geometric p r H)

include hp

theorem le_one (h1 : 1 ≤ H) : r ≤ 1 := by
  have htail := hp.tail 1 h1
  rw [pow_one] at htail
  rw [← htail, ← mean_const p 1]
  refine mean_mono fun h _ => ?_
  simp only [ind]
  split_ifs <;> simp

/-- The probability of a height. -/
theorem mean_eq (hl : l < H) : mean p (ind (· = l)) = r ^ l * (1 - r) := by
  have hsplit : mean p (ind (· = l)) + r ^ (l + 1) = r ^ l := by
    rw [← hp.tail l hl.le, ← hp.tail (l + 1) hl, ← mean_add]
    refine mean_congr fun h _ => ?_
    simp only [ind]
    split_ifs <;> first | omega | simp
  have hr := hp.le_one (by omega)
  have hfin : r ^ (l + 1) ≠ ∞ := ENNReal.pow_ne_top (ne_top_of_le_ne_top ENNReal.one_ne_top hr)
  refine (ENNReal.add_left_inj hfin).1 (hsplit.trans ?_)
  rw [pow_succ, ← mul_add, tsub_add_cancel_of_le hr, mul_one]

/-- The probability of at most a height. -/
theorem mean_le (hl : l < H) : mean p (ind (· ≤ l)) = 1 - r ^ (l + 1) := by
  have hsplit := mean_ind_add p (l + 1 ≤ ·)
  rw [hp.tail (l + 1) hl, add_comm] at hsplit
  have hr := hp.le_one (by omega)
  have hfin : r ^ (l + 1) ≠ ∞ := ENNReal.pow_ne_top (ne_top_of_le_ne_top ENNReal.one_ne_top hr)
  rw [← ENNReal.eq_sub_of_add_eq hfin hsplit]
  refine mean_congr fun h _ => ?_
  simp only [ind, Nat.not_le, Nat.lt_succ_iff]

/-- How far a height exceeds `L`, on average. -/
theorem mean_sub_le (L : ℕ) : mean p (fun h => ((h - L : ℕ) : ℝ≥0∞)) ≤ r ^ (L + 1) * (1 - r)⁻¹ := by
  have hcount (h : ℕ) (hh : h ∈ p.support) :
      ((h - L : ℕ) : ℝ≥0∞) = ∑ k ∈ Finset.range (H - L), ind (L + 1 + k ≤ ·) h := by
    have hle := hp.le h hh
    have hfilter : {k ∈ Finset.range (H - L) | L + 1 + k ≤ h} = Finset.range (h - L) := by
      ext k
      simp only [Finset.mem_filter, Finset.mem_range]
      omega
    simp only [ind, Finset.sum_boole, hfilter, Finset.card_range]
  rw [mean_congr hcount, mean_sum]
  calc ∑ k ∈ Finset.range (H - L), mean p (ind (L + 1 + k ≤ ·))
      = ∑ k ∈ Finset.range (H - L), r ^ (L + 1) * r ^ k := by
        refine Finset.sum_congr rfl fun k hk => ?_
        rw [hp.tail _ (by have := Finset.mem_range.1 hk; omega), pow_add]
    _ = r ^ (L + 1) * ∑ k ∈ Finset.range (H - L), r ^ k := (Finset.mul_sum _ _ _).symm
    _ ≤ r ^ (L + 1) * (1 - r)⁻¹ := by
        gcongr
        exact sum_pow_le (Set.injOn_id _) r

end Geometric

/-! ### Stairs -/

section

variable {P : Type*} [LinearOrder P] {pos : ℕ → P} {K : Finset ℕ} {c k : P} {n i j : ℕ}

/-- The points between `i` and the position `k`. -/
def between (pos : ℕ → P) (K : Finset ℕ) (k : P) (i : ℕ) : Finset ℕ :=
  {j ∈ K | pos i < pos j ∧ pos j < k}

theorem card_between_lt (hj : j ∈ K) (hij : pos i < pos j) (hjk : pos j < k) :
    (between pos K k j).card < (between pos K k i).card := by
  have hsub : between pos K k j ⊆ between pos K k i := by
    intro x hx
    obtain ⟨hx, hjx, hxk⟩ := Finset.mem_filter.1 hx
    exact Finset.mem_filter.2 ⟨hx, hij.trans hjx, hxk⟩
  have hmem : j ∈ between pos K k i := Finset.mem_filter.2 ⟨hj, hij, hjk⟩
  have hnot : j ∉ between pos K k j := fun hm => lt_irrefl _ (Finset.mem_filter.1 hm).2.1
  exact Finset.card_lt_card ((Finset.ssubset_iff_of_subset hsub).2 ⟨j, hmem, hnot⟩)

/-- No two points have the same number of points between them and `k`. -/
theorem injOn_card_between (hinj : Set.InjOn pos K) :
    Set.InjOn (fun i => (between pos K k i).card) {i ∈ K | c < pos i ∧ pos i < k} := by
  rintro i ⟨hi, -, hik⟩ j ⟨hj, -, hjk⟩ heq
  rcases lt_trichotomy (pos i) (pos j) with hlt | he | hgt
  · exact absurd heq (card_between_lt hj hlt hjk).ne'
  · exact hinj hi hj he
  · exact absurd heq (card_between_lt hi hgt hik).ne

/-- A stair is lower than `L` and as high as all points in between, or at least as high as `L`. -/
theorem card_stairs_le (height : ℕ → ℕ) (L : ℕ) :
    ((stairs pos height K c k).card : ℝ≥0∞) ≤ ∑ i ∈ K with c < pos i ∧ pos i < k,
      (∑ l ∈ Finset.range L,
          (if height i = l ∧ ∀ j ∈ between pos K k i, height j ≤ l then 1 else 0) +
        if L ≤ height i then 1 else 0) := by
  rw [Finset.cast_card]
  refine (Finset.sum_le_sum fun i hi => ?_).trans
    (Finset.sum_le_sum_of_subset fun i hi => ?_)
  · obtain ⟨-, -, -, hall⟩ := mem_stairs.1 hi
    rcases Nat.lt_or_ge (height i) L with hlt | hge
    · refine le_add_right (le_trans (le_of_eq ?_)
        (Finset.single_le_sum (fun _ _ => zero_le) (Finset.mem_range.2 hlt)))
      refine (if_pos ⟨rfl, fun j hj => ?_⟩).symm
      obtain ⟨hj, hij, hjk⟩ := Finset.mem_filter.1 hj
      exact hall j hj hij hjk
    · rw [if_pos hge]
      exact le_add_self
  · obtain ⟨hi, hc, hk, -⟩ := mem_stairs.1 hi
    exact Finset.mem_filter.2 ⟨hi, hc, hk⟩

/-- **The stairs of a point**, on average. -/
theorem Geometric.mean_stairs_le (hp : Geometric p r H) (hr : r ≠ 0) (hL : L ≤ H)
    (hK : K ⊆ Finset.range n) (hinj : Set.InjOn pos K) (c k : P) :
    mean (draws p n) (fun hs => ((stairs pos (hs.getD · 0) K c k).card : ℝ≥0∞)) ≤
      L * ((1 - r) * r⁻¹) + K.card * r ^ L := by
  have hterm (i : ℕ) (hi : i ∈ K) : mean (draws p n) (fun hs =>
      ∑ l ∈ Finset.range L,
          (if hs.getD i 0 = l ∧ ∀ j ∈ between pos K k i, hs.getD j 0 ≤ l then 1 else 0) +
        if L ≤ hs.getD i 0 then 1 else 0) =
      ∑ l ∈ Finset.range L, r ^ l * (1 - r) * (1 - r ^ (l + 1)) ^ (between pos K k i).card +
        r ^ L := by
    have hin := Finset.mem_range.1 (hK hi)
    rw [mean_add, mean_sum]
    congr 1
    · refine Finset.sum_congr rfl fun l hl => ?_
      have hlH := (Finset.mem_range.1 hl).trans_le hL
      rw [← hp.mean_eq hlH, ← hp.mean_le hlH]
      exact mean_draws_event (· = l) (· ≤ l) hin ((Finset.filter_subset _ _).trans hK)
        fun hm => lt_irrefl _ (Finset.mem_filter.1 hm).2.1
    · exact (mean_draws_getD (ind (L ≤ ·)) hin).trans (hp.tail L hL)
  have hlevel (l : ℕ) (hl : l < L) : r ^ l * (1 - r) * (1 - (1 - r ^ (l + 1)))⁻¹ =
      (1 - r) * r⁻¹ := by
    have hr1 := hp.le_one (by omega)
    have hfin : r ≠ ∞ := ne_top_of_le_ne_top ENNReal.one_ne_top hr1
    rw [ENNReal.sub_sub_cancel ENNReal.one_ne_top (pow_le_one₀ zero_le hr1), pow_succ,
      ENNReal.mul_inv (Or.inr hfin) (Or.inr hr)]
    calc r ^ l * (1 - r) * ((r ^ l)⁻¹ * r⁻¹)
        = r ^ l * (r ^ l)⁻¹ * ((1 - r) * r⁻¹) := by ring
      _ = (1 - r) * r⁻¹ := by
        rw [ENNReal.mul_inv_cancel (pow_ne_zero _ hr) (ENNReal.pow_ne_top hfin), one_mul]
  calc mean (draws p n) (fun hs => ((stairs pos (hs.getD · 0) K c k).card : ℝ≥0∞))
      ≤ ∑ i ∈ K with c < pos i ∧ pos i < k,
          (∑ l ∈ Finset.range L, r ^ l * (1 - r) * (1 - r ^ (l + 1)) ^ (between pos K k i).card +
            r ^ L) := by
        refine (mean_mono fun hs _ => card_stairs_le (hs.getD · 0) L).trans (le_of_eq ?_)
        rw [mean_sum]
        exact Finset.sum_congr rfl fun i hi => hterm i (Finset.mem_filter.1 hi).1
    _ = ∑ l ∈ Finset.range L, r ^ l * (1 - r) * ∑ i ∈ K with c < pos i ∧ pos i < k,
            (1 - r ^ (l + 1)) ^ (between pos K k i).card +
          ({i ∈ K | c < pos i ∧ pos i < k} : Finset ℕ).card * r ^ L := by
        rw [Finset.sum_add_distrib, Finset.sum_comm, Finset.sum_const, nsmul_eq_mul]
        simp only [Finset.mul_sum]
    _ ≤ ∑ l ∈ Finset.range L, r ^ l * (1 - r) * (1 - (1 - r ^ (l + 1)))⁻¹ + K.card * r ^ L := by
        gcongr with l hl
        · refine sum_pow_le ?_ _
          simpa using injOn_card_between hinj
        · exact Finset.filter_subset _ _
    _ = L * ((1 - r) * r⁻¹) + K.card * r ^ L := by
        rw [Finset.sum_congr rfl fun l hl => hlevel l (Finset.mem_range.1 hl), Finset.sum_const,
          Finset.card_range, nsmul_eq_mul]

end

end StoneDb
