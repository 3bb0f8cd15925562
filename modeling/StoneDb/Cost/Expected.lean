import StoneDb.Cost.Inserted
import StoneDb.Cost.Height
import Mathlib.Data.Nat.Log

/-!
# Expected costs

What a list costs that is built with the heights of `random_height`, whatever the keys and their
order: on average, the searches of a key take at most `3 * clog 3 n + 5 / 2` turns after `n` calls
of `put` (`search_turns_expected`), and the nodes at most 43 bytes each besides their keys and
values (`memSize_expected`).

A run of calls is the run for heights that have been drawn before it (`randomPuts_eq`).  Which calls
insert does not depend on the heights (`firsts`), so the towers of the list have independent
heights, and the stairs and the list height are those of `StoneDb.Lib.Geometric`.
-/

open scoped ENNReal

namespace StoneDb

open SkipList

/-- The calls of `put` for `pairs`, with the heights `hs`. -/
def callsFor (pairs : List (Bytes × Bytes)) (hs : List ℕ) : List PutCall :=
  (pairs.zip hs).map fun p => ⟨p.1.1, p.1.2, p.2⟩

variable {genRatio : ℕ → ℕ → PMF Bool} {pairs : List (Bytes × Bytes)} {hs : List ℕ}

/-- The heights are drawn before the run as well as during it. -/
theorem randomPuts_eq (pairs : List (Bytes × Bytes)) (sl : SkipList) :
    randomPuts genRatio pairs sl = (draws (randomHeight genRatio) pairs.length).map fun hs =>
      afterAll (callsFor pairs hs) sl := by
  induction pairs generalizing sl with
  | nil =>
    rw [List.length_nil, draws, PMF.pure_map]
    rfl
  | cons p pairs ih =>
    calc randomPuts genRatio (p :: pairs) sl
        = (randomHeight genRatio).bind fun height =>
            randomPuts genRatio pairs (PutCall.after ⟨p.1, p.2, height⟩ sl) := rfl
      _ = (randomHeight genRatio).bind fun height =>
            (draws (randomHeight genRatio) pairs.length).map fun hs =>
              afterAll (callsFor (p :: pairs) (height :: hs)) sl :=
        congrArg _ (funext fun height => ih _)
      _ = _ := by
        rw [List.length_cons, draws, PMF.map_bind]
        refine congrArg _ (funext fun height => ?_)
        rw [PMF.map_comp]
        rfl

/-- The mean after a run, by a bound for every choice of the heights. -/
theorem mean_randomPuts_le (hgen : GenRatio genRatio) {sl : SkipList} {f : SkipList → ℝ≥0∞}
    {g : List ℕ → ℝ≥0∞} (h : ∀ hs : List ℕ, hs.length = pairs.length → (∀ h ∈ hs, h < maxHeight) →
      f (afterAll (callsFor pairs hs) sl) ≤ g hs) :
    mean (randomPuts genRatio pairs sl) f ≤
      mean (draws (randomHeight genRatio) pairs.length) g := by
  rw [randomPuts_eq, mean_map]
  refine mean_mono fun hs hhs => ?_
  obtain ⟨hlen, hmem⟩ := mem_support_draws hhs
  refine h hs hlen fun x hx => ?_
  have hle := (randomHeight_geometric hgen).le x (hmem x hx)
  simp only [maxHeight] at hle ⊢
  omega

/-! ### The calls of a run -/

theorem map_key_callsFor (hlen : hs.length = pairs.length) :
    (callsFor pairs hs).map PutCall.key = pairs.map Prod.fst := by
  calc (callsFor pairs hs).map PutCall.key
      = ((pairs.zip hs).map Prod.fst).map Prod.fst := by
        simp only [callsFor, List.map_map, Function.comp_def]
    _ = pairs.map Prod.fst := by rw [List.map_fst_zip hlen.ge]

theorem callsFor_getElem? {i : ℕ} {c : PutCall} (h : (callsFor pairs hs)[i]? = some c) :
    pairs[i]? = some c.pair ∧ hs[i]? = some c.height := by
  rw [callsFor, List.getElem?_map] at h
  obtain ⟨⟨p, height⟩, hp, rfl⟩ := Option.map_eq_some_iff.1 h
  exact List.getElem?_zip_eq_some.1 hp

theorem callsFor_valid (hpairs : ∀ p ∈ pairs, p.1.length + p.2.length ≤ isizeMax)
    (hhs : ∀ h ∈ hs, h < maxHeight) : ∀ c ∈ callsFor pairs hs, c.Valid := by
  intro c hc
  obtain ⟨p, hp, rfl⟩ := List.mem_map.1 hc
  obtain ⟨hpair, hheight⟩ := List.of_mem_zip hp
  exact ⟨hpairs _ hpair, hhs _ hheight⟩

theorem nodeBytes_le_height (key value : Bytes) (height : ℕ) :
    nodeBytes key value height ≤ key.length + value.length + 39 + 8 * height := by
  simp only [nodeBytes, kvDataOff, towerOff, slotSize]
  omega

/-- The bytes of the nodes, if each of them has all levels. -/
def fullBytes (pairs : List (Bytes × Bytes)) : ℕ :=
  (pairs.map fun p => nodeBytes p.1 p.2 (maxHeight - 1)).sum

theorem callBytes_callsFor_cons (p : Bytes × Bytes) (pairs : List (Bytes × Bytes)) (height : ℕ)
    (hs : List ℕ) : callBytes (callsFor (p :: pairs) (height :: hs)) =
      nodeBytes p.1 p.2 height + callBytes (callsFor pairs hs) := List.sum_cons

theorem callBytes_callsFor_le (hhs : ∀ h ∈ hs, h < maxHeight) :
    callBytes (callsFor pairs hs) ≤ fullBytes pairs := by
  induction pairs generalizing hs with
  | nil => exact Nat.zero_le _
  | cons p pairs ih =>
    cases hs with
    | nil => exact Nat.zero_le _
    | cons height hs =>
      obtain ⟨hheight, hhs⟩ := List.forall_mem_cons.1 hhs
      have hrest := ih hhs
      have hnode : nodeBytes p.1 p.2 height ≤ nodeBytes p.1 p.2 (maxHeight - 1) := by
        simp only [nodeBytes, kvDataOff, towerOff, slotSize, maxHeight] at hheight ⊢
        omega
      rw [callBytes_callsFor_cons, fullBytes, List.map_cons, List.sum_cons]
      exact Nat.add_le_add hnode hrest

theorem length_le_fullBytes (pairs : List (Bytes × Bytes)) :
    pairs.length * 184 ≤ fullBytes pairs ∧
      ∀ p ∈ pairs, p.1.length + p.2.length ≤ fullBytes pairs := by
  induction pairs with
  | nil => exact ⟨Nat.zero_le _, nofun⟩
  | cons p pairs ih =>
    have hfull : fullBytes (p :: pairs) =
        nodeBytes p.1 p.2 (maxHeight - 1) + fullBytes pairs := List.sum_cons
    have hnode : 184 ≤ nodeBytes p.1 p.2 (maxHeight - 1) ∧
        p.1.length + p.2.length ≤ nodeBytes p.1 p.2 (maxHeight - 1) := by
      simp only [nodeBytes, kvDataOff, towerOff, slotSize, maxHeight]
      omega
    refine ⟨?_, fun q hq => ?_⟩
    · rw [List.length_cons]
      omega
    · rcases List.mem_cons.1 hq with rfl | hq
      · omega
      · have hle := ih.2 q hq
        omega

/-! ### Searches -/

theorem inv_one_sub_third : ((1 - 3⁻¹)⁻¹ : ℝ≥0∞) = 3 / 2 := by
  rw [one_sub_third, ENNReal.mul_inv (by simp) (by simp), inv_inv, mul_comm, ENNReal.div_eq_inv_mul,
    mul_comm]

/-- The mean of a height. -/
theorem third_mul_three_halves : (3⁻¹ * (3 / 2) : ℝ≥0∞) = 2⁻¹ := by
  rw [← mul_div_assoc, ENNReal.inv_mul_cancel (by simp) (by simp), one_div]

theorem half_add_one : (2⁻¹ + 1 : ℝ≥0∞) = 3 / 2 := by
  calc (2⁻¹ + 1 : ℝ≥0∞) = 1 / 2 + 2 / 2 := by
        rw [one_div, ENNReal.div_self (by simp) (by simp)]
    _ = 3 / 2 := by
        rw [← ENNReal.add_div]
        norm_num

/-- Two turns for each level below `L`, one to go down from it, and what is left above. -/
theorem turns_sum (L : ℕ) (n : ℝ≥0∞) :
    (L * ((1 - 3⁻¹) * 3⁻¹⁻¹) + n * 3⁻¹ ^ L) + (L + n * (3⁻¹ ^ (L + 1) * (1 - 3⁻¹)⁻¹)) + 1 =
      3 * L + n * 3⁻¹ ^ L * (3 / 2) + 1 := by
  have hstair : ((1 - 3⁻¹) * 3⁻¹⁻¹ : ℝ≥0∞) = 2 := by
    rw [one_sub_third, mul_assoc, ENNReal.mul_inv_cancel (by simp) (by simp), mul_one]
  rw [hstair, inv_one_sub_third, pow_succ]
  calc L * 2 + n * 3⁻¹ ^ L + (L + n * (3⁻¹ ^ L * 3⁻¹ * (3 / 2))) + 1
      = 3 * L + n * 3⁻¹ ^ L * (3⁻¹ * (3 / 2) + 1) + 1 := by ring
    _ = 3 * L + n * 3⁻¹ ^ L * (3 / 2) + 1 := by rw [third_mul_three_halves, half_add_one]

section

variable {cmp : KeyComparator} [Std.TransCmp cmp.compareKey] {sl : SkipList} {capacity L : ℕ}
  {mode : Bool}

/-- **A search after a run**, for every choice of the heights. -/
theorem costs_callsFor (hcap : capacity ≤ 2 ^ 32)
    (hnew : SkipList.withCapacity cmp capacity mode = .ok sl)
    (hroom : 192 + fullBytes pairs ≤ capacity) (hlen : hs.length = pairs.length)
    (hhs : ∀ h ∈ hs, h < maxHeight) (key : Bytes) (L : ℕ) :
    (afterAll (callsFor pairs hs) sl).Costs key ∧
      ((afterAll (callsFor pairs hs) sl).stairs key).length +
          (afterAll (callsFor pairs hs) sl).height ≤
        (StoneDb.stairs (fun i => keyPos cmp ((pairs.map Prod.fst).getD i [])) (hs.getD · 0)
          (firsts cmp (pairs.map Prod.fst)) ⊥ (keyPos cmp key)).card +
        (L + ∑ i ∈ firsts cmp (pairs.map Prod.fst), (hs.getD i 0 - L)) := by
  have hfull : fullBytes pairs ≤ isizeMax := by
    simp only [isizeMax]
    omega
  have hvalid : ∀ c ∈ callsFor pairs hs, c.Valid :=
    callsFor_valid (fun p hp => ((length_le_fullBytes pairs).2 p hp).trans hfull) hhs
  have hcosts := (reachable_afterAll hnew hvalid).costs hcap key
  obtain ⟨S, node, hwf, hplaced⟩ := placed_afterAll hcap hnew hvalid
    ((Nat.add_le_add_left (callBytes_callsFor_le hhs) _).trans hroom)
  have hkeys := map_key_callsFor hlen
  have hnode (i : ℕ) (hi : i ∈ firsts cmp (pairs.map Prod.fst)) :
      pos cmp (afterAll (callsFor pairs hs) sl) (node i) =
          keyPos cmp ((pairs.map Prod.fst).getD i []) ∧
        (afterAll (callsFor pairs hs) sl).arena.heightAt (node i) = hs.getD i 0 := by
    rw [← hkeys] at hi ⊢
    obtain ⟨c, hc, hkey, hheight⟩ := hplaced.holds i hi
    have hmem : node i ∈ S 0 := hplaced.nodes ▸ Finset.mem_image_of_mem node hi
    rw [hwf.pos_mem hmem, hkey, Placed.key_eq hc, hheight, List.getD_eq_getElem?_getD,
      (callsFor_getElem? hc).2]
    exact ⟨rfl, rfl⟩
  refine ⟨hcosts, Nat.add_le_add ?_ (hplaced.height _ fun i hi c hc => ?_)⟩
  · rw [hwf.length_stairs, stairsAt, hplaced.nodes, stairs_image, hkeys, pos_head]
    refine Finset.card_image_le.trans (le_of_eq (congrArg _ ?_))
    exact stairs_congr (fun i hi => (hnode i hi).1) fun i hi => (hnode i hi).2
  · rw [hkeys] at hi
    have hle := Finset.single_le_sum (f := fun i => hs.getD i 0 - L) (fun _ _ => Nat.zero_le _) hi
    have hheight : hs.getD i 0 = c.height := by
      rw [List.getD_eq_getElem?_getD, (callsFor_getElem? hc).2]
      rfl
    simp only [hheight] at hle
    omega

/-- The mean of what a search costs, with the levels from `L` on counted apart. -/
theorem mean_turns_le (hgen : GenRatio genRatio) (hcap : capacity ≤ 2 ^ 32)
    (hnew : SkipList.withCapacity cmp capacity mode = .ok sl)
    (hroom : 192 + fullBytes pairs ≤ capacity) {key : Bytes} {turns : SkipList → ℕ}
    (hturns : ∀ sl' : SkipList, sl'.Costs key →
      turns sl' ≤ (sl'.stairs key).length + sl'.height + 1) (hL : L ≤ maxHeight - 1) :
    mean (randomPuts genRatio pairs sl) (fun sl' => (turns sl' : ℝ≥0∞)) ≤
      3 * L + pairs.length * 3⁻¹ ^ L * (3 / 2) + 1 := by
  have hp := randomHeight_geometric hgen
  obtain ⟨K, hK⟩ : ∃ K, firsts cmp (pairs.map Prod.fst) = K := ⟨_, rfl⟩
  have hsub : K ⊆ Finset.range pairs.length := by
    have hrange : firsts cmp (pairs.map Prod.fst) ⊆ Finset.range (pairs.map Prod.fst).length :=
      firsts_subset
    rwa [hK, List.length_map] at hrange
  have hcard : (K.card : ℝ≥0∞) ≤ pairs.length := by
    have hcard := Finset.card_le_card hsub
    rw [Finset.card_range] at hcard
    exact_mod_cast hcard
  calc mean (randomPuts genRatio pairs sl) (fun sl' => (turns sl' : ℝ≥0∞))
      ≤ mean (draws (randomHeight genRatio) pairs.length) (fun hs =>
          ((StoneDb.stairs (fun i => keyPos cmp ((pairs.map Prod.fst).getD i [])) (hs.getD · 0) K ⊥
            (keyPos cmp key)).card : ℝ≥0∞) +
          (L + ∑ i ∈ K, ((hs.getD i 0 - L : ℕ) : ℝ≥0∞)) + 1) := by
        refine mean_randomPuts_le hgen fun hs hlen hhs => ?_
        obtain ⟨hcosts, hle⟩ := costs_callsFor hcap hnew hroom hlen hhs key L
        rw [hK] at hle
        exact_mod_cast (hturns _ hcosts).trans (Nat.succ_le_succ hle)
    _ ≤ (L * ((1 - 3⁻¹) * 3⁻¹⁻¹) + K.card * 3⁻¹ ^ L) +
          (L + ∑ i ∈ K, 3⁻¹ ^ (L + 1) * (1 - 3⁻¹)⁻¹) + 1 := by
        rw [mean_add, mean_add, mean_add, mean_sum, mean_const, mean_const]
        gcongr with i hi
        · exact hp.mean_stairs_le (by simp) hL hsub (hK ▸ injOn_firsts) ⊥ (keyPos cmp key)
        · rw [mean_draws_getD (fun h => ((h - L : ℕ) : ℝ≥0∞)) (Finset.mem_range.1 (hsub hi))]
          exact hp.mean_sub_le L
    _ = 3 * L + K.card * 3⁻¹ ^ L * (3 / 2) + 1 := by
        rw [Finset.sum_const, nsmul_eq_mul, turns_sum]
    _ ≤ 3 * L + pairs.length * 3⁻¹ ^ L * (3 / 2) + 1 := by
        gcongr

/-- **Searches are logarithmic** on average, whatever the keys and their order: in a list with room
for the nodes of all calls, after `n` of them. -/
theorem search_turns_expected (hgen : GenRatio genRatio) (hcap : capacity ≤ 2 ^ 32)
    (hnew : SkipList.withCapacity cmp capacity mode = .ok sl)
    (hroom : 192 + fullBytes pairs ≤ capacity) (key : Bytes) :
    mean (randomPuts genRatio pairs sl) (fun sl' => (sl'.lowerBoundTurns key : ℝ≥0∞)) ≤
        3 * (Nat.clog 3 pairs.length : ℕ) + 5 / 2 ∧
      ∀ less allowEqual : Bool, mean (randomPuts genRatio pairs sl) (fun sl' =>
          (sl'.findNearTurns key less allowEqual : ℝ≥0∞)) ≤
        3 * (Nat.clog 3 pairs.length : ℕ) + 5 / 2 := by
  have hlen := (length_le_fullBytes pairs).1
  have hL : Nat.clog 3 pairs.length ≤ maxHeight - 1 :=
    Nat.clog_le_of_le_pow (by simp only [maxHeight]; omega)
  have hpow : (pairs.length : ℝ≥0∞) * 3⁻¹ ^ Nat.clog 3 pairs.length ≤ 1 := by
    calc (pairs.length : ℝ≥0∞) * 3⁻¹ ^ Nat.clog 3 pairs.length
        ≤ 3 ^ Nat.clog 3 pairs.length * 3⁻¹ ^ Nat.clog 3 pairs.length := by
          gcongr
          exact_mod_cast Nat.le_pow_clog (by decide) pairs.length
      _ = 1 := by rw [← mul_pow, ENNReal.mul_inv_cancel (by simp) (by simp), one_pow]
  have hbound : 3 * ((Nat.clog 3 pairs.length : ℕ) : ℝ≥0∞) +
      pairs.length * 3⁻¹ ^ Nat.clog 3 pairs.length * (3 / 2) + 1 ≤
        3 * (Nat.clog 3 pairs.length : ℕ) + 5 / 2 := by
    rw [add_assoc]
    gcongr
    calc (pairs.length : ℝ≥0∞) * 3⁻¹ ^ Nat.clog 3 pairs.length * (3 / 2) + 1
        ≤ 1 * (3 / 2) + 1 := by gcongr
      _ = 3 / 2 + 2 / 2 := by rw [one_mul, ENNReal.div_self (by simp) (by simp)]
      _ = 5 / 2 := by
        rw [← ENNReal.add_div]
        norm_num
  exact ⟨(mean_turns_le hgen hcap hnew hroom (fun _ h => h.lowerBound_le) hL).trans hbound,
    fun less allowEqual => (mean_turns_le hgen hcap hnew hroom
      (fun _ h => h.findNear_le less allowEqual) hL).trans hbound⟩

/-- Three calls, for two keys. -/
theorem search_turns_expected_three :
    ∃ sl, SkipList.withCapacity bytewiseComparator 1000 true = .ok sl ∧
      mean (randomPuts ratioCoin [([5], []), ([3], [1]), ([5], [2])] sl)
        (fun sl' => (sl'.lowerBoundTurns [4] : ℝ≥0∞)) ≤ 3 * (Nat.clog 3 3 : ℕ) + 5 / 2 := by
  obtain ⟨sl, hsl⟩ : ∃ sl, SkipList.withCapacity bytewiseComparator 1000 true = .ok sl := ⟨_, rfl⟩
  exact ⟨sl, hsl, (search_turns_expected genRatio_ratioCoin (by decide) hsl (by decide) [4]).1⟩

/-! ### Memory -/

/-- The bytes of a node, on average. -/
theorem mean_nodeBytes_le (hgen : GenRatio genRatio) (key value : Bytes) :
    mean (randomHeight genRatio) (fun h => (nodeBytes key value h : ℝ≥0∞)) ≤
      (key.length + value.length + 43 : ℕ) := by
  have hfour : (8 * 2⁻¹ : ℝ≥0∞) = 4 := by
    rw [show (8 : ℝ≥0∞) = 4 * 2 by norm_num, mul_assoc,
      ENNReal.mul_inv_cancel (by simp) (by simp), mul_one]
  calc mean (randomHeight genRatio) (fun h => (nodeBytes key value h : ℝ≥0∞))
      ≤ mean (randomHeight genRatio) (fun h =>
          ((key.length + value.length + 39 : ℕ) : ℝ≥0∞) + 8 * ((h - 0 : ℕ) : ℝ≥0∞)) := by
        refine mean_mono fun h _ => ?_
        exact_mod_cast nodeBytes_le_height key value h
    _ ≤ (key.length + value.length + 39 : ℕ) + 8 * 2⁻¹ := by
        rw [mean_add, mean_const, mean_const_mul]
        gcongr
        refine ((randomHeight_geometric hgen).mean_sub_le 0).trans ?_
        rw [zero_add, pow_one, inv_one_sub_third, third_mul_three_halves]
    _ = (key.length + value.length + 43 : ℕ) := by
        rw [hfour]
        norm_cast

/-- The bytes of the nodes of all calls, on average. -/
theorem mean_callBytes_le (hgen : GenRatio genRatio) (pairs : List (Bytes × Bytes)) :
    mean (draws (randomHeight genRatio) pairs.length) (fun hs =>
        (callBytes (callsFor pairs hs) : ℝ≥0∞)) ≤
      ((pairs.map fun p => p.1.length + p.2.length + 43).sum : ℕ) := by
  induction pairs with
  | nil => exact (mean_pure _ _).trans_le (by simp [callBytes, callsFor])
  | cons p pairs ih =>
    calc mean (draws (randomHeight genRatio) (p :: pairs).length) (fun hs =>
          (callBytes (callsFor (p :: pairs) hs) : ℝ≥0∞))
        = mean (randomHeight genRatio) (fun h => (nodeBytes p.1 p.2 h : ℝ≥0∞)) +
            mean (draws (randomHeight genRatio) pairs.length) (fun hs =>
              (callBytes (callsFor pairs hs) : ℝ≥0∞)) := by
          rw [List.length_cons, draws, mean_bind]
          simp only [mean_map, callBytes_callsFor_cons, Nat.cast_add, mean_add, mean_const]
      _ ≤ (p.1.length + p.2.length + 43 : ℕ) +
            ((pairs.map fun p => p.1.length + p.2.length + 43).sum : ℕ) :=
          add_le_add (mean_nodeBytes_le hgen p.1 p.2) ih
      _ = _ := by
          rw [List.map_cons, List.sum_cons]
          exact (Nat.cast_add _ _).symm

/-- **A node takes 43 bytes besides its key and its value**, on average: after any calls, whether
there is room for them or not. -/
theorem memSize_expected (hgen : GenRatio genRatio) (hcap : capacity ≤ 2 ^ 32)
    (hnew : SkipList.withCapacity cmp capacity mode = .ok sl)
    (hpairs : ∀ p ∈ pairs, p.1.length + p.2.length ≤ isizeMax) :
    mean (randomPuts genRatio pairs sl) (fun sl' => (sl'.memSize : ℝ≥0∞)) ≤
      192 + ((pairs.map fun p => p.1.length + p.2.length + 43).sum : ℕ) := by
  calc mean (randomPuts genRatio pairs sl) (fun sl' => (sl'.memSize : ℝ≥0∞))
      ≤ mean (draws (randomHeight genRatio) pairs.length) (fun hs => 192 +
          (callBytes (callsFor pairs hs) : ℝ≥0∞)) := by
        refine mean_randomPuts_le hgen fun hs hlen hhs => ?_
        exact_mod_cast memSize_afterAll hcap hnew (callsFor_valid hpairs hhs)
    _ ≤ 192 + ((pairs.map fun p => p.1.length + p.2.length + 43).sum : ℕ) := by
        rw [mean_add, mean_const]
        gcongr
        exact mean_callBytes_le hgen pairs

/-- The same calls, in a list that has room for one node. -/
theorem memSize_expected_three :
    ∃ sl, SkipList.withCapacity bytewiseComparator 240 false = .ok sl ∧
      mean (randomPuts ratioCoin [([5], []), ([3], [1]), ([5], [2])] sl)
        (fun sl' => (sl'.memSize : ℝ≥0∞)) ≤ 192 + ((44 + 45 + 45 : ℕ) : ℝ≥0∞) := by
  obtain ⟨sl, hsl⟩ : ∃ sl, SkipList.withCapacity bytewiseComparator 240 false = .ok sl := ⟨_, rfl⟩
  exact ⟨sl, hsl, memSize_expected genRatio_ratioCoin (by decide) hsl (by decide)⟩

end

end StoneDb
