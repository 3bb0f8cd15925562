import Mathlib.Data.Nat.Basic
import Mathlib.Order.Compare
import Mathlib.Tactic.Ring

/-!
# Big-endian bytes

The `n` big-endian bytes of a number (`beBytes`) and the number that a byte string spells (`ofBe`).
Their point is the order: on byte strings of one length, the lexicographic order is the order of the
numbers they spell (`compare_ofBe`, `compare_beBytes`), so a number stored big-endian inside a byte
string sorts as a number.
-/

namespace StoneDb

/-- The `n` low bytes of `x`, the most significant first. -/
def beBytes : ℕ → ℕ → List UInt8
  | 0, _ => []
  | n + 1, x => UInt8.ofNat (x / 256 ^ n) :: beBytes n x

/-- The number that big-endian bytes spell. -/
def ofBe : List UInt8 → ℕ
  | [] => 0
  | b :: l => b.toNat * 256 ^ l.length + ofBe l

@[simp] theorem length_beBytes (n x : ℕ) : (beBytes n x).length = n := by
  induction n with
  | zero => rfl
  | succ n ih => rw [beBytes, List.length_cons, ih]

theorem ofBe_lt (l : List UInt8) : ofBe l < 256 ^ l.length := by
  induction l with
  | nil => simp [ofBe]
  | cons b l ih =>
    have hb : b.toNat + 1 ≤ 256 := b.toNat_lt
    calc ofBe (b :: l) < b.toNat * 256 ^ l.length + 256 ^ l.length := by
          simpa only [ofBe] using Nat.add_lt_add_left ih _
      _ = (b.toNat + 1) * 256 ^ l.length := by ring
      _ ≤ 256 * 256 ^ l.length := Nat.mul_le_mul_right _ hb
      _ = 256 ^ (b :: l).length := by rw [List.length_cons, pow_succ, mul_comm]

theorem ofBe_beBytes (n x : ℕ) : ofBe (beBytes n x) = x % 256 ^ n := by
  induction n with
  | zero => simp [beBytes, ofBe, Nat.mod_one]
  | succ n ih =>
    have hbyte : (UInt8.ofNat (x / 256 ^ n)).toNat = x / 256 ^ n % 256 := by simp
    rw [beBytes, ofBe, ih, length_beBytes, hbyte, pow_succ, Nat.mod_mul, mul_comm, add_comm]

theorem ofBe_beBytes_of_lt {n x : ℕ} (h : x < 256 ^ n) : ofBe (beBytes n x) = x := by
  rw [ofBe_beBytes, Nat.mod_eq_of_lt h]

/-- Only the low bytes of a number are spelled. -/
theorem beBytes_mod (n x : ℕ) : beBytes n (x % 256 ^ n) = beBytes n x := by
  induction n generalizing x with
  | zero => rfl
  | succ n ih =>
    have hhead : UInt8.ofNat (x % 256 ^ (n + 1) / 256 ^ n) = UInt8.ofNat (x / 256 ^ n) := by
      rw [pow_succ, Nat.mod_mul_right_div_self]
      exact UInt8.toNat_inj.1 (by simp)
    have htail : beBytes n (x % 256 ^ (n + 1)) = beBytes n x := by
      rw [← ih, Nat.mod_mod_of_dvd _ (pow_dvd_pow 256 n.le_succ), ih]
    rw [beBytes, beBytes, hhead, htail]

/-- The bytes spell their number. -/
theorem beBytes_ofBe (l : List UInt8) : beBytes l.length (ofBe l) = l := by
  induction l with
  | nil => rfl
  | cons b l ih =>
    have hlt := ofBe_lt l
    have hdiv : (b.toNat * 256 ^ l.length + ofBe l) / 256 ^ l.length = b.toNat := by
      rw [mul_comm, Nat.mul_add_div (Nat.pow_pos (by decide)), Nat.div_eq_of_lt hlt, add_zero]
    have hmod : (b.toNat * 256 ^ l.length + ofBe l) % 256 ^ l.length = ofBe l := by
      rw [mul_comm, Nat.mul_add_mod, Nat.mod_eq_of_lt hlt]
    rw [List.length_cons, beBytes, ofBe, hdiv, ← beBytes_mod, hmod, ih, UInt8.ofNat_toNat]

theorem ofBe_append (l l' : List UInt8) : ofBe (l ++ l') = ofBe l * 256 ^ l'.length + ofBe l' := by
  induction l with
  | nil => simp [ofBe]
  | cons b l ih =>
    rw [List.cons_append, ofBe, ih, ofBe, List.length_append, pow_add]
    ring

theorem compare_uint8 (a b : UInt8) : compare a b = compare a.toNat b.toNat := by
  rw [Nat.compare_eq_ite_lt]
  simp only [compare, compareOfLessAndEq, UInt8.lt_iff_toNat_lt, ← UInt8.toNat_inj]
  split_ifs <;> first | rfl | omega

/-- After two parts of one length, the rests decide between equal parts. -/
theorem compare_append {l₁ l₂ : List UInt8} (h : l₁.length = l₂.length) (r₁ r₂ : List UInt8) :
    compare (l₁ ++ r₁) (l₂ ++ r₂) = (compare l₁ l₂).then (compare r₁ r₂) := by
  induction l₁ generalizing l₂ with
  | nil =>
    obtain rfl := List.length_eq_zero_iff.1 h.symm
    rfl
  | cons b₁ l₁ ih =>
    cases l₂ with
    | nil => cases h
    | cons b₂ l₂ =>
      rw [List.cons_append, List.cons_append, List.compare_cons_cons, List.compare_cons_cons,
        ih (Nat.succ.inj h), Ordering.then_assoc]

/-- **On byte strings of one length, lexicographic order is the order of the numbers.** -/
theorem compare_ofBe {l l' : List UInt8} (h : l.length = l'.length) :
    compare l l' = compare (ofBe l) (ofBe l') := by
  induction l generalizing l' with
  | nil =>
    cases l' with
    | nil => rfl
    | cons b' l' => simp at h
  | cons b l ih =>
    cases l' with
    | nil => simp at h
    | cons b' l' =>
      have hlen : l.length = l'.length := by simpa using h
      have hl := ofBe_lt l
      have hl' := ofBe_lt l'
      rw [List.compare_cons_cons, ih hlen, compare_uint8, ofBe, ofBe, ← hlen]
      rw [← hlen] at hl'
      generalize 256 ^ l.length = w at hl hl' ⊢
      rcases Nat.lt_trichotomy b.toNat b'.toNat with hb | hb | hb
      · -- the first bytes decide, whatever follows
        have hmul := Nat.mul_le_mul_right w (Nat.succ_le_of_lt hb)
        rw [Nat.succ_mul] at hmul
        rw [compare_lt_iff_lt.2 hb,
          compare_lt_iff_lt.2 (show b.toNat * w + ofBe l < b'.toNat * w + ofBe l' by omega)]
        rfl
      · rw [hb, compare_eq_iff_eq.2 rfl]
        rcases Nat.lt_trichotomy (ofBe l) (ofBe l') with hr | hr | hr
        · rw [compare_lt_iff_lt.2 hr, compare_lt_iff_lt.2 (Nat.add_lt_add_left hr _)]
          rfl
        · rw [hr, compare_eq_iff_eq.2 rfl, compare_eq_iff_eq.2 rfl]
          rfl
        · rw [compare_gt_iff_gt.2 hr, compare_gt_iff_gt.2 (Nat.add_lt_add_left hr _)]
          rfl
      · have hmul := Nat.mul_le_mul_right w (Nat.succ_le_of_lt hb)
        rw [Nat.succ_mul] at hmul
        rw [compare_gt_iff_gt.2 hb,
          compare_gt_iff_gt.2 (show b'.toNat * w + ofBe l' < b.toNat * w + ofBe l by omega)]
        rfl

end StoneDb
