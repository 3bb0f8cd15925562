import Mathlib.Data.List.Basic
import Mathlib.Tactic.Ring

/-!
# Regrouping bits

Numbers of a fixed width are written one after another as one string of bits (`bitString`), and a
string of bits is cut into numbers of a fixed width (`ungroup`).  `ungroup_bitString` and
`bitString_ungroup` : each undoes the other, so numbers of one width can be read as numbers of
another.  Lists are cut by `chunks`, which leaves the last piece shorter if the length does not
divide.
-/

namespace StoneDb

variable {α β : Type}

/-! ### Pieces of a list -/

/-- The pieces of a list, as many as the fuel lasts. -/
def chunksGo (n : ℕ) : ℕ → List α → List (List α)
  | fuel + 1, a :: l => (a :: l).take n :: chunksGo n fuel ((a :: l).drop n)
  | _, _ => []

/-- The list in pieces of `n` elements, the last of which may be shorter. -/
def chunks (n : ℕ) (l : List α) : List (List α) := chunksGo n l.length l

variable {n w : ℕ} {l l' : List α}

/-- Any fuel does that is not below the length. -/
theorem chunksGo_eq (hn : 0 < n) {fuel : ℕ} (h : l.length ≤ fuel) :
    chunksGo n fuel l = chunks n l := by
  have hall : ∀ {fuel fuel' : ℕ} {l : List α}, l.length ≤ fuel → l.length ≤ fuel' →
      chunksGo n fuel l = chunksGo n fuel' l := by
    intro fuel
    induction fuel with
    | zero =>
      intro fuel' l h _
      obtain rfl := List.length_eq_zero_iff.1 (Nat.le_zero.1 h)
      cases fuel' <;> rfl
    | succ fuel ih =>
      intro fuel' l h h'
      cases l with
      | nil => cases fuel' <;> rfl
      | cons a l =>
        cases fuel' with
        | zero => simp at h'
        | succ fuel' =>
          rw [List.length_cons] at h h'
          have hdrop : ((a :: l).drop n).length ≤ l.length := by
            rw [List.length_drop, List.length_cons]
            omega
          have hfuel : l.length ≤ fuel := Nat.le_of_succ_le_succ h
          have hfuel' : l.length ≤ fuel' := Nat.le_of_succ_le_succ h'
          rw [chunksGo, chunksGo, ih (hdrop.trans hfuel) (hdrop.trans hfuel')]
  exact hall h le_rfl

/-- The first piece and the others. -/
theorem chunks_append (hn : 0 < n) (hl : l.length = n) (l' : List α) :
    chunks n (l ++ l') = l :: chunks n l' := by
  cases l with
  | nil => simp at hl; omega
  | cons a l =>
    have hfuel : (a :: l ++ l').length = (l ++ l').length + 1 := rfl
    rw [chunks, hfuel, List.cons_append, chunksGo, ← List.cons_append, List.take_left' hl,
      List.drop_left' hl, chunksGo_eq hn (by simp)]

/-- A short list is one piece. -/
theorem chunks_of_le (hl : l ≠ []) (h : l.length ≤ n) : chunks n l = [l] := by
  cases l with
  | nil => exact absurd rfl hl
  | cons a l =>
    rw [chunks, List.length_cons, chunksGo, List.take_of_length_le h, List.drop_of_length_le h]
    cases l <;> rfl

/-- **Induction on the pieces of a list.** -/
theorem chunks_induction {P : List α → Prop} (hn : 0 < n) (hnil : P [])
    (hlast : ∀ l, l ≠ [] → l.length < n → P l)
    (happend : ∀ l l', l.length = n → P l' → P (l ++ l')) (l : List α) : P l := by
  induction hlen : l.length using Nat.strong_induction_on generalizing l with
  | _ k ih =>
    subst hlen
    by_cases hl : l = []
    · exact hl ▸ hnil
    by_cases hlt : l.length < n
    · exact hlast l hl hlt
    · rw [← List.take_append_drop n l]
      have hdrop : (l.drop n).length < l.length := by
        rw [List.length_drop]
        omega
      exact happend _ _ (List.length_take_of_le (not_lt.1 hlt)) (ih _ hdrop _ rfl)

/-- Parts of the same length are the pieces. -/
theorem chunks_flatMap (hn : 0 < n) {f : β → List α} (hf : ∀ x, (f x).length = n) (xs : List β) :
    chunks n (xs.flatMap f) = xs.map f := by
  induction xs with
  | nil => rfl
  | cons x xs ih => rw [List.flatMap_cons, chunks_append hn (hf x), ih, List.map_cons]

/-! ### Bits of a number -/

/-- The `w` low bits of `x`, the most significant first. -/
def bits : ℕ → ℕ → List Bool
  | 0, _ => []
  | w + 1, x => x.testBit w :: bits w x

/-- The number that bits spell. -/
def ofBits : List Bool → ℕ
  | [] => 0
  | b :: l => 2 ^ l.length * b.toNat + ofBits l

@[simp] theorem length_bits (w x : ℕ) : (bits w x).length = w := by
  induction w with
  | zero => rfl
  | succ w ih => rw [bits, List.length_cons, ih]

theorem bits_congr {x y : ℕ} (h : ∀ i < w, x.testBit i = y.testBit i) : bits w x = bits w y := by
  induction w with
  | zero => rfl
  | succ w ih =>
    rw [bits, bits, h w (Nat.lt_succ_self w), ih fun i hi => h i (Nat.lt_succ_of_lt hi)]

/-- The high bits and the low bits. -/
theorem bits_add (v w x : ℕ) : bits (v + w) x = bits v (x >>> w) ++ bits w x := by
  induction v with
  | zero => rw [Nat.zero_add, bits, List.nil_append]
  | succ v ih =>
    rw [Nat.add_right_comm, bits, ih, bits, List.cons_append, Nat.testBit_shiftRight, Nat.add_comm]

theorem bits_mod (w x : ℕ) : bits w (x % 2 ^ w) = bits w x := by
  refine bits_congr fun i hi => ?_
  rw [Nat.testBit_mod_two_pow, decide_eq_true hi, Bool.true_and]

/-- Masked bits are the low bits. -/
theorem bits_and_mask (w x : ℕ) : bits w (x &&& (2 ^ w - 1)) = bits w x := by
  rw [Nat.and_two_pow_sub_one_eq_mod, bits_mod]

/-- **Two fields of bits in one number.** -/
theorem bits_join (v : ℕ) (x : ℕ) {y : ℕ} (hy : y < 2 ^ w) :
    bits (v + w) ((x <<< w) ||| y) = bits v x ++ bits w y := by
  have hhigh : ((x <<< w) ||| y) >>> w = x := by
    rw [Nat.shiftRight_or_distrib, Nat.shiftLeft_shiftRight, Nat.shiftRight_eq_zero y w hy,
      Nat.or_zero]
  have hlow : bits w ((x <<< w) ||| y) = bits w y := by
    refine bits_congr fun i hi => ?_
    rw [Nat.testBit_or, Nat.testBit_shiftLeft, decide_eq_false (not_le.2 hi), Bool.false_and,
      Bool.false_or]
  rw [bits_add, hhigh, hlow]

/-- **Bits carried from one number to the next**: the `v` low bits of `x` go before `y`. -/
theorem bits_carry (u v : ℕ) (x : ℕ) {y : ℕ} (hy : y < 2 ^ w) :
    bits u (x >>> v) ++ bits (v + w) (((x &&& (2 ^ v - 1)) <<< w) ||| y) =
      bits (u + v) x ++ bits w y := by
  rw [bits_join v _ hy, bits_and_mask, bits_add u v, List.append_assoc]

theorem shiftRight_lt {v x : ℕ} (h : x < 2 ^ (v + w)) : x >>> w < 2 ^ v := by
  rw [Nat.shiftRight_eq_div_pow]
  refine Nat.div_lt_of_lt_mul ?_
  rwa [← pow_add, Nat.add_comm]

theorem and_mask_lt (x w : ℕ) : x &&& (2 ^ w - 1) < 2 ^ w :=
  Nat.and_lt_two_pow x (Nat.sub_lt (Nat.two_pow_pos w) Nat.one_pos)

theorem join_lt {v x y : ℕ} (hx : x < 2 ^ v) (hy : y < 2 ^ w) :
    (x <<< w) ||| y < 2 ^ (v + w) := by
  refine Nat.or_lt_two_pow ?_ (hy.trans_le (Nat.pow_le_pow_right (by decide) (by omega)))
  rw [Nat.shiftLeft_eq, pow_add]
  exact Nat.mul_lt_mul_of_pos_right hx (Nat.two_pow_pos w)

theorem bits_zero (w : ℕ) : bits w 0 = List.replicate w false := by
  induction w with
  | zero => rfl
  | succ w ih => rw [bits, ih, Nat.zero_testBit, List.replicate_succ]

theorem ofBits_lt (l : List Bool) : ofBits l < 2 ^ l.length := by
  induction l with
  | nil => exact Nat.one_pos
  | cons b l ih =>
    have hb : b.toNat ≤ 1 := Bool.toNat_le b
    have hmul := Nat.mul_le_mul_left (2 ^ l.length) hb
    rw [List.length_cons, pow_succ, ofBits]
    omega

theorem ofBits_bits (w x : ℕ) : ofBits (bits w x) = x % 2 ^ w := by
  induction w with
  | zero => rw [bits, ofBits, pow_zero, Nat.mod_one]
  | succ w ih =>
    rw [bits, ofBits, ih, length_bits, Nat.toNat_testBit, pow_succ, Nat.mod_mul, Nat.add_comm]

theorem bits_ofBits (l : List Bool) : bits l.length (ofBits l) = l := by
  induction l with
  | nil => rfl
  | cons b l ih =>
    have hlt := ofBits_lt l
    have hhead : (ofBits (b :: l)).testBit l.length = b := by
      rw [ofBits, Nat.testBit_two_pow_mul_add _ hlt, if_neg (lt_irrefl _), Nat.sub_self]
      cases b <;> rfl
    have htail : bits l.length (ofBits (b :: l)) = bits l.length (ofBits l) := by
      refine bits_congr fun i hi => ?_
      rw [ofBits, Nat.testBit_two_pow_mul_add _ hlt, if_pos hi]
    rw [List.length_cons, bits, hhead, htail, ih]

/-! ### Strings of bits -/

/-- Numbers of `w` bits, one after another. -/
def bitString (w : ℕ) (xs : List ℕ) : List Bool := xs.flatMap (bits w)

/-- The numbers of `w` bits that follow one another. -/
def ungroup (w : ℕ) (l : List Bool) : List ℕ := (chunks w l).map ofBits

@[simp] theorem bitString_nil (w : ℕ) : bitString w [] = [] := rfl

@[simp] theorem bitString_cons (w x : ℕ) (xs : List ℕ) :
    bitString w (x :: xs) = bits w x ++ bitString w xs := rfl

@[simp] theorem bitString_append (w : ℕ) (xs ys : List ℕ) :
    bitString w (xs ++ ys) = bitString w xs ++ bitString w ys := List.flatMap_append

@[simp] theorem length_bitString (w : ℕ) (xs : List ℕ) :
    (bitString w xs).length = w * xs.length := by
  induction xs with
  | nil => rfl
  | cons x xs ih =>
    rw [bitString_cons, List.length_append, length_bits, ih, List.length_cons]
    ring

theorem bitString_zeros (w n : ℕ) :
    bitString w (List.replicate n 0) = List.replicate (w * n) false := by
  induction n with
  | zero => rfl
  | succ n ih =>
    rw [List.replicate_succ, bitString_cons, bits_zero, ih, List.replicate_append_replicate]
    congr 1
    ring

/-- The first numbers have the first bits. -/
theorem bitString_take (w n : ℕ) (xs : List ℕ) :
    bitString w (xs.take n) = (bitString w xs).take (w * n) := by
  induction xs generalizing n with
  | nil => simp
  | cons x xs ih =>
    cases n with
    | zero => simp
    | succ n =>
      have hwidth : w * (n + 1) = (bits w x).length + w * n := by
        rw [length_bits]
        ring
      rw [List.take_succ_cons, bitString_cons, bitString_cons, ih, hwidth,
        List.take_length_add_append]

/-- **Numbers below `2 ^ w` can be read back from their bits.** -/
theorem ungroup_bitString (hw : 0 < w) {xs : List ℕ} (h : ∀ x ∈ xs, x < 2 ^ w) :
    ungroup w (bitString w xs) = xs := by
  rw [ungroup, bitString, chunks_flatMap hw fun x => length_bits w x, List.map_map]
  refine (List.map_congr_left fun x hx => ?_).trans (List.map_id xs)
  exact (ofBits_bits w x).trans (Nat.mod_eq_of_lt (h x hx))

/-- Bits that are whole numbers of `w` bits are written back. -/
theorem bitString_ungroup (hw : 0 < w) {l : List Bool} (h : w ∣ l.length) :
    bitString w (ungroup w l) = l := by
  induction l using chunks_induction hw with
  | hnil => rfl
  | hlast l hl hlt => exact absurd (Nat.le_of_dvd (List.length_pos_iff.2 hl) h) (not_le.2 hlt)
  | happend l l' hlen ih =>
    rw [List.length_append, hlen, Nat.dvd_add_right dvd_rfl] at h
    rw [ungroup, chunks_append hw hlen, List.map_cons, bitString_cons, ← ungroup, ih h]
    congr 1
    rw [← hlen, bits_ofBits]

theorem bitString_mod (w : ℕ) (xs : List ℕ) :
    bitString w (xs.map fun x => x % 2 ^ w) = bitString w xs := by
  induction xs with
  | nil => rfl
  | cons x xs ih => rw [List.map_cons, bitString_cons, bits_mod, ih, bitString_cons]

/-- Different numbers have different bits. -/
theorem bitString_inj (hw : 0 < w) {xs ys : List ℕ} (hxs : ∀ x ∈ xs, x < 2 ^ w)
    (hys : ∀ y ∈ ys, y < 2 ^ w) (h : bitString w xs = bitString w ys) : xs = ys := by
  rw [← ungroup_bitString hw hxs, h, ungroup_bitString hw hys]

end StoneDb
