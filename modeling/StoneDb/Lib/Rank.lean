import Mathlib.Order.Antisymmetrization
import Mathlib.Order.WithBot

/-!
# The linear order of a comparator

A comparator `cmp : α → α → Ordering` that satisfies `Std.TransCmp` is a total preorder.  Its
quotient by `cmp a b = .eq` is a linear order `Rank cmp`, and `rank cmp a` is the class of `a`.
Order reasoning about keys is done on ranks, where the order tactics apply; `rank_lt_rank`,
`rank_eq_rank` and `rank_le_rank` translate back to the comparator.

The bottom element of `WithBot (Rank cmp)` is a position before every key: sentinels sit there.
-/

namespace StoneDb

variable {α : Type*} (cmp : α → α → Ordering)

/-- `α` preordered by `cmp`. -/
structure Ranked (cmp : α → α → Ordering) where
  /-- The element. -/
  val : α

section

variable [Std.TransCmp cmp]

instance : Preorder (Ranked cmp) where
  le a b := (cmp a.val b.val).isLE = true
  lt a b := cmp a.val b.val = .lt
  le_refl a := by simp only [@Std.ReflCmp.compare_self _ cmp, Ordering.isLE]
  le_trans _ _ _ := Std.TransCmp.isLE_trans
  lt_iff_le_not_ge a b := by
    rw [@Std.OrientedCmp.eq_swap _ cmp _ b.val a.val]
    cases cmp a.val b.val <;> decide

theorem Ranked.le_iff {a b : Ranked cmp} : a ≤ b ↔ (cmp a.val b.val).isLE = true := Iff.rfl

theorem Ranked.lt_iff {a b : Ranked cmp} : a < b ↔ cmp a.val b.val = .lt := Iff.rfl

theorem Ranked.le_total (a b : Ranked cmp) : a ≤ b ∨ b ≤ a := by
  rw [Ranked.le_iff, Ranked.le_iff,
    @Std.OrientedCmp.eq_swap _ cmp _ b.val a.val]
  cases cmp a.val b.val <;> decide

/-- The classes of `α` under `cmp a b = .eq`, linearly ordered by `cmp`. -/
abbrev Rank : Type _ := Antisymmetrization (Ranked cmp) (· ≤ ·)

noncomputable instance : LinearOrder (Rank cmp) where
  le_total a b := by
    induction a using Antisymmetrization.ind with | _ a
    induction b using Antisymmetrization.ind with | _ b
    exact Ranked.le_total cmp a b
  toDecidableLE := Classical.decRel _

/-- The class of `a`. -/
def rank (a : α) : Rank cmp := toAntisymmetrization (· ≤ ·) ⟨a⟩

theorem rank_lt_rank {a b : α} : rank cmp a < rank cmp b ↔ cmp a b = .lt :=
  toAntisymmetrization_lt_toAntisymmetrization_iff.trans (Ranked.lt_iff cmp)

theorem rank_le_rank {a b : α} : rank cmp a ≤ rank cmp b ↔ cmp a b ≠ .gt := by
  refine (toAntisymmetrization_le_toAntisymmetrization_iff.trans (Ranked.le_iff cmp)).trans ?_
  cases cmp a b <;> decide

theorem rank_lt_rank_iff_gt {a b : α} : rank cmp b < rank cmp a ↔ cmp a b = .gt := by
  rw [rank_lt_rank, @Std.OrientedCmp.eq_swap _ cmp _ b a]
  cases cmp a b <;> decide

theorem rank_eq_rank {a b : α} : rank cmp a = rank cmp b ↔ cmp a b = .eq := by
  rw [le_antisymm_iff, rank_le_rank, rank_le_rank,
    @Std.OrientedCmp.eq_swap _ cmp _ b a]
  cases cmp a b <;> decide

/-- When `cmp` answers `.eq` on identical elements only, the rank identifies nothing. -/
theorem rank_injective [Std.LawfulEqCmp cmp] : Function.Injective (rank cmp) := fun _ _ h =>
  Std.LawfulEqCmp.eq_of_compare ((rank_eq_rank cmp).1 h)

end

end StoneDb
