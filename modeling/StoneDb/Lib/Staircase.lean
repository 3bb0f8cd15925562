import Mathlib.Data.Finset.Card
import Mathlib.Data.Finset.Insert
import Mathlib.Order.Defs.LinearOrder

/-!
# Staircases

Points `X` have positions in a linear order and heights.  Seen from the position `k`, a point before
`k` is a *stair* if no point between it and `k` is higher: `stairs pos height X c k` are those that
come after the position `c`.

Going right from `c` along the points of at least some height, while all points from `c` to `k` have
at most that height, is going from stair to stair (`stairs_eq_insert`); with nothing left before `k`
there is no stair (`stairs_eq_empty`).  A path that goes right as far as it can and else down comes
past all stairs, and every other point is passed over.
-/

namespace StoneDb

variable {ι P : Type*} [LinearOrder P] {pos : ι → P} {height : ι → ℕ} {X : Finset ι} {c k : P}
  {x y : ι} {l : ℕ}

/-- The points between `c` and `k` such that no point between them and `k` is higher. -/
def stairs (pos : ι → P) (height : ι → ℕ) (X : Finset ι) (c k : P) : Finset ι :=
  {x ∈ X | c < pos x ∧ pos x < k ∧ ∀ y ∈ X, pos x < pos y → pos y < k → height y ≤ height x}

theorem mem_stairs : x ∈ stairs pos height X c k ↔ x ∈ X ∧ c < pos x ∧ pos x < k ∧
    ∀ y ∈ X, pos x < pos y → pos y < k → height y ≤ height x :=
  Finset.mem_filter

theorem stairs_eq_empty (h : ∀ y ∈ X, c < pos y → k ≤ pos y) : stairs pos height X c k = ∅ := by
  refine Finset.eq_empty_of_forall_notMem fun x hx => ?_
  obtain ⟨hx, hc, hk, -⟩ := mem_stairs.1 hx
  exact absurd (h x hx hc) (not_le.2 hk)

/-- The next point of height at least `l` is the next stair, if no point is higher. -/
theorem stairs_eq_insert [DecidableEq ι] (hy : y ∈ X) (hc : c < pos y) (hk : pos y < k)
    (hle : ∀ z ∈ X, c < pos z → pos z < k → height z ≤ l) (hl : l ≤ height y)
    (hinj : ∀ z ∈ X, pos z = pos y → z = y)
    (hnext : ∀ z ∈ X, c < pos z → pos z < pos y → height z < l) :
    stairs pos height X c k = insert y (stairs pos height X (pos y) k) := by
  ext x
  rw [Finset.mem_insert, mem_stairs, mem_stairs]
  constructor
  · rintro ⟨hx, hcx, hxk, hall⟩
    rcases lt_trichotomy (pos x) (pos y) with hlt | heq | hgt
    · -- a lower point before `y` is no stair
      have hlow := hnext x hx hcx hlt
      have hhigh := hall y hy hlt hk
      omega
    · exact Or.inl (hinj x hx heq)
    · exact Or.inr ⟨hx, hgt, hxk, hall⟩
  · rintro (rfl | ⟨hx, hyx, hxk, hall⟩)
    · exact ⟨hy, hc, hk, fun z hz hlt hzk => (hle z hz (hc.trans hlt) hzk).trans hl⟩
    · exact ⟨hx, hc.trans hyx, hxk, hall⟩

theorem card_stairs_insert [DecidableEq ι] (hy : y ∈ X) (hc : c < pos y) (hk : pos y < k)
    (hle : ∀ z ∈ X, c < pos z → pos z < k → height z ≤ l) (hl : l ≤ height y)
    (hinj : ∀ z ∈ X, pos z = pos y → z = y)
    (hnext : ∀ z ∈ X, c < pos z → pos z < pos y → height z < l) :
    (stairs pos height X c k).card = (stairs pos height X (pos y) k).card + 1 := by
  rw [stairs_eq_insert hy hc hk hle hl hinj hnext, Finset.card_insert_of_notMem]
  exact fun hm => lt_irrefl _ (mem_stairs.1 hm).2.1

/-- Only the points themselves matter. -/
theorem stairs_congr {pos' : ι → P} {height' : ι → ℕ} (hpos : ∀ x ∈ X, pos x = pos' x)
    (hheight : ∀ x ∈ X, height x = height' x) :
    stairs pos height X c k = stairs pos' height' X c k := by
  ext x
  rw [mem_stairs, mem_stairs]
  refine and_congr_right fun hx => ?_
  rw [hpos x hx]
  refine and_congr_right fun _ => and_congr_right fun _ => forall₂_congr fun y hy => ?_
  rw [hpos y hy, hheight y hy, hheight x hx]

/-- The stairs of points that are named by `K`. -/
theorem stairs_image {κ : Type*} [DecidableEq ι] {K : Finset κ} {node : κ → ι} :
    stairs pos height (K.image node) c k =
      (stairs (fun i => pos (node i)) (fun i => height (node i)) K c k).image node := by
  ext x
  simp only [mem_stairs, Finset.mem_image]
  constructor
  · rintro ⟨⟨i, hi, rfl⟩, hc, hk, hall⟩
    exact ⟨i, ⟨hi, hc, hk, fun j hj => hall (node j) ⟨j, hj, rfl⟩⟩, rfl⟩
  · rintro ⟨i, ⟨hi, hc, hk, hall⟩, rfl⟩
    refine ⟨⟨i, hi, rfl⟩, hc, hk, ?_⟩
    rintro _ ⟨j, hj, rfl⟩
    exact hall j hj

end StoneDb
