import Mathlib.Algebra.BigOperators.Group.Finset.Basic
import Mathlib.Data.List.Pairwise
import Mathlib.Order.CompletePartialOrder
import Mathlib.Order.Interval.Set.Disjoint

/-!
# Consecutive blocks

`span o n` is the set of the `n` places at `o`.

`Tiles a bs b`: the blocks `bs`, pairs of an offset and a size, follow one another from `a` to `b`.
This is what a bump allocator hands out.  Such blocks are disjoint (`Tiles.disjoint`), lie between
`a` and `b` (`Tiles.le_offset`, `Tiles.end_le`), and cover everything in between
(`Tiles.mem_iff`).  Blocks may be empty.
-/

namespace StoneDb

/-- The `n` places at `o`. -/
def span (o n : ℕ) : Set ℕ := Set.Ico o (o + n)

theorem mem_span {o n x : ℕ} : x ∈ span o n ↔ o ≤ x ∧ x < o + n := Iff.rfl

theorem span_subset {o n o' n' : ℕ} (ho : o' ≤ o) (hn : o + n ≤ o' + n') :
    span o n ⊆ span o' n' := fun _ hx => ⟨ho.trans hx.1, hx.2.trans_le hn⟩

theorem disjoint_span {o n o' n' : ℕ} (h : o + n ≤ o' ∨ o' + n' ≤ o) :
    Disjoint (span o n) (span o' n') := by
  refine Set.disjoint_left.2 fun x hx hx' => ?_
  rw [mem_span] at hx hx'
  omega

/-- The blocks follow one another, from `a` to `b`. -/
inductive Tiles (a : ℕ) : List (ℕ × ℕ) → ℕ → Prop
  | nil : Tiles a [] a
  | concat {bs : List (ℕ × ℕ)} {b : ℕ} (h : Tiles a bs b) (n : ℕ) :
    Tiles a (bs ++ [(b, n)]) (b + n)

namespace Tiles

variable {a b : ℕ} {bs : List (ℕ × ℕ)} {p : ℕ × ℕ} {x : ℕ}

theorem le (h : Tiles a bs b) : a ≤ b := by
  induction h with
  | nil => exact le_rfl
  | concat _ n ih => exact ih.trans (Nat.le_add_right _ _)

theorem le_offset (h : Tiles a bs b) (hp : p ∈ bs) : a ≤ p.1 := by
  induction h with
  | nil => simp at hp
  | concat h n ih =>
    rcases List.mem_append.1 hp with hp | hp
    · exact ih hp
    · rw [List.mem_singleton.1 hp]
      exact h.le

theorem end_le (h : Tiles a bs b) (hp : p ∈ bs) : p.1 + p.2 ≤ b := by
  induction h with
  | nil => simp at hp
  | concat _ n ih =>
    rcases List.mem_append.1 hp with hp | hp
    · exact (ih hp).trans (Nat.le_add_right _ _)
    · rw [List.mem_singleton.1 hp]

/-- Earlier blocks end before later ones begin. -/
theorem sorted (h : Tiles a bs b) : bs.Pairwise fun p q => p.1 + p.2 ≤ q.1 := by
  induction h with
  | nil => exact List.Pairwise.nil
  | concat h n ih =>
    refine List.pairwise_append.2 ⟨ih, List.pairwise_singleton _ _, fun p hp q hq => ?_⟩
    rw [List.mem_singleton.1 hq]
    exact h.end_le hp

/-- **The blocks are disjoint.** -/
theorem disjoint (h : Tiles a bs b) :
    bs.Pairwise fun p q => Disjoint (span p.1 p.2) (span q.1 q.2) :=
  h.sorted.imp fun hle => disjoint_span (Or.inl hle)

theorem disjoint_of_ne (h : Tiles a bs b) {q : ℕ × ℕ} (hp : p ∈ bs) (hq : q ∈ bs) (hne : p ≠ q) :
    Disjoint (span p.1 p.2) (span q.1 q.2) :=
  haveI : Std.Symm fun p q : ℕ × ℕ => Disjoint (span p.1 p.2) (span q.1 q.2) :=
    ⟨fun _ _ hd => hd.symm⟩
  h.disjoint.forall hp hq hne

/-- **The blocks cover the interval**, without gaps. -/
theorem mem_iff (h : Tiles a bs b) : (a ≤ x ∧ x < b) ↔ ∃ p ∈ bs, x ∈ span p.1 p.2 := by
  induction h with
  | nil => simp
  | @concat bs b h n ih =>
    have hab := h.le
    constructor
    · rintro ⟨hax, hxb⟩
      by_cases hx : x < b
      · obtain ⟨p, hp, hxp⟩ := ih.1 ⟨hax, hx⟩
        exact ⟨p, List.mem_append_left _ hp, hxp⟩
      · exact ⟨(b, n), by simp, not_lt.1 hx, hxb⟩
    · rintro ⟨p, hp, hxp⟩
      rcases List.mem_append.1 hp with hp | hp
      · obtain ⟨hax, hxb⟩ := ih.2 ⟨p, hp, hxp⟩
        exact ⟨hax, hxb.trans_le (Nat.le_add_right _ _)⟩
      · rw [List.mem_singleton.1 hp, mem_span] at hxp
        exact ⟨hab.trans hxp.1, hxp.2⟩

/-- The sizes of some of the blocks, named by their offsets. -/
theorem add_sum_le (h : Tiles a bs b) {T : Finset ℕ} {size : ℕ → ℕ}
    (hT : ∀ o ∈ T, (o, size o) ∈ bs) : a + ∑ o ∈ T, size o ≤ b := by
  induction h generalizing T with
  | nil =>
    have hempty : T = ∅ := Finset.eq_empty_of_forall_notMem fun o ho => by simpa using hT o ho
    rw [hempty, Finset.sum_empty]
    exact le_rfl
  | @concat bs b h n ih =>
    have hbefore : ∀ o ∈ T.erase b, (o, size o) ∈ bs := by
      intro o ho
      obtain ⟨hne, ho⟩ := Finset.mem_erase.1 ho
      refine (List.mem_append.1 (hT o ho)).resolve_right fun hlast => hne ?_
      exact congrArg Prod.fst (List.mem_singleton.1 hlast)
    have hsum := ih hbefore
    by_cases hb : b ∈ T
    · rw [← Finset.add_sum_erase T size hb]
      have hlast : size b ≤ n := by
        rcases List.mem_append.1 (hT b hb) with hmem | hmem
        · have hend := h.end_le hmem
          omega
        · exact (congrArg Prod.snd (List.mem_singleton.1 hmem)).le
      omega
    · rw [Finset.erase_eq_of_notMem hb] at hsum
      omega

/-- What divides the start and all sizes divides all offsets, and the end. -/
theorem dvd {d : ℕ} (h : Tiles a bs b) (ha : d ∣ a) (hbs : ∀ p ∈ bs, d ∣ p.2) :
    d ∣ b ∧ ∀ p ∈ bs, d ∣ p.1 := by
  induction h with
  | nil => exact ⟨ha, by simp⟩
  | @concat bs b h n ih =>
    obtain ⟨hb, hall⟩ := ih fun p hp => hbs p (List.mem_append_left _ hp)
    refine ⟨(Nat.dvd_add_iff_right hb).1 (hbs (b, n) (by simp)), fun p hp => ?_⟩
    rcases List.mem_append.1 hp with hp | hp
    · exact hall p hp
    · rwa [List.mem_singleton.1 hp]

end Tiles

end StoneDb
