import Mathlib.Data.Finset.Card
import Mathlib.Data.Finset.Insert
import Mathlib.Data.List.Sort
import Mathlib.Order.Defs.LinearOrder

/-!
# Sorted singly linked chains

A linked chain of nodes `ι` with keys in a linear order `K` is given by its link function
`next : ι → ι` (with a `null`), a head sentinel and the finite set `S` of its nodes.
`Threaded null head key next S` says that the links thread `S` in key order: the link of every
node (and of the head) leads to the element of `S` with the next larger key, to `null` from the
last.  It is a first-order statement about the link of each node separately, so a single link
update is checked locally:

* `Threaded.link` : redirecting `p` to a new node `x` that points at `p`'s old successor, with a key
  in between, threads `insert x S`;
* `Threaded.congr` : links of nodes outside `insert head S` do not matter.

From it the global shape follows: the `walk` along the links from the head lists exactly `S`, in
strictly increasing key order, and ends in `null` (`Threaded.mem_walk`, `Threaded.sorted_walk`,
`Threaded.spells_walk`), and the walk of a smaller set is a sublist (`sublist_of_sorted`).
-/

namespace StoneDb

variable {ι K : Type*}

/-- The links lead from `p` through the nodes of `l`, in order, to `null`. -/
def Spells (null : ι) (next : ι → ι) : ι → List ι → Prop
  | p, [] => next p = null
  | p, q :: l => next p = q ∧ q ≠ null ∧ Spells null next q l

/-- Along a chain that is spelled out, a node and its link follow one another. -/
theorem Spells.infix_link {null : ι} {next : ι → ι} {p q : ι} {l : List ι}
    (h : Spells null next p l) (hq : q ∈ p :: l) : [q, next q] <:+: p :: (l ++ [null]) := by
  induction l generalizing p with
  | nil =>
    obtain rfl := List.mem_singleton.1 hq
    have hnull : next q = null := h
    rw [hnull]
    exact List.infix_refl _
  | cons a l ih =>
    obtain ⟨hnext, -, htail⟩ := h
    rcases List.mem_cons.1 hq with rfl | hq
    · exact ⟨[], l ++ [null], by rw [hnext]; rfl⟩
    · exact (ih htail hq).trans (List.infix_cons (List.infix_refl _))

/-- The nodes met in at most `fuel` links from `p`, up to `null`. -/
def walk [DecidableEq ι] (null : ι) (next : ι → ι) : ℕ → ι → List ι
  | 0, _ => []
  | fuel + 1, p => if next p = null then [] else next p :: walk null next fuel (next p)

variable [LinearOrder K]

/-- `n` is the element of `S` next after `p` in key order, `null` if there is none. -/
def IsNext (null : ι) (key : ι → K) (S : Finset ι) (p n : ι) : Prop :=
  (n = null ∧ ∀ y ∈ S, key y ≤ key p) ∨
    (n ∈ S ∧ key p < key n ∧ ∀ y ∈ S, key p < key y → key n ≤ key y)

section IsNext

variable {null : ι} {key : ι → K} {S : Finset ι} {p n : ι}

theorem IsNext.mem (h : IsNext null key S p n) (hn : n ≠ null) : n ∈ S :=
  h.elim (fun h => absurd h.1 hn) fun h => h.1

theorem IsNext.lt (h : IsNext null key S p n) (hn : n ≠ null) : key p < key n :=
  h.elim (fun h => absurd h.1 hn) fun h => h.2.1

theorem IsNext.le (h : IsNext null key S p n) (hn : n ≠ null) {y : ι} (hy : y ∈ S)
    (hlt : key p < key y) : key n ≤ key y :=
  h.elim (fun h => absurd h.1 hn) fun h => h.2.2 y hy hlt

theorem IsNext.le_of_null (h : IsNext null key S p null) (hnull : null ∉ S) {y : ι}
    (hy : y ∈ S) : key y ≤ key p :=
  h.elim (fun h => h.2 y hy) fun h => absurd h.1 hnull

/-- Nothing lies strictly between a node and the next one. -/
theorem IsNext.not_between (h : IsNext null key S p n) (hnull : null ∉ S) {k : K}
    (hpk : key p < k) (hkn : n = null ∨ k < key n) {y : ι} (hy : y ∈ S) : key y ≠ k := by
  rintro rfl
  rcases h with ⟨rfl, h⟩ | ⟨hn, -, h⟩
  · exact absurd hpk (not_lt.2 (h y hy))
  · rcases hkn with rfl | hkn
    · exact hnull hn
    · exact absurd hkn (not_lt.2 (h y hy hpk))

end IsNext

/-! ### Least and greatest nodes -/

/-- `n` is the node of `S` with the least key satisfying `P`, `null` if there is none. -/
def LeastWhere (null : ι) (key : ι → K) (S : Finset ι) (P : K → Prop) (n : ι) : Prop :=
  (n = null ∧ ∀ y ∈ S, ¬ P (key y)) ∨ (n ∈ S ∧ P (key n) ∧ ∀ y ∈ S, P (key y) → key n ≤ key y)

/-- `n` is the node of `S` with the greatest key satisfying `P`, `null` if there is none. -/
def GreatestWhere (null : ι) (key : ι → K) (S : Finset ι) (P : K → Prop) (n : ι) : Prop :=
  (n = null ∧ ∀ y ∈ S, ¬ P (key y)) ∨ (n ∈ S ∧ P (key n) ∧ ∀ y ∈ S, P (key y) → key y ≤ key n)

section

variable {null : ι} {key : ι → K} {S : Finset ι} {p n : ι} {k : K}

theorem IsNext.leastWhere (h : IsNext null key S p n) :
    LeastWhere null key S (fun x => key p < x) n :=
  h.imp (fun ⟨hn, hall⟩ => ⟨hn, fun y hy => not_lt.2 (hall y hy)⟩) id

theorem IsNext.leastWhere_ge (h : IsNext null key S p n) (hnull : null ∉ S) (hpk : key p < k)
    (hkn : n = null ∨ k ≤ key n) : LeastWhere null key S (fun x => k ≤ x) n := by
  rcases h with ⟨rfl, hall⟩ | ⟨hn, -, hall⟩
  · exact Or.inl ⟨rfl, fun y hy => not_le.2 ((hall y hy).trans_lt hpk)⟩
  · have hkn' := hkn.resolve_left fun he => hnull (he ▸ hn)
    exact Or.inr ⟨hn, hkn', fun y hy hky => hall y hy (hpk.trans_le hky)⟩

theorem IsNext.leastWhere_gt (h : IsNext null key S p n) (hnull : null ∉ S) (hpk : key p < k)
    (hkn : n = null ∨ k < key n) : LeastWhere null key S (fun x => k < x) n := by
  rcases h with ⟨rfl, hall⟩ | ⟨hn, -, hall⟩
  · exact Or.inl ⟨rfl, fun y hy => not_lt.2 ((hall y hy).trans hpk.le)⟩
  · have hkn' := hkn.resolve_left fun he => hnull (he ▸ hn)
    exact Or.inr ⟨hn, hkn', fun y hy hky => hall y hy (hpk.trans hky)⟩

/-- A node below `k` whose successor is not below `k` is the greatest one below `k`. -/
theorem IsNext.le_of_lt (h : IsNext null key S p n) (hnull : null ∉ S)
    (hkn : n = null ∨ k ≤ key n) {y : ι} (hy : y ∈ S) (hyk : key y < k) : key y ≤ key p := by
  rcases h with ⟨-, hall⟩ | ⟨hn, -, hall⟩
  · exact hall y hy
  · have hkn' := hkn.resolve_left fun he => hnull (he ▸ hn)
    by_contra hlt
    exact absurd (hall y hy (not_le.1 hlt)) (not_le.2 (hyk.trans_le hkn'))

/-- A node below `k` whose successor is above `k` is the greatest one not above `k`. -/
theorem IsNext.le_of_le (h : IsNext null key S p n) (hnull : null ∉ S)
    (hkn : n = null ∨ k < key n) {y : ι} (hy : y ∈ S) (hyk : key y ≤ k) : key y ≤ key p := by
  rcases h with ⟨-, hall⟩ | ⟨hn, -, hall⟩
  · exact hall y hy
  · have hkn' := hkn.resolve_left fun he => hnull (he ▸ hn)
    by_contra hlt
    exact absurd (hall y hy (not_le.1 hlt)) (not_le.2 (hyk.trans_lt hkn'))

end

/-! ### Threaded sets -/

/-- The links `next` thread the nodes of `S`, in key order, behind `head`. -/
structure Threaded (null head : ι) (key : ι → K) (next : ι → ι) (S : Finset ι) : Prop where
  null_notMem : null ∉ S
  head_ne_null : head ≠ null
  head_lt : ∀ y ∈ S, key head < key y
  inj : ∀ x ∈ S, ∀ y ∈ S, key x = key y → x = y
  isNext : ∀ p, p = head ∨ p ∈ S → IsNext null key S p (next p)

namespace Threaded

variable {null head : ι} {key : ι → K} {next next' : ι → ι} {S : Finset ι}

theorem head_notMem (h : Threaded null head key next S) : head ∉ S := fun hm =>
  lt_irrefl _ (h.head_lt head hm)

theorem empty (hne : head ≠ null) (hnext : next head = null) :
    Threaded null head key next (∅ : Finset ι) where
  null_notMem := by simp
  head_ne_null := hne
  head_lt := by simp
  inj := by simp
  isNext p hp := by
    obtain rfl : p = head := by simpa using hp
    exact Or.inl ⟨hnext, by simp⟩

/-- Only the links and keys of the head and of the nodes of `S` matter. -/
theorem congr {key' : ι → K} (h : Threaded null head key next S)
    (hnext : ∀ p, p = head ∨ p ∈ S → next' p = next p)
    (hkey : ∀ p, p = head ∨ p ∈ S → key' p = key p) : Threaded null head key' next' S where
  null_notMem := h.null_notMem
  head_ne_null := h.head_ne_null
  head_lt y hy := by
    rw [hkey _ (Or.inl rfl), hkey _ (Or.inr hy)]
    exact h.head_lt y hy
  inj x hx y hy := by
    rw [hkey _ (Or.inr hx), hkey _ (Or.inr hy)]
    exact h.inj x hx y hy
  isNext p hp := by
    rw [hnext p hp]
    rcases h.isNext p hp with ⟨hn, hall⟩ | ⟨hn, hlt, hall⟩
    · exact Or.inl ⟨hn, fun y hy => by rw [hkey _ (Or.inr hy), hkey _ hp]; exact hall y hy⟩
    · refine Or.inr ⟨hn, ?_, ?_⟩
      · rw [hkey _ hp, hkey _ (Or.inr hn)]
        exact hlt
      · intro y hy
        rw [hkey _ hp, hkey _ (Or.inr hy), hkey _ (Or.inr hn)]
        exact hall y hy

theorem key_inj (h : Threaded null head key next S) {p q : ι} (hp : p = head ∨ p ∈ S)
    (hq : q = head ∨ q ∈ S) (hpq : key p = key q) : p = q := by
  rcases hp with rfl | hp <;> rcases hq with rfl | hq
  · rfl
  · exact absurd hpq (h.head_lt q hq).ne
  · exact absurd hpq (h.head_lt p hp).ne'
  · exact h.inj p hp q hq hpq

theorem mem_of_lt (h : Threaded null head key next S) {p q : ι} (hp : p = head ∨ p ∈ S)
    (hq : q = head ∨ q ∈ S) (hpq : key p < key q) : q ∈ S := by
  refine hq.resolve_left ?_
  rintro rfl
  rcases hp with rfl | hp
  · exact lt_irrefl _ hpq
  · exact lt_asymm hpq (h.head_lt p hp)

section Link

variable [DecidableEq ι]

/-- **Linking a node.**  If `x` points at the successor of `p` and its key lies between theirs,
redirecting `p` to `x` threads `insert x S`. -/
theorem link (h : Threaded null head key next S) {p x : ι} (hp : p = head ∨ p ∈ S)
    (hx : x ≠ null) (hpx : key p < key x) (hxn : next p = null ∨ key x < key (next p))
    (hxnext : next x = next p) :
    Threaded null head key (Function.update next p x) (insert x S) := by
  have hfresh : ∀ y ∈ S, key y ≠ key x := fun y hy =>
    (h.isNext p hp).not_between h.null_notMem hpx hxn hy
  -- nothing lies between the predecessor and its successor
  have hbetween : ∀ y ∈ S, key p < key y → key x < key y := fun y hy hlt => by
    have hne : next p ≠ null := fun hnull =>
      absurd hlt (not_lt.2 ((hnull ▸ h.isNext p hp).le_of_null h.null_notMem hy))
    exact (hxn.resolve_left hne).trans_le ((h.isNext p hp).le hne hy hlt)
  refine ⟨?_, h.head_ne_null, ?_, ?_, ?_⟩
  · simp only [Finset.mem_insert, not_or]
    exact ⟨hx.symm, h.null_notMem⟩
  · intro y hy
    rcases Finset.mem_insert.1 hy with rfl | hy
    · rcases hp with rfl | hp
      · exact hpx
      · exact (h.head_lt p hp).trans hpx
    · exact h.head_lt y hy
  · intro a ha b hb hab
    rcases Finset.mem_insert.1 ha with hax | haS <;> rcases Finset.mem_insert.1 hb with hbx | hbS
    · exact hax.trans hbx.symm
    · exact absurd (hax ▸ hab).symm (hfresh b hbS)
    · exact absurd (hbx ▸ hab) (hfresh a haS)
    · exact h.inj a haS b hbS hab
  · intro q hq
    by_cases hqp : q = p
    · -- the predecessor now points at the new node
      subst hqp
      rw [Function.update_self]
      refine Or.inr ⟨Finset.mem_insert_self _ _, hpx, fun y hy hlt => ?_⟩
      rcases Finset.mem_insert.1 hy with rfl | hy
      · exact le_rfl
      · exact (hbetween y hy hlt).le
    rw [Function.update_of_ne hqp]
    by_cases hqx : q = x
    · -- the new node points at the old successor
      subst hqx
      rw [hxnext]
      rcases h.isNext p hp with ⟨hn, hall⟩ | ⟨hn, hlt, hall⟩
      · refine Or.inl ⟨hn, fun y hy => ?_⟩
        rcases Finset.mem_insert.1 hy with rfl | hy
        · exact le_rfl
        · exact (hall y hy).trans hpx.le
      · refine Or.inr ⟨Finset.mem_insert_of_mem hn, hbetween _ hn hlt, fun y hy hy' => ?_⟩
        rcases Finset.mem_insert.1 hy with rfl | hy
        · exact absurd hy' (lt_irrefl _)
        · exact hall y hy (hpx.trans hy')
    · -- every other node keeps its successor: the new key is not in its gap
      have hqS : q = head ∨ q ∈ S := hq.imp id fun hq => (Finset.mem_insert.1 hq).resolve_left hqx
      rcases lt_or_gt_of_ne fun he => hqp (h.key_inj hqS hp he) with hlt | hlt
      · have hpS := h.mem_of_lt hqS hp hlt
        rcases h.isNext q hqS with ⟨-, hall⟩ | ⟨hn, hqn, hall⟩
        · exact absurd hlt (not_lt.2 (hall p hpS))
        · refine Or.inr ⟨Finset.mem_insert_of_mem hn, hqn, fun y hy hy' => ?_⟩
          rcases Finset.mem_insert.1 hy with rfl | hy
          · exact (hall p hpS hlt).trans hpx.le
          · exact hall y hy hy'
      · have hxq := hbetween q (h.mem_of_lt hp hqS hlt) hlt
        rcases h.isNext q hqS with ⟨hn, hall⟩ | ⟨hn, hqn, hall⟩
        · refine Or.inl ⟨hn, fun y hy => ?_⟩
          rcases Finset.mem_insert.1 hy with rfl | hy
          · exact hxq.le
          · exact hall y hy
        · refine Or.inr ⟨Finset.mem_insert_of_mem hn, hqn, fun y hy hy' => ?_⟩
          rcases Finset.mem_insert.1 hy with rfl | hy
          · exact absurd hy' (lt_asymm hxq)
          · exact hall y hy hy'

end Link

/-! ### Walking the chain -/

/-- The nodes after `p`. -/
def after (key : ι → K) (S : Finset ι) (p : ι) : Finset ι := S.filter fun y => key p < key y

@[simp] theorem mem_after {p y : ι} : y ∈ after key S p ↔ y ∈ S ∧ key p < key y := by
  simp [after]

theorem after_congr {key' : ι → K} {p : ι} (hkey : ∀ y ∈ S, key' y = key y)
    (hp : key' p = key p) : after key' S p = after key S p :=
  Finset.filter_congr fun y hy => by rw [hkey y hy, hp]

theorem after_head (h : Threaded null head key next S) : after key S head = S := by
  ext y
  simpa using h.head_lt y

theorem after_eq_empty (h : Threaded null head key next S) {p : ι} (hp : p = head ∨ p ∈ S)
    (hnull : next p = null) : after key S p = ∅ := by
  ext y
  simpa using fun hy => (hnull ▸ h.isNext p hp).le_of_null h.null_notMem hy

/-- Moving to a later node leaves strictly fewer nodes ahead. -/
theorem card_after_lt {p q : ι} (hq : q ∈ S) (hpq : key p < key q) :
    (after key S q).card < (after key S p).card := by
  refine Finset.card_lt_card (Finset.ssubset_iff_subset_ne.2 ⟨?_, ?_⟩)
  · intro y hy
    rw [mem_after] at hy ⊢
    exact ⟨hy.1, hpq.trans hy.2⟩
  · intro heq
    have hmem : q ∈ after key S p := mem_after.2 ⟨hq, hpq⟩
    rw [← heq, mem_after] at hmem
    exact lt_irrefl _ hmem.2

/-- A link passes exactly one node. -/
theorem card_after_next [DecidableEq ι] (h : Threaded null head key next S) {p : ι}
    (hp : p = head ∨ p ∈ S) (hne : next p ≠ null) :
    (after key S p).card = (after key S (next p)).card + 1 := by
  have hnext := h.isNext p hp
  -- the next node is the only one that is no longer ahead
  have hins : after key S p = insert (next p) (after key S (next p)) := by
    ext y
    rw [Finset.mem_insert, mem_after, mem_after]
    constructor
    · rintro ⟨hy, hlt⟩
      rcases eq_or_lt_of_le (hnext.le hne hy hlt) with heq | hlt'
      · exact Or.inl (h.inj _ (hnext.mem hne) _ hy heq).symm
      · exact Or.inr ⟨hy, hlt'⟩
    · rintro (rfl | ⟨hy, hlt⟩)
      · exact ⟨hnext.mem hne, hnext.lt hne⟩
      · exact ⟨hy, (hnext.lt hne).trans hlt⟩
  rw [hins, Finset.card_insert_of_notMem]
  simp

/-- A link passes at most one node of a part of the chain. -/
theorem card_after_le [DecidableEq ι] (h : Threaded null head key next S) {T : Finset ι}
    (hsub : T ⊆ S) {p : ι} (hp : p = head ∨ p ∈ S) (hne : next p ≠ null) :
    (after key T p).card ≤ (after key T (next p)).card + 1 := by
  have hnext := h.isNext p hp
  have hins : after key T p ⊆ insert (next p) (after key T (next p)) := by
    intro y hy
    obtain ⟨hyT, hlt⟩ := mem_after.1 hy
    rcases eq_or_lt_of_le (hnext.le hne (hsub hyT) hlt) with heq | hlt'
    · exact Finset.mem_insert.2 (Or.inl (h.inj _ (hnext.mem hne) _ (hsub hyT) heq).symm)
    · exact Finset.mem_insert_of_mem (mem_after.2 ⟨hyT, hlt'⟩)
  exact (Finset.card_le_card hins).trans (Finset.card_insert_le _ _)

/-- Of the nodes that a chain gains, at most all are after `p`. -/
theorem card_after_add_le [DecidableEq ι] (key : ι → K) {S' : Finset ι} (hsub : S ⊆ S') (p : ι) :
    (after key S' p).card + S.card ≤ (after key S p).card + S'.card := by
  have hunion : after key S' p ⊆ after key S p ∪ S' \ S := by
    intro y hy
    obtain ⟨hy', hlt⟩ := mem_after.1 hy
    by_cases hyS : y ∈ S
    · exact Finset.mem_union_left _ (mem_after.2 ⟨hyS, hlt⟩)
    · exact Finset.mem_union_right _ (Finset.mem_sdiff.2 ⟨hy', hyS⟩)
  have hcard := (Finset.card_le_card hunion).trans (Finset.card_union_le _ _)
  have hgain := Finset.card_sdiff_add_card_eq_card hsub
  omega

section Walk

variable [DecidableEq ι]

theorem walk_spec (h : Threaded null head key next S) (fuel : ℕ) :
    ∀ p, (p = head ∨ p ∈ S) → (after key S p).card ≤ fuel →
      (∀ y, y ∈ walk null next fuel p ↔ y ∈ S ∧ key p < key y) ∧
      (walk null next fuel p).Pairwise (fun x y => key x < key y) ∧
      Spells null next p (walk null next fuel p) := by
  induction fuel with
  | zero =>
    intro p hp hcard
    have hempty : after key S p = ∅ := Finset.card_eq_zero.1 (Nat.le_zero.1 hcard)
    have hnull : next p = null := by
      by_contra hne
      have := card_after_lt ((h.isNext p hp).mem hne) ((h.isNext p hp).lt hne)
      omega
    refine ⟨fun y => ?_, List.Pairwise.nil, hnull⟩
    rw [← mem_after, hempty]
    simp [walk]
  | succ fuel ih =>
    intro p hp hcard
    -- the induction is on the fuel, which bounds the nodes that are ahead
    by_cases hnull : next p = null
    · have hempty := h.after_eq_empty hp hnull
      have hwalk : walk null next (fuel + 1) p = [] := by rw [walk, if_pos hnull]
      rw [hwalk]
      refine ⟨fun y => ?_, List.Pairwise.nil, hnull⟩
      rw [← mem_after, hempty]
      simp
    · have hnext := h.isNext p hp
      have hlt := card_after_lt (hnext.mem hnull) (hnext.lt hnull)
      obtain ⟨hmem, hsorted, hspells⟩ := ih (next p) (Or.inr (hnext.mem hnull)) (by omega)
      have hwalk : walk null next (fuel + 1) p = next p :: walk null next fuel (next p) := by
        rw [walk, if_neg hnull]
      rw [hwalk]
      refine ⟨fun y => ?_, List.pairwise_cons.2 ⟨fun y hy => ((hmem y).1 hy).2, hsorted⟩,
        rfl, hnull, hspells⟩
      rw [List.mem_cons, hmem]
      constructor
      · rintro (rfl | ⟨hy, hlt'⟩)
        · exact ⟨hnext.mem hnull, hnext.lt hnull⟩
        · exact ⟨hy, (hnext.lt hnull).trans hlt'⟩
      · rintro ⟨hy, hlt'⟩
        rcases eq_or_lt_of_le (hnext.le hnull hy hlt') with heq | hlt''
        · exact Or.inl (h.inj _ (hnext.mem hnull) _ hy heq).symm
        · exact Or.inr ⟨hy, hlt''⟩

theorem mem_walk (h : Threaded null head key next S) {fuel : ℕ} (hfuel : S.card ≤ fuel) {y : ι} :
    y ∈ walk null next fuel head ↔ y ∈ S := by
  have := (h.walk_spec fuel head (Or.inl rfl) (by rwa [h.after_head])).1 y
  exact this.trans ⟨fun hy => hy.1, fun hy => ⟨hy, h.head_lt y hy⟩⟩

theorem sorted_walk (h : Threaded null head key next S) {fuel : ℕ} (hfuel : S.card ≤ fuel) :
    (walk null next fuel head).Pairwise fun x y => key x < key y :=
  (h.walk_spec fuel head (Or.inl rfl) (by rwa [h.after_head])).2.1

theorem spells_walk (h : Threaded null head key next S) {fuel : ℕ} (hfuel : S.card ≤ fuel) :
    Spells null next head (walk null next fuel head) :=
  (h.walk_spec fuel head (Or.inl rfl) (by rwa [h.after_head])).2.2

end Walk

end Threaded

/-- A sorted list whose elements all lie in another sorted list is a sublist of it. -/
theorem sublist_of_sorted {key : ι → K} {l l' : List ι}
    (hl : l.Pairwise fun x y => key x < key y) (hl' : l'.Pairwise fun x y => key x < key y)
    (hsub : l ⊆ l') : l.Sublist l' := by
  have : Std.Antisymm fun x y => key x < key y := ⟨fun x y hxy hyx => absurd hxy (lt_asymm hyx)⟩
  have : Std.Irrefl fun x y => key x < key y := ⟨fun x => lt_irrefl (key x)⟩
  have hnd : l.Nodup := hl.nodup
  exact List.sublist_of_subperm_of_pairwise (List.subperm_of_subset hnd hsub) hl hl'

end StoneDb
