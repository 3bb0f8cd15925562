import StoneDb.SkipList.Growth

/-!
# Linking a node

A `put` links its node from level 0 upwards, with the splices it found before.  `Linking` is what it
knows between two stores: the node is linked below level `i`, and the recorded splices of the levels
from `i` on are around its key.  A writer that is alone also knows that they are adjacent; a writer
among others finds out by compare-exchange.  The proposition `E` says which of the two is the case.

* `Linking.self` : pointing the node at its successor (a private store),
* `Linking.link` : pointing the predecessor at the node, which links it at one more level,
* `Linking.mono` : what other writers do in between.
-/

namespace StoneDb

variable {cmp : KeyComparator} [Std.TransCmp cmp.compareKey] {sl sl' : SkipList}
  {S S' : ℕ → Finset ℕ} {key value : Bytes} {l p n node height i : ℕ} {s : SkipList.Splices}
  {E : Prop}

theorem SpliceOk.ne (hs : SpliceOk cmp sl S key l p n) (hwf : Wf cmp sl S) : p ≠ n := by
  rintro rfl
  rcases hs.2.2 with hn | ⟨-, hgt⟩
  · exact hwf.ne_zero' hs.1 hn
  · exact lt_asymm hs.2.1 hgt

/-- `node` holds the pair and is linked at the levels below `i`; the splices from `i` on are around
its key, and adjacent if `E`. -/
structure Linking (cmp : KeyComparator) [Std.TransCmp cmp.compareKey] (sl : SkipList)
    (S : ℕ → Finset ℕ) (key value : Bytes) (node height i : ℕ) (s : SkipList.Splices) (E : Prop) :
    Prop where
  ne_head : node ≠ sl.head
  ne_zero : node ≠ 0
  slot : sl.arena.HasSlot node height
  pair : sl.arena.pairAt node = (key, value)
  below : ∀ j < i, node ∈ S j
  fresh : ∀ j, i ≤ j → node ∉ S j
  splice : ∀ j, i ≤ j → j ≤ height → SpliceOk cmp sl S key j (s.prev j) (s.next j)
  exact : E → ∀ j, i ≤ j → j ≤ height → s.next j = sl.arena.nextAt (s.prev j) j

namespace Linking

variable (h : Linking cmp sl S key value node height i s E)

include h

theorem pos_node : pos cmp sl node = keyPos cmp key := by
  rw [pos_of_ne h.ne_head, show sl.arena.keyAt node = key from congrArg Prod.fst h.pair]

/-- A linked node, or the head, is not the new one. -/
theorem ne (hp : p = sl.head ∨ p ∈ S i) : p ≠ node := by
  rintro rfl
  exact hp.elim h.ne_head (h.fresh i le_rfl)

/-- Only the private slots and the linked set matter for the node itself; what was known about the
splices stays true. -/
theorem mono (hwf : Wf cmp sl S) (hgrow : Grows sl S sl' S') (hmem : ∀ j, node ∈ S' j → node ∈ S j)
    (hexact : E → ∀ j, i ≤ j → j ≤ height →
      sl'.arena.nextAt (s.prev j) j = sl.arena.nextAt (s.prev j) j) :
    Linking cmp sl' S' key value node height i s E where
  ne_head := by rw [hgrow.head]; exact h.ne_head
  ne_zero := h.ne_zero
  slot := hgrow.slot _ _ h.slot
  pair := (hgrow.pair _ h.slot.alive).trans h.pair
  below j hj := hgrow.subset j (h.below j hj)
  fresh j hj hm := h.fresh j hj (hmem j hm)
  splice j hj hj' := (h.splice j hj hj').mono hwf hgrow
  exact hE j hj hj' := (h.exact hE j hj hj').trans (hexact hE j hj hj').symm

/-- Stores to back pointers do not disturb the linking. -/
theorem setPrev (hwf : Wf cmp sl S) (x y : ℕ) :
    Linking cmp { sl with arena := sl.arena.setPrev x y } S key value node height i s E :=
  h.mono hwf grows_setPrev (fun _ hm => hm) fun _ _ _ _ => by simp

omit h in
/-- A node that nothing leads to yet, with the splices that the search has found. -/
theorem start (hwf : Wf cmp sl S) (hgrow : Grows sl S sl' S) (hfresh : ¬ sl.arena.Alive node)
    (hnode0 : node ≠ 0) (hslot : sl'.arena.HasSlot node height)
    (hpair : sl'.arena.pairAt node = (key, value))
    (hnext : ∀ x ≠ node, ∀ j, sl'.arena.nextAt x j = sl.arena.nextAt x j)
    (hsplice : ∀ j ≤ height, SpliceOk cmp sl S key j (s.prev j) (s.next j))
    (hexact : E → ∀ j ≤ height, s.next j = sl.arena.nextAt (s.prev j) j) :
    Linking cmp sl' S key value node height 0 s E where
  ne_head := by
    rw [hgrow.head]
    exact (hwf.ne_of_not_alive (l := 0) hfresh (Or.inl rfl)).symm
  ne_zero := hnode0
  slot := hslot
  pair := hpair
  below j hj := absurd hj (Nat.not_lt_zero j)
  fresh j _ hj := hfresh (hwf.alive hj)
  splice j _ hj := (hsplice j hj).mono hwf hgrow
  exact hE j _ hj := by
    rw [hexact hE j hj, hnext _ (hwf.ne_of_not_alive hfresh (hsplice j hj).1)]

/-- Pointing the node at its successor. -/
theorem self (hwf : Wf cmp sl S) (hi : i ≤ height) :
    Wf cmp { sl with arena := sl.arena.setNext node i (s.next i) } S ∧
      Linking cmp { sl with arena := sl.arena.setNext node i (s.next i) } S key value node height i
        s E ∧
      (sl.arena.setNext node i (s.next i)).nextAt node i = s.next i := by
  refine ⟨hwf.setNext h.ne_head (h.fresh i le_rfl), h.mono hwf grows_setNext (fun _ hm => hm)
    fun _ j hj hj' => ?_, Arena.nextAt_setNext_self h.slot.alive⟩
  refine Arena.nextAt_setNext_of_ne ?_
  by_cases hji : j = i
  · subst hji
    exact Or.inl (h.ne (h.splice j hj hj').1)
  · exact Or.inr hji

/-- **One level**: when `node` points at the successor and the predecessor is still adjacent,
pointing the predecessor at `node` links it at one more level. -/
theorem link (hwf : Wf cmp sl S) (hheight : height ≤ sl.height) (hi : i ≤ height)
    (hself : sl.arena.nextAt node i = s.next i) (hprev : sl.arena.nextAt (s.prev i) i = s.next i) :
    Wf cmp { sl with arena := sl.arena.setNext (s.prev i) i node }
        (Function.update S i (insert node (S i))) ∧
      Grows sl S { sl with arena := sl.arena.setNext (s.prev i) i node }
        (Function.update S i (insert node (S i))) ∧
      Linking cmp { sl with arena := sl.arena.setNext (s.prev i) i node }
        (Function.update S i (insert node (S i))) key value node height (i + 1) s E := by
  obtain ⟨hp, hlt, hn⟩ := h.splice i le_rfl hi
  have hlink := hwf.link (hi.trans hheight) hp h.ne_head h.ne_zero (h.slot.mono hi)
    (fun l' hl' => h.below l' (by omega)) (by rw [h.pos_node]; exact hlt)
    (by
      rw [hprev, h.pos_node]
      exact hn.imp id And.right)
    (by rw [hself, hprev])
  have hgrow : Grows sl S { sl with arena := sl.arena.setNext (s.prev i) i node }
      (Function.update S i (insert node (S i))) := grows_link
  refine ⟨hlink, hgrow, ⟨h.ne_head, h.ne_zero, by simpa using h.slot,
    (hgrow.pair _ h.slot.alive).trans h.pair, fun j hj => ?_, fun j hj => ?_,
    fun j hj hj' => (h.splice j (by omega) hj').mono hwf hgrow, fun hE j hj hj' => ?_⟩⟩
  · by_cases hji : j = i
    · subst hji
      simp
    · rw [Function.update_of_ne hji]
      exact h.below j (by omega)
  · rw [Function.update_of_ne (by omega)]
    exact h.fresh j (by omega)
  · have hji : j ≠ i := by omega
    simp only [Arena.nextAt_setNext_of_ne (Or.inr hji)]
    exact h.exact hE j (by omega) hj'

end Linking

/-! ### Back pointers -/

/-- Every back pointer leads to the node before, or to the head. -/
def Back (sl : SkipList) (S : ℕ → Finset ℕ) : Prop :=
  ∀ x ∈ S 0, (sl.arena.prevAt x = sl.head ∨ sl.arena.prevAt x ∈ S 0) ∧
    sl.arena.nextAt (sl.arena.prevAt x) 0 = x

/-- What is private to a `put` does not matter. -/
theorem Back.congr (hb : Back sl S) (hhead : sl'.head = sl.head)
    (h : ∀ x, x = sl.head ∨ x ∈ S 0 → sl'.arena.prevAt x = sl.arena.prevAt x ∧
      sl'.arena.nextAt x 0 = sl.arena.nextAt x 0) : Back sl' S := by
  intro x hx
  obtain ⟨hmem, hnext⟩ := hb x hx
  rw [(h x (Or.inr hx)).1, (h _ hmem).2, hhead]
  exact ⟨hmem, hnext⟩

/-- The stores of the upper levels leave the back pointers and level 0 alone. -/
theorem Back.upper (hb : Back sl S) (hi : i ≠ 0) (x y : ℕ) (T : Finset ℕ) :
    Back { sl with arena := sl.arena.setNext x i y } (Function.update S i T) := by
  intro o ho
  rw [Function.update_of_ne hi.symm] at ho ⊢
  simp only [Arena.prevAt_setNext, Arena.nextAt_setNext_of_ne (Or.inr hi.symm)]
  exact hb o ho

/-- Linking a node at level 0 keeps the back pointers, if those of the node and of its successor
have been repaired before. -/
theorem Linking.back_link (h : Linking cmp sl S key value node height 0 s E) (hwf : Wf cmp sl S)
    (hself : sl.arena.nextAt node 0 = s.next 0) (hprev : sl.arena.nextAt (s.prev 0) 0 = s.next 0)
    (hnode : sl.arena.prevAt node = s.prev 0)
    (hsucc : s.next 0 ≠ 0 → sl.arena.prevAt (s.next 0) = node)
    (hback : ∀ x ∈ S 0, x ≠ s.next 0 →
      (sl.arena.prevAt x = sl.head ∨ sl.arena.prevAt x ∈ S 0) ∧
        sl.arena.nextAt (sl.arena.prevAt x) 0 = x) :
    Back { sl with arena := sl.arena.setNext (s.prev 0) 0 node }
      (Function.update S 0 (insert node (S 0))) := by
  obtain ⟨hp, -, hn⟩ := h.splice 0 le_rfl (Nat.zero_le _)
  have hpn : s.prev 0 ≠ node := h.ne hp
  have halive : sl.arena.Alive (s.prev 0) := (hwf.hasSlot (by decide) hp).alive
  intro x hx
  simp only [Function.update_self, Finset.mem_insert, Arena.prevAt_setNext] at hx ⊢
  rcases hx with rfl | hx
  · -- the new node
    rw [hnode]
    exact ⟨hp.imp id Or.inr, Arena.nextAt_setNext_self halive⟩
  by_cases hxnext : x = s.next 0
  · -- the node after it
    have hne : s.next 0 ≠ 0 := hxnext ▸ hwf.ne_zero hx
    rw [hxnext, hsucc hne]
    refine ⟨Or.inr (Or.inl rfl), ?_⟩
    rw [Arena.nextAt_setNext_of_ne (Or.inl hpn.symm), hself]
  · obtain ⟨hmem, hnext⟩ := hback x hx hxnext
    refine ⟨hmem.imp id Or.inr, ?_⟩
    rw [Arena.nextAt_setNext_of_ne (Or.inl fun he => hxnext ?_), hnext]
    rw [← hnext, he, hprev]

end StoneDb
