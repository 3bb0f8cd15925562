import StoneDb.SkipList.Refinement

/-!
# Chains

What can be seen of a list without knowing its invariant: the chain of a level, followed from the
head (`SkipList.chain`), and the pairs on level 0 (`SkipList.pairs`).  In a list that satisfies the
invariant the chain of each level is its set of linked nodes, in key order (`Wf.mem_chain`,
`Wf.sorted_chain`), and ends in the null offset (`Wf.spells_chain`).
-/

namespace StoneDb

namespace SkipList

/-- The offsets met by following level `l` from the head. -/
def chain (sl : SkipList) (l : ℕ) : List ℕ :=
  walk 0 (fun p => sl.arena.nextAt p l) sl.fuel sl.head

/-- The pairs on the level-0 chain. -/
def pairs (sl : SkipList) : List (Bytes × Bytes) := (sl.chain 0).map sl.arena.pairAt

end SkipList

variable {cmp : KeyComparator} [Std.TransCmp cmp.compareKey] {sl sl' : SkipList}
  {S S' : ℕ → Finset ℕ} {m : OrderedMap cmp.compareKey Bytes} {l x : ℕ}

namespace Wf

variable (h : Wf cmp sl S)

include h

theorem card_le_fuel (l : ℕ) : (S l).card ≤ sl.fuel :=
  (h.card_le l).trans (Nat.le_add_right _ _)

theorem mem_chain (hl : l < maxHeight) : x ∈ sl.chain l ↔ x ∈ S l :=
  (h.threaded l hl).mem_walk (h.card_le_fuel l)

theorem mem_chain_zero : x ∈ sl.chain 0 ↔ x ∈ S 0 := h.mem_chain (by decide)

theorem spells_chain (hl : l < maxHeight) :
    Spells 0 (fun p => sl.arena.nextAt p l) sl.head (sl.chain l) :=
  (h.threaded l hl).spells_walk (h.card_le_fuel l)

theorem pos_sorted_chain (hl : l < maxHeight) :
    (sl.chain l).Pairwise fun x y => pos cmp sl x < pos cmp sl y :=
  (h.threaded l hl).sorted_walk (h.card_le_fuel l)

theorem sorted_chain (hl : l < maxHeight) : (sl.chain l).Pairwise fun x y =>
    cmp.compareKey (sl.arena.keyAt x) (sl.arena.keyAt y) = .lt := by
  refine (h.pos_sorted_chain hl).imp_of_mem fun {x y} hx hy hlt => ?_
  have hx' := (h.mem_chain hl).1 hx
  have hy' := (h.mem_chain hl).1 hy
  rwa [h.pos_mem hx', h.pos_mem hy', keyPos_lt_keyPos] at hlt

theorem head_notMem_chain (hl : l < maxHeight) : sl.head ∉ sl.chain l := fun hm =>
  h.ne_head ((h.mem_chain hl).1 hm) rfl

theorem nodup_chain (hl : l < maxHeight) : (sl.head :: sl.chain l).Nodup := by
  refine List.nodup_cons.2 ⟨h.head_notMem_chain hl, (h.pos_sorted_chain hl).imp ?_⟩
  rintro x y hlt rfl
  exact lt_irrefl _ hlt

theorem sublist_chain (hl : l + 1 < maxHeight) : (sl.chain (l + 1)).Sublist (sl.chain l) := by
  have hl' : l < maxHeight := by omega
  refine sublist_of_sorted (h.pos_sorted_chain hl) (h.pos_sorted_chain hl') fun x hx => ?_
  exact (h.mem_chain hl').2 (h.anti l ((h.mem_chain hl).1 hx))

/-- The linked nodes of a list are determined. -/
theorem unique {S' : ℕ → Finset ℕ} (h' : Wf cmp sl S') : S = S' := by
  funext l
  by_cases hl : l < maxHeight
  · ext x
    rw [← h.mem_chain hl, h'.mem_chain hl]
  · have hlt : sl.height < l := h.height_lt.trans_le (not_lt.1 hl)
    rw [h.above l hlt, h'.above l hlt]

theorem card_eq : (S 0).card = sl.pairs.length := by
  have hset : (sl.chain 0).toFinset = S 0 := Finset.ext fun x => by
    rw [List.mem_toFinset, h.mem_chain_zero]
  rw [← hset, List.toFinset_card_of_nodup (List.nodup_cons.1 (h.nodup_chain (by decide))).2,
    SkipList.pairs, List.length_map]

theorem mem_pairs {p : Bytes × Bytes} : p ∈ sl.pairs ↔ ∃ x ∈ S 0, sl.arena.pairAt x = p := by
  simp only [SkipList.pairs, List.mem_map, h.mem_chain_zero]

/-- The map on level 0. -/
def map : OrderedMap cmp.compareKey Bytes :=
  ⟨sl.pairs, List.pairwise_map.2 (h.sorted_chain (by decide))⟩

theorem represents : Represents cmp sl S h.map := ⟨h, fun _ => h.mem_pairs⟩

end Wf

/-- No pair is taken away. -/
theorem Grows.pairs_subset (h : Grows sl S sl' S') (hwf : Wf cmp sl S) (hwf' : Wf cmp sl' S') :
    sl.pairs ⊆ sl'.pairs := by
  intro p hp
  obtain ⟨x, hx, rfl⟩ := hwf.mem_pairs.1 hp
  exact hwf'.mem_pairs.2 ⟨x, h.subset 0 hx, h.pair x (hwf.alive hx)⟩

/-- No node is unlinked. -/
theorem Grows.chain_subset (h : Grows sl S sl' S') (hwf : Wf cmp sl S) (hwf' : Wf cmp sl' S')
    (hl : l < maxHeight) : sl.chain l ⊆ sl'.chain l := fun _ hx =>
  (hwf'.mem_chain hl).2 (h.subset l ((hwf.mem_chain hl).1 hx))

/-- **The shape of a skiplist**: every level is a finite chain from the head to the null offset,
sorted by key, each a part of the one below, and none above the list height. -/
structure SkipList.Shape (sl : SkipList) : Prop where
  finite : ∀ l < maxHeight, Spells 0 (fun p => sl.arena.nextAt p l) sl.head (sl.chain l)
  acyclic : ∀ l < maxHeight, (sl.head :: sl.chain l).Nodup
  sorted : ∀ l < maxHeight, (sl.chain l).Pairwise fun x y =>
    sl.cmp.compareKey (sl.arena.keyAt x) (sl.arena.keyAt y) = .lt
  sublist : ∀ l, l + 1 < maxHeight → (sl.chain (l + 1)).Sublist (sl.chain l)
  level_le : ∀ l < maxHeight, ∀ x ∈ sl.chain l, l ≤ sl.height
  height_le : sl.height ≤ 19

theorem Wf.shape (h : Wf cmp sl S) : sl.Shape where
  finite _ hl := h.spells_chain hl
  acyclic _ hl := h.nodup_chain hl
  sorted _ hl := by
    rw [h.cmp_eq]
    exact h.sorted_chain hl
  sublist _ hl := h.sublist_chain hl
  level_le _ hl _ hx := h.level_le ((h.mem_chain hl).1 hx)
  height_le := Nat.le_of_lt_succ h.height_lt

end StoneDb
