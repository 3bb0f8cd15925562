import StoneDb.Lib.Rank
import Mathlib.Data.List.Pairwise
import Mathlib.Data.List.Sort

/-!
# Ordered insert-if-absent maps

The abstract object behind a write-once sorted table: a finite map whose keys are ordered by a
comparator, that answers point, range and neighbour queries, and whose only update inserts a pair
when no equal key is present (`OrderedMap.insertIfAbsent`).

An `OrderedMap` is a list of pairs strictly sorted by key; the proof is a field, so every map is
sorted.  All queries are instances of two searches, `firstWhere` and `lastWhere`, characterised by
`firstWhere_eq_some_iff` and `lastWhere_eq_some_iff` in terms of membership only: an implementation
that finds the least (greatest) pair with a property computes the map's answer.
-/

namespace StoneDb

/-- A finite map from `α` to `β`, sorted by the comparator `cmp`. -/
structure OrderedMap {α : Type*} (cmp : α → α → Ordering) (β : Type*) where
  /-- The pairs, in key order. -/
  entries : List (α × β)
  /-- The keys are strictly increasing. -/
  sorted : entries.Pairwise fun p q => cmp p.1 q.1 = .lt

/-- In a list sorted by `R`, `find?` returns the `R`-first element with the property. -/
theorem find?_first_of_pairwise {α : Type*} {R : α → α → Prop} {P : α → Bool} {l : List α} {a : α}
    (hl : l.Pairwise R) (h : l.find? P = some a) :
    a ∈ l ∧ P a = true ∧ ∀ b ∈ l, P b = true → b = a ∨ R a b := by
  obtain ⟨hP, as, bs, rfl, has⟩ := List.find?_eq_some_iff_append.1 h
  refine ⟨by simp, hP, fun b hb hPb => ?_⟩
  simp only [List.mem_append, List.mem_cons] at hb
  rcases hb with hb | rfl | hb
  · have := has b hb
    rw [hPb] at this
    exact absurd this (by decide)
  · exact Or.inl rfl
  · rw [List.pairwise_append, List.pairwise_cons] at hl
    exact Or.inr (hl.2.1.1 b hb)

namespace OrderedMap

variable {α β : Type*} {cmp : α → α → Ordering}

/-- The empty map. -/
def empty : OrderedMap cmp β := ⟨[], List.Pairwise.nil⟩

/-- The first pair, in key order, whose key satisfies `P`. -/
def firstWhere (m : OrderedMap cmp β) (P : α → Bool) : Option (α × β) :=
  m.entries.find? fun p => P p.1

/-- The last pair, in key order, whose key satisfies `P`. -/
def lastWhere (m : OrderedMap cmp β) (P : α → Bool) : Option (α × β) :=
  m.entries.reverse.find? fun p => P p.1

/-- The pair with key `k`. -/
def getWithKey (m : OrderedMap cmp β) (k : α) : Option (α × β) :=
  m.firstWhere fun x => cmp x k == .eq

/-- The value of key `k`. -/
def get (m : OrderedMap cmp β) (k : α) : Option β := (m.getWithKey k).map Prod.snd

/-- Is there a pair with key `k`? -/
def contains (m : OrderedMap cmp β) (k : α) : Bool := (m.get k).isSome

/-- The pair with the least key `≥ k`. -/
def leastGE (m : OrderedMap cmp β) (k : α) : Option (α × β) := m.firstWhere fun x => cmp x k != .lt

/-- The pair with the least key `> k`. -/
def leastGT (m : OrderedMap cmp β) (k : α) : Option (α × β) := m.firstWhere fun x => cmp x k == .gt

/-- The pair with the greatest key `≤ k`. -/
def greatestLE (m : OrderedMap cmp β) (k : α) : Option (α × β) :=
  m.lastWhere fun x => cmp x k != .gt

/-- The pair with the greatest key `< k`. -/
def greatestLT (m : OrderedMap cmp β) (k : α) : Option (α × β) :=
  m.lastWhere fun x => cmp x k == .lt

/-- The pair with the least key. -/
def first (m : OrderedMap cmp β) : Option (α × β) := m.firstWhere fun _ => true

/-- The pair with the greatest key. -/
def last (m : OrderedMap cmp β) : Option (α × β) := m.lastWhere fun _ => true

/-- The number of pairs. -/
def size (m : OrderedMap cmp β) : ℕ := m.entries.length

/-- Put `(k, v)` before the first pair with a larger key. -/
def insertEntry (cmp : α → α → Ordering) (k : α) (v : β) : List (α × β) → List (α × β)
  | [] => [(k, v)]
  | p :: l => if cmp k p.1 = .lt then (k, v) :: p :: l else p :: insertEntry cmp k v l

theorem mem_insertEntry {k : α} {v : β} {l : List (α × β)} {p : α × β} :
    p ∈ insertEntry cmp k v l ↔ p = (k, v) ∨ p ∈ l := by
  induction l with
  | nil => simp [insertEntry]
  | cons q l ih =>
    rw [insertEntry]
    split_ifs
    · simp
    · simp only [List.mem_cons, ih]
      tauto

section

variable [Std.TransCmp cmp]

theorem eq_of_cmp_eq (m : OrderedMap cmp β) {p q : α × β} (hp : p ∈ m.entries)
    (hq : q ∈ m.entries) (h : cmp p.1 q.1 = .eq) : p = q := by
  have hsymm : Std.Symm fun a b : α × β => cmp a.1 b.1 = .eq → a = b :=
    ⟨fun a b hab hba => (hab (Std.OrientedCmp.eq_symm hba)).symm⟩
  have hsorted : m.entries.Pairwise fun a b => cmp a.1 b.1 = .eq → a = b :=
    m.sorted.imp fun {a b} hlt heq => by rw [hlt] at heq; exact absurd heq (by decide)
  exact hsorted.forall_of_forall (fun a _ _ => rfl) hp hq h

theorem firstWhere_eq_some_iff (m : OrderedMap cmp β) {P : α → Bool} {p : α × β} :
    m.firstWhere P = some p ↔ p ∈ m.entries ∧ P p.1 = true ∧
      ∀ q ∈ m.entries, P q.1 = true → rank cmp p.1 ≤ rank cmp q.1 := by
  have key : ∀ {r}, m.firstWhere P = some r → r ∈ m.entries ∧ P r.1 = true ∧
      ∀ q ∈ m.entries, P q.1 = true → rank cmp r.1 ≤ rank cmp q.1 := by
    intro r h
    obtain ⟨hmem, hP, hfirst⟩ := find?_first_of_pairwise m.sorted h
    refine ⟨hmem, hP, fun q hq hPq => ?_⟩
    rcases hfirst q hq hPq with rfl | hlt
    · exact le_rfl
    · exact ((rank_lt_rank cmp).2 hlt).le
  refine ⟨key, fun ⟨hmem, hP, hle⟩ => ?_⟩
  cases h : m.firstWhere P with
  | none => exact absurd hP (by simpa using List.find?_eq_none.1 h p hmem)
  | some r =>
    obtain ⟨hr, hPr, hle'⟩ := key h
    have hrank := le_antisymm (hle' p hmem hP) (hle r hr hPr)
    rw [m.eq_of_cmp_eq hr hmem ((rank_eq_rank cmp).1 hrank)]

theorem lastWhere_eq_some_iff (m : OrderedMap cmp β) {P : α → Bool} {p : α × β} :
    m.lastWhere P = some p ↔ p ∈ m.entries ∧ P p.1 = true ∧
      ∀ q ∈ m.entries, P q.1 = true → rank cmp q.1 ≤ rank cmp p.1 := by
  have key : ∀ {r}, m.lastWhere P = some r → r ∈ m.entries ∧ P r.1 = true ∧
      ∀ q ∈ m.entries, P q.1 = true → rank cmp q.1 ≤ rank cmp r.1 := by
    intro r h
    obtain ⟨hmem, hP, hfirst⟩ := find?_first_of_pairwise (List.pairwise_reverse.2 m.sorted) h
    refine ⟨List.mem_reverse.1 hmem, hP, fun q hq hPq => ?_⟩
    rcases hfirst q (List.mem_reverse.2 hq) hPq with rfl | hlt
    · exact le_rfl
    · exact ((rank_lt_rank cmp).2 hlt).le
  refine ⟨key, fun ⟨hmem, hP, hle⟩ => ?_⟩
  cases h : m.lastWhere P with
  | none =>
    exact absurd hP (by simpa using List.find?_eq_none.1 h p (List.mem_reverse.2 hmem))
  | some r =>
    obtain ⟨hr, hPr, hle'⟩ := key h
    have hrank := le_antisymm (hle r hr hPr) (hle' p hmem hP)
    rw [m.eq_of_cmp_eq hr hmem ((rank_eq_rank cmp).1 hrank)]

omit [Std.TransCmp cmp] in
theorem firstWhere_eq_none_iff (m : OrderedMap cmp β) {P : α → Bool} :
    m.firstWhere P = none ↔ ∀ q ∈ m.entries, P q.1 = false := by
  simp [firstWhere]

omit [Std.TransCmp cmp] in
theorem lastWhere_eq_none_iff (m : OrderedMap cmp β) {P : α → Bool} :
    m.lastWhere P = none ↔ ∀ q ∈ m.entries, P q.1 = false := by
  simp [lastWhere]

/-! ### Neighbours by index -/

theorem rank_getElem_lt_iff (m : OrderedMap cmp β) {i j : ℕ} (hi : i < m.entries.length)
    (hj : j < m.entries.length) :
    rank cmp m.entries[i].1 < rank cmp m.entries[j].1 ↔ i < j := by
  have hlt : ∀ {i j} (hi : i < m.entries.length) (hj : j < m.entries.length), i < j →
      rank cmp m.entries[i].1 < rank cmp m.entries[j].1 := fun hi hj hij =>
    (rank_lt_rank cmp).2 (List.pairwise_iff_getElem.1 m.sorted _ _ hi hj hij)
  refine ⟨fun h => ?_, hlt hi hj⟩
  rcases Nat.lt_trichotomy i j with hij | rfl | hij
  · exact hij
  · exact absurd h (lt_irrefl _)
  · exact absurd h (lt_asymm (hlt hj hi hij))

theorem rank_getElem_le_iff (m : OrderedMap cmp β) {i j : ℕ} (hi : i < m.entries.length)
    (hj : j < m.entries.length) :
    rank cmp m.entries[i].1 ≤ rank cmp m.entries[j].1 ↔ i ≤ j := by
  rw [← not_lt, ← not_lt, m.rank_getElem_lt_iff hj hi]

/-- The pair after the `i`-th is the `i + 1`-st. -/
theorem leastGT_getElem (m : OrderedMap cmp β) {i : ℕ} (hi : i < m.entries.length) :
    m.leastGT m.entries[i].1 = m.entries[i + 1]? := by
  have hgt : ∀ {j} (hj : j < m.entries.length),
      (cmp m.entries[j].1 m.entries[i].1 == .gt) = true ↔ i < j := fun hj => by
    rw [beq_iff_eq, ← rank_lt_rank_iff_gt, m.rank_getElem_lt_iff hi hj]
  by_cases hi' : i + 1 < m.entries.length
  · rw [List.getElem?_eq_getElem hi']
    refine (m.firstWhere_eq_some_iff).2 ⟨List.getElem_mem hi', (hgt hi').2 (Nat.lt_succ_self i), ?_⟩
    intro q hq hqP
    obtain ⟨j, hj, rfl⟩ := List.getElem_of_mem hq
    exact (m.rank_getElem_le_iff hi' hj).2 ((hgt hj).1 hqP)
  · rw [List.getElem?_eq_none (by omega)]
    refine (m.firstWhere_eq_none_iff).2 fun q hq => ?_
    obtain ⟨j, hj, rfl⟩ := List.getElem_of_mem hq
    rw [← Bool.not_eq_true, hgt hj]
    omega

/-- The pair before the `i + 1`-st is the `i`-th. -/
theorem greatestLT_getElem_succ (m : OrderedMap cmp β) {i : ℕ} (hi : i + 1 < m.entries.length) :
    m.greatestLT m.entries[i + 1].1 = m.entries[i]? := by
  have hlt : ∀ {j} (hj : j < m.entries.length),
      (cmp m.entries[j].1 m.entries[i + 1].1 == .lt) = true ↔ j < i + 1 := fun hj => by
    rw [beq_iff_eq, ← rank_lt_rank, m.rank_getElem_lt_iff hj hi]
  have hi' : i < m.entries.length := by omega
  rw [List.getElem?_eq_getElem hi']
  refine (m.lastWhere_eq_some_iff).2 ⟨List.getElem_mem hi', (hlt hi').2 (Nat.lt_succ_self i), ?_⟩
  intro q hq hqP
  obtain ⟨j, hj, rfl⟩ := List.getElem_of_mem hq
  exact (m.rank_getElem_le_iff hj hi').2 (Nat.le_of_lt_succ ((hlt hj).1 hqP))

/-- There is no pair before the first. -/
theorem greatestLT_getElem_zero (m : OrderedMap cmp β) (h : 0 < m.entries.length) :
    m.greatestLT m.entries[0].1 = none := by
  refine (m.lastWhere_eq_none_iff).2 fun q hq => ?_
  obtain ⟨j, hj, rfl⟩ := List.getElem_of_mem hq
  rw [← Bool.not_eq_true, beq_iff_eq, ← rank_lt_rank, m.rank_getElem_lt_iff hj h]
  omega

omit [Std.TransCmp cmp] in
theorem first_eq_getElem (m : OrderedMap cmp β) : m.first = m.entries[0]? := by
  cases hm : m.entries <;> simp [first, firstWhere, hm]

omit [Std.TransCmp cmp] in
theorem last_eq_getElem (m : OrderedMap cmp β) : m.last = m.entries[m.entries.length - 1]? := by
  rw [last, lastWhere, ← List.getLast?_eq_getElem?, ← List.head?_reverse]
  cases m.entries.reverse <;> simp

theorem getWithKey_eq_some_iff (m : OrderedMap cmp β) {k : α} {p : α × β} :
    m.getWithKey k = some p ↔ p ∈ m.entries ∧ cmp p.1 k = .eq := by
  rw [getWithKey, firstWhere_eq_some_iff]
  constructor
  · rintro ⟨hm, he, -⟩
    exact ⟨hm, by simpa using he⟩
  · rintro ⟨hm, he⟩
    refine ⟨hm, by simpa using he, fun q hq hqe => le_of_eq ?_⟩
    have hqk : cmp q.1 k = .eq := by simpa using hqe
    rw [(rank_eq_rank cmp).2 he, (rank_eq_rank cmp).2 hqk]

omit [Std.TransCmp cmp] in
theorem getWithKey_eq_none_iff (m : OrderedMap cmp β) {k : α} :
    m.getWithKey k = none ↔ ∀ q ∈ m.entries, cmp q.1 k ≠ .eq := by
  simp [getWithKey, firstWhere_eq_none_iff]

/-! ### Present keys -/

omit [Std.TransCmp cmp] in
theorem mem_of_firstWhere (m : OrderedMap cmp β) {P : α → Bool} {p : α × β}
    (h : m.firstWhere P = some p) : p ∈ m.entries := List.mem_of_find?_eq_some h

omit [Std.TransCmp cmp] in
theorem mem_of_lastWhere (m : OrderedMap cmp β) {P : α → Bool} {p : α × β}
    (h : m.lastWhere P = some p) : p ∈ m.entries :=
  List.mem_reverse.1 (List.mem_of_find?_eq_some h)

/-- A comparator that answers `.eq` on identical keys only finds the key itself. -/
theorem getWithKey_eq_some_iff_mem [Std.LawfulEqCmp cmp] (m : OrderedMap cmp β) {k : α}
    {p : α × β} : m.getWithKey k = some p ↔ p ∈ m.entries ∧ p.1 = k := by
  rw [getWithKey_eq_some_iff, Std.LawfulEqCmp.compare_eq_iff_eq]

theorem getWithKey_of_mem (m : OrderedMap cmp β) {p : α × β} (h : p ∈ m.entries) :
    m.getWithKey p.1 = some p :=
  (m.getWithKey_eq_some_iff).2 ⟨h, Std.ReflCmp.compare_self⟩

/-- A present key is the least that is not below it. -/
theorem leastGE_of_mem (m : OrderedMap cmp β) {p : α × β} (h : p ∈ m.entries) :
    m.leastGE p.1 = some p := by
  refine (m.firstWhere_eq_some_iff).2 ⟨h, by simp [@Std.ReflCmp.compare_self _ cmp], ?_⟩
  intro q _ hq
  refine not_lt.1 fun hlt => ?_
  rw [(rank_lt_rank cmp).1 hlt] at hq
  exact absurd hq (by decide)

/-- A present key is the greatest that is not above it. -/
theorem greatestLE_of_mem (m : OrderedMap cmp β) {p : α × β} (h : p ∈ m.entries) :
    m.greatestLE p.1 = some p := by
  refine (m.lastWhere_eq_some_iff).2 ⟨h, by simp [@Std.ReflCmp.compare_self _ cmp], ?_⟩
  intro q _ hq
  refine not_lt.1 fun hlt => ?_
  rw [(rank_lt_rank_iff_gt cmp).1 hlt] at hq
  exact absurd hq (by decide)

theorem sorted_insertEntry (m : OrderedMap cmp β) {k : α} (v : β) (h : m.getWithKey k = none) :
    (insertEntry cmp k v m.entries).Pairwise fun p q => cmp p.1 q.1 = .lt := by
  rw [getWithKey_eq_none_iff] at h
  obtain ⟨l, hl⟩ := m
  induction l with
  | nil => simp [insertEntry]
  | cons q l ih =>
    obtain ⟨hq, hl'⟩ := List.pairwise_cons.1 hl
    rw [insertEntry]
    split_ifs with hlt
    · refine List.pairwise_cons.2 ⟨fun r hr => ?_, hl⟩
      rcases List.mem_cons.1 hr with rfl | hr
      · exact hlt
      · exact Std.TransCmp.lt_trans hlt (hq r hr)
    · refine List.pairwise_cons.2
        ⟨fun r hr => ?_, ih hl' fun r hr => h r (List.mem_cons_of_mem _ hr)⟩
      rcases mem_insertEntry.1 hr with rfl | hr
      · -- `q` is neither equal to nor after the new key
        have hne := h q List.mem_cons_self
        rw [@Std.OrientedCmp.eq_swap _ cmp] at hlt
        revert hne hlt
        cases cmp q.1 k <;> simp
      · exact hq r hr

/-- Insert `(k, v)` when `k` is absent.  The answer is `none`, except when `k` is present with a
value different from `v`: then it is the rejected pair. -/
def insertIfAbsent [DecidableEq β] (m : OrderedMap cmp β) (k : α) (v : β) :
    OrderedMap cmp β × Option (α × β) :=
  match h : m.getWithKey k with
  | none => (⟨insertEntry cmp k v m.entries, m.sorted_insertEntry v h⟩, none)
  | some (_, w) => (m, if w = v then none else some (k, v))

variable [DecidableEq β]

theorem insertIfAbsent_of_absent (m : OrderedMap cmp β) {k : α} (v : β)
    (h : m.getWithKey k = none) :
    (m.insertIfAbsent k v).2 = none ∧
      ∀ p, p ∈ (m.insertIfAbsent k v).1.entries ↔ p = (k, v) ∨ p ∈ m.entries := by
  unfold insertIfAbsent
  split
  · exact ⟨rfl, fun p => mem_insertEntry⟩
  · rename_i h'
    rw [h] at h'
    exact absurd h' (by simp)

theorem insertIfAbsent_of_present (m : OrderedMap cmp β) {k : α} (v : β) {p : α × β}
    (h : m.getWithKey k = some p) :
    m.insertIfAbsent k v = (m, if p.2 = v then none else some (k, v)) := by
  unfold insertIfAbsent
  split
  · rename_i h'
    rw [h] at h'
    exact absurd h' (by simp)
  · rename_i h'
    rw [h] at h'
    cases h'
    rfl

/-- No pair is taken away. -/
theorem mem_insertIfAbsent_of_mem (m : OrderedMap cmp β) (k : α) (v : β) {p : α × β}
    (hp : p ∈ m.entries) : p ∈ (m.insertIfAbsent k v).1.entries := by
  cases h : m.getWithKey k with
  | none => exact ((m.insertIfAbsent_of_absent v h).2 p).2 (Or.inr hp)
  | some q =>
    rw [m.insertIfAbsent_of_present v h]
    exact hp

/-- The key is present afterwards. -/
theorem exists_mem_insertIfAbsent (m : OrderedMap cmp β) (k : α) (v : β) :
    ∃ p ∈ (m.insertIfAbsent k v).1.entries, cmp p.1 k = .eq := by
  cases h : m.getWithKey k with
  | none => exact ⟨(k, v), ((m.insertIfAbsent_of_absent v h).2 _).2 (Or.inl rfl),
      Std.ReflCmp.compare_self⟩
  | some q =>
    obtain ⟨hq, heq⟩ := (m.getWithKey_eq_some_iff).1 h
    exact ⟨q, m.mem_insertIfAbsent_of_mem k v hq, heq⟩

/-- Insert the pairs of a list one after the other, with the answers. -/
def insertAll (m : OrderedMap cmp β) : List (α × β) → OrderedMap cmp β × List (Option (α × β))
  | [] => (m, [])
  | (k, v) :: l =>
    let (m', a) := m.insertIfAbsent k v
    let (m'', as) := m'.insertAll l
    (m'', a :: as)

end

end OrderedMap

end StoneDb
