import StoneDb.SkipList.Cursor
import StoneDb.Lib.Staircase
import StoneDb.Concurrent.Towers
import StoneDb.Concurrent.Scan

/-!
# What a search costs

Every turn of the loops of `lower_bound` and `find_near` loads one tower slot and compares at most
one key.  `search_turns`: for an absent key, the number of turns is that of the stairs of the key
(the towers that one sees from the key, looking back to the head) and of the levels of the list, and
it is at most that for any key.

The searches differ in where they stop, and go right and down in the same places (`Searches`).  The
towers have to be complete for this, so it is proved of the states in which no `put` is under way
(`Concurrent.towers_linked`): a half linked tower can be passed on a level on which it stands in the
way.
-/

namespace StoneDb

open SkipList

/-- A search of `key` goes right while the next node is before the key, and else goes down or ends,
on level 0 or at an equal key. -/
structure Searches (cmp : KeyComparator) [Std.TransCmp cmp.compareKey] (sl : SkipList)
    (S : ℕ → Finset ℕ) (key : Bytes) {α : Type}
    (body : ℕ × ℕ → Except Fault (Iter (ℕ × ℕ) α)) : Prop where
  right : ∀ c l, SearchAt cmp sl S key c l → sl.arena.nextAt c l ≠ 0 →
    pos cmp sl (sl.arena.nextAt c l) < keyPos cmp key →
    body (c, l) = .ok (.next (sl.arena.nextAt c l, l))
  down : ∀ c l, SearchAt cmp sl S key c l → (sl.arena.nextAt c l ≠ 0 →
      keyPos cmp key < pos cmp sl (sl.arena.nextAt c l)) → 0 < l →
    body (c, l) = .ok (.next (c, l - 1))
  last : ∀ c, SearchAt cmp sl S key c 0 → (sl.arena.nextAt c 0 ≠ 0 →
      keyPos cmp key < pos cmp sl (sl.arena.nextAt c 0)) → ∃ a, body (c, 0) = .ok (.done a)
  equal : ∀ c l, SearchAt cmp sl S key c l → sl.arena.nextAt c l ≠ 0 →
    pos cmp sl (sl.arena.nextAt c l) = keyPos cmp key →
    (∃ a, body (c, l) = .ok (.done a)) ∨ 0 < l ∧ body (c, l) = .ok (.next (c, l - 1))

variable {cmp : KeyComparator} [Std.TransCmp cmp.compareKey] {sl : SkipList} {S : ℕ → Finset ℕ}
  {key : Bytes} {c l : ℕ}

/-- What a turn of a search loads. -/
theorem Wf.loads (h : Wf cmp sl S) (hat : SearchAt cmp sl S key c l) :
    nodeNextOffset sl.arena c l = .ok (sl.arena.nextAt c l) ∧
      (sl.arena.nextAt c l ≠ 0 → sl.arena.nextAt c l ∈ S l ∧
        nodeKey sl.arena (sl.arena.nextAt c l) = .ok (sl.arena.keyAt (sl.arena.nextAt c l))) :=
  have hload := h.load hat.1 hat.2.1
  ⟨hload.1, fun hne => ⟨(hload.2 hne).1, h.nodeKey_of_mem (hload.2 hne).1⟩⟩

theorem Wf.searches_lowerBound (h : Wf cmp sl S) :
    Searches cmp sl S key (sl.lowerBoundStep key) where
  right c l hat hne hlt := by
    obtain ⟨hload, hnext⟩ := h.loads hat
    obtain ⟨hmem, hkey⟩ := hnext hne
    simp only [lowerBoundStep, hload, hne, hkey, if_false, h.cmp_eq, (h.compareKey_lt hmem).2 hlt,
      bind, Except.bind, pure, Except.pure]
  down c l hat hgt hl := by
    obtain ⟨hload, hnext⟩ := h.loads hat
    by_cases hne : sl.arena.nextAt c l = 0
    · simp only [lowerBoundStep, hload, hne, hl, if_true, bind, Except.bind, pure, Except.pure]
    · obtain ⟨hmem, hkey⟩ := hnext hne
      simp only [lowerBoundStep, hload, hne, hkey, if_false, h.cmp_eq,
        (h.compareKey_gt hmem).2 (hgt hne), hl, if_true, bind, Except.bind, pure, Except.pure]
  last c hat hgt := by
    obtain ⟨hload, hnext⟩ := h.loads hat
    by_cases hne : sl.arena.nextAt c 0 = 0
    · simp only [lowerBoundStep, hload, hne, Nat.lt_irrefl, if_true, if_false, bind, Except.bind,
        pure, Except.pure]
      exact ⟨_, rfl⟩
    · obtain ⟨hmem, hkey⟩ := hnext hne
      simp only [lowerBoundStep, hload, hne, hkey, if_false, h.cmp_eq,
        (h.compareKey_gt hmem).2 (hgt hne), Nat.lt_irrefl, h.nodePair_of_mem hmem, bind,
        Except.bind, pure, Except.pure]
      exact ⟨_, rfl⟩
  equal c l hat hne heq := by
    obtain ⟨hload, hnext⟩ := h.loads hat
    obtain ⟨hmem, hkey⟩ := hnext hne
    simp only [lowerBoundStep, hload, hne, hkey, if_false, h.cmp_eq, (h.compareKey_eq hmem).2 heq,
      h.nodePair_of_mem hmem, bind, Except.bind, pure, Except.pure]
    exact Or.inl ⟨_, rfl⟩

theorem Wf.searches_findNear (h : Wf cmp sl S) (less allowEqual : Bool) :
    Searches cmp sl S key (sl.findNearStep key less allowEqual) where
  right c l hat hne hlt := by
    obtain ⟨hload, hnext⟩ := h.loads hat
    obtain ⟨hmem, hkey⟩ := hnext hne
    simp only [findNearStep, hload, hne, hkey, if_false, h.cmp_eq, (h.compareKey_lt hmem).2 hlt,
      bind, Except.bind, pure, Except.pure]
  down c l hat hgt hl := by
    obtain ⟨hload, hnext⟩ := h.loads hat
    by_cases hne : sl.arena.nextAt c l = 0
    · simp only [findNearStep, hload, hne, hl, if_true, bind, Except.bind, pure, Except.pure]
    · obtain ⟨hmem, hkey⟩ := hnext hne
      simp only [findNearStep, hload, hne, hkey, if_false, h.cmp_eq,
        (h.compareKey_gt hmem).2 (hgt hne), hl, if_true, bind, Except.bind, pure, Except.pure]
  last c hat hgt := by
    obtain ⟨hload, hnext⟩ := h.loads hat
    by_cases hne : sl.arena.nextAt c 0 = 0
    · cases less <;>
        simp [findNearStep, hload, hne, bind, Except.bind, pure, Except.pure]
    · obtain ⟨hmem, hkey⟩ := hnext hne
      cases less <;>
        simp [findNearStep, hload, hne, hkey, h.cmp_eq, (h.compareKey_gt hmem).2 (hgt hne), bind,
          Except.bind, pure, Except.pure]
  equal c l hat hne heq := by
    obtain ⟨hload, hnext⟩ := h.loads hat
    obtain ⟨hmem, hkey⟩ := hnext hne
    obtain ⟨hload0, -⟩ := h.load (l := 0) (by decide) (Or.inr (h.subset_zero l hmem))
    simp only [findNearStep, hload, hne, hkey, if_false, h.cmp_eq, (h.compareKey_eq hmem).2 heq,
      hload0, bind, Except.bind, pure, Except.pure]
    split_ifs with hallow hless hl
    · exact Or.inl ⟨_, rfl⟩
    · exact Or.inl ⟨_, rfl⟩
    · exact Or.inr ⟨hl, rfl⟩
    · exact Or.inl ⟨_, rfl⟩

/-- The stairs of a key, behind the node `c`. -/
noncomputable def stairsAt (cmp : KeyComparator) [Std.TransCmp cmp.compareKey] (sl : SkipList)
    (S : ℕ → Finset ℕ) (key : Bytes) (c : ℕ) : Finset ℕ :=
  stairs (pos cmp sl) sl.arena.heightAt (S 0) (pos cmp sl c) (keyPos cmp key)

/-- **The turns of a search** from `c` on level `l`, with no higher tower on its way. -/
theorem Searches.iterates {α : Type} {body : ℕ × ℕ → Except Fault (Iter (ℕ × ℕ) α)}
    (hbody : Searches cmp sl S key body) (h : Wf cmp sl S)
    (hfull : ∀ x ∈ S 0, ∀ l ≤ sl.arena.heightAt x, x ∈ S l) (hat : SearchAt cmp sl S key c l)
    (hlow : ∀ z ∈ S 0, pos cmp sl c < pos cmp sl z → pos cmp sl z < keyPos cmp key →
      sl.arena.heightAt z ≤ l) :
    ∃ a n, Iterates body a n (c, l) ∧ n ≤ (stairsAt cmp sl S key c).card + l + 1 ∧
      ((∀ x ∈ S 0, pos cmp sl x ≠ keyPos cmp key) →
        n = (stairsAt cmp sl S key c).card + l + 1) := by
  -- every turn uses up a stair or a level
  obtain ⟨m, hm⟩ : ∃ m, (stairsAt cmp sl S key c).card + l = m := ⟨_, rfl⟩
  induction m using Nat.strong_induction_on generalizing c l with
  | _ m ih =>
    have hnext := h.isNext hat.1 hat.2.1
    have hload := (h.load hat.1 hat.2.1).2
    by_cases hright : sl.arena.nextAt c l ≠ 0 ∧ pos cmp sl (sl.arena.nextAt c l) < keyPos cmp key
    · obtain ⟨hne, hlt⟩ := hright
      obtain ⟨hmem, hpos⟩ := hload hne
      have hstairs : (stairsAt cmp sl S key c).card =
          (stairsAt cmp sl S key (sl.arena.nextAt c l)).card + 1 := by
        refine card_stairs_insert (l := l) (h.subset_zero l hmem) hpos hlt hlow
          ((Arena.hasSlot_iff (h.alive hmem)).1 (h.slot l _ hmem))
          (fun z hz he => h.inj hz (h.subset_zero l hmem) he) fun z hz hcz hzy => ?_
        by_contra hlz
        exact absurd hzy (not_lt.2 (hnext.le hne (hfull z hz l (not_lt.1 hlz)) hcz))
      obtain ⟨a, n, hiter, hn, hexact⟩ := ih _ (by omega) ⟨hat.1, Or.inr hmem, hlt⟩
        (fun z hz hyz hzk => hlow z hz (hpos.trans hyz) hzk) rfl
      refine ⟨a, n + 1, .next (hbody.right c l hat hne hlt) hiter, by omega, fun habs => ?_⟩
      have hn' := hexact habs
      omega
    · -- no tower of the level is left before the key
      have hge : sl.arena.nextAt c l ≠ 0 →
          keyPos cmp key ≤ pos cmp sl (sl.arena.nextAt c l) :=
        fun hne => not_lt.1 fun hlt => hright ⟨hne, hlt⟩
      have hbelow : ∀ z ∈ S 0, pos cmp sl c < pos cmp sl z → pos cmp sl z < keyPos cmp key →
          sl.arena.heightAt z < l := by
        intro z hz hcz hzk
        by_contra hlz
        have hzl := hfull z hz l (not_lt.1 hlz)
        by_cases hne : sl.arena.nextAt c l = 0
        · rw [hne] at hnext
          exact absurd hcz (not_lt.2 (hnext.le_of_null (h.threaded l hat.1).null_notMem hzl))
        · exact absurd hzk (not_lt.2 ((hge hne).trans (hnext.le hne hzl hcz)))
      have hdown : 0 < l → body (c, l) = .ok (.next (c, l - 1)) →
          ∃ a n, Iterates body a n (c, l) ∧ n ≤ (stairsAt cmp sl S key c).card + l + 1 ∧
            ((∀ x ∈ S 0, pos cmp sl x ≠ keyPos cmp key) →
              n = (stairsAt cmp sl S key c).card + l + 1) := by
        intro hl hstep
        obtain ⟨a, n, hiter, hn, hexact⟩ := ih _ (by omega) (h.searchAt_down hat)
          (fun z hz hcz hzk => Nat.le_sub_one_of_lt (hbelow z hz hcz hzk)) rfl
        refine ⟨a, n + 1, .next hstep hiter, by omega, fun habs => ?_⟩
        have hn' := hexact habs
        omega
      by_cases hgt : sl.arena.nextAt c l ≠ 0 →
          keyPos cmp key < pos cmp sl (sl.arena.nextAt c l)
      · rcases Nat.eq_zero_or_pos l with rfl | hl
        · obtain ⟨a, hstep⟩ := hbody.last c hat hgt
          have hnone : stairsAt cmp sl S key c = ∅ := stairs_eq_empty fun y hy hcy =>
            not_lt.1 fun hyk => absurd (hbelow y hy hcy hyk) (Nat.not_lt_zero _)
          refine ⟨a, 1, .done hstep, by omega, fun _ => ?_⟩
          rw [hnone, Finset.card_empty]
        · exact hdown hl (hbody.down c l hat hgt hl)
      · push Not at hgt
        obtain ⟨hne, hle⟩ := hgt
        have heq := le_antisymm hle (hge hne)
        rcases hbody.equal c l hat hne heq with ⟨a, hstep⟩ | ⟨hl, hstep⟩
        · refine ⟨a, 1, .done hstep, by omega, fun habs => ?_⟩
          exact absurd heq (habs _ (h.subset_zero l (hload hne).1))
        · exact hdown hl hstep

/-! ### On a list -/

namespace SkipList

/-- The stairs of `key`: the nodes before it with no higher node between them and the key. -/
def stairs (sl : SkipList) (key : Bytes) : List ℕ :=
  (sl.chain 0).filter fun x => sl.cmp.compareKey (sl.arena.keyAt x) key = .lt ∧
    ∀ y ∈ sl.chain 0, sl.cmp.compareKey (sl.arena.keyAt x) (sl.arena.keyAt y) = .lt →
      sl.cmp.compareKey (sl.arena.keyAt y) key = .lt → sl.arena.heightAt y ≤ sl.arena.heightAt x

/-- The turns of the loop of `lower_bound`. -/
def lowerBoundTurns (sl : SkipList) (key : Bytes) : ℕ :=
  iterations (sl.lowerBoundStep key) sl.fuel (sl.headOffset, sl.listHeight)

/-- The turns of the loop of `find_near`. -/
def findNearTurns (sl : SkipList) (key : Bytes) (less allowEqual : Bool) : ℕ :=
  iterations (sl.findNearStep key less allowEqual) sl.fuel (sl.headOffset, sl.listHeight)

/-- What the searches of `key` cost. -/
structure Costs (sl : SkipList) (key : Bytes) : Prop where
  lowerBound_le : sl.lowerBoundTurns key ≤ (sl.stairs key).length + sl.height + 1
  findNear_le : ∀ less allowEqual,
    sl.findNearTurns key less allowEqual ≤ (sl.stairs key).length + sl.height + 1
  lowerBound_eq : ¬ sl.Present key →
    sl.lowerBoundTurns key = (sl.stairs key).length + sl.height + 1
  findNear_eq : ¬ sl.Present key → ∀ less allowEqual,
    sl.findNearTurns key less allowEqual = (sl.stairs key).length + sl.height + 1

end SkipList

theorem Wf.length_stairs (h : Wf cmp sl S) :
    (sl.stairs key).length = (stairsAt cmp sl S key sl.head).card := by
  have hnodup := (List.nodup_cons.1 (h.nodup_chain (l := 0) (by decide))).2
  rw [SkipList.stairs, ← List.toFinset_card_of_nodup (hnodup.filter _)]
  congr 1
  ext x
  simp only [List.mem_toFinset, List.mem_filter, decide_eq_true_eq, stairsAt, mem_stairs,
    h.mem_chain_zero, h.cmp_eq]
  refine and_congr_right fun hx => ?_
  rw [h.compareKey_lt hx, and_iff_right (show pos cmp sl sl.head < pos cmp sl x from ?_)]
  · refine and_congr_right fun _ => forall₂_congr fun y hy => ?_
    rw [h.compareKey_lt hy, h.compareKey_lt hx, h.pos_mem hy]
  · rw [pos_head, h.pos_mem hx]
    exact bot_lt_keyPos

theorem Wf.not_present (h : Wf cmp sl S) (habs : ¬ sl.Present key) (x : ℕ) (hx : x ∈ S 0) :
    pos cmp sl x ≠ keyPos cmp key := by
  intro heq
  refine habs ⟨sl.arena.pairAt x, h.mem_pairs.2 ⟨x, hx, rfl⟩, ?_⟩
  rw [h.cmp_eq]
  exact (h.compareKey_eq hx).2 heq

/-- The turns of a search from the head. -/
theorem Searches.turns {α : Type} {body : ℕ × ℕ → Except Fault (Iter (ℕ × ℕ) α)}
    (hbody : Searches cmp sl S key body) (h : Wf cmp sl S)
    (hfull : ∀ x ∈ S 0, ∀ l ≤ sl.arena.heightAt x, x ∈ S l) :
    iterations body sl.fuel (sl.headOffset, sl.listHeight) ≤
        (sl.stairs key).length + sl.height + 1 ∧
      (¬ sl.Present key → iterations body sl.fuel (sl.headOffset, sl.listHeight) =
        (sl.stairs key).length + sl.height + 1) := by
  obtain ⟨a, n, hiter, hn, hexact⟩ := hbody.iterates h hfull (searchAt_head h.height_lt)
    fun z hz _ _ => h.level_le (hfull z hz _ le_rfl)
  rw [← h.length_stairs] at hn hexact
  have hcard : (sl.stairs key).length ≤ sl.arena.capacity := by
    rw [h.length_stairs]
    exact (Finset.card_le_card (Finset.filter_subset _ _)).trans (h.card_le 0)
  have hheight := h.height_lt
  have hfuel : n ≤ sl.fuel := by
    simp only [fuel]
    omega
  rw [headOffset, listHeight, hiter.iterations_eq hfuel]
  exact ⟨hn, fun habs => hexact (h.not_present habs)⟩

theorem Wf.costs (h : Wf cmp sl S) (hfull : ∀ x ∈ S 0, ∀ l ≤ sl.arena.heightAt x, x ∈ S l)
    (key : Bytes) : sl.Costs key where
  lowerBound_le := (h.searches_lowerBound.turns h hfull).1
  findNear_le less allowEqual := ((h.searches_findNear less allowEqual).turns h hfull).1
  lowerBound_eq habs := (h.searches_lowerBound.turns h hfull).2 habs
  findNear_eq habs less allowEqual := ((h.searches_findNear less allowEqual).turns h hfull).2 habs

namespace Concurrent

/-- **What a search costs**, in every state of every run in which no `put` is under way. -/
theorem search_turns {mode : Bool} {writer : ℕ} {capacity : ℕ} {ls : List Label} {s : State}
    (hcap : capacity ≤ 2 ^ 32) (hnew : SkipList.withCapacity cmp capacity mode = .ok sl)
    (hls : ∀ l ∈ ls, l.Allowed mode writer) (hexec : exec step (State.init sl) ls = some s)
    (hquiet : ∀ t, (s.threads t).pc.node = none) (key : Bytes) : s.list.Costs key := by
  obtain ⟨S, h, ht⟩ := exec_towers hcap hnew hls hexec
  refine h.wf.costs (fun x hx => ht.full x hx fun t hx => ?_) key
  rw [hquiet t] at hx
  cases hx

/-- Two calls of one thread, one after the other. -/
def twoPuts : List Label :=
  .invoke 0 (.put ⟨[5], [], 2⟩) :: steps 0 12 ++ .ret 0 (.inserted none) ::
    .invoke 0 (.put ⟨[7], [], 0⟩) :: steps 0 10 ++ [.ret 0 (.inserted none)]

/-- Between a tower of height 2 and one of height 0, and behind both. -/
theorem search_turns_two :
    ∃ sl s, SkipList.withCapacity bytewiseComparator 600 true = .ok sl ∧
      exec step (State.init sl) twoPuts = some s ∧ s.list.lowerBoundTurns [6] = 4 ∧
      s.list.lowerBoundTurns [8] = 5 ∧ ∀ key, s.list.Costs key := by
  obtain ⟨sl, hsl, s, hs, hend⟩ :
      ∃ sl, SkipList.withCapacity bytewiseComparator 600 true = .ok sl ∧
        ∃ s, exec step (State.init sl) twoPuts = some s ∧ ((s.threads 0).pc.node == none &&
          s.list.lowerBoundTurns [6] == 4 && s.list.lowerBoundTurns [8] == 5) = true :=
    exists_exec_and (by decide +kernel)
  simp only [Bool.and_eq_true, beq_iff_eq] at hend
  obtain ⟨⟨hnode, hsix⟩, hbehind⟩ := hend
  have hls : ∀ l ∈ twoPuts, l.Allowed true 0 := by decide
  have hquiet (t : ℕ) : (s.threads t).pc.node = none := by
    by_cases ht : t = 0
    · rw [ht, hnode]
    · have hinit : Inv bytewiseComparator true 0 (State.init sl) fun _ => ∅ :=
        inv_init (by decide) hsl
      have hwithin : ∀ l ∈ twoPuts, l.Within t := by
        intro l hl
        have hthread : ∀ l ∈ twoPuts, l.thread = 0 := by decide
        have hl' := hthread l hl
        cases l with
        | invoke t' c | ret t' r => exact fun he => ht (he.symm.trans hl')
        | step t' weak => trivial
      have hthread := exec_idle hinit hls hwithin rfl hs
      rw [hthread]
      rfl
  exact ⟨sl, s, hsl, hs, hsix, hbehind, search_turns (by decide) hsl hls hs hquiet⟩

end Concurrent

theorem SkipList.Reachable.costs {capacity : ℕ} {mode : Bool} (hcap : capacity ≤ 2 ^ 32)
    (h : sl.Reachable cmp capacity mode PutCall.Valid) (key : Bytes) : sl.Costs key := by
  obtain ⟨new, ls, s, hnew, hls, hexec, rfl, hidle⟩ := Concurrent.reachable_exec 0 hcap h
  exact Concurrent.search_turns hcap hnew hls hexec (fun t => by rw [hidle t]; rfl) key

end StoneDb
