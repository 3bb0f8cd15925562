import StoneDb.SkipList.Reachable

/-!
# Splices

The answer of `find_splice_for_level`, on what can be seen of the list: the two neighbours of the
key on the chain of the level, or twice the node with an equal key (`SkipList.Splice`).  There is
only one such answer (`Wf.result_unique`), so it does not depend on where the search starts, and the
descent of `put`, which starts each level at the predecessor found one level up, finds what a fresh
search from the head finds at every level (`Wf.searchLevels_eq_fresh`).
-/

namespace StoneDb

namespace SkipList

/-- A start of a search for `key` at level `l`: the head, `0` for the head, or a node of the level
before the key. -/
def StartAt (sl : SkipList) (key : Bytes) (l before : ℕ) : Prop :=
  before = sl.head ∨ before = 0 ∨
    before ∈ sl.chain l ∧ sl.cmp.compareKey (sl.arena.keyAt before) key = .lt

/-- Is an equal key linked at level `l`? -/
def LinkedAt (sl : SkipList) (key : Bytes) (l : ℕ) : Prop :=
  ∃ x ∈ sl.chain l, sl.cmp.compareKey (sl.arena.keyAt x) key = .eq

/-- `p` and `n` follow one another on the chain of level `l`, from the head to the null offset. -/
def Adjacent (sl : SkipList) (l p n : ℕ) : Prop := [p, n] <:+: sl.head :: (sl.chain l ++ [0])

/-- **A splice** for `key` at level `l`: twice the node with an equal key if there is one, else the
adjacent nodes around the key. -/
structure Splice (sl : SkipList) (key : Bytes) (l p n : ℕ) : Prop where
  linked : sl.LinkedAt key l →
    p = n ∧ n ∈ sl.chain l ∧ sl.cmp.compareKey (sl.arena.keyAt n) key = .eq
  absent : ¬ sl.LinkedAt key l → p ≠ n ∧ sl.Adjacent l p n ∧
    (p = sl.head ∨ sl.cmp.compareKey (sl.arena.keyAt p) key = .lt) ∧
    (n = 0 ∨ sl.cmp.compareKey (sl.arena.keyAt n) key = .gt)

/-- The search of `put` with a fresh search from the head at every level. -/
def searchFresh (sl : SkipList) (key value : Bytes) :
    ℕ → Splices → Except Fault (Option (Bytes × Bytes) ⊕ Splices)
  | 0, s => .ok (.inr s)
  | i + 1, s => do
    let (p, n) ← sl.findSpliceForLevel key sl.headOffset i
    let s ← s.store i p n
    if p = n ∧ p ≠ 0 then return .inl (← sl.conflict p key value)
    else sl.searchFresh key value i s

end SkipList

variable {cmp : KeyComparator} [Std.TransCmp cmp.compareKey] {sl : SkipList} {S : ℕ → Finset ℕ}
  {key value : Bytes} {l before p n : ℕ} {r r' : ℕ × ℕ}

namespace Wf

variable (h : Wf cmp sl S)

include h

theorem linkedAt_iff (hl : l < maxHeight) :
    sl.LinkedAt key l ↔ ∃ x ∈ S l, pos cmp sl x = keyPos cmp key := by
  simp only [SkipList.LinkedAt, h.mem_chain hl, h.cmp_eq]
  exact exists_congr fun x => and_congr_right fun hx => h.compareKey_eq hx

/-- No equal key is linked where a search ends between two nodes. -/
theorem not_linkedAt (hl : l < maxHeight) (hexact : n = sl.arena.nextAt p l)
    (hok : SpliceOk cmp sl S key l p n) : ¬ sl.LinkedAt key l := by
  obtain ⟨hp, hlt, hn⟩ := hok
  rw [h.linkedAt_iff hl]
  rintro ⟨x, hx, heq⟩
  refine (h.isNext hl hp).not_between (h.threaded l hl).null_notMem hlt ?_ hx heq
  rw [← hexact]
  exact hn.imp id And.right

/-! ### One answer -/

/-- **There is one answer only.** -/
theorem result_unique (hl : l < maxHeight) (hr : SpliceResult cmp sl S key l r)
    (hr' : SpliceResult cmp sl S key l r') : r = r' := by
  rcases hr with ⟨hexact, hok⟩ | ⟨hpn, hmem, heq⟩ <;>
    rcases hr' with ⟨hexact', hok'⟩ | ⟨hpn', hmem', heq'⟩
  · -- each predecessor is the greatest node before the key
    have hle : ∀ {p n q : ℕ}, n = sl.arena.nextAt p l → SpliceOk cmp sl S key l p n →
        q = sl.head ∨ q ∈ S l → pos cmp sl q < keyPos cmp key → pos cmp sl q ≤ pos cmp sl p := by
      intro p n q hn hok hq hlt
      rcases hq with rfl | hq
      · rw [pos_head]
        exact bot_le
      · refine (h.isNext hl hok.1).le_of_lt (h.threaded l hl).null_notMem ?_ hq hlt
        rw [← hn]
        exact hok.2.2.imp id fun hgt => hgt.2.le
    have hprev : r.1 = r'.1 := (h.threaded l hl).key_inj hok.1 hok'.1
      (le_antisymm (hle hexact' hok' hok.1 hok.2.1) (hle hexact hok hok'.1 hok'.2.1))
    have hnext : r.2 = r'.2 := by rw [hexact, hexact', hprev]
    exact Prod.ext hprev hnext
  · exact absurd ((h.linkedAt_iff hl).2 ⟨_, hmem', heq'⟩) (h.not_linkedAt hl hexact hok)
  · exact absurd ((h.linkedAt_iff hl).2 ⟨_, hmem, heq⟩) (h.not_linkedAt hl hexact' hok')
  · -- keys do not occur twice
    have hprev : r.1 = r'.1 := (h.threaded l hl).inj _ hmem _ hmem' (heq.trans heq'.symm)
    exact Prod.ext hprev (hpn.symm.trans (hprev.trans hpn'))

theorem splice_of_result (hl : l < maxHeight) (hr : SpliceResult cmp sl S key l (p, n)) :
    sl.Splice key l p n := by
  rcases hr with ⟨hexact, hok⟩ | ⟨hpn, hmem, heq⟩
  · have hne := hok.ne h
    have habs := h.not_linkedAt hl hexact hok
    obtain ⟨hp, hlt, hn⟩ := hok
    refine ⟨fun hlinked => absurd hlinked habs, fun _ => ⟨hne, ?_, ?_, ?_⟩⟩
    · have hmem : p ∈ sl.head :: sl.chain l :=
        List.mem_cons.2 (hp.imp id fun hp => (h.mem_chain hl).2 hp)
      have hexact' : sl.arena.nextAt p l = n := hexact.symm
      exact hexact' ▸ (h.spells_chain hl).infix_link hmem
    · refine hp.imp id fun hp => ?_
      rwa [h.cmp_eq, h.compareKey_lt hp]
    · refine hn.imp id fun ⟨hn, hgt⟩ => ?_
      rwa [h.cmp_eq, h.compareKey_gt hn]
  · obtain rfl : p = n := hpn
    have hlinked : sl.LinkedAt key l := (h.linkedAt_iff hl).2 ⟨p, hmem, heq⟩
    refine ⟨fun _ => ⟨rfl, (h.mem_chain hl).2 hmem, ?_⟩, fun habs => absurd hlinked habs⟩
    rwa [h.cmp_eq, h.compareKey_eq hmem]

/-- A search that starts at `0` starts at the head. -/
theorem findSpliceForLevel_zero (key : Bytes) (l : ℕ) :
    sl.findSpliceForLevel key 0 l = sl.findSpliceForLevel key sl.head l := by
  have hstep : sl.spliceStep key l 0 = sl.spliceStep key l sl.head := by
    simp only [SkipList.spliceStep, SkipList.headOffset, if_true, h.head_ne_zero, if_false]
  have hfuel : sl.fuel = sl.arena.capacity + 19 + 1 := rfl
  simp only [SkipList.findSpliceForLevel, hfuel, loop, hstep]

/-- Every start of a level leads to the one answer. -/
theorem findSpliceForLevel_eq (hl : l < maxHeight) (hstart : sl.StartAt key l before)
    (hr : SpliceResult cmp sl S key l r) : sl.findSpliceForLevel key before l = .ok r := by
  have hfind : ∀ {c}, SearchAt cmp sl S key c l → sl.findSpliceForLevel key c l = .ok r := by
    intro c hc
    obtain ⟨r', hrun, hr'⟩ := h.findSpliceForLevel_spec hc
    rw [hrun, h.result_unique hl hr' hr]
  rcases hstart with rfl | rfl | ⟨hmem, hlt⟩
  · exact hfind (searchAt_head hl)
  · rw [h.findSpliceForLevel_zero]
    exact hfind (searchAt_head hl)
  · rw [h.mem_chain hl] at hmem
    rw [h.cmp_eq, h.compareKey_lt hmem] at hlt
    exact hfind ⟨hl, Or.inr hmem, hlt⟩

/-- The predecessor found one level up is a start of the level. -/
theorem startAt_below (hl : l + 1 < maxHeight) (hok : SpliceOk cmp sl S key (l + 1) p n) :
    sl.StartAt key l p := by
  obtain ⟨hp, hlt, -⟩ := hok
  refine hp.imp id fun hp => Or.inr ⟨(h.mem_chain (by omega)).2 (h.anti l hp), ?_⟩
  rwa [h.cmp_eq, h.compareKey_lt hp]

/-- **The descent** of `put` finds at every level what a fresh search from the head finds. -/
theorem searchLevels_eq_fresh (key value : Bytes) (i : ℕ) :
    ∀ s : SkipList.Splices, i ≤ maxHeight →
      (s.prev i = sl.head ∨ s.prev i ∈ S i) → pos cmp sl (s.prev i) < keyPos cmp key →
      sl.searchLevels key value i s = sl.searchFresh key value i s := by
  induction i with
  | zero => exact fun _ _ _ _ => rfl
  | succ i ih =>
    intro s hi hp hlt
    have hat : SearchAt cmp sl S key (s.prev (i + 1)) i :=
      ⟨hi, hp.imp id fun hp => h.anti i hp, hlt⟩
    obtain ⟨⟨p, n⟩, hfind, hres⟩ := h.findSpliceForLevel_spec hat
    have hfresh : sl.findSpliceForLevel key sl.headOffset i = .ok (p, n) :=
      h.findSpliceForLevel_eq hi (Or.inl rfl) hres
    simp only [SkipList.searchLevels, SkipList.searchFresh, index_eq (Nat.lt_succ_of_le hi), hfind,
      hfresh, store_eq s (show i < maxHeight + 1 by omega), bind, Except.bind]
    -- the levels go on from the predecessor only if no equal key was found
    split_ifs with hfound
    · rfl
    · rcases hres with ⟨-, hok⟩ | ⟨hpn, hmem, -⟩
      · exact ih _ (by omega) (by simpa using hok.1) (by simpa using hok.2.1)
      · exact absurd ⟨hpn, h.ne_zero hmem⟩ hfound

end Wf

/-- **Splice search.**  At every level up to the list height there is one splice for the key, and
`find_splice_for_level` returns it from every start.  So a search that starts at the predecessor
found one level up returns what one from the head returns, and the whole descent of `put` is one
with a fresh search from the head at every level. -/
theorem splice_search (cmp : KeyComparator) [Std.TransCmp cmp.compareKey] {capacity : ℕ}
    (hcap : capacity ≤ 2 ^ 32) {mode : Bool} {sl : SkipList}
    (hsl : sl.Reachable cmp capacity mode PutCall.Valid) (key : Bytes) :
    (∀ l ≤ sl.height, ∃ p n, sl.Splice key l p n ∧
      ∀ before, sl.StartAt key l before → sl.findSpliceForLevel key before l = .ok (p, n)) ∧
    (∀ l < sl.height, ∀ p n, sl.findSpliceForLevel key sl.head (l + 1) = .ok (p, n) → p ≠ n →
      sl.findSpliceForLevel key p l = sl.findSpliceForLevel key sl.head l) ∧
    ∀ value, sl.searchLevels key value (sl.height + 1) (.start sl.head sl.height) =
      sl.searchFresh key value (sl.height + 1) (.start sl.head sl.height) := by
  obtain ⟨-, S, m, hm, -⟩ := hsl.refines fun c hc => hc.storable hcap
  have h := hm.wf
  have hheight := h.height_lt
  refine ⟨fun l hl => ?_, fun l hl p n hfind hne => ?_, fun value => ?_⟩
  · have hl' : l < maxHeight := hl.trans_lt hheight
    have hat : SearchAt cmp sl S key sl.head l := searchAt_head hl'
    obtain ⟨⟨p, n⟩, -, hres⟩ := h.findSpliceForLevel_spec hat
    exact ⟨p, n, h.splice_of_result hl' hres, fun before hstart =>
      h.findSpliceForLevel_eq hl' hstart hres⟩
  · have hl' : l + 1 < maxHeight := by omega
    have hat : SearchAt cmp sl S key sl.head (l + 1) := searchAt_head hl'
    obtain ⟨r, hrun, hres⟩ := h.findSpliceForLevel_spec hat
    obtain rfl : r = (p, n) := Except.ok.inj (hrun.symm.trans hfind)
    have hat' : SearchAt cmp sl S key sl.head l := searchAt_head (by omega)
    obtain ⟨r, hrun', hres'⟩ := h.findSpliceForLevel_spec hat'
    rcases hres with ⟨-, hok⟩ | ⟨hpn, -⟩
    · rw [hrun', h.findSpliceForLevel_eq (by omega) (h.startAt_below hl' hok) hres']
    · exact absurd hpn hne
  · have hprev : (SkipList.Splices.start sl.head sl.height).prev (sl.height + 1) = sl.head :=
      if_pos ⟨le_rfl, Nat.succ_lt_succ hheight⟩
    refine h.searchLevels_eq_fresh key value _ _ hheight (Or.inl hprev) ?_
    rw [hprev, pos_head]
    exact bot_lt_keyPos

/-- In a list of two nodes, the search for a key between them, from each of its starts. -/
theorem splice_search_between : ∃ sl, SkipList.withCapacity bytewiseComparator 1024 true = .ok sl ∧
    let sl := (PutCall.mk [5] [] 0).after ((PutCall.mk [1] [] 1).after sl)
    ∃ p n, sl.Splice [3] 0 p n ∧ ∀ before, sl.StartAt [3] 0 before →
      sl.findSpliceForLevel [3] before 0 = .ok (p, n) := by
  obtain ⟨sl, hsl⟩ : ∃ sl, SkipList.withCapacity bytewiseComparator 1024 true = .ok sl := ⟨_, rfl⟩
  refine ⟨sl, hsl, ?_⟩
  exact (splice_search bytewiseComparator (show 1024 ≤ 2 ^ 32 by decide)
    (.put (.put (.new hsl) _ (by decide)) _ (by decide)) [3]).1 0 (Nat.zero_le _)

end StoneDb
