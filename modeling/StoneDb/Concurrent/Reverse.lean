import StoneDb.Concurrent.Scan
import StoneDb.Lib.Sweep

/-!
# Reverse scans

In concurrent mode `prev` looks for the greatest key below that of its node, from the head on.  A
scan that starts with `seek_to_last` or `seek_for_prev` and repeats `prev` until the cursor is
invalid (`ReverseScan`) is a sweep over the pairs of the list (`ReverseScan.sweep`): each move
answers from the map at one instant.  So it shows its pairs in descending order, and passes none by
that was linked when it started (`reverse_scans`).
-/

namespace StoneDb

namespace Concurrent

open SkipList

variable {cmp : KeyComparator} [Std.TransCmp cmp.compareKey] {mode : Bool} {writer t : ℕ}
  {s s' : State} {sl : SkipList} {S S' : ℕ → Finset ℕ} {q : ReadCall} {r : Ret}
  {ls during : List Label} {ps : List (Bytes × Bytes)} {p : Option (Bytes × Bytes)}

/-! ### One move -/

/-- The keys behind a reverse move, with the cursor at the pair `p`. -/
def ReadCall.behind (cmp : KeyComparator) (p : Option (Bytes × Bytes)) : ReadCall → Bytes → Bool
  | .seekToLast, _ => true
  | .seekForPrev target, key => cmp.compareKey key target != .gt
  | .prev, key => p.any fun x => cmp.compareKey key x.1 == .lt
  | _, _ => false

/-- The moves of a reverse scan. -/
def ReadCall.Reverse : ReadCall → Prop
  | .seekToLast | .seekForPrev _ | .prev => True
  | _ => False

omit [Std.TransCmp cmp.compareKey] in
/-- A reverse move answers with the last pair behind it. -/
theorem ReadCall.Reverse.spec_eq (hq : q.Reverse) (m : OrderedMap cmp.compareKey Bytes) :
    q.spec m p = .pair (m.lastWhere (q.behind cmp p)) := by
  cases q with
  | seekToLast | seekForPrev target => rfl
  | prev =>
    cases p with
    | some x => rfl
    | none =>
      have hnone : m.lastWhere (ReadCall.behind cmp none .prev) = none :=
        (m.lastWhere_eq_none_iff).2 fun _ _ => rfl
      rw [hnone]
      rfl
  | get | getWithKey | contains | lowerBound | len | isEmpty | seek | seekToFirst | next =>
    exact hq.elim

/-- A smaller key is behind, too. -/
theorem ReadCall.behind_of_lt {key key' : Bytes} (h : q.behind cmp p key = true)
    (hlt : cmp.compareKey key' key = .lt) : q.behind cmp p key' = true := by
  cases q with
  | seekToLast => rfl
  | seekForPrev target =>
    simp only [ReadCall.behind, bne_iff_ne] at h ⊢
    exact fun hgt => h (Std.TransCmp.gt_trans (Std.OrientedCmp.gt_of_lt hlt) hgt)
  | prev =>
    cases p with
    | none => cases h
    | some x =>
      simp only [ReadCall.behind, Option.any_some, beq_iff_eq] at h ⊢
      exact Std.TransCmp.lt_trans hlt h
  | get | getWithKey | contains | lowerBound | len | isEmpty | seek | seekToFirst | next =>
    cases h

/-- A reverse move leaves the cursor at what it answers. -/
theorem ReadEnd.reverse {it it' : IterRef} (hq : q.Reverse) (hmode : sl.allowConcurrentWrite = true)
    (h : ReadEnd cmp sl S it q it' r) : r = .pair (sl.pairOf it'.cursor) ∧ Linked S it' := by
  cases q with
  | seekToLast => exact ⟨h.1, GreatestWhere.null_or_mem h.2⟩
  | seekForPrev target => exact ⟨h.1, NearOk.null_or_mem h.2⟩
  | prev =>
    obtain ⟨hr, ho⟩ := h
    refine ⟨hr, ?_⟩
    by_cases h0 : it.cursor = 0
    · rw [if_pos h0] at ho
      exact Or.inl ho
    · rw [if_neg h0, if_pos hmode] at ho
      exact NearOk.null_or_mem ho
  | get | getWithKey | contains | lowerBound | len | isEmpty | seek | seekToFirst | next =>
    exact hq.elim

/-- **A reverse move** answers from the map at one instant, and leaves the cursor at its answer. -/
theorem exec_reverse (h : Inv cmp true writer s S)
    (hls : ∀ l ∈ callLabels t q during (.pair p), l.Allowed true writer)
    (hwithin : ∀ l ∈ during, l.Within t) (hq : q.Reverse)
    (hexec : exec step s (callLabels t q during (.pair p)) = some s') :
    ∃ (S' : ℕ → Finset ℕ) (m : OrderedMap cmp.compareKey Bytes), Inv cmp true writer s' S' ∧
      s.list.pairs ⊆ m.entries ∧ m.entries ⊆ s'.list.pairs ∧
      p = m.lastWhere (q.behind cmp (s.list.pairOf (s.threads t).it.cursor)) ∧
      (s'.threads t).pc = .idle ∧ s'.list.pairOf (s'.threads t).it.cursor = p := by
  obtain ⟨-, -, hidle, s₀, hinvoke, pre, s₁, S₁, hpre, hs₁, h₁, hend⟩ :=
    exec_read h hls hwithin hexec
  have hinstant : Instant cmp true writer s (callLabels t q during (.pair p))
      fun sl S => ReadEnd cmp sl S (s.threads t).it q (s'.threads t).it (.pair p) := by
    refine ⟨.invoke t (.read q) :: pre, s₁, S₁, ?_, ?_, h₁, hend⟩
    · exact ((List.prefix_cons_inj _).2 hpre).trans (List.prefix_append _ _)
    · exact exec_cons_eq_some.2 ⟨s₀, hinvoke, hs₁⟩
  obtain ⟨sl₁, S₁, S', hwf₁, hend, h', hgrow, hgrow'⟩ := hinstant.between h hls hexec
  have hmode : sl₁.allowConcurrentWrite = true := hgrow.mode.trans h.mode_eq
  have hatomic : q.Atomic sl₁.allowConcurrentWrite := by
    cases q with
    | prev => exact hmode
    | seekToLast | seekForPrev => trivial
    | get | getWithKey | contains | lowerBound | len | isEmpty | seek | seekToFirst | next =>
      exact hq.elim
  have hexact : q.Exact → Std.LawfulEqCmp cmp.compareKey := by
    intro he
    cases q <;> first | exact he.elim | exact hq.elim
  have hnext : q = .next → Linked S₁ (s.threads t).it := by
    rintro rfl
    exact hq.elim
  have hanswer := hend.answer hwf₁.represents hexact hatomic
    (fun _ => (h.cursor t).mono hgrow) hnext
  rw [hgrow.pairOf ((h.cursor t).imp id And.right), hq.spec_eq] at hanswer
  obtain ⟨hr, hlinked⟩ := hend.reverse hq hmode
  refine ⟨S', hwf₁.map, h', hgrow.pairs_subset h.wf hwf₁, hgrow'.pairs_subset hwf₁ h'.wf,
    Ret.pair.inj hanswer, hidle, ?_⟩
  rw [hgrow'.pairOf (hlinked.imp id hwf₁.alive), Ret.pair.inj hr]

/-! ### Scans -/

/-- A reverse scan of the thread `t` from the call `q` on: it calls `prev` until the cursor is
invalid, and shows the pairs `ps`. -/
inductive ReverseScan (t : ℕ) : ReadCall → List Label → List (Bytes × Bytes) → Prop
  | stop (q : ReadCall) (during : List Label) : (∀ l ∈ during, l.Within t) →
    ReverseScan t q (callLabels t q during (.pair none)) []
  | more (q : ReadCall) (during gap ls : List Label) (p : Bytes × Bytes)
    (ps : List (Bytes × Bytes)) : (∀ l ∈ during, l.Within t) → (∀ l ∈ gap, l.Within t) →
    ReverseScan t .prev ls ps →
    ReverseScan t q (callLabels t q during (.pair (some p)) ++ (gap ++ ls)) (p :: ps)

/-- The order of a reverse scan. -/
def Descends (cmp : KeyComparator) (p p' : Bytes × Bytes) : Prop := cmp.compareKey p'.1 p.1 = .lt

theorem descends_trans (x y z : Bytes × Bytes) (hxy : Descends cmp x y) (hyz : Descends cmp y z) :
    Descends cmp x z := by
  have hlt : cmp.compareKey z.1 x.1 = .lt := Std.TransCmp.lt_trans hyz hxy
  exact hlt

/-- **A reverse scan is a sweep** over the pairs of the list. -/
theorem ReverseScan.sweep (hscan : ReverseScan t q ls ps) (h : Inv cmp true writer s S)
    (hls : ∀ l ∈ ls, l.Allowed true writer) (hq : q.Reverse) (hexec : exec step s ls = some s') :
    ∃ S', Inv cmp true writer s' S' ∧ Sweep (Descends cmp)
      {p | q.behind cmp (s.list.pairOf (s.threads t).it.cursor) p.1 = true}
      {p | p ∈ s.list.pairs} ps {p | p ∈ s'.list.pairs} := by
  induction hscan generalizing s S with
  | stop q during hwithin =>
    obtain ⟨S', m, h', hsub, hsub', hnone, -, -⟩ := exec_reverse h hls hwithin hq hexec
    refine ⟨S', h', .stop (fun _ hy => hsub' (hsub hy)) fun y hy hbehind => ?_⟩
    have hout := (m.lastWhere_eq_none_iff).1 hnone.symm y (hsub hy)
    exact absurd (hbehind.symm.trans hout) (by decide)
  | more q during gap ls p ps hwithin hgap _ ih =>
    obtain ⟨s₁, hs₁, hrest⟩ := exec_append_eq_some.1 hexec
    obtain ⟨s₂, hs₂, hrest⟩ := exec_append_eq_some.1 hrest
    simp only [List.forall_mem_append] at hls
    obtain ⟨hcallOk, hgapOk, hrestOk⟩ := hls
    obtain ⟨S₁, m, h₁, hsub, hsub', hsome, hidle, hcursor⟩ :=
      exec_reverse h hcallOk hwithin hq hs₁
    obtain ⟨hmem, hbehind, hlast⟩ := (m.lastWhere_eq_some_iff).1 hsome.symm
    obtain ⟨S₂, h₂, hgrow₂⟩ := exec_inv h₁ hgapOk hs₂
    -- the cursor shows the same pair when the next call starts
    have hthread := exec_idle h₁ hgapOk hgap hidle hs₂
    have hshows : s₂.list.pairOf (s₂.threads t).it.cursor = some p := by
      rw [hthread, hgrow₂.pairOf ((h₁.cursor t).imp id And.right), hcursor]
    obtain ⟨S', h', hsweep⟩ := ih h₂ hrestOk trivial hrest
    have hahead : {x : Bytes × Bytes | ReadCall.behind cmp (some p) .prev x.1 = true} =
        {x | Descends cmp p x} := by
      ext x
      simp [ReadCall.behind, Descends]
    rw [hshows, hahead] at hsweep
    have hkept := hgrow₂.pairs_subset h₁.wf h₂.wf
    refine ⟨S', h', .more (fun y hy => hkept (hsub' (hsub hy))) (hkept (hsub' hmem)) hbehind ?_
      hsweep⟩
    intro y hy hy'
    have hle := hlast y (hsub hy) hy'
    rcases eq_or_lt_of_le hle with heq | hlt
    · exact Or.inl (m.eq_of_cmp_eq (hsub hy) hmem ((rank_eq_rank _).1 heq))
    · exact Or.inr ((rank_lt_rank _).1 hlt)

/-- The call that starts a reverse scan: `seek_to_last`, or `seek_for_prev` to a target. -/
def reverseStart : Option Bytes → ReadCall
  | none => .seekToLast
  | some target => .seekForPrev target

/-- The key is not above the target. -/
def UpToTarget (cmp : KeyComparator) (start : Option Bytes) (key : Bytes) : Prop :=
  ∀ target ∈ start, cmp.compareKey key target ≠ .gt

omit [Std.TransCmp cmp.compareKey] in
theorem reverseStart_behind {start : Option Bytes} {key : Bytes} :
    (reverseStart start).behind cmp p key = true ↔ UpToTarget cmp start key := by
  cases start <;> simp [reverseStart, ReadCall.behind, UpToTarget]

/-- **Reverse scans under concurrent inserts**: a scan is in descending order, shows every pair up
to the target that was linked when it started, and shows only pairs that are linked when it ends,
with the value that the key keeps. -/
theorem reverse_scans {capacity : ℕ} (hcap : capacity ≤ 2 ^ 32)
    (hnew : SkipList.withCapacity cmp capacity true = .ok sl) {before scan after : List Label}
    (hls : ∀ l ∈ before ++ scan ++ after, l.Allowed true writer)
    (hexec : exec step (State.init sl) (before ++ scan ++ after) = some s) {start : Option Bytes}
    (hscan : ReverseScan t (reverseStart start) scan ps) :
    ∃ s₀ s₁, exec step (State.init sl) before = some s₀ ∧
      exec step (State.init sl) (before ++ scan) = some s₁ ∧
      (ps.Pairwise fun p p' => cmp.compareKey p'.1 p.1 = .lt) ∧
      (∀ p ∈ s₀.list.pairs, UpToTarget cmp start p.1 → p ∈ ps) ∧
      ∀ p ∈ ps, p ∈ s₁.list.pairs ∧ UpToTarget cmp start p.1 ∧
        ∀ p' ∈ s.list.pairs, cmp.compareKey p'.1 p.1 = .eq → p' = p := by
  obtain ⟨s₁, hs₁, hafter⟩ := exec_append_eq_some.1 hexec
  obtain ⟨s₀, hs₀, hrun⟩ := exec_append_eq_some.1 hs₁
  simp only [List.forall_mem_append] at hls
  obtain ⟨⟨hbeforeOk, hscanOk⟩, hafterOk⟩ := hls
  obtain ⟨S₀, h₀, -⟩ := exec_inv (inv_init hcap hnew) hbeforeOk hs₀
  have hreverse : (reverseStart start).Reverse := by cases start <;> trivial
  obtain ⟨S₁, h₁, hsweep⟩ := hscan.sweep h₀ hscanOk hreverse hrun
  obtain ⟨S, h, hgrow⟩ := exec_inv h₁ hafterOk hafter
  obtain ⟨-, hsorted, hseen, hfound⟩ := hsweep.spec descends_trans fun _ _ hx hxy =>
    ReadCall.behind_of_lt hx hxy
  refine ⟨s₀, s₁, hs₀, hs₁, hsorted, fun p hp hup => ?_, fun p hp => ⟨(hfound p hp).1, ?_, ?_⟩⟩
  · exact hseen p hp (reverseStart_behind.2 hup)
  · exact reverseStart_behind.1 (hfound p hp).2
  · intro p' hp' heq
    exact h.wf.map.eq_of_cmp_eq hp' (hgrow.pairs_subset h₁.wf h.wf (hfound p hp).1) heq

/-- Two inserts. -/
def loading : List Label :=
  [.invoke 0 (.put ⟨[3], [30], 0⟩)] ++ steps 0 7 ++ [.ret 0 (.inserted none)] ++
    [.invoke 0 (.put ⟨[1], [10], 0⟩)] ++ steps 0 7 ++ [.ret 0 (.inserted none)]

/-- A reverse scan, with an insert below its cursor. -/
def reversing : List Label :=
  callLabels 1 .seekToLast (steps 1 4) (.pair (some ([3], [30]))) ++
    ([.invoke 0 (.put ⟨[2], [20], 0⟩)] ++ steps 0 8 ++
    (callLabels 1 .prev (steps 1 4) (.pair (some ([2], [20]))) ++ ([] ++
    (callLabels 1 .prev (steps 1 3) (.pair (some ([1], [10]))) ++ ([] ++
    callLabels 1 .prev (steps 1 2) (.pair none))))))

theorem reversing_scan :
    ReverseScan 1 (reverseStart none) reversing [([3], [30]), ([2], [20]), ([1], [10])] :=
  .more _ _ _ _ _ _ (by decide) (by decide) (.more _ _ _ _ _ _ (by decide) (by decide)
    (.more _ _ _ _ _ _ (by decide) (by decide) (.stop _ _ (by decide))))

theorem reverse_scans_reversing :
    ∃ sl, SkipList.withCapacity bytewiseComparator 1024 true = .ok sl ∧
      ∃ s, exec step (State.init sl) (loading ++ reversing ++ []) = some s ∧
      ∃ s₀ s₁, exec step (State.init sl) loading = some s₀ ∧
        exec step (State.init sl) (loading ++ reversing) = some s₁ ∧
        ∀ p ∈ s₀.list.pairs, p ∈ [([3], [30]), ([2], [20]), (([1], [10]) : Bytes × Bytes)] := by
  obtain ⟨sl, hsl, s, hs⟩ : ∃ sl, SkipList.withCapacity bytewiseComparator 1024 true = .ok sl ∧
      ∃ s, exec step (State.init sl) (loading ++ reversing ++ []) = some s :=
    exists_exec (by decide +kernel)
  have hls : ∀ l ∈ loading ++ reversing ++ [], l.Allowed true 0 := by decide
  obtain ⟨s₀, s₁, hs₀, hs₁, -, hseen, -⟩ := reverse_scans (by decide) hsl hls hs reversing_scan
  exact ⟨sl, hsl, s, hs, s₀, s₁, hs₀, hs₁, fun p hp => hseen p hp nofun⟩

end Concurrent

end StoneDb
