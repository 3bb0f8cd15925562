import StoneDb.Concurrent.Exchange

/-!
# Why a compare-exchange fails

A `put` compare-exchanges a word with what it expects there (`PutPc.Expects`), and it expects what
it has seen in the word (`Sees`): a splice expects the offset that the search has loaded, or the
null offset on a level above the height that the call has loaded.  `Turn.expects` says how
expectations come and go, and from it `exec_beaten`: when a compare-exchange fails, another thread
has won the word since this call last saw it.
-/

namespace StoneDb

namespace Concurrent

open SkipList

/-! ### Seeing and expecting -/

/-- The word that a step of `put` loads.  A failed compare-exchange of the list height loads it. -/
def PutPc.loads (sl : SkipList) : PutPc → Option Word
  | .search _ i _ before | .splice _ _ i before | .relink _ _ i before =>
    some (.slot (if before = 0 then sl.headOffset else before) i)
  | .alloc .. => some .bump
  | .raise .. => some .height
  | _ => none

/-- The next step of a thread sees what `w` holds.  The list height also tells that the head has no
successor on the levels above. -/
def Pc.Sees (sl : SkipList) (w : Word) : Pc → Prop
  | .loadHeight (.put _) => w = .height ∨ ∃ i, sl.height < i ∧ w = .slot sl.headOffset i
  | .put _ pc => pc.loads sl = some w
  | _ => False

/-- The label is a step in which the thread `t` sees what `w` holds. -/
def Sees (t : ℕ) (w : Word) (s : State) (l : Label) : Prop :=
  (∃ weak, l = .step t weak) ∧ (s.threads t).pc.Sees s.list w

/-- Another thread than `t` wins the word `w`. -/
def WonByOther (t : ℕ) (w : Word) (s : State) (ls : List Label) : Prop :=
  ∃ s' l, Performs step s ls s' l ∧ l.thread ≠ t ∧ Wins s' l w

/-- **Another thread has won `w`** since the thread `t`, in its current call, last saw it. -/
def Beaten (s : State) (ls : List Label) (t : ℕ) (w : Word) : Prop :=
  SinceLast step (Sees t w) (fun s after => (∀ l ∈ after, l.Within t) ∧ WonByOther t w s after) s ls

/-- The splices of the levels from `lo` to `hi` expect `e` in `w`. -/
def SpliceExpects (s : Splices) (lo hi : ℕ) (w : Word) (e : Option ℕ) : Prop :=
  ∃ i, lo ≤ i ∧ i ≤ hi ∧ w = .slot (s.prev i) i ∧ e = some (s.next i)

/-- A `put` will compare-exchange `w`, and expects `e` there. -/
def PutPc.Expects (c : PutCall) (w : Word) (e : Option ℕ) : PutPc → Prop
  | .search h i s _ => (w = .height ∧ e = some h) ∨ SpliceExpects s (i + 1) c.height w e
  | .alloc h s | .init h s _ => (w = .height ∧ e = some h) ∨ SpliceExpects s 0 c.height w e
  | .allocCas h s current _ _ =>
    (w = .bump ∧ e = current) ∨ (w = .height ∧ e = some h) ∨ SpliceExpects s 0 c.height w e
  | .raise s _ current => (w = .height ∧ e = some current) ∨ SpliceExpects s 0 c.height w e
  | .linkNext s _ i | .linkCas s _ i => SpliceExpects s i c.height w e
  | .relink s _ i _ => SpliceExpects s (i + 1) c.height w e
  | _ => False

variable {cmp : KeyComparator} [Std.TransCmp cmp.compareKey] {writer t : ℕ} {s s' s₀ : State}
  {sl sl' : SkipList} {S S' : ℕ → Finset ℕ} {l : Label} {c : PutCall} {pc pc' : PutPc} {w : Word}
  {e : Option ℕ} {sp : Splices} {i lo hi before n : ℕ} {ls : List Label}
  {r : Iter PutPc (Option (Bytes × Bytes))}

/-- A compare-exchange is expected. -/
theorem PutOk.expects (hpc : PutOk cmp sl S c pc) (hex : pc.exchange = some (w, e)) :
    pc.Expects c w e := by
  cases pc with
  | allocCas => cases hex; exact Or.inl ⟨rfl, rfl⟩
  | raise => cases hex; exact Or.inl ⟨rfl, rfl⟩
  | linkCas s node i => cases hex; exact ⟨i, le_rfl, hpc.2.1.level_le, rfl, rfl⟩
  | search | alloc | init | splice | linkNext | relink | backNode | backNext | storeNext
  | storeLink => cases hex

/-- What is expected is expected in a word that others can reach. -/
theorem PutOk.linked (hpc : PutOk cmp sl S c pc) (hh : c.height < maxHeight)
    (he : pc.Expects c w e) : w.Linked sl S := by
  have hsplice : ∀ {s : Splices} {lo : ℕ}, (∀ j, lo ≤ j → j ≤ c.height →
      SpliceOk cmp sl S c.key j (s.prev j) (s.next j)) → SpliceExpects s lo c.height w e →
        w.Linked sl S := by
    rintro s lo hs ⟨j, hlo, hj, rfl, -⟩
    exact (hs j hlo hj).1
  cases pc with
  | search h i s before =>
    rcases he with ⟨rfl, -⟩ | he
    · trivial
    · exact hsplice (fun j hj hj' => hpc.2.2.splice j hj (hj'.trans_lt hh)) he
  | alloc h s =>
    rcases he with ⟨rfl, -⟩ | he
    · trivial
    · exact hsplice (fun j hj hj' => hpc.splice j hj (hj'.trans_lt hh)) he
  | allocCas h s current offset new =>
    rcases he with ⟨rfl, -⟩ | ⟨rfl, -⟩ | he
    · trivial
    · trivial
    · exact hsplice (fun j hj hj' => hpc.1.splice j hj (hj'.trans_lt hh)) he
  | init h s node =>
    rcases he with ⟨rfl, -⟩ | he
    · trivial
    · exact hsplice (fun j hj hj' => hpc.1.splice j hj (hj'.trans_lt hh)) he
  | raise s node current =>
    rcases he with ⟨rfl, -⟩ | he
    · trivial
    · exact hsplice hpc.1.splice he
  | linkNext s node i => exact hsplice hpc.2.linking.splice he
  | linkCas s node i => exact hsplice hpc.2.1.linking.splice he
  | relink s node i before =>
    exact hsplice (fun j hj => hpc.2.1.linking.splice j (Nat.le_of_succ_le hj)) he
  | splice | backNode | backNext | storeNext | storeLink => exact he.elim

/-! ### How expectations come and go -/

namespace SpliceExpects

theorem mono {lo' : ℕ} (he : SpliceExpects sp lo hi w e) (hlo : lo' ≤ lo) :
    SpliceExpects sp lo' hi w e := by
  obtain ⟨j, hj, hrest⟩ := he
  exact ⟨j, hlo.trans hj, hrest⟩

/-- The slots of the other levels are other words. -/
theorem ne_slot {o : ℕ} (he : SpliceExpects sp lo hi w e) (hi : i < lo) : w ≠ .slot o i := by
  obtain ⟨j, hj, -, rfl, -⟩ := he
  intro heq
  injection heq
  omega

/-- So a step at the level below does not see the word. -/
theorem not_seen {o : ℕ} (he : SpliceExpects sp (i + 1) hi w e) :
    (some (.slot o i) : Option Word) ≠ some w := fun hs =>
  he.ne_slot (Nat.lt_succ_self i) (Option.some.inj hs).symm

theorem ne_bump (he : SpliceExpects sp lo hi w e) : w ≠ .bump := by
  obtain ⟨j, -, -, rfl, -⟩ := he
  exact nofun

theorem ne_height (he : SpliceExpects sp lo hi w e) : w ≠ .height := by
  obtain ⟨j, -, -, rfl, -⟩ := he
  exact nofun

/-- A new splice for the lowest level. -/
theorem of_record (he : SpliceExpects (record sp i before n) i hi w e) :
    (w = .slot before i ∧ e = some n) ∨ SpliceExpects sp (i + 1) hi w e := by
  obtain ⟨j, hj, hjhi, rfl, rfl⟩ := he
  by_cases hji : j = i
  · subst hji
    exact Or.inl ⟨by simp [record], by simp [record]⟩
  · exact Or.inr ⟨j, by omega, hjhi, by simp [record, hji], by simp [record, hji]⟩

end SpliceExpects

theorem goOn_eq_next {node : ℕ} (h : goOn c sp node i = .next pc) :
    i ≤ c.height ∧ pc = .linkNext sp node i := by
  unfold goOn at h
  split_ifs at h with hi
  cases h
  exact ⟨not_lt.1 hi, rfl⟩

/-- **What a `put` expects after a step**, it has expected before, in a word that it has neither
seen nor won in this step; or it has seen it just now. -/
theorem PutMove.expects (hm : PutMove cmp sl S c pc sl' S' r) (hwf : Wf cmp sl S)
    (hh : c.height < maxHeight) (hpc : PutOk cmp sl S c pc) (hr : r = .next pc')
    (he : pc'.Expects c w e) :
    (pc.Expects c w e ∧ pc.loads sl ≠ some w ∧ w.load sl' = w.load sl) ∨
      (pc.loads sl = some w ∧ w.load sl' = e) := by
  have hkept : pc.Expects c w e → pc.loads sl ≠ some w → pc.exchange ≠ some (w, w.load sl) →
      (pc.Expects c w e ∧ pc.loads sl ≠ some w ∧ w.load sl' = w.load sl) ∨
        (pc.loads sl = some w ∧ w.load sl' = e) := fun he hseen hwin =>
    Or.inl ⟨he, hseen, (hm.word hwf (hpc.linked hh he)).resolve_right hwin⟩
  -- a search stands at a node
  have hslot : ∀ {before i : ℕ}, SearchAt cmp sl S c.key before i →
      (some (Word.slot (if before = 0 then sl.headOffset else before) i) : Option Word) =
        some (.slot before i) := fun hat => by
    rw [if_neg (hwf.ne_zero' hat.2.1)]
  cases hm with
  | advance h i s before =>
    cases hr
    refine hkept he ?_ nofun
    rw [PutPc.loads, hslot hpc.2.1]
    rcases he with ⟨rfl, -⟩ | he
    · exact nofun
    · exact he.not_seen
  | found => cases hr
  | descend h i s before =>
    cases hr
    rw [PutPc.loads, hslot hpc.2.1] at hkept ⊢
    rcases he with ⟨rfl, rfl⟩ | he
    · exact hkept (Or.inl ⟨rfl, rfl⟩) nofun nofun
    · rcases he.of_record with ⟨rfl, rfl⟩ | he
      · exact Or.inr ⟨rfl, rfl⟩
      · exact hkept (Or.inr he) he.not_seen nofun
  | searched h s before =>
    cases hr
    rw [PutPc.loads, hslot hpc.2.1] at hkept ⊢
    rcases he with ⟨rfl, rfl⟩ | he
    · exact hkept (Or.inl ⟨rfl, rfl⟩) nofun nofun
    · rcases he.of_record with ⟨rfl, rfl⟩ | he
      · exact Or.inr ⟨rfl, rfl⟩
      · exact hkept (Or.inr he) he.not_seen nofun
  | load h s offset new =>
    cases hr
    rcases he with ⟨rfl, rfl⟩ | ⟨rfl, rfl⟩ | he
    · exact Or.inr ⟨rfl, rfl⟩
    · exact hkept (Or.inl ⟨rfl, rfl⟩) nofun nofun
    · exact hkept (Or.inr he) (fun hs => he.ne_bump (Option.some.inj hs).symm) nofun
  | reserve h s offset new =>
    cases hr
    refine hkept (Or.inr he) nofun fun hx => ?_
    obtain ⟨rfl, -⟩ := exchange_holds hx
    rcases he with ⟨hw, -⟩ | he
    · cases hw
    · exact he.ne_bump rfl
  | reload h s current offset new hne =>
    cases hr
    exact hkept (Or.inr he) nofun fun hx => hne (exchange_holds hx).2
  | init h s node =>
    split_ifs at hr with hraise
    · cases hr
      exact hkept he nofun nofun
    · obtain ⟨-, rfl⟩ := goOn_eq_next hr
      exact hkept (Or.inr he) nofun nofun
  | raised s node =>
    obtain ⟨-, rfl⟩ := goOn_eq_next hr
    have hne : w ≠ .height := SpliceExpects.ne_height he
    exact hkept (Or.inr he) (fun hs => hne (Option.some.inj hs).symm)
      fun hx => hne (exchange_holds hx).1
  | higher s node current hne hlow =>
    cases hr
    rcases he with ⟨rfl, rfl⟩ | he
    · exact Or.inr ⟨rfl, rfl⟩
    · exact hkept (Or.inr he) (fun hs => he.ne_height (Option.some.inj hs).symm)
        fun hx => he.ne_height (exchange_holds hx).1
  | overtaken s node current hne =>
    obtain ⟨-, rfl⟩ := goOn_eq_next hr
    have hne : w ≠ .height := SpliceExpects.ne_height he
    exact hkept (Or.inr he) (fun hs => hne (Option.some.inj hs).symm)
      fun hx => hne (exchange_holds hx).1
  | point s node i =>
    cases hr
    exact hkept he nofun nofun
  | link s node i hprev =>
    obtain ⟨-, rfl⟩ := goOn_eq_next hr
    have he' : SpliceExpects s (i + 1) c.height w e := he
    exact hkept (he'.mono (Nat.le_succ i)) nofun
      fun hx => he'.ne_slot (Nat.lt_succ_self i) (exchange_holds hx).1
  | miss s node i hprev =>
    cases hr
    have he' : SpliceExpects s (i + 1) c.height w e := he
    exact hkept (he'.mono (Nat.le_succ i)) nofun
      fun hx => he'.ne_slot (Nat.lt_succ_self i) (exchange_holds hx).1
  | readvance s node i before =>
    cases hr
    refine hkept he ?_ nofun
    rw [PutPc.loads, hslot hpc.2.2]
    exact SpliceExpects.not_seen he
  | conflict => cases hr
  | resplice s node i before =>
    cases hr
    rw [PutPc.loads, hslot hpc.2.2] at hkept ⊢
    rcases SpliceExpects.of_record he with ⟨rfl, rfl⟩ | he
    · exact Or.inr ⟨rfl, rfl⟩
    · exact hkept he he.not_seen nofun

/-- Above the list height, the head has no successor. -/
theorem start_expects (hwf : Wf cmp sl S) (key : Bytes) (hhi : hi < maxHeight)
    (he : SpliceExpects (.start sl.head sl.height) (sl.height + 1) hi w e) :
    (∃ i, sl.height < i ∧ w = .slot sl.headOffset i) ∧ w.load sl = e := by
  obtain ⟨j, hj, hjhi, rfl, rfl⟩ := he
  have hprev : (Splices.start sl.head sl.height).prev j = sl.head :=
    if_pos ⟨hj, by omega⟩
  have hnext := (hwf.start_exact key hj (hjhi.trans_lt hhi)).1
  rw [hprev] at hnext ⊢
  exact ⟨⟨j, hj, rfl⟩, congrArg some hnext.symm⟩

theorem exchange_put {weak : Bool} (hpc : (s.threads t).pc = .put c pc) :
    Label.exchange s (.step t weak) = pc.exchange := by
  simp only [Label.exchange, hpc]

/-- Only a win changes a word that is linked. -/
theorem Turn.word (ht : Turn cmp s S l s' S') (hwf : Wf cmp s.list S)
    (hw : w.Linked s.list S) : w.load s'.list = w.load s.list ∨ Wins s l w := by
  cases ht with
  | call | snapshot | aside => exact Or.inl rfl
  | put t c pc sl S' r hpc hm =>
    refine (hm.word hwf hw).imp id fun hex => ?_
    rw [Wins, exchange_put hpc]
    exact hex

/-- A `put` expects the same while the others move. -/
theorem Turn.expects_other (ht : Turn cmp s S l s' S') (hm : Move cmp s S l s' S')
    (h : Inv cmp true writer s S) (hl : t ≠ l.thread) (hpc' : (s'.threads t).pc = .put c pc')
    (he : pc'.Expects c w e) :
    (s.threads t).pc = .put c pc' ∧ ¬ Sees t w s l ∧ l.Within t ∧
      (w.load s'.list = w.load s.list ∨ (l.thread ≠ t ∧ Wins s l w)) := by
  rw [hm.other hl] at hpc'
  have hok := h.pc t
  rw [hpc'] at hok
  have hword := ht.word h.wf (hok.2.linked hok.1.height he)
  refine ⟨hpc', ?_, ?_, hword.imp id fun hwin => ⟨Ne.symm hl, hwin⟩⟩
  · rintro ⟨⟨weak, rfl⟩, -⟩
    exact hl rfl
  · cases l with
    | invoke t' | ret t' => exact Ne.symm hl
    | step => trivial

/-- **What is expected after a turn**: the thread has expected it before, and nothing but a win of
another thread has changed the word; or the thread has seen it just now. -/
theorem Turn.expects (ht : Turn cmp s S l s' S') (hm : Move cmp s S l s' S')
    (h : Inv cmp true writer s S) (hpc' : (s'.threads t).pc = .put c pc')
    (he : pc'.Expects c w e) :
    (∃ pc, (s.threads t).pc = .put c pc ∧ pc.Expects c w e ∧ ¬ Sees t w s l ∧ l.Within t ∧
        (w.load s'.list = w.load s.list ∨ (l.thread ≠ t ∧ Wins s l w))) ∨
      (Sees t w s l ∧ w.load s'.list = e) := by
  by_cases hl : t = l.thread
  swap
  · obtain ⟨hpc, hrest⟩ := ht.expects_other hm h hl hpc' he
    exact Or.inl ⟨pc', hpc, he, hrest⟩
  subst hl
  have hok := h.pc l.thread
  cases ht with
  | call t c' hpc =>
    simp only [Label.thread, State.setPc, State.update_self] at hpc'
    cases hpc'
  | aside l th _ _ hth =>
    rw [State.update_self] at hpc'
    rw [hpc'] at hth
    exact absurd trivial hth
  | snapshot t c' hpc =>
    simp only [Label.thread, State.setPc, State.update_self, Pc.put.injEq] at hpc'
    obtain ⟨rfl, rfl⟩ := hpc'
    simp only [Label.thread, hpc] at hok
    have hsees : ∀ w, (Pc.loadHeight (.put c')).Sees s.list w → Sees t w s (.step t false) :=
      fun w hw => ⟨⟨false, rfl⟩, by rw [hpc]; exact hw⟩
    rcases he with ⟨rfl, rfl⟩ | he
    · exact Or.inr ⟨hsees _ (Or.inl rfl), rfl⟩
    · obtain ⟨hw, hload⟩ := start_expects h.wf c'.key hok.height he
      exact Or.inr ⟨hsees _ (Or.inr hw), hload⟩
  | put t c' pc sl S' r hpc hmove =>
    simp only [Label.thread, hpc] at hok
    obtain ⟨hvalid, hok⟩ := hok
    simp only [Label.thread, State.update_self] at hpc'
    cases r with
    | done r => cases hpc'
    | next pc'' =>
      obtain ⟨rfl, rfl⟩ := Pc.put.inj hpc'
      have hsees : Sees t w s (.step t false) ↔ pc.loads s.list = some w := by
        refine ⟨fun hs => ?_, fun hs => ⟨⟨false, rfl⟩, ?_⟩⟩
        · have hpcs := hs.2
          rwa [hpc] at hpcs
        · rw [hpc]
          exact hs
      simp only [Label.thread, hsees, State.update_list]
      rcases hmove.expects h.wf hvalid.height hok rfl he with ⟨hold, hnot, hload⟩ | hnew
      · exact Or.inl ⟨pc, hpc, hold, hnot, trivial, Or.inl hload⟩
      · exact Or.inr hnew

/-! ### Along a run -/

theorem WonByOther.concat {s₂ : State} (h : WonByOther t w s₂ ls) (l : Label) :
    WonByOther t w s₂ (ls ++ [l]) := by
  obtain ⟨s', l', hperf, hrest⟩ := h
  exact ⟨s', l', performs_concat.2 (Or.inl hperf), hrest⟩

/-- What every `put` expects it has seen, in its current call, and the word still holds it unless
another thread has won it since. -/
def Tracked (s₀ : State) (ls : List Label) (s : State) : Prop :=
  ∀ t c pc w e, (s.threads t).pc = .put c pc → pc.Expects c w e →
    SinceLast step (Sees t w) (fun s₁ after => (∀ l ∈ after, l.Within t) ∧
      (w.load s.list = e ∨ WonByOther t w s₁ after)) s₀ ls

theorem Turn.tracked (ht : Turn cmp s S l s' S') (hm : Move cmp s S l s' S')
    (h : Inv cmp true writer s S) (hexec : exec step s₀ ls = some s) (hstep : step s l = some s')
    (htracked : Tracked s₀ ls s) : Tracked s₀ (ls ++ [l]) s' := by
  intro t c pc' w e hpc' he
  rcases ht.expects hm h hpc' he with ⟨pc, hpc, hold, hnot, hwithin, hword⟩ | ⟨hsees, hload⟩
  · refine (htracked t c pc w e hpc hold).concat hexec hnot fun s₁ after hafter hR => ?_
    obtain ⟨hin, hstate⟩ := hR
    refine ⟨fun l' hl' => ?_, ?_⟩
    · rcases List.mem_append.1 hl' with hl' | hl'
      · exact hin l' hl'
      · exact List.mem_singleton.1 hl' ▸ hwithin
    · rcases hstate with heq | hwon
      · rcases hword with hsame | ⟨hother, hwin⟩
        · exact Or.inl (hsame.trans heq)
        · exact Or.inr ⟨s, l, performs_concat.2 (Or.inr ⟨hafter, rfl⟩), hother, hwin⟩
      · exact Or.inr (hwon.concat l)
  · exact .now hexec hsees hstep ⟨fun l hl => absurd hl List.not_mem_nil, Or.inl hload⟩

/-- No thread is in `put`. -/
def State.Quiet (s : State) : Prop := ∀ t, ¬ (s.threads t).pc.Inserting

theorem State.Quiet.not_put (hquiet : s.Quiet) : (s.threads t).pc ≠ .put c pc := by
  intro hpc
  have hnot := hquiet t
  rw [hpc] at hnot
  exact hnot trivial

/-- **Induction on steady runs among writers.** -/
theorem turn_induction {I : List Label → State → (ℕ → Finset ℕ) → Prop}
    (h : Inv cmp true writer s₀ S) (hnil : I [] s₀ S)
    (hturn : ∀ {ls s S l s' S'}, exec step s₀ ls = some s → Inv cmp true writer s S → I ls s S →
      step s l = some s' → Move cmp s S l s' S' → Turn cmp s S l s' S' →
      Inv cmp true writer s' S' → I (ls ++ [l]) s' S')
    (hls : ∀ l ∈ ls, l.Allowed true writer ∧ l.Steady) (hexec : exec step s₀ ls = some s) :
    ∃ S, Inv cmp true writer s S ∧ I ls s S := by
  refine exec_induction (I := fun ls s => ∃ S, Inv cmp true writer s S ∧ I ls s S)
    (P := fun l => l.Allowed true writer ∧ l.Steady) ⟨S, h, hnil⟩
    (fun ls s₁ l s₂ hl hs₁ hbefore hstep => ?_) hls hexec
  obtain ⟨S₁, h₁, hI⟩ := hbefore
  obtain ⟨S₂, hm, ht⟩ := step_turn h₁ hl.2 hstep
  have h₂ := hm.inv h₁ hl.1
  exact ⟨S₂, h₂, hturn hs₁ h₁ hI hstep hm ht h₂⟩

theorem exec_tracked (h : Inv cmp true writer s₀ S) (hquiet : s₀.Quiet)
    (hls : ∀ l ∈ ls, l.Allowed true writer ∧ l.Steady) (hexec : exec step s₀ ls = some s) :
    ∃ S, Inv cmp true writer s S ∧ Tracked s₀ ls s :=
  turn_induction (I := fun ls s _ => Tracked s₀ ls s) h
    (fun _ _ _ _ _ hpc _ => absurd hpc hquiet.not_put)
    (fun hs h htracked hstep hm ht _ => ht.tracked hm h hs hstep htracked) hls hexec

/-- **A lost compare-exchange**: another thread has won the word since this call last saw it. -/
theorem exec_beaten (h : Inv cmp true writer s₀ S) (hquiet : s₀.Quiet)
    (hls : ∀ l ∈ ls, l.Allowed true writer ∧ l.Steady) (hexec : exec step s₀ ls = some s)
    {weak : Bool} (hloses : Loses s (.step t weak) w) : Beaten s₀ ls t w := by
  obtain ⟨S, h, htracked⟩ := exec_tracked h hquiet hls hexec
  obtain ⟨e, hex, hne⟩ := hloses
  cases hpc : (s.threads t).pc with
  | put c pc =>
    rw [exchange_put hpc] at hex
    have hok := h.pc t
    rw [hpc] at hok
    obtain ⟨before, l, after, s₁, s₂, hsplit, hs₁, hsees, hs₂, hlast, hin, hstate⟩ :=
      htracked t c pc w e hpc (hok.2.expects hex)
    exact ⟨before, l, after, s₁, s₂, hsplit, hs₁, hsees, hs₂, hlast, hin, hstate.resolve_left hne⟩
  | idle | loadHeight | read | done | faulted => simp [Label.exchange, hpc] at hex

/-- The list height is at least what a `put` expects of it. -/
theorem exec_height_le (h : Inv cmp true writer s₀ S) (hquiet : s₀.Quiet)
    (hls : ∀ l ∈ ls, l.Allowed true writer ∧ l.Steady) (hexec : exec step s₀ ls = some s)
    (hpc : (s.threads t).pc = .put c pc) (he : pc.Expects c .height (some i)) :
    i ≤ s.list.height := by
  have hall : ∃ S, Inv cmp true writer s S ∧ ∀ t c pc i, (s.threads t).pc = .put c pc →
      pc.Expects c .height (some i) → i ≤ s.list.height := by
    refine turn_induction (I := fun _ s _ => ∀ t c pc i, (s.threads t).pc = .put c pc →
      pc.Expects c .height (some i) → i ≤ s.list.height) h
      (fun _ _ _ _ hpc _ => absurd hpc hquiet.not_put) (fun _ h hall _ hm ht _ => ?_) hls hexec
    intro t c pc i hpc he
    rcases ht.expects hm h hpc he with ⟨pc, hpc, hold, -⟩ | ⟨-, hload⟩
    · exact (hall t c pc i hpc hold).trans hm.grows.height
    · exact (Option.some.inj hload).ge
  obtain ⟨-, -, hall⟩ := hall
  exact hall t c pc i hpc he

end Concurrent

end StoneDb
