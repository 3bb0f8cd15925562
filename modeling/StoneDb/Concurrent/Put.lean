import StoneDb.Concurrent.Invariant

/-!
# One step of `put`

`putStep_spec`: from a state in which a `put` knows `PutOk`, its next step either panics for lack of
memory, or returns a list with the invariant in which the `put` knows what it should (`PutStep`).
The step also says what happened to the map (`Commit`): nothing; an equal key was found, at the load
that found it; or the node was linked on level 0, at the compare-exchange or store that linked it,
when no equal key was present.  The steps after that one link the node at the levels above.
-/

namespace StoneDb

namespace Concurrent

open SkipList

/-- The node is linked on level 0. -/
def PutPc.linked : PutPc → Bool
  | .splice _ _ i _ | .linkNext _ _ i | .linkCas _ _ i | .relink _ _ i _ | .storeNext _ _ i
  | .storeLink _ _ i => 0 < i
  | _ => false

/-- The answer of a `put` that has taken effect. -/
def outcome : Iter PutPc (Option (Bytes × Bytes)) → Option (Option (Bytes × Bytes))
  | .next pc => if pc.linked then some none else none
  | .done r => some r

theorem outcome_next {pc : PutPc} {i : ℕ} (h : pc.linked = decide (0 < i)) :
    outcome (.next pc) = if 0 < i then some none else none := by
  simp only [outcome, h, decide_eq_true_eq]

variable (cmp : KeyComparator) [Std.TransCmp cmp.compareKey]

/-- What a step of a `put` means for the map, with the outcomes before and after it. -/
inductive Commit (sl : SkipList) (S : ℕ → Finset ℕ) (c : PutCall) (sl' : SkipList)
    (S' : ℕ → Finset ℕ) : Option (Option (Bytes × Bytes)) → Option (Option (Bytes × Bytes)) → Prop
  /-- Nothing. -/
  | same (r) : S' 0 = S 0 → Commit sl S c sl' S' r r
  /-- An equal key is linked at `x`. -/
  | present (x : ℕ) : x ∈ S 0 → pos cmp sl x = keyPos cmp c.key → sl' = sl → S' = S →
    Commit sl S c sl' S' none (some (conflictAnswer sl x c.key c.value))
  /-- No equal key is linked, and `node` now is. -/
  | added (node : ℕ) : (∀ x ∈ S 0, pos cmp sl x ≠ keyPos cmp c.key) → node ∉ S 0 →
    S' 0 = insert node (S 0) → sl'.arena.pairAt node = (c.key, c.value) →
    Commit sl S c sl' S' none (some none)

/-- What holds after a step of a `put` that was at `pc`. -/
structure PutStep (sl : SkipList) (S : ℕ → Finset ℕ) (c : PutCall) (pc : PutPc) (sl' : SkipList)
    (S' : ℕ → Finset ℕ) (r : Iter PutPc (Option (Bytes × Bytes))) : Prop where
  wf : Wf cmp sl' S'
  closed : Closed sl' S'
  effects : Effects (fun x => pc.node = some x) sl S sl' S'
  ok : ∀ pc', r = .next pc' → PutOk cmp sl' S' c pc'
  node : ∀ pc', r = .next pc' → ∀ x, pc'.node = some x → pc.node = some x ∨ sl.arena.len ≤ x
  commit : Commit cmp sl S c sl' S' (outcome (.next pc)) (outcome r)
  linker : ∀ x, x ∈ S' 0 → x ∉ S 0 → ∃ s, pc = .linkCas s x 0 ∨ pc = .storeLink s x 0
  back : sl.allowConcurrentWrite = false → BackOk cmp sl S (.next pc) → BackOk cmp sl' S' r

variable {cmp} {sl sl' : SkipList} {S S' : ℕ → Finset ℕ} {c : PutCall} {s : Splices}
  {h i node before : ℕ} (weak : Bool) {E : Prop}

/-! ### Going on at a level -/

/-- Where the splice goes on at level `i`. -/
def levelPc (mode : Bool) (s : Splices) (node i : ℕ) : PutPc :=
  if mode then .linkNext s node i else if i = 0 then .backNode s node else .storeNext s node i

theorem linkLevel_eq (hh : c.height < maxHeight) (hp : i ≤ c.height → s.prev i ≠ 0) :
    linkLevel sl c s node i = .ok (if c.height < i then .done none
      else .next (levelPc sl.allowConcurrentWrite s node i)) := by
  unfold linkLevel levelPc
  by_cases hi : c.height < i
  · simp only [hi, if_true]
    rfl
  · have hp0 := hp (not_lt.1 hi)
    simp only [hi, if_false, index_eq (show i < maxHeight + 1 by omega), hp0, bind, Except.bind]
    cases sl.allowConcurrentWrite <;> rfl

/-- The splice arrives at level `i` with what it needs there. -/
theorem levelPc_ok (hl : Linking cmp sl S c.key c.value node c.height i s
    (sl.allowConcurrentWrite = false)) (hheight : c.height ≤ sl.height) (hi : i ≤ c.height) :
    PutOk cmp sl S c (levelPc sl.allowConcurrentWrite s node i) := by
  have hp : Placing cmp sl S c s node i := ⟨hl, hi, hheight⟩
  unfold levelPc
  cases hmode : sl.allowConcurrentWrite with
  | true => exact ⟨hmode, hp⟩
  | false =>
    by_cases hi0 : i = 0
    · subst hi0
      exact ⟨hmode, hp⟩
    · simp only [Bool.false_eq_true, if_false, hi0]
      exact ⟨hmode, hp⟩

theorem levelPc_node (mode : Bool) : (levelPc mode s node i).node = some node := by
  unfold levelPc
  split_ifs <;> rfl

theorem levelPc_linked (mode : Bool) : (levelPc mode s node i).linked = decide (0 < i) := by
  unfold levelPc
  split_ifs with hmode hi
  · rfl
  · subst hi
    rfl
  · rfl

/-- Between two levels, no back pointer is out of order. -/
theorem backOk_level (hb : ∀ x ∈ S 0, BackTo cmp sl S x) (mode : Bool) :
    BackOk cmp sl S (if c.height < i then .done none else .next (levelPc mode s node i)) := by
  unfold levelPc
  split_ifs with hh hmode hi
  · exact hb
  · exact hb
  · exact hb
  · cases i with
    | zero => exact absurd rfl hi
    | succ i => exact hb

/-- Arriving at level `i`. -/
theorem PutStep.level (pc : PutPc) (hwf : Wf cmp sl' S') (hclosed : Closed sl' S')
    (heff : Effects (fun x => pc.node = some x) sl S sl' S') (hh : c.height < maxHeight)
    (hnode : pc.node = some node) (hheight : c.height ≤ sl'.height)
    (hl : Linking cmp sl' S' c.key c.value node c.height i s (sl'.allowConcurrentWrite = false))
    (hcommit : Commit cmp sl S c sl' S' (outcome (.next pc)) (if 0 < i then some none else none))
    (hlinker : ∀ x, x ∈ S' 0 → x ∉ S 0 → ∃ s, pc = .linkCas s x 0 ∨ pc = .storeLink s x 0)
    (hback : sl.allowConcurrentWrite = false → BackOk cmp sl S (.next pc) →
      ∀ x ∈ S' 0, BackTo cmp sl' S' x) :
    ∃ r, linkLevel sl c s node i = .ok r ∧ PutStep cmp sl S c pc sl' S' r := by
  have hlevel : linkLevel sl c s node i = _ :=
    linkLevel_eq hh fun hi => hwf.ne_zero' (hl.splice i le_rfl hi).1
  rw [← heff.grows.mode] at hlevel
  refine ⟨_, hlevel, ⟨hwf, hclosed, heff, ?_, ?_, ?_, hlinker, fun hm hb => backOk_level (hback hm
    hb) _⟩⟩
  · intro pc' hr
    split_ifs at hr with hi
    cases hr
    exact levelPc_ok hl hheight (not_lt.1 hi)
  · intro pc' hr x hx
    split_ifs at hr with hi
    cases hr
    rw [levelPc_node] at hx
    exact Or.inl (hnode.trans hx)
  · have hout : outcome (if c.height < i then .done none
        else .next (levelPc sl'.allowConcurrentWrite s node i)) =
        if 0 < i then some none else none := by
      split_ifs with hi hi0 hi0
      · rfl
      · omega
      · rw [outcome_next (levelPc_linked _), if_pos hi0]
      · rw [outcome_next (levelPc_linked _), if_neg hi0]
    rw [hout]
    exact hcommit

/-! ### Searching and allocating -/

/-- A step that neither links a node nor ends the call. -/
theorem PutStep.write {pc pc' : PutPc} (hwf : Wf cmp sl' S) (hclosed : Closed sl' S)
    (heff : Effects (fun x => pc.node = some x) sl S sl' S) (hok : PutOk cmp sl' S c pc')
    (hnode : ∀ x, pc'.node = some x → pc.node = some x ∨ sl.arena.len ≤ x)
    (hlinked : pc'.linked = pc.linked)
    (hback : sl.allowConcurrentWrite = false → BackOk cmp sl S (.next pc) →
      BackOk cmp sl' S (.next pc')) :
    PutStep cmp sl S c pc sl' S (.next pc') := by
  refine ⟨hwf, hclosed, heff, ?_, ?_, ?_, fun x hx hx' => absurd hx hx', hback⟩
  · intro pc'' hr
    cases hr
    exact hok
  · intro pc'' hr x hx
    cases hr
    exact hnode x hx
  · simp only [outcome, hlinked]
    exact .same _ rfl

/-- A step that only reads. -/
theorem PutStep.read {pc pc' : PutPc} (hwf : Wf cmp sl S) (hclosed : Closed sl S)
    (hok : PutOk cmp sl S c pc') (hnode : pc'.node = none ∨ pc'.node = pc.node)
    (hlinked : pc'.linked = pc.linked)
    (hback : BackOk cmp sl S (.next pc) → BackOk cmp sl S (.next pc')) :
    PutStep cmp sl S c pc sl S (.next pc') := by
  refine .write hwf hclosed (.refl _ _ _) hok ?_ hlinked fun _ => hback
  intro x hx
  rcases hnode with hnode | hnode
  · rw [hnode] at hx
    cases hx
  · exact Or.inl (hnode ▸ hx)

/-- A step that finds an equal key. -/
theorem PutStep.found {pc : PutPc} {x : ℕ} (hwf : Wf cmp sl S) (hclosed : Closed sl S)
    (hpc : pc.linked = false) (hx : x ∈ S 0) (heq : pos cmp sl x = keyPos cmp c.key)
    (hback : BackOk cmp sl S (.next pc) → ∀ x ∈ S 0, BackTo cmp sl S x) :
    PutStep cmp sl S c pc sl S (.done (conflictAnswer sl x c.key c.value)) := by
  refine ⟨hwf, hclosed, .refl _ _ _, fun pc' hr => (nomatch hr), fun pc' hr => (nomatch hr), ?_,
    fun x hx hx' => absurd hx hx', fun _ => hback⟩
  simp only [outcome, hpc]
  exact .present x hx heq rfl rfl

theorem search_step (hwf : Wf cmp sl S) (hclosed : Closed sl S)
    (hpc : PutOk cmp sl S c (.search h i s before)) :
    ∃ r, putStep sl c weak (.search h i s before) = .ok (sl, r) ∧
      PutStep cmp sl S c (.search h i s before) sl S r := by
  obtain ⟨hi, hat, hs⟩ := hpc
  have hil : i < maxHeight := hat.1
  rcases hwf.spliceStep_spec hat with ⟨q, hstep, -, -, hat'⟩ | ⟨⟨p, n⟩, hstep, hres⟩
  · refine ⟨_, by simp only [putStep, hstep, bind, Except.bind]; rfl, ?_⟩
    exact .read hwf hclosed ⟨hi, hat', hs⟩ (Or.inl rfl) rfl id
  have hstore := store_eq (p := p) (n := n) s (show i < maxHeight + 1 by omega)
  simp only [putStep, hstep, hstore, bind, Except.bind]
  rcases hres with ⟨hexact, hok⟩ | ⟨hpn, hmem, heq⟩
  · have hne : ¬ (p = n ∧ p ≠ 0) := fun hpn => hok.ne hwf hpn.1
    have hs' : Searched cmp sl S c.key h
        { prev := Function.update s.prev i p, next := Function.update s.next i n } i := by
      refine ⟨hs.height_le, hs.height_eq, ?_, ?_⟩
      · intro j hj hj'
        exact forall_store (P := SpliceOk cmp sl S c.key) hok j fun hji =>
          hs.splice j (by omega) hj'
      · intro hm j hj hj'
        exact forall_store (P := fun j p n => n = sl.arena.nextAt p j) hexact j fun hji =>
          hs.exact hm j (by omega) hj'
    simp only [hne, if_false]
    cases i with
    | zero => exact ⟨_, rfl, .read hwf hclosed hs' (Or.inl rfl) rfl id⟩
    | succ i =>
      simp only [index_eq (show i + 1 < maxHeight + 1 by omega), Function.update_self]
      refine ⟨_, rfl,
        .read hwf hclosed ⟨by omega, ⟨by omega, ?_, hok.2.1⟩, hs'⟩ (Or.inl rfl) rfl id⟩
      exact hok.1.imp id fun hp => hwf.anti i hp
  · -- an equal key: the call ends with its answer
    simp only at hpn hmem heq
    have hne : p = n ∧ p ≠ 0 := ⟨hpn, hwf.ne_zero hmem⟩
    rw [if_pos hne, hwf.conflict_eq hmem]
    exact ⟨_, rfl, .found hwf hclosed rfl (hwf.subset_zero i hmem) heq id⟩

theorem alloc_step (hwf : Wf cmp sl S) (hclosed : Closed sl S) (hh : c.height < maxHeight)
    (hsz : Sized sl.arena.capacity c.key c.value) (hpc : PutOk cmp sl S c (.alloc h s)) :
    putStep sl c weak (.alloc h s) = .error .outOfMemory ∨
      ∃ r, putStep sl c weak (.alloc h s) = .ok (sl, r) ∧
        PutStep cmp sl S c (.alloc h s) sl S r := by
  have hwrap := hsz.no_wrap
  have hbytes := nodeBytes_le c.key c.value hh
  have hlen := hwf.len_le
  have hsize := alignSize_nodeSize c.key c.value c.height (by omega)
  have hres : sl.arena.reserve (some sl.arena.len) (nodeBytes c.key c.value c.height) =
      if sl.arena.capacity < sl.arena.len + nodeBytes c.key c.value c.height then
        .error .outOfMemory
      else .ok (sl.arena.len, sl.arena.len + nodeBytes c.key c.value c.height) :=
    sl.arena.reserve_eq (by rw [Option.getD_some]; omega)
  simp only [putStep, hwf.ptr_eq, hsize, hres, bind, Except.bind]
  by_cases hfit : sl.arena.capacity < sl.arena.len + nodeBytes c.key c.value c.height
  · exact Or.inl (by simp only [hfit, if_true])
  · simp only [hfit, if_false]
    exact Or.inr ⟨_, rfl, .read hwf hclosed ⟨hpc, rfl, rfl, not_lt.1 hfit⟩ (Or.inl rfl) rfl id⟩

theorem allocCas_step {current : Option ℕ} {offset new : ℕ} (hwf : Wf cmp sl S)
    (hclosed : Closed sl S) (hsz : Sized sl.arena.capacity c.key c.value)
    (hpc : PutOk cmp sl S c (.allocCas h s current offset new)) :
    ∃ sl' r, putStep sl c weak (.allocCas h s current offset new) = .ok (sl', r) ∧
      PutStep cmp sl S c (.allocCas h s current offset new) sl' S r := by
  obtain ⟨hs, rfl, rfl, hcap⟩ := hpc
  simp only [putStep, Arena.compareExchangePtr]
  by_cases hcas : sl.arena.ptr = some offset
  · -- the block at the old bump pointer now belongs to this call
    have hlen : sl.arena.len = offset := by simp [Arena.len, hcas]
    have hbytes : kvDataOff c.height + c.key.length + c.value.length ≤
        nodeBytes c.key c.value c.height := by simp only [nodeBytes]; omega
    have hpos : 0 < kvDataOff c.height := by simp only [kvDataOff, towerOff]; omega
    have hfit : sl.arena.len + nodeBytes c.key c.value c.height ≤ sl.arena.capacity := hlen ▸ hcap
    rw [if_pos hcas]
    refine ⟨_, _, rfl, .write (hwf.setPtr (by omega) hcap) ⟨hclosed.next, hclosed.prev⟩
      (.setPtr (by omega)) ?_ ?_ rfl fun _ hb => hb⟩
    · refine ⟨⟨hs.height_le, hs.height_eq, hs.splice, hs.exact⟩, ?_, ?_, ?_, hsz.lt_of_fits hfit⟩
      · change offset < offset + _
        omega
      · intro ha
        exact absurd (hwf.alive_lt offset ha) (by omega)
      · intro h0
        have := hwf.alive_lt _ hwf.head_slot.alive
        omega
    · intro x hx
      cases hx
      exact Or.inr hlen.le
  · rw [if_neg hcas]
    exact ⟨_, _, rfl, .read hwf hclosed hs (Or.inl rfl) rfl id⟩

theorem init_step (hwf : Wf cmp sl S) (hclosed : Closed sl S) (hh : c.height < maxHeight)
    (hsz : Sized sl.arena.capacity c.key c.value) (hpc : PutOk cmp sl S c (.init h s node)) :
    ∃ sl' r, putStep sl c weak (.init h s node) = .ok (sl', r) ∧
      PutStep cmp sl S c (.init h s node) sl' S r := by
  obtain ⟨hs, hlt, hfresh, hnode0, hkv⟩ := hpc
  have hwrap := hsz.no_wrap
  have hbytes := nodeBytes_le c.key c.value hh
  have hinit := initNode_eq sl.arena node c.key c.value c.height (by omega)
  have hwf' : Wf cmp { sl with
      arena := sl.arena.write node (Node.init c.key c.value c.height) } S := hwf.write hfresh hlt
  have heff : Effects (fun x => (PutPc.init h s node).node = some x) sl S
      { sl with arena := sl.arena.write node (Node.init c.key c.value c.height) } S :=
    .write rfl hfresh
  have hlinking : Linking cmp { sl with
      arena := sl.arena.write node (Node.init c.key c.value c.height) } S c.key c.value node
      c.height 0 s (sl.allowConcurrentWrite = false) := by
    refine .start hwf heff.grows hfresh hnode0 ?_ ?_ (fun x hx _ => Arena.nextAt_write_of_ne hx)
      (fun j hj => hs.splice j (Nat.zero_le j) (by omega))
      fun hm j hj => hs.exact hm j (Nat.zero_le j) (by omega)
    · refine ⟨Node.init c.key c.value c.height, by simp [Arena.node_write], ?_⟩
      rw [Node.height_init _ _ hh]
    · rw [Arena.pairAt, Arena.keyAt_write_self, Arena.valueAt_write_self,
        Node.key_init c.value c.height hkv.1, Node.value_init c.value c.height hkv.1,
        storedValue_eq hkv.2]
  have hback : (∀ x ∈ S 0, BackTo cmp sl S x) → ∀ x ∈ S 0, BackTo cmp { sl with
      arena := sl.arena.write node (Node.init c.key c.value c.height) } S x := fun hb x hx =>
    (hb x hx).mono hwf (hwf.alive hx) heff.grows
      (Arena.prevAt_write_of_ne (hwf.ne_of_not_alive hfresh (Or.inr hx)))
  simp only [putStep, hinit, bind, Except.bind]
  by_cases hraise : h < c.height
  · simp only [hraise, if_true]
    exact ⟨_, _, rfl, .write hwf' (hclosed.init _ _ _) heff ⟨hlinking, hraise, hs.height_eq⟩
      (fun x hx => Or.inl hx) rfl fun _ hb => hback hb⟩
  · simp only [hraise, if_false]
    obtain ⟨r, hlevel, hstep⟩ := PutStep.level (.init h s node) hwf' (hclosed.init _ _ _) heff hh
      rfl ((not_lt.1 hraise).trans hs.height_le) hlinking (.same _ rfl)
      (fun x hx hx' => absurd hx hx') fun _ hb => hback hb
    rw [hlevel]
    exact ⟨_, r, rfl, hstep⟩

/-- The list height can be raised: nothing else is affected. -/
theorem raise_step {current : ℕ} (hwf : Wf cmp sl S) (hclosed : Closed sl S)
    (hh : c.height < maxHeight) (hpc : PutOk cmp sl S c (.raise s node current)) :
    ∃ sl' r, putStep sl c weak (.raise s node current) = .ok (sl', r) ∧
      PutStep cmp sl S c (.raise s node current) sl' S r := by
  obtain ⟨hl, hlt, hlone⟩ := hpc
  have hback : (∀ x ∈ S 0, BackTo cmp sl S x) →
      ∀ x ∈ S 0, BackTo cmp { sl with height := c.height } S x := fun hb => hb
  -- the store, or the successful compare-exchange
  have hset : sl.height ≤ c.height →
      ∃ r, linkLevel sl c s node 0 = .ok r ∧
        PutStep cmp sl S c (.raise s node current) { sl with height := c.height } S r := fun hle =>
    PutStep.level (.raise s node current) (hwf.raise hle hh) ⟨hclosed.next, hclosed.prev⟩
      (.raise hle) hh rfl le_rfl
      (hl.mono hwf (grows_raise hle) (fun _ hm => hm) fun _ _ _ _ => rfl) (.same _ rfl)
      (fun x hx hx' => absurd hx hx') fun _ hb => hback hb
  simp only [putStep, bind, Except.bind]
  by_cases hmode : sl.allowConcurrentWrite = true
  · rw [if_pos hmode]
    by_cases hcas : (!weak && sl.height == current) = true
    · have heq : sl.height = current := by simp at hcas; exact hcas.2
      obtain ⟨r, hlevel, hstep⟩ := hset (heq ▸ hlt.le)
      rw [if_pos hcas]
      simp only [hlevel]
      exact ⟨_, r, rfl, hstep⟩
    · rw [if_neg hcas]
      -- the exchange failed, perhaps spuriously: is the height still too low?
      by_cases hagain : sl.height < c.height
      · simp only [hagain, if_true]
        refine ⟨_, _, rfl, .read hwf hclosed ⟨hl, hagain, fun _ => rfl⟩ (Or.inr rfl) rfl id⟩
      · obtain ⟨r, hlevel, hstep⟩ := PutStep.level (.raise s node current) hwf hclosed
          (.refl _ _ _) hh rfl (not_lt.1 hagain) hl (.same _ rfl) (fun x hx hx' => absurd hx hx')
          fun _ hb => hb
        simp only [hagain, if_false, hlevel]
        exact ⟨_, r, rfl, hstep⟩
  · have hle : sl.height ≤ c.height := by
      have := hlone (by simpa using hmode)
      omega
    obtain ⟨r, hlevel, hstep⟩ := hset hle
    rw [if_neg hmode]
    simp only [hlevel]
    exact ⟨_, r, rfl, hstep⟩

end Concurrent

end StoneDb
