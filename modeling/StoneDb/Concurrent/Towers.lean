import StoneDb.Concurrent.Bounds
import StoneDb.Concurrent.Exchange
import StoneDb.Concurrent.Alone

/-!
# Towers are linked from the bottom up

Between any two steps of any run, a node is on the chain of exactly the levels that its `put` has
come past, and on all levels of its tower once that `put` is over (`towers_linked`).  In particular
no tower stays half linked when no `put` is under way: each level is then the part of level 0 with
high enough towers (`towers_complete`), and this is the shape of every list that calls of `put`
build one after the other (`SkipList.Reachable.towers`).

A step neither takes a level from a node nor changes its height (`Stores.heightAt`), so all that is
left is the step with which a `put` ends (`PutStep.over`).
-/

namespace StoneDb

namespace Arena

/-- The height of the node at `o`. -/
def heightAt (a : Arena) (o : ℕ) : ℕ := ((a.node o).map Node.height).getD 0

variable {a a' : Arena} {o l : ℕ}

theorem hasSlot_iff (ho : a.Alive o) : a.HasSlot o l ↔ l ≤ a.heightAt o := by
  obtain ⟨n, hn⟩ := ho
  simp [HasSlot, heightAt, hn]

theorem Extends.heightAt (h : a.Extends a') (ho : a.Alive o) : a'.heightAt o = a.heightAt o := by
  obtain ⟨n, hn⟩ := ho
  obtain ⟨prev, tower, hn'⟩ := h.node o n hn
  simp only [Arena.heightAt, hn, hn', Option.map_some, Option.getD_some]

end Arena

namespace Concurrent

open SkipList

/-- The level at which a `put` is about to link its node. -/
def PutPc.level : PutPc → ℕ
  | .splice _ _ i _ | .linkNext _ _ i | .linkCas _ _ i | .relink _ _ i _ | .storeNext _ _ i
  | .storeLink _ _ i => i
  | _ => 0

/-- The thread inserts the node `x`, and is about to link it at level `i`. -/
def Thread.LinksAt (th : Thread) (x i : ℕ) : Prop :=
  ∃ c pc, th.pc = .put c pc ∧ pc.node = some x ∧ pc.level = i

variable {cmp : KeyComparator} [Std.TransCmp cmp.compareKey] {mode : Bool} {writer t : ℕ}
  {s s' : State} {sl sl' : SkipList} {S S' : ℕ → Finset ℕ} {bs : List (ℕ × ℕ)} {c : PutCall}
  {pc : PutPc} {a : Arena} {x i : ℕ}

/-! ### Steps of `put` -/

/-- A step changes no height, and the block it initialises gets the height of the call. -/
theorem Stores.heightAt {block : Option (ℕ × ℕ)} (hst : Stores sl c pc a block)
    (hh : c.height < maxHeight) (hx : a.Alive x) :
    sl.arena.Alive x ∧ a.heightAt x = sl.arena.heightAt x ∨
      pc.node = some x ∧ a.heightAt x = c.height := by
  cases hst with
  | none | reserve => exact Or.inl ⟨hx, rfl⟩
  | init h sp node =>
    by_cases he : x = node
    · subst he
      refine Or.inr ⟨rfl, ?_⟩
      simp only [Arena.heightAt, Arena.node_write, if_true, Option.map_some, Option.getD_some,
        Node.height_init _ _ hh]
    · refine Or.inl ⟨(Arena.alive_write_of_ne he).1 hx, ?_⟩
      simp only [Arena.heightAt, Arena.node_write, if_neg he]
  | prev pc o y =>
    have ha : sl.arena.Alive x := Arena.alive_setPrev.1 hx
    exact Or.inl ⟨ha, (Arena.Extends.setPrev _ _ _).heightAt ha⟩
  | next pc o l y =>
    have ha : sl.arena.Alive x := Arena.alive_setNext.1 hx
    exact Or.inl ⟨ha, (Arena.Extends.setNext _ _ _ _).heightAt ha⟩

/-- Where a `put` stands that has a block. -/
theorem PutOk.mem_iff (hpc : PutOk cmp sl S c pc) (hwf : Wf cmp sl S) (hx : pc.node = some x) :
    x ∈ S i ↔ i < pc.level := by
  have hlinking {s : Splices} {l : ℕ} (h : Placing cmp sl S c s x l) : x ∈ S i ↔ i < l :=
    ⟨fun hm => not_le.1 fun hle => h.linking.fresh i hle hm, fun hlt => h.linking.below i hlt⟩
  cases pc with
  | search | alloc | allocCas => cases hx
  | init h s node =>
    cases hx
    exact ⟨fun hm => absurd (hwf.alive hm) hpc.2.2.1, nofun⟩
  | raise s node current =>
    cases hx
    exact ⟨fun hm => absurd hm (hpc.1.fresh i (Nat.zero_le _)), nofun⟩
  | splice => exact hpc.elim
  | linkNext s node l | storeNext s node l =>
    cases hx
    exact hlinking hpc.2
  | linkCas s node l | storeLink s node l | relink s node l before =>
    cases hx
    exact hlinking hpc.2.1
  | backNode s node =>
    cases hx
    exact hlinking hpc.2
  | backNext s node =>
    cases hx
    exact hlinking hpc.2.1

/-- Where the splice goes on. -/
theorem linkLevel_cases {sp : Splices} {node : ℕ} {r : Iter PutPc (Option (Bytes × Bytes))}
    (hrun : linkLevel sl c sp node i = .ok r) :
    c.height < i ∧ r = .done none ∨ i ≤ c.height ∧ ∃ pc, r = .next pc ∧ pc.node = some node := by
  by_cases hi : c.height < i
  · rw [linkLevel, if_pos hi] at hrun
    exact Or.inl ⟨hi, (Except.ok.inj hrun).symm⟩
  refine Or.inr ⟨not_lt.1 hi, ?_⟩
  simp only [linkLevel, if_neg hi] at hrun
  obtain ⟨before, -, hrun⟩ := except_bind_eq_ok.1 hrun
  split_ifs at hrun with hmode h0 h0 hi0 hi0
  · cases hrun
    exact ⟨_, rfl, rfl⟩
  · cases hrun
    exact ⟨_, rfl, rfl⟩
  · obtain ⟨n, -, hrun⟩ := except_bind_eq_ok.1 hrun
    obtain ⟨s', -, hrun⟩ := except_bind_eq_ok.1 hrun
    cases hrun
    exact ⟨_, rfl, rfl⟩
  · obtain ⟨n, -, hrun⟩ := except_bind_eq_ok.1 hrun
    obtain ⟨s', -, hrun⟩ := except_bind_eq_ok.1 hrun
    cases hrun
    exact ⟨_, rfl, rfl⟩
  · cases hrun
    exact ⟨_, rfl, rfl⟩
  · cases hrun
    exact ⟨_, rfl, rfl⟩

/-- At a level of the call the splice goes on. -/
theorem linkLevel_next {sp : Splices} {node : ℕ} {r : Iter PutPc (Option (Bytes × Bytes))}
    (hi : i ≤ c.height) (hrun : linkLevel sl c sp node i = .ok r) :
    ∃ pc, r = .next pc ∧ pc.node = some node :=
  ((linkLevel_cases hrun).resolve_left fun h => absurd h.1 (not_lt.2 hi)).2

/-- The last level: the predecessor is led to the node. -/
theorem Placing.over {sp : Splices} {p : ℕ} (h : Placing cmp sl S c sp x i) (hwf : Wf cmp sl S)
    (hwf' : Wf cmp { sl with arena := a } S') (hgrow : Grows sl S { sl with arena := a } S')
    (hheight : c.height < maxHeight) (hlast : c.height < i + 1) (hp : index sp.prev i = .ok p)
    (hstore : nodeSetNext sl.arena p i x = .ok a) : ∀ l ≤ c.height, x ∈ S' l := by
  intro l hl
  rcases Nat.lt_or_ge l i with hli | hil
  · exact hgrow.subset l (h.linking.below l hli)
  · obtain rfl : l = i := by omega
    obtain rfl := index_ok hp
    obtain rfl := nodeSetNext_ok hstore
    have hprev := (h.linking.splice l le_rfl hl).1
    have hlt := hl.trans_lt hheight
    have hmem := (hwf'.load hlt (hprev.imp_right fun hm => hgrow.subset l hm)).2
    simp only [Arena.nextAt_setNext_self (hwf.hasSlot hlt hprev).alive] at hmem
    exact (hmem h.linking.ne_zero).1

/-- **A `put` that has a block** goes on with it, or ends: then its node is linked at all levels of
the call, or not at all. -/
theorem PutStep.over {weak : Bool} {r : Iter PutPc (Option (Bytes × Bytes))} (hwf : Wf cmp sl S)
    (hheight : c.height < maxHeight) (hpc : PutOk cmp sl S c pc)
    (hstep : PutStep cmp sl S c pc sl' S' r) (hrun : putStep sl c weak pc = .ok (sl', r))
    (hx : pc.node = some x) : (∃ pc', r = .next pc' ∧ pc'.node = some x) ∨
      (∃ a, r = .done a) ∧ (x ∉ S' 0 ∨ ∀ l ≤ c.height, x ∈ S' l) := by
  cases pc with
  | search | alloc | allocCas => cases hx
  | init h s node =>
    cases hx
    obtain ⟨arena, -, hrun⟩ := except_bind_eq_ok.1 hrun
    split_ifs at hrun
    · cases hrun
      exact Or.inl ⟨_, rfl, rfl⟩
    · obtain ⟨r', hlevel, hrun⟩ := except_bind_eq_ok.1 hrun
      cases hrun
      exact Or.inl (linkLevel_next (Nat.zero_le _) hlevel)
  | raise s node current =>
    cases hx
    simp only [putStep] at hrun
    split_ifs at hrun
    · obtain ⟨r', hlevel, hrun⟩ := except_bind_eq_ok.1 hrun
      cases hrun
      exact Or.inl (linkLevel_next (Nat.zero_le _) hlevel)
    · cases hrun
      exact Or.inl ⟨_, rfl, rfl⟩
    · obtain ⟨r', hlevel, hrun⟩ := except_bind_eq_ok.1 hrun
      cases hrun
      exact Or.inl (linkLevel_next (Nat.zero_le _) hlevel)
    · obtain ⟨r', hlevel, hrun⟩ := except_bind_eq_ok.1 hrun
      cases hrun
      exact Or.inl (linkLevel_next (Nat.zero_le _) hlevel)
  | splice => exact hpc.elim
  | linkNext s node l =>
    obtain ⟨n, -, hrun⟩ := except_bind_eq_ok.1 hrun
    obtain ⟨arena, -, hrun⟩ := except_bind_eq_ok.1 hrun
    cases hrun
    exact Or.inl ⟨_, rfl, hx⟩
  | linkCas s node l =>
    cases hx
    obtain ⟨p, hp, hrun⟩ := except_bind_eq_ok.1 hrun
    obtain ⟨n, -, hrun⟩ := except_bind_eq_ok.1 hrun
    obtain ⟨⟨linked, arena⟩, hcas, hrun⟩ := except_bind_eq_ok.1 hrun
    obtain ⟨m, -, hcas⟩ := except_bind_eq_ok.1 hcas
    split_ifs at hcas
    · obtain ⟨arena', hset, hcas⟩ := except_bind_eq_ok.1 hcas
      cases hcas
      obtain ⟨r', hlevel, hrun⟩ := except_bind_eq_ok.1 hrun
      cases hrun
      rcases linkLevel_cases hlevel with ⟨hlast, hr'⟩ | ⟨-, hgo⟩
      · exact Or.inr ⟨⟨_, hr'⟩, Or.inr
          (hpc.2.1.over hwf hstep.wf hstep.effects.grows hheight hlast hp hset)⟩
      · exact Or.inl hgo
    · cases hcas
      cases hrun
      exact Or.inl ⟨_, rfl, rfl⟩
  | relink s node l before =>
    cases hx
    obtain ⟨next, -, hrun⟩ := except_bind_eq_ok.1 hrun
    cases next with
    | next before' =>
      cases hrun
      exact Or.inl ⟨_, rfl, rfl⟩
    | done pn =>
      dsimp only at hrun
      split_ifs at hrun with hpn hl
      · -- an equal key at level 0: the node stays unlinked
        have hdone : ∃ a, r = .done a := by
          obtain ⟨a, -, hrun⟩ := except_bind_eq_ok.1 hrun
          cases hrun
          exact ⟨a, rfl⟩
        refine Or.inr ⟨hdone, Or.inl fun hm => ?_⟩
        have hm' : x ∉ S 0 := fun hm => hl ((hpc.mem_iff hwf rfl).1 hm).ne'
        obtain ⟨s', hs' | hs'⟩ := hstep.linker x hm hm'
        · cases hs'
        · cases hs'
      · obtain ⟨s', -, hrun⟩ := except_bind_eq_ok.1 hrun
        obtain ⟨r', hlevel, hrun⟩ := except_bind_eq_ok.1 hrun
        cases hrun
        exact Or.inl (linkLevel_next hpc.2.1.level_le hlevel)
  | backNode s node =>
    cases hx
    obtain ⟨p, -, hrun⟩ := except_bind_eq_ok.1 hrun
    obtain ⟨arena, -, hrun⟩ := except_bind_eq_ok.1 hrun
    obtain ⟨n, -, hrun⟩ := except_bind_eq_ok.1 hrun
    cases hrun
    refine Or.inl ⟨_, rfl, ?_⟩
    split_ifs <;> rfl
  | backNext s node =>
    obtain ⟨n, -, hrun⟩ := except_bind_eq_ok.1 hrun
    obtain ⟨arena, -, hrun⟩ := except_bind_eq_ok.1 hrun
    cases hrun
    exact Or.inl ⟨_, rfl, hx⟩
  | storeNext s node l =>
    obtain ⟨n, -, hrun⟩ := except_bind_eq_ok.1 hrun
    obtain ⟨arena, -, hrun⟩ := except_bind_eq_ok.1 hrun
    cases hrun
    exact Or.inl ⟨_, rfl, hx⟩
  | storeLink s node l =>
    cases hx
    obtain ⟨p, hp, hrun⟩ := except_bind_eq_ok.1 hrun
    obtain ⟨arena, hset, hrun⟩ := except_bind_eq_ok.1 hrun
    obtain ⟨r', hlevel, hrun⟩ := except_bind_eq_ok.1 hrun
    cases hrun
    rcases linkLevel_cases hlevel with ⟨hlast, hr'⟩ | ⟨-, hgo⟩
    · exact Or.inr ⟨⟨_, hr'⟩, Or.inr
        (hpc.2.1.over hwf hstep.wf hstep.effects.grows hheight hlast hp hset)⟩
    · exact Or.inl hgo

/-! ### Runs -/

/-- What holds of the towers between two steps: a node that is being inserted has the height of the
call, and any other linked node is linked at all its levels. -/
structure Towers (s : State) (S : ℕ → Finset ℕ) : Prop where
  height : ∀ t c pc x, (s.threads t).pc = .put c pc → pc.node = some x → s.list.arena.Alive x →
    s.list.arena.heightAt x = c.height
  full : ∀ x ∈ S 0, (∀ t, (s.threads t).pc.node ≠ some x) →
    ∀ l ≤ s.list.arena.heightAt x, x ∈ S l

/-- A move that has no block, neither before nor after it. -/
theorem Towers.setThread {th : Thread} (h : Towers s S) (hold : (s.threads t).pc.node = none)
    (hnew : th.pc.node = none) : Towers (s.update s.list t th) S := by
  have hnode : ∀ t', ((s.update s.list t th).threads t').pc.node = (s.threads t').pc.node :=
    State.forall_update (P := fun t' th => th.pc.node = (s.threads t').pc.node) (hnew.trans
      hold.symm) fun _ _ => rfl
  refine ⟨fun t' c pc x hpc hx ha => ?_, fun x hx hown l hl => ?_⟩
  · by_cases ht : t' = t
    · subst ht
      rw [State.update_self] at hpc
      rw [hpc] at hnew
      exact absurd (hnew.symm.trans hx) nofun
    · rw [State.update_of_ne ht] at hpc
      exact h.height t' c pc x hpc hx ha
  · exact h.full x hx (fun t' => hnode t' ▸ hown t') l hl

/-- A step of a `put`. -/
theorem Towers.put {weak : Bool} {r : Iter PutPc (Option (Bytes × Bytes))} (ht : Towers s S)
    (h : Inv cmp mode writer s S) (hpc : (s.threads t).pc = .put c pc)
    (hput : PutStep cmp s.list S c pc sl S' r) (hrun : putStep s.list c weak pc = .ok (sl, r))
    (hst : Stores s.list c pc sl.arena (afterPut c r).block) :
    Towers (s.update sl t { s.threads t with pc := afterPut c r }) S' := by
  obtain ⟨hvalid, hok⟩ : c.Valid ∧ PutOk cmp s.list S c pc := by
    have hok := h.pc t
    rwa [hpc] at hok
  have hnode : (s.threads t).pc.node = pc.node := by rw [hpc]; rfl
  refine ⟨?_, fun x hx hown l hl => ?_⟩
  · refine State.forall_update (P := fun _ th => ∀ c' pc' x, th.pc = .put c' pc' →
      pc'.node = some x → sl.arena.Alive x → sl.arena.heightAt x = c'.height) ?_ ?_
    · intro c' pc' x hpc' hx ha
      cases r with
      | done r => cases hpc'
      | next pc'' =>
        cases hpc'
        rcases hst.heightAt hvalid.height ha with ⟨ha', heq⟩ | ⟨-, heq⟩
        · -- the block was its own before
          rcases hput.node pc' rfl x hx with hx' | hle
          · exact heq.trans (ht.height t c pc x hpc hx' ha')
          · exact absurd (h.wf.alive_lt x ha') (not_lt.2 hle)
        · exact heq
    · intro t' ht' c' pc' x hpc' hx ha
      rcases hst.heightAt hvalid.height ha with ⟨ha', heq⟩ | ⟨hx', -⟩
      · exact heq.trans (ht.height t' c' pc' x hpc' hx ha')
      · exact absurd (h.own t' t x (by rw [hpc']; exact hx) (hnode.trans hx')) ht'
  · have hself : (afterPut c r).node ≠ some x := by
      have hself := hown t
      rwa [State.update_self] at hself
    have hheight := hst.heightAt hvalid.height (hput.wf.alive hx)
    by_cases hx' : pc.node = some x
    · rcases hput.over h.wf hvalid.height hok hrun hx' with
        ⟨pc', rfl, hpc'⟩ | ⟨-, hnone | hall⟩
      · exact absurd hpc' hself
      · exact absurd hx hnone
      · refine hall l (hl.trans_eq ?_)
        rcases hheight with ⟨ha, heq⟩ | ⟨-, heq⟩
        · exact heq.trans (ht.height t c pc x hpc hx' ha)
        · exact heq
    · obtain ⟨ha, heq⟩ := hheight.resolve_right fun hw => hx' hw.1
      have hmem := hput.effects.mem x 0 (h.wf.alive_lt x ha) hx' hx
      refine hput.effects.grows.subset l (ht.full x hmem (fun t' hw => ?_) l (heq ▸ hl))
      by_cases ht' : t' = t
      · subst ht'
        exact hx' (hnode.symm.trans hw)
      · have hother := hown t'
        rw [State.update_of_ne ht'] at hother
        exact hother hw

/-- **One move.** -/
theorem Move.towers {l : Label} (hm : Move cmp s S l s' S') (h : Inv cmp mode writer s S)
    (hsafe : Safe s bs) (hstep : step s l = some s') (ht : Towers s S) : Towers s' S' := by
  cases hm with
  | invoke t c hpc =>
    refine ht.setThread (by rw [hpc]; rfl) ?_
    cases c with
    | put c => rfl
    | read q =>
      simp only [Call.start]
      split_ifs <;> rfl
  | search t weak c hpc => exact ht.setThread (by rw [hpc]; rfl) rfl
  | descend t weak q hpc => exact ht.setThread (by rw [hpc]; rfl) rfl
  | read t weak q p p' hpc => exact ht.setThread (by rw [hpc]; rfl) rfl
  | answer t weak q p it r hpc => exact ht.setThread (by rw [hpc]; rfl) rfl
  | panic t weak c height sp hpc => exact ht.setThread (by rw [hpc]; rfl) rfl
  | ret t r hpc => exact ht.setThread (by rw [hpc]; rfl) rfl
  | put t weak c pc sl S' r hpc hput =>
    have hrun := step_put hpc hstep
    have hok := hsafe.pc t
    have hres := hsafe.reserved t
    rw [hpc] at hok hres
    rcases putStep_safe hsafe.leveled hok.1
      (hsafe.laid.ptr_le_capacity hsafe.leveled.head_slot.alive) (fun b hb => (hres b hb).2) hok.2
      weak with ⟨e, herr, -⟩ | ⟨sl', r', hrun', hsafestep⟩
    · rw [hrun] at herr
      cases herr
    · rw [hrun] at hrun'
      cases hrun'
      exact ht.put h hpc hput hrun hsafestep.stores

/-- **In every state of every run.** -/
theorem exec_towers {capacity : ℕ} {ls : List Label} (hcap : capacity ≤ 2 ^ 32)
    (hnew : SkipList.withCapacity cmp capacity mode = .ok sl)
    (hls : ∀ l ∈ ls, l.Allowed mode writer) (hexec : exec step (State.init sl) ls = some s) :
    ∃ S, Inv cmp mode writer s S ∧ Towers s S := by
  have hinit : Inv cmp mode writer (State.init sl) fun _ => ∅ := inv_init hcap hnew
  have hcapacity : sl.arena.capacity = capacity := (wf_withCapacity hnew).2.2.1
  have hrun : ∃ S bs, Inv cmp mode writer s S ∧ Safe s bs ∧
      sl.arena.Extends s.list.arena ∧ Towers s S := by
    refine exec_induction (I := fun _ s => ∃ S bs, Inv cmp mode writer s S ∧ Safe s bs ∧
      sl.arena.Extends s.list.arena ∧ Towers s S) (P := fun l => l.Allowed mode writer)
      ⟨_, _, hinit, safe_init hnew, .refl _, nofun, fun x hx => absurd hx (Finset.notMem_empty x)⟩
      ?_ hls hexec
    rintro ls s₁ l s₂ hl - ⟨S₁, bs₁, h₁, hsafe₁, hext, ht₁⟩ hstep
    have hfits : l.Fits s₁.list.arena.capacity :=
      hl.fits (by rw [hext.capacity, hcapacity]; exact hcap)
    obtain ⟨S₂, hm⟩ := step_move h₁ hstep
    obtain ⟨bs₂, hsafe₂, hext'⟩ := (step_safeMove hsafe₁ hfits hstep).safe hsafe₁
    exact ⟨S₂, bs₂, hm.inv h₁ hl, hsafe₂, hext.trans hext', hm.towers h₁ hsafe₁ hstep ht₁⟩
  obtain ⟨S, -, h, -, -, ht⟩ := hrun
  exact ⟨S, h, ht⟩

/-- **Towers are linked from the bottom up.**  In every state of every run, a node is on the chain
of a level if and only if it is on that of level 0, the level is one of its tower, and a `put` that
is still inserting it has come past the level. -/
theorem towers_linked {capacity : ℕ} {ls : List Label} (hcap : capacity ≤ 2 ^ 32)
    (hnew : SkipList.withCapacity cmp capacity mode = .ok sl)
    (hls : ∀ l ∈ ls, l.Allowed mode writer) (hexec : exec step (State.init sl) ls = some s)
    {l : ℕ} (hl : l < maxHeight) (x : ℕ) :
    x ∈ s.list.chain l ↔ x ∈ s.list.chain 0 ∧ l ≤ s.list.arena.heightAt x ∧
      ∀ t i, (s.threads t).LinksAt x i → l < i := by
  obtain ⟨S, h, ht⟩ := exec_towers hcap hnew hls hexec
  rw [h.wf.mem_chain hl, h.wf.mem_chain_zero]
  constructor
  · intro hx
    refine ⟨h.wf.subset_zero l hx, (Arena.hasSlot_iff (h.wf.alive hx)).1 (h.wf.slot l x hx), ?_⟩
    rintro t i ⟨c, pc, hpc, hnode, rfl⟩
    have hok := h.pc t
    rw [hpc] at hok
    exact (hok.2.mem_iff h.wf hnode).1 hx
  · rintro ⟨hx, hle, hown⟩
    by_cases hex : ∃ t, (s.threads t).pc.node = some x
    · obtain ⟨t, hnode⟩ := hex
      have hok := h.pc t
      cases hpc : (s.threads t).pc with
      | put c pc =>
        rw [hpc] at hok hnode
        exact (hok.2.mem_iff h.wf hnode).2 (hown t _ ⟨c, pc, hpc, hnode, rfl⟩)
      | idle | loadHeight | read | done | faulted =>
        rw [hpc] at hnode
        cases hnode
    · exact ht.full x hx (not_exists.1 hex) l hle

/-- A `put` of height 2 that has linked its node at level 0 only. -/
theorem towers_linked_half :
    ∃ sl s, SkipList.withCapacity bytewiseComparator 600 true = .ok sl ∧
      exec step (State.init sl) (.invoke 0 (.put ⟨[5], [1], 2⟩) :: steps 0 8) = some s ∧
      s.list.chain 0 = [192] ∧ s.list.chain 1 = [] ∧
      ∀ x, x ∈ s.list.chain 1 ↔ x ∈ s.list.chain 0 ∧ 1 ≤ s.list.arena.heightAt x ∧
        ∀ t i, (s.threads t).LinksAt x i → 1 < i := by
  obtain ⟨sl, hsl, s, hs, hend⟩ :
      ∃ sl, SkipList.withCapacity bytewiseComparator 600 true = .ok sl ∧
        ∃ s, exec step (State.init sl) (.invoke 0 (.put ⟨[5], [1], 2⟩) :: steps 0 8) = some s ∧
          (s.list.chain 0 == [192] && s.list.chain 1 == []) = true :=
    exists_exec_and (by decide +kernel)
  rw [Bool.and_eq_true, beq_iff_eq, beq_iff_eq] at hend
  have hls : ∀ l ∈ .invoke 0 (.put ⟨[5], [1], 2⟩) :: steps 0 8, l.Allowed true 0 := by decide
  exact ⟨sl, s, hsl, hs, hend.1, hend.2, towers_linked (by decide) hsl hls hs (by decide)⟩

/-- **No tower stays half linked**: while no `put` has a block, each level is the part of level 0
with high enough towers. -/
theorem towers_complete {capacity : ℕ} {ls : List Label} (hcap : capacity ≤ 2 ^ 32)
    (hnew : SkipList.withCapacity cmp capacity mode = .ok sl)
    (hls : ∀ l ∈ ls, l.Allowed mode writer) (hexec : exec step (State.init sl) ls = some s)
    (hquiet : ∀ t, (s.threads t).pc.node = none) {l : ℕ} (hl : l < maxHeight) :
    s.list.chain l = (s.list.chain 0).filter fun x => l ≤ s.list.arena.heightAt x := by
  obtain ⟨S, h, -⟩ := exec_towers hcap hnew hls hexec
  have hsorted := h.wf.pos_sorted_chain hl
  have hsorted' := (h.wf.pos_sorted_chain (l := 0) (by decide)).filter
    fun x => decide (l ≤ s.list.arena.heightAt x)
  have hmem (x : ℕ) : x ∈ s.list.chain l ↔
      x ∈ (s.list.chain 0).filter fun x => decide (l ≤ s.list.arena.heightAt x) := by
    rw [towers_linked hcap hnew hls hexec hl, List.mem_filter, decide_eq_true_eq]
    refine and_congr_right fun _ => and_iff_left ?_
    rintro t i ⟨c, pc, hpc, hnode, -⟩
    have hnone := hquiet t
    rw [hpc] at hnone
    exact absurd (hnone.symm.trans hnode) nofun
  exact (sublist_of_sorted hsorted hsorted' fun x hx => (hmem x).1 hx).antisymm
    (sublist_of_sorted hsorted' hsorted fun x hx => (hmem x).2 hx)

end Concurrent

/-- The levels of a list that calls of `put` build one after the other. -/
theorem SkipList.Reachable.towers {cmp : KeyComparator} [Std.TransCmp cmp.compareKey]
    {capacity : ℕ} {mode : Bool} {sl : SkipList} (hcap : capacity ≤ 2 ^ 32)
    (h : sl.Reachable cmp capacity mode PutCall.Valid) {l : ℕ} (hl : l < maxHeight) :
    sl.chain l = (sl.chain 0).filter fun x => l ≤ sl.arena.heightAt x := by
  obtain ⟨new, ls, s, hnew, hls, hexec, rfl, hidle⟩ := Concurrent.reachable_exec 0 hcap h
  exact Concurrent.towers_complete hcap hnew hls hexec (fun t => by rw [hidle t]; rfl) hl

end StoneDb
