import StoneDb.Concurrent.Towers
import StoneDb.Concurrent.Stages
import StoneDb.SkipList.MemSize

/-!
# Memory under concurrent inserts

`mem_size` in every state of every run (`memSize_bounds`): at least the null offset, the head and
the nodes on the level-0 chain, and at most these two and one node for each call of `put` so far.
What lies between are blocks that a call has reserved and not linked yet, and those of calls that
have lost their key to another one.  So a list in which the nodes of all calls fit never panics,
whatever the interleaving (`never_full`), and that is so for one that `arena_cap` has sized.

Every call brings the bytes of its node with it (`Pc.pending`), and reserves them at most once.
-/

namespace StoneDb

/-! ### Nodes and blocks -/

theorem Node.space_le_bytes (n : Node) : n.space ≤ n.bytes := by
  have hkv : n.key.length + n.value.length ≤ n.kv.length := by
    rw [Node.key, Node.value, List.length_take, List.length_take, List.length_drop]
    omega
  refine Nat.mul_le_mul_right 8 (Nat.div_le_div_right ?_)
  simp only [kvDataOff, towerOff, slotSize]
  omega

namespace Arena

variable {a a' : Arena} {bs : List (ℕ × ℕ)} {T : Finset ℕ} {o : ℕ}

theorem Extends.spaceAt (h : a.Extends a') (ho : a.Alive o) : a'.spaceAt o = a.spaceAt o := by
  obtain ⟨n, hn⟩ := ho
  obtain ⟨prev, tower, hn'⟩ := h.node o n hn
  rw [Arena.spaceAt, Arena.spaceAt, hn, hn']
  rfl

/-- All nodes have been reserved. -/
theorem Laid.sum_spaceAt (h : a.Laid bs) (hT : ∀ o ∈ T, a.Alive o) :
    8 + ∑ o ∈ T, a.spaceAt o ≤ a.ptr.getD 8 := by
  have hsize : ∀ o ∈ T, a.spaceAt o ≤ ((a.node o).map Node.bytes).getD 0 := by
    intro o ho
    obtain ⟨n, hn⟩ := hT o ho
    simpa [Arena.spaceAt, hn] using n.space_le_bytes
  have hblocks : ∀ o ∈ T, (o, ((a.node o).map Node.bytes).getD 0) ∈ bs := by
    intro o ho
    obtain ⟨n, hn⟩ := hT o ho
    simpa [hn] using (h.node o n hn).1
  have hsum := Finset.sum_le_sum hsize
  have htiles := h.tiles.add_sum_le hblocks
  omega

end Arena

namespace Concurrent

open SkipList

/-- The bytes that a thread has still to reserve. -/
def Pc.pending : Pc → ℕ
  | .loadHeight (.put c) => nodeBytes c.key c.value c.height
  | .put c pc => if pc.node = none then nodeBytes c.key c.value c.height else 0
  | _ => 0

variable {cmp : KeyComparator} [Std.TransCmp cmp.compareKey] {mode : Bool} {writer capacity : ℕ}
  {s s' : State} {sl sl' : SkipList} {S S' : ℕ → Finset ℕ} {bs : List (ℕ × ℕ)} {c : PutCall}
  {pc : PutPc} {ls : List Label} {l : Label} {t : ℕ}

/-! ### Reserving -/

theorem pending_of_block {pc : Pc} {b : ℕ × ℕ} (h : pc.block = some b) : pc.pending = 0 := by
  cases pc with
  | put c pc =>
    cases pc with
    | init => rfl
    | _ => cases h
  | _ => cases h

theorem pending_afterPut_le (r : Iter PutPc (Option (Bytes × Bytes))) :
    (afterPut c r).pending ≤ nodeBytes c.key c.value c.height := by
  cases r with
  | done => exact Nat.zero_le _
  | next pc =>
    simp only [afterPut, Pc.pending]
    split_ifs
    · exact le_rfl
    · exact Nat.zero_le _

/-- **A step of `put`** reserves no more than the call has brought with it. -/
theorem PutStep.pending {weak : Bool} {r : Iter PutPc (Option (Bytes × Bytes))} (hwf : Wf cmp sl S)
    (hheight : c.height < maxHeight) (hpc : PutOk cmp sl S c pc)
    (hstep : PutStep cmp sl S c pc sl' S' r) (hrun : putStep sl c weak pc = .ok (sl', r))
    (hsafe : PutSafe sl.arena c pc) (hst : Stores sl c pc sl'.arena (afterPut c r).block) :
    (afterPut c r).pending + sl'.arena.len ≤ (Pc.put c pc).pending + sl.arena.len := by
  cases hnode : pc.node with
  | some x =>
    -- the call has its block
    have hlen : sl'.arena.len = sl.arena.len := by
      generalize sl'.arena = a at hst
      generalize (afterPut c r).block = block at hst
      cases hst with
      | none | init => rfl
      | reserve => cases hnode
      | prev => rw [Arena.len, Arena.setPrev_ptr, Arena.len]
      | next => rw [Arena.len, Arena.setNext_ptr, Arena.len]
    have hpending : (afterPut c r).pending = 0 := by
      rcases hstep.over hwf hheight hpc hrun hnode with ⟨pc', rfl, hpc'⟩ | ⟨⟨a, rfl⟩, -⟩
      · simp [afterPut, Pc.pending, hpc']
      · rfl
    rw [hlen, hpending, Nat.zero_add]
    exact Nat.le_add_left _ _
  | none =>
    have hbrought : (Pc.put c pc).pending = nodeBytes c.key c.value c.height := if_pos hnode
    have hle : (afterPut c r).pending ≤ nodeBytes c.key c.value c.height := pending_afterPut_le r
    rw [hbrought]
    generalize hblock : (afterPut c r).block = block at hst
    generalize sl'.arena = a at hst
    cases hst with
    | none => exact Nat.add_le_add_right hle _
    | init => cases hnode
    | prev => simpa [Arena.len] using hle
    | next => simpa [Arena.len] using hle
    | reserve h sp offset new =>
      obtain ⟨-, rfl, rfl, -⟩ := hsafe
      rw [pending_of_block hblock, hwf.ptr_eq]
      simp only [Arena.len, Arena.setPtr, Option.getD_some, Nat.zero_add]
      omega

/-- **One move.** -/
theorem Move.pending (hm : Move cmp s S l s' S') (h : Inv cmp mode writer s S) (hsafe : Safe s bs)
    (hstep : step s l = some s') :
    (s'.threads l.thread).pc.pending + s'.list.arena.len ≤
      (s.threads l.thread).pc.pending +
        granted (fun c => nodeBytes c.key c.value c.height) l + s.list.arena.len := by
  cases hm with
  | invoke t c hpc =>
    simp only [Label.thread, State.setPc, State.update_self, State.update_list]
    refine Nat.add_le_add_right (le_trans ?_ (Nat.le_add_left _ _)) _
    cases c with
    | put c => exact le_rfl
    | read q =>
      simp only [Call.start]
      split_ifs <;> exact Nat.zero_le _
  | search t weak c hpc =>
    simp only [Label.thread, State.setPc, State.update_self, State.update_list, hpc]
    exact Nat.add_le_add_right (Nat.le_add_right _ _) _
  | descend t weak q hpc | read t weak q p p' hpc | answer t weak q p it r hpc
  | panic t weak c height sp hpc | ret t r hpc =>
    simp only [Label.thread, State.setPc, State.update_self, State.update_list]
    exact Nat.add_le_add_right (Nat.zero_le _) _
  | put t weak c pc sl S' r hpc hput =>
    have hrun := step_put hpc hstep
    obtain ⟨hvalid, hok⟩ : c.Valid ∧ PutOk cmp s.list S c pc := by
      have hok := h.pc t
      rwa [hpc] at hok
    obtain ⟨hfits, hput'⟩ : c.Fits s.list.arena.capacity ∧ PutSafe s.list.arena c pc := by
      have hok := hsafe.pc t
      rwa [hpc] at hok
    have hres := hsafe.reserved t
    rw [hpc] at hres
    rcases putStep_safe hsafe.leveled hfits
      (hsafe.laid.ptr_le_capacity hsafe.leveled.head_slot.alive) (fun b hb => (hres b hb).2) hput'
      weak with ⟨e, herr, -⟩ | ⟨sl', r', hrun', hsafestep⟩
    · rw [hrun] at herr
      cases herr
    · rw [hrun] at hrun'
      cases hrun'
      simp only [Label.thread, State.update_self, State.update_list, hpc]
      exact (hput.pending h.wf hvalid.height hok hrun hput' hsafestep.stores).trans
        (Nat.add_le_add_right (Nat.le_add_right _ _) _)

/-! ### Runs -/

theorem putCalls_concat (ls : List Label) (l : Label) :
    callBytes (putCalls ls) ≤ callBytes (putCalls (ls ++ [l])) := by
  rw [putCalls, putCalls, List.filterMap_append, callBytes, callBytes, List.map_append,
    List.sum_append]
  exact Nat.le_add_right _ _

omit [Std.TransCmp cmp.compareKey] in
theorem spaceAt_head (hnew : SkipList.withCapacity cmp capacity mode = .ok sl) :
    sl.arena.Alive sl.head ∧ sl.arena.spaceAt sl.head = 184 := by
  obtain ⟨rfl, -⟩ := withCapacity_eq_ok hnew
  exact ⟨⟨_, rfl⟩, rfl⟩

/-- In every state of every run the list and the arena are in order. -/
theorem exec_laid (hcap : capacity ≤ 2 ^ 32)
    (hnew : SkipList.withCapacity cmp capacity mode = .ok sl)
    (hls : ∀ l ∈ ls, l.Allowed mode writer) (hexec : exec step (State.init sl) ls = some s) :
    ∃ S bs, Inv cmp mode writer s S ∧ Safe s bs ∧ Grows sl (fun _ => ∅) s.list S ∧
      sl.arena.Extends s.list.arena := by
  have hcapacity : sl.arena.capacity = capacity := (wf_withCapacity hnew).2.2.1
  obtain ⟨S, h, hgrows⟩ := exec_inv (inv_init hcap hnew) hls hexec
  obtain ⟨bs, hsafe, hext⟩ := exec_safe (safe_init hnew)
    (fun l hl => (hls l hl).fits (hcapacity.trans_le hcap)) hexec
  exact ⟨S, bs, h, hsafe, hgrows, hext⟩

/-- The bytes that have been reserved, and those that calls under way have still to reserve. -/
theorem exec_pending (hcap : capacity ≤ 2 ^ 32)
    (hnew : SkipList.withCapacity cmp capacity mode = .ok sl)
    (hls : ∀ l ∈ ls, l.Allowed mode writer) (hexec : exec step (State.init sl) ls = some s)
    {U : Finset ℕ} (hU : ∀ l ∈ ls, l.thread ∈ U) :
    s.list.memSize + ∑ t ∈ U, (s.threads t).pc.pending ≤ 192 + callBytes (putCalls ls) := by
  have hmove : ∀ {done s₁ l s₂}, Takes step (State.init sl) ls done s₁ l s₂ →
      ∃ S₁ S₂ bs, Inv cmp mode writer s₁ S₁ ∧ Safe s₁ bs ∧ Move cmp s₁ S₁ l s₂ S₂ := by
    intro done s₁ l s₂ htakes
    have hdone : ∀ l' ∈ done, l'.Allowed mode writer := fun l' hl' =>
      hls l' (htakes.within.subset (List.mem_append_left _ hl'))
    obtain ⟨S₁, bs, h, hsafe, -, -⟩ := exec_laid hcap hnew hdone htakes.before
    obtain ⟨S₂, hm⟩ := step_move h htakes.step
    exact ⟨S₁, S₂, bs, h, hsafe, hm⟩
  have hlen : ∀ {done s₁ l s₂}, Takes step (State.init sl) ls done s₁ l s₂ →
      s₁.list.memSize ≤ s₂.list.memSize := by
    intro done s₁ l s₂ htakes
    obtain ⟨S₁, S₂, bs, -, -, hm⟩ := hmove htakes
    exact hm.grows.len
  have hsum := spent_add_sum_le Label.thread (fun _ s t => (State.threads s t).pc.pending)
    (growth step fun s => s.list.memSize)
    (fun _ l => granted (fun c => nodeBytes c.key c.value c.height) l)
    (fun htakes => by
      obtain ⟨S₁, S₂, bs, h, hsafe, hm⟩ := hmove htakes
      have hpending := hm.pending h hsafe htakes.step
      have hle := hlen htakes
      rw [growth_of_step htakes.step]
      simp only [SkipList.memSize] at hle ⊢
      omega)
    (fun htakes hne => by
      obtain ⟨S₁, S₂, bs, -, -, hm⟩ := hmove htakes
      simp only [hm.other hne, le_refl]) hexec hU
  have hstart : ∑ t ∈ U, ((State.init sl).threads t).pc.pending = 0 :=
    Finset.sum_eq_zero fun t _ => rfl
  have hgrowth := spent_growth (f := fun s : State => s.list.memSize) hlen hexec
  have hnull : (State.init sl).list.memSize = 192 := (wf_withCapacity hnew).2.2.2.1
  rw [hstart, zero_add, spent_eq_sum hexec, sum_granted] at hsum
  simp only [hnull] at hgrowth
  simp only [callBytes]
  omega

/-- **`mem_size` under concurrent inserts**, in every state of every run. -/
theorem memSize_bounds (hcap : capacity ≤ 2 ^ 32)
    (hnew : SkipList.withCapacity cmp capacity mode = .ok sl)
    (hls : ∀ l ∈ ls, l.Allowed mode writer) (hexec : exec step (State.init sl) ls = some s) :
    192 + ((s.list.chain 0).map s.list.arena.spaceAt).sum ≤ s.list.memSize ∧
      s.list.memSize ≤ 192 + callBytes (putCalls ls) := by
  obtain ⟨S, bs, h, hsafe, hgrows, hext⟩ := exec_laid hcap hnew hls hexec
  constructor
  · -- the head and the linked nodes have different blocks
    have hhead : s.list.head ∉ S 0 := fun hmem =>
      (List.nodup_cons.1 (h.wf.nodup_chain (by decide))).1 (h.wf.mem_chain_zero.2 hmem)
    have hspace : s.list.arena.spaceAt s.list.head = 184 := by
      rw [hgrows.head, hext.spaceAt (spaceAt_head hnew).1, (spaceAt_head hnew).2]
    have hsum := hsafe.laid.sum_spaceAt (T := insert s.list.head (S 0)) fun o ho => by
      rcases Finset.mem_insert.1 ho with rfl | ho
      · exact h.wf.head_slot.alive
      · exact h.wf.alive ho
    rw [Finset.sum_insert hhead, hspace, h.wf.ptr_eq, Option.getD_some] at hsum
    rw [← h.wf.sum_chain, SkipList.memSize]
    omega
  · have hall := exec_pending hcap hnew hls hexec (U := (ls.map Label.thread).toFinset)
      fun l hl => List.mem_toFinset.2 (List.mem_map_of_mem hl)
    omega

/-- A race of two writers for one key: the block of the one that has lost stays reserved. -/
theorem memSize_bounds_race :
    ∃ sl s, SkipList.withCapacity bytewiseComparator 280 true = .ok sl ∧
      exec step (State.init sl) race = some s ∧ s.list.memSize = 280 ∧
      ((s.list.chain 0).map s.list.arena.spaceAt).sum = 40 ∧
      192 + ((s.list.chain 0).map s.list.arena.spaceAt).sum ≤ s.list.memSize ∧
      s.list.memSize ≤ 192 + callBytes (putCalls race) := by
  obtain ⟨sl, hsl, s, hs, hend⟩ :
      ∃ sl, SkipList.withCapacity bytewiseComparator 280 true = .ok sl ∧
        ∃ s, exec step (State.init sl) race = some s ∧ (s.list.memSize == 280 &&
          ((s.list.chain 0).map s.list.arena.spaceAt).sum == 40) = true :=
    exists_exec_and (by decide +kernel)
  rw [Bool.and_eq_true, beq_iff_eq, beq_iff_eq] at hend
  have hls : ∀ l ∈ race, l.Allowed true 0 := by decide
  exact ⟨sl, s, hsl, hs, hend.1, hend.2, memSize_bounds (by decide) hsl hls hs⟩

/-! ### Room for all calls -/

theorem alloc_ok {h : ℕ} {sp : Splices} (hfits : c.Fits sl.arena.capacity)
    (hroom : sl.arena.ptr.getD 8 + nodeBytes c.key c.value c.height ≤ sl.arena.capacity)
    (weak : Bool) : ∃ pc', putStep sl c weak (.alloc h sp) = .ok (sl, .next pc') := by
  have hwrap := hfits.no_wrap
  have hbytes := nodeBytes_le c.key c.value hfits.height
  have hsize := alignSize_nodeSize c.key c.value c.height (by omega)
  have hres : sl.arena.reserve sl.arena.ptr (nodeBytes c.key c.value c.height) = _ :=
    sl.arena.reserve_eq (by omega)
  rw [if_neg (not_lt.2 hroom)] at hres
  exact ⟨_, by simp only [putStep, hsize, hres, bind, Except.bind]; rfl⟩

theorem step_next {weak : Bool} {pc' : PutPc} (hpc : (s.threads t).pc = .put c pc)
    (hrun : putStep s.list c weak pc = .ok (sl, .next pc')) :
    step s (.step t weak) = some (s.update sl t { s.threads t with pc := .put c pc' }) := by
  simp only [step, Thread.advance, hpc, hrun, bind, Except.bind, pure, Except.pure]

/-- **No panic.**  A thread that is about to reserve its block has room for it. -/
theorem Move.faulted (hm : Move cmp s S l s' S') (h : Inv cmp mode writer s S)
    (hstep : step s l = some s')
    (hroom : ∀ t, s.list.memSize + (s.threads t).pc.pending ≤ s.list.arena.capacity)
    (hnone : ∀ t e, (s.threads t).pc ≠ .faulted e) (t : ℕ) (e : Fault) :
    (s'.threads t).pc ≠ .faulted e := by
  by_cases ht : t = l.thread
  swap
  · rw [hm.other ht]
    exact hnone t e
  subst ht
  cases hm with
  | invoke t c hpc =>
    simp only [Label.thread, State.setPc, State.update_self]
    cases c with
    | put c => exact Pc.noConfusion
    | read q =>
      simp only [Call.start]
      split_ifs <;> exact Pc.noConfusion
  | search t weak c hpc | descend t weak q hpc | read t weak q p p' hpc
  | answer t weak q p it r hpc | ret t r hpc =>
    simp only [Label.thread, State.setPc, State.update_self]
    exact Pc.noConfusion
  | put t weak c pc sl S' r hpc hput =>
    simp only [Label.thread, State.update_self]
    cases r <;> exact Pc.noConfusion
  | panic t weak c height sp hpc =>
    have hvalid : c.Valid := by
      have hok := h.pc t
      rw [hpc] at hok
      exact hok.1
    have hfits : c.Fits s.list.arena.capacity := by
      have hcap := h.capacity_le
      have hsize := hvalid.size
      simp only [isizeMax] at hsize
      exact ⟨hvalid.height, by omega⟩
    have hown : s.list.memSize + nodeBytes c.key c.value c.height ≤ s.list.arena.capacity := by
      have hown := hroom t
      rwa [hpc] at hown
    rw [SkipList.memSize] at hown
    obtain ⟨pc', hrun⟩ : ∃ pc', putStep s.list c weak (.alloc height sp) =
        .ok (s.list, .next pc') := alloc_ok hfits (by rw [h.wf.ptr_eq]; exact hown) weak
    have hsame := (step_next hpc hrun).symm.trans hstep
    have hpc' := congrArg (fun s : State => (s.threads t).pc) (Option.some.inj hsame)
    simp only [State.setPc, State.update_self, reduceCtorEq] at hpc'

/-- **A list in which the nodes of all calls fit never panics**, whatever the interleaving. -/
theorem never_full (hcap : capacity ≤ 2 ^ 32)
    (hnew : SkipList.withCapacity cmp capacity mode = .ok sl)
    (hls : ∀ l ∈ ls, l.Allowed mode writer) (hexec : exec step (State.init sl) ls = some s)
    (hroom : 192 + callBytes (putCalls ls) ≤ capacity) (t : ℕ) (e : Fault) :
    (s.threads t).pc ≠ .faulted e := by
  have hcapacity : sl.arena.capacity = capacity := (wf_withCapacity hnew).2.2.1
  refine exec_induction (I := fun ls s => (∀ l ∈ ls, l.Allowed mode writer) ∧
    exec step (State.init sl) ls = some s ∧ (192 + callBytes (putCalls ls) ≤ capacity →
      ∀ t e, (s.threads t).pc ≠ .faulted e)) (P := fun l => l.Allowed mode writer)
    ⟨by simp, rfl, fun _ _ _ => Pc.noConfusion⟩ ?_ hls hexec |>.2.2 hroom t e
  rintro ls₁ s₁ l s₂ hl - ⟨hls₁, hs₁, hnone⟩ hstep
  refine ⟨?_, exec_concat_eq_some.2 ⟨s₁, hs₁, hstep⟩, fun hroom₂ => ?_⟩
  · intro l' hl'
    rcases List.mem_append.1 hl' with hl' | hl'
    · exact hls₁ l' hl'
    · exact List.mem_singleton.1 hl' ▸ hl
  have hroom₁ := (Nat.add_le_add_left (putCalls_concat ls₁ l) 192).trans hroom₂
  obtain ⟨S₁, bs, h₁, -, -, hext⟩ := exec_laid hcap hnew hls₁ hs₁
  obtain ⟨S₂, hm⟩ := step_move h₁ hstep
  refine hm.faulted h₁ hstep (fun t => ?_) (hnone hroom₁)
  have hall := exec_pending hcap hnew hls₁ hs₁ (U := insert t (ls₁.map Label.thread).toFinset)
    fun l hl => Finset.mem_insert_of_mem (List.mem_toFinset.2 (List.mem_map_of_mem hl))
  have hown := Finset.single_le_sum (f := fun t => (s₁.threads t).pc.pending)
    (fun _ _ => Nat.zero_le _) (Finset.mem_insert_self t (ls₁.map Label.thread).toFinset)
  rw [hext.capacity, hcapacity]
  omega

theorem callBytes_le {k v : ℕ} {cs : List PutCall} (hcs : ∀ c ∈ cs, c.Within k v) :
    callBytes cs ≤ cs.length * (k + v + 191) := by
  induction cs with
  | nil => exact Nat.zero_le _
  | cons c cs ih =>
    obtain ⟨⟨hk, hv, hh⟩, hcs⟩ := List.forall_mem_cons.1 hcs
    have hbytes := nodeBytes_le c.key c.value hh
    have htail := ih hcs
    rw [callBytes, List.map_cons, List.sum_cons, List.length_cons, Nat.succ_mul]
    rw [callBytes] at htail
    omega

/-- **The sizing rule is sufficient for concurrent writers**: `arena_cap` leaves room for its calls,
in whatever order the threads make them. -/
theorem arena_cap_concurrent {n k v : ℕ} (hcap : arenaCap n k v ≤ 2 ^ 32)
    (hnew : SkipList.withCapacity cmp (arenaCap n k v) mode = .ok sl)
    (hls : ∀ l ∈ ls, l.Allowed mode writer) (hn : (putCalls ls).length ≤ n)
    (hwithin : ∀ c ∈ putCalls ls, c.Within k v)
    (hexec : exec step (State.init sl) ls = some s) (t : ℕ) (e : Fault) :
    (s.threads t).pc ≠ .faulted e := by
  refine never_full hcap hnew hls hexec ?_ t e
  have hbytes := callBytes_le hwithin
  have hmul : (putCalls ls).length * (k + v + 191) ≤ n * (k + v + 256) :=
    Nat.mul_le_mul hn (by omega)
  simp only [arenaCap]
  omega

/-- Both writers of the race, in a list for two entries of one byte each. -/
theorem arena_cap_concurrent_race :
    ∃ sl s, SkipList.withCapacity bytewiseComparator (arenaCap 2 1 1) true = .ok sl ∧
      exec step (State.init sl) race = some s ∧ ∀ t e, (s.threads t).pc ≠ .faulted e := by
  obtain ⟨sl, hsl, s, hs⟩ :
      ∃ sl, SkipList.withCapacity bytewiseComparator (arenaCap 2 1 1) true = .ok sl ∧
        ∃ s, exec step (State.init sl) race = some s := exists_exec (by decide +kernel)
  have hls : ∀ l ∈ race, l.Allowed true 0 := by decide
  have hwithin : ∀ c ∈ putCalls race, c.Within 1 1 := by
    simp [putCalls, race, Label.putCall, PutCall.Within, maxHeight]
  exact ⟨sl, s, hsl, hs, arena_cap_concurrent (by decide) hsl hls (by decide) hwithin hs⟩

end Concurrent

end StoneDb
