import StoneDb.Concurrent.Bytes
import StoneDb.Concurrent.Linearize

/-!
# The machine on bytes refines the machine on nodes

`bytes_refine`: leaving out the single writes of `alloc_node` turns every run on bytes into one on
nodes, with the same calls and answers.  In every state the threads stand at the same places, and
the bytes represent the nodes.  So no reader sees a node that is partially written, and what is
proved of the runs on nodes, where a node is initialised in one step, holds of those on bytes:
every history is linearizable (`bytes_linearizable`).

A block that is half written belongs to one thread, and none of its bytes are bytes of a node.  The
invariant looks ahead: the writes to come will leave the node there (`Pending`).
-/

namespace StoneDb

namespace Concurrent

open SkipList InitWrite

/-! ### The invariant -/

/-- The writes `ws` are those that a thread at `pc` has yet to make, on the bytes `mem`. -/
def Pending (mem : ByteMemory) (ws : List InitWrite) : Pc → Prop
  | .put c (.init _ _ node) =>
    (∀ w ∈ ws, w.Within node (kvDataOff c.height + (c.key ++ c.value).length)) ∧
      Stored (applyAll mem ws) node (Node.init c.key c.value c.height)
  | _ => ws = []

/-- **The state on bytes**, beside the one on nodes, with the blocks `bs` that have been handed
out. -/
structure Shows (s : State) (bs : List (ℕ × ℕ)) (x : ByteState) : Prop where
  safe : Safe s bs
  list : x.list = s.list.onBytes x.list.arena
  threads : x.threads = s.threads
  encodes : x.list.arena.Encodes s.list.arena bs
  todo : ∀ t, Pending x.list.arena.mem (x.todo t) (s.threads t).pc

variable {s s' : State} {bs bs' : List (ℕ × ℕ)} {x x' : ByteState} {l : Label} {t : ℕ}
  {th : Thread} {sl : SkipList} {b b' : ByteArena} {mem mem' : ByteMemory} {w : InitWrite}
  {ws : List InitWrite} {pc : Pc} {a : Arena}

theorem Pending.eq_nil (h : Pending mem ws pc) (hblock : pc.block = none) : ws = [] := by
  cases pc with
  | put c pc =>
    cases pc with
    | init => cases hblock
    | _ => exact h
  | _ => exact h

theorem block_init {c : PutCall} {height node : ℕ} {sp : Splices} :
    (Pc.put c (.init height sp node)).block = some (node, nodeBytes c.key c.value c.height) := rfl

/-- The bytes of a node are bytes of its block. -/
theorem size_le_nodeBytes (c : PutCall) :
    kvDataOff c.height + (c.key ++ c.value).length ≤ nodeBytes c.key c.value c.height := by
  rw [nodeBytes, List.length_append]
  omega

/-- What happens outside the block does not matter. -/
theorem Pending.congr (h : Pending mem ws pc) (hh : PcSafe a pc)
    (heq : ∀ blk, pc.block = some blk → ∀ p ∈ span blk.1 blk.2, mem' p = mem p) :
    Pending mem' ws pc := by
  cases pc with
  | put c pc =>
    cases pc with
    | init height sp node =>
      obtain ⟨hws, hstored⟩ := h
      refine ⟨hws, hstored.congr fun p hp => applyAll_congr ?_⟩
      rw [Node.height_init c.key c.value hh.1.height] at hp
      exact heq _ rfl p (span_subset le_rfl (Nat.add_le_add_left (size_le_nodeBytes c) node) hp)
    | _ => exact h
  | _ => exact h

/-- A thread that comes to `alloc_node` has all its writes to make. -/
theorem pending_start (hpc : PcSafe a pc) (hblock : ∀ blk, pc.block = some blk → 8 ∣ blk.1) :
    Pending mem pc.writes pc := by
  cases pc with
  | put c pc =>
    cases pc with
    | init height sp node =>
      have hdvd : 8 ∣ node := hblock _ rfl
      exact ⟨fun w hw => initWrites_within hdvd hw, stored_initWrites mem hpc.1.height hdvd⟩
    | _ => rfl
  | _ => rfl

/-- The bytes of a block that is being initialised belong to no node. -/
theorem Safe.apart_block (h : Safe s bs) {blk : ℕ × ℕ} (hb : (s.threads t).pc.block = some blk)
    {p : ℕ} (hp : p ∈ span blk.1 blk.2) {o : ℕ} {n : Node} (hn : s.list.arena.node o = some n) :
    p ∉ span o n.bytes := by
  obtain ⟨hmem, hfresh⟩ := h.reserved t blk hb
  intro hp'
  have hne : o ≠ blk.1 := by
    rintro rfl
    exact hfresh ⟨n, hn⟩
  exact Set.disjoint_left.1 (h.laid.disjoint_block hn hmem hne) hp' hp

/-! ### Moves on both -/

/-- A move of the thread `t` whose stores are those to the nodes. -/
theorem Shows.update (h : Shows s bs x) (hsafe : Safe (s.update sl t th) bs')
    (hgrows : s.list.arena.Extends sl.arena)
    (htracks : x.list.arena.Tracks s.list.arena b sl.arena) :
    Shows (s.update sl t th) bs' (x.update (sl.onBytes b) t th) where
  safe := hsafe
  list := rfl
  threads := by rw [ByteState.update, h.threads, State.update]
  encodes := by
    refine ⟨htracks.ptr, htracks.capacity, ?_, hsafe.laid, htracks.stored⟩
    rw [State.update_list, hgrows.capacity]
    exact h.encodes.capacity_le
  todo t' := by
    by_cases ht : t' = t
    · subst ht
      have hpc := hsafe.pc t'
      have hdvd : ∀ blk, th.pc.block = some blk → 8 ∣ blk.1 := by
        intro blk hb
        obtain ⟨hmem, -⟩ := hsafe.reserved t' blk (by rwa [State.update_self])
        exact (hsafe.laid.tiles.dvd (dvd_refl 8) hsafe.laid.dvd).2 blk hmem
      rw [State.update_self] at hpc ⊢
      simp only [ByteState.update, Function.update_self]
      exact pending_start hpc hdvd
    · rw [State.update_of_ne ht]
      simp only [ByteState.update, Function.update_of_ne ht]
      refine (h.todo t').congr (h.safe.pc t') fun blk hb p hp => htracks.outside p ?_
      intro o n hn
      exact h.safe.apart_block hb hp hn

/-- A move of one thread that leaves the list alone. -/
theorem Shows.setThread (h : Shows s bs x) (hsafe : Safe (s.update s.list t th) bs') :
    Shows (s.update s.list t th) bs' (x.update x.list t th) := by
  have hshows := h.update hsafe (.refl _) h.encodes.tracks
  rwa [← h.list] at hshows

/-- **A write to a block that is being initialised** changes no node, and no other block. -/
theorem Shows.write (weak : Bool) (h : Shows s bs x) (htodo : x.todo t = w :: ws) :
    ∃ x', x.step (.step t weak) = some x' ∧ x'.todo t = ws ∧ Shows s bs x' := by
  have hpending := h.todo t
  cases hpc : (s.threads t).pc with
  | put c pc =>
    cases pc with
    | init height sp node =>
      rw [hpc, htodo] at hpending
      obtain ⟨hws, hstored⟩ := hpending
      obtain ⟨hw, hws⟩ := List.forall_mem_cons.1 hws
      have hblock : (s.threads t).pc.block = some (node, nodeBytes c.key c.value c.height) := by
        rw [hpc, block_init]
      obtain ⟨hmem, -⟩ := h.safe.reserved t _ hblock
      have hsize := size_le_nodeBytes c
      have hend : node + (kvDataOff c.height + (c.key ++ c.value).length) ≤
          x.list.arena.capacity := by
        have hend := h.safe.laid.tiles.end_le hmem
        have hptr := h.safe.laid.ptr_le_capacity h.safe.leveled.head_slot.alive
        rw [h.encodes.capacity]
        omega
      -- nothing changes outside the block
      have houtside : ∀ p ∉ span node (nodeBytes c.key c.value c.height),
          w.apply x.list.arena.mem p = x.list.arena.mem p := by
        intro p hp
        exact apply_of_notMem hw fun hp' => hp (span_subset le_rfl (by omega) hp')
      have hstep : x.step (.step t weak) = some
          { x with list := { x.list with
                               arena := { x.list.arena with mem := w.apply x.list.arena.mem } },
                   todo := Function.update x.todo t ws } := by
        simp only [ByteState.step, htodo, ByteArena.after, run_eq hw hend]
      refine ⟨_, hstep, Function.update_self .., h.safe, ?_, h.threads, ?_, ?_⟩
      · rw [h.list]
        rfl
      · refine ⟨h.encodes.ptr, h.encodes.capacity, h.encodes.capacity_le, h.safe.laid, ?_⟩
        intro o n hn
        refine (h.encodes.stored o n hn).congr fun p hp => houtside p fun hp' => ?_
        exact h.safe.apart_block hblock hp' hn
          (span_subset le_rfl (Nat.add_le_add_left n.size_le_bytes o) hp)
      · intro t'
        by_cases ht : t' = t
        · subst ht
          simp only [Function.update_self, hpc]
          exact ⟨hws, hstored⟩
        · simp only [Function.update_of_ne ht]
          refine (h.todo t').congr (h.safe.pc t') fun blk hb p hp => houtside p fun hp' => ?_
          -- the blocks of two threads are apart
          have hne : blk ≠ (node, nodeBytes c.key c.value c.height) := by
            intro heq
            exact ht (h.safe.own t' t _ _ hb hblock (congrArg Prod.fst heq))
          exact Set.disjoint_left.1
            (h.safe.laid.tiles.disjoint_of_ne (h.safe.reserved t' blk hb).1 hmem hne) hp hp'
    | _ =>
      rw [hpc, htodo] at hpending
      cases hpending
  | _ =>
    rw [hpc, htodo] at hpending
    cases hpending

/-- All writes have been made. -/
theorem Shows.stored (h : Shows s bs x) (htodo : x.todo t = []) {c : PutCall} {height node : ℕ}
    {sp : Splices} (hpc : (s.threads t).pc = .put c (.init height sp node)) :
    Stored x.list.arena.mem node (Node.init c.key c.value c.height) := by
  have hpending := h.todo t
  rw [hpc, htodo] at hpending
  exact hpending.2

/-- A step of a thread that has no write to make. -/
theorem Shows.advance {weak : Bool} (h : Shows s bs x) (htodo : x.todo t = [])
    (hstep : x.step (.step t weak) = some x') :
    ∃ s' bs', step s (.step t weak) = some s' ∧ s.list.arena.Extends s'.list.arena ∧
      Shows s' bs' x' := by
  have hkeeps : ∀ {s'}, step s (.step t weak) = some s' → ∃ bs', Safe s' bs' ∧
      s.list.arena.Extends s'.list.arena := fun hs =>
    (step_safeMove (l := .step t weak) h.safe trivial hs).safe h.safe
  simp only [ByteState.step, htodo, h.threads] at hstep
  rw [h.list] at hstep
  rcases follows_advance (w := weak) h.encodes (h.safe.pc t) fun _ _ _ _ => h.stored htodo with
    ⟨-, hbytes⟩ | ⟨y, z, hnodes, hbytes, hfollows⟩
  · rw [hbytes] at hstep
    cases hstep
  rw [hbytes] at hstep
  have hub : y ≠ .error .wildAccess := by
    rintro rfl
    have hs : step s (.step t weak) = some (s.update s.list t
        { s.threads t with pc := .faulted .wildAccess }) := by
      simp only [step, hnodes]
    obtain ⟨bs', hsafe, -⟩ := hkeeps hs
    have hpc := hsafe.pc t
    rw [State.update_self] at hpc
    exact hpc.1 rfl
  rcases hfollows.cases_of_ne hub with ⟨⟨sl', th'⟩, _, rfl, rfl, b', rfl, htracks⟩ | ⟨e, rfl, rfl⟩
  · have hs : step s (.step t weak) = some (s.update sl' t th') := by simp only [step, hnodes]
    obtain ⟨bs', hsafe, hgrows⟩ := hkeeps hs
    cases hstep
    exact ⟨_, bs', hs, hgrows, h.update hsafe hgrows htracks⟩
  · have hs : step s (.step t weak) = some (s.update s.list t
        { s.threads t with pc := .faulted e }) := by
      simp only [step, hnodes]
    obtain ⟨bs', hsafe, hgrows⟩ := hkeeps hs
    cases hstep
    refine ⟨_, bs', hs, hgrows, ?_⟩
    rw [ByteState.fault, h.threads]
    exact h.setThread hsafe

/-- **One move** on bytes: a write of `alloc_node`, or the move on nodes. -/
theorem Shows.step (h : Shows s bs x) (hl : l.Fits s.list.arena.capacity)
    (hstep : x.step l = some x') :
    ((∃ t weak, l = .step t weak) ∧ Shows s bs x') ∨ ∃ s' bs', step s l = some s' ∧
      s.list.arena.Extends s'.list.arena ∧ Shows s' bs' x' := by
  have hkeeps : ∀ {s'}, Concurrent.step s l = some s' → ∃ bs', Safe s' bs' ∧
      s.list.arena.Extends s'.list.arena := fun hs => (step_safeMove h.safe hl hs).safe h.safe
  cases l with
  | invoke t call =>
    refine Or.inr ?_
    simp only [ByteState.step, h.threads] at hstep
    cases hpc : (s.threads t).pc <;> simp only [hpc, Option.some.injEq, reduceCtorEq] at hstep
    have hs : Concurrent.step s (.invoke t call) = some (s.update s.list t
        { s.threads t with pc := call.start s.list (s.threads t).it }) := by
      simp only [Concurrent.step, hpc]
    obtain ⟨bs', hsafe, hgrows⟩ := hkeeps hs
    have hstart : call.start x.list.list (s.threads t).it = call.start s.list (s.threads t).it := by
      rw [h.list, start_onBytes]
    rw [hstart] at hstep
    subst hstep
    exact ⟨_, bs', hs, hgrows, h.setThread hsafe⟩
  | ret t r =>
    refine Or.inr ?_
    simp only [ByteState.step, h.threads] at hstep
    cases hpc : (s.threads t).pc <;>
      simp only [hpc, Option.ite_none_right_eq_some, Option.some.injEq, reduceCtorEq] at hstep
    obtain ⟨hr, rfl⟩ := hstep
    have hs : Concurrent.step s (.ret t r) = some (s.update s.list t
        { s.threads t with pc := .idle }) := by
      simp only [Concurrent.step, hpc, if_pos hr]
    obtain ⟨bs', hsafe, hgrows⟩ := hkeeps hs
    exact ⟨_, bs', hs, hgrows, h.setThread hsafe⟩
  | step t weak =>
    cases htodo : x.todo t with
    | nil => exact Or.inr (h.advance htodo hstep)
    | cons w ws =>
      obtain ⟨x₁, hx₁, -, hshows⟩ := h.write weak htodo
      cases hstep.symm.trans hx₁
      exact Or.inl ⟨⟨t, weak, rfl⟩, hshows⟩

/-! ### Runs -/

/-- A new list. -/
theorem shows_init {cmp : KeyComparator} {capacity : ℕ} {mode : Bool} {sl : ByteList}
    (hnew : ByteList.withCapacity cmp capacity mode mem = .ok sl) :
    ∃ sl', SkipList.withCapacity cmp capacity mode = .ok sl' ∧ sl'.arena.capacity = capacity ∧
      Shows (State.init sl') [(8, 184)] (.init sl) := by
  obtain ⟨b, hb, hnew⟩ := except_bind_eq_ok.1 hnew
  obtain ⟨a, ha, h⟩ := ByteArena.Encodes.withCapacity hb
  have hwrap : a.ptr.getD 8 + nodeBytes [] [] (maxHeight - 1) < 2 ^ 64 := by
    unfold Arena.withCapacity at ha
    split_ifs at ha
    cases ha
    exact show 8 + nodeBytes [] [] (maxHeight - 1) < 2 ^ 64 by decide
  rcases h.allocNode [] [] (by decide) hwrap with
    ⟨hfull, -⟩ | ⟨o, b', a', hbytes, hnodes, henc, -⟩
  · rw [hfull] at hnew
    cases hnew
  rw [hbytes] at hnew
  cases hnew
  have hnew' : SkipList.withCapacity cmp capacity mode = .ok ⟨0, o, a', cmp, mode⟩ := by
    simp only [SkipList.withCapacity, ha, bind, Except.bind, hnodes]
    rfl
  have hsafe := safe_init hnew'
  have hcap : a'.capacity = capacity := by
    obtain ⟨hsl, -⟩ := withCapacity_eq_ok hnew'
    exact congrArg (fun sl : SkipList => sl.arena.capacity) hsl
  exact ⟨_, hnew', hcap, hsafe, rfl, rfl, ⟨henc.ptr, henc.capacity, henc.capacity_le, hsafe.laid,
    henc.stored⟩, fun _ => rfl⟩

/-- The run `ls` on bytes from `x` is the run `ls'` on nodes from `s`, with writes of `alloc_node`
in between. -/
structure Realises (s : State) (x : ByteState) (ls' ls : List Label) (s' : State)
    (bs' : List (ℕ × ℕ)) (x' : ByteState) : Prop where
  nodes : exec step s ls' = some s'
  bytes : exec ByteState.step x ls = some x'
  extends_arena : s.list.arena.Extends s'.list.arena
  sublist : ls'.Sublist ls
  events : ls'.filterMap Label.event = ls.filterMap Label.event
  moves : ∀ l ∈ ls, l ∈ ls' ∨ ∃ t weak, l = .step t weak
  shows : Shows s' bs' x'

namespace Realises

variable {ls ls' : List Label} {s₁ s₂ : State} {bs₁ bs₂ : List (ℕ × ℕ)} {x₁ x₂ : ByteState}

theorem refl (h : Shows s bs x) : Realises s x [] [] s bs x :=
  ⟨rfl, rfl, .refl _, .refl _, rfl, nofun, h⟩

/-- A write on bytes. -/
theorem write {weak : Bool} (h : Realises s x ls' ls s₁ bs₁ x₁)
    (hx : x₁.step (.step t weak) = some x₂) (hshows : Shows s₁ bs₁ x₂) :
    Realises s x ls' (ls ++ [.step t weak]) s₁ bs₁ x₂ where
  nodes := h.nodes
  bytes := exec_concat_eq_some.2 ⟨x₁, h.bytes, hx⟩
  extends_arena := h.extends_arena
  sublist := h.sublist.trans (List.sublist_append_left _ _)
  events := by
    rw [h.events, List.filterMap_append, List.filterMap_cons_none rfl, List.filterMap_nil,
      List.append_nil]
  moves l hl := by
    rcases List.mem_append.1 hl with hl | hl
    · exact h.moves l hl
    · exact Or.inr ⟨t, weak, List.mem_singleton.1 hl⟩
  shows := hshows

/-- The same move on both. -/
theorem move (h : Realises s x ls' ls s₁ bs₁ x₁) (hs : Concurrent.step s₁ l = some s₂)
    (hx : x₁.step l = some x₂) (hext : s₁.list.arena.Extends s₂.list.arena)
    (hshows : Shows s₂ bs₂ x₂) : Realises s x (ls' ++ [l]) (ls ++ [l]) s₂ bs₂ x₂ where
  nodes := exec_concat_eq_some.2 ⟨s₁, h.nodes, hs⟩
  bytes := exec_concat_eq_some.2 ⟨x₁, h.bytes, hx⟩
  extends_arena := h.extends_arena.trans hext
  sublist := h.sublist.append (.refl _)
  events := by rw [List.filterMap_append, h.events, ← List.filterMap_append]
  moves l' hl' := by
    rcases List.mem_append.1 hl' with hl' | hl'
    · exact (h.moves l' hl').imp_left (List.mem_append_left _)
    · exact Or.inl (List.mem_append_right _ hl')
  shows := hshows

/-- A thread makes all its writes. -/
theorem flush (t : ℕ) (h : Realises s x ls' ls s₁ bs₁ x₁) :
    ∃ ls₂ x₂, Realises s x ls' ls₂ s₁ bs₁ x₂ ∧ x₂.todo t = [] := by
  induction hws : x₁.todo t generalizing ls x₁ with
  | nil => exact ⟨ls, x₁, h, hws⟩
  | cons w ws ih =>
    obtain ⟨x₂, hx₂, htodo, hshows⟩ := h.shows.write false hws
    exact ih (h.write hx₂ hshows) htodo

/-- The labels on bytes fit where those on nodes do. -/
theorem fits {capacity : ℕ} (h : Realises s x ls' ls s₁ bs₁ x₁)
    (hls : ∀ l ∈ ls', l.Fits capacity) : ∀ l ∈ ls, l.Fits capacity := by
  intro l hl
  rcases h.moves l hl with hl | ⟨t, weak, rfl⟩
  · exact hls l hl
  · trivial

end Realises

/-- **Runs on bytes** are runs on nodes. -/
theorem Shows.run {ls : List Label} (h : Shows s bs x)
    (hls : ∀ l ∈ ls, l.Fits s.list.arena.capacity) (hexec : exec ByteState.step x ls = some x') :
    ∃ ls' s' bs', Realises s x ls' ls s' bs' x' := by
  refine exec_induction (I := fun ls x' => ∃ ls' s' bs', Realises s x ls' ls s' bs' x')
    ⟨[], s, bs, .refl h⟩ ?_ hls hexec
  rintro ls x₁ l x₂ hl - ⟨ls', s₁, bs₁, hrun⟩ hstep
  rw [← hrun.extends_arena.capacity] at hl
  rcases hrun.shows.step hl hstep with ⟨⟨t, weak, rfl⟩, hshows⟩ | ⟨s₂, bs₂, hs, hext, hshows⟩
  · exact ⟨ls', s₁, bs₁, hrun.write hstep hshows⟩
  · exact ⟨ls' ++ [l], s₂, bs₂, hrun.move hs hstep hext hshows⟩

/-- A thread that can move on nodes, and has no write to make, can move on bytes. -/
theorem Shows.enabled (h : Shows s bs x) (htodo : x.todo l.thread = [])
    (hstep : Concurrent.step s l = some s') : ∃ x', x.step l = some x' := by
  cases l with
  | invoke t call =>
    obtain ⟨hpc, -⟩ := step_invoke hstep
    simp only [ByteState.step, h.threads, hpc]
    exact ⟨_, rfl⟩
  | ret t r =>
    obtain ⟨hpc, -⟩ := step_ret hstep
    simp only [ByteState.step, h.threads, hpc, if_true]
    exact ⟨_, rfl⟩
  | step t weak =>
    simp only [Label.thread] at htodo
    simp only [ByteState.step, htodo, h.threads]
    rw [h.list]
    rcases follows_advance (w := weak) h.encodes (h.safe.pc t) fun _ _ _ _ => h.stored htodo with
      ⟨hnodes, -⟩ | ⟨y, z, -, hbytes, -⟩
    · simp [Concurrent.step, hnodes] at hstep
    · rw [hbytes]
      cases z with
      | error e => exact ⟨_, rfl⟩
      | ok z => exact ⟨_, rfl⟩

/-- The move on nodes is made on bytes by a thread that has no write to make. -/
theorem Shows.follow (h : Shows s bs x) (hl : l.Fits s.list.arena.capacity)
    (htodo : x.todo l.thread = []) (hstep : Concurrent.step s l = some s') :
    ∃ x' bs', x.step l = some x' ∧ s.list.arena.Extends s'.list.arena ∧ Shows s' bs' x' := by
  obtain ⟨x', hx'⟩ := h.enabled htodo hstep
  have hmove : ∃ s₂ bs', Concurrent.step s l = some s₂ ∧ s.list.arena.Extends s₂.list.arena ∧
      Shows s₂ bs' x' := by
    cases l with
    | step t weak => exact h.advance htodo hx'
    | invoke | ret =>
      refine (h.step hl hx').resolve_left ?_
      rintro ⟨⟨t, weak, hsilent⟩, -⟩
      cases hsilent
  obtain ⟨s₂, bs', hs₂, hext, h'⟩ := hmove
  cases hstep.symm.trans hs₂
  exact ⟨x', bs', hx', hext, h'⟩

/-- **Runs on nodes** are runs on bytes, where each thread makes its writes before its next move. -/
theorem Shows.realise_run {ls' : List Label} (h : Shows s bs x)
    (hls : ∀ l ∈ ls', l.Fits s.list.arena.capacity) (hexec : exec Concurrent.step s ls' = some s') :
    ∃ ls x' bs', Realises s x ls' ls s' bs' x' := by
  refine exec_induction (I := fun ls' s' => ∃ ls x' bs', Realises s x ls' ls s' bs' x')
    ⟨[], x, bs, .refl h⟩ ?_ hls hexec
  rintro ls' s₁ l s₂ hl - ⟨ls, x₁, bs₁, hrun⟩ hstep
  obtain ⟨ls₂, x₂, hrun₂, htodo⟩ := hrun.flush l.thread
  rw [← hrun.extends_arena.capacity] at hl
  obtain ⟨x₃, bs₃, hx₃, hext, hshows⟩ := hrun₂.shows.follow hl htodo hstep
  exact ⟨ls₂ ++ [l], x₃, bs₃, hrun₂.move hstep hx₃ hext hshows⟩

section

variable {cmp : KeyComparator} {capacity : ℕ} {mode : Bool} {sl : ByteList}
  (hnew : ByteList.withCapacity cmp capacity mode mem = .ok sl)

include hnew

/-- **The two machines have the same histories**: what the threads call and what they are answered
on nodes, where a node is there at once, is what they call and are answered on bytes. -/
theorem same_histories (history : List (Event ℕ (ℕ × Call) Ret)) :
    ∃ sl', SkipList.withCapacity cmp capacity mode = .ok sl' ∧
      ((∃ ls x, (∀ l ∈ ls, l.Fits capacity) ∧ exec ByteState.step (.init sl) ls = some x ∧
          ls.filterMap Label.event = history) ↔
        ∃ ls s, (∀ l ∈ ls, l.Fits capacity) ∧ exec step (State.init sl') ls = some s ∧
          ls.filterMap Label.event = history) := by
  obtain ⟨sl', hnew', hcap, hshows⟩ := shows_init hnew
  refine ⟨sl', hnew', ?_, ?_⟩
  · rintro ⟨ls, x, hls, hexec, rfl⟩
    obtain ⟨ls', s, bs, hrun⟩ := hshows.run (by rwa [State.init, hcap]) hexec
    exact ⟨ls', s, fun l hl => hls l (hrun.sublist.subset hl), hrun.nodes, hrun.events⟩
  · rintro ⟨ls', s, hls, hexec, rfl⟩
    obtain ⟨ls, x, bs, hrun⟩ := hshows.realise_run (by rwa [State.init, hcap]) hexec
    exact ⟨ls, x, hrun.fits hls, hrun.bytes, hrun.events.symm⟩

end

/-- A run on bytes, as a decidable condition. -/
theorem exists_byteExec {cmp : KeyComparator} {capacity : ℕ} {mode : Bool} {ls : List Label}
    (h : (ByteList.withCapacity cmp capacity mode mem).toOption.any (fun sl =>
      (exec ByteState.step (.init sl) ls).isSome) = true) :
    ∃ sl, ByteList.withCapacity cmp capacity mode mem = .ok sl ∧
      ∃ x, exec ByteState.step (.init sl) ls = some x := by
  cases hsl : ByteList.withCapacity cmp capacity mode mem with
  | error e => simp [hsl, Except.toOption] at h
  | ok sl =>
    simp only [hsl, Except.toOption, Option.any_some, Option.isSome_iff_exists] at h
    exact ⟨sl, rfl, h⟩

/-- A thread looks for a key whose node another one is writing, and inserts one of its own.  The
first thread has to search its splice again, and then the key is found. -/
def halfWritten : List Label :=
  [.invoke 0 (.put ⟨[3], [30], 0⟩)] ++ steps 0 7 ++
    callLabels 1 (.get [3]) (steps 1 2) (.value none) ++
    [.invoke 1 (.put ⟨[1], [10], 1⟩)] ++ steps 1 18 ++ [.ret 1 (.inserted none)] ++
    steps 0 11 ++ [.ret 0 (.inserted none)] ++
    callLabels 1 (.get [3]) (steps 1 4) (.value (some [30]))

theorem exists_halfWritten :
    ∃ sl, ByteList.withCapacity bytewiseComparator 1024 true (fun _ => 0xAA) = .ok sl ∧
      ∃ x, exec ByteState.step (.init sl) halfWritten = some x :=
  exists_byteExec (by decide +kernel)

theorem same_histories_halfWritten :
    ∃ sl', SkipList.withCapacity bytewiseComparator 1024 true = .ok sl' ∧
      ∃ ls s, exec step (State.init sl') ls = some s ∧
        ls.filterMap Label.event = halfWritten.filterMap Label.event := by
  obtain ⟨sl, hsl, x, hx⟩ := exists_halfWritten
  obtain ⟨sl', hsl', hiff⟩ := same_histories hsl (halfWritten.filterMap Label.event)
  obtain ⟨ls, s, -, hs, hevents⟩ := hiff.1 ⟨halfWritten, x, by decide, hx, rfl⟩
  exact ⟨sl', hsl', ls, s, hs, hevents⟩

end Concurrent

end StoneDb
