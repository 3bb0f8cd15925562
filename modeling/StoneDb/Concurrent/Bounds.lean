import StoneDb.Concurrent.Stores
import StoneDb.Concurrent.Chains

/-!
# Every access to a tower is inside it

`tower_access_bounded`: in every state of every run, in both modes, every slot that the next step of
a thread loads, stores or compare-exchanges is one of the tower of a node that `alloc_node` has
initialised, and every index that it uses is one of the arrays of `put`.  So no access touches a key
or a value.  Nothing is assumed of the comparator, and of the keys only that they fit in the address
space next to the arena.

The invariant (`Safe`) puts together what the threads know (`PcSafe`) and the layout of the arena
(`Arena.Laid`): a block that is reserved and not initialised belongs to one thread.  `step_safeMove`
says once what a step can do (`SafeMove`).
-/

namespace StoneDb

namespace Concurrent

open SkipList

/-- What a thread knows of its local offsets. -/
def PcSafe (a : Arena) : Pc → Prop
  | .idle | .done _ | .loadHeight (.read _) => True
  | .loadHeight (.put c) => c.Fits a.capacity
  | .read q p => ReadSafe a q p
  | .put c pc => c.Fits a.capacity ∧ PutSafe a c pc
  | .faulted e => e ≠ .wildAccess ∧ e ≠ .indexOutOfBounds

/-- **The invariant**, with the blocks `bs` that have been handed out. -/
structure Safe (s : State) (bs : List (ℕ × ℕ)) : Prop where
  leveled : s.list.Leveled
  laid : s.list.arena.Laid bs
  written : ∀ o n, s.list.arena.node o = some n → n.Written
  cursor : ∀ t, s.list.arena.Target 0 (s.threads t).it.cursor
  pc : ∀ t, PcSafe s.list.arena (s.threads t).pc
  reserved : ∀ t b, (s.threads t).pc.block = some b → b ∈ bs ∧ ¬ s.list.arena.Alive b.1
  own : ∀ t t' b b', (s.threads t).pc.block = some b → (s.threads t').pc.block = some b' →
    b.1 = b'.1 → t = t'

/-- The calls a thread may make. -/
def Label.Fits (capacity : ℕ) : Label → Prop
  | .invoke _ (.put c) => c.Fits capacity
  | _ => True

instance (capacity : ℕ) : DecidablePred (Label.Fits capacity)
  | .invoke _ (.put c) => inferInstanceAs (Decidable (c.Fits capacity))
  | .invoke _ (.read _) | .step .. | .ret .. => inferInstanceAs (Decidable True)

variable {s s' : State} {bs bs' : List (ℕ × ℕ)} {l : Label} {t : ℕ} {th : Thread}
  {sl : SkipList} {a : Arena} {c : PutCall} {pc : PutPc} {b : ℕ × ℕ}

theorem Label.Allowed.fits {mode : Bool} {writer capacity : ℕ}
    (hl : l.Allowed mode writer) (hcap : capacity ≤ 2 ^ 32) : l.Fits capacity := by
  cases l with
  | invoke t c =>
    cases c with
    | put c =>
      have hsize := hl.1.size
      refine ⟨hl.1.height, ?_⟩
      simp only [isizeMax] at hsize
      omega
    | read q => trivial
  | step | ret => trivial

theorem PcSafe.mono {pc : Pc} (hpc : PcSafe a pc) {a' : Arena} (h : a.Extends a') :
    PcSafe a' pc := by
  cases pc with
  | idle | done | faulted => exact hpc
  | loadHeight q =>
    cases q with
    | put c =>
      rw [PcSafe, h.capacity]
      exact hpc
    | read => trivial
  | read q p => exact ReadSafe.mono hpc h
  | put c pc =>
    rw [PcSafe, h.capacity]
    exact ⟨hpc.1, hpc.2.mono h⟩

/-! ### The layout -/

/-- A step that leaves the block `block` reserved, from the blocks `bs` to the blocks `bs'`. -/
structure KeepsLayout (sl : SkipList) (c : PutCall) (pc : PutPc) (bs : List (ℕ × ℕ)) (a : Arena)
    (bs' : List (ℕ × ℕ)) (block : Option (ℕ × ℕ)) : Prop where
  grows : sl.arena.Extends a
  laid : a.Laid bs'
  subset : bs ⊆ bs'
  written : ∀ o n, a.node o = some n → n.Written
  alive : ∀ o, a.Alive o → sl.arena.Alive o ∨ ∃ b, pc.block c = some b ∧ o = b.1
  block : ∀ b, block = some b → b ∈ bs' ∧ ¬ a.Alive b.1 ∧ ∀ b' ∈ bs, 0 < b'.2 → b'.1 ≠ b.1

/-- A step that changes no node but its back pointer and forward offsets. -/
theorem KeepsLayout.stores (hgrows : sl.arena.Extends a) (hlaid : a.Laid bs)
    (hnode : ∀ o n', a.node o = some n' → ∃ n prev tower, sl.arena.node o = some n ∧
      n' = { n with prev, tower })
    (hwritten : ∀ o n, sl.arena.node o = some n → n.Written) :
    KeepsLayout sl c pc bs a bs none := by
  refine ⟨hgrows, hlaid, fun _ hb => hb, fun o n' hn' => ?_, fun o ⟨n', hn'⟩ => ?_, nofun⟩
  · obtain ⟨n, prev, tower, hn, rfl⟩ := hnode o n' hn'
    exact (hwritten o n hn).stores prev tower
  · obtain ⟨n, -, -, hn, -⟩ := hnode o n' hn'
    exact Or.inl ⟨n, hn⟩

theorem Stores.keepsLayout {block : Option (ℕ × ℕ)} (hst : Stores sl c pc a block)
    (hlaid : sl.arena.Laid bs) (hwritten : ∀ o n, sl.arena.node o = some n → n.Written)
    (hh : c.height < maxHeight) (hpc : PutSafe sl.arena c pc)
    (hblock : ∀ b, pc.block c = some b → b ∈ bs ∧ ¬ sl.arena.Alive b.1) :
    ∃ bs', KeepsLayout sl c pc bs a bs' block := by
  cases hst with
  | none =>
    exact ⟨bs, .stores (.refl _) hlaid (fun o n hn => ⟨n, n.prev, n.tower, hn, rfl⟩) hwritten⟩
  | reserve h sp offset new =>
    obtain ⟨-, rfl, rfl, hcap⟩ := hpc
    have hdvd : 8 ∣ nodeBytes c.key c.value c.height := Nat.dvd_mul_left _ _
    refine ⟨_, .setPtr _ _, hlaid.setPtr hdvd hcap, List.subset_append_left _ _, hwritten,
      fun o ha => Or.inl ha, ?_⟩
    -- the new block begins where the others end
    rintro _ ⟨⟩
    refine ⟨by simp, ?_, fun b' hb' hpos => ?_⟩
    · rintro ⟨n, hn⟩
      have hend := hlaid.end_le hn
      have hpos := n.bytes_pos
      omega
    · have hend := hlaid.tiles.end_le hb'
      omega
  | init h sp node =>
    obtain ⟨hb, hfresh⟩ := hblock _ rfl
    rw [← Node.bytes_init c.key c.value hh] at hb
    refine ⟨bs, .write hfresh _, hlaid.write hb (Node.ok_init _ _ hh), fun _ hb => hb,
      fun o n hn => ?_, fun o ha => ?_, nofun⟩
    · rw [Arena.node_write] at hn
      split_ifs at hn
      · cases hn
        exact ⟨c.key, c.value, c.height, 0, fun _ => 0, hh, rfl⟩
      · exact hwritten o n hn
    · by_cases ho : o = node
      · exact Or.inr ⟨_, rfl, ho⟩
      · exact Or.inl ((Arena.alive_write_of_ne ho).1 ha)
  | prev pc o x =>
    refine ⟨bs, .stores (.setPrev _ _ _) (hlaid.setPrev x) (fun o' n' hn' => ?_) hwritten⟩
    rw [Arena.node_setPrev, Option.map_eq_some_iff] at hn'
    obtain ⟨n, hn, rfl⟩ := hn'
    split_ifs
    · exact ⟨n, _, _, hn, rfl⟩
    · exact ⟨n, n.prev, n.tower, hn, rfl⟩
  | next pc o l x =>
    refine ⟨bs, .stores (.setNext _ _ _ _) (hlaid.setNext l x) (fun o' n' hn' => ?_) hwritten⟩
    rw [Arena.node_setNext, Option.map_eq_some_iff] at hn'
    obtain ⟨n, hn, rfl⟩ := hn'
    split_ifs
    · exact ⟨n, _, _, hn, rfl⟩
    · exact ⟨n, n.prev, n.tower, hn, rfl⟩

/-! ### What a step can do -/

/-- A step changes one thread, and the list if it is one of `put`. -/
inductive SafeMove (s : State) : Label → State → Prop
  | thread (l : Label) (t : ℕ) (th : Thread) : s.list.arena.Target 0 th.it.cursor →
    PcSafe s.list.arena th.pc → th.pc.block = none → SafeMove s l (s.update s.list t th)
  | put (t : ℕ) (weak : Bool) (c : PutCall) (pc : PutPc) (sl : SkipList)
    (r : Iter PutPc (Option (Bytes × Bytes))) : (s.threads t).pc = .put c pc →
    SafeStep s.list c pc sl r →
    SafeMove s (.step t weak) (s.update sl t { s.threads t with pc := afterPut c r })

theorem splicesSafe_start {height : ℕ} (h : sl.Leveled) :
    SplicesSafe sl.arena (.start sl.head height) := by
  refine fun j hj => ⟨?_, Arena.target_null _ _⟩
  simp only [Splices.start]
  split_ifs
  · exact (h.head hj).target
  · exact Arena.target_null _ _

/-- **Every step is one of the moves.** -/
theorem step_safeMove (h : Safe s bs) (hl : l.Fits s.list.arena.capacity)
    (hstep : step s l = some s') : SafeMove s l s' := by
  cases l with
  | invoke t c =>
    obtain ⟨-, rfl⟩ := step_invoke hstep
    cases c with
    | put c => exact .thread _ t _ (h.cursor t) hl rfl
    | read q =>
      simp only [Call.start]
      split_ifs
      · exact .thread _ t _ (h.cursor t) trivial rfl
      · exact .thread _ t _ (h.cursor t) (readSafe_head h.leveled q (by decide)) rfl
  | ret t r =>
    obtain ⟨-, rfl⟩ := step_ret hstep
    exact .thread _ t _ (h.cursor t) trivial rfl
  | step t weak =>
    have hok := h.pc t
    simp only [step, Thread.advance] at hstep
    cases hpc : (s.threads t).pc with
    | idle | done r | faulted e => simp [hpc] at hstep
    | loadHeight c =>
      rw [hpc] at hok
      have hhead := h.leveled.head h.leveled.height_lt
      cases c with
      | put c =>
        simp only [hpc, listHeight, headOffset, index_start h.leveled.height_lt, bind, Except.bind,
          pure, Except.pure, Option.some.injEq] at hstep
        subst hstep
        exact .thread _ t _ (h.cursor t)
          ⟨hok, h.leveled.height_lt, hhead.target, splicesSafe_start h.leveled⟩ rfl
      | read q =>
        simp only [hpc, listHeight, headOffset, Option.some.injEq] at hstep
        subst hstep
        exact .thread _ t _ (h.cursor t) (readSafe_head h.leveled q h.leveled.height_lt) rfl
    | read q p =>
      rw [hpc] at hok
      rcases readStep_safe h.leveled (h.cursor t) hok with ⟨p', hrun, hp'⟩ | ⟨it, r, hrun, hit⟩
      · simp only [hpc, hrun, bind, Except.bind, pure, Except.pure, Option.some.injEq] at hstep
        subst hstep
        exact .thread _ t _ (h.cursor t) hp' rfl
      · simp only [hpc, hrun, bind, Except.bind, pure, Except.pure, Option.some.injEq] at hstep
        subst hstep
        exact .thread _ t _ hit trivial rfl
    | put c pc =>
      have hres := h.reserved t
      rw [hpc] at hok hres
      obtain ⟨hfits, hsafe⟩ := hok
      rcases putStep_safe h.leveled hfits (h.laid.ptr_le_capacity h.leveled.head_slot.alive)
        (fun b hb => (hres b hb).2) hsafe weak with ⟨e, hrun, hwild, hindex⟩ | ⟨sl, r, hrun, hput⟩
      · simp only [hpc, hrun, bind, Except.bind, Option.some.injEq] at hstep
        subst hstep
        exact .thread _ t _ (h.cursor t) ⟨hwild, hindex⟩ rfl
      · have hmove := SafeMove.put t weak c pc sl r hpc hput
        cases r with
        | next pc' | done r =>
          simp only [hpc, hrun, bind, Except.bind, pure, Except.pure, Option.some.injEq] at hstep
          subst hstep
          exact hmove

/-! ### Every move keeps the invariant -/

theorem pos_of_block {pc : Pc} (hb : pc.block = some b) : 0 < b.2 := by
  cases pc with
  | put c pc =>
    cases pc with
    | init h sp node =>
      cases hb
      simp only [nodeBytes, kvDataOff, towerOff]
      omega
    | _ => cases hb
  | _ => cases hb

/-- A move of the thread `t` that does to the arena what it may. -/
theorem Safe.update (h : Safe s bs) (hlev : sl.Leveled) {bs' : List (ℕ × ℕ)}
    (hgrows : s.list.arena.Extends sl.arena) (hlaid : sl.arena.Laid bs') (hsub : bs ⊆ bs')
    (hwritten : ∀ o n, sl.arena.node o = some n → n.Written)
    (halive : ∀ o, sl.arena.Alive o → s.list.arena.Alive o ∨
      ∃ b, (s.threads t).pc.block = some b ∧ o = b.1)
    (hblock : ∀ b, th.pc.block = some b →
      b ∈ bs' ∧ ¬ sl.arena.Alive b.1 ∧ ∀ b' ∈ bs, 0 < b'.2 → b'.1 ≠ b.1)
    (hit : sl.arena.Target 0 th.it.cursor) (hpc : PcSafe sl.arena th.pc) :
    Safe (s.update sl t th) bs' := by
  refine ⟨hlev, hlaid, hwritten, ?_, ?_, ?_, ?_⟩
  · exact State.forall_update (P := fun _ th => sl.arena.Target 0 th.it.cursor) hit fun t' _ =>
      hgrows.target (h.cursor t')
  · exact State.forall_update (P := fun _ th => PcSafe sl.arena th.pc) hpc fun t' _ =>
      (h.pc t').mono hgrows
  · refine State.forall_update (P := fun _ th => ∀ b, th.pc.block = some b →
      b ∈ bs' ∧ ¬ sl.arena.Alive b.1) (fun b hb => ⟨(hblock b hb).1, (hblock b hb).2.1⟩)
      fun t' ht b hb => ?_
    obtain ⟨hmem, hfresh⟩ := h.reserved t' b hb
    refine ⟨hsub hmem, fun ha => ?_⟩
    -- the block that the step may have initialised is that of `t`
    obtain ha | ⟨b', hb', heq⟩ := halive _ ha
    · exact hfresh ha
    · exact ht (h.own t' t b b' hb hb' heq)
  · intro t₁ t₂ b₁ b₂ h₁ h₂ heq
    refine State.unique_update (P := fun th th' => ∃ b b', th.pc.block = some b ∧
      th'.pc.block = some b' ∧ b.1 = b'.1) ?_ ?_ ?_ t₁ t₂ ⟨b₁, b₂, h₁, h₂, heq⟩
    · rintro _ _ ⟨b, b', hb, hb', heq⟩
      exact ⟨b', b, hb', hb, heq.symm⟩
    · -- a new block is none of those before
      rintro t' - ⟨b, b', hb, hb', heq⟩
      exact (hblock b' hb').2.2 b (h.reserved t' b hb).1 (pos_of_block hb) heq
    · rintro t₁ t₂ ⟨b, b', hb, hb', heq⟩
      exact h.own t₁ t₂ b b' hb hb' heq

/-- A move that leaves the list alone. -/
theorem Safe.setThread (h : Safe s bs) (hit : s.list.arena.Target 0 th.it.cursor)
    (hpc : PcSafe s.list.arena th.pc) (hblock : th.pc.block = none) :
    Safe (s.update s.list t th) bs :=
  h.update h.leveled (.refl _) h.laid (fun _ hb => hb) h.written (fun _ ha => Or.inl ha)
    (fun b hb => by rw [hblock] at hb; cases hb) hit hpc

/-- **Every move keeps the invariant**, and extends the arena. -/
theorem SafeMove.safe (hm : SafeMove s l s') (h : Safe s bs) :
    ∃ bs', Safe s' bs' ∧ s.list.arena.Extends s'.list.arena := by
  cases hm with
  | thread l t th hit hpc hblock => exact ⟨bs, h.setThread hit hpc hblock, .refl _⟩
  | put t weak c pc sl r hpc hput =>
    have hok := h.pc t
    have hres := h.reserved t
    rw [hpc] at hok hres
    obtain ⟨hfits, hsafe⟩ := hok
    obtain ⟨bs', hkeeps⟩ := hput.stores.keepsLayout h.laid h.written hfits.height hsafe hres
    refine ⟨bs', h.update hput.leveled hkeeps.grows hkeeps.laid hkeeps.subset hkeeps.written
      (by rw [hpc]; exact hkeeps.alive) hkeeps.block (hkeeps.grows.target (h.cursor t)) ?_,
      hkeeps.grows⟩
    cases r with
    | next pc' => exact ⟨hkeeps.grows.capacity ▸ hfits, hput.safe pc' rfl⟩
    | done r => trivial

/-- A step changes no slot but one that it accesses. -/
theorem SafeMove.stored {weak : Bool} (hm : SafeMove s (.step t weak) s') (h : Safe s bs) {o i : ℕ}
    (hslot : s.list.arena.HasSlot o i)
    (hne : s'.list.arena.nextAt o i ≠ s.list.arena.nextAt o i) :
    (o, i) ∈ (s.threads t).accesses s.list := by
  cases hm with
  | thread => exact absurd rfl hne
  | put t weak c pc sl r hpc hput =>
    have hres := h.reserved t
    have hst := hput.stores
    rw [hpc] at hres
    rw [State.update_list] at hne
    generalize sl.arena = a at hst hne
    generalize (afterPut c r).block = block at hst
    cases hst with
    | none | reserve => exact absurd rfl hne
    | init hh sp node =>
      have hother : o ≠ node := by
        rintro rfl
        exact (hres _ rfl).2 hslot.alive
      exact absurd (Arena.nextAt_write_of_ne hother) hne
    | prev pc o' x => exact absurd (Arena.nextAt_setPrev _ _) hne
    | next pc o' l x haccess =>
      have hsame : o = o' ∧ i = l := by
        by_contra hcon
        exact hne (Arena.nextAt_setNext_of_ne (not_and_or.1 hcon))
      obtain ⟨rfl, rfl⟩ := hsame
      simp [Thread.accesses, hpc, haccess]

/-! ### Runs -/

theorem laid_newArena {capacity : ℕ} (hfit : 192 ≤ capacity) :
    (newArena capacity).Laid [(8, 184)] := by
  have hmem : (8, (Node.init [] [] (maxHeight - 1)).bytes) ∈ [(8, 184)] := by decide
  exact ((Arena.Laid.empty capacity).setPtr (by decide : 8 ∣ 184) hfit).write hmem
    (Node.ok_init _ _ (by decide))

/-- A new list, with all threads idle. -/
theorem safe_init {cmp : KeyComparator} {capacity : ℕ} {mode : Bool}
    (hnew : SkipList.withCapacity cmp capacity mode = .ok sl) :
    Safe (State.init sl) [(8, 184)] := by
  refine ⟨.of_withCapacity hnew, ?_, fun o n hn => ?_, fun _ => Arena.target_null _ _,
    fun _ => trivial, nofun, nofun⟩
  · obtain ⟨rfl, hfit, -⟩ := withCapacity_eq_ok hnew
    exact laid_newArena hfit
  · rw [node_withCapacity hnew hn]
    exact ⟨[], [], maxHeight - 1, 0, fun _ => 0, by decide, rfl⟩

theorem exec_safe {ls : List Label} (h : Safe s bs) (hls : ∀ l ∈ ls, l.Fits s.list.arena.capacity)
    (hexec : exec step s ls = some s') :
    ∃ bs', Safe s' bs' ∧ s.list.arena.Extends s'.list.arena :=
  exec_induction (I := fun _ s' => ∃ bs', Safe s' bs' ∧ s.list.arena.Extends s'.list.arena)
    ⟨bs, h, .refl _⟩ (fun _ s₁ l s₂ hl _ ⟨bs₁, h₁, hext⟩ hstep => by
      rw [← hext.capacity] at hl
      obtain ⟨bs₂, h₂, hext'⟩ := (step_safeMove h₁ hl hstep).safe h₁
      exact ⟨bs₂, h₂, hext.trans hext'⟩) hls hexec

/-- The accesses of all threads to towers and to the arrays of `put`, in one state. -/
structure State.Bounded (s : State) : Prop where
  /-- Every slot that a step accesses is one of a node that `alloc_node` has written. -/
  slot : ∀ t p, p ∈ (s.threads t).accesses s.list →
    ∃ n, s.list.arena.node p.1 = some n ∧ n.Written ∧ p.2 ≤ n.height
  /-- Every index that a step uses is one of the arrays. -/
  index : ∀ t i, i ∈ (s.threads t).indices s.list → i < maxHeight + 1
  /-- No step has made any other access outside a node or an array. -/
  fault : ∀ t e, (s.threads t).pc = .faulted e → e ≠ .wildAccess ∧ e ≠ .indexOutOfBounds
  /-- A step changes no slot but one that it accesses. -/
  stored : ∀ t weak s', step s (.step t weak) = some s' → ∀ o l, s.list.arena.HasSlot o l →
    s'.list.arena.nextAt o l ≠ s.list.arena.nextAt o l → (o, l) ∈ (s.threads t).accesses s.list
  /-- The bytes of the slot are none of a key or a value. -/
  apart : ∀ t p, p ∈ (s.threads t).accesses s.list → ∀ o n, s.list.arena.node o = some n →
    Disjoint (slotSpan p.1 p.2) (n.kvSpan o)
  /-- Nor are they bytes of a block that `alloc_node` is initialising. -/
  apart_reserved : ∀ t p, p ∈ (s.threads t).accesses s.list → ∀ t' b,
    (s.threads t').pc.block = some b → Disjoint (slotSpan p.1 p.2) (span b.1 b.2)
  /-- Whatever runs later, of a node only the back pointer and the forward offsets change. -/
  kept : ∀ ls s', (∀ l ∈ ls, l.Fits s.list.arena.capacity) → exec step s ls = some s' →
    ∀ o n, s.list.arena.node o = some n →
      ∃ prev tower, s'.list.arena.node o = some { n with prev, tower }

theorem Safe.accesses (h : Safe s bs) {p : ℕ × ℕ} (hp : p ∈ (s.threads t).accesses s.list) :
    s.list.arena.HasSlot p.1 p.2 := by
  have hok := h.pc t
  simp only [Thread.accesses] at hp
  cases hpc : (s.threads t).pc with
  | read q p' =>
    rw [hpc] at hok hp
    exact hok.accesses h.leveled (h.cursor t) hp
  | put c pc =>
    rw [hpc] at hok hp
    exact hok.2.access hok.1.height h.leveled (Option.mem_toList.1 hp)
  | idle | loadHeight | done | faulted => simp [hpc] at hp

theorem Safe.indices (h : Safe s bs) {i : ℕ} (hi : i ∈ (s.threads t).indices s.list) :
    i < maxHeight + 1 := by
  have hok := h.pc t
  simp only [Thread.indices] at hi
  cases hpc : (s.threads t).pc with
  | loadHeight c =>
    cases c with
    | put c =>
      simp only [hpc, List.mem_singleton] at hi
      rw [hi]
      exact Nat.succ_lt_succ h.leveled.height_lt
    | read => simp [hpc] at hi
  | put c pc =>
    rw [hpc] at hok hi
    exact hok.2.indices hok.1.height hi
  | idle | read | done | faulted => simp [hpc] at hi

theorem Safe.bounded (h : Safe s bs) : s.Bounded where
  slot t p hp := by
    obtain ⟨n, hn, hl⟩ := h.accesses hp
    exact ⟨n, hn, h.written _ n hn, hl⟩
  index t i hi := h.indices hi
  fault t e he := by
    have hok := h.pc t
    rwa [he] at hok
  stored t weak s' hstep o i hslot hne :=
    (step_safeMove (l := .step t weak) h trivial hstep).stored h hslot hne
  apart t p hp o n hn := by
    obtain ⟨n', hn', hl⟩ := h.accesses hp
    exact h.laid.disjoint_slot hn' hl hn
  apart_reserved t p hp t' b hb := by
    obtain ⟨n, hn, hl⟩ := h.accesses hp
    obtain ⟨hmem, hfresh⟩ := h.reserved t' b hb
    exact (h.laid.disjoint_block hn hmem fun he => hfresh ⟨n, he ▸ hn⟩).mono_left
      (slotSpan_subset _ hl)
  kept ls s' hls hexec := by
    obtain ⟨bs', -, hext⟩ := exec_safe h hls hexec
    exact hext.node

/-- **Every access to a tower is inside it**, in every state of every run of calls, in both modes
and under every interleaving, whatever the comparator answers. -/
theorem tower_access_bounded {cmp : KeyComparator} {capacity : ℕ} {mode : Bool} {sl : SkipList}
    (hnew : SkipList.withCapacity cmp capacity mode = .ok sl) {ls : List Label}
    (hls : ∀ l ∈ ls, l.Fits capacity) {s : State} (hexec : exec step (State.init sl) ls = some s) :
    s.Bounded := by
  have hcap : sl.arena.capacity = capacity := by
    obtain ⟨rfl, -⟩ := withCapacity_eq_ok hnew
    rfl
  obtain ⟨bs, h, -⟩ := exec_safe (safe_init hnew) (fun l hl => hcap.symm ▸ hls l hl) hexec
  exact h.bounded

/-- Both writers of the race are about to compare-exchange the slot of the head on level 0. -/
theorem tower_access_bounded_race :
    ∃ sl, SkipList.withCapacity bytewiseComparator 1024 true = .ok sl ∧
      ∃ s, exec step (State.init sl) (race.take 18) = some s ∧ s.Bounded ∧
        (s.threads 0).accesses s.list = [(sl.head, 0)] ∧
        (s.threads 1).accesses s.list = [(sl.head, 0)] := by
  obtain ⟨sl, hsl, s, hs, hend⟩ : ∃ sl,
      SkipList.withCapacity bytewiseComparator 1024 true = .ok sl ∧
        ∃ s, exec step (State.init sl) (race.take 18) = some s ∧
          decide ((s.threads 0).accesses s.list = [(8, 0)] ∧
            (s.threads 1).accesses s.list = [(8, 0)]) = true :=
    exists_exec_and (by decide +kernel)
  refine ⟨sl, hsl, s, hs, tower_access_bounded hsl (by decide) hs, ?_⟩
  obtain ⟨rfl, -⟩ := withCapacity_eq_ok hsl
  exact of_decide_eq_true hend

end Concurrent

end StoneDb
