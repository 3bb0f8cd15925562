import StoneDb.Concurrent.Machine

/-!
# What each thread knows

The invariant of the machine says of every thread what its local variables mean at its program
counter: `ReadOk` for the reads, `PutOk` for `put`.  A `put` owns the block it has reserved until
its call ends (`PutPc.node`).

What a thread knows survives the steps of the others.  `Effects own sl S sl' S'` is what a step of a
thread that owns the nodes `own` can do to the list; `ReadOk.mono` and `PutOk.mono` are the
stability of the assertions of another thread under it.  In single-writer mode only one thread is
ever in `put`, and it also knows that the splices it has found are adjacent.
-/

namespace StoneDb

namespace Concurrent

open SkipList

variable (cmp : KeyComparator) [Std.TransCmp cmp.compareKey]

/-- A read stands where its search can go on. -/
def ReadOk (sl : SkipList) (S : ℕ → Finset ℕ) (it : IterRef) (q : ReadCall) (p : ℕ × ℕ) : Prop :=
  match q with
  | .get key | .getWithKey key | .contains key | .lowerBound key | .seek key | .seekForPrev key =>
    SearchAt cmp sl S key p.1 p.2
  | .len | .isEmpty => p.1 = sl.head ∨ p.1 ∈ S 0
  | .seekToLast => p.2 < maxHeight ∧ (p.1 = sl.head ∨ p.1 ∈ S p.2)
  | .prev => sl.allowConcurrentWrite = true → it.cursor ≠ 0 →
    SearchAt cmp sl S (sl.arena.keyAt it.cursor) p.1 p.2
  | .seekToFirst | .next => True

/-- What `put` knows from its search: the splices of the levels from `i` on, found after the list
height `h` was loaded.  A lone writer knows that they are adjacent and that `h` is the height. -/
structure Searched (sl : SkipList) (S : ℕ → Finset ℕ) (key : Bytes) (h : ℕ) (s : Splices) (i : ℕ) :
    Prop where
  height_le : h ≤ sl.height
  height_eq : sl.allowConcurrentWrite = false → h = sl.height
  splice : ∀ j, i ≤ j → j < maxHeight → SpliceOk cmp sl S key j (s.prev j) (s.next j)
  exact : sl.allowConcurrentWrite = false → ∀ j, i ≤ j → j < maxHeight →
    s.next j = sl.arena.nextAt (s.prev j) j

/-- What `put` knows while it splices its node in at level `i`. -/
structure Placing (sl : SkipList) (S : ℕ → Finset ℕ) (c : PutCall) (s : Splices) (node i : ℕ) :
    Prop where
  linking : Linking cmp sl S c.key c.value node c.height i s (sl.allowConcurrentWrite = false)
  level_le : i ≤ c.height
  height_le : c.height ≤ sl.height

/-- What `put` knows at each program counter. -/
def PutOk (sl : SkipList) (S : ℕ → Finset ℕ) (c : PutCall) : PutPc → Prop
  | .search h i s before =>
    i ≤ h ∧ SearchAt cmp sl S c.key before i ∧ Searched cmp sl S c.key h s (i + 1)
  | .alloc h s => Searched cmp sl S c.key h s 0
  | .allocCas h s current offset new => Searched cmp sl S c.key h s 0 ∧ current = some offset ∧
    new = offset + nodeBytes c.key c.value c.height ∧ new ≤ sl.arena.capacity
  | .init h s node => Searched cmp sl S c.key h s 0 ∧ node < sl.arena.len ∧
    ¬ sl.arena.Alive node ∧ node ≠ 0 ∧ c.key.length < 2 ^ 32 ∧ c.value.length < 2 ^ 32
  | .raise s node current =>
    Linking cmp sl S c.key c.value node c.height 0 s (sl.allowConcurrentWrite = false) ∧
      current < c.height ∧ (sl.allowConcurrentWrite = false → current = sl.height)
  | .splice .. => False
  | .linkNext s node i => sl.allowConcurrentWrite = true ∧ Placing cmp sl S c s node i
  | .linkCas s node i => sl.allowConcurrentWrite = true ∧ Placing cmp sl S c s node i ∧
    sl.arena.nextAt node i = s.next i
  | .relink s node i before => sl.allowConcurrentWrite = true ∧ Placing cmp sl S c s node i ∧
    SearchAt cmp sl S c.key before i
  | .backNode s node => sl.allowConcurrentWrite = false ∧ Placing cmp sl S c s node 0
  | .backNext s node => sl.allowConcurrentWrite = false ∧ Placing cmp sl S c s node 0 ∧
    s.next 0 ≠ 0
  | .storeNext s node i => sl.allowConcurrentWrite = false ∧ Placing cmp sl S c s node i
  | .storeLink s node i => sl.allowConcurrentWrite = false ∧ Placing cmp sl S c s node i ∧
    sl.arena.nextAt node i = s.next i

/-- The block that a `put` owns. -/
def PutPc.node : PutPc → Option ℕ
  | .init _ _ node | .raise _ node _ | .splice _ node _ _ | .linkNext _ node _ | .linkCas _ node _
  | .relink _ node _ _ | .backNode _ node | .backNext _ node | .storeNext _ node _
  | .storeLink _ node _ => some node
  | _ => none

/-- What a step of a thread that owns the nodes `own` can do to the list. -/
structure Effects (own : ℕ → Prop) (sl : SkipList) (S : ℕ → Finset ℕ) (sl' : SkipList)
    (S' : ℕ → Finset ℕ) : Prop where
  grows : Grows sl S sl' S'
  mem : ∀ x l, x < sl.arena.len → ¬ own x → x ∈ S' l → x ∈ S l
  next : ∀ x l, x < sl.arena.len → ¬ own x → x ≠ sl.head → x ∉ S l →
    sl'.arena.nextAt x l = sl.arena.nextAt x l
  alive : ∀ x, x < sl.arena.len → ¬ own x → sl'.arena.Alive x → sl.arena.Alive x

/-- From any node of the arena, linked or not, level 0 and the back pointers lead to nodes. -/
structure Closed (sl : SkipList) (S : ℕ → Finset ℕ) : Prop where
  next : ∀ x, sl.arena.Alive x → sl.arena.nextAt x 0 = 0 ∨ sl.arena.nextAt x 0 ∈ S 0
  prev : ∀ x, sl.arena.Alive x → sl.arena.prevAt x = 0 ∨ sl.arena.Alive (sl.arena.prevAt x)

/-- The back pointer of `x` leads to a node that is linked before it, or to the head. -/
def BackTo (sl : SkipList) (S : ℕ → Finset ℕ) (x : ℕ) : Prop :=
  (sl.arena.prevAt x = sl.head ∨ sl.arena.prevAt x ∈ S 0) ∧
    pos cmp sl (sl.arena.prevAt x) < pos cmp sl x

/-- The back pointers in single-writer mode, with the writer about to go on (or done).  The one of
the new node's successor is redirected to the new node before that is linked. -/
def BackOk (sl : SkipList) (S : ℕ → Finset ℕ) : Iter PutPc (Option (Bytes × Bytes)) → Prop
  | .next (.backNext _ node) => (∀ x ∈ S 0, BackTo cmp sl S x) ∧ BackTo cmp sl S node
  | .next (.storeNext s node 0) | .next (.storeLink s node 0) =>
    (∀ x ∈ S 0, x ≠ s.next 0 → BackTo cmp sl S x) ∧ BackTo cmp sl S node ∧
      (s.next 0 ≠ 0 → sl.arena.prevAt (s.next 0) = node)
  | _ => ∀ x ∈ S 0, BackTo cmp sl S x

variable {cmp} {sl sl' : SkipList} {S S' : ℕ → Finset ℕ} {own : ℕ → Prop} {key : Bytes}
  {c : PutCall} {s : Splices} {h i l n node o x : ℕ} {pc : PutPc}

/-! ### Stability -/

theorem ReadOk.mono {it : IterRef} {q : ReadCall} {p : ℕ × ℕ} (hq : ReadOk cmp sl S it q p)
    (hwf : Wf cmp sl S) (hgrow : Grows sl S sl' S')
    (hit : it.cursor ≠ 0 → sl.arena.Alive it.cursor) : ReadOk cmp sl' S' it q p := by
  cases q with
  | get key | getWithKey key | contains key | lowerBound key | seek key | seekForPrev key =>
    exact SearchAt.mono hq hwf hgrow
  | len | isEmpty => exact hgrow.mem hq
  | seekToLast => exact ⟨hq.1, hgrow.mem hq.2⟩
  | prev =>
    intro hmode h0
    rw [hgrow.keyAt (hit h0)]
    exact (hq (hgrow.mode ▸ hmode) h0).mono hwf hgrow
  | seekToFirst | next => trivial

/-- Among writers, the recorded splices stay around the key. -/
theorem Searched.mono (hs : Searched cmp sl S key h s i) (hwf : Wf cmp sl S)
    (hgrow : Grows sl S sl' S') (hmode : sl.allowConcurrentWrite = true) :
    Searched cmp sl' S' key h s i := by
  have hmode' : ¬ sl'.allowConcurrentWrite = false := by simp [hgrow.mode, hmode]
  exact ⟨hs.height_le.trans hgrow.height, fun hf => absurd hf hmode',
    fun j hj hj' => (hs.splice j hj hj').mono hwf hgrow, fun hf => absurd hf hmode'⟩

section Concurrent

variable (hwf : Wf cmp sl S) (heff : Effects own sl S sl' S')
  (hmode : sl.allowConcurrentWrite = true)

include hwf heff hmode

theorem linking_mono (hl : Linking cmp sl S c.key c.value node c.height i s
    (sl.allowConcurrentWrite = false)) (hown : ¬ own node) :
    Linking cmp sl' S' c.key c.value node c.height i s (sl'.allowConcurrentWrite = false) := by
  have hlt := hwf.alive_lt _ hl.slot.alive
  refine Linking.mono (E := sl'.allowConcurrentWrite = false) ?_ hwf heff.grows (fun j hm =>
    heff.mem node j hlt hown hm) ?_
  · rw [heff.grows.mode]
    exact hl
  · intro hf
    rw [heff.grows.mode, hmode] at hf
    exact absurd hf (by decide)

theorem Placing.mono (hp : Placing cmp sl S c s node i) (hown : ¬ own node) :
    Placing cmp sl' S' c s node i :=
  ⟨linking_mono hwf heff hmode hp.linking hown, hp.level_le, hp.height_le.trans heff.grows.height⟩

/-- **Among writers**, what a `put` knows survives the steps of threads that do not own its node. -/
theorem PutOk.mono (hpc : PutOk cmp sl S c pc) (hown : ∀ x, pc.node = some x → ¬ own x) :
    PutOk cmp sl' S' c pc := by
  have hgrow := heff.grows
  have hmode' : sl'.allowConcurrentWrite = true := hgrow.mode.trans hmode
  cases pc with
  | search h i s before =>
    obtain ⟨hi, hat, hs⟩ := hpc
    exact ⟨hi, hat.mono hwf hgrow, hs.mono hwf hgrow hmode⟩
  | alloc h s => exact Searched.mono hpc hwf hgrow hmode
  | allocCas h s current offset new =>
    obtain ⟨hs, hcur, hnew, hcap⟩ := hpc
    exact ⟨hs.mono hwf hgrow hmode, hcur, hnew, by rw [hgrow.capacity]; exact hcap⟩
  | init h s node =>
    obtain ⟨hs, hlt, hfresh, h0, hkv⟩ := hpc
    exact ⟨hs.mono hwf hgrow hmode, hlt.trans_le hgrow.len,
      fun ha => hfresh (heff.alive node hlt (hown node rfl) ha), h0, hkv⟩
  | raise s node current =>
    obtain ⟨hl, hlt, -⟩ := hpc
    exact ⟨linking_mono hwf heff hmode hl (hown node rfl), hlt, fun hf => by simp [hmode'] at hf⟩
  | splice s node i before => exact hpc
  | linkNext s node i => exact ⟨hmode', hpc.2.mono hwf heff hmode (hown node rfl)⟩
  | linkCas s node i =>
    obtain ⟨-, hp, hself⟩ := hpc
    have hlt := hwf.alive_lt _ hp.linking.slot.alive
    refine ⟨hmode', hp.mono hwf heff hmode (hown node rfl), ?_⟩
    rw [heff.next node i hlt (hown node rfl) hp.linking.ne_head (hp.linking.fresh i le_rfl)]
    exact hself
  | relink s node i before =>
    obtain ⟨-, hp, hat⟩ := hpc
    exact ⟨hmode', hp.mono hwf heff hmode (hown node rfl), hat.mono hwf hgrow⟩
  | backNode s node | storeNext s node i =>
    have hf := hpc.1
    simp [hmode] at hf
  | backNext s node | storeLink s node i =>
    have hf := hpc.1
    simp [hmode] at hf

end Concurrent

/-- An owned block has been reserved. -/
theorem PutOk.node_lt (hpc : PutOk cmp sl S c pc) (hwf : Wf cmp sl S) (hx : pc.node = some x) :
    x < sl.arena.len := by
  have hlinking : ∀ {s : Splices} {node i : ℕ}, Placing cmp sl S c s node i → node < sl.arena.len :=
    fun hp => hwf.alive_lt _ hp.linking.slot.alive
  cases pc with
  | search | alloc | allocCas => cases hx
  | init h s node => cases hx; exact hpc.2.1
  | raise s node current => cases hx; exact hwf.alive_lt _ hpc.1.slot.alive
  | splice => exact hpc.elim
  | linkNext | backNode | storeNext => cases hx; exact hlinking hpc.2
  | linkCas | relink | backNext | storeLink => cases hx; exact hlinking hpc.2.1

/-! ### Effects of single accesses -/

namespace Effects

theorem refl (own : ℕ → Prop) (sl : SkipList) (S : ℕ → Finset ℕ) : Effects own sl S sl S :=
  ⟨Grows.refl sl S, fun _ _ _ _ hx => hx, fun _ _ _ _ _ _ => rfl, fun _ _ _ ha => ha⟩

/-- A store to an owned node. -/
theorem setNext (hown : own o) :
    Effects own sl S { sl with arena := sl.arena.setNext o l n } S :=
  ⟨grows_setNext, fun _ _ _ _ hx => hx, fun _ _ _ hx _ _ =>
    Arena.nextAt_setNext_of_ne (Or.inl fun he => hx (he ▸ hown)), fun _ _ _ ha => by simpa using ha⟩

theorem setPrev : Effects own sl S { sl with arena := sl.arena.setPrev o n } S :=
  ⟨grows_setPrev, fun _ _ _ _ hx => hx, fun _ _ _ _ _ _ => by simp,
    fun _ _ _ ha => by simpa using ha⟩

theorem setPtr (hle : sl.arena.len ≤ n) :
    Effects own sl S { sl with arena := sl.arena.setPtr n } S :=
  ⟨grows_setPtr hle, fun _ _ _ _ hx => hx, fun _ _ _ _ _ _ => rfl, fun _ _ _ ha => ha⟩

/-- The initialisation of an owned block. -/
theorem write {nd : Node} (hown : own o) (hfresh : ¬ sl.arena.Alive o) :
    Effects own sl S { sl with arena := sl.arena.write o nd } S := by
  have hne : ∀ {x}, ¬ own x → x ≠ o := fun hx he => hx (he ▸ hown)
  exact ⟨grows_write hfresh, fun _ _ _ _ hx => hx,
    fun _ _ _ hx _ _ => Arena.nextAt_write_of_ne (hne hx),
    fun _ _ hx ha => (Arena.alive_write_of_ne (hne hx)).1 ha⟩

theorem raise (hle : sl.height ≤ n) : Effects own sl S { sl with height := n } S :=
  ⟨grows_raise hle, fun _ _ _ _ hx => hx, fun _ _ _ _ _ _ => rfl, fun _ _ _ ha => ha⟩

/-- Linking an owned node. -/
theorem link (hown : own x) (hp : o = sl.head ∨ o ∈ S l) :
    Effects own sl S { sl with arena := sl.arena.setNext o l x }
      (Function.update S l (insert x (S l))) := by
  refine ⟨grows_link, fun y l' _ hy hm => ?_, fun y l' _ _ hhead hy => ?_,
    fun _ _ _ ha => by simpa using ha⟩
  · by_cases hl : l' = l
    · subst hl
      rw [Function.update_self] at hm
      exact (Finset.mem_insert.1 hm).resolve_left fun he => hy (he ▸ hown)
    · rwa [Function.update_of_ne hl] at hm
  · refine Arena.nextAt_setNext_of_ne ?_
    by_contra hc
    push Not at hc
    obtain ⟨rfl, rfl⟩ := hc
    exact hp.elim hhead hy

end Effects

namespace Closed

variable (hc : Closed sl S)

include hc

theorem setNext (hsub : S 0 ⊆ S' 0) (hn : l = 0 → n = 0 ∨ n ∈ S' 0) :
    Closed { sl with arena := sl.arena.setNext o l n } S' := by
  refine ⟨?_, ?_⟩
  · intro x hx
    have hx' : sl.arena.Alive x := by simpa using hx
    by_cases ho : x = o ∧ l = 0
    · obtain ⟨rfl, rfl⟩ := ho
      simpa only [Arena.nextAt_setNext_self hx'] using hn rfl
    · have hne : x ≠ o ∨ 0 ≠ l := by
        by_contra hcon
        push Not at hcon
        exact ho ⟨hcon.1, hcon.2.symm⟩
      simp only [Arena.nextAt_setNext_of_ne hne]
      exact (hc.next x hx').imp id fun hm => hsub hm
  · intro x hx
    simpa using hc.prev x (by simpa using hx)

theorem setPrev (hn : n = 0 ∨ sl.arena.Alive n) :
    Closed { sl with arena := sl.arena.setPrev o n } S := by
  refine ⟨fun x hx => by simpa using hc.next x (by simpa using hx), fun x hx => ?_⟩
  have hx' : sl.arena.Alive x := by simpa using hx
  by_cases ho : x = o
  · subst ho
    simpa only [Arena.prevAt_setPrev_self hx', Arena.alive_setPrev] using hn
  · simpa only [Arena.prevAt_setPrev_of_ne ho, Arena.alive_setPrev] using hc.prev x hx'

theorem init (key value : Bytes) (height : ℕ) :
    Closed { sl with arena := sl.arena.write o (Node.init key value height) } S := by
  refine ⟨?_, ?_⟩
  · intro x hx
    by_cases ho : x = o
    · subst ho
      exact Or.inl (by simp [Arena.nextAt, Arena.node_write, Node.init])
    · simpa only [Arena.nextAt_write_of_ne ho] using hc.next x ((Arena.alive_write_of_ne ho).1 hx)
  · intro x hx
    by_cases ho : x = o
    · subst ho
      exact Or.inl (by simp [Arena.prevAt, Arena.node_write, Node.init])
    · simp only [Arena.prevAt_write_of_ne ho]
      exact (hc.prev x ((Arena.alive_write_of_ne ho).1 hx)).imp id Arena.Alive.write

end Closed

/-- Back pointers stay good while the list grows. -/
theorem BackTo.mono (hb : BackTo cmp sl S x) (hwf : Wf cmp sl S) (hx : sl.arena.Alive x)
    (hgrow : Grows sl S sl' S') (hprev : sl'.arena.prevAt x = sl.arena.prevAt x) :
    BackTo cmp sl' S' x := by
  obtain ⟨hmem, hlt⟩ := hb
  rw [BackTo, hprev, hgrow.pos_mem hwf hmem, hgrow.pos_eq (Or.inr hx)]
  exact ⟨hgrow.mem hmem, hlt⟩

end Concurrent

end StoneDb
