import StoneDb.Concurrent.Chains

/-!
# Concurrent reads are linearizable

A read answers from the list at one instant between its start and its return: that of its last load
(`exec_answered`).  So its answer is the one of the map on level 0 at that instant
(`reads_linearizable`), and since no pair is ever taken away or changed, what one call has seen
every later call sees too (`reads_monotone`).

Both hold in either mode, whatever the other threads do; in single-writer mode `prev` is left out,
which follows a back pointer.
-/

namespace StoneDb

namespace Concurrent

open SkipList

variable {cmp : KeyComparator} [Std.TransCmp cmp.compareKey] {mode : Bool} {writer t : ℕ}
  {s s' : State} {sl : SkipList} {S S' : ℕ → Finset ℕ} {l : Label} {q : ReadCall} {it it₀ : IterRef}
  {r : Ret} {th : Thread} {before during after ls : List Label}

/-! ### One call -/

/-- How far a thread is that carries out the read `q`, with its cursor at `it₀` from the start.
When it has ended, `ended` holds of the cursor and the answer. -/
def InRead (q : ReadCall) (it₀ : IterRef) (ended : IterRef → Ret → Prop) (th : Thread) : Prop :=
  match th.pc with
  | .loadHeight (.read q') | .read q' _ => q' = q ∧ th.it = it₀
  | .done r => ended th.it r
  | _ => False

/-- During `ls`, from the state `s`, there is an instant at which the list satisfies `P`. -/
def Instant (cmp : KeyComparator) [Std.TransCmp cmp.compareKey] (mode : Bool) (writer : ℕ)
    (s : State) (ls : List Label) (P : SkipList → (ℕ → Finset ℕ) → Prop) : Prop :=
  ∃ pre s₁ S₁, pre <+: ls ∧ exec step s pre = some s₁ ∧ Inv cmp mode writer s₁ S₁ ∧ P s₁.list S₁

theorem Instant.concat {P : SkipList → (ℕ → Finset ℕ) → Prop}
    (h : Instant cmp mode writer s ls P) (l : Label) : Instant cmp mode writer s (ls ++ [l]) P := by
  obtain ⟨pre, s₁, S₁, hpre, hs₁, h₁, hP⟩ := h
  exact ⟨pre, s₁, S₁, hpre.trans (List.prefix_append _ _), hs₁, h₁, hP⟩

/-- A read ends during `ls` from `s`. -/
def Ended (cmp : KeyComparator) [Std.TransCmp cmp.compareKey] (mode : Bool) (writer : ℕ)
    (s : State) (ls : List Label) (q : ReadCall) (it₀ it : IterRef) (r : Ret) : Prop :=
  Instant cmp mode writer s ls fun sl S => ReadEnd cmp sl S it₀ q it r

/-- A move during a read. -/
theorem Move.inRead {s₀ : State} (hm : Move cmp s S l s' S') (h : Inv cmp mode writer s S)
    (hl : l.Within t) (hexec : exec step s₀ ls = some s)
    (hread : InRead q it₀ (Ended cmp mode writer s₀ ls q it₀) (s.threads t)) :
    InRead q it₀ (Ended cmp mode writer s₀ (ls ++ [l]) q it₀) (s'.threads t) := by
  rcases hl.cases with ht | ⟨weak, rfl⟩
  · rw [hm.other ht]
    unfold InRead at hread ⊢
    split at hread
    · exact hread
    · exact hread
    · exact Instant.concat hread l
    · exact hread.elim
  unfold InRead at hread
  cases hm with
  | search _ _ c' hpc | put _ _ c' pc sl S' r hpc | panic _ _ c' _ _ hpc =>
    rw [hpc] at hread
    exact hread.elim
  | descend _ _ q hpc | read _ _ q p p' hpc =>
    rw [hpc] at hread
    simpa only [InRead, State.setPc, State.update_self] using hread
  | answer _ _ q' p it r hpc _ _ hend =>
    -- the instant is the one of this load
    rw [hpc] at hread
    obtain ⟨rfl, hit⟩ := hread
    simp only [InRead, State.update_self]
    exact ⟨ls, s, S, List.prefix_append _ _, hexec, h, hit ▸ hend⟩

/-- A read that starts at `s` with an idle thread and returns: the instant at which it has ended. -/
theorem exec_read (h : Inv cmp mode writer s S)
    (hls : ∀ l ∈ .invoke t (.read q) :: during ++ [.ret t r], l.Allowed mode writer)
    (hwithin : ∀ l ∈ during, l.Within t)
    (hexec : exec step s (.invoke t (.read q) :: during ++ [.ret t r]) = some s') :
    ∃ S', Inv cmp mode writer s' S' ∧ (s'.threads t).pc = .idle ∧
      ∃ s₀, step s (.invoke t (.read q)) = some s₀ ∧
        Ended cmp mode writer s₀ during q (s.threads t).it (s'.threads t).it r := by
  obtain ⟨s₀, s₁, hidle, hs₀, hinvoke, hduring, hdone, rfl⟩ := exec_call hexec
  have h₀ : Inv cmp mode writer s₀ S := hs₀ ▸ (Move.invoke t _ hidle).inv h trivial
  have hstart : InRead q (s.threads t).it (Ended cmp mode writer s₀ [] q (s.threads t).it)
      (s₀.threads t) := by
    unfold InRead
    simp only [hs₀, State.setPc, State.update_self, Call.start]
    split_ifs <;> exact ⟨rfl, trivial⟩
  obtain ⟨S₁, h₁, hread⟩ := run_induction
    (I := fun ls₁ s₁ _ => InRead q (s.threads t).it
      (Ended cmp mode writer s₀ ls₁ q (s.threads t).it) (s₁.threads t)) h₀ hstart
    (fun ls₁ s₁ S₁ l s₂ S₂ hl hexec h₁ hread hm _ => hm.inRead h₁ (hwithin l hl) hexec hread)
    (fun l hl => hls l (by simp [hl])) hduring
  have h' := (Move.ret t r hdone).inv h₁ trivial
  unfold InRead at hread
  rw [hdone] at hread
  refine ⟨S₁, h', by simp only [State.setPc, State.update_self], s₀, hinvoke, ?_⟩
  simpa only [State.setPc, State.update_self] using hread

/-! ### The calls of a run -/

/-- The labels of a call of the thread `t`, with what happens meanwhile. -/
def callLabels (t : ℕ) (q : ReadCall) (during : List Label) (r : Ret) : List Label :=
  .invoke t (.read q) :: during ++ [.ret t r]

/-- A read in the run `ls`: the thread `t` calls `q` after `before`, and it returns `r` after
`during`, when the thread neither calls nor returns. -/
structure Span (ls : List Label) where
  before : List Label
  t : ℕ
  q : ReadCall
  during : List Label
  r : Ret
  after : List Label
  eq : ls = before ++ .invoke t (.read q) :: during ++ .ret t r :: after
  within : ∀ l ∈ during, l.Within t

/-- The pair that the cursor of the thread shows when the call starts. -/
def Span.Shows (sl : SkipList) (c : Span ls) (p : Option (Bytes × Bytes)) : Prop :=
  ∃ s, exec step (State.init sl) c.before = some s ∧
    IterRef.entry s.list (s.threads c.t).it = .ok p

/-- The state at an instant between the start of the call and its return. -/
def Span.At (sl : SkipList) (c : Span ls) (s : State) : Prop :=
  ∃ pre, pre <+: c.during ∧
    exec step (State.init sl) (c.before ++ .invoke c.t (.read c.q) :: pre) = some s

/-- The call returns what its specification says of the map `m`, the one of the pairs linked on
level 0 at some instant between its start and its return. -/
def Span.AnsweredFrom (sl : SkipList) (c : Span ls) (m : OrderedMap cmp.compareKey Bytes) : Prop :=
  (∃ s, c.At sl s ∧ m.entries = s.list.pairs) ∧ ∃ p, c.Shows sl p ∧ c.r = c.q.spec m p

/-- The first call returns before the second one starts. -/
def Span.Precedes (c₁ c₂ : Span ls) : Prop :=
  c₁.before.length + c₁.during.length + 2 ≤ c₂.before.length

theorem Span.eq_append (c : Span ls) :
    ls = c.before ++ callLabels c.t c.q c.during c.r ++ c.after := c.eq.trans (by simp [callLabels])

theorem Span.during_subset (c : Span ls) : ∀ l ∈ callLabels c.t c.q c.during c.r, l ∈ ls := by
  intro l hl
  rw [c.eq_append]
  exact List.mem_append_left _ (List.mem_append_right _ hl)

theorem Span.before_subset (c : Span ls) : ∀ l ∈ c.before, l ∈ ls := by
  intro l hl
  rw [c.eq_append]
  exact List.mem_append_left _ (List.mem_append_left _ hl)

/-- The labels up to an instant of a call are a prefix of the run. -/
theorem Span.initial (c : Span ls) {pre : List Label} (hpre : pre <+: c.during) :
    c.before ++ .invoke c.t (.read c.q) :: pre <+: ls := by
  obtain ⟨rest, hrest⟩ := hpre
  refine ⟨rest ++ .ret c.t c.r :: c.after, ?_⟩
  conv_rhs => rw [c.eq, ← hrest]
  simp

/-- Later instants have more pairs. -/
theorem pairs_subset (h : Inv cmp mode writer s S) (hls : ∀ l ∈ ls, l.Allowed mode writer)
    {ls₁ ls₂ : List Label} {s₁ s₂ : State} (hpre₁ : ls₁ <+: ls) (hpre₂ : ls₂ <+: ls)
    (hle : ls₁.length ≤ ls₂.length) (hs₁ : exec step s ls₁ = some s₁)
    (hs₂ : exec step s ls₂ = some s₂) : s₁.list.pairs ⊆ s₂.list.pairs := by
  obtain ⟨rest, rfl⟩ := List.prefix_of_prefix_length_le hpre₁ hpre₂ hle
  obtain ⟨s₁', hs₁', hrest⟩ := exec_append_eq_some.1 hs₂
  obtain rfl : s₁ = s₁' := Option.some.inj (hs₁.symm.trans hs₁')
  have hsub := fun l hl => hls l (hpre₂.subset hl)
  obtain ⟨S₁, h₁, -⟩ := exec_inv h (fun l hl => hsub l (List.mem_append_left _ hl)) hs₁
  obtain ⟨S₂, h₂, hgrow⟩ := exec_inv h₁ (fun l hl => hsub l (List.mem_append_right _ hl)) hrest
  exact hgrow.pairs_subset h₁.wf h₂.wf

/-- The instant of a call at which it has ended: that of its last load. -/
theorem Span.ended {s₀ s₃ : State} {S₀ : ℕ → Finset ℕ} (c : Span ls)
    (h₀ : Inv cmp mode writer s₀ S₀) (hls : ∀ l ∈ ls, l.Allowed mode writer)
    (hexec : exec step s₀ ls = some s₃) :
    ∃ s S it pre s₁ S₁, exec step s₀ c.before = some s ∧ Inv cmp mode writer s S ∧
      pre <+: c.during ∧ exec step s₀ (c.before ++ .invoke c.t (.read c.q) :: pre) = some s₁ ∧
      Inv cmp mode writer s₁ S₁ ∧ Grows s.list S s₁.list S₁ ∧
      ReadEnd cmp s₁.list S₁ (s.threads c.t).it c.q it c.r := by
  rw [c.eq_append] at hexec
  obtain ⟨s', hs', -⟩ := exec_append_eq_some.1 hexec
  obtain ⟨s, hs, hcall⟩ := exec_append_eq_some.1 hs'
  obtain ⟨S, h, -⟩ := exec_inv h₀ (fun l hl => hls l (c.before_subset l hl)) hs
  obtain ⟨S', h', -, s₁, hinvoke, pre, s₂, S₂, hpre, hs₂, h₂, hend⟩ :=
    exec_read h (fun l hl => hls l (c.during_subset l hl)) c.within hcall
  have hexec₂ : exec step s (.invoke c.t (.read c.q) :: pre) = some s₂ :=
    exec_cons_eq_some.2 ⟨s₁, hinvoke, hs₂⟩
  have hpreOk : ∀ l ∈ .invoke c.t (.read c.q) :: pre, l.Allowed mode writer := fun l hl =>
    hls l ((c.initial hpre).subset (List.mem_append_right _ hl))
  obtain ⟨S₂', h₂', hgrow⟩ := exec_inv h hpreOk hexec₂
  obtain rfl : S₂' = S₂ := h₂'.wf.unique h₂.wf
  exact ⟨s, S, _, pre, s₂, S₂', hs, h, hpre, exec_append_eq_some.2 ⟨s, hs, hexec₂⟩, h₂, hgrow, hend⟩

/-- A call returns what its specification says of the map at one instant. -/
theorem Span.answered {s₀ : State} {S₀ : ℕ → Finset ℕ} (c : Span ls)
    (h₀ : Inv cmp mode writer (State.init sl) S₀) (hls : ∀ l ∈ ls, l.Allowed mode writer)
    (hexec : exec step (State.init sl) ls = some s₀) (hlaw : Std.LawfulEqCmp cmp.compareKey)
    (hatomic : c.q.Atomic mode) (hnext : c.q ≠ .next) :
    ∃ m : OrderedMap cmp.compareKey Bytes, c.AnsweredFrom sl m := by
  obtain ⟨s, S, it, pre, s₁, S₁, hs, h, hpre, hs₁, h₁, hgrow, hend⟩ := c.ended h₀ hls hexec
  have hit : CursorOk s₁.list (s.threads c.t).it := (h.cursor c.t).mono hgrow
  have hanswer := hend.answer h₁.wf.represents (fun _ => hlaw) (h₁.mode_eq ▸ hatomic) (fun _ => hit)
    fun hq => absurd hq hnext
  rw [hgrow.pairOf ((h.cursor c.t).imp id And.right)] at hanswer
  exact ⟨h₁.wf.map, ⟨s₁, ⟨pre, hpre, hs₁⟩, rfl⟩, _, ⟨s, hs, entry_eq (h.cursor c.t).target⟩,
    hanswer⟩

/-- A later call is answered from a larger map. -/
theorem Span.AnsweredFrom.subset {S₀ : ℕ → Finset ℕ} {c₁ c₂ : Span ls}
    (h₀ : Inv cmp mode writer (State.init sl) S₀) (hls : ∀ l ∈ ls, l.Allowed mode writer)
    (hprec : c₁.Precedes c₂) {m₁ m₂ : OrderedMap cmp.compareKey Bytes}
    (h₁ : c₁.AnsweredFrom sl m₁) (h₂ : c₂.AnsweredFrom sl m₂) : m₁.entries ⊆ m₂.entries := by
  obtain ⟨⟨s₁, ⟨pre₁, hpre₁, hs₁⟩, hm₁⟩, -⟩ := h₁
  obtain ⟨⟨s₂, ⟨pre₂, hpre₂, hs₂⟩, hm₂⟩, -⟩ := h₂
  rw [hm₁, hm₂]
  refine pairs_subset h₀ hls (c₁.initial hpre₁) (c₂.initial hpre₂) ?_ hs₁ hs₂
  have hlen := hpre₁.length_le
  simp only [Span.Precedes, List.length_append, List.length_cons] at hprec ⊢
  omega

/-! ### What a call has seen -/

/-- The key that an answer has shown to be present, with its value if it has shown that too. -/
def ReadCall.saw : ReadCall → Ret → Option (Bytes × Option Bytes)
  | .get key, .value (some v) => some (key, some v)
  | .contains key, .flag true => some (key, none)
  | _, .pair (some (key, v)) => some (key, some v)
  | _, _ => none

/-- The calls that look for a key, with the answers that find it with the value. -/
def finds (key value : Bytes) : List (ReadCall × Ret) :=
  [(.get key, .value (some value)), (.getWithKey key, .pair (some (key, value))),
    (.contains key, .flag true), (.lowerBound key, .pair (some (key, value))),
    (.seek key, .pair (some (key, value))), (.seekForPrev key, .pair (some (key, value)))]

theorem ReadCall.saw_pair (q : ReadCall) (o : Option (Bytes × Bytes)) :
    q.saw (.pair o) = o.map fun x => (x.1, some x.2) := by
  cases q <;> cases o <;> rfl

/-- What a call sees is in the map. -/
theorem ReadCall.saw_spec [Std.LawfulEqCmp cmp.compareKey] {m : OrderedMap cmp.compareKey Bytes}
    {p : Option (Bytes × Bytes)} {key : Bytes} {w : Option Bytes}
    (h : q.saw (q.spec m p) = some (key, w)) :
    ∃ value, (key, value) ∈ m.entries ∧ (w = none ∨ w = some value) := by
  have hpair : ∀ {o : Option (Bytes × Bytes)}, (∀ x, o = some x → x ∈ m.entries) →
      q.saw (.pair o) = some (key, w) →
      ∃ value, (key, value) ∈ m.entries ∧ (w = none ∨ w = some value) := by
    intro o hmem heq
    rw [saw_pair, Option.map_eq_some_iff] at heq
    obtain ⟨x, hx, hxk⟩ := heq
    cases hxk
    exact ⟨x.2, hmem x hx, Or.inr rfl⟩
  have hget : ∀ {k v}, m.get k = some v → (k, v) ∈ m.entries := by
    intro k v hv
    obtain ⟨x, hx, rfl⟩ := Option.map_eq_some_iff.1 hv
    obtain ⟨hmem, rfl⟩ := (m.getWithKey_eq_some_iff_mem).1 hx
    exact hmem
  cases q with
  | get k =>
    cases hv : m.get k with
    | none => simp [ReadCall.spec, ReadCall.saw, hv] at h
    | some v =>
      simp only [ReadCall.spec, ReadCall.saw, hv, Option.some.injEq, Prod.mk.injEq] at h
      obtain ⟨rfl, rfl⟩ := h
      exact ⟨v, hget hv, Or.inr rfl⟩
  | contains k =>
    cases hv : m.get k with
    | none => simp [ReadCall.spec, ReadCall.saw, OrderedMap.contains, hv] at h
    | some v =>
      simp only [ReadCall.spec, ReadCall.saw, OrderedMap.contains, hv, Option.isSome_some,
        Option.some.injEq, Prod.mk.injEq] at h
      obtain ⟨rfl, rfl⟩ := h
      exact ⟨v, hget hv, Or.inl rfl⟩
  | len | isEmpty => simp [ReadCall.spec, ReadCall.saw] at h
  | getWithKey | lowerBound | seek | seekToFirst =>
    exact hpair (fun x hx => m.mem_of_firstWhere hx) h
  | seekForPrev | seekToLast => exact hpair (fun x hx => m.mem_of_lastWhere hx) h
  | next =>
    refine hpair (fun x hx => ?_) h
    obtain ⟨y, -, hy⟩ := Option.bind_eq_some_iff.1 hx
    exact m.mem_of_firstWhere hy
  | prev =>
    refine hpair (fun x hx => ?_) h
    obtain ⟨y, -, hy⟩ := Option.bind_eq_some_iff.1 hx
    exact m.mem_of_lastWhere hy

/-- A call that looks for a key of the map finds it. -/
theorem spec_of_mem_finds {m : OrderedMap cmp.compareKey Bytes} {p : Option (Bytes × Bytes)}
    {key value : Bytes} (hmem : (key, value) ∈ m.entries) (h : (q, r) ∈ finds key value) :
    q.spec m p = r := by
  have hget := m.getWithKey_of_mem hmem
  simp only [finds, List.mem_cons, Prod.mk.injEq, List.not_mem_nil, or_false] at h
  rcases h with ⟨rfl, rfl⟩ | ⟨rfl, rfl⟩ | ⟨rfl, rfl⟩ | ⟨rfl, rfl⟩ | ⟨rfl, rfl⟩ | ⟨rfl, rfl⟩
  · simp [ReadCall.spec, OrderedMap.get, hget]
  · exact congrArg Ret.pair hget
  · simp [ReadCall.spec, OrderedMap.contains, OrderedMap.get, hget]
  · exact congrArg Ret.pair (m.leastGE_of_mem hmem)
  · exact congrArg Ret.pair (m.leastGE_of_mem hmem)
  · exact congrArg Ret.pair (m.greatestLE_of_mem hmem)

/-- What the callers of the lookups can rely on in the run `ls`. -/
structure ReadsLinearize (cmp : KeyComparator) [Std.TransCmp cmp.compareKey] (mode : Bool)
    (sl : SkipList) (ls : List Label) : Prop where
  /-- A lookup answers from the map at one instant of the call. -/
  answered : ∀ c : Span ls, c.q.Atomic mode → c.q ≠ .next →
    ∃ m : OrderedMap cmp.compareKey Bytes, c.AnsweredFrom sl m
  /-- Once a lookup has seen a key, a lookup that starts later does not miss it, and it does not see
  another value. -/
  remembered : ∀ c₁ c₂ : Span ls, c₁.q.Atomic mode → c₁.q ≠ .next → c₂.q.Atomic mode →
    c₂.q ≠ .next → c₁.Precedes c₂ → ∀ key w, c₁.q.saw c₁.r = some (key, w) →
    ∃ value, (w = none ∨ w = some value) ∧
      (∃ m : OrderedMap cmp.compareKey Bytes, c₂.AnsweredFrom sl m ∧ (key, value) ∈ m.entries) ∧
      (∀ r, (c₂.q, r) ∈ finds key value → c₂.r = r) ∧
      ∀ value', c₂.q.saw c₂.r = some (key, some value') → value' = value

/-- **Reads along forward links are linearizable** with concurrent inserts, in either mode. -/
theorem concurrent_reads (cmp : KeyComparator) [Std.TransCmp cmp.compareKey]
    [hlaw : Std.LawfulEqCmp cmp.compareKey] {capacity : ℕ} (hcap : capacity ≤ 2 ^ 32) {mode : Bool}
    {sl : SkipList} (hnew : SkipList.withCapacity cmp capacity mode = .ok sl) {writer : ℕ}
    {ls : List Label} (hls : ∀ l ∈ ls, l.Allowed mode writer) {s : State}
    (hexec : exec step (State.init sl) ls = some s) : ReadsLinearize cmp mode sl ls := by
  have hinit : Inv cmp mode writer (State.init sl) fun _ => ∅ := inv_init hcap hnew
  have hanswered : ∀ c : Span ls, c.q.Atomic mode → c.q ≠ .next →
      ∃ m : OrderedMap cmp.compareKey Bytes, c.AnsweredFrom sl m := fun c hatomic hnext =>
    c.answered hinit hls hexec hlaw hatomic hnext
  refine ⟨hanswered, fun c₁ c₂ hatomic₁ hnext₁ hatomic₂ hnext₂ hprec key w hsaw => ?_⟩
  obtain ⟨m₁, h₁⟩ := hanswered c₁ hatomic₁ hnext₁
  obtain ⟨m₂, h₂⟩ := hanswered c₂ hatomic₂ hnext₂
  have hsub := h₁.subset hinit hls hprec h₂
  obtain ⟨p₁, -, hr₁⟩ := h₁.2
  obtain ⟨p₂, -, hr₂⟩ := h₂.2
  rw [hr₁] at hsaw
  obtain ⟨value, hmem₁, hw⟩ := ReadCall.saw_spec hsaw
  have hmem₂ : (key, value) ∈ m₂.entries := hsub hmem₁
  refine ⟨value, hw, ⟨m₂, h₂, hmem₂⟩, ?_, ?_⟩
  · intro r hr
    rw [hr₂]
    exact spec_of_mem_finds hmem₂ hr
  · intro value' hsaw'
    rw [hr₂] at hsaw'
    obtain ⟨value₂, hmem', hw'⟩ := ReadCall.saw_spec hsaw'
    obtain rfl : value' = value₂ := by simpa using hw'
    have heq := m₂.eq_of_cmp_eq hmem' hmem₂ Std.ReflCmp.compare_self
    exact congrArg Prod.snd heq

/-- A `get` that starts before the key is linked and finds it, and then a `contains` on another
thread. -/
def lookups : List Label :=
  [.invoke 0 (.put ⟨[1], [10], 0⟩)] ++ steps 0 5 ++
    -- the search starts, then the key is linked
    [.invoke 1 (.read (.get [1]))] ++ steps 1 1 ++ steps 0 2 ++ steps 1 1 ++
    [.ret 1 (.value (some [10])), .invoke 2 (.read (.contains [1]))] ++ steps 2 2 ++
    [.ret 2 (.flag true), .ret 0 (.inserted none)]

theorem concurrent_reads_lookups :
    ∃ sl, SkipList.withCapacity bytewiseComparator 1024 true = .ok sl ∧
      (∃ s, exec step (State.init sl) lookups = some s) ∧
      ReadsLinearize bytewiseComparator true sl lookups := by
  obtain ⟨sl, hsl, s, hs⟩ : ∃ sl, SkipList.withCapacity bytewiseComparator 1024 true = .ok sl ∧
      ∃ s, exec step (State.init sl) lookups = some s := exists_exec (by decide +kernel)
  have hls : ∀ l ∈ lookups, l.Allowed true 0 := by decide
  exact ⟨sl, hsl, ⟨s, hs⟩, concurrent_reads bytewiseComparator (show 1024 ≤ 2 ^ 32 by decide) hsl
    hls hs⟩

end Concurrent

end StoneDb
