import StoneDb.MemTable.Versions

/-!
# A MemTable holds its history

`Holds mt S hist n`: after `n` calls the list of the MemTable contains exactly one node for each of
the successful writes `hist`, under the sequence number it returned.  A call adds its node, unless
it is refused or panics (`Holds.run`), as long as the counter has not wrapped.

As long as the counter has not reached the last number, `lookup` finds the newest version of a user
key, which is the last write to it (`Holds.lookup_eq`), so reads report the last write
(`memtable_run_reads`).
-/

namespace StoneDb

/-- The list of a MemTable holds the writes `hist`, with their sequence numbers, after `n` calls. -/
structure Holds (mt : MemTable) (S : ℕ → Finset ℕ) (hist : List (Write × ℕ)) (n : ℕ) : Prop where
  list : ∃ m, Refines internalKeyComparator mt.list S m ∧
    ∀ p, p ∈ m.entries ↔ ∃ h ∈ hist, p = (h.1.ikey h.2, h.1.value)
  next : mt.nextSequence = (n + 1) % 2 ^ 64
  seq_le : ∀ h ∈ hist, h.2 ≤ n ∧ h.2 ≤ maxSequence
  sorted : hist.Pairwise fun h h' => h.2 < h'.2

variable {mt mt' : MemTable} {S : ℕ → Finset ℕ} {hist : List (Write × ℕ)} {n seq : ℕ} {w : Write}
  {k : Bytes}

/-! ### One call -/

/-- What `put` and `delete` add to the approximate size. -/
def Write.size : Write → ℕ
  | .put key value _ => wrappingAdd (wrappingAdd key.length value.length) 8
  | .delete key _ => wrappingAdd key.length 8

/-- The MemTable after a call that took its sequence number. -/
def MemTable.advance (mt : MemTable) : MemTable :=
  { mt with nextSequence := wrappingAdd mt.nextSequence 1 }

theorem Write.run_overflow (w : Write) (h : maxSequence < mt.nextSequence) :
    w.run mt = .ok (.error .sequenceOverflow) mt.advance := by
  cases w <;>
  simp only [Write.run, MemTable.put, MemTable.delete, MemTable.fetchAddSequence, bind,
    EStateM.bind, h, if_true] <;> rfl

/-- A write below the maximal sequence number is a `put` of the list. -/
theorem Write.run_eq (w : Write) (h : mt.nextSequence ≤ maxSequence) : w.run mt =
    match SkipList.put (w.ikey mt.nextSequence) w.value w.height mt.list with
    | .ok _ list => .ok (.ok mt.nextSequence) { mt.advance with
        list, approximateSize := wrappingAdd mt.approximateSize w.size }
    | .error e list => .error e { mt.advance with list } := by
  have h' : ¬ maxSequence < mt.nextSequence := not_lt.2 h
  cases w with
  | put key value height =>
    simp only [Write.run, MemTable.put, MemTable.fetchAddSequence, bind, EStateM.bind, h', if_false,
      MemTable.onList, InternalKey.newPut, Write.ikey, Write.key, Write.value, Write.valueType,
      Write.height]
    cases SkipList.put (InternalKey.new key mt.nextSequence .value).encoded value height mt.list
      <;> rfl
  | delete key height =>
    simp only [Write.run, MemTable.delete, MemTable.fetchAddSequence, bind, EStateM.bind, h',
      if_false, MemTable.onList, InternalKey.newDelete, Write.ikey, Write.key, Write.value,
      Write.valueType, Write.height]
    cases SkipList.put (InternalKey.new key mt.nextSequence .delete).encoded [] height mt.list
      <;> rfl

theorem Write.run_put (w : Write) (h : mt.nextSequence ≤ maxSequence)
    {r : Option (Bytes × Bytes)} {list : SkipList}
    (hput : SkipList.put (w.ikey mt.nextSequence) w.value w.height mt.list = .ok r list) :
    w.run mt = .ok (.ok mt.nextSequence) { mt.advance with
      list, approximateSize := wrappingAdd mt.approximateSize w.size } := by
  rw [w.run_eq h, hput]

theorem Write.run_panic (w : Write) (h : mt.nextSequence ≤ maxSequence) {e : Fault}
    {list : SkipList}
    (hput : SkipList.put (w.ikey mt.nextSequence) w.value w.height mt.list = .error e list) :
    w.run mt = .error e { mt.advance with list } := by
  rw [w.run_eq h, hput]

/-- The node of a write can be laid out in the arena, with its full key. -/
def Write.Sized (capacity : ℕ) (w : Write) : Prop :=
  ∀ seq ≤ maxSequence, KeySized capacity (w.ikey seq) w.value

/-- The write that the node of a write holds: the length of the value is cut to a `u32`. -/
def Write.stored : Write → Write
  | .put key value height => .put key (storedValue value) height
  | .delete key height => .delete key height

@[simp] theorem Write.ikey_stored (w : Write) (seq : ℕ) : w.stored.ikey seq = w.ikey seq := by
  cases w <;> rfl

@[simp] theorem Write.value_stored (w : Write) : w.stored.value = storedValue w.value := by
  cases w <;> rfl

theorem Write.stored_eq (h : storedValue w.value = w.value) : w.stored = w := by
  cases w with
  | put key value height => exact congrArg (Write.put key · height) h
  | delete key height => rfl

theorem Write.length_ikey (w : Write) (h : seq ≤ maxSequence) :
    (w.ikey seq).length = w.key.length + 8 := by
  rw [Write.ikey, encoded_new _ h]
  simp

theorem Write.sized_of_le {capacity : ℕ} (hc : capacity ≤ 2 ^ 32) (h : w.Valid) :
    w.Sized capacity := fun seq hseq =>
  (StoneDb.sized_of_le hc (by
    have := h.size
    rw [w.length_ikey hseq]
    simp only [isizeMax] at *
    omega)).keySized

/-- The internal key fits its `u32` length field, and the arena and the slices are in one address
space, with room for the header and the tower of a node. -/
structure Write.KeyFits (capacity : ℕ) (w : Write) : Prop where
  key : w.key.length + 8 < 2 ^ 32
  no_wrap : capacity + (w.key.length + 8 + w.value.length) + 192 ≤ 2 ^ 64

theorem Write.KeyFits.sized {capacity : ℕ} (h : w.KeyFits capacity) : w.Sized capacity :=
  fun seq hseq => by
    have hlen := w.length_ikey hseq
    have hkey := h.key
    have hwrap := h.no_wrap
    exact ⟨by omega, Or.inr (by omega)⟩

/-- Different sequence numbers give different internal keys. -/
theorem Write.seq_of_ikey_eq {w' : Write} {seq' : ℕ} (h : seq ≤ maxSequence)
    (h' : seq' ≤ maxSequence) (he : w.ikey seq = w'.ikey seq') : seq = seq' :=
  (new_inj h h' he).2.1

/-- How a call on a MemTable that holds `hist` ends: refused, panicked, or with its node added. -/
inductive Ends (mt : MemTable) (S : ℕ → Finset ℕ) (hist : List (Write × ℕ)) (n : ℕ) (w : Write) :
    Prop where
  | refused (hseq : maxSequence < n + 1)
      (hrun : w.run mt = .ok (.error .sequenceOverflow) mt.advance)
      (hholds : Holds mt.advance S hist (n + 1))
  | panicked (hseq : n + 1 ≤ maxSequence) (hrun : w.run mt = .error .outOfMemory mt.advance)
      (hholds : Holds mt.advance S hist (n + 1))
  | added (hseq : n + 1 ≤ maxSequence) (mt' : MemTable) (S' : ℕ → Finset ℕ)
      (hrun : w.run mt = .ok (.ok (n + 1)) mt')
      (hholds : Holds mt' S' (hist ++ [(w.stored, n + 1)]) (n + 1))
      (hcap : mt'.list.arena.capacity = mt.list.arena.capacity)
      (hstored : mt.list.arena.capacity ≤ 2 ^ 32 → w.stored = w)

/-- The counter moves on, whatever happens. -/
theorem Holds.advance (h : Holds mt S hist n) : Holds mt.advance S hist (n + 1) where
  list := h.list
  next := by
    simp only [MemTable.advance, wrappingAdd, h.next]
    omega
  seq_le x hx := ⟨(h.seq_le x hx).1.trans (Nat.le_succ n), (h.seq_le x hx).2⟩
  sorted := h.sorted

/-- The number is new, so the internal key is. -/
theorem Holds.ikey_ne (h : Holds mt S hist n) (hseq : n + 1 ≤ maxSequence) :
    ∀ x ∈ hist, x.1.ikey x.2 ≠ w.ikey (n + 1) := fun x hx he => by
  have hle := (h.seq_le x hx).1
  have := Write.seq_of_ikey_eq (h.seq_le x hx).2 hseq he
  omega

theorem Holds.absent (h : Holds mt S hist n) (hseq : n + 1 ≤ maxSequence)
    {m : OrderedMap internalKeyComparator.compareKey Bytes}
    (hent : ∀ p, p ∈ m.entries ↔ ∃ h ∈ hist, p = (h.1.ikey h.2, h.1.value)) :
    m.getWithKey (w.ikey (n + 1)) = none := by
  refine (OrderedMap.getWithKey_eq_none_iff m).2 fun q hq heq => ?_
  obtain ⟨x, hx, rfl⟩ := (hent q).1 hq
  exact h.ikey_ne hseq x hx (Std.LawfulEqCmp.eq_of_compare heq)

/-- **One call**, as long as the counter has not wrapped. -/
theorem Holds.run (h : Holds mt S hist n) (hn : n + 1 < 2 ^ 64) (hh : w.height < maxHeight)
    (hsz : w.Sized mt.list.arena.capacity) : Ends mt S hist n w := by
  have hnext : mt.nextSequence = n + 1 := by rw [h.next, Nat.mod_eq_of_lt hn]
  by_cases hseq : maxSequence < n + 1
  · exact .refused hseq (w.run_overflow (hnext ▸ hseq)) h.advance
  have hseq' : n + 1 ≤ maxSequence := not_lt.1 hseq
  have hseq'' : mt.nextSequence ≤ maxSequence := hnext ▸ hseq'
  obtain ⟨m, hm, hent⟩ := h.list
  have hnone : m.getWithKey (w.ikey (n + 1)) = none := h.absent hseq' hent
  have hsz' := hsz (n + 1) hseq'
  rcases hm.put_cases hh hsz' with
    ⟨p, hp, -⟩ | ⟨-, ⟨-, hput⟩ | ⟨sl', S', node, hput, hadd⟩⟩
  · rw [hnone] at hp
    cases hp
  · rw [← hnext] at hput
    exact .panicked hseq' (w.run_panic hseq'' hput) h.advance
  · rw [← hnext] at hput
    have hrun := w.run_put hseq'' hput
    rw [hnext] at hrun
    refine .added hseq' _ S' hrun ⟨⟨_, hm.added hadd hnone, ?_⟩, h.advance.next, ?_, ?_⟩
      hadd.grows.capacity fun hcap => Write.stored_eq (hadd.storedValue ⟨hsz'.no_wrap, Or.inl hcap⟩)
    · intro p
      rw [(m.insertIfAbsent_of_absent _ hnone).2 p, hent p, ← w.value_stored, ← w.ikey_stored]
      simp only [List.mem_append, List.mem_singleton]
      constructor
      · rintro (rfl | ⟨x, hx, rfl⟩)
        · exact ⟨_, Or.inr rfl, rfl⟩
        · exact ⟨x, Or.inl hx, rfl⟩
      · rintro ⟨x, hx | rfl, rfl⟩
        · exact Or.inr ⟨x, hx, rfl⟩
        · exact Or.inl rfl
    · intro x hx
      rcases List.mem_append.1 hx with hx | hx
      · exact h.advance.seq_le x hx
      · obtain rfl := List.mem_singleton.1 hx
        exact ⟨le_rfl, hseq'⟩
    · refine List.pairwise_append.2 ⟨h.sorted, List.pairwise_singleton _ _, fun x hx y hy => ?_⟩
      obtain rfl := List.mem_singleton.1 hy
      exact Nat.lt_succ_of_le (h.seq_le x hx).1

/-- A new MemTable has a new list, and its counters at the start. -/
theorem withCapacity_ok {id capacity : ℕ} (h : MemTable.withCapacity id capacity = .ok mt) :
    ∃ sl, SkipList.withCapacity internalKeyComparator capacity false = .ok sl ∧
      mt = ⟨sl, 1, 0, id⟩ := by
  unfold MemTable.withCapacity at h
  cases hlist : SkipList.withCapacity internalKeyComparator capacity false with
  | error e => simp [hlist, bind, Except.bind] at h
  | ok sl =>
    simp only [hlist, bind, Except.bind, pure, Except.pure, Except.ok.injEq] at h
    exact ⟨sl, rfl, h.symm⟩

/-- A new MemTable holds nothing. -/
theorem holds_withCapacity {id capacity : ℕ} (h : MemTable.withCapacity id capacity = .ok mt) :
    Holds mt (fun _ => ∅) [] 0 ∧ mt.list.arena.capacity = capacity ∧ capacity ≤ isizeMax - 7 := by
  obtain ⟨sl, hlist, rfl⟩ := withCapacity_ok h
  obtain ⟨-, -, hcap, -, hle⟩ := wf_withCapacity hlist
  exact ⟨⟨⟨_, refines_withCapacity hlist, by simp [OrderedMap.empty]⟩, rfl, by simp, by simp⟩,
    hcap, hle⟩

/-! ### Reads -/

/-- The last of the writes `hist` to the user key `k`. -/
def lastWrite (k : Bytes) (hist : List (Write × ℕ)) : Option (Write × ℕ) :=
  (hist.filter fun h => h.1.key = k).getLast?

theorem lastWrite_eq_none_iff : lastWrite k hist = none ↔ ∀ x ∈ hist, x.1.key ≠ k := by
  simp [lastWrite]

/-- The last write to a key has its greatest sequence number. -/
theorem lastWrite_eq_some (hsorted : hist.Pairwise fun h h' => h.2 < h'.2) {x : Write × ℕ}
    (hx : lastWrite k hist = some x) :
    x ∈ hist ∧ x.1.key = k ∧ ∀ y ∈ hist, y.1.key = k → y.2 ≤ x.2 := by
  obtain ⟨l, hl⟩ := List.getLast?_eq_some_iff.1 hx
  have hmem : ∀ y, y ∈ hist ∧ y.1.key = k ↔ y ∈ l ∨ y = x := fun y => by
    have : y ∈ hist.filter (fun h => h.1.key = k) ↔ y ∈ l ++ [x] := by rw [hl]
    simpa using this
  have hlast : ∀ y ∈ l, y.2 < x.2 := fun y hy =>
    (List.pairwise_append.1 (hl ▸ hsorted.filter _)).2.2 y hy x (List.mem_singleton_self x)
  obtain ⟨hxm, hxk⟩ := (hmem x).2 (Or.inr rfl)
  refine ⟨hxm, hxk, fun y hy hyk => ?_⟩
  rcases (hmem y).1 ⟨hy, hyk⟩ with hyl | rfl
  · exact (hlast y hyl).le
  · exact le_rfl

/-- What a write is read back as. -/
def Write.entry (w : Write) (seq : ℕ) : Entry := ⟨w.key, w.value, seq, w.valueType⟩

/-- One number, one write. -/
theorem Holds.eq_of_seq (h : Holds mt S hist n) {x y : Write × ℕ} (hx : x ∈ hist) (hy : y ∈ hist)
    (hseq : x.2 = y.2) : x = y := by
  by_contra hne
  have hsymm : Std.Symm fun a b : Write × ℕ => a.2 ≠ b.2 := ⟨fun a b hab => hab.symm⟩
  have hdist : hist.Pairwise fun a b => a.2 ≠ b.2 := h.sorted.imp fun hab => hab.ne
  exact hdist.forall hx hy hne hseq

/-- **`lookup`** reports the last write to the key. -/
theorem Holds.lookup_eq (h : Holds mt S hist n) (hn : n < maxSequence) (k : Bytes) :
    mt.lookup k = .ok ((lastWrite k hist).map fun x => x.1.entry x.2) := by
  obtain ⟨m, hm, hent⟩ := h.list
  have hstored : ∀ p ∈ m.entries, ∃ x ∈ hist, (x.1.entry x.2).pair = p := fun p hp => by
    obtain ⟨x, hx, rfl⟩ := (hent p).1 hp
    exact ⟨x, hx, rfl⟩
  have hnum : ∀ {x}, x ∈ hist → (x.1.entry x.2).Numbered := fun hx => (h.seq_le _ hx).2
  have henc : Encoded m := fun p hp => by
    obtain ⟨x, hx, rfl⟩ := hstored p hp
    exact ⟨_, hnum hx, rfl⟩
  -- the counter is not at the last number, so the search key misses nothing
  have hlast : ∀ {x}, x ∈ hist → ¬ (x.1.entry x.2).Last := fun {x} hx hl => by
    have hle := (h.seq_le x hx).1
    have heq : x.2 = maxSequence := hl.1
    omega
  have hof : ∀ {e : Entry}, e.pair ∈ m.entries → e.Numbered → ∃ x ∈ hist, x.1.entry x.2 = e :=
    fun hp he => by
      obtain ⟨x, hx, hpair⟩ := hstored _ hp
      exact ⟨x, hx, Entry.pair_inj (hnum hx) he hpair⟩
  cases hlw : lastWrite k hist with
  | some x =>
    obtain ⟨hx, hxk, hmax⟩ := lastWrite_eq_some h.sorted hlw
    obtain ⟨e, hlookup, he, hek, -, hmem, hnewest⟩ := hm.lookup_of_reached henc
      ((hent _).2 ⟨x, hx, rfl⟩) (hnum hx) (show (x.1.entry x.2).key = k from hxk) (hlast hx)
    obtain ⟨y, hy, rfl⟩ := hof hmem he
    have hxy : x.2 ≤ y.2 := hnewest (x.1.entry x.2) ((hent _).2 ⟨x, hx, rfl⟩) (hnum hx) hxk
      (hlast hx)
    rw [hlookup, h.eq_of_seq hy hx (le_antisymm (hmax y hy hek) hxy)]
    rfl
  | none =>
    rw [lastWrite_eq_none_iff] at hlw
    refine hm.lookup_of_unreached henc fun e hmem he hek => ?_
    obtain ⟨y, hy, rfl⟩ := hof hmem he
    exact absurd hek (hlw y hy)

/-- The value that a write leaves visible: none for a delete. -/
def Write.visible : Write → Option Bytes
  | .put _ value _ => some value
  | .delete _ _ => none

/-- The reads of `mt` are those of the history `hist`. -/
structure ReadsHistory (mt : MemTable) (hist : List (Write × ℕ)) : Prop where
  get : ∀ k, mt.get k = .ok (.ok ((lastWrite k hist).bind fun x => x.1.visible))
  contains : ∀ k, mt.contains k = .ok (hist.any fun x => x.1.key = k)
  getEntry : ∀ k, mt.getEntry k = .ok (.ok ((lastWrite k hist).map fun x => x.1.entry x.2))

theorem Holds.reads (h : Holds mt S hist n) (hn : n < maxSequence) : ReadsHistory mt hist where
  get k := by
    simp only [MemTable.get, h.lookup_eq hn k, bind, Except.bind]
    cases lastWrite k hist with
    | none => rfl
    | some x =>
      obtain ⟨w, seq⟩ := x
      cases w <;> rfl
  contains k := by
    simp only [MemTable.contains, h.lookup_eq hn k, bind, Except.bind, pure, Except.pure,
      Option.isSome_map]
    congr 1
    rw [Bool.eq_iff_iff, ← Option.ne_none_iff_isSome, ne_eq, lastWrite_eq_none_iff]
    simp
  getEntry k := by
    simp only [MemTable.getEntry, h.lookup_eq hn k, bind, Except.bind]
    rfl

/-! ### Runs -/

/-- The writes have different internal keys, so each takes a node of its own. -/
theorem Holds.length_le (h : Holds mt S hist n) : hist.length ≤ mt.list.arena.capacity := by
  obtain ⟨m, hm, hent⟩ := h.list
  have hnodup : (hist.map fun x => (x.1.ikey x.2, x.1.value)).Nodup := by
    rw [List.Nodup, List.pairwise_map]
    refine h.sorted.imp_of_mem fun {x y} hx hy hlt he => ?_
    have := Write.seq_of_ikey_eq (h.seq_le x hx).2 (h.seq_le y hy).2 (congrArg Prod.fst he)
    omega
  have hsub : (hist.map fun x => (x.1.ikey x.2, x.1.value)) ⊆ m.entries := fun p hp => by
    obtain ⟨x, hx, rfl⟩ := List.mem_map.1 hp
    exact (hent _).2 ⟨x, hx, rfl⟩
  have hle := (List.subperm_of_subset hnodup hsub).length_le
  rw [List.length_map] at hle
  have hsize := hm.size_eq
  have hcard := hm.wf.card_le 0
  simp only [OrderedMap.size] at hsize
  omega

theorem runWrites_cons_ok {ws : List Write} {rs : List (Except Error ℕ)}
    (h : runWrites (w :: ws) mt = .ok rs mt') :
    ∃ r mt₁ rs', w.run mt = .ok r mt₁ ∧ runWrites ws mt₁ = .ok rs' mt' ∧ rs = r :: rs' := by
  simp only [runWrites, bind, EStateM.bind] at h
  cases hrun : w.run mt with
  | error e mt₁ => simp [hrun] at h
  | ok r mt₁ =>
    simp only [hrun] at h
    cases hruns : runWrites ws mt₁ with
    | error e mt₂ => simp [hruns] at h
    | ok rs' mt₂ =>
      simp only [hruns, pure, EStateM.pure, EStateM.Result.ok.injEq] at h
      obtain ⟨rfl, rfl⟩ := h
      exact ⟨r, mt₁, rs', rfl, hruns, rfl⟩

theorem runWrites_prefix_ok {ws ws' : List Write} {rs : List (Except Error ℕ)}
    (h : runWrites (ws ++ ws') mt = .ok rs mt') : ∃ rs₁ mt₁, runWrites ws mt = .ok rs₁ mt₁ := by
  induction ws generalizing mt rs with
  | nil => exact ⟨[], mt, rfl⟩
  | cons w ws ih =>
    obtain ⟨r, mt₁, rs', hrun, hruns, -⟩ := runWrites_cons_ok h
    obtain ⟨rs₁, mt₂, hruns'⟩ := ih hruns
    exact ⟨r :: rs₁, mt₂, by simp only [runWrites, bind, EStateM.bind, hrun, hruns']; rfl⟩

/-- **Induction along a run.**  In an arena of `2^32` bytes a run without panics is a run of
successes, since the arena is exhausted long before the sequence numbers; what every successful call
preserves holds at its end. -/
theorem Holds.runWrites_induction {P : MemTable → List (Write × ℕ) → Prop}
    (hstep : ∀ {mt mt' : MemTable} {S : ℕ → Finset ℕ} {hist : List (Write × ℕ)} {n : ℕ} {w : Write},
      Holds mt S hist n → n + 1 ≤ maxSequence → w.Valid → mt.list.arena.capacity ≤ 2 ^ 32 →
      w.run mt = .ok (.ok (n + 1)) mt' → P mt hist → P mt' (hist ++ [(w, n + 1)]))
    {ws : List Write} {rs : List (Except Error ℕ)} (h : Holds mt S hist n) (hP : P mt hist)
    (hlen : hist.length = n) (hcap : mt.list.arena.capacity ≤ 2 ^ 32) (hws : ∀ w ∈ ws, w.Valid)
    (hrun : runWrites ws mt = .ok rs mt') :
    ∃ seqs S', rs = seqs.map .ok ∧ seqs.length = ws.length ∧
      Holds mt' S' (hist ++ ws.zip seqs) (n + ws.length) ∧ n + ws.length < maxSequence ∧
      P mt' (hist ++ ws.zip seqs) := by
  have hle := h.length_le
  have hbound : n + 1 < maxSequence := by simp only [maxSequence]; omega
  induction ws generalizing mt S hist n rs with
  | nil =>
    cases hrun
    exact ⟨[], S, rfl, rfl, by simpa using h, by simp only [List.length_nil]; omega,
      by simpa using hP⟩
  | cons w ws ih =>
    obtain ⟨hw, hws⟩ := List.forall_mem_cons.1 hws
    obtain ⟨r, mt₁, rs', hrun₁, hruns, rfl⟩ := runWrites_cons_ok hrun
    have hn : n + 1 < 2 ^ 64 := hbound.trans (by decide)
    cases h.run hn hw.height (Write.sized_of_le hcap hw) with
    | refused hseq => omega
    | panicked _ hpanic =>
      rw [hpanic] at hrun₁
      cases hrun₁
    | added hseq mt₂ S₁ hadd hholds hcap₁ hstored =>
      rw [hstored hcap] at hholds
      have hP₁ := hstep h hseq hw hcap hadd hP
      rw [hadd] at hrun₁
      cases hrun₁
      have hle₁ := hholds.length_le
      have hlen₁ : (hist ++ [(w, n + 1)]).length = n + 1 := by simp [hlen]
      rw [hcap₁] at hle₁
      obtain ⟨seqs, S', rfl, hlen', hholds', hbound', hP'⟩ := ih hholds hP₁ hlen₁ (hcap₁ ▸ hcap) hws
        hruns hholds.length_le (by simp only [maxSequence]; omega)
      refine ⟨(n + 1) :: seqs, S', rfl, by simp [hlen'], ?_, ?_, ?_⟩
      · simpa [Nat.add_assoc, Nat.add_comm 1] using hholds'
      · rw [List.length_cons]
        omega
      · simpa using hP'

/-- **A MemTable reads its last write**: along every run of `put` and `delete` calls without panics
on a MemTable with an arena of at most `2^32` bytes, after any prefix of the run every read reports
the last write to its key, with the sequence number that its call returned. -/
theorem memtable_run_reads {id capacity : ℕ} (hcap : capacity ≤ 2 ^ 32)
    (hnew : MemTable.withCapacity id capacity = .ok mt) {ws : List Write}
    (hws : ∀ w ∈ ws, w.Valid) {rs : List (Except Error ℕ)} (hrun : runWrites ws mt = .ok rs mt')
    {done : List Write} (hdone : done <+: ws) :
    ∃ seqs mt₁, runWrites done mt = .ok (seqs.map .ok) mt₁ ∧ seqs.length = done.length ∧
      ReadsHistory mt₁ (done.zip seqs) := by
  obtain ⟨rest, rfl⟩ := hdone
  obtain ⟨rs₁, mt₁, hrun₁⟩ := runWrites_prefix_ok hrun
  obtain ⟨hholds, hcap', -⟩ := holds_withCapacity hnew
  obtain ⟨seqs, S', rfl, hlen, hholds', hbound, -⟩ := hholds.runWrites_induction
    (P := fun _ _ => True) (fun _ _ _ _ _ _ => trivial) trivial rfl (hcap' ▸ hcap)
    (fun w hw => hws w (List.mem_append_left _ hw)) hrun₁
  exact ⟨seqs, mt₁, hrun₁, hlen, by simpa using hholds'.reads hbound⟩

/-- A key that is a prefix of another, overwritten and deleted. -/
theorem memtable_run_reads_sample :
    ∃ mt, MemTable.withCapacity 0 1024 = .ok mt ∧
      ∃ seqs mt₁, runWrites [.put [1] [7] 0, .put [1, 0] [8] 2, .delete [1] 1] mt =
          .ok (seqs.map .ok) mt₁ ∧
        seqs.length = [Write.put [1] [7] 0, .put [1, 0] [8] 2, .delete [1] 1].length ∧
        ReadsHistory mt₁ ([Write.put [1] [7] 0, .put [1, 0] [8] 2, .delete [1] 1].zip seqs) := by
  have hok : (MemTable.withCapacity 0 1024).toOption.all (fun mt =>
      runWrites [.put [1] [7] 0, .put [1, 0] [8] 2, .delete [1] 1] mt matches .ok ..) = true := by
    decide +kernel
  obtain ⟨mt, hmt⟩ : ∃ mt, MemTable.withCapacity 0 1024 = .ok mt := ⟨_, rfl⟩
  rw [hmt] at hok
  cases hrun : runWrites [.put [1] [7] 0, .put [1, 0] [8] 2, .delete [1] 1] mt with
  | error e mt₁ => simp [hrun, Except.toOption] at hok
  | ok rs mt₁ =>
    refine ⟨mt, hmt, memtable_run_reads (show 1024 ≤ 2 ^ 32 by decide) hmt (fun w hw => ?_) hrun
      (List.prefix_refl _)⟩
    simp only [List.mem_cons, List.not_mem_nil, or_false] at hw
    rcases hw with rfl | rfl | rfl <;> exact ⟨by decide, by decide⟩

end StoneDb
