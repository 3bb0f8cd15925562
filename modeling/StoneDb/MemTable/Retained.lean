import StoneDb.MemTable.History

/-!
# What a MemTable retains

The level-0 chain of a MemTable, read with a cursor and decoded (`MemTable.retained`), is its
history: every successful write once, by user key, then the newest first
(`memtable_run_retained`).  The counters agree with it: `len` and `next_sequence` count the writes,
and `approximate_size` adds up the bytes of the stored keys and values (`Measured`).
-/

namespace StoneDb

/-- The entry that a stored pair encodes. -/
def decodePair (p : Bytes × Bytes) : Except Fault Entry := do
  let ikey := InternalKey.fromEncoded p.1
  return { key := ikey.userKey, value := p.2, sequence := ← ikey.sequence,
           valueType := ikey.valueType }

/-- The entries on the level-0 chain, in its order. -/
def MemTable.retained (mt : MemTable) : Except Fault (List Entry) := do
  (← scanForward mt.list).mapM decodePair

/-- The stored bytes of an entry: those of its internal key and of its value. -/
def Entry.bytes (e : Entry) : ℕ := e.pair.1.length + e.pair.2.length

variable {mt mt' : MemTable} {S : ℕ → Finset ℕ} {hist : List (Write × ℕ)} {n seq : ℕ} {w : Write}
  {m : OrderedMap internalKeyComparator.compareKey Bytes} {e e' : Entry}

theorem decodePair_pair (h : e.Numbered) : decodePair e.pair = .ok e := by
  have hfrom : InternalKey.fromEncoded e.pair.1 = .new e.key e.sequence e.valueType := rfl
  simp only [decodePair, hfrom, userKey_new _ h, sequence_new _ h, valueType_new _ h]
  rfl

theorem mapM_decodePair {es : List Entry} (h : ∀ e ∈ es, e.Numbered) :
    (es.map Entry.pair).mapM decodePair = .ok es := by
  induction es with
  | nil => rfl
  | cons e es ih =>
    obtain ⟨he, hes⟩ := List.forall_mem_cons.1 h
    rw [List.map_cons, List.mapM_cons, decodePair_pair he, ih hes]
    rfl

/-- A list of stored pairs is one of entries. -/
theorem exists_map_pair {ps : List (Bytes × Bytes)}
    (h : ∀ p ∈ ps, ∃ e : Entry, e.Numbered ∧ e.pair = p) :
    ∃ es : List Entry, (∀ e ∈ es, e.Numbered) ∧ es.map Entry.pair = ps := by
  induction ps with
  | nil => exact ⟨[], by simp, rfl⟩
  | cons p ps ih =>
    obtain ⟨⟨e, he, rfl⟩, hps⟩ := List.forall_mem_cons.1 h
    obtain ⟨es, hes, rfl⟩ := ih hps
    exact ⟨e :: es, List.forall_mem_cons.2 ⟨he, hes⟩, rfl⟩

/-! ### The order of the chain -/

/-- Before: a smaller user key, or a newer version of the same one. -/
def Entry.Before (e e' : Entry) : Prop :=
  compare e.key e'.key = .lt ∨ e.key = e'.key ∧ e'.sequence < e.sequence

/-- Entries with different numbers are stored by user key, the newest first. -/
theorem before_of_lt (h : e.Numbered) (h' : e'.Numbered) (hne : e.sequence ≠ e'.sequence)
    (hlt : internalKeyComparator.compareKey e.pair.1 e'.pair.1 = .lt) : e.Before e' := by
  rw [compareKey_pair h h', Ordering.then_eq_lt, Ordering.then_eq_lt] at hlt
  rcases hlt with hlt | ⟨heq, hlt | ⟨hseq, -⟩⟩
  · exact Or.inl hlt
  · exact Or.inr ⟨Std.LawfulEqCmp.eq_of_compare heq, compare_lt_iff_lt.1 hlt⟩
  · exact absurd (compare_eq_iff_eq.1 hseq).symm hne

/-- The entries of the history. -/
def entries (hist : List (Write × ℕ)) : List Entry := hist.map fun x => x.1.entry x.2

theorem Holds.numbered (h : Holds mt S hist n) : ∀ e ∈ entries hist, e.Numbered := fun e he => by
  obtain ⟨x, hx, rfl⟩ := List.mem_map.1 he
  exact (h.seq_le x hx).2

theorem Holds.eq_of_sequence (h : Holds mt S hist n) (he : e ∈ entries hist)
    (he' : e' ∈ entries hist) (hseq : e.sequence = e'.sequence) : e = e' := by
  obtain ⟨x, hx, rfl⟩ := List.mem_map.1 he
  obtain ⟨y, hy, rfl⟩ := List.mem_map.1 he'
  rw [h.eq_of_seq hx hy hseq]

theorem Holds.nodup (h : Holds mt S hist n) : (entries hist).Nodup := by
  rw [entries, List.Nodup, List.pairwise_map]
  exact h.sorted.imp fun hlt he => hlt.ne (congrArg Entry.sequence he)

/-- **The chain is the history**, sorted. -/
theorem Holds.retained (h : Holds mt S hist n) : ∃ es : List Entry,
    scanForward mt.list = .ok (es.map Entry.pair) ∧ mt.retained = .ok es ∧
      es.Perm (entries hist) ∧ es.Pairwise Entry.Before ∧ mt.list.len = .ok es.length := by
  obtain ⟨m, hm, hent⟩ := h.list
  have hmem : ∀ p, p ∈ m.entries ↔ ∃ e ∈ entries hist, e.pair = p := fun p => by
    rw [hent p]
    constructor
    · rintro ⟨x, hx, rfl⟩
      exact ⟨_, List.mem_map_of_mem hx, rfl⟩
    · rintro ⟨e, he, rfl⟩
      obtain ⟨x, hx, rfl⟩ := List.mem_map.1 he
      exact ⟨x, hx, rfl⟩
  obtain ⟨es, hnum, hes⟩ := exists_map_pair fun p hp => by
    obtain ⟨e, he, rfl⟩ := (hmem p).1 hp
    exact ⟨e, h.numbered e he, rfl⟩
  have hscan : scanForward mt.list = .ok (es.map Entry.pair) := by rw [hm.scanForward_eq, hes]
  have hsorted : es.Pairwise fun e e' =>
      internalKeyComparator.compareKey e.pair.1 e'.pair.1 = .lt := by
    have := m.sorted
    rwa [← hes, List.pairwise_map] at this
  have hiff : ∀ e, e ∈ es ↔ e ∈ entries hist := fun e => by
    constructor
    · intro he
      obtain ⟨e', he', heq⟩ := (hmem e.pair).1 (hes ▸ List.mem_map_of_mem he)
      rwa [← Entry.pair_inj (h.numbered e' he') (hnum e he) heq]
    · intro he
      obtain ⟨e', he', heq⟩ := List.mem_map.1 (hes ▸ (hmem e.pair).2 ⟨e, he, rfl⟩)
      rwa [← Entry.pair_inj (hnum e' he') (h.numbered e he) heq]
  have hnodup : es.Nodup := hsorted.imp fun {e e'} hlt he => by
    rw [he, show internalKeyComparator.compareKey e'.pair.1 e'.pair.1 = .eq from
      Std.ReflCmp.compare_self] at hlt
    cases hlt
  refine ⟨es, hscan, ?_, (List.perm_ext_iff_of_nodup hnodup h.nodup).2 hiff, ?_, ?_⟩
  · rw [MemTable.retained, hscan]
    exact mapM_decodePair hnum
  · refine List.Pairwise.imp_of_mem (fun {e e'} he he' hlt => ?_) (hsorted.and hnodup)
    refine before_of_lt (hnum e he) (hnum e' he') (fun hseq => hlt.2 ?_) hlt.1
    exact h.eq_of_sequence ((hiff e).1 he) ((hiff e').1 he') hseq
  · rw [hm.len_eq, OrderedMap.size, ← hes, List.length_map]

/-! ### The approximate size -/

/-- The approximate size is that of the stored entries, and they are in the arena. -/
structure Measured (mt : MemTable) (hist : List (Write × ℕ)) : Prop where
  size : mt.approximateSize = ((entries hist).map Entry.bytes).sum
  le_len : mt.approximateSize ≤ mt.list.arena.len

theorem Write.size_eq (h : w.Valid) : w.size = w.key.length + w.value.length + 8 := by
  have hle := h.size
  simp only [isizeMax] at hle
  cases w with
  | put key value height =>
    simp only [Write.key, Write.value] at hle
    rw [Write.size, wrappingAdd_eq (a := key.length) (by omega), wrappingAdd_eq (by omega)]
    rfl
  | delete key height =>
    simp only [Write.key, Write.value, List.length_nil] at hle
    rw [Write.size, wrappingAdd_eq (by omega)]
    rfl

theorem Write.bytes_entry (w : Write) (h : seq ≤ maxSequence) :
    (w.entry seq).bytes = w.key.length + w.value.length + 8 := by
  have hkey : (w.entry seq).pair.1.length = w.key.length + 8 := w.length_ikey h
  have hvalue : (w.entry seq).pair.2 = w.value := rfl
  rw [Entry.bytes, hkey, hvalue]
  omega

/-- A successful call adds its bytes to the approximate size, and at least as many to the arena. -/
theorem Measured.run (hms : Measured mt hist) (h : Holds mt S hist n) (hseq : n + 1 ≤ maxSequence)
    (hw : w.Valid) (hcap : mt.list.arena.capacity ≤ 2 ^ 32)
    (hrun : w.run mt = .ok (.ok (n + 1)) mt') : Measured mt' (hist ++ [(w, n + 1)]) := by
  obtain ⟨m, hm, hent⟩ := h.list
  have hnext : mt.nextSequence = n + 1 := by
    rw [h.next, Nat.mod_eq_of_lt (hseq.trans_lt (by decide))]
  have hnone : m.getWithKey (w.ikey (n + 1)) = none := h.absent hseq hent
  have hbytes := w.bytes_entry hseq
  have hsize := Write.size_eq hw
  have hlen := w.length_ikey hseq
  rcases hm.put_cases hw.height (Write.sized_of_le hcap hw (n + 1) hseq) with
    ⟨p, hp, -⟩ | ⟨-, ⟨-, hput⟩ | ⟨sl', S', node, hput, hadd⟩⟩
  · rw [hnone] at hp
    cases hp
  · rw [← hnext] at hput
    rw [w.run_panic (hnext ▸ hseq) hput] at hrun
    cases hrun
  · have hroom := hadd.wf.len_le
    rw [hadd.grows.capacity, hadd.len] at hroom
    have hnode : (w.entry (n + 1)).bytes ≤ nodeBytes (w.ikey (n + 1)) w.value w.height := by
      simp only [nodeBytes]
      omega
    have hle := hms.le_len
    rw [← hnext] at hput
    rw [w.run_put (hnext ▸ hseq) hput] at hrun
    obtain ⟨-, rfl⟩ := EStateM.Result.ok.inj hrun
    have happrox : wrappingAdd mt.approximateSize w.size =
        mt.approximateSize + (w.entry (n + 1)).bytes := by
      rw [wrappingAdd_eq (by omega), hsize, hbytes]
    constructor
    · simp only [happrox, entries, List.map_append, List.sum_append, List.map_cons, List.map_nil,
        List.sum_cons, List.sum_nil, Nat.add_zero]
      rw [hms.size, entries]
    · simp only [happrox, hadd.len]
      omega

/-- **The retained state is the history**: after every run of `put` and `delete` calls without
panics, on an arena of at most `2^32` bytes, the level-0 chain decodes to each successful call once,
by user key and then by descending sequence number; `len`, `next_sequence` and `approximate_size`
agree with it, and the approximate size is at most what the arena has handed out. -/
theorem memtable_run_retained {id capacity : ℕ} (hcap : capacity ≤ 2 ^ 32)
    (hnew : MemTable.withCapacity id capacity = .ok mt) {ws : List Write}
    (hws : ∀ w ∈ ws, w.Valid) {rs : List (Except Error ℕ)} (hrun : runWrites ws mt = .ok rs mt') :
    ∃ seqs es, rs = seqs.map .ok ∧ seqs.length = ws.length ∧ mt'.retained = .ok es ∧
      es.Perm ((ws.zip seqs).map fun x => x.1.entry x.2) ∧ es.Pairwise Entry.Before ∧
      mt'.len = .ok ws.length ∧ mt'.nextSequence = ws.length + 1 ∧
      (∃ ps, scanForward mt'.list = .ok ps ∧
        mt'.approximateSize = (ps.map fun p => p.1.length + p.2.length).sum) ∧
      mt'.approximateSize ≤ mt'.list.arena.len := by
  obtain ⟨hholds, hcap', -⟩ := holds_withCapacity hnew
  have hmeasured : Measured mt [] := by
    obtain ⟨sl, -, rfl⟩ := withCapacity_ok hnew
    exact ⟨rfl, Nat.zero_le _⟩
  obtain ⟨seqs, S', rfl, hlen, hholds', hbound, hms⟩ := hholds.runWrites_induction (P := Measured)
    (fun h hseq hw hcap hrun hms => hms.run h hseq hw hcap hrun) hmeasured rfl (hcap' ▸ hcap) hws
    hrun
  rw [List.nil_append, Nat.zero_add] at hholds'
  rw [List.nil_append] at hms
  obtain ⟨es, hscan, hes, hperm, hsorted, hlen'⟩ := hholds'.retained
  have hcount : es.length = ws.length := by
    rw [hperm.length_eq, entries, List.length_map, List.length_zip, hlen, Nat.min_self]
  refine ⟨seqs, es, rfl, hlen, hes, hperm, hsorted, hcount ▸ hlen', ?_, ⟨_, hscan, ?_⟩, hms.le_len⟩
  · rw [hholds'.next, Nat.mod_eq_of_lt]
    simp only [maxSequence] at hbound
    omega
  · rw [hms.size, List.map_map]
    exact (hperm.map Entry.bytes).sum_nat.symm

/-- Two versions of one key and another key before it. -/
theorem memtable_run_retained_sample :
    ∃ mt, MemTable.withCapacity 0 1024 = .ok mt ∧
      ∃ rs mt', runWrites [.put [2] [7] 0, .delete [2] 1, .put [1] [8] 2] mt = .ok rs mt' ∧
        ∃ (seqs : List ℕ) (es : List Entry), rs = seqs.map .ok ∧ seqs.length = 3 ∧
          mt'.retained = .ok es ∧ es.Pairwise Entry.Before ∧ mt'.len = .ok 3 := by
  have hok : (MemTable.withCapacity 0 1024).toOption.all (fun mt =>
      runWrites [.put [2] [7] 0, .delete [2] 1, .put [1] [8] 2] mt matches .ok ..) = true := by
    decide +kernel
  obtain ⟨mt, hmt⟩ : ∃ mt, MemTable.withCapacity 0 1024 = .ok mt := ⟨_, rfl⟩
  rw [hmt] at hok
  cases hrun : runWrites [.put [2] [7] 0, .delete [2] 1, .put [1] [8] 2] mt with
  | error e mt' => simp [hrun, Except.toOption] at hok
  | ok rs mt' =>
    obtain ⟨seqs, es, hrs, hlen, hes, -, hsorted, hcount, -⟩ :=
      memtable_run_retained (show 1024 ≤ 2 ^ 32 by decide) hmt (fun w hw => by
        simp only [List.mem_cons, List.not_mem_nil, or_false] at hw
        rcases hw with rfl | rfl | rfl <;> exact ⟨by decide, by decide⟩) hrun
    exact ⟨mt, hmt, rs, mt', hrun, seqs, es, hrs, hlen, hes, hsorted, hcount⟩

end StoneDb
