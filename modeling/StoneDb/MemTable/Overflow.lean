import StoneDb.MemTable.History

/-!
# Sequence numbers

What a run of writes, panics caught, does to the sequence numbers (`SequencesOk`): successful calls
return strictly increasing numbers, none of them finds its key in the list, and none follows a call
that was refused.

This holds of every run of fewer than `2^64` calls (`memtable_sequences`).  The counter moves on
when a call is refused, so after `2^64` calls the numbers come again from `1`: a call on the key of
the first one then succeeds, after refusals, and writes nothing (`memtable_sequences_wrap`).
-/

namespace StoneDb

variable {mt mt' : MemTable} {S : ℕ → Finset ℕ} {hist : List (Write × ℕ)} {n seq : ℕ} {w : Write}
  {ws : List Write}

/-- The sequence number of a successful call. -/
def Outcome.seq? : Outcome → Option ℕ
  | ok seq => some seq
  | _ => none

/-- The sequence numbers of a run are distinct, and every successful call added its node. -/
structure SequencesOk (mt : MemTable) (ws : List Write) : Prop where
  /-- Successful calls return strictly increasing sequence numbers. -/
  increasing : ((runOutcomes ws mt).1.filterMap Outcome.seq?).Pairwise (· < ·)
  /-- A successful call finds its internal key absent and leaves it present, with its value. -/
  added : ∀ done w, done ++ [w] <+: ws → ∀ seq,
    (w.outcome (runOutcomes done mt).2).1 = .ok seq →
      (runOutcomes done mt).2.list.contains (w.ikey seq) = .ok false ∧
        (w.outcome (runOutcomes done mt).2).2.list.getWithKey (w.ikey seq) =
          .ok (some (w.ikey seq, storedValue w.value)) ∧
        (mt.list.arena.capacity ≤ 2 ^ 32 → storedValue w.value = w.value)
  /-- No call succeeds once one was refused. -/
  closed : (runOutcomes ws mt).1.Pairwise fun o o' => o = .err .sequenceOverflow → o'.seq? = none

/-! ### Runs before the counter wraps -/

/-- The outcomes of calls that take the sequence numbers `n + 1`, `n + 2`, …: refused beyond the
last one, and otherwise either that number or a panic. -/
inductive Numbered : ℕ → List Outcome → Prop where
  | nil (n : ℕ) : Numbered n []
  | ok {n : ℕ} {os : List Outcome} (hn : n + 1 ≤ maxSequence) (h : Numbered (n + 1) os) :
      Numbered n (.ok (n + 1) :: os)
  | panic {n : ℕ} {os : List Outcome} (e : Fault) (hn : n + 1 ≤ maxSequence)
      (h : Numbered (n + 1) os) : Numbered n (.panic e :: os)
  | err {n : ℕ} {os : List Outcome} (hn : maxSequence < n + 1) (h : Numbered (n + 1) os) :
      Numbered n (.err .sequenceOverflow :: os)

theorem Numbered.lt_seq {os : List Outcome} (h : Numbered n os) {o : Outcome} (ho : o ∈ os)
    (hs : o.seq? = some seq) : n < seq ∧ seq ≤ maxSequence := by
  induction h with
  | nil => simp at ho
  | ok hn _ ih =>
    rcases List.mem_cons.1 ho with rfl | ho
    · cases hs
      exact ⟨Nat.lt_succ_self _, hn⟩
    · exact (ih ho).imp (Nat.lt_of_succ_lt) id
  | panic e _ _ ih =>
    rcases List.mem_cons.1 ho with rfl | ho
    · cases hs
    · exact (ih ho).imp (Nat.lt_of_succ_lt) id
  | err _ _ ih =>
    rcases List.mem_cons.1 ho with rfl | ho
    · cases hs
    · exact (ih ho).imp (Nat.lt_of_succ_lt) id

theorem Numbered.increasing {os : List Outcome} (h : Numbered n os) :
    (os.filterMap Outcome.seq?).Pairwise (· < ·) := by
  induction h with
  | nil => exact List.Pairwise.nil
  | ok _ hos ih =>
    simp only [List.filterMap_cons, Outcome.seq?]
    refine List.pairwise_cons.2 ⟨fun s hs => ?_, ih⟩
    obtain ⟨o, ho, hos'⟩ := List.mem_filterMap.1 hs
    exact (hos.lt_seq ho hos').1
  | panic _ _ _ ih => simpa only [List.filterMap_cons, Outcome.seq?] using ih
  | err _ _ ih => simpa only [List.filterMap_cons, Outcome.seq?] using ih

theorem Numbered.closed {os : List Outcome} (h : Numbered n os) :
    os.Pairwise fun o o' => o = .err .sequenceOverflow → o'.seq? = none := by
  induction h with
  | nil => exact List.Pairwise.nil
  | ok _ _ ih => exact List.pairwise_cons.2 ⟨(fun _ _ he => nomatch he), ih⟩
  | panic _ _ _ ih => exact List.pairwise_cons.2 ⟨(fun _ _ he => nomatch he), ih⟩
  | err hn hos ih =>
    refine List.pairwise_cons.2 ⟨fun o ho _ => ?_, ih⟩
    by_contra hsome
    obtain ⟨s, hs⟩ := Option.ne_none_iff_exists'.1 hsome
    have := hos.lt_seq ho hs
    omega

/-- A run of writes whose nodes can be laid out, before the counter wraps. -/
theorem Holds.runOutcomes (h : Holds mt S hist n) (hn : n + ws.length < 2 ^ 64)
    (hh : ∀ w ∈ ws, w.height < maxHeight) (hsz : ∀ w ∈ ws, w.Sized mt.list.arena.capacity) :
    Numbered n (runOutcomes ws mt).1 ∧
      (∃ S' hist', Holds (StoneDb.runOutcomes ws mt).2 S' hist' (n + ws.length)) ∧
      (StoneDb.runOutcomes ws mt).2.list.arena.capacity = mt.list.arena.capacity := by
  induction ws generalizing mt S hist n with
  | nil => exact ⟨.nil n, ⟨S, hist, h⟩, rfl⟩
  | cons w ws ih =>
    obtain ⟨hw, hh⟩ := List.forall_mem_cons.1 hh
    obtain ⟨hwsz, hsz⟩ := List.forall_mem_cons.1 hsz
    rw [List.length_cons] at hn
    have hlen : n + (w :: ws).length = n + 1 + ws.length := by rw [List.length_cons]; omega
    rw [hlen]
    cases h.run (by omega) hw hwsz with
    | refused hseq hrun hholds =>
      obtain ⟨hnum, hholds', hcap⟩ := ih hholds (by omega) hh hsz
      simp only [StoneDb.runOutcomes, Write.outcome, hrun]
      exact ⟨.err hseq hnum, hholds', hcap⟩
    | panicked hseq hrun hholds =>
      obtain ⟨hnum, hholds', hcap⟩ := ih hholds (by omega) hh hsz
      simp only [StoneDb.runOutcomes, Write.outcome, hrun]
      exact ⟨.panic _ hseq hnum, hholds', hcap⟩
    | added hseq mt₁ S₁ hrun hholds hcap₁ =>
      obtain ⟨hnum, hholds', hcap⟩ := ih hholds (by omega) hh fun w hw => hcap₁ ▸ hsz w hw
      simp only [StoneDb.runOutcomes, Write.outcome, hrun]
      exact ⟨.ok hseq hnum, hholds', hcap.trans hcap₁⟩

/-- A successful call found its key absent and left it present. -/
theorem Holds.outcome_ok (h : Holds mt S hist n) (hn : n + 1 < 2 ^ 64) (hh : w.height < maxHeight)
    (hsz : w.Sized mt.list.arena.capacity) (hok : (w.outcome mt).1 = .ok seq) :
    mt.list.contains (w.ikey seq) = .ok false ∧
      (w.outcome mt).2.list.getWithKey (w.ikey seq) =
        .ok (some (w.ikey seq, storedValue w.value)) ∧
      (mt.list.arena.capacity ≤ 2 ^ 32 → storedValue w.value = w.value) := by
  cases h.run hn hh hsz with
  | refused hseq hrun =>
    simp only [Write.outcome, hrun] at hok
    cases hok
  | panicked hseq hrun =>
    simp only [Write.outcome, hrun] at hok
    cases hok
  | added hseq mt' S' hrun hholds _ hstored =>
    simp only [Write.outcome, hrun] at hok ⊢
    cases hok
    obtain ⟨m, hm, hent⟩ := h.list
    obtain ⟨m', hm', hent'⟩ := hholds.list
    have hnone : m.getWithKey (w.ikey (n + 1)) = none := h.absent hseq hent
    refine ⟨?_, ?_, fun hcap => ?_⟩
    · rw [hm.contains_eq, OrderedMap.contains, OrderedMap.get, hnone]
      rfl
    · rw [hm'.getWithKey_eq]
      have hmem : (w.ikey (n + 1), storedValue w.value) ∈ m'.entries :=
        (hent' _).2 ⟨(w.stored, n + 1), by simp, by rw [w.ikey_stored, w.value_stored]⟩
      rw [(OrderedMap.getWithKey_eq_some_iff m').2 ⟨hmem, Std.ReflCmp.compare_self⟩]
    · rw [← w.value_stored, hstored hcap]

/-- **Sequence numbers are unique over every run of fewer than `2^64` calls**, whether they succeed,
are refused or panic; in an arena of more than `2^32` bytes, for nodes whose key fits its `u32`
length field. -/
theorem memtable_sequences {id capacity : ℕ} (hnew : MemTable.withCapacity id capacity = .ok mt)
    (hws : ∀ w ∈ ws, w.Valid) (hsize : capacity ≤ 2 ^ 32 ∨ ∀ w ∈ ws, w.KeyFits capacity)
    (hlen : ws.length < 2 ^ 64) : SequencesOk mt ws := by
  obtain ⟨hholds, hcap, -⟩ := holds_withCapacity hnew
  have hh : ∀ w ∈ ws, w.height < maxHeight := fun w hw => (hws w hw).height
  have hsz : ∀ w ∈ ws, w.Sized mt.list.arena.capacity := by
    intro w hw
    rw [hcap]
    rcases hsize with hsize | hsize
    · exact Write.sized_of_le hsize (hws w hw)
    · exact (hsize w hw).sized
  have hnum := (hholds.runOutcomes (by omega) hh hsz).1
  refine ⟨hnum.increasing, fun done w hpre seq hok => ?_, hnum.closed⟩
  obtain ⟨rest, rfl⟩ := hpre
  have hmem : ∀ w' ∈ done ++ [w], w' ∈ done ++ [w] ++ rest := fun w' hw' =>
    List.mem_append_left _ hw'
  have hlen' : done.length + 1 < 2 ^ 64 := by
    simp only [List.length_append, List.length_cons, List.length_nil] at hlen
    omega
  have hdone : ∀ w' ∈ done, w' ∈ done ++ [w] ++ rest := fun w' hw' =>
    hmem w' (List.mem_append_left _ hw')
  obtain ⟨-, ⟨S', hist', hholds'⟩, hcap'⟩ := hholds.runOutcomes (by omega)
    (fun w' hw' => hh w' (hdone w' hw')) fun w' hw' => hsz w' (hdone w' hw')
  rw [Nat.zero_add] at hholds'
  have hw := hmem w (List.mem_append_right _ (List.mem_singleton_self w))
  rw [← hcap']
  exact hholds'.outcome_ok hlen' (hh w hw) (hcap' ▸ hsz w hw) hok

/-- A run of two calls on an arena too small for the second node. -/
theorem memtable_sequences_panic :
    ∃ mt, MemTable.withCapacity 0 240 = .ok mt ∧
      SequencesOk mt [.put [1] [] 0, .delete [1] 0] := by
  obtain ⟨mt, hmt⟩ : ∃ mt, MemTable.withCapacity 0 240 = .ok mt := ⟨_, rfl⟩
  refine ⟨mt, hmt, memtable_sequences hmt (fun w hw => ?_) (Or.inl (by decide)) (by decide)⟩
  simp only [List.mem_cons, List.not_mem_nil, or_false] at hw
  rcases hw with rfl | rfl <;> exact ⟨by decide, by decide⟩

/-! ### The counter wraps -/

theorem runOutcomes_append (ws ws' : List Write) (mt : MemTable) :
    runOutcomes (ws ++ ws') mt =
      ((runOutcomes ws mt).1 ++ (runOutcomes ws' (runOutcomes ws mt).2).1,
        (runOutcomes ws' (runOutcomes ws mt).2).2) := by
  induction ws generalizing mt with
  | nil => rfl
  | cons w ws ih =>
    simp only [List.cons_append, runOutcomes, ih]

theorem Write.outcome_overflow (w : Write) (h : maxSequence < mt.nextSequence) :
    w.outcome mt = (.err .sequenceOverflow, mt.advance) := by
  rw [Write.outcome, w.run_overflow h]

theorem Write.outcome_panic (w : Write) (h : mt.nextSequence ≤ maxSequence) {e : Fault}
    {list : SkipList}
    (hput : SkipList.put (w.ikey mt.nextSequence) w.value w.height mt.list = .error e list) :
    w.outcome mt = (.panic e, { mt.advance with list }) := by
  rw [Write.outcome, w.run_panic h hput]

theorem Write.outcome_put (w : Write) (h : mt.nextSequence ≤ maxSequence)
    {r : Option (Bytes × Bytes)} {list : SkipList}
    (hput : SkipList.put (w.ikey mt.nextSequence) w.value w.height mt.list = .ok r list) :
    w.outcome mt = (.ok mt.nextSequence, { mt.advance with
      list, approximateSize := wrappingAdd mt.approximateSize w.size }) := by
  rw [Write.outcome, w.run_put h hput]

/-- Whatever a call does, it moves the counter. -/
theorem Write.outcome_next (w : Write) (mt : MemTable) :
    (w.outcome mt).2.nextSequence = wrappingAdd mt.nextSequence 1 := by
  by_cases hseq : maxSequence < mt.nextSequence
  · rw [w.outcome_overflow hseq]
    rfl
  · have hseq' := not_lt.1 hseq
    cases hput : SkipList.put (w.ikey mt.nextSequence) w.value w.height mt.list with
    | ok r list =>
      rw [w.outcome_put hseq' hput]
      rfl
    | error e list =>
      rw [w.outcome_panic hseq' hput]
      rfl

/-- The counter counts the calls, modulo `2^64`. -/
theorem runOutcomes_next (hnext : mt.nextSequence < 2 ^ 64) :
    (runOutcomes ws mt).2.nextSequence = (mt.nextSequence + ws.length) % 2 ^ 64 := by
  induction ws generalizing mt with
  | nil => exact (Nat.mod_eq_of_lt hnext).symm
  | cons w ws ih =>
    have hcount := w.outcome_next mt
    have hlt : (w.outcome mt).2.nextSequence < 2 ^ 64 := by
      rw [hcount, wrappingAdd]
      exact Nat.mod_lt _ (by decide)
    simp only [runOutcomes]
    rw [ih hlt, hcount, wrappingAdd, List.length_cons]
    omega

/-- Whatever a call does, it keeps the nodes. -/
theorem outcome_keeps {m : OrderedMap internalKeyComparator.compareKey Bytes}
    (h : Refines internalKeyComparator mt.list S m) (hh : w.height < maxHeight)
    (hsz : w.Sized mt.list.arena.capacity) {p : Bytes × Bytes} (hp : p ∈ m.entries) :
    (∃ S' m', Refines internalKeyComparator (w.outcome mt).2.list S' m' ∧ p ∈ m'.entries) ∧
      (w.outcome mt).2.list.arena.capacity = mt.list.arena.capacity := by
  by_cases hseq : maxSequence < mt.nextSequence
  · rw [w.outcome_overflow hseq]
    exact ⟨⟨S, m, h, hp⟩, rfl⟩
  have hseq' := not_lt.1 hseq
  rcases h.put_cases hh (hsz _ hseq') with
    ⟨p', -, hput⟩ | ⟨habs, ⟨-, hput⟩ | ⟨sl', S', node, hput, hadd⟩⟩
  · rw [w.outcome_put hseq' hput]
    exact ⟨⟨S, m, h, hp⟩, rfl⟩
  · rw [w.outcome_panic hseq' hput]
    exact ⟨⟨S, m, h, hp⟩, rfl⟩
  · rw [w.outcome_put hseq' hput]
    exact ⟨⟨S', _, h.added hadd habs, m.mem_insertIfAbsent_of_mem _ _ hp⟩, hadd.grows.capacity⟩

/-- A run keeps the nodes. -/
theorem runOutcomes_keeps {m : OrderedMap internalKeyComparator.compareKey Bytes}
    (h : Refines internalKeyComparator mt.list S m) (hh : ∀ w ∈ ws, w.height < maxHeight)
    (hsz : ∀ w ∈ ws, w.Sized mt.list.arena.capacity) {p : Bytes × Bytes} (hp : p ∈ m.entries) :
    (∃ S' m', Refines internalKeyComparator (runOutcomes ws mt).2.list S' m' ∧ p ∈ m'.entries) ∧
      (runOutcomes ws mt).2.list.arena.capacity = mt.list.arena.capacity := by
  induction ws generalizing mt S m with
  | nil => exact ⟨⟨S, m, h, hp⟩, rfl⟩
  | cons w ws ih =>
    obtain ⟨hw, hh⟩ := List.forall_mem_cons.1 hh
    obtain ⟨hwsz, hsz⟩ := List.forall_mem_cons.1 hsz
    obtain ⟨⟨S₁, m₁, h₁, hp₁⟩, hcap⟩ := outcome_keeps h hw hwsz hp
    obtain ⟨hkeep, hcap'⟩ := ih h₁ hh (fun w hw => hcap ▸ hsz w hw) hp₁
    exact ⟨hkeep, hcap'.trans hcap⟩

/-- A call that finds the counter beyond the last number is refused. -/
theorem mem_runOutcomes_overflow (os ws' : List Write) (hws : ws = os ++ w :: ws')
    (hseq : maxSequence < mt.nextSequence + os.length)
    (hlt : mt.nextSequence + os.length < 2 ^ 64) :
    .err .sequenceOverflow ∈ (runOutcomes ws mt).1 := by
  have hnext : (runOutcomes os mt).2.nextSequence = mt.nextSequence + os.length := by
    rw [runOutcomes_next (by omega), Nat.mod_eq_of_lt hlt]
  rw [hws, runOutcomes_append, runOutcomes, w.outcome_overflow (hnext ▸ hseq)]
  exact List.mem_append_right _ (List.mem_cons_self ..)

/-- Beyond the last number every call is refused and only the counter moves, until it wraps. -/
theorem runOutcomes_refused (mt : MemTable) (w : Write) (k : ℕ)
    (hseq : 0 < k → maxSequence < mt.nextSequence) (hk : mt.nextSequence + k ≤ 2 ^ 64)
    (hnext : mt.nextSequence < 2 ^ 64) :
    runOutcomes (List.replicate k w) mt = (List.replicate k (.err .sequenceOverflow),
      { mt with nextSequence := (mt.nextSequence + k) % 2 ^ 64 }) := by
  induction k generalizing mt with
  | zero => rw [Nat.add_zero, Nat.mod_eq_of_lt hnext]; rfl
  | succ k ih =>
    have hadvance : mt.advance.nextSequence = (mt.nextSequence + 1) % 2 ^ 64 := rfl
    have hmax := hseq (Nat.succ_pos k)
    have hseq' : 0 < k → maxSequence < mt.advance.nextSequence := by
      intro hpos
      rw [hadvance, Nat.mod_eq_of_lt (by omega)]
      exact hmax.trans (Nat.lt_succ_self _)
    have hk' : mt.advance.nextSequence + k ≤ 2 ^ 64 := by
      rw [hadvance]
      omega
    have hih := ih _ hseq' hk' (by rw [hadvance]; exact Nat.mod_lt _ (by decide))
    have hcount :
        (mt.advance.nextSequence + k) % 2 ^ 64 = (mt.nextSequence + (k + 1)) % 2 ^ 64 := by
      rw [hadvance]
      omega
    rw [hcount] at hih
    rw [List.replicate_succ, runOutcomes, w.outcome_overflow hmax, List.replicate_succ]
    simp only [hih]
    rfl

/-- A new MemTable, and what its list refines. -/
theorem refines_of_new {id capacity : ℕ} (hnew : MemTable.withCapacity id capacity = .ok mt) :
    mt.nextSequence = 1 ∧ mt.list.arena.len = 192 ∧ mt.list.arena.capacity = capacity ∧
      capacity ≤ isizeMax - 7 ∧ ∃ S m, Refines internalKeyComparator mt.list S m := by
  obtain ⟨sl, hlist, rfl⟩ := withCapacity_ok hnew
  obtain ⟨-, -, hcap, hlen, hle⟩ := wf_withCapacity hlist
  exact ⟨rfl, hlen, hcap, hle, _, _, refines_withCapacity hlist⟩

/-- The smallest write. -/
def smallWrite : Write := .put [] [] 0

theorem smallWrite_valid : smallWrite.Valid := ⟨by decide, by decide⟩

theorem smallWrite_sized {capacity : ℕ} (h : capacity ≤ isizeMax - 7) :
    smallWrite.Sized capacity :=
  Write.KeyFits.sized ⟨by decide, by
    simp only [isizeMax] at h
    simp only [smallWrite, Write.key, Write.value, List.length_nil]
    omega⟩

/-- The first small write of a new MemTable adds its node, if there is room for its 40 bytes. -/
theorem outcome_first {id capacity : ℕ} (hnew : MemTable.withCapacity id capacity = .ok mt)
    (hcap : 232 ≤ capacity) :
    (smallWrite.outcome mt).1 = .ok 1 ∧ (smallWrite.outcome mt).2.nextSequence = 2 ∧
      (smallWrite.outcome mt).2.list.arena.capacity = capacity ∧
      ∃ S m, Refines internalKeyComparator (smallWrite.outcome mt).2.list S m ∧
        ∃ p ∈ m.entries, p.1 = smallWrite.ikey 1 := by
  obtain ⟨hnext, hlen, hcap', hle, S, m, hm⟩ := refines_of_new hnew
  have hone : (1 : ℕ) ≤ maxSequence := by decide
  have hsz := smallWrite_sized (hcap' ▸ hle) 1 hone
  have hkey : (smallWrite.ikey 1).length < 2 ^ 32 := by rw [smallWrite.length_ikey hone]; decide
  have hbytes : nodeBytes (smallWrite.ikey 1) smallWrite.value smallWrite.height = 40 := by
    rw [nodeBytes, smallWrite.length_ikey hone]
    decide
  obtain ⟨sl', S', hput, hm', hgrow, -⟩ := hm.put_of_fits smallWrite_valid.height
    ⟨hsz.no_wrap, Or.inr ⟨hkey, by decide⟩⟩ (by rw [hbytes]; omega)
  obtain ⟨p, hp, heq⟩ := m.exists_mem_insertIfAbsent (smallWrite.ikey 1) smallWrite.value
  rw [← hnext] at hput
  rw [smallWrite.outcome_put (hnext ▸ hone) hput, hnext]
  exact ⟨rfl, congrArg (wrappingAdd · 1) hnext, hgrow.capacity.trans hcap', S', _, hm', p, hp,
    Std.LawfulEqCmp.eq_of_compare heq⟩

/-- In any arena, panics caught: after `2^64` small writes the counter is back at `1`, and the node
of the first one is still there. -/
theorem runOutcomes_wrapped {id capacity b : ℕ} (hb : b + 1 = 2 ^ 64)
    (hnew : MemTable.withCapacity id capacity = .ok mt) (hcap : 232 ≤ capacity) :
    let mt' := (runOutcomes (smallWrite :: List.replicate b smallWrite) mt).2
    mt'.nextSequence = 1 ∧ mt'.list.arena.capacity = capacity ∧
      ∃ S m, Refines internalKeyComparator mt'.list S m ∧
        ∃ p ∈ m.entries, p.1 = smallWrite.ikey 1 := by
  have hle := (refines_of_new hnew).2.2.2.1
  obtain ⟨-, hnext₁, hcap₁, S₁, m₁, hm₁, p, hp, hkey⟩ := outcome_first hnew hcap
  have hall : ∀ w ∈ List.replicate b smallWrite,
      w.height < maxHeight ∧ w.Sized (smallWrite.outcome mt).2.list.arena.capacity := by
    intro w hw
    rw [(List.mem_replicate.1 hw).2, hcap₁]
    exact ⟨smallWrite_valid.height, smallWrite_sized hle⟩
  obtain ⟨⟨S', m', hm', hp'⟩, hcap'⟩ := runOutcomes_keeps hm₁ (fun w hw => (hall w hw).1)
    (fun w hw => (hall w hw).2) hp
  have hnext' : (runOutcomes (List.replicate b smallWrite) (smallWrite.outcome mt).2).2.nextSequence
      = _ := runOutcomes_next (by rw [hnext₁]; decide)
  rw [List.length_replicate, hnext₁] at hnext'
  exact ⟨hnext'.trans (by omega), hcap'.trans hcap₁, S', m', hm', p, hp', hkey⟩

/-- Among them are refused ones. -/
theorem mem_runOutcomes_small {id capacity b : ℕ} (hb : b + 1 = 2 ^ 64)
    (hnew : MemTable.withCapacity id capacity = .ok mt) :
    .err .sequenceOverflow ∈ (runOutcomes (smallWrite :: List.replicate b smallWrite) mt).1 := by
  have hnext := (refines_of_new hnew).1
  have hmax : maxSequence + 1 = 2 ^ 56 := by decide
  obtain ⟨k, hk⟩ : ∃ k, maxSequence + (k + 1) = b + 1 := ⟨b - maxSequence, by omega⟩
  refine mem_runOutcomes_overflow (w := smallWrite) (List.replicate maxSequence smallWrite)
    (List.replicate k smallWrite) ?_ ?_ ?_
  · rw [← List.replicate_succ, ← List.replicate_succ, List.replicate_append_replicate, hk]
  · rw [hnext, List.length_replicate]
    omega
  · rw [hnext, List.length_replicate]
    omega

/-- A call on the key of the first one then succeeds, with its number, and writes nothing. -/
theorem outcome_dropped {m : OrderedMap internalKeyComparator.compareKey Bytes}
    (h : Refines internalKeyComparator mt.list S m) (hle : mt.list.arena.capacity ≤ isizeMax - 7)
    (hnext : mt.nextSequence = 1) {p : Bytes × Bytes} (hp : p ∈ m.entries)
    (hkey : p.1 = smallWrite.ikey 1) :
    ((Write.put [] [1] 0).outcome mt).1 = .ok 1 ∧
      mt.list.contains ((Write.put [] [1] 0).ikey 1) = .ok true ∧
      ((Write.put [] [1] 0).outcome mt).2.list = mt.list := by
  have hone : (1 : ℕ) ≤ maxSequence := by decide
  have hpresent : m.getWithKey ((Write.put [] [1] 0).ikey 1) = some p := by
    refine (m.getWithKey_eq_some_iff).2 ⟨hp, ?_⟩
    rw [hkey]
    exact Std.ReflCmp.compare_self
  have hsize : (Write.put [] [1] 0).Sized mt.list.arena.capacity := by
    refine Write.KeyFits.sized ⟨by decide, ?_⟩
    simp only [isizeMax] at hle
    simp only [Write.key, Write.value, List.length_cons, List.length_nil]
    omega
  have hput : SkipList.put ((Write.put [] [1] 0).ikey 1) [1] 0 mt.list = _ :=
    h.put_present (by decide) (hsize 1 hone) hpresent
  rw [← hnext] at hput
  rw [(Write.put [] [1] 0).outcome_put (hnext ▸ hone) hput, h.contains_eq, OrderedMap.contains,
    OrderedMap.get, hpresent, hnext]
  exact ⟨rfl, rfl, rfl⟩

/-- **The counter wraps**: in an arena of 4 MiB, with the panics of the full arena caught, there is
a run whose last call, after others were refused, succeeds with the number of the first one and does
not add its node. -/
theorem memtable_sequences_wrap :
    ∃ mt done w, MemTable.withCapacity 0 (4 * 1024 * 1024) = .ok mt ∧
      (∀ w' ∈ done ++ [w], w'.Valid) ∧ .ok 1 ∈ (runOutcomes done mt).1 ∧
      .err .sequenceOverflow ∈ (runOutcomes done mt).1 ∧
      (w.outcome (runOutcomes done mt).2).1 = .ok 1 ∧
      (w.outcome (runOutcomes done mt).2).2.list = (runOutcomes done mt).2.list ∧
      ¬ SequencesOk mt (done ++ [w]) := by
  obtain ⟨mt, hnew⟩ : ∃ mt, MemTable.withCapacity 0 (4 * 1024 * 1024) = .ok mt := ⟨_, rfl⟩
  obtain ⟨b, hb⟩ : ∃ b, b + 1 = 2 ^ 64 := ⟨2 ^ 64 - 1, by decide⟩
  obtain ⟨hnext, hcap, S, m, hm, p, hp, hkey⟩ := runOutcomes_wrapped hb hnew (by decide)
  obtain ⟨hrun, hpresent, hlist⟩ := outcome_dropped hm (hcap ▸ by decide) hnext hp hkey
  refine ⟨mt, smallWrite :: List.replicate b smallWrite, .put [] [1] 0, hnew, ?_,
    List.mem_cons.2 (Or.inl (outcome_first hnew (by decide)).1.symm),
    mem_runOutcomes_small hb hnew, hrun, hlist, ?_⟩
  · intro w hw
    rw [← List.replicate_succ] at hw
    rcases List.mem_append.1 hw with hw | hw
    · exact (List.mem_replicate.1 hw).2 ▸ smallWrite_valid
    · rw [List.mem_singleton.1 hw]
      exact ⟨by decide, by decide⟩
  · intro hok
    have habsent := (hok.added _ _ (List.prefix_refl _) 1 hrun).1
    rw [hpresent] at habsent
    cases habsent

end StoneDb
