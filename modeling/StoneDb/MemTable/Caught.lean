import StoneDb.MemTable.Overflow
import StoneDb.MemTable.Retained

/-!
# Runs with caught panics

A call that panics, because its node does not fit in the arena, has already taken its sequence
number.  Apart from that it leaves nothing behind, and neither does a call that is refused: after
every run of fewer than `2^64` calls, panics caught, the MemTable holds exactly the calls that have
succeeded (`memtable_caught`).

`memtable_room` compares the counters with the arena.  Every entry takes between 32 and 191 bytes
more than `approximate_size` counts for it, so the approximate size tells when the next call still
has room.
-/

namespace StoneDb

variable {mt mt' : MemTable} {S : ℕ → Finset ℕ} {hist : List (Write × ℕ)} {n seq capacity : ℕ}
  {w : Write} {ws : List Write} {os : List Outcome}

/-- The calls of a run that have succeeded, with the sequence numbers they have returned. -/
def succeeded (ws : List Write) (os : List Outcome) : List (Write × ℕ) :=
  (ws.zip os).filterMap fun x => x.2.seq?.map (x.1, ·)

/-! ### Runs -/

/-- **Induction along a run, panics caught.**  What every successful call preserves, and the counter
alone does not change, holds at its end. -/
theorem Holds.runOutcomes_induction {P : MemTable → List (Write × ℕ) → Prop}
    (hstep : ∀ {mt mt' : MemTable} {S : ℕ → Finset ℕ} {hist : List (Write × ℕ)} {n : ℕ} {w : Write},
      Holds mt S hist n → n + 1 ≤ maxSequence → w.Valid → mt.list.arena.capacity ≤ 2 ^ 32 →
      w.run mt = .ok (.ok (n + 1)) mt' → P mt hist → P mt' (hist ++ [(w, n + 1)]))
    (hadvance : ∀ {mt : MemTable} {hist : List (Write × ℕ)}, P mt hist → P mt.advance hist)
    (h : Holds mt S hist n) (hP : P mt hist) (hn : n + ws.length < 2 ^ 64)
    (hcap : mt.list.arena.capacity ≤ 2 ^ 32) (hws : ∀ w ∈ ws, w.Valid) :
    ∃ S', Holds (StoneDb.runOutcomes ws mt).2 S'
        (hist ++ succeeded ws (StoneDb.runOutcomes ws mt).1) (n + ws.length) ∧
      P (StoneDb.runOutcomes ws mt).2 (hist ++ succeeded ws (StoneDb.runOutcomes ws mt).1) ∧
      (StoneDb.runOutcomes ws mt).2.list.arena.capacity = mt.list.arena.capacity := by
  induction ws generalizing mt S hist n with
  | nil =>
    have hnone : hist ++ succeeded [] (StoneDb.runOutcomes [] mt).1 = hist := List.append_nil hist
    rw [hnone]
    exact ⟨S, h, hP, rfl⟩
  | cons w ws ih =>
    obtain ⟨hw, hws⟩ := List.forall_mem_cons.1 hws
    rw [List.length_cons] at hn
    have hlen : n + (w :: ws).length = n + 1 + ws.length := by rw [List.length_cons]; omega
    rw [hlen]
    cases h.run (by omega) hw.height (Write.sized_of_le hcap hw) with
    | refused hseq hrun hholds =>
      obtain ⟨S', hholds', hP', hcap'⟩ := ih hholds (hadvance hP) (by omega) hcap hws
      simp only [StoneDb.runOutcomes, Write.outcome, hrun]
      exact ⟨S', hholds', hP', hcap'⟩
    | panicked hseq hrun hholds =>
      obtain ⟨S', hholds', hP', hcap'⟩ := ih hholds (hadvance hP) (by omega) hcap hws
      simp only [StoneDb.runOutcomes, Write.outcome, hrun]
      exact ⟨S', hholds', hP', hcap'⟩
    | added hseq mt₁ S₁ hrun hholds hcap₁ hstored =>
      rw [hstored hcap] at hholds
      obtain ⟨S', hholds', hP', hcap'⟩ := ih hholds (hstep h hseq hw hcap hrun hP) (by omega)
        (hcap₁.trans_le hcap) hws
      simp only [StoneDb.runOutcomes, Write.outcome, hrun]
      rw [List.append_assoc] at hholds' hP'
      exact ⟨S', hholds', hP', hcap'.trans hcap₁⟩

/-! ### The bytes of the entries -/

/-- The bytes of the node of a successful call. -/
def Write.space (x : Write × ℕ) : ℕ := nodeBytes (x.1.ikey x.2) x.1.value x.1.height

/-- The arena holds the head and the nodes of the successful calls, and nothing else. -/
structure Filled (mt : MemTable) (hist : List (Write × ℕ)) : Prop where
  measured : Measured mt hist
  len : mt.list.memSize = 192 + (hist.map Write.space).sum
  height : ∀ x ∈ hist, x.1.height < maxHeight

theorem Filled.advance (h : Filled mt hist) : Filled mt.advance hist :=
  ⟨⟨h.measured.size, h.measured.le_len⟩, h.len, h.height⟩

theorem Filled.run (hf : Filled mt hist) (h : Holds mt S hist n) (hseq : n + 1 ≤ maxSequence)
    (hw : w.Valid) (hcap : mt.list.arena.capacity ≤ 2 ^ 32)
    (hrun : w.run mt = .ok (.ok (n + 1)) mt') : Filled mt' (hist ++ [(w, n + 1)]) := by
  refine ⟨hf.measured.run h hseq hw hcap hrun, ?_, ?_⟩
  · obtain ⟨m, hm, hent⟩ := h.list
    have hnext : mt.nextSequence = n + 1 := by
      rw [h.next, Nat.mod_eq_of_lt (hseq.trans_lt (by decide))]
    have hnone : m.getWithKey (w.ikey (n + 1)) = none := h.absent hseq hent
    rcases hm.put_cases hw.height (Write.sized_of_le hcap hw (n + 1) hseq) with
      ⟨p, hp, -⟩ | ⟨-, ⟨-, hput⟩ | ⟨sl', S', node, hput, hadd⟩⟩
    · rw [hnone] at hp
      cases hp
    · rw [← hnext] at hput
      rw [w.run_panic (hnext ▸ hseq) hput] at hrun
      cases hrun
    · rw [← hnext] at hput
      rw [w.run_put (hnext ▸ hseq) hput] at hrun
      obtain ⟨-, rfl⟩ := EStateM.Result.ok.inj hrun
      have hlen : sl'.memSize = mt.list.memSize + Write.space (w, n + 1) := hadd.len
      rw [List.map_append, List.map_singleton, List.sum_append, List.sum_singleton, hlen, hf.len,
        Nat.add_assoc]
  · intro x hx
    rcases List.mem_append.1 hx with hx | hx
    · exact hf.height x hx
    · obtain rfl := List.mem_singleton.1 hx
      exact hw.height

/-- A node takes at least 32 bytes more than its key and its value, and at most 191. -/
theorem Write.space_bounds {x : Write × ℕ} (hseq : x.2 ≤ maxSequence)
    (hh : x.1.height < maxHeight) :
    (x.1.entry x.2).bytes + 32 ≤ Write.space x ∧
      Write.space x ≤ (x.1.entry x.2).bytes + 191 := by
  have hbytes := x.1.bytes_entry hseq
  have hlen := x.1.length_ikey hseq
  simp only [maxHeight] at hh
  simp only [Write.space, nodeBytes, kvDataOff, towerOff, slotSize]
  omega

/-- **What the approximate size says about the arena.** -/
theorem Filled.bounds (hf : Filled mt hist) (h : Holds mt S hist n) :
    192 + mt.approximateSize + 32 * hist.length ≤ mt.list.memSize ∧
      mt.list.memSize ≤ 192 + mt.approximateSize + 191 * hist.length := by
  have hall : ∀ {l : List (Write × ℕ)}, l ⊆ hist →
      ((entries l).map Entry.bytes).sum + 32 * l.length ≤ (l.map Write.space).sum ∧
        (l.map Write.space).sum ≤ ((entries l).map Entry.bytes).sum + 191 * l.length := by
    intro l hl
    induction l with
    | nil => exact ⟨le_rfl, le_rfl⟩
    | cons x l ih =>
      obtain ⟨hx, hl⟩ := List.cons_subset.1 hl
      obtain ⟨hlow, hhigh⟩ := ih hl
      obtain ⟨hlow', hhigh'⟩ := Write.space_bounds (h.seq_le x hx).2 (hf.height x hx)
      simp only [entries, List.map_cons, List.sum_cons, List.length_cons] at hlow hhigh ⊢
      omega
  obtain ⟨hlow, hhigh⟩ := hall (List.Subset.refl hist)
  have hsize := hf.measured.size
  have hlen := hf.len
  omega

/-- **When a call panics**: there is a number for it, and its node does not fit. -/
theorem Holds.panic_iff (h : Holds mt S hist n) (hn : n + 1 < 2 ^ 64) (hw : w.Valid)
    (hcap : mt.list.arena.capacity ≤ 2 ^ 32) :
    (∃ e, (w.outcome mt).1 = .panic e) ↔ mt.nextSequence ≤ maxSequence ∧
      mt.list.arena.capacity <
        mt.list.memSize + nodeBytes (w.ikey mt.nextSequence) w.value w.height := by
  by_cases hseq : maxSequence < mt.nextSequence
  · rw [w.outcome_overflow hseq]
    refine ⟨?_, fun hle => absurd hle.1 (not_le.2 hseq)⟩
    rintro ⟨e, he⟩
    cases he
  have hseq' := not_lt.1 hseq
  have hnext : mt.nextSequence = n + 1 := by rw [h.next, Nat.mod_eq_of_lt hn]
  obtain ⟨m, hm, hent⟩ := h.list
  have hnone : m.getWithKey (w.ikey mt.nextSequence) = none :=
    hnext ▸ h.absent (hnext ▸ hseq') hent
  rcases hm.put_cases hw.height (Write.sized_of_le hcap hw _ hseq') with
    ⟨p, hp, -⟩ | ⟨-, ⟨hfull, hput⟩ | ⟨sl', S', node, hput, hadd⟩⟩
  · rw [hnone] at hp
    cases hp
  · rw [w.outcome_panic hseq' hput]
    exact ⟨fun _ => ⟨hseq', hfull⟩, fun _ => ⟨_, rfl⟩⟩
  · have hroom := hadd.wf.len_le
    rw [hadd.grows.capacity, hadd.len] at hroom
    rw [w.outcome_put hseq' hput]
    refine ⟨?_, fun hfull => absurd hfull.2 (not_lt.2 hroom)⟩
    rintro ⟨e, he⟩
    cases he

/-! ### Results -/

/-- A new MemTable after a run. -/
theorem runOutcomes_filled {id : ℕ} (hcap : capacity ≤ 2 ^ 32)
    (hnew : MemTable.withCapacity id capacity = .ok mt) (hws : ∀ w ∈ ws, w.Valid)
    (hlen : ws.length < 2 ^ 64) :
    ∃ S, Holds (runOutcomes ws mt).2 S (succeeded ws (runOutcomes ws mt).1) ws.length ∧
      Filled (runOutcomes ws mt).2 (succeeded ws (runOutcomes ws mt).1) ∧
      (runOutcomes ws mt).2.list.arena.capacity = capacity := by
  obtain ⟨hholds, hcap', -⟩ := holds_withCapacity hnew
  have hfilled : Filled mt [] := by
    obtain ⟨sl, hsl, rfl⟩ := withCapacity_ok hnew
    exact ⟨⟨rfl, Nat.zero_le _⟩, (wf_withCapacity hsl).2.2.2.1, by simp⟩
  obtain ⟨S, h, hf, hcap''⟩ := hholds.runOutcomes_induction (P := Filled)
    (fun h hseq hw hcap hrun hf => hf.run h hseq hw hcap hrun) Filled.advance hfilled
    (by rwa [Nat.zero_add]) (hcap' ▸ hcap) hws
  rw [List.nil_append] at h hf
  rw [Nat.zero_add] at h
  exact ⟨S, h, hf, hcap''.trans hcap'⟩

/-- The MemTable holds the writes `hist`, and nothing else. -/
structure MemTable.Retains (mt : MemTable) (hist : List (Write × ℕ)) : Prop where
  /-- The level-0 chain decodes to them, by user key, then the newest first. -/
  retained : ∃ es, mt.retained = .ok es ∧ es.Perm (entries hist) ∧ es.Pairwise Entry.Before
  len : mt.len = .ok hist.length
  size : mt.approximateSize = ((entries hist).map Entry.bytes).sum

/-- **Panics and refusals leave nothing behind** but a number that is not used: after every run,
panics caught, the MemTable holds the calls that have succeeded.  While there are numbers left,
reads report the last of these to their key. -/
theorem memtable_caught {id : ℕ} (hcap : capacity ≤ 2 ^ 32)
    (hnew : MemTable.withCapacity id capacity = .ok mt) (hws : ∀ w ∈ ws, w.Valid)
    (hlen : ws.length < 2 ^ 64) :
    (runOutcomes ws mt).2.Retains (succeeded ws (runOutcomes ws mt).1) ∧
      (runOutcomes ws mt).2.nextSequence = (ws.length + 1) % 2 ^ 64 ∧
      (ws.length < maxSequence →
        ReadsHistory (runOutcomes ws mt).2 (succeeded ws (runOutcomes ws mt).1)) := by
  obtain ⟨S, h, hf, -⟩ := runOutcomes_filled hcap hnew hws hlen
  obtain ⟨es, -, hes, hperm, hsorted, hcount⟩ := h.retained
  refine ⟨⟨⟨es, hes, hperm, hsorted⟩, ?_, hf.measured.size⟩, h.next, h.reads⟩
  rw [MemTable.len, hcount, hperm.length_eq, entries, List.length_map]

/-- Three calls, on an arena that two of them fill up. -/
def fillingWrites : List Write := [.put [1] [7] 0, .put [2] [8] 0, .delete [1] 0]

theorem fillingWrites_valid : ∀ w ∈ fillingWrites, w.Valid := by
  intro w hw
  simp only [fillingWrites, List.mem_cons, List.not_mem_nil, or_false] at hw
  rcases hw with rfl | rfl | rfl <;> exact ⟨by decide, by decide⟩

/-- The third call panics, and the first two are held. -/
theorem memtable_caught_full :
    ∃ mt, MemTable.withCapacity 0 300 = .ok mt ∧
      (runOutcomes fillingWrites mt).1 = [.ok 1, .ok 2, .panic .outOfMemory] ∧
      (runOutcomes fillingWrites mt).2.Retains
        [(.put [1] [7] 0, 1), (.put [2] [8] 0, 2)] := by
  obtain ⟨mt, hmt⟩ : ∃ mt, MemTable.withCapacity 0 300 = .ok mt := ⟨_, rfl⟩
  have hrun : (MemTable.withCapacity 0 300).toOption.map (fun mt =>
      (runOutcomes fillingWrites mt).1) = some [.ok 1, .ok 2, .panic .outOfMemory] := by
    decide +kernel
  rw [hmt] at hrun
  have hos : (runOutcomes fillingWrites mt).1 = _ := Option.some.inj hrun
  obtain ⟨hretains, -⟩ := memtable_caught (show 300 ≤ 2 ^ 32 by decide) hmt fillingWrites_valid
    (by decide)
  rw [hos] at hretains
  exact ⟨mt, hmt, hos, hretains⟩

/-- **Room for the next call**: after every run, panics caught, the arena is fuller than
`approximate_size` says by 32 to 191 bytes for each entry, next to the 192 bytes of an empty list.
A call panics if and only if there is a number for it and its node does not fit, so it does not as
long as the approximate size leaves 191 bytes for each entry. -/
theorem memtable_room {id : ℕ} (hcap : capacity ≤ 2 ^ 32)
    (hnew : MemTable.withCapacity id capacity = .ok mt) (hws : ∀ w ∈ ws, w.Valid)
    (hlen : ws.length + 1 < 2 ^ 64) (hmt' : (runOutcomes ws mt).2 = mt') :
    ∃ entries, mt'.len = .ok entries ∧
      192 + mt'.approximateSize + 32 * entries ≤ mt'.list.memSize ∧
      mt'.list.memSize ≤ 192 + mt'.approximateSize + 191 * entries ∧
      ∀ w : Write, w.Valid →
        ((∃ e, (w.outcome mt').1 = .panic e) ↔ mt'.nextSequence ≤ maxSequence ∧
          capacity < mt'.list.memSize +
            nodeBytes (w.ikey mt'.nextSequence) w.value w.height) ∧
        (192 + (mt'.approximateSize + (w.key.length + w.value.length + 8)) + 191 * (entries + 1) ≤
          capacity → ∀ e, (w.outcome mt').1 ≠ .panic e) := by
  subst hmt'
  obtain ⟨S, h, hf, hcap'⟩ := runOutcomes_filled hcap hnew hws (Nat.lt_of_succ_lt hlen)
  generalize (runOutcomes ws mt).2 = mt' at *
  generalize succeeded ws (runOutcomes ws mt).1 = hist at *
  obtain ⟨es, -, -, hperm, -, hcount⟩ := h.retained
  obtain ⟨hlow, hhigh⟩ := hf.bounds h
  refine ⟨hist.length, ?_, hlow, hhigh, fun w hw => ?_⟩
  · rw [MemTable.len, hcount, hperm.length_eq, entries, List.length_map]
  have hpanic : (∃ e, (w.outcome mt').1 = .panic e) ↔ mt'.nextSequence ≤ maxSequence ∧
      capacity < mt'.list.memSize + nodeBytes (w.ikey mt'.nextSequence) w.value w.height := by
    have hiff := h.panic_iff hlen hw (hcap'.trans_le hcap)
    rwa [hcap'] at hiff
  refine ⟨hpanic, fun hroom e he => ?_⟩
  obtain ⟨hseq, hfull⟩ := hpanic.1 ⟨e, he⟩
  have hspace := (Write.space_bounds (x := (w, mt'.nextSequence)) hseq hw.height).2
  have hbytes := w.bytes_entry hseq
  simp only [Write.space] at hspace
  omega

/-- After the first two of the calls there is no room for the third one. -/
theorem memtable_room_full :
    ∃ mt mt', MemTable.withCapacity 0 300 = .ok mt ∧
      (runOutcomes (fillingWrites.take 2) mt).2 = mt' ∧ mt'.list.memSize = 288 ∧
      mt'.approximateSize = 20 ∧
      ((∃ e, ((Write.delete [1] 0).outcome mt').1 = .panic e) ↔
        mt'.nextSequence ≤ maxSequence ∧ 300 < mt'.list.memSize +
          nodeBytes ((Write.delete [1] 0).ikey mt'.nextSequence) [] 0) := by
  obtain ⟨mt, hmt⟩ : ∃ mt, MemTable.withCapacity 0 300 = .ok mt := ⟨_, rfl⟩
  have hrun : (MemTable.withCapacity 0 300).toOption.map (fun mt =>
      ((runOutcomes (fillingWrites.take 2) mt).2.list.memSize,
        (runOutcomes (fillingWrites.take 2) mt).2.approximateSize)) = some (288, 20) := by
    decide +kernel
  rw [hmt] at hrun
  have hsizes := Prod.mk.inj (Option.some.inj hrun)
  have hvalid : ∀ w ∈ fillingWrites.take 2, w.Valid := fun w hw =>
    fillingWrites_valid w (List.mem_of_mem_take hw)
  obtain ⟨entries, -, -, -, hnext⟩ := memtable_room (show 300 ≤ 2 ^ 32 by decide) hmt hvalid
    (by decide) rfl
  exact ⟨mt, _, hmt, rfl, hsizes.1, hsizes.2, (hnext (.delete [1] 0) ⟨by decide, by decide⟩).1⟩

end StoneDb
