import StoneDb.MemTable.Overflow

/-!
# A refused call

A call that returns `Err(SequenceOverflow)` leaves the list and the approximate size alone, but the
counter has already moved on.  Two MemTables that differ in the counter only answer later calls
differently: one of them wraps to `0`, and goes on accepting calls, a call earlier than the other
(`refused_call_moves`).
-/

namespace StoneDb

variable {mt mt₀ : MemTable} {w : Write} {ws : List Write}

/-- Nothing tells `mt'` from `mt`: not the accessors, and not the outcome of any later run. -/
structure MemTable.Unchanged (mt mt' : MemTable) : Prop where
  list : mt'.list = mt.list
  approximateSize : mt'.approximateSize = mt.approximateSize
  nextSequence : mt'.nextSequence = mt.nextSequence
  later : ∀ ws, (runOutcomes ws mt').1 = (runOutcomes ws mt).1

/-- Calls are refused from the last sequence number on. -/
theorem Write.refused_iff (w : Write) (mt : MemTable) :
    (w.outcome mt).1 = .err .sequenceOverflow ↔ maxSequence < mt.nextSequence := by
  constructor
  · intro herr
    by_contra hseq
    have hseq' := not_lt.1 hseq
    cases hput : SkipList.put (w.ikey mt.nextSequence) w.value w.height mt.list with
    | ok r list =>
      rw [w.outcome_put hseq' hput] at herr
      cases herr
    | error e list =>
      rw [w.outcome_panic hseq' hput] at herr
      cases herr
  · intro hseq
    rw [w.outcome_overflow hseq]

/-- **The outcome of a later run tells**: after the refused call the counter wraps one call
earlier. -/
theorem advance_later (w : Write) (hseq : maxSequence < mt.nextSequence)
    (hnext : mt.nextSequence < 2 ^ 64) :
    ∃ ws, (∀ w' ∈ ws, w' = w) ∧ (runOutcomes ws mt.advance).1 ≠ (runOutcomes ws mt).1 := by
  -- as many calls as the counter, already advanced, is away from `2^64`, and one more
  obtain ⟨k, hk⟩ : ∃ k, mt.nextSequence + 1 + k = 2 ^ 64 := Nat.exists_eq_add_of_le hnext |>.imp
    fun _ hk => hk.symm
  refine ⟨List.replicate (k + 1) w, fun w' hw' => (List.mem_replicate.1 hw').2, fun heq => ?_⟩
  have hadvance : mt.advance.nextSequence = (mt.nextSequence + 1) % 2 ^ 64 := rfl
  have hrefused := runOutcomes_refused mt w (k + 1) (fun _ => hseq) (by omega) hnext
  have hwrapped : (runOutcomes (List.replicate k w) mt.advance).2.nextSequence = 0 := by
    rw [runOutcomes_next (by omega), hadvance, List.length_replicate]
    omega
  have hsplit : (runOutcomes (List.replicate (k + 1) w) mt.advance).1 =
      (runOutcomes (List.replicate k w) mt.advance).1 ++
        [(w.outcome (runOutcomes (List.replicate k w) mt.advance).2).1] := by
    rw [List.replicate_succ', runOutcomes_append]
    rfl
  -- the last of them is refused before the advance only
  rw [hrefused, hsplit] at heq
  have hlast : (w.outcome (runOutcomes (List.replicate k w) mt.advance).2).1 =
      .err .sequenceOverflow := by
    have hmem := List.mem_append_right (runOutcomes (List.replicate k w) mt.advance).1
      (List.mem_singleton_self (w.outcome (runOutcomes (List.replicate k w) mt.advance).2).1)
    rw [heq] at hmem
    exact (List.mem_replicate.1 hmem).2
  rw [Write.refused_iff, hwrapped] at hlast
  exact absurd hlast (Nat.not_lt_zero _)

/-- **A refused call moves the counter**, in every reachable state: the list and the approximate
size are as before, the next sequence number is not, and a later run of calls ends differently. -/
theorem refused_call_moves {id capacity : ℕ} (hnew : MemTable.withCapacity id capacity = .ok mt₀)
    (ws : List Write) (w : Write)
    (hrefused : (w.outcome (runOutcomes ws mt₀).2).1 = .err .sequenceOverflow) :
    let mt := (runOutcomes ws mt₀).2
    let mt' := (w.outcome mt).2
    ¬ mt.Unchanged mt' ∧ mt'.list = mt.list ∧ mt'.approximateSize = mt.approximateSize ∧
      mt'.nextSequence ≠ mt.nextSequence ∧
      ∃ later, (runOutcomes later mt').1 ≠ (runOutcomes later mt).1 := by
  intro mt mt'
  have hseq : maxSequence < mt.nextSequence := (w.refused_iff mt).1 hrefused
  have hnext : mt.nextSequence < 2 ^ 64 := by
    have hone := (refines_of_new hnew).1
    have hcount : mt.nextSequence = _ := runOutcomes_next (by rw [hone]; decide)
    rw [hcount]
    exact Nat.mod_lt _ (by decide)
  have hmt' : mt' = mt.advance := congrArg Prod.snd (w.outcome_overflow hseq)
  have hmoved : mt'.nextSequence ≠ mt.nextSequence := by
    have hadvance : mt.advance.nextSequence = (mt.nextSequence + 1) % 2 ^ 64 := rfl
    rw [hmt', hadvance]
    omega
  obtain ⟨later, -, hlater⟩ := advance_later w hseq hnext
  refine ⟨fun hun => hmoved hun.nextSequence, ?_, ?_, hmoved, later, ?_⟩
  · rw [hmt', MemTable.advance]
  · rw [hmt', MemTable.advance]
  · rwa [hmt']

/-- After as many calls as there are sequence numbers, the next one is refused. -/
theorem exists_refused (hnext : mt₀.nextSequence = 1) :
    ∃ ws, (∀ w ∈ ws, w = smallWrite) ∧
      (smallWrite.outcome (runOutcomes ws mt₀).2).1 = .err .sequenceOverflow := by
  obtain ⟨a, ha⟩ : ∃ a, a = maxSequence := ⟨_, rfl⟩
  refine ⟨List.replicate a smallWrite, fun w hw => (List.mem_replicate.1 hw).2, ?_⟩
  have hmax : maxSequence + 1 = 2 ^ 56 := by decide
  rw [Write.refused_iff, runOutcomes_next (by rw [hnext]; decide), hnext, List.length_replicate]
  omega

/-- In the default arena, the panics of which are caught. -/
theorem refused_call_moves_default :
    ∃ mt₀ ws, MemTable.withCapacity 0 (4 * 1024 * 1024) = .ok mt₀ ∧ (∀ w ∈ ws, w = smallWrite) ∧
      (smallWrite.outcome (runOutcomes ws mt₀).2).1 = .err .sequenceOverflow ∧
      (smallWrite.outcome (runOutcomes ws mt₀).2).2.nextSequence ≠
        (runOutcomes ws mt₀).2.nextSequence := by
  obtain ⟨mt₀, hnew⟩ : ∃ mt, MemTable.withCapacity 0 (4 * 1024 * 1024) = .ok mt := ⟨_, rfl⟩
  obtain ⟨ws, hws, hrefused⟩ := exists_refused (refines_of_new hnew).1
  exact ⟨mt₀, ws, hnew, hws, hrefused, (refused_call_moves hnew ws smallWrite hrefused).2.2.2.1⟩

/-- The first refused call of the default MemTable is not without effect. -/
theorem refused_call_changes :
    ¬ ∀ (mt₀ : MemTable) (ws : List Write) (w : Write),
      MemTable.withCapacity 0 (4 * 1024 * 1024) = .ok mt₀ → (∀ w ∈ ws, w.Valid) → w.Valid →
      (w.outcome (runOutcomes ws mt₀).2).1 = .err .sequenceOverflow →
      (runOutcomes ws mt₀).2.Unchanged (w.outcome (runOutcomes ws mt₀).2).2 := by
  intro hall
  obtain ⟨mt₀, hnew⟩ : ∃ mt, MemTable.withCapacity 0 (4 * 1024 * 1024) = .ok mt := ⟨_, rfl⟩
  have hone := (refines_of_new hnew).1
  obtain ⟨ws, hws, hrefused⟩ := exists_refused hone
  have hun := hall mt₀ ws smallWrite hnew (fun w hw => hws w hw ▸ smallWrite_valid)
    smallWrite_valid hrefused
  have hmoved := hun.nextSequence
  rw [smallWrite.outcome_next, wrappingAdd] at hmoved
  have hseq := (smallWrite.refused_iff _).1 hrefused
  omega

end StoneDb
