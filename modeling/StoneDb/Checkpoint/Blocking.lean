import StoneDb.Lib.Execution
import Mathlib.Data.Finset.Card
import Mathlib.Data.Finset.SDiff

/-!
# Checkpoints

Threads wait at a checkpoint until a `release_all`: `wait_for_release` counts the thread and polls
the flag `released`, `release_all` sets the flag and then the count to zero, `reset` lowers the flag
again.  The machine `Checkpoint.step` takes one of these steps at a time, for any number of threads.

The flag is only a level that the threads sample, and only `release_all` lowers the count, so:

* `released_stays_iff` : a thread that a `release_all` has let go stays released exactly if no
  `reset` runs before it has left the loop,
* `waiting_count_iff` : the count is that of the blocked threads exactly if, with no `release_all`
  halfway, only threads that were let go leave the loop, and the last count reset finds no other
  thread in it.
-/

namespace StoneDb

namespace Checkpoint

/-- `Decision`: what the hook decides. -/
inductive Decision where
  /-- Capture the value and block. -/
  | captureAndBlock
  /-- Block without capturing. -/
  | blockWithoutCapture
  /-- Neither. -/
  | proceed
  deriving DecidableEq, Repr

/-- Does `wait` call `wait_for_release`? -/
def Decision.blocks : Decision → Bool
  | .captureAndBlock | .blockWithoutCapture => true
  | .proceed => false

/-- A checkpoint and the threads that use it.  The captures are left out. -/
structure State where
  /-- `released`. -/
  released : Bool
  /-- `waiting`. -/
  waiting : ℕ
  /-- The threads in the polling loop of `wait_for_release`. -/
  polling : Finset ℕ
  /-- The threads between the two steps of `release_all`. -/
  releasing : Finset ℕ
  /-- Of the threads in the loop, those that were there when a `release_all` set the flag.  No step
  reads this. -/
  letGo : Finset ℕ
  deriving DecidableEq

/-- A new checkpoint. -/
def new : State := ⟨false, 0, ∅, ∅, ∅⟩

/-- A step of a thread. -/
inductive Label where
  /-- `wait`: the hook, and the increment of `waiting` if it decides to block. -/
  | wait (t : ℕ) (d : Decision)
  /-- A load of `released` in the loop. -/
  | poll (t : ℕ)
  /-- A load that finds the flag down, and the panic after the timeout. -/
  | timeOut (t : ℕ)
  /-- `release_all`: the store to `released`. -/
  | store (t : ℕ)
  /-- `release_all`: the count reset. -/
  | zero (t : ℕ)
  /-- `reset`: the store to `released`. -/
  | reset (t : ℕ)
  deriving DecidableEq, Repr

namespace State

/-- The thread is in none of the operations. -/
def idle (s : State) (t : ℕ) : Bool := t ∉ s.polling ∧ t ∉ s.releasing

/-- A thread leaves the loop. -/
def leave (s : State) (t : ℕ) : State :=
  { s with polling := s.polling.erase t, letGo := s.letGo.erase t }

/-- `waiting_count`. -/
def waitingCount (s : State) : ℕ := s.waiting

/-- The threads in the loop that no `release_all` has let go. -/
def blocked (s : State) : Finset ℕ := s.polling \ s.letGo

end State

/-- One step; `none` if the thread is not there. -/
def step (s : State) : Label → Option State
  | .wait t d =>
    if s.idle t then
      if d.blocks then some { s with waiting := s.waiting + 1, polling := insert t s.polling }
      else some s
    else none
  | .poll t => if t ∈ s.polling then some (if s.released then s.leave t else s) else none
  | .timeOut t => if t ∈ s.polling ∧ s.released = false then some (s.leave t) else none
  | .store t =>
    if s.idle t then
      some { s with released := true, releasing := insert t s.releasing, letGo := s.polling }
    else none
  | .zero t =>
    if t ∈ s.releasing then some { s with waiting := 0, releasing := s.releasing.erase t } else none
  | .reset t => if s.idle t then some { s with released := false } else none

variable {s s' : State} {l : Label} {ls : List Label} {t : ℕ}

/-- **What a step can do.** -/
inductive Move (s : State) : Label → State → Prop
  | enter (t : ℕ) (d : Decision) : t ∉ s.polling → t ∉ s.releasing → Move s (.wait t d)
    { s with waiting := s.waiting + 1, polling := insert t s.polling }
  | proceed (t : ℕ) (d : Decision) : Move s (.wait t d) s
  | left (t : ℕ) : t ∈ s.polling → s.released = true → Move s (.poll t) (s.leave t)
  | again (t : ℕ) : s.released = false → Move s (.poll t) s
  | timeOut (t : ℕ) : t ∈ s.polling → s.released = false → Move s (.timeOut t) (s.leave t)
  | store (t : ℕ) : t ∉ s.polling → Move s (.store t)
    { s with released := true, releasing := insert t s.releasing, letGo := s.polling }
  | zero (t : ℕ) : t ∈ s.releasing → Move s (.zero t)
    { s with waiting := 0, releasing := s.releasing.erase t }
  | reset (t : ℕ) : Move s (.reset t) { s with released := false }

theorem idle_iff : s.idle t = true ↔ t ∉ s.polling ∧ t ∉ s.releasing := decide_eq_true_iff

theorem step_move (h : step s l = some s') : Move s l s' := by
  cases l with
  | wait t d =>
    simp only [step, Option.ite_none_right_eq_some, idle_iff] at h
    obtain ⟨⟨hp, hr⟩, h⟩ := h
    split_ifs at h <;> cases h
    · exact .enter t d hp hr
    · exact .proceed t d
  | poll t =>
    simp only [step, Option.ite_none_right_eq_some, Option.some.injEq] at h
    obtain ⟨ht, rfl⟩ := h
    cases hrel : s.released with
    | true => exact .left t ht hrel
    | false => exact .again t hrel
  | timeOut t =>
    simp only [step, Option.ite_none_right_eq_some, Option.some.injEq] at h
    obtain ⟨⟨ht, hrel⟩, rfl⟩ := h
    exact .timeOut t ht hrel
  | store t =>
    simp only [step, Option.ite_none_right_eq_some, Option.some.injEq, idle_iff] at h
    obtain ⟨⟨hp, -⟩, rfl⟩ := h
    exact .store t hp
  | zero t =>
    simp only [step, Option.ite_none_right_eq_some, Option.some.injEq] at h
    obtain ⟨ht, rfl⟩ := h
    exact .zero t ht
  | reset t =>
    simp only [step, Option.ite_none_right_eq_some, Option.some.injEq] at h
    obtain ⟨-, rfl⟩ := h
    exact .reset t

/-- Only threads in the loop have been let go, and no thread is in two operations. -/
structure Inv (s : State) : Prop where
  letGo_subset : s.letGo ⊆ s.polling
  disjoint : ∀ t ∈ s.polling, t ∉ s.releasing

theorem inv_new : Inv new := ⟨Finset.Subset.refl _, by simp [new]⟩

theorem Inv.leave (h : Inv s) (t : ℕ) : Inv (s.leave t) where
  letGo_subset := Finset.erase_subset_erase t h.letGo_subset
  disjoint u hu := h.disjoint u (Finset.mem_of_mem_erase hu)

theorem Move.inv (hm : Move s l s') (h : Inv s) : Inv s' := by
  cases hm with
  | enter t d hp hr =>
    refine ⟨h.letGo_subset.trans (Finset.subset_insert ..), fun u hu => ?_⟩
    rcases Finset.mem_insert.1 hu with rfl | hu
    · exact hr
    · exact h.disjoint u hu
  | proceed => exact h
  | left t => exact h.leave t
  | again => exact h
  | timeOut t => exact h.leave t
  | store t hp =>
    refine ⟨Finset.Subset.refl _, fun u hu hur => ?_⟩
    rcases Finset.mem_insert.1 hur with rfl | hur
    · exact hp hu
    · exact h.disjoint u hu hur
  | zero t =>
    exact ⟨h.letGo_subset, fun u hu hur => h.disjoint u hu (Finset.mem_of_mem_erase hur)⟩
  | reset t => exact ⟨h.letGo_subset, h.disjoint⟩

/-! ### A released thread stays released -/

/-- A thread that a `release_all` has let go is in the loop and finds the flag down. -/
def State.Kept (s : State) (t : ℕ) : Prop := t ∈ s.letGo ∧ t ∈ s.polling ∧ s.released = false

/-- No `reset` while a thread that was let go is still in the loop. -/
def ResetOk (s : State) : Label → Prop
  | .reset _ => s.letGo = ∅
  | _ => True

theorem Inv.forall_not_kept_iff (h : Inv s) :
    (∀ t, ¬ s.Kept t) ↔ (s.released = false → s.letGo = ∅) := by
  constructor
  · intro hnone hdown
    exact Finset.eq_empty_of_forall_notMem fun t ht => hnone t ⟨ht, h.letGo_subset ht, hdown⟩
  · rintro hempty t ⟨ht, -, hdown⟩
    rw [hempty hdown] at ht
    exact Finset.notMem_empty t ht

/-- Only a `reset` can keep a thread that was let go. -/
theorem Move.kept (hm : Move s l s') (h : Inv s) (hs : ∀ t, ¬ s.Kept t) :
    (∀ t, ¬ s'.Kept t) ↔ ResetOk s l := by
  rw [(hm.inv h).forall_not_kept_iff]
  rw [h.forall_not_kept_iff] at hs
  cases hm with
  | enter | proceed | again | zero => exact iff_of_true hs trivial
  | left t _ hup =>
    exact iff_of_true (fun hdown => absurd (hup.symm.trans hdown) (by decide)) trivial
  | timeOut t _ hdown =>
    refine iff_of_true (fun _ => ?_) trivial
    rw [State.leave, hs hdown, Finset.erase_empty]
  | store t => exact iff_of_true (fun hdown => absurd hdown.symm Bool.false_ne_true) trivial
  | reset t => exact ⟨fun hempty => hempty rfl, fun hempty _ => hempty⟩

/-- **When a released thread stays released.**  In a run of `wait`, `release_all` and `reset` calls,
no thread that a `release_all` has let go is ever kept in the loop, exactly if every `reset` of the
run finds none of them in the loop. -/
theorem released_stays_iff (hrun : exec step new ls = some s) :
    (∀ s', Visits step new ls s' → ∀ t, ¬ s'.Kept t) ↔
      ∀ s' l, Performs step new ls s' l → ResetOk s' l :=
  forall_visits_iff (P := fun s => ∀ t, ¬ s.Kept t) inv_new
    (fun t ht => absurd ht.1 (Finset.notMem_empty t))
    (fun _ _ _ h hl => ⟨(step_move hl).inv h, (step_move hl).kept h⟩) hrun

/-- A thread that sees the flag before the `reset`. -/
theorem released_stays_seen :
    exec step new ([.wait 0 .blockWithoutCapture, .store 1, .zero 1, .poll 0] ++ [.reset 1]) =
      some new ∧
    ∀ s', Visits step new
      ([.wait 0 .blockWithoutCapture, .store 1, .zero 1, .poll 0] ++ [.reset 1]) s' →
        ∀ t, ¬ s'.Kept t := by
  have hrun : exec step new ([.wait 0 .blockWithoutCapture, .store 1, .zero 1, .poll 0] ++
      [.reset 1]) = some new := by decide
  refine ⟨hrun, (released_stays_iff hrun).2 fun s' l hperf => ?_⟩
  rcases performs_concat.1 hperf with hperf | ⟨hs', rfl⟩
  · have hmem := hperf.mem
    simp only [List.mem_cons, List.not_mem_nil, or_false] at hmem
    rcases hmem with rfl | rfl | rfl | rfl <;> trivial
  · have hbefore : exec step new [.wait 0 .blockWithoutCapture, .store 1, .zero 1, .poll 0] =
        some ⟨true, 0, ∅, ∅, ∅⟩ := by decide
    cases hbefore.symm.trans hs'
    rfl

/-- A thread is let go, but the `reset` comes before its next load: it stays in the loop. -/
theorem released_kept : ∃ s, exec step new
    [.wait 0 .blockWithoutCapture, .store 1, .zero 1, .reset 1] = some s ∧ s.Kept 0 ∧
      step s (.poll 0) = some s ∧
      ¬ ∀ ls s, exec step new ls = some s → ∀ t, ¬ s.Kept t := by
  have hrun : exec step new [.wait 0 .blockWithoutCapture, .store 1, .zero 1, .reset 1] =
      some ⟨false, 0, {0}, ∅, {0}⟩ := by decide
  have hkept : State.Kept ⟨false, 0, {0}, ∅, {0}⟩ 0 := ⟨by decide, by decide, rfl⟩
  exact ⟨_, hrun, hkept, by decide, fun hall => hall _ _ hrun 0 hkept⟩

/-! ### The count -/

/-- The count is that of the blocked threads, unless a `release_all` is halfway. -/
def State.Truthful (s : State) : Prop := s.releasing = ∅ → s.waitingCount = s.blocked.card

/-- With no `release_all` halfway, only threads that were let go leave the loop; and the last count
reset finds no others in it. -/
def CountOk (s : State) : Label → Prop
  | .poll t => s.releasing = ∅ → s.released = true → t ∈ s.letGo
  | .timeOut t => s.releasing = ∅ → t ∈ s.letGo
  | .zero t => s.releasing = {t} → s.blocked = ∅
  | _ => True

/-- A thread that was let go does not count as blocked. -/
theorem blocked_leave (ht : t ∈ s.polling) :
    (s.leave t).blocked.card + (if t ∈ s.letGo then 0 else 1) = s.blocked.card := by
  have hblocked : (s.leave t).blocked = s.blocked.erase t := by
    ext u
    simp only [State.blocked, State.leave, Finset.mem_sdiff, Finset.mem_erase]
    tauto
  rw [hblocked]
  split_ifs with hgo
  · rw [Finset.erase_eq_of_notMem (by simp [State.blocked, hgo]), Nat.add_zero]
  · exact Finset.card_erase_add_one (by simp [State.blocked, ht, hgo])

/-- A thread that leaves the loop keeps the count right exactly if it was let go. -/
theorem truthful_leave (ht : t ∈ s.polling) (hs : s.Truthful) :
    (s.leave t).Truthful ↔ (s.releasing = ∅ → t ∈ s.letGo) := by
  refine forall_congr' fun hquiet => ?_
  have hcount : s.waitingCount = s.blocked.card := hs hquiet
  have hleave := blocked_leave ht
  change s.waitingCount = (s.leave t).blocked.card ↔ _
  split_ifs at hleave with hgo
  · exact iff_of_true (by omega) hgo
  · exact iff_of_false (by omega) hgo

/-- What a step does to the count. -/
theorem Move.truthful (hm : Move s l s') (h : Inv s) (hs : s.Truthful) :
    s'.Truthful ↔ CountOk s l := by
  cases hm with
  | enter t d hp hr =>
    refine iff_of_true (fun hquiet => ?_) trivial
    have hcount : s.waiting = s.blocked.card := hs hquiet
    have hgo : t ∉ s.letGo := fun hgo => hp (h.letGo_subset hgo)
    have hblocked : insert t s.polling \ s.letGo = insert t s.blocked :=
      Finset.insert_sdiff_of_notMem _ hgo
    have hfresh : t ∉ s.blocked := fun ht => hp (Finset.mem_sdiff.1 ht).1
    change s.waiting + 1 = (insert t s.polling \ s.letGo).card
    rw [hblocked, Finset.card_insert_of_notMem hfresh, hcount]
  | proceed => exact iff_of_true hs trivial
  | left t ht hup =>
    rw [truthful_leave ht hs]
    exact forall_congr' fun _ => ⟨fun hgo _ => hgo, fun hgo => hgo hup⟩
  | again t hdown =>
    exact iff_of_true hs fun _ hup => absurd (hup.symm.trans hdown) (by decide)
  | timeOut t ht _ => exact truthful_leave ht hs
  | store t =>
    refine iff_of_true (fun hquiet => ?_) trivial
    exact absurd hquiet (Finset.insert_ne_empty _ _)
  | zero t ht =>
    have hlast : s.releasing.erase t = ∅ ↔ s.releasing = {t} := by
      rw [Finset.erase_eq_empty_iff]
      refine or_iff_right fun hempty => ?_
      rw [hempty] at ht
      exact Finset.notMem_empty t ht
    change (s.releasing.erase t = ∅ → 0 = s.blocked.card) ↔ (s.releasing = {t} → s.blocked = ∅)
    rw [hlast]
    exact forall_congr' fun _ => eq_comm.trans Finset.card_eq_zero
  | reset t => exact iff_of_true hs trivial

/-- **When `waiting_count` tells the truth.**  In every state of a run in which no `release_all` is
halfway, it is the number of the threads in the loop that were not let go, exactly if every step of
the run meets `CountOk`. -/
theorem waiting_count_iff (hrun : exec step new ls = some s) :
    (∀ s', Visits step new ls s' → s'.Truthful) ↔
      ∀ s' l, Performs step new ls s' l → CountOk s' l :=
  forall_visits_iff (P := State.Truthful) inv_new (fun _ => rfl)
    (fun _ _ _ h hl => ⟨(step_move hl).inv h, (step_move hl).truthful h⟩) hrun

/-- A thread that is let go while it is in the loop. -/
theorem waiting_count_released :
    exec step new ([.wait 0 .captureAndBlock, .store 1] ++ [.zero 1]) =
      some ⟨true, 0, {0}, ∅, {0}⟩ ∧
    ∀ s', Visits step new ([.wait 0 .captureAndBlock, .store 1] ++ [.zero 1]) s' →
      s'.Truthful := by
  have hrun : exec step new ([.wait 0 .captureAndBlock, .store 1] ++ [.zero 1]) =
      some ⟨true, 0, {0}, ∅, {0}⟩ := by decide
  refine ⟨hrun, (waiting_count_iff hrun).2 fun s' l hperf => ?_⟩
  rcases performs_concat.1 hperf with hperf | ⟨hs', rfl⟩
  · have hmem := hperf.mem
    simp only [List.mem_cons, List.not_mem_nil, or_false] at hmem
    rcases hmem with rfl | rfl <;> trivial
  · have hbefore : exec step new [.wait 0 .captureAndBlock, .store 1] =
        some ⟨true, 1, {0}, {1}, {0}⟩ := by decide
    cases hbefore.symm.trans hs'
    exact fun _ => by decide

/-- A thread that comes after the `release_all` leaves at once, but stays counted, also after the
`reset`. -/
theorem waiting_count_stale : ∃ s, exec step new
    [.store 0, .zero 0, .wait 1 .blockWithoutCapture, .poll 1, .reset 0] = some s ∧
      s.releasing = ∅ ∧ s.polling = ∅ ∧ s.waitingCount = 1 ∧
      ¬ ∀ ls s, exec step new ls = some s → s.Truthful := by
  have hrun : exec step new [.store 0, .zero 0, .wait 1 .blockWithoutCapture, .poll 1, .reset 0] =
      some ⟨false, 1, ∅, ∅, ∅⟩ := by decide
  exact ⟨_, hrun, rfl, rfl, rfl, fun hall => absurd (hall _ _ hrun rfl) (by decide)⟩

end Checkpoint

end StoneDb
