import StoneDb.SkipList.Memory
import StoneDb.Lib.Execution
import StoneDb.Lib.Tiling

/-!
# Concurrent allocation

Any number of threads call `Arena::alloc` on one arena.  A call loads the bump pointer, computes its
offset and the new pointer from what it has loaded, and compare-exchanges the pointer; when that
fails it loads again.  The state remembers the calls that have returned, in the order of their
successful compare-exchanges.

The blocks of the calls that have returned follow one another from offset `8` to the bump pointer
(`Inv.tiles`), whatever the interleaving, and even though the pointer is null before the first call
returns.
-/

namespace StoneDb

namespace Concurrent.Alloc

/-- Where a thread is in `Arena::alloc`, with its local variables; `size` is the one requested. -/
inductive Pc where
  /-- Between two calls. -/
  | idle
  /-- About to load the pointer. -/
  | load (size : ℕ)
  /-- About to compare-exchange the pointer. -/
  | cas (size : ℕ) (current : Option ℕ) (offset new : ℕ)
  /-- The call has panicked. -/
  | panicked
  deriving DecidableEq

/-- A call that has returned. -/
structure Returned where
  /-- The thread. -/
  thread : ℕ
  /-- The requested size. -/
  size : ℕ
  /-- The offset it returned. -/
  offset : ℕ
  deriving DecidableEq

/-- The block of a call: its offset and its rounded size. -/
def Returned.block (r : Returned) : ℕ × ℕ := (r.offset, Arena.alignSize r.size)

/-- The bytes of that block. -/
def Returned.places (r : Returned) : Set ℕ := span r.offset (Arena.alignSize r.size)

/-- The arena, the threads, and the calls that have returned so far. -/
structure State where
  /-- The arena. -/
  arena : Arena
  /-- The threads. -/
  threads : ℕ → Pc
  /-- The calls that have returned. -/
  returned : List Returned

/-- A move of a thread: start a call, or make a step of it. -/
inductive Label where
  | invoke (t size : ℕ)
  | step (t : ℕ)
  deriving DecidableEq

/-- A Rust allocation, and so a request, is at most `isize::MAX` bytes. -/
def Label.Allowed : Label → Prop
  | invoke _ size => size ≤ isizeMax
  | step _ => True

instance : DecidablePred Label.Allowed
  | .invoke _ size => inferInstanceAs (Decidable (size ≤ isizeMax))
  | .step _ => inferInstanceAs (Decidable True)

/-- Put a thread somewhere else. -/
def State.setPc (s : State) (t : ℕ) (pc : Pc) : State :=
  { s with threads := Function.update s.threads t pc }

/-- One move.  A panic ends a call; its thread may start another one. -/
def step (s : State) : Label → Option State
  | .invoke t size =>
    match s.threads t with
    | .idle | .panicked => some (s.setPc t (.load size))
    | _ => none
  | .step t =>
    match s.threads t with
    | .load size =>
      let current := s.arena.ptr
      match s.arena.reserve current (Arena.alignSize size) with
      | .ok (offset, new) => some (s.setPc t (.cas size current offset new))
      | .error _ => some (s.setPc t .panicked)
    | .cas size current offset new =>
      match s.arena.compareExchangePtr current new with
      | (true, arena) =>
        some { s.setPc t .idle with arena, returned := s.returned ++ [⟨t, size, offset⟩] }
      -- another thread has modified the pointer: retry
      | (false, _) => some (s.setPc t (.load size))
    | .idle | .panicked => none

/-- An arena that no thread uses yet. -/
def State.init (arena : Arena) : State := ⟨arena, fun _ => .idle, []⟩

variable {s s' : State} {l : Label} {t size offset new capacity : ℕ} {current : Option ℕ}

/-! ### The invariant -/

/-- Does the block of a request fit, from the pointer `current`? -/
def Fits (capacity : ℕ) (current : Option ℕ) (size : ℕ) : Prop :=
  current.getD 8 + Arena.alignSize size ≤ capacity

/-- What a thread knows: the new pointer is the end of a block that fits. -/
def PcOk (capacity : ℕ) : Pc → Prop
  | .load size => size ≤ isizeMax
  | .cas size current offset new => size ≤ isizeMax ∧ offset = current.getD 8 ∧
    new = offset + Arena.alignSize size ∧ new ≤ capacity
  | .idle | .panicked => True

/-- **The invariant**: the blocks of the calls that have returned follow one another from `8` to the
bump pointer, which is null as long as there is none. -/
structure Inv (capacity : ℕ) (s : State) : Prop where
  capacity_eq : s.arena.capacity = capacity
  capacity_le : capacity ≤ isizeMax - 7
  tiles : Tiles 8 (s.returned.map Returned.block) (s.arena.ptr.getD 8)
  null : s.arena.ptr = none → s.returned = []
  ptr_le : ∀ p, s.arena.ptr = some p → p ≤ capacity
  size_le : ∀ r ∈ s.returned, r.size ≤ isizeMax
  pc : ∀ t, PcOk capacity (s.threads t)

theorem alignSize_dvd (h : size ≤ isizeMax) : 8 ∣ Arena.alignSize size := by
  simp only [isizeMax] at h
  rw [Arena.alignSize_eq (by omega)]
  exact Nat.dvd_mul_left _ _

theorem alignSize_lt (h : size ≤ isizeMax) : Arena.alignSize size ≤ 2 ^ 63 := by
  simp only [isizeMax] at h
  rw [Arena.alignSize_eq (by omega)]
  omega

namespace Inv

variable (h : Inv capacity s)

include h

theorem getD_ptr_le : s.arena.ptr.getD 8 ≤ isizeMax := by
  have hle := h.capacity_le
  cases hp : s.arena.ptr with
  | none => exact show 8 ≤ isizeMax by decide
  | some p =>
    have := h.ptr_le p hp
    simp only [isizeMax] at *
    rw [Option.getD_some]
    omega

/-- What a load computes: no sum wraps. -/
theorem reserve_eq (hsize : size ≤ isizeMax) :
    s.arena.reserve s.arena.ptr (Arena.alignSize size) =
      if capacity < s.arena.ptr.getD 8 + Arena.alignSize size then .error .outOfMemory
      else .ok (s.arena.ptr.getD 8, s.arena.ptr.getD 8 + Arena.alignSize size) := by
  have hptr := h.getD_ptr_le
  have halign := alignSize_lt hsize
  rw [s.arena.reserve_eq (by simp only [isizeMax] at hptr; omega), h.capacity_eq]

/-- A thread goes somewhere else, and nothing else happens. -/
theorem setPc {pc : Pc} (hpc : PcOk capacity pc) : Inv capacity (s.setPc t pc) where
  capacity_eq := h.capacity_eq
  capacity_le := h.capacity_le
  tiles := h.tiles
  null := h.null
  ptr_le := h.ptr_le
  size_le := h.size_le
  pc t' := by
    simp only [State.setPc, Function.update_apply]
    split_ifs
    · exact hpc
    · exact h.pc t'

end Inv

/-! ### Steps -/

/-- **What a step can do.** -/
inductive Move (capacity : ℕ) (s : State) : Label → State → Prop
  | invoke (t size : ℕ) : s.threads t = .idle ∨ s.threads t = .panicked →
    Move capacity s (.invoke t size) (s.setPc t (.load size))
  | load (t size : ℕ) : s.threads t = .load size → Fits capacity s.arena.ptr size →
    Move capacity s (.step t) (s.setPc t (.cas size s.arena.ptr (s.arena.ptr.getD 8)
      (s.arena.ptr.getD 8 + Arena.alignSize size)))
  | panic (t size : ℕ) : s.threads t = .load size → ¬ Fits capacity s.arena.ptr size →
    Move capacity s (.step t) (s.setPc t .panicked)
  | retry (t size : ℕ) (current : Option ℕ) (offset new : ℕ) :
    s.threads t = .cas size current offset new → s.arena.ptr ≠ current →
    Move capacity s (.step t) (s.setPc t (.load size))
  | return_ (t size : ℕ) (offset new : ℕ) : s.threads t = .cas size s.arena.ptr offset new →
    Move capacity s (.step t) { s.setPc t .idle with
      arena := s.arena.setPtr new, returned := s.returned ++ [⟨t, size, offset⟩] }

theorem step_move (h : Inv capacity s) (hstep : step s l = some s') : Move capacity s l s' := by
  cases l with
  | invoke t size =>
    cases hpc : s.threads t with
    | idle =>
      simp only [step, hpc, Option.some.injEq] at hstep
      subst hstep
      exact .invoke t size (Or.inl hpc)
    | panicked =>
      simp only [step, hpc, Option.some.injEq] at hstep
      subst hstep
      exact .invoke t size (Or.inr hpc)
    | load | cas => simp [step, hpc] at hstep
  | step t =>
    have hok := h.pc t
    cases hpc : s.threads t with
    | idle | panicked => simp [step, hpc] at hstep
    | load size =>
      rw [hpc] at hok
      have hres := h.reserve_eq hok
      by_cases hfit : Fits capacity s.arena.ptr size
      · rw [if_neg (not_lt.2 hfit)] at hres
        simp only [step, hpc, hres, Option.some.injEq] at hstep
        subst hstep
        exact .load t size hpc hfit
      · rw [if_pos (not_le.1 hfit)] at hres
        simp only [step, hpc, hres, Option.some.injEq] at hstep
        subst hstep
        exact .panic t size hpc hfit
    | cas size current offset new =>
      by_cases hcur : s.arena.ptr = current
      · have hcas : s.arena.compareExchangePtr current new = (true, s.arena.setPtr new) :=
          if_pos hcur
        simp only [step, hpc, hcas, Option.some.injEq] at hstep
        subst hstep hcur
        exact .return_ t size offset new hpc
      · have hcas : s.arena.compareExchangePtr current new = (false, s.arena) := if_neg hcur
        simp only [step, hpc, hcas, Option.some.injEq] at hstep
        subst hstep
        exact .retry t size current offset new hpc hcur

/-- **Every move keeps the invariant.** -/
theorem Move.inv (hm : Move capacity s l s') (h : Inv capacity s) (hl : l.Allowed) :
    Inv capacity s' := by
  cases hm with
  | invoke t size => exact h.setPc hl
  | load t size hpc hfit =>
    have hok := h.pc t
    rw [hpc] at hok
    exact h.setPc ⟨hok, rfl, rfl, hfit⟩
  | panic t size => exact h.setPc trivial
  | retry t size current offset new hpc =>
    have hok := h.pc t
    rw [hpc] at hok
    exact h.setPc hok.1
  | return_ t size offset new hpc =>
    have hok := h.pc t
    rw [hpc] at hok
    obtain ⟨hsize, hoff, hnew, hle⟩ := hok
    have hidle : Inv capacity (s.setPc t .idle) := h.setPc trivial
    refine ⟨h.capacity_eq, h.capacity_le, ?_, fun hnone => ?_, fun p hp => ?_, fun r hr => ?_,
      hidle.pc⟩
    · -- the new block begins where the last one ends, the null pointer standing for `8`
      have htiles := h.tiles.concat (Arena.alignSize size)
      rw [← hoff, ← hnew] at htiles
      simpa [Returned.block] using htiles
    · simp at hnone
    · cases hp
      exact hle
    · rcases List.mem_append.1 hr with hr | hr
      · exact h.size_le r hr
      · rw [List.mem_singleton.1 hr]
        exact hsize

/-- The bump pointer only moves up, and only when a call returns. -/
theorem Move.len_le (hm : Move capacity s l s') (h : Inv capacity s) :
    s.arena.len ≤ s'.arena.len := by
  cases hm with
  | invoke | load | panic | retry => exact le_rfl
  | return_ t size offset new hpc =>
    have hok := h.pc t
    rw [hpc] at hok
    obtain ⟨-, hoff, hnew, -⟩ := hok
    show s.arena.ptr.getD 0 ≤ new
    cases hp : s.arena.ptr with
    | none => exact Nat.zero_le _
    | some p =>
      rw [hp, Option.getD_some] at hoff
      rw [Option.getD_some]
      omega

theorem inv_init {arena : Arena} (hnew : Arena.withCapacity capacity = .ok arena) :
    Inv capacity (.init arena) := by
  have hle : capacity ≤ isizeMax - 7 ∧ arena = ⟨none, capacity, fun _ => none⟩ := by
    unfold Arena.withCapacity at hnew
    split_ifs at hnew with hgt
    exact ⟨not_lt.1 hgt, (Except.ok.inj hnew).symm⟩
  obtain ⟨hle, rfl⟩ := hle
  exact ⟨rfl, hle, .nil, fun _ => rfl, fun p hp => (by cases hp), fun r hr => (by cases hr),
    fun _ => trivial⟩

theorem exec_inv {ls : List Label} (h : Inv capacity s) (hls : ∀ l ∈ ls, l.Allowed)
    (hexec : exec step s ls = some s') : Inv capacity s' ∧ s.arena.len ≤ s'.arena.len :=
  exec_induction (I := fun _ s' => Inv capacity s' ∧ s.arena.len ≤ s'.arena.len)
    (P := Label.Allowed) ⟨h, le_rfl⟩ (fun _ _ _ _ hl _ ⟨h₁, hle⟩ hstep =>
      ⟨(step_move h₁ hstep).inv h₁ hl, hle.trans ((step_move h₁ hstep).len_le h₁)⟩) hls hexec

/-! ### The blocks -/

/-- The allocator in one state: the blocks that it has handed out, and what its steps can do. -/
structure Sound (capacity : ℕ) (s : State) : Prop where
  /-- Offsets are multiples of 8, and never the reserved offset `0`. -/
  aligned : ∀ r ∈ s.returned, 8 ∣ r.offset ∧ 8 ≤ r.offset
  /-- A block is as large as requested, and inside the arena. -/
  inside : ∀ r ∈ s.returned, r.size ≤ Arena.alignSize r.size ∧
    r.offset + Arena.alignSize r.size ≤ capacity
  /-- The blocks of different calls are disjoint. -/
  disjoint : s.returned.Pairwise fun r r' => Disjoint r.places r'.places
  /-- Together they cover everything from `8` to the bump pointer. -/
  cover : ∀ x, (8 ≤ x ∧ x < s.arena.len) ↔ ∃ r ∈ s.returned, x ∈ r.places
  /-- A call panics exactly when its block does not fit. -/
  panics : ∀ t size, s.threads t = .load size →
    ((∃ s', step s (.step t) = some s' ∧ s'.threads t = .panicked) ↔
      ¬ Fits capacity s.arena.ptr size)
  /-- A call that panics does not move the pointer. -/
  panicked : ∀ t s', step s (.step t) = some s' → s'.threads t = .panicked → s'.arena = s.arena
  /-- The pointer never moves down. -/
  len_le : ∀ ls s', (∀ l ∈ ls, l.Allowed) → exec step s ls = some s' →
    s.arena.len ≤ s'.arena.len

@[simp] theorem setPc_self {pc : Pc} : (s.setPc t pc).threads t = pc := Function.update_self ..

/-- A step that ends in a panic is the one of a block that does not fit. -/
theorem Move.panicked (hm : Move capacity s (.step t) s') (hp : s'.threads t = .panicked) :
    s'.arena = s.arena ∧ ∃ size, s.threads t = .load size ∧ ¬ Fits capacity s.arena.ptr size := by
  cases hm with
  | load | retry | return_ => simp [State.setPc] at hp
  | panic t size hpc hfit => exact ⟨rfl, size, hpc, hfit⟩

theorem Inv.sound (h : Inv capacity s) : Sound capacity s where
  aligned r hr := by
    have hall := h.tiles.dvd (d := 8) (dvd_refl 8) fun p hp => by
      obtain ⟨r, hr, rfl⟩ := List.mem_map.1 hp
      exact alignSize_dvd (h.size_le r hr)
    have hmem := List.mem_map_of_mem (f := Returned.block) hr
    exact ⟨hall.2 _ hmem, h.tiles.le_offset hmem⟩
  inside r hr := by
    have hsize := h.size_le r hr
    have hend := h.tiles.end_le (List.mem_map_of_mem (f := Returned.block) hr)
    refine ⟨?_, ?_⟩
    · simp only [isizeMax] at hsize
      rw [Arena.alignSize_eq (by omega)]
      omega
    · cases hp : s.arena.ptr with
      | none => simp [h.null hp] at hr
      | some p =>
        rw [hp, Option.getD_some] at hend
        exact hend.trans (h.ptr_le p hp)
  disjoint := by
    have hdisjoint := h.tiles.disjoint
    rwa [List.pairwise_map] at hdisjoint
  cover x := by
    have hiff := h.tiles.mem_iff (x := x)
    simp only [List.mem_map, exists_exists_and_eq_and] at hiff
    refine Iff.trans ?_ hiff
    rw [Arena.len]
    cases hp : s.arena.ptr with
    | none =>
      rw [Option.getD_none, Option.getD_none]
      omega
    | some p => rw [Option.getD_some, Option.getD_some]
  panics t size hpc := by
    have hok := h.pc t
    rw [hpc] at hok
    constructor
    · rintro ⟨s', hstep, hp⟩
      obtain ⟨-, size', hpc', hfit⟩ := (step_move h hstep).panicked hp
      rw [hpc] at hpc'
      cases hpc'
      exact hfit
    · intro hfit
      have hres := h.reserve_eq hok
      rw [if_pos (not_le.1 hfit)] at hres
      exact ⟨s.setPc t .panicked, by simp only [step, hpc, hres], setPc_self⟩
  panicked t s' hstep hp := ((step_move h hstep).panicked hp).1
  len_le ls s' hls hexec := (exec_inv h hls hexec).2

/-- **Concurrent allocation is sound**, under every interleaving of any number of threads: the
blocks of all calls that have returned are aligned, inside the arena, disjoint, and cover it from
offset `8` to the bump pointer; a call panics exactly when its block does not fit, without moving
the pointer; and the pointer never moves down. -/
theorem alloc_sound {capacity : ℕ} {arena : Arena} (hnew : Arena.withCapacity capacity = .ok arena)
    {ls : List Label} (hls : ∀ l ∈ ls, l.Allowed) {s : State}
    (hexec : exec step (.init arena) ls = some s) : Sound capacity s :=
  (exec_inv (inv_init hnew) hls hexec).1.sound

/-- A race for the first block.  Both threads load the null pointer; the first one loses, loads
again, and panics. -/
def firstRace : List Label :=
  [.invoke 0 20, .invoke 1 3, .step 0, .step 1, .step 1, .step 0, .step 0]

theorem alloc_sound_firstRace : ∃ arena s, Arena.withCapacity 32 = .ok arena ∧
    exec step (.init arena) firstRace = some s ∧ Sound 32 s ∧ s.threads 0 = .panicked ∧
      s.returned = [⟨1, 3, 8⟩] := by
  obtain ⟨arena, harena⟩ : ∃ arena, Arena.withCapacity 32 = .ok arena := ⟨_, rfl⟩
  have hok : (Arena.withCapacity 32).toOption.any (fun arena =>
      (exec step (.init arena) firstRace).any fun s =>
        decide (s.threads 0 = .panicked ∧ s.returned = [⟨1, 3, 8⟩])) = true := by decide +kernel
  simp only [harena, Except.toOption, Option.any_some, Option.any_eq_true,
    decide_eq_true_eq] at hok
  obtain ⟨s, hs, hend⟩ := hok
  exact ⟨arena, s, harena, hs, alloc_sound harena (by decide) hs, hend⟩

end Concurrent.Alloc

end StoneDb
