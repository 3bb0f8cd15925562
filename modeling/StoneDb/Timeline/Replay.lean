import StoneDb.Lib.Execution
import StoneDb.Timeline.Serialize
import Mathlib.Data.List.Nodup

/-!
# Replaying a timeline

A line of the timeline shows everything of its call but, for events with a `seq` of their own, the
number of the line: `readCall` reads the call back (`readCall_line`).

Threads that call `serialize_event` at the same time draw their numbers from one counter, and their
lines come in any order.  `replay_sorted` : however the threads interleave, sorting the lines
without a `seq` of their own by `seq` and reading them back gives their calls in the order of the
draws, in which a call that has returned comes before one that has yet to draw.
-/

namespace StoneDb

/-! ### Reading a line -/

namespace SerdeJson

variable (serde : SerdeJson) (obj : Json serde.Map)

/-- A field of type `String`. -/
def string (name : String) : Option String :=
  match serde.field obj name with
  | some (.string s) => some s
  | _ => none

/-- A field of type `bool`. -/
def bool (name : String) : Option Bool :=
  match serde.field obj name with
  | some (.bool b) => some b
  | _ => none

/-- A field of type `u64` or `usize`. -/
def u64 (name : String) : Option UInt64 :=
  match serde.field obj name with
  | some (.number n) => some (.ofNat n)
  | _ => none

/-- A field of type `Option<u64>`. -/
def optionU64 (name : String) : Option (Option UInt64) :=
  match serde.field obj name with
  | some (.number n) => some (some (.ofNat n))
  | some .null => some none
  | _ => none

/-- The event of a line, by its tag. -/
def readEvent : Option TimelineEvent := do
  let key ← serde.string obj "key"
  match ← serde.string obj "event" with
  | "skiplist_insert" =>
    return .skipListInsert key (← serde.string obj "value") (← serde.u64 obj "level")
      (← serde.string obj "result")
  | "skiplist_get" => return .skipListGet key (← serde.bool obj "found")
  | "skiplist_contains" => return .skipListContains key (← serde.bool obj "found")
  | "skiplist_lower_bound" => return .skipListLowerBound key (← serde.bool obj "found")
  | "memtable_put" =>
    return .memTablePut key (← serde.string obj "value") (← serde.u64 obj "seq")
      (← serde.u64 obj "size")
  | "memtable_delete" =>
    return .memTableDelete key (← serde.u64 obj "seq") (← serde.u64 obj "size")
  | "memtable_get" =>
    return .memTableGet key (← serde.bool obj "found") (← serde.optionU64 obj "seq")
  | "memtable_contains" => return .memTableContains key (← serde.bool obj "found")
  | _ => none

/-- The call of a line. -/
def readCall : Option LineCall := do
  return ⟨← serde.readEvent obj, ← serde.u64 obj "ts", ← serde.string obj "thread"⟩

/-- The number of a line. -/
def seqNumber : ℕ :=
  match serde.field obj "seq" with
  | some (.number n) => n
  | _ => 0

/-- The event of the line has no `seq` of its own. -/
def Unnumbered : Bool := (serde.readCall obj).any fun c => c.event.seq.isNone

end SerdeJson

variable {serde : SerdeJson} {c : LineCall} {start seq n : UInt64}

/-- **A line can be read back**, whatever number it has drawn. -/
theorem readCall_line (hserde : serde.Documented) (c : LineCall) (seq : UInt64) :
    serde.readCall (line serde c seq) = some c := by
  obtain ⟨event, now, thread⟩ := c
  cases event with
  | memTableGet key found seq' =>
    cases seq' <;>
      simp [SerdeJson.readCall, SerdeJson.readEvent, SerdeJson.string, SerdeJson.bool,
        SerdeJson.u64, SerdeJson.optionU64, line_get hserde, TimelineEvent.fields,
        TimelineEvent.ofU64, TimelineEvent.ofOptionU64]
  | skipListInsert | skipListGet | skipListContains | skipListLowerBound | memTablePut
  | memTableDelete | memTableContains =>
    simp [SerdeJson.readCall, SerdeJson.readEvent, SerdeJson.string, SerdeJson.bool,
      SerdeJson.u64, line_get hserde, TimelineEvent.fields, TimelineEvent.ofU64]

theorem unnumbered_line (hserde : serde.Documented) (c : LineCall) (n : UInt64) :
    serde.Unnumbered (line serde c n) = c.event.seq.isNone := by
  rw [SerdeJson.Unnumbered, readCall_line hserde]
  rfl

/-! ### Threads -/

namespace Timeline

/-- Where a thread is. -/
inductive Pc where
  /-- Not in `serialize_event`. -/
  | idle
  /-- `serialize_event`: before `next_seq`, with the time and the thread name read. -/
  | called (c : LineCall)
  /-- `serialize_event`: before the return of the line. -/
  | drawn (c : LineCall) (seq : UInt64)

/-- The counter, and the threads that draw from it. -/
structure State where
  /-- `SEQ`. -/
  seq : UInt64
  /-- The threads. -/
  pc : ℕ → Pc
  /-- The calls, in the order of the draws.  No step reads this. -/
  order : List LineCall
  /-- The calls that have returned, with the numbers they had drawn, in the order of the returns. -/
  returned : List (LineCall × UInt64)

/-- A step of a thread. -/
inductive Label where
  /-- The call. -/
  | call (t : ℕ) (c : LineCall)
  /-- `next_seq`. -/
  | draw (t : ℕ)
  /-- The return of the line. -/
  | ret (t : ℕ)

/-- Nobody there, with the counter at `start`. -/
def init (start : UInt64) : State := ⟨start, fun _ => .idle, [], []⟩

/-- One step; `none` if the thread is not there. -/
def step (s : State) : Label → Option State
  | .call t c =>
    match s.pc t with
    | .idle => some { s with pc := Function.update s.pc t (.called c) }
    | _ => none
  | .draw t =>
    match s.pc t with
    | .called c =>
      let (seq, next) := nextSeq s.seq
      some { s with seq := next, pc := Function.update s.pc t (.drawn c seq),
                    order := s.order ++ [c] }
    | _ => none
  | .ret t =>
    match s.pc t with
    | .drawn c seq =>
      some { s with pc := Function.update s.pc t .idle, returned := s.returned ++ [(c, seq)] }
    | _ => none

/-- The lines that have been returned. -/
def State.lines (serde : SerdeJson) (s : State) : List (Json serde.Map) :=
  s.returned.map fun x => line serde x.1 x.2

/-- The number that the draw `i` gives. -/
def State.Numbered (start : UInt64) (s : State) (x : LineCall × UInt64) : Prop :=
  ∃ i, s.order[i]? = some x.1 ∧ x.2 = start + .ofNat i

variable {s s' : State} {l : Label} {ls : List Label} {t u : ℕ}

/-- **What a step can do.** -/
inductive Move (s : State) : Label → State → Prop
  | call (t : ℕ) (c : LineCall) : s.pc t = .idle →
    Move s (.call t c) { s with pc := Function.update s.pc t (.called c) }
  | draw (t : ℕ) (c : LineCall) : s.pc t = .called c → Move s (.draw t)
    { s with seq := s.seq + 1, pc := Function.update s.pc t (.drawn c s.seq),
             order := s.order ++ [c] }
  | ret (t : ℕ) (c : LineCall) (seq : UInt64) : s.pc t = .drawn c seq → Move s (.ret t)
    { s with pc := Function.update s.pc t .idle, returned := s.returned ++ [(c, seq)] }

theorem step_move (h : step s l = some s') : Move s l s' := by
  cases l with
  | call t c =>
    cases hpc : s.pc t <;> simp only [step, hpc, Option.some.injEq, reduceCtorEq] at h
    subst h
    exact .call t c hpc
  | draw t =>
    cases hpc : s.pc t <;> simp only [step, hpc, nextSeq, Option.some.injEq, reduceCtorEq] at h
    subst h
    exact .draw t _ hpc
  | ret t =>
    cases hpc : s.pc t <;> simp only [step, hpc, Option.some.injEq, reduceCtorEq] at h
    subst h
    exact .ret t _ _ hpc

/-- Each draw has been returned once, or its thread is about to return it. -/
structure Inv (start : UInt64) (s : State) : Prop where
  seq : s.seq = start + .ofNat s.order.length
  pending : ∀ t c n, s.pc t = .drawn c n → s.Numbered start (c, n) ∧ (c, n) ∉ s.returned
  unique : ∀ t u c n, s.pc t = .drawn c n → ∀ c', s.pc u = .drawn c' n → t = u
  returned : ∀ x ∈ s.returned, s.Numbered start x
  nodup : s.returned.Nodup
  all : ∀ i c, s.order[i]? = some c →
    (c, start + .ofNat i) ∈ s.returned ∨ ∃ t, s.pc t = .drawn c (start + .ofNat i)

theorem inv_init (start : UInt64) : Inv start (init start) where
  seq := by simp [init]
  pending t c n h := by cases h
  unique t u c n h := by cases h
  returned x hx := by cases hx
  nodup := List.nodup_nil
  all i c h := by simp [init] at h

theorem drawn_update {p : Pc} (hp : ∀ c n, p ≠ .drawn c n)
    (h : Function.update s.pc t p u = .drawn c n) : u ≠ t ∧ s.pc u = .drawn c n := by
  by_cases hu : u = t
  · subst hu
    rw [Function.update_self] at h
    exact absurd h (hp c n)
  · rw [Function.update_of_ne hu] at h
    exact ⟨hu, h⟩

/-- Later draws do not change the numbers of the earlier ones. -/
theorem State.Numbered.mono {x : LineCall × UInt64} (h : s.Numbered start x)
    (horder : s.order <+: s'.order) : s'.Numbered start x := by
  obtain ⟨i, hi, hx⟩ := h
  obtain ⟨later, hlater⟩ := horder
  obtain ⟨hlt, -⟩ := List.getElem?_eq_some_iff.1 hi
  exact ⟨i, by rwa [← hlater, List.getElem?_append_left hlt], hx⟩

/-- The draw that comes next has a number of its own. -/
theorem State.Numbered.ne_next {x : LineCall × UInt64} (h : s.Numbered start x)
    (hwrap : start.toNat + (s.order.length + 1) ≤ 2 ^ 64) :
    x.2 ≠ start + .ofNat s.order.length := by
  obtain ⟨i, hi, hx⟩ := h
  obtain ⟨hlt, -⟩ := List.getElem?_eq_some_iff.1 hi
  intro heq
  have hnat := congrArg UInt64.toNat (hx.symm.trans heq)
  rw [toNat_add_ofNat, toNat_add_ofNat, Nat.mod_eq_of_lt (by omega),
    Nat.mod_eq_of_lt (by omega)] at hnat
  omega

/-- A number is drawn. -/
theorem Inv.draw (h : Inv start s) (hpc : s.pc t = .called c)
    (hwrap : start.toNat + (s.order.length + 1) ≤ 2 ^ 64) :
    Inv start { s with seq := s.seq + 1, pc := Function.update s.pc t (.drawn c s.seq),
                       order := s.order ++ [c] } := by
  have hmono : ∀ {x : LineCall × UInt64}, s.Numbered start x → State.Numbered start
      { s with seq := s.seq + 1, pc := Function.update s.pc t (.drawn c s.seq),
               order := s.order ++ [c] } x := fun hx => hx.mono (List.prefix_append ..)
  have hfresh : ∀ {x : LineCall × UInt64}, s.Numbered start x → x.2 ≠ s.seq := by
    intro x hx
    rw [h.seq]
    exact hx.ne_next hwrap
  -- the thread that draws, and the others
  have hcases : ∀ u c' n, Function.update s.pc t (.drawn c s.seq) u = .drawn c' n →
      (u = t ∧ c' = c ∧ n = s.seq) ∨ (u ≠ t ∧ s.pc u = .drawn c' n) := by
    intro u c' n hu
    by_cases hut : u = t
    · subst hut
      rw [Function.update_self] at hu
      cases hu
      exact Or.inl ⟨rfl, rfl, rfl⟩
    · rw [Function.update_of_ne hut] at hu
      exact Or.inr ⟨hut, hu⟩
  refine ⟨?_, fun u c' n hu => ?_, fun u w c' n hu c'' hw => ?_,
    fun x hx => hmono (h.returned x hx), h.nodup, fun i c' hi => ?_⟩
  · rw [h.seq, List.length_append, List.length_singleton, UInt64.ofNat_add, UInt64.add_assoc]
    rfl
  · rcases hcases u c' n hu with ⟨-, rfl, rfl⟩ | ⟨-, hu⟩
    · refine ⟨⟨s.order.length, by simp, h.seq⟩, fun hmem => ?_⟩
      exact hfresh (h.returned _ hmem) rfl
    · obtain ⟨hnum, hmem⟩ := h.pending u c' n hu
      exact ⟨hmono hnum, hmem⟩
  · rcases hcases u c' n hu with ⟨rfl, -, rfl⟩ | ⟨-, hu'⟩ <;>
      rcases hcases w c'' _ hw with ⟨rfl, -, hn⟩ | ⟨-, hw'⟩
    · rfl
    · exact absurd rfl (hfresh (h.pending w c'' _ hw').1)
    · exact absurd hn (hfresh (h.pending u c' n hu').1)
    · exact h.unique u w c' n hu' c'' hw'
  · rcases Nat.lt_or_ge i s.order.length with hlt | hge
    · rw [List.getElem?_append_left hlt] at hi
      rcases h.all i c' hi with hmem | ⟨u, hu⟩
      · exact Or.inl hmem
      · have hut : u ≠ t := by
          rintro rfl
          rw [hpc] at hu
          cases hu
        exact Or.inr ⟨u, (Function.update_of_ne hut ..).trans hu⟩
    · rw [List.getElem?_append_right hge] at hi
      obtain ⟨hzero, rfl⟩ : i - s.order.length = 0 ∧ c = c' := by
        cases hsub : i - s.order.length <;> simp_all
      obtain rfl : i = s.order.length := by omega
      exact Or.inr ⟨t, (Function.update_self ..).trans (by rw [h.seq])⟩

/-- A line is returned. -/
theorem Inv.ret (h : Inv start s) (hpc : s.pc t = .drawn c n) :
    Inv start { s with pc := Function.update s.pc t .idle,
                       returned := s.returned ++ [(c, n)] } := by
  obtain ⟨hnum, hmem⟩ := h.pending t c n hpc
  refine ⟨h.seq, fun u c' n' hu => ?_, fun u w c' n' hu c'' hw => ?_, fun x hx => ?_, ?_,
    fun i c' hi => ?_⟩
  · obtain ⟨hut, hu⟩ := drawn_update (by rintro _ _ ⟨⟩) hu
    obtain ⟨hnum', hmem'⟩ := h.pending u c' n' hu
    refine ⟨hnum', fun hx => ?_⟩
    rcases List.mem_append.1 hx with hx | hx
    · exact hmem' hx
    · cases List.mem_singleton.1 hx
      exact hut (h.unique u t c n hu c hpc)
  · obtain ⟨-, hu⟩ := drawn_update (by rintro _ _ ⟨⟩) hu
    obtain ⟨-, hw⟩ := drawn_update (by rintro _ _ ⟨⟩) hw
    exact h.unique u w c' n' hu c'' hw
  · rcases List.mem_append.1 hx with hx | hx
    · exact h.returned x hx
    · rwa [List.mem_singleton.1 hx]
  · exact List.nodup_append'.2 ⟨h.nodup, List.nodup_singleton _, by simpa using hmem⟩
  · rcases h.all i c' hi with hx | ⟨u, hu⟩
    · exact Or.inl (List.mem_append_left _ hx)
    · by_cases hut : u = t
      · subst hut
        cases hpc.symm.trans hu
        exact Or.inl (List.mem_append_right _ (List.mem_singleton_self _))
      · exact Or.inr ⟨u, (Function.update_of_ne hut ..).trans hu⟩

/-- Draws are never taken back. -/
theorem Move.order_grows (hm : Move s l s') : s.order <+: s'.order := by
  cases hm with
  | call | ret => exact List.prefix_rfl
  | draw => exact List.prefix_append ..

theorem Move.inv (hm : Move s l s') (hwrap : start.toNat + s'.order.length ≤ 2 ^ 64)
    (h : Inv start s) : Inv start s' := by
  cases hm with
  | call t c hpc =>
    refine ⟨h.seq, fun u c' n hu => ?_, fun u w c' n hu c'' hw => ?_, h.returned, h.nodup,
      fun i c' hi => ?_⟩
    · exact h.pending u c' n (drawn_update (by rintro _ _ ⟨⟩) hu).2
    · exact h.unique u w c' n (drawn_update (by rintro _ _ ⟨⟩) hu).2 c''
        (drawn_update (by rintro _ _ ⟨⟩) hw).2
    · rcases h.all i c' hi with hx | ⟨u, hu⟩
      · exact Or.inl hx
      · have hut : u ≠ t := by
          rintro rfl
          rw [hpc] at hu
          cases hu
        exact Or.inr ⟨u, (Function.update_of_ne hut ..).trans hu⟩
  | draw t c hpc =>
    rw [List.length_append, List.length_singleton] at hwrap
    exact h.draw hpc hwrap
  | ret t c n hpc => exact h.ret hpc

/-! ### Sorting the lines -/

/-- The calls with their numbers. -/
def numberedCalls (start : UInt64) (order : List LineCall) : List (LineCall × UInt64) :=
  order.zipIdx.map fun x => (x.1, start + .ofNat x.2)

theorem numberedCalls_getElem? (start : UInt64) (order : List LineCall) (i : ℕ) :
    (numberedCalls start order)[i]? = order[i]?.map fun c => (c, start + .ofNat i) := by
  simp [numberedCalls, List.getElem?_zipIdx, Function.comp_def]

theorem mem_numberedCalls {x : LineCall × UInt64} :
    x ∈ numberedCalls start s.order ↔ s.Numbered start x := by
  rw [List.mem_iff_getElem?]
  simp only [numberedCalls_getElem?, Option.map_eq_some_iff, State.Numbered, Prod.ext_iff]
  constructor
  · rintro ⟨i, c, hc, rfl, hx⟩
    exact ⟨i, hc, hx.symm⟩
  · rintro ⟨i, hc, hx⟩
    exact ⟨i, x.1, hc, rfl, hx.symm⟩

theorem numberedCalls_sorted {order : List LineCall} (hwrap : start.toNat + order.length ≤ 2 ^ 64) :
    (numberedCalls start order).Pairwise fun x y => x.2.toNat < y.2.toNat := by
  rw [pairwise_iff_getElem?]
  simp only [numberedCalls_getElem?, Option.map_eq_some_iff]
  rintro i j hij _ _ ⟨c, hc, rfl⟩ ⟨c', hc', rfl⟩
  have hi := lt_of_call hc
  have hj := lt_of_call hc'
  rw [toNat_add_ofNat, toNat_add_ofNat, Nat.mod_eq_of_lt (by omega), Nat.mod_eq_of_lt (by omega)]
  omega

/-- With nobody in `serialize_event`, every draw has been returned. -/
theorem Inv.returned_perm (h : Inv start s) (hwrap : start.toNat + s.order.length ≤ 2 ^ 64)
    (hidle : ∀ t, s.pc t = .idle) : s.returned.Perm (numberedCalls start s.order) := by
  have hnodup : (numberedCalls start s.order).Nodup :=
    (numberedCalls_sorted hwrap).imp fun hlt heq => by
      rw [heq] at hlt
      exact lt_irrefl _ hlt
  refine (List.perm_ext_iff_of_nodup h.nodup hnodup).2 fun x => ?_
  rw [mem_numberedCalls]
  refine ⟨h.returned x, ?_⟩
  rintro ⟨i, hi, hx⟩
  rcases h.all i x.1 hi with hmem | ⟨t, ht⟩
  · rwa [← hx] at hmem
  · rw [hidle t] at ht
    cases ht

/-- A list sorted by its keys, put in another order, is found again by sorting. -/
theorem mergeSort_eq_of_perm {α : Type} {key : α → ℕ} {l l' : List α} (hperm : l.Perm l')
    (hsorted : l'.Pairwise fun x y => key x < key y) :
    l.mergeSort (fun x y => key x ≤ key y) = l' := by
  have hsort : (l.mergeSort fun x y => key x ≤ key y).Pairwise fun x y => key x ≤ key y := by
    refine (List.pairwise_mergeSort (fun x y z hxy hyz => ?_) (fun x y => ?_) l).imp fun h => ?_
    · simp only [decide_eq_true_eq] at hxy hyz ⊢
      exact hxy.trans hyz
    · simpa using le_total (key x) (key y)
    · exact of_decide_eq_true h
  have hmerge : (l.mergeSort fun x y => key x ≤ key y).Perm l' :=
    (List.mergeSort_perm l _).trans hperm
  -- no two elements have the same key
  have hsymm : Std.Symm fun x y : α => key x = key y → x = y :=
    ⟨fun _ _ h heq => (h heq.symm).symm⟩
  have hinj : ∀ x ∈ l', ∀ y ∈ l', key x = key y → x = y := fun x hx y hy =>
    List.Pairwise.forall_of_forall (R := fun x y => key x = key y → x = y) (fun _ _ _ => rfl)
      (hsorted.imp fun hlt heq => absurd heq hlt.ne) hx hy
  exact hmerge.eq_of_pairwise (fun x y hx hy hxy hyx => hinj x (hmerge.subset hx) y hy
    (le_antisymm hxy hyx)) hsort (hsorted.imp Nat.le_of_lt)

theorem inv_run (hwrap : start.toNat + s.order.length ≤ 2 ^ 64)
    (hrun : exec step (init start) ls = some s) : Inv start s := by
  refine exec_induction (I := fun _ s => start.toNat + s.order.length ≤ 2 ^ 64 → Inv start s)
    (P := fun _ => True) (fun _ => inv_init start) ?_ (fun _ _ => trivial) hrun hwrap
  intro ls s₁ l s₂ _ _ h hl hwrap
  have hm := step_move hl
  refine hm.inv hwrap (h ?_)
  have hle := hm.order_grows.length_le
  omega

theorem order_grows (hrun : exec step s ls = some s') : s.order <+: s'.order :=
  exec_induction (I := fun _ s' => s.order <+: s'.order) (P := fun _ => True) List.prefix_rfl
    (fun _ _ _ _ _ _ h hl => h.trans (step_move hl).order_grows) (fun _ _ => trivial) hrun

/-- The calls without a `seq` of their own, with their numbers. -/
def unnumberedCalls (start : UInt64) (order : List LineCall) : List (LineCall × UInt64) :=
  (numberedCalls start order).filter fun x => x.1.event.seq.isNone

/-- The lines of these calls are sorted by `seq`. -/
theorem unnumberedCalls_sorted (hserde : serde.Documented) {order : List LineCall}
    (hwrap : start.toNat + order.length ≤ 2 ^ 64) :
    ((unnumberedCalls start order).map fun x => line serde x.1 x.2).Pairwise fun x y =>
      serde.seqNumber x < serde.seqNumber y := by
  have hkey : ∀ x ∈ unnumberedCalls start order,
      serde.seqNumber (line serde x.1 x.2) = x.2.toNat := by
    intro x hx
    have hnone : x.1.event.seq = none := Option.isNone_iff_eq_none.1 (List.mem_filter.1 hx).2
    have hown : serde.field (line serde x.1 x.2) "seq" = some (.number x.2.toNat) :=
      line_own_seq hserde fun v hv => by
        rw [hnone] at hv
        cases hv
    rw [SerdeJson.seqNumber, hown]
  refine List.pairwise_map.2 (((numberedCalls_sorted hwrap).filter _).imp_of_mem ?_)
  intro x y hx hy hlt
  rwa [hkey x hx, hkey y hy]

/-- Read back, they are the calls in the order of the draws. -/
theorem unnumberedCalls_read (hserde : serde.Documented) (start : UInt64) (order : List LineCall) :
    ((unnumberedCalls start order).map fun x => line serde x.1 x.2).map serde.readCall =
      (order.filter fun c => c.event.seq.isNone).map some := by
  have horder : (numberedCalls start order).map Prod.fst = order := by
    rw [numberedCalls, List.map_map]
    exact List.zipIdx_map_fst 0 order
  conv_rhs => rw [← horder, List.filter_map, List.map_map]
  rw [List.map_map]
  exact List.map_congr_left fun x _ => readCall_line hserde x.1 x.2

/-- **Replay.**  Threads have called `serialize_event` in any interleaving, all calls have returned,
and the counter has not wrapped.  The lines without a `seq` of their own, in whatever order they
have come, sorted by `seq` and read back, are the calls for these in the order of the draws; and a
call that has returned at some point of the run comes before all that draw later. -/
theorem replay_sorted (hserde : serde.Documented)
    (hrun : exec step (init start) ls = some s) (hidle : ∀ t, s.pc t = .idle)
    (hwrap : start.toNat + s.order.length ≤ 2 ^ 64) {file : List (Json serde.Map)}
    (hfile : file.Perm (s.lines serde)) :
    ((file.filter serde.Unnumbered).mergeSort fun x y =>
        serde.seqNumber x ≤ serde.seqNumber y).map serde.readCall =
      (s.order.filter fun c => c.event.seq.isNone).map some ∧
    ∀ ls₁ ls₂ s₁, ls = ls₁ ++ ls₂ → exec step (init start) ls₁ = some s₁ →
      s₁.order <+: s.order ∧ ∀ x ∈ s₁.returned, x.1 ∈ s₁.order := by
  have hperm : s.returned.Perm (numberedCalls start s.order) :=
    (inv_run hwrap hrun).returned_perm hwrap hidle
  have hlines : (file.filter serde.Unnumbered).Perm
      ((unnumberedCalls start s.order).map fun x => line serde x.1 x.2) := by
    refine (hfile.filter _).trans ?_
    rw [State.lines, List.filter_map]
    refine List.Perm.map _ ?_
    simp only [Function.comp_def, unnumbered_line hserde]
    exact hperm.filter _
  refine ⟨?_, fun ls₁ ls₂ s₁ hls hrun₁ => ?_⟩
  · rw [mergeSort_eq_of_perm hlines (unnumberedCalls_sorted hserde hwrap),
      unnumberedCalls_read hserde]
  · subst hls
    obtain ⟨s₂, hs₂, hrest⟩ := exec_append_eq_some.1 hrun
    obtain rfl : s₁ = s₂ := Option.some.inj (hrun₁.symm.trans hs₂)
    have hgrows := order_grows hrest
    refine ⟨hgrows, fun x hx => ?_⟩
    have hwrap₁ : start.toNat + s₁.order.length ≤ 2 ^ 64 := by
      have hle := hgrows.length_le
      omega
    obtain ⟨i, hi, -⟩ := (inv_run hwrap₁ hrun₁).returned x hx
    exact List.mem_of_getElem? hi

/-- Two calls that return in the other order than they have drawn. -/
def swapped : List Label :=
  [.call 0 ⟨.skipListGet "a2V5" true, 3, "main"⟩,
    .call 1 ⟨.memTableContains "a2V5" false, 2, "worker"⟩, .draw 1, .draw 0, .ret 0, .ret 1]

theorem replay_sorted_swapped : ∃ s, exec step (init 7) swapped = some s ∧
    (((s.lines listSerde).filter listSerde.Unnumbered).mergeSort fun x y =>
        listSerde.seqNumber x ≤ listSerde.seqNumber y).map listSerde.readCall =
      [some ⟨.memTableContains "a2V5" false, 2, "worker"⟩,
        some ⟨.skipListGet "a2V5" true, 3, "main"⟩] := by
  refine ⟨_, rfl, (replay_sorted documented_listSerde
    (show exec step (init 7) swapped = some _ from rfl) (fun t => ?_) (by decide)
    (List.Perm.refl _)).1⟩
  match t with
  | 0 | 1 | t + 2 => rfl

end Timeline

end StoneDb
