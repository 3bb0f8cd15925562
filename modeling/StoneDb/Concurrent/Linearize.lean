import StoneDb.Concurrent.Scan
import StoneDb.Lib.Hindsight

/-!
# The list and its cursors as one atomic object

Inserts and reads together: the history of all calls of a run is one of an atomic object that holds
an ordered map and one position for every thread (`list_linearizable`).  A `put` takes effect where
its `Commit` says, a read at its last load.

`len` is the exception.  It counts while others insert on both sides of it, and what it returns need
not be the number of nodes at any of its own loads.  But the number of nodes goes up by one at a
time, so it was that number at some instant of the call.  Which one depends on what the rest of the
walk meets: the simulation looks at the answers still to come (`awaited`), and serves a `len` as
soon as the map has as many entries as it will have counted.

In single-writer mode `prev` is left out: it follows a back pointer, which may lead to a node before
that is linked.
-/

namespace StoneDb

namespace Concurrent

open SkipList

/-! ### The atomic object -/

/-- The position of a cursor after the read of a thread with the answer `r`. -/
def ReadCall.position (p : Option (Bytes × Bytes)) : ReadCall → Ret → Option (Bytes × Bytes)
  | .seek _, .pair p' | .seekForPrev _, .pair p' | .seekToFirst, .pair p' | .seekToLast, .pair p'
  | .next, .pair p' | .prev, .pair p' => p'
  | _, _ => p

section

variable (cmp : KeyComparator) [Std.TransCmp cmp.compareKey]

/-- A call of a thread, all at once. -/
def atomicCall (a : MapSession cmp) : ℕ × Call → MapSession cmp × Ret
  | (_, .put c) =>
    let (map, r) := a.map.insertIfAbsent c.key c.value
    ({ a with map }, .inserted r)
  | (t, .read q) =>
    let r := q.spec a.map (a.positions t)
    (a.setPosition t (q.position (a.positions t) r), r)

end

/-- What a label shows. -/
def Label.event : Label → Option (Event ℕ (ℕ × Call) Ret)
  | .invoke t c => some (.call t (t, c))
  | .ret t r => some (.answer t r)
  | .step .. => none

/-- A call that follows no back pointer. -/
def Label.Forward (mode : Bool) : Label → Prop
  | .invoke _ (.read .prev) => mode = true
  | _ => True

instance (mode : Bool) : DecidablePred (Label.Forward mode)
  | .invoke _ (.read .prev) => inferInstanceAs (Decidable (mode = true))
  | .invoke _ (.put _) | .step .. | .ret .. => inferInstanceAs (Decidable True)
  | .invoke _ (.read (.get _)) | .invoke _ (.read (.getWithKey _))
  | .invoke _ (.read (.contains _)) | .invoke _ (.read (.lowerBound _)) | .invoke _ (.read .len)
  | .invoke _ (.read .isEmpty) | .invoke _ (.read (.seek _)) | .invoke _ (.read (.seekForPrev _))
  | .invoke _ (.read .seekToFirst) | .invoke _ (.read .seekToLast) | .invoke _ (.read .next) =>
    inferInstanceAs (Decidable True)

/-- The answer with which the call of the thread `t` returns. -/
def awaited (t : ℕ) : List Label → Option Ret
  | [] => none
  | .ret t' r :: ls => if t' = t then some r else awaited t ls
  | .invoke .. :: ls | .step .. :: ls => awaited t ls

/-- A pending `len` as a client: it is served once there are as many nodes as it will count. -/
def countClient (t size : ℕ) : Option Ret → Client (ℕ × Call) Ret
  | some (.count n) => if n ≤ size then .served (.count n) else .called (t, .read .len)
  | _ => .called (t, .read .len)

/-- A pending `put` as a client. -/
def putClient (t : ℕ) (c : PutCall) : Option (Option (Bytes × Bytes)) → Client (ℕ × Call) Ret
  | none => .called (t, .put c)
  | some r => .served (.inserted r)

/-- A thread as a client, when the map has `size` entries and the call returns with `r`. -/
def Pc.caller (t size : ℕ) (r : Option Ret) : Pc → Client (ℕ × Call) Ret
  | .idle | .faulted _ => .idle
  | .loadHeight c => .called (t, c)
  | .read .len _ | .done (.count _) => countClient t size r
  | .read q _ => .called (t, .read q)
  | .put c pc => putClient t c (outcome (.next pc))
  | .done r => .served r

/-- What a counting thread knows of its own count. -/
def CountOk (cmp : KeyComparator) [Std.TransCmp cmp.compareKey] (sl : SkipList)
    (S : ℕ → Finset ℕ) : Pc → Prop
  | .loadHeight (.read q) => q ≠ .len ∧ q ≠ .isEmpty
  | .read .len p => Counting cmp ∅ sl S (.read .len p)
  | .read .isEmpty p => p.2 = 0 ↔ p.1 = sl.head
  | .done (.count n) => Counting cmp ∅ sl S (.done (.count n))
  | _ => True

/-- A thread in `prev`. -/
def Pc.Back : Pc → Prop
  | .loadHeight (.read .prev) | .read .prev _ => True
  | _ => False

/-- **The machine with the labels `ls` to come, as the atomic object.**  A call that has panicked
stays pending. -/
structure Tracks (cmp : KeyComparator) [Std.TransCmp cmp.compareKey] (mode : Bool) (writer : ℕ)
    (ls : List Label) (s : State) (S : ℕ → Finset ℕ) (a : MapSession cmp)
    (f : ℕ → Client (ℕ × Call) Ret) : Prop where
  inv : Inv cmp mode writer s S
  map : Represents cmp s.list S a.map
  linked : ∀ t, Linked S (s.threads t).it
  position : ∀ t, a.positions t = s.list.pairOf (s.threads t).it.cursor
  count : ∀ t, CountOk cmp s.list S (s.threads t).pc
  forward : mode = false → ∀ t, ¬ (s.threads t).pc.Back
  client : ∀ t, (∀ e, (s.threads t).pc ≠ .faulted e) →
    f t = (s.threads t).pc.caller t a.map.size (awaited t ls)

variable {cmp : KeyComparator} [Std.TransCmp cmp.compareKey] {mode : Bool} {writer t : ℕ}
  {s s' : State} {sl sl' : SkipList} {S S' : ℕ → Finset ℕ} {l : Label} {ls : List Label}
  {a a' : MapSession cmp} {f f' : ℕ → Client (ℕ × Call) Ret} {th : Thread} {it it' : IterRef}
  {q : ReadCall} {r : Ret} {pc : Pc} {c : Call}

/-! ### One thread -/

theorem CountOk.mono (h : CountOk cmp sl S pc) (hpc : PcOk cmp sl S it pc) (hwf : Wf cmp sl S)
    (hgrow : Grows sl S sl' S') : CountOk cmp sl' S' pc := by
  unfold CountOk at h ⊢
  split at h
  · exact h
  · exact Counting.mono h hpc hwf (Finset.empty_subset _) hgrow
  · rw [hgrow.head]
    exact h
  · exact Counting.mono h hpc hwf (Finset.empty_subset _) hgrow
  · trivial

/-- The cursor of a read shows its answer, or has not moved. -/
theorem ReadEnd.position (h : ReadEnd cmp sl S it q it' r) :
    q.position (sl.pairOf it.cursor) r = sl.pairOf it'.cursor := by
  cases q with
  | get | getWithKey | contains | lowerBound | len | isEmpty =>
    obtain ⟨rfl, -⟩ := h
    rfl
  | seek | seekForPrev | seekToFirst | seekToLast | next | prev =>
    obtain ⟨rfl, -⟩ := h
    rfl

/-- Without back pointers, a cursor stays at linked nodes. -/
theorem ReadEnd.stays_linked (hwf : Wf cmp sl S) (hclosed : Closed sl S) (hit : CursorOk sl it)
    (hlinked : Linked S it) (hprev : q = .prev → sl.allowConcurrentWrite = true)
    (h : ReadEnd cmp sl S it q it' r) : Linked S it' := by
  by_cases hq : q = .prev
  · have hmode := hprev hq
    subst hq
    obtain ⟨-, ho⟩ := h
    by_cases h0 : it.cursor = 0
    · rw [if_pos h0] at ho
      exact Or.inl ho
    · rw [if_neg h0, if_pos hmode] at ho
      exact NearOk.null_or_mem ho
  · rcases h.linked hwf hclosed hit hq with rfl | h'
    · exact hlinked
    · exact h'

/-- `is_empty` is right at its last load. -/
theorem isEmpty_answer {p : ℕ × ℕ} {m : OrderedMap cmp.compareKey Bytes}
    (hm : Represents cmp sl S m) (hok : ReadOk cmp sl S it .isEmpty p)
    (hcount : p.2 = 0 ↔ p.1 = sl.head)
    (hrun : readStep sl it .isEmpty p = .ok (.done (it', r))) : r = .flag (m.size = 0) := by
  have hc : p.1 = sl.head ∨ p.1 ∈ S 0 := hok
  rcases hm.wf.lenStep_spec hc p.2 with ⟨-, hstep⟩ | ⟨hnull, hstep⟩
  · simp only [readStep, finish, hstep, bind, Except.bind, pure, Except.pure, Except.ok.injEq,
      reduceCtorEq] at hrun
  · simp only [readStep, finish, hstep, Concurrent.answer, bind, Except.bind, pure, Except.pure,
      Except.ok.injEq, Iter.done.injEq, Prod.mk.injEq] at hrun
    rw [← hrun.2, hm.size_eq, Ret.flag.injEq, decide_eq_decide, hcount, Finset.card_eq_zero]
    constructor
    · intro hhead
      rw [← hm.wf.threaded_zero.after_head, ← hhead]
      exact hm.wf.threaded_zero.after_eq_empty hc hnull
    · intro hempty
      exact hc.resolve_right fun hmem => by simp [hempty] at hmem

/-- An iteration of `is_empty` leaves the head. -/
theorem isEmpty_next {p p' : ℕ × ℕ} (hwf : Wf cmp sl S) (hok : ReadOk cmp sl S it .isEmpty p)
    (hrun : readStep sl it .isEmpty p = .ok (.next p')) : p'.2 = 0 ↔ p'.1 = sl.head := by
  have hc : p.1 = sl.head ∨ p.1 ∈ S 0 := hok
  rcases hwf.lenStep_spec hc p.2 with ⟨hmem, hstep⟩ | ⟨-, hstep⟩
  · simp only [readStep, finish, hstep, bind, Except.bind, pure, Except.pure, Except.ok.injEq,
      Iter.next.injEq] at hrun
    subst hrun
    exact ⟨fun h0 => absurd h0 (Nat.succ_ne_zero _), fun he => absurd he (hwf.ne_head hmem)⟩
  · simp only [readStep, finish, hstep, Concurrent.answer, bind, Except.bind, pure, Except.pure,
      Except.ok.injEq, reduceCtorEq] at hrun

/-! ### What is awaited -/

theorem awaited_eq_some (h : awaited t ls = some r) :
    ∃ during after, ls = during ++ .ret t r :: after ∧ ∀ l ∈ during, ∀ r', l ≠ .ret t r' := by
  induction ls with
  | nil => cases h
  | cons l ls ih =>
    cases l with
    | ret t' r' =>
      by_cases ht : t' = t
      · subst ht
        simp only [awaited, if_true, Option.some.injEq] at h
        subst h
        exact ⟨[], ls, rfl, by simp⟩
      · simp only [awaited, ht, if_false] at h
        obtain ⟨during, after, rfl, hnone⟩ := ih h
        refine ⟨.ret t' r' :: during, after, rfl, fun l hl r'' => ?_⟩
        rcases List.mem_cons.1 hl with rfl | hl
        · exact fun he => ht (Label.ret.inj he).1
        · exact hnone l hl r''
    | invoke t' c | step t' weak =>
      obtain ⟨during, after, rfl, hnone⟩ := ih h
      refine ⟨_ :: during, after, rfl, fun l hl r'' => ?_⟩
      rcases List.mem_cons.1 hl with rfl | hl
      · exact nofun
      · exact hnone l hl r''

theorem awaited_ret_of_ne {t' : ℕ} (h : t' ≠ t) : awaited t' (.ret t r :: ls) = awaited t' ls :=
  if_neg fun he => h he.symm

/-- **A `len` returns at least the number of nodes at its start.** -/
theorem awaited_len (h : Inv cmp mode writer s S) (hls : ∀ l ∈ ls, l.Allowed mode writer)
    {n : ℕ} (hpc : Counting cmp (S 0) s.list S (s.threads t).pc) (hexec : exec step s ls = some s')
    (hret : awaited t ls = some (.count n)) : (S 0).card ≤ n := by
  obtain ⟨during, after, rfl, hnone⟩ := awaited_eq_some hret
  obtain ⟨s₁, hs₁, hafter⟩ := exec_append_eq_some.1 hexec
  obtain ⟨s₂, hdone, -⟩ := exec_cons_eq_some.1 hafter
  obtain ⟨S₁, h₁, hsub, hcount⟩ := run_induction
    (I := fun _ s₁ S₁ => S 0 ⊆ S₁ 0 ∧ Counting cmp (S 0) s₁.list S₁ (s₁.threads t).pc) h
    ⟨Finset.Subset.refl _, hpc⟩
    (fun _ s₁ S₁ l _ _ hl _ h₁ hcount hm _ => by
      refine ⟨hcount.1.trans (hm.grows.subset 0), ?_⟩
      have hwithin : l.Within t := by
        cases l with
        | step t' weak => trivial
        | ret t' r => exact fun ht => hnone _ hl r (by rw [ht])
        | invoke t' c =>
          rintro rfl
          cases hm with
          | invoke _ _ hidle =>
            have hfalse := hcount.2
            rw [hidle] at hfalse
            exact hfalse
      exact hm.counting h₁ hwithin hcount.1 hcount.2)
    (fun l hl => hls l (List.mem_append_left _ hl)) hs₁
  rw [(step_ret hdone).1] at hcount
  exact hcount.1

/-! ### The simulation -/

/-- The client of a thread does not depend on the labels of the others. -/
theorem caller_of_ne {t' size : ℕ} (h : t' ≠ l.thread) :
    pc.caller t' size (awaited t' (l :: ls)) = pc.caller t' size (awaited t' ls) := by
  cases l with
  | ret t₁ r =>
    have hne : t' ≠ t₁ := h
    rw [awaited_ret_of_ne hne]
  | invoke | step => rfl

/-- **One thread moves**, and perhaps links a node. -/
theorem Tracks.update (ht : Tracks cmp mode writer (l :: ls) s S a f)
    (hm : Move cmp s S l (s.update sl t th) S') (hl : l.Allowed mode writer)
    (hmap : Represents cmp sl S' a'.map) (hlinked : Linked S' th.it)
    (hposition : a'.positions t = sl.pairOf th.it.cursor)
    (hpositions : ∀ t' ≠ t, a'.positions t' = a.positions t') (hcount : CountOk cmp sl S' th.pc)
    (hforward : mode = false → ¬ th.pc.Back)
    (hclient : (∀ e, th.pc ≠ .faulted e) → f' t = th.pc.caller t a'.map.size (awaited t ls))
    (hother : ∀ t' ≠ t, (∀ e, (s.threads t').pc ≠ .faulted e) →
      f' t' = (s.threads t').pc.caller t' a'.map.size (awaited t' ls)) :
    Tracks cmp mode writer ls (s.update sl t th) S' a' f' := by
  have hgrow : Grows s.list S sl S' := hm.grows
  refine ⟨hm.inv ht.inv hl, hmap, ?_, ?_, ?_, fun hmode => ?_, ?_⟩
  · exact State.forall_update (P := fun _ th => Linked S' th.it) hlinked fun t' _ =>
      (ht.linked t').imp id fun hx => hgrow.subset 0 hx
  · refine State.forall_update (P := fun t' th => a'.positions t' = sl.pairOf th.it.cursor)
      hposition fun t' htt => ?_
    rw [hpositions t' htt, ht.position t']
    exact (hgrow.pairOf ((ht.inv.cursor t').imp id And.right)).symm
  · exact State.forall_update (P := fun _ th => CountOk cmp sl S' th.pc) hcount fun t' _ =>
      (ht.count t').mono (ht.inv.pc t') ht.inv.wf hgrow
  · exact State.forall_update (P := fun _ th => ¬ th.pc.Back) (hforward hmode) fun t' _ =>
      ht.forward hmode t'
  · exact State.forall_update (P := fun t' th => (∀ e, th.pc ≠ .faulted e) →
      f' t' = th.pc.caller t' a'.map.size (awaited t' ls)) hclient fun t' htt =>
        hother t' htt

/-- The client of the thread that is about to move. -/
theorem Tracks.caller (ht : Tracks cmp mode writer (l :: ls) s S a f)
    (hpc : (s.threads t).pc = pc) (hne : ∀ e, pc ≠ .faulted e) :
    f t = pc.caller t a.map.size (awaited t (l :: ls)) := by
  rw [← hpc]
  exact ht.client t (by rw [hpc]; exact hne)

/-- The clients of the others, when the map keeps its size. -/
theorem Tracks.others (ht : Tracks cmp mode writer (l :: ls) s S a f) (hthread : l.thread = t)
    (hf : ∀ t' ≠ t, f' t' = f t') {t' : ℕ} (htt : t' ≠ t)
    (hne : ∀ e, (s.threads t').pc ≠ .faulted e) :
    f' t' = (s.threads t').pc.caller t' a.map.size (awaited t' ls) := by
  rw [hf t' htt, ht.client t' hne]
  exact caller_of_ne (hthread ▸ htt)

/-- A move of one thread that the atomic object does not see, except for its client. -/
theorem Tracks.setPc (ht : Tracks cmp mode writer (l :: ls) s S a f)
    (hm : Move cmp s S l (s.setPc t pc) S) (hl : l.Allowed mode writer) (hthread : l.thread = t)
    (hcount : CountOk cmp s.list S pc) (hforward : mode = false → ¬ pc.Back)
    (hclient : (∀ e, pc ≠ .faulted e) → f' t = pc.caller t a.map.size (awaited t ls))
    (hf : ∀ t' ≠ t, f' t' = f t') : Tracks cmp mode writer ls (s.setPc t pc) S a f' :=
  ht.update hm hl ht.map (ht.linked t) (ht.position t) (fun _ _ => rfl) hcount hforward
    hclient fun _ htt hne => ht.others hthread hf htt hne

theorem caller_read {p : ℕ × ℕ} {size : ℕ} {o : Option Ret} (hq : q ≠ .len) :
    (Pc.read q p).caller t size o = .called (t, .read q) := by
  cases q with
  | len => exact absurd rfl hq
  | get | getWithKey | contains | lowerBound | isEmpty | seek | seekForPrev | seekToFirst
  | seekToLast | next | prev => rfl

theorem countOk_read {p : ℕ × ℕ} (hq : q ≠ .len) (hq' : q ≠ .isEmpty) :
    CountOk cmp sl S (.read q p) := by
  cases q with
  | len => exact absurd rfl hq
  | isEmpty => exact absurd rfl hq'
  | get | getWithKey | contains | lowerBound | seek | seekForPrev | seekToFirst | seekToLast | next
  | prev => trivial

theorem counting_start (hwf : Wf cmp sl S) {S₀ : Finset ℕ} (hsub : S₀ ⊆ S 0) :
    Counting cmp S₀ sl S (.read .len (sl.head, 0)) := by
  have hall := hwf.threaded_zero.after_head
  have hall₀ : Threaded.after (pos cmp sl) S₀ sl.head = S₀ :=
    Finset.filter_true_of_mem fun y hy => hwf.threaded_zero.head_lt y (hsub hy)
  exact ⟨by rw [hall₀]; omega, by rw [hall]; omega⟩

theorem atomicCall_len : atomicCall cmp a (t, .read .len) = (a, .count a.map.size) := by
  simp only [atomicCall, ReadCall.position, ReadCall.spec, MapSession.setPosition,
    Function.update_eq_self]

/-- A call starts. -/
theorem Tracks.invoke (ht : Tracks cmp mode writer (.invoke t c :: ls) s S a f)
    (hl : ∀ l ∈ .invoke t c :: ls, l.Allowed mode writer ∧ l.Forward mode)
    (hidle : (s.threads t).pc = .idle)
    (hexec : exec step (s.setPc t (c.start s.list (s.threads t).it)) ls = some s') :
    ∃ f', Tracks cmp mode writer ls (s.setPc t (c.start s.list (s.threads t).it)) S a f' ∧
      Serves (atomicCall cmp) a f [.call t (t, c)] a f' := by
  have hm : Move cmp s S (.invoke t c) _ S := .invoke t c hidle
  have hallowed := (hl _ List.mem_cons_self).1
  have h' := hm.inv ht.inv hallowed
  have hcall : Serves (atomicCall cmp) a f [.call t (t, c)] a
      (Function.update f t (.called (t, c))) := .call t (t, c) .nil (ht.caller hidle (by simp))
  have hcalled : Function.update f t (.called (t, c)) t = .called (t, c) := Function.update_self ..
  have hothers : ∀ t' ≠ t, Function.update f t (.called (t, c)) t' = f t' := fun t' htt =>
    Function.update_of_ne htt _ _
  cases c with
  | put c =>
    exact ⟨_, ht.setPc hm hallowed rfl trivial (fun _ => id) (fun _ => hcalled) hothers, hcall⟩
  | read q =>
    have hback : mode = false → q ≠ .prev := by
      rintro hmode rfl
      have hforward : mode = true := (hl _ List.mem_cons_self).2
      simp [hmode] at hforward
    by_cases hload : q.loadsHeight s.list (s.threads t).it = true
    · have hstart : Call.start s.list (s.threads t).it (.read q) = .loadHeight (.read q) :=
        if_pos hload
      rw [hstart] at hm ⊢
      refine ⟨_, ht.setPc hm hallowed rfl ⟨?_, ?_⟩ (fun hmode hq => ?_) (fun _ => hcalled) hothers,
        hcall⟩
      · rintro rfl
        cases hload
      · rintro rfl
        cases hload
      · cases q <;> first | exact hq | exact hback hmode rfl
    have hstart : Call.start s.list (s.threads t).it (.read q) = .read q (s.list.head, 0) :=
      if_neg hload
    rw [hstart] at hm h' hexec ⊢
    have hback' : mode = false → ¬ (Pc.read q (s.list.head, 0)).Back := fun hmode hq => by
      cases q <;> first | exact hq | exact hback hmode rfl
    by_cases hlen : q = .len
    · subst hlen
      have hcount : CountOk cmp s.list S (.read .len (s.list.head, 0)) :=
        counting_start ht.inv.wf (Finset.empty_subset _)
      -- it will count at least the nodes that are there now
      have hle : ∀ n, awaited t ls = some (.count n) → a.map.size ≤ n := by
        intro n hn
        rw [ht.map.size_eq]
        refine awaited_len h' (fun l hl' => (hl l (List.mem_cons_of_mem _ hl')).1) ?_ hexec hn
        simp only [State.setPc, State.update_self, State.update_list]
        exact counting_start ht.inv.wf (Finset.Subset.refl _)
      by_cases hnow : awaited t ls = some (.count a.map.size)
      · have hserve := Serves.serve t (t, .read .len) hcall hcalled
        rw [atomicCall_len] at hserve
        refine ⟨_, ht.setPc hm hallowed rfl hcount hback' (fun _ => ?_) (fun t' htt => ?_), hserve⟩
        · rw [Function.update_self, hnow]
          exact (if_pos le_rfl).symm
        · rw [Function.update_of_ne htt, hothers t' htt]
      · refine ⟨_, ht.setPc hm hallowed rfl hcount hback' (fun _ => ?_) hothers, hcall⟩
        rw [hcalled]
        cases hret : awaited t ls with
        | none => rfl
        | some r =>
          cases r with
          | count n =>
            refine (if_neg fun hn => hnow ?_).symm
            rw [hret, le_antisymm hn (hle n hret)]
          | inserted | pair | value | flag => rfl
    · refine ⟨_, ht.setPc hm hallowed rfl ?_ hback' (fun _ => ?_) hothers, hcall⟩
      · by_cases hempty : q = .isEmpty
        · subst hempty
          exact ⟨fun _ => rfl, fun _ => rfl⟩
        · exact countOk_read hlen hempty
      · rw [hcalled, caller_read hlen]

/-- A read ends, at its last load. -/
theorem Tracks.answer [hlaw : Std.LawfulEqCmp cmp.compareKey] {weak : Bool} {p : ℕ × ℕ}
    (ht : Tracks cmp mode writer (.step t weak :: ls) s S a f)
    (hpc : (s.threads t).pc = .read q p)
    (hrun : readStep s.list (s.threads t).it q p = .ok (.done (it, r))) (hit : CursorOk s.list it)
    (hend : ReadEnd cmp s.list S (s.threads t).it q it r) :
    ∃ a' f', Tracks cmp mode writer ls (s.update s.list t ⟨.done r, it⟩) S a' f' ∧
      Serves (atomicCall cmp) a f [] a' f' := by
  have hm : Move cmp s S (.step t weak) (s.update s.list t ⟨.done r, it⟩) S :=
    .answer t weak q p it r hpc hrun hit hend
  have hok := ht.inv.pc t
  rw [hpc] at hok
  have hcount := ht.count t
  rw [hpc] at hcount
  have hf : f t = _ := ht.caller hpc (by simp)
  have hprev : q = .prev → s.list.allowConcurrentWrite = true := by
    rintro rfl
    by_contra hmode
    rw [ht.inv.mode_eq, Bool.not_eq_true] at hmode
    exact ht.forward hmode t (by rw [hpc]; trivial)
  have hlinked := hend.stays_linked ht.inv.wf ht.inv.closed (ht.inv.cursor t) (ht.linked t) hprev
  by_cases hlen : q = .len
  · -- a `len` has been served before, or the simulation never serves it
    subst hlen
    obtain ⟨rfl, n, rfl⟩ := hend
    have hcount' := hm.counting ht.inv trivial (Finset.empty_subset _) (by rw [hpc]; exact hcount)
    rw [State.update_self] at hcount'
    exact ⟨a, f, ht.update hm trivial ht.map hlinked (ht.position t) (fun _ _ => rfl) hcount'
      (fun _ => id) (fun _ => hf) fun t' htt hne => ht.others rfl (fun _ _ => rfl) htt hne, .nil⟩
  have hr : r = q.spec a.map (a.positions t) := by
    by_cases hempty : q = .isEmpty
    · subst hempty
      exact isEmpty_answer ht.map hok hcount hrun
    · rw [ht.position t]
      refine hend.answer ht.map (fun _ => hlaw) ?_ (fun _ => ht.inv.cursor t) fun _ => ht.linked t
      cases q <;>
        first | trivial | exact absurd rfl hlen | exact absurd rfl hempty | exact hprev rfl
  rw [caller_read hlen] at hf
  have hserve : Serves (atomicCall cmp) a f [] _ _ := .serve t (t, .read q) .nil hf
  have hposition : q.position (a.positions t) (q.spec a.map (a.positions t)) =
      s.list.pairOf it.cursor := by
    rw [← hr, ht.position t]
    exact hend.position
  have hnotCount : ∀ n, r ≠ .count n := by
    intro n hn
    rw [hn] at hr
    cases q <;> first | exact hlen rfl | cases hr
  refine ⟨_, _, ht.update hm trivial ?_ hlinked ?_ ?_ ?_ (fun _ => id) (fun _ => ?_) ?_, hserve⟩
  · exact ht.map
  · simp only [atomicCall, MapSession.setPosition, Function.update_self]
    exact hposition
  · intro t' htt
    simp only [atomicCall, MapSession.setPosition, Function.update_of_ne htt]
  · cases r with
    | count n => exact absurd rfl (hnotCount n)
    | inserted | pair | value | flag => trivial
  · rw [Function.update_self]
    simp only [atomicCall, ← hr]
    cases r with
    | count n => exact absurd rfl (hnotCount n)
    | inserted | pair | value | flag => rfl
  · intro t' htt hne
    exact ht.others rfl (fun t₁ ht₁ => Function.update_of_ne ht₁ _ _) htt hne

/-- A thread that counts, or has counted. -/
def Pc.Counts : Pc → Prop
  | .read .len _ | .done (.count _) => True
  | _ => False

theorem caller_counts {size : ℕ} {o : Option Ret} (h : pc.Counts) :
    pc.caller t size o = countClient t size o := by
  unfold Pc.Counts at h
  split at h
  · rfl
  · rfl
  · exact h.elim

/-- The size of the map only matters to a thread that counts. -/
theorem caller_size (size size' : ℕ) {o : Option Ret} (h : ¬ pc.Counts) :
    pc.caller t size o = pc.caller t size' o := by
  cases pc with
  | idle | faulted | loadHeight | put => rfl
  | read q p =>
    have hlen : q ≠ .len := by
      rintro rfl
      exact h trivial
    rw [caller_read hlen, caller_read hlen]
  | done r =>
    cases r with
    | count n => exact absurd trivial h
    | inserted | pair | value | flag => rfl

/-- With one more node, the threads that will have counted as many are served. -/
theorem countClient_succ {size : ℕ} {o : Option Ret} (h : o ≠ some (.count (size + 1))) :
    countClient t (size + 1) o = countClient t size o := by
  unfold countClient
  split
  · rename_i n
    have hne : n ≠ size + 1 := fun hn => h (by rw [hn])
    have hiff : n ≤ size + 1 ↔ n ≤ size := by omega
    simp only [hiff]
  · rfl

theorem awaited_mem (h : awaited t ls ≠ none) : t ∈ (ls.map Label.thread).toFinset := by
  obtain ⟨r, hr⟩ := Option.ne_none_iff_exists'.1 h
  obtain ⟨during, after, rfl, -⟩ := awaited_eq_some hr
  simp [Label.thread]

/-- **One more node**: the threads that count up to the new size are served at this instant. -/
theorem serve_counting {size : ℕ} (a : MapSession cmp) (ls : List Label) (ths : ℕ → Thread)
    (hsize : a.map.size = size + 1)
    (hf : ∀ t', (ths t').pc.Counts → f t' = countClient t' size (awaited t' ls)) :
    ∃ f', Serves (atomicCall cmp) a f [] a f' ∧ (∀ t', ¬ (ths t').pc.Counts → f' t' = f t') ∧
      ∀ t', (ths t').pc.Counts → f' t' = countClient t' (size + 1) (awaited t' ls) := by
  classical
  let T := (ls.map Label.thread).toFinset.filter fun t' =>
    (ths t').pc.Counts ∧ awaited t' ls = some (.count (size + 1))
  have hT : ∀ t', t' ∈ T ↔ (ths t').pc.Counts ∧ awaited t' ls = some (.count (size + 1)) := by
    intro t'
    refine ⟨fun h => (Finset.mem_filter.1 h).2, fun h => Finset.mem_filter.2 ⟨awaited_mem ?_, h⟩⟩
    rw [h.2]
    exact nofun
  refine ⟨_, Serves.serveAll T (fun t' => (t', .read .len)) (fun _ => .count (size + 1))
    (fun t' ht' => ?_) (fun t' _ => by rw [atomicCall_len, hsize]), fun t' ht' => ?_,
    fun t' ht' => ?_⟩
  · obtain ⟨hcounts, hret⟩ := (hT t').1 ht'
    rw [hf t' hcounts, hret]
    exact if_neg (Nat.not_succ_le_self size)
  · exact if_neg fun h => ht' ((hT t').1 h).1
  · by_cases hret : awaited t' ls = some (.count (size + 1))
    · rw [if_pos ((hT t').2 ⟨ht', hret⟩), hret]
      exact (if_pos le_rfl).symm
    · rw [if_neg fun h => hret ((hT t').1 h).2, hf t' ht', countClient_succ hret]

theorem caller_afterPut {size : ℕ} {o : Option Ret} (c : PutCall)
    (r : Iter PutPc (Option (Bytes × Bytes))) :
    (afterPut c r).caller t size o = putClient t c (outcome r) := by
  cases r <;> rfl

/-- A step of `put`. -/
theorem Tracks.put {weak : Bool} {c : PutCall} {pc : PutPc}
    {r : Iter PutPc (Option (Bytes × Bytes))}
    (ht : Tracks cmp mode writer (.step t weak :: ls) s S a f) (hpc : (s.threads t).pc = .put c pc)
    (hput : PutStep cmp s.list S c pc sl S' r) :
    ∃ a' f', Tracks cmp mode writer ls
        (s.update sl t { s.threads t with pc := afterPut c r }) S' a' f' ∧
      Serves (atomicCall cmp) a f [] a' f' := by
  have hm : Move cmp s S (.step t weak) _ S' := .put t weak c pc sl S' r hpc hput
  have hgrow := hput.effects.grows
  have hf : f t = putClient t c (outcome (.next pc)) := ht.caller hpc (by simp)
  have hupdate : ∀ {m} {f' : ℕ → Client (ℕ × Call) Ret}, Represents cmp sl S' m →
      f' t = putClient t c (outcome r) →
      (∀ t' ≠ t, (∀ e, (s.threads t').pc ≠ .faulted e) →
        f' t' = (s.threads t').pc.caller t' m.size (awaited t' ls)) →
      Tracks cmp mode writer ls (s.update sl t { s.threads t with pc := afterPut c r }) S'
        { a with map := m } f' := by
    intro m f' hmap hself hother
    refine ht.update hm trivial hmap ((ht.linked t).imp id fun hx => hgrow.subset 0 hx) ?_
      (fun _ _ => rfl) ?_ (fun _ => ?_) (fun _ => ?_) hother
    · rw [hgrow.pairOf ((ht.inv.cursor t).imp id And.right)]
      exact ht.position t
    · cases r <;> trivial
    · cases r <;> exact id
    · rw [hself]
      exact (caller_afterPut c r).symm
  have hothers : ∀ {f' : ℕ → Client (ℕ × Call) Ret}, (∀ t' ≠ t, f' t' = f t') → ∀ t' ≠ t,
      (∀ e, (s.threads t').pc ≠ .faulted e) →
      f' t' = (s.threads t').pc.caller t' a.map.size (awaited t' ls) := fun hf' t' htt hne =>
    ht.others rfl hf' htt hne
  generalize hbefore : outcome (.next pc) = before, hafter : outcome r = after at *
  have hcommit := hput.commit
  rw [hbefore, hafter] at hcommit
  cases hcommit with
  | same _ hS =>
    exact ⟨_, f, hupdate (ht.map.mono hput.wf hgrow hS) hf (hothers fun _ _ => rfl), .nil⟩
  | present x hx heq hsl hS =>
    subst hsl hS
    have hpresent := a.map.insertIfAbsent_of_present c.value (ht.map.getWithKey_of_mem hx heq)
    have hcalled : f t = .called (t, .put c) := hf
    have hserve : Serves (atomicCall cmp) a f [] _ _ := .serve t (t, .put c) .nil hcalled
    simp only [atomicCall, hpresent] at hserve
    refine ⟨_, _, hupdate ht.map ?_ (hothers fun t' htt => Function.update_of_ne htt _ _), hserve⟩
    rw [Function.update_self, conflictAnswer]
    by_cases hv : s.list.arena.valueAt x = c.value <;> simp [putClient, Arena.pairAt, hv]
  | added node habs hnew hS hpair =>
    have habs' := ht.map.getWithKey_of_absent habs
    have hadded := ht.map.added hput.wf hgrow hS hpair habs'
    have hcalled : f t = .called (t, .put c) := hf
    have hserve : Serves (atomicCall cmp) a f [] _ _ := .serve t (t, .put c) .nil hcalled
    simp only [atomicCall, (a.map.insertIfAbsent_of_absent c.value habs').1] at hserve
    have hsize : (a.map.insertIfAbsent c.key c.value).1.size = a.map.size + 1 := by
      rw [hadded.size_eq, ht.map.size_eq, hS, Finset.card_insert_of_notMem hnew]
    have hself : ¬ (s.threads t).pc.Counts := by
      rw [hpc]
      exact id
    have hne : ∀ {t'}, (s.threads t').pc.Counts → t' ≠ t := by
      rintro t' hcounts rfl
      exact hself hcounts
    have hbefore : ∀ t', (s.threads t').pc.Counts →
        Function.update f t (.served (.inserted none)) t' =
          countClient t' a.map.size (awaited t' ls) := by
      intro t' hcounts
      rw [← caller_counts hcounts]
      refine hothers (fun t₁ ht₁ => Function.update_of_ne ht₁ _ _) t' (hne hcounts) fun e he => ?_
      rw [he] at hcounts
      exact hcounts
    obtain ⟨f', hall, hrest, hcounting⟩ := serve_counting
      { a with map := (a.map.insertIfAbsent c.key c.value).1 } ls s.threads hsize hbefore
    refine ⟨_, f', hupdate hadded ?_ (fun t' htt hok => ?_), hserve.trans hall⟩
    · rw [hrest t hself, Function.update_self]
      rfl
    · by_cases hcounts : (s.threads t').pc.Counts
      · rw [hcounting t' hcounts, caller_counts hcounts, hsize]
      · rw [hrest t' hcounts, caller_size _ a.map.size hcounts]
        exact hothers (fun t₁ ht₁ => Function.update_of_ne ht₁ _ _) t' htt hok

/-- An answer is given. -/
theorem Tracks.ret (ht : Tracks cmp mode writer (.ret t r :: ls) s S a f)
    (hpc : (s.threads t).pc = .done r) :
    ∃ f', Tracks cmp mode writer ls (s.setPc t .idle) S a f' ∧
      Serves (atomicCall cmp) a f [.answer t r] a f' := by
  have hm : Move cmp s S (.ret t r) _ S := .ret t r hpc
  have hserved : f t = .served r := by
    rw [ht.caller hpc (by simp)]
    cases r with
    | count n =>
      have hcount := ht.count t
      rw [hpc] at hcount
      have hle : n ≤ a.map.size := ht.map.size_eq ▸ hcount.2
      simp only [Pc.caller, countClient, awaited, if_true, hle]
    | inserted | pair | value | flag => rfl
  exact ⟨_, ht.setPc hm trivial rfl trivial (fun _ => id)
    (fun _ => Function.update_self _ _ _) fun t' htt => Function.update_of_ne htt _ _,
    .answer t r .nil hserved⟩

/-- **Every step is simulated by the atomic object.** -/
theorem Tracks.step [Std.LawfulEqCmp cmp.compareKey] {s'' : State}
    (ht : Tracks cmp mode writer (l :: ls) s S a f)
    (hls : ∀ l' ∈ l :: ls, l'.Allowed mode writer ∧ l'.Forward mode)
    (hstep : Concurrent.step s l = some s') (hexec : exec Concurrent.step s' ls = some s'') :
    ∃ S' a' f', Tracks cmp mode writer ls s' S' a' f' ∧
      Serves (atomicCall cmp) a f l.event.toList a' f' := by
  obtain ⟨S', hm⟩ := step_move ht.inv hstep
  have hback : ∀ {pc}, (s.threads l.thread).pc = pc → mode = false → ¬ pc.Back := by
    rintro pc rfl hmode
    exact ht.forward hmode _
  have hcount : ∀ {pc}, (s.threads l.thread).pc = pc → CountOk cmp s.list S pc := by
    rintro pc rfl
    exact ht.count _
  cases hm with
  | invoke t c hidle =>
    obtain ⟨f', ht', hserves⟩ := ht.invoke hls hidle hexec
    exact ⟨S, a, f', ht', hserves⟩
  | search t weak c hpc =>
    have hf := ht.caller hpc (by simp)
    exact ⟨S, a, f, ht.setPc (.search t weak c hpc) trivial rfl trivial (fun _ => id)
      (fun _ => hf) fun _ _ => rfl, .nil⟩
  | descend t weak q hpc =>
    have hf := ht.caller hpc (by simp)
    have hq : q ≠ .len ∧ q ≠ .isEmpty := hcount hpc
    refine ⟨S, a, f, ht.setPc (.descend t weak q hpc) trivial rfl (countOk_read hq.1 hq.2)
      (fun hmode hq => hback hpc hmode ?_) (fun _ => ?_) fun _ _ => rfl, .nil⟩
    · cases q <;> exact hq
    · rw [caller_read hq.1]
      exact hf
  | read t weak q p p' hpc hrun hok' =>
    have hf := ht.caller hpc (by simp)
    have hm : Move cmp s S (.step t weak) _ S := .read t weak q p p' hpc hrun hok'
    have hok := ht.inv.pc t
    rw [hpc] at hok
    refine ⟨S, a, f, ht.setPc hm trivial rfl ?_ (fun hmode hq => hback hpc hmode ?_) (fun _ => ?_)
      fun _ _ => rfl, .nil⟩
    · by_cases hlen : q = .len
      · subst hlen
        have hcount' := hm.counting ht.inv trivial (Finset.empty_subset _)
          (by rw [hpc]; exact hcount hpc)
        rwa [State.setPc, State.update_self] at hcount'
      · by_cases hempty : q = .isEmpty
        · subst hempty
          exact isEmpty_next ht.inv.wf hok hrun
        · exact countOk_read hlen hempty
    · cases q <;> exact hq
    · rw [hf]
      cases q <;> rfl
  | answer t weak q p it r hpc hrun hit hend =>
    obtain ⟨a', f', ht', hserves⟩ := ht.answer hpc hrun hit hend
    exact ⟨S, a', f', ht', hserves⟩
  | put t weak c pc sl S' r hpc hput =>
    obtain ⟨a', f', ht', hserves⟩ := ht.put hpc hput
    exact ⟨S', a', f', ht', hserves⟩
  | panic t weak c height sp hpc =>
    exact ⟨S, a, f, ht.setPc (.panic t weak c height sp hpc) trivial rfl trivial (fun _ => id)
      (fun hne => absurd rfl (hne _)) fun _ _ => rfl, .nil⟩
  | ret t r hpc =>
    obtain ⟨f', ht', hserves⟩ := ht.ret hpc
    exact ⟨S, a, f', ht', hserves⟩

/-- A run from a new list, and the atomic object that serves its calls. -/
theorem exec_tracks [Std.LawfulEqCmp cmp.compareKey] {capacity : ℕ} (hcap : capacity ≤ 2 ^ 32)
    (hnew : SkipList.withCapacity cmp capacity mode = .ok sl)
    (hls : ∀ l ∈ ls, l.Allowed mode writer ∧ l.Forward mode)
    (hexec : exec step (State.init sl) ls = some s) :
    ∃ S a f, Tracks cmp mode writer [] s S a f ∧ Serves (atomicCall cmp) (.init cmp)
      (fun _ => .idle) (ls.filterMap Label.event) a f := by
  have hinit : Tracks cmp mode writer ls (State.init sl) (fun _ => ∅) (.init cmp) fun _ => .idle :=
    ⟨inv_init hcap hnew, (refines_withCapacity hnew).toRepresents, fun _ => Or.inl rfl,
      fun _ => rfl, fun _ => trivial, fun _ _ => id, fun _ _ => rfl⟩
  obtain ⟨a, f, ⟨S, ht⟩, hserves⟩ := exec_serves_ahead
    (fun ls s a f => ∃ S, Tracks cmp mode writer ls s S a f)
    (fun l ls s s' s'' a f hls ⟨S, ht⟩ hstep hexec => by
      obtain ⟨S', a', f', ht', hserves⟩ := ht.step hls hstep hexec
      exact ⟨a', f', ⟨S', ht'⟩, hserves⟩) hls ⟨_, hinit⟩ hexec
  exact ⟨S, a, f, ht, hserves⟩

/-- **The list is linearizable**: the history of all calls of every run, inserts, lookups, counts
and cursors, is one of the atomic object. -/
theorem list_linearizable (cmp : KeyComparator) [Std.TransCmp cmp.compareKey]
    [Std.LawfulEqCmp cmp.compareKey] {capacity : ℕ} (hcap : capacity ≤ 2 ^ 32) {mode : Bool}
    {sl : SkipList} (hnew : SkipList.withCapacity cmp capacity mode = .ok sl) {writer : ℕ}
    {ls : List Label} (hls : ∀ l ∈ ls, l.Allowed mode writer) (hforward : ∀ l ∈ ls, l.Forward mode)
    {s : State} (hexec : exec step (State.init sl) ls = some s) :
    Linearizable (atomicCall cmp) (.init cmp) (ls.filterMap Label.event) := by
  have hall : ∀ l ∈ ls, l.Allowed mode writer ∧ l.Forward mode := fun l hl =>
    ⟨hls l hl, hforward l hl⟩
  obtain ⟨S, a, f, -, hserves⟩ := exec_tracks hcap hnew hall hexec
  exact ⟨a, f, hserves⟩

/-- A `len` that passes the first of two inserts and meets the second, and returns a number that the
list had in between.  Meanwhile a cursor goes to a key and back to the one inserted before it. -/
def overtaken : List Label :=
  [.invoke 0 (.put ⟨[3], [30], 0⟩)] ++ steps 0 7 ++ [.ret 0 (.inserted none)] ++
    [.invoke 2 (.read .len)] ++ steps 2 1 ++
    [.invoke 0 (.put ⟨[1], [10], 0⟩)] ++ steps 0 7 ++
    callLabels 1 (.seek [2]) (steps 1 3) (.pair (some ([3], [30]))) ++
    callLabels 1 .prev (steps 1 3) (.pair (some ([1], [10]))) ++ [.ret 0 (.inserted none)] ++
    [.invoke 0 (.put ⟨[4], [40], 0⟩)] ++ steps 0 9 ++ [.ret 0 (.inserted none)] ++
    steps 2 2 ++ [.ret 2 (.count 2)]

theorem list_linearizable_overtaken :
    ∃ sl, SkipList.withCapacity bytewiseComparator 1024 true = .ok sl ∧
      (∃ s, exec step (State.init sl) overtaken = some s) ∧
      Linearizable (atomicCall bytewiseComparator) (.init bytewiseComparator)
        (overtaken.filterMap Label.event) := by
  obtain ⟨sl, hsl, s, hs⟩ : ∃ sl, SkipList.withCapacity bytewiseComparator 1024 true = .ok sl ∧
      ∃ s, exec step (State.init sl) overtaken = some s := exists_exec (by decide +kernel)
  have hls : ∀ l ∈ overtaken, l.Allowed true 0 := by decide
  exact ⟨sl, hsl, ⟨s, hs⟩, list_linearizable bytewiseComparator (show 1024 ≤ 2 ^ 32 by decide) hsl
    hls (by decide) hs⟩

end Concurrent

end StoneDb
