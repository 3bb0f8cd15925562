import Mathlib.Data.Option.Basic
import Mathlib.Data.List.Induction
import Mathlib.Logic.Function.Basic

/-!
# Executions and linearizability

A machine is a partial step function `step : S → L → Option S` on states `S` and labels `L`; `exec`
performs a list of labels.  `exec_induction` is the rule for invariants of whole executions, and
`forall_visits_iff` the one for a property that some steps keep and the others break.  `SinceLast`
says what has happened since the last step of a kind.

A shared object with the sequential behaviour `apply : σ → C → σ × A` is *linearizable* when every
history of its clients' calls and answers is one of the atomic object: each call takes effect at
one instant between its start and its answer, and the answer is the sequential one at that instant.
`Serves` is the atomic object as a transition system, and `exec_serves` the rule that derives
linearizability from a relation between machine states and states of the atomic object.
-/

namespace StoneDb

/-! ### Executions -/

section

variable {S L : Type*} {step : S → L → Option S} {s s' s'' : S} {l : L} {ls ls' : List L}

/-- Perform the labels of a list, one after the other. -/
def exec (step : S → L → Option S) : S → List L → Option S
  | s, [] => some s
  | s, l :: ls => (step s l).bind fun s' => exec step s' ls

@[simp] theorem exec_nil : exec step s [] = some s := rfl

theorem exec_cons_eq_some : exec step s (l :: ls) = some s'' ↔
    ∃ s', step s l = some s' ∧ exec step s' ls = some s'' := by
  rw [exec, Option.bind_eq_some_iff]

theorem exec_append_eq_some : exec step s (ls ++ ls') = some s'' ↔
    ∃ s', exec step s ls = some s' ∧ exec step s' ls' = some s'' := by
  induction ls generalizing s with
  | nil => simp
  | cons l ls ih =>
    simp only [List.cons_append, exec_cons_eq_some, ih]
    constructor
    · rintro ⟨s₁, h₁, s', h', h''⟩
      exact ⟨s', ⟨s₁, h₁, h'⟩, h''⟩
    · rintro ⟨s', ⟨s₁, h₁, h'⟩, h''⟩
      exact ⟨s₁, h₁, s', h', h''⟩

theorem exec_concat_eq_some : exec step s (ls ++ [l]) = some s'' ↔
    ∃ s', exec step s ls = some s' ∧ step s' l = some s'' := by
  simp [exec_append_eq_some, exec_cons_eq_some]

/-- **Induction on executions**, with the labels performed so far. -/
theorem exec_induction {I : List L → S → Prop} {P : L → Prop} (hnil : I [] s)
    (hstep : ∀ ls s₁ l s₂, P l → exec step s ls = some s₁ → I ls s₁ → step s₁ l = some s₂ →
      I (ls ++ [l]) s₂)
    (hls : ∀ l ∈ ls, P l) (hexec : exec step s ls = some s') : I ls s' := by
  induction ls using List.reverseRecOn generalizing s' with
  | nil =>
    obtain rfl : s = s' := by simpa using hexec
    exact hnil
  | append_singleton ls l ih =>
    obtain ⟨s₁, hs₁, hl⟩ := exec_concat_eq_some.1 hexec
    exact hstep ls s₁ l s' (hls l (by simp)) hs₁
      (ih (fun l hl => hls l (List.mem_append_left _ hl)) hs₁) hl

end

section

variable {S L S' L' : Type*} {step : S → L → Option S} {step' : S' → L' → Option S'}

/-- **Simulation**: if every step is matched by what another machine does for its label, then every
execution is matched by one of that machine. -/
theorem exec_simulates {Rel : S → S' → Prop} {P : L → Prop} {f : L → Option L'}
    (hstep : ∀ s l s' a, P l → Rel s a → step s l = some s' →
      ∃ a', exec step' a (f l).toList = some a' ∧ Rel s' a')
    {s s' : S} {a : S'} {ls : List L} (hls : ∀ l ∈ ls, P l) (hs : Rel s a)
    (hexec : exec step s ls = some s') :
    ∃ a', exec step' a (ls.filterMap f) = some a' ∧ Rel s' a' := by
  induction ls generalizing s a with
  | nil =>
    obtain rfl : s = s' := by simpa using hexec
    exact ⟨a, rfl, hs⟩
  | cons l ls ih =>
    obtain ⟨hl, hls⟩ := List.forall_mem_cons.1 hls
    obtain ⟨s₁, hs₁, hexec⟩ := exec_cons_eq_some.1 hexec
    obtain ⟨a₁, ha₁, hrel⟩ := hstep s l s₁ a hl hs hs₁
    obtain ⟨a', ha', hrel'⟩ := ih hls hrel hexec
    refine ⟨a', ?_, hrel'⟩
    have hlabels : (l :: ls).filterMap f = (f l).toList ++ ls.filterMap f := by
      cases hl : f l <;> simp [hl]
    rw [hlabels]
    exact exec_append_eq_some.2 ⟨a₁, ha₁, ha'⟩

end

/-! ### What an execution meets -/

section

variable {S L : Type*} {step : S → L → Option S} {s s' s'' : S} {l l' : L} {ls : List L}

/-- The execution of `ls` from `s` comes through `s'`. -/
def Visits (step : S → L → Option S) (s : S) (ls : List L) (s' : S) : Prop :=
  ∃ done, done <+: ls ∧ exec step s done = some s'

/-- The execution of `ls` from `s` performs `l` in `s'`. -/
def Performs (step : S → L → Option S) (s : S) (ls : List L) (s' : S) (l : L) : Prop :=
  ∃ done, done ++ [l] <+: ls ∧ exec step s done = some s'

theorem visits_nil : Visits step s [] s' ↔ s' = s := by
  constructor
  · rintro ⟨done, hdone, hexec⟩
    rw [List.prefix_nil.1 hdone, exec_nil] at hexec
    exact (Option.some.inj hexec).symm
  · rintro rfl
    exact ⟨[], List.nil_prefix, rfl⟩

theorem visits_concat : Visits step s (ls ++ [l]) s' ↔
    Visits step s ls s' ∨ exec step s (ls ++ [l]) = some s' := by
  constructor
  · rintro ⟨done, hdone, hexec⟩
    rcases List.prefix_concat_iff.1 hdone with rfl | hdone
    · exact Or.inr hexec
    · exact Or.inl ⟨done, hdone, hexec⟩
  · rintro (⟨done, hdone, hexec⟩ | hexec)
    · exact ⟨done, hdone.trans (List.prefix_append ..), hexec⟩
    · exact ⟨_, List.prefix_rfl, hexec⟩

theorem not_performs_nil : ¬ Performs step s [] s' l := by
  rintro ⟨done, hdone, -⟩
  simp at hdone

theorem performs_concat : Performs step s (ls ++ [l]) s' l' ↔
    Performs step s ls s' l' ∨ (exec step s ls = some s' ∧ l' = l) := by
  constructor
  · rintro ⟨done, hdone, hexec⟩
    rcases List.prefix_concat_iff.1 hdone with heq | hdone
    · obtain ⟨rfl, hl⟩ := List.append_inj' heq rfl
      exact Or.inr ⟨hexec, List.singleton_inj.1 hl⟩
    · exact Or.inl ⟨done, hdone, hexec⟩
  · rintro (⟨done, hdone, hexec⟩ | ⟨hexec, rfl⟩)
    · exact ⟨done, hdone.trans (List.prefix_append ..), hexec⟩
    · exact ⟨ls, List.prefix_rfl, hexec⟩

theorem Performs.mem (h : Performs step s ls s' l) : l ∈ ls := by
  obtain ⟨done, hdone, -⟩ := h
  exact hdone.subset (by simp)

theorem Performs.append {ls' : List L} (hexec : exec step s ls = some s'')
    (h : Performs step s'' ls' s' l) : Performs step s (ls ++ ls') s' l := by
  obtain ⟨done, hdone, hs'⟩ := h
  refine ⟨ls ++ done, ?_, exec_append_eq_some.2 ⟨s'', hexec, hs'⟩⟩
  rw [List.append_assoc]
  exact (List.prefix_append_right_inj ls).2 hdone

/-- **Steps that decide a property**: if from a state with the property `P` exactly the steps with
`Ok` lead to one with `P`, then an execution keeps `P` throughout exactly if all its steps have
`Ok`. -/
theorem forall_visits_iff {I P : S → Prop} {Ok : S → L → Prop} (hI : I s) (hP : P s)
    (hstep : ∀ s l s', I s → step s l = some s' → I s' ∧ (P s → (P s' ↔ Ok s l)))
    (hexec : exec step s ls = some s'') :
    (∀ s', Visits step s ls s' → P s') ↔ ∀ s' l, Performs step s ls s' l → Ok s' l := by
  have hboth : I s'' ∧ ((∀ s', Visits step s ls s' → P s') ↔
      ∀ s' l, Performs step s ls s' l → Ok s' l) := by
    induction ls using List.reverseRecOn generalizing s'' with
    | nil =>
      obtain rfl : s = s'' := by simpa using hexec
      refine ⟨hI, fun _ s' l hl => absurd hl not_performs_nil, fun _ s' hs' => ?_⟩
      rwa [visits_nil.1 hs']
    | append_singleton ls l ih =>
      obtain ⟨s₁, hs₁, hl⟩ := exec_concat_eq_some.1 hexec
      obtain ⟨hI₁, hiff⟩ := ih hs₁
      obtain ⟨hI', hP'⟩ := hstep s₁ l s'' hI₁ hl
      have hvisit : Visits step s ls s₁ := ⟨ls, List.prefix_rfl, hs₁⟩
      refine ⟨hI', fun hall s' l' hperf => ?_, fun hall s' hs' => ?_⟩
      · have hbefore : ∀ s', Visits step s ls s' → P s' := fun s' hs' =>
          hall s' (visits_concat.2 (Or.inl hs'))
        rcases performs_concat.1 hperf with hperf | ⟨hs', rfl⟩
        · exact hiff.1 hbefore s' l' hperf
        · obtain rfl : s₁ = s' := Option.some.inj (hs₁.symm.trans hs')
          exact (hP' (hbefore s₁ hvisit)).1 (hall s'' (visits_concat.2 (Or.inr hexec)))
      · have hbefore : ∀ s', Visits step s ls s' → P s' := hiff.2 fun s' l' hperf =>
          hall s' l' (performs_concat.2 (Or.inl hperf))
        rcases visits_concat.1 hs' with hs' | hs'
        · exact hbefore s' hs'
        · obtain rfl : s'' = s' := Option.some.inj (hexec.symm.trans hs')
          exact (hP' (hbefore s₁ hvisit)).2 (hall s₁ l (performs_concat.2 (Or.inr ⟨hs₁, rfl⟩)))
  exact hboth.2

/-- Some step with `P` is performed, and after the last one the execution has gone on with labels
that have `R` in the state that the step led to. -/
def SinceLast (step : S → L → Option S) (P : S → L → Prop) (R : S → List L → Prop) (s : S)
    (ls : List L) : Prop :=
  ∃ before l after s₁ s₂, ls = before ++ l :: after ∧ exec step s before = some s₁ ∧ P s₁ l ∧
    step s₁ l = some s₂ ∧ (∀ s' l', Performs step s₂ after s' l' → ¬ P s' l') ∧ R s₂ after

theorem SinceLast.now {P : S → L → Prop} {R : S → List L → Prop} (hexec : exec step s ls = some s')
    (hP : P s' l) (hstep : step s' l = some s'') (hR : R s'' []) :
    SinceLast step P R s (ls ++ [l]) :=
  ⟨ls, l, [], s', s'', rfl, hexec, hP, hstep, fun _ _ h => absurd h not_performs_nil, hR⟩

theorem SinceLast.concat {P : S → L → Prop} {R R' : S → List L → Prop}
    (h : SinceLast step P R s ls) (hexec : exec step s ls = some s') (hP : ¬ P s' l)
    (hR : ∀ s₂ after, exec step s₂ after = some s' → R s₂ after → R' s₂ (after ++ [l])) :
    SinceLast step P R' s (ls ++ [l]) := by
  obtain ⟨before, l₁, after, s₁, s₂, rfl, hbefore, hP₁, hstep, hnone, hafter⟩ := h
  have hs' : exec step s₂ after = some s' := by
    obtain ⟨s₃, hs₃, hrest⟩ := exec_append_eq_some.1 hexec
    obtain rfl := Option.some.inj (hbefore.symm.trans hs₃)
    obtain ⟨s₄, hs₄, hrest⟩ := exec_cons_eq_some.1 hrest
    obtain rfl := Option.some.inj (hstep.symm.trans hs₄)
    exact hrest
  refine ⟨before, l₁, after ++ [l], s₁, s₂, by simp, hbefore, hP₁, hstep, fun s₃ l₃ h₃ => ?_,
    hR s₂ after hs' hafter⟩
  rcases performs_concat.1 h₃ with h₃ | ⟨hs₃, rfl⟩
  · exact hnone s₃ l₃ h₃
  · obtain rfl : s' = s₃ := Option.some.inj (hs'.symm.trans hs₃)
    exact hP

end

/-! ### Atomic objects -/

/-- What is seen of a shared object: calls and answers, by client. -/
inductive Event (ι C A : Type*) where
  | call (t : ι) (c : C)
  | answer (t : ι) (a : A)

/-- How far the atomic object is with the call of a client. -/
inductive Client (C A : Type*) where
  /-- No call is pending. -/
  | idle
  /-- The call has not taken effect. -/
  | called (c : C)
  /-- The call has taken effect. -/
  | served (a : A)

section

variable {ι σ C A : Type*} [DecidableEq ι] {apply : σ → C → σ × A}

/-- The **atomic object**: from the state `x` with the clients `f`, the history `h` is possible and
leads to `x'` and `f'`.  The step `serve` is the instant at which a call takes effect. -/
inductive Serves (apply : σ → C → σ × A) (x : σ) (f : ι → Client C A) :
    List (Event ι C A) → σ → (ι → Client C A) → Prop
  | nil : Serves apply x f [] x f
  | call {h x' f'} (t : ι) (c : C) : Serves apply x f h x' f' → f' t = .idle →
      Serves apply x f (h ++ [.call t c]) x' (Function.update f' t (.called c))
  | serve {h x' f'} (t : ι) (c : C) : Serves apply x f h x' f' → f' t = .called c →
      Serves apply x f h (apply x' c).1 (Function.update f' t (.served (apply x' c).2))
  | answer {h x' f'} (t : ι) (a : A) : Serves apply x f h x' f' → f' t = .served a →
      Serves apply x f (h ++ [.answer t a]) x' (Function.update f' t .idle)

/-- A history of calls and answers is linearizable: the atomic object has it too, from the state
`x` with all clients idle. -/
def Linearizable (apply : σ → C → σ × A) (x : σ) (h : List (Event ι C A)) : Prop :=
  ∃ x' f', Serves apply x (fun _ => .idle) h x' f'

theorem Serves.trans {x x' x'' : σ} {f f' f'' : ι → Client C A} {h h' : List (Event ι C A)}
    (hs : Serves apply x f h x' f') (hs' : Serves apply x' f' h' x'' f'') :
    Serves apply x f (h ++ h') x'' f'' := by
  induction hs' with
  | nil => rwa [List.append_nil]
  | call t c _ ht ih =>
    rw [← List.append_assoc]
    exact .call t c ih ht
  | serve t c _ ht ih => exact .serve t c ih ht
  | answer t a _ ht ih =>
    rw [← List.append_assoc]
    exact .answer t a ih ht

/-- **Simulation by the atomic object**: if every machine step is matched by steps of the atomic
object with the same event, the history of an execution is one of the atomic object. -/
theorem exec_serves {S L : Type*} {step : S → L → Option S} {event : L → Option (Event ι C A)}
    {Rel : S → σ → (ι → Client C A) → Prop} {P : L → Prop}
    (hstep : ∀ s l s' x f, P l → Rel s x f → step s l = some s' →
      ∃ x' f', Rel s' x' f' ∧ Serves apply x f (event l).toList x' f')
    {s s' : S} {ls : List L} {x : σ} {f : ι → Client C A} (hls : ∀ l ∈ ls, P l) (hs : Rel s x f)
    (hexec : exec step s ls = some s') :
    ∃ x' f', Rel s' x' f' ∧ Serves apply x f (ls.filterMap event) x' f' := by
  induction ls generalizing s x f with
  | nil =>
    obtain rfl : s = s' := by simpa using hexec
    exact ⟨x, f, hs, .nil⟩
  | cons l ls ih =>
    obtain ⟨hl, hls⟩ := List.forall_mem_cons.1 hls
    obtain ⟨s₁, hs₁, hexec⟩ := exec_cons_eq_some.1 hexec
    -- the atomic object first does what matches this step, then what matches the rest
    obtain ⟨x₁, f₁, hrel, hserves⟩ := hstep s l s₁ x f hl hs hs₁
    obtain ⟨x', f', hrel', hserves'⟩ := ih hls hrel hexec
    refine ⟨x', f', hrel', ?_⟩
    have hevents : (l :: ls).filterMap event = (event l).toList ++ ls.filterMap event := by
      cases hl : event l <;> simp [hl]
    rw [hevents]
    exact hserves.trans hserves'

end

end StoneDb
