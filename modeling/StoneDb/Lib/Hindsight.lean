import StoneDb.Lib.Execution
import Mathlib.Data.Finset.Insert

/-!
# Linearizability with hindsight

Some calls take effect at an instant that can only be told afterwards: a call that counts while
others insert has the answer of the instant at which there were as many as it will have counted.
`exec_serves_ahead` is the simulation rule for them.  Its relation is between the machine with the
labels that are still to come, and the atomic object; so a call that only reads can be served as
soon as its answer is right, by `Serves.serveAll` many of them at once.
-/

namespace StoneDb

variable {ι σ C A : Type*} [DecidableEq ι] {apply : σ → C → σ × A}

/-- Calls that leave the object as it is take effect all at the same instant. -/
theorem Serves.serveAll {x : σ} {f : ι → Client C A} (T : Finset ι) (c : ι → C) (a : ι → A)
    (hcalled : ∀ t ∈ T, f t = .called (c t)) (happly : ∀ t ∈ T, apply x (c t) = (x, a t)) :
    Serves apply x f [] x fun t => if t ∈ T then .served (a t) else f t := by
  induction T using Finset.induction_on with
  | empty =>
    simp only [Finset.notMem_empty, if_false]
    exact .nil
  | insert t T ht ih =>
    have hrest := ih (fun t' ht' => hcalled t' (Finset.mem_insert_of_mem ht'))
      fun t' ht' => happly t' (Finset.mem_insert_of_mem ht')
    have hpending : (if t ∈ T then Client.served (a t) else f t) = .called (c t) := by
      rw [if_neg ht]
      exact hcalled t (Finset.mem_insert_self _ _)
    have hserve := Serves.serve t (c t) hrest hpending
    rw [happly t (Finset.mem_insert_self _ _)] at hserve
    have heq : (fun t' => if t' ∈ insert t T then Client.served (a t') else f t') =
        Function.update (fun t' => if t' ∈ T then Client.served (a t') else f t') t
          (.served (a t)) := by
      funext t'
      by_cases htt : t' = t
      · subst htt
        rw [Function.update_self, if_pos (Finset.mem_insert_self _ _)]
      · rw [Function.update_of_ne htt]
        simp only [Finset.mem_insert, htt, false_or]
    rw [heq]
    exact hserve

/-- **Simulation by the atomic object, with hindsight**: every step is matched, given the labels
that the execution has still to perform. -/
theorem exec_serves_ahead {S L : Type*} {step : S → L → Option S}
    {event : L → Option (Event ι C A)} (Rel : List L → S → σ → (ι → Client C A) → Prop)
    {P : L → Prop}
    (hstep : ∀ l ls s s' s'' x f, (∀ l' ∈ l :: ls, P l') → Rel (l :: ls) s x f →
      step s l = some s' → exec step s' ls = some s'' →
      ∃ x' f', Rel ls s' x' f' ∧ Serves apply x f (event l).toList x' f')
    {s s' : S} {ls : List L} {x : σ} {f : ι → Client C A} (hls : ∀ l ∈ ls, P l)
    (hs : Rel ls s x f) (hexec : exec step s ls = some s') :
    ∃ x' f', Rel [] s' x' f' ∧ Serves apply x f (ls.filterMap event) x' f' := by
  induction ls generalizing s x f with
  | nil =>
    obtain rfl : s = s' := by simpa using hexec
    exact ⟨x, f, hs, .nil⟩
  | cons l ls ih =>
    obtain ⟨s₁, hs₁, hrest⟩ := exec_cons_eq_some.1 hexec
    obtain ⟨x₁, f₁, hrel, hserves⟩ := hstep l ls s s₁ s' x f hls hs hs₁ hrest
    obtain ⟨x', f', hrel', hserves'⟩ :=
      ih (fun l' hl' => hls l' (List.mem_cons_of_mem _ hl')) hrel hrest
    refine ⟨x', f', hrel', ?_⟩
    have hevents : (l :: ls).filterMap event = (event l).toList ++ ls.filterMap event := by
      cases hl : event l <;> simp [hl]
    rw [hevents]
    exact hserves.trans hserves'

end StoneDb
