import StoneDb.SkipList.Basic
import StoneDb.Lib.Keeps

/-!
# What a `put` keeps of the arena

A `put` allocates at most one node, and after that it only stores to slots and back pointers.  So
what such stores keep (`StoreStable`) and the allocation keeps, the `put` keeps (`KeepsArena.put`),
and what holds after the allocation holds in the end if such stores keep it (`put_arena`).
-/

namespace StoneDb

/-- Stores to slots and to back pointers keep `P`. -/
structure StoreStable (P : Arena → Prop) : Prop where
  setNext : ∀ a o l x, P a → P (a.setNext o l x)
  setPrev : ∀ a o x, P a → P (a.setPrev o x)

namespace StoreStable

variable {P : Arena → Prop} (hP : StoreStable P) {a a' : Arena} {o l x : ℕ} (h : P a)

include hP h

theorem nodeSetNext (hrun : nodeSetNext a o l x = .ok a') : P a' :=
  nodeSetNext_ok hrun ▸ hP.setNext a o l x h

theorem nodeSetPrev (hrun : nodeSetPrev a o x = .ok a') : P a' :=
  nodeSetPrev_ok hrun ▸ hP.setPrev a o x h

theorem nodeCompareExchange {current : ℕ} {r : Bool × Arena}
    (hrun : nodeCompareExchange a o l current x = .ok r) : P r.2 := by
  obtain ⟨y, -, hrun⟩ := except_bind_eq_ok.1 hrun
  split_ifs at hrun
  · obtain ⟨a', hset, hrun⟩ := except_bind_eq_ok.1 hrun
    cases hrun
    exact hP.nodeSetNext h hset
  · cases hrun
    exact h

end StoreStable

/-- `x` keeps `P` of the arena. -/
def KeepsArena (P : Arena → Prop) {α : Type} (x : SkipList.Prog α) : Prop :=
  Keeps (fun sl => P sl.arena) (fun _ => True) x

namespace KeepsArena

open SkipList

variable {P : Arena → Prop} {α : Type}

theorem reading {f : SkipList → Except Fault α} : KeepsArena P (reading f) := by
  intro sl hsl
  unfold SkipList.reading
  cases f sl
  · trivial
  · exact hsl

theorem storing {f : Arena → Except Fault Arena}
    (hf : ∀ a a', P a → f a = .ok a' → P a') : KeepsArena P (storing f) := by
  intro sl hsl
  unfold SkipList.storing
  cases hrun : f sl.arena with
  | error e => trivial
  | ok arena => exact hf _ _ hsl hrun

theorem updating {f : Arena → Except Fault (α × Arena)}
    (hf : ∀ a, ∀ r : α × Arena, P a → f a = .ok r → P r.2) : KeepsArena P (updating f) := by
  intro sl hsl
  unfold SkipList.updating
  cases hrun : f sl.arena with
  | error e => trivial
  | ok r => exact hf _ _ hsl hrun

theorem raiseStep (height current : ℕ) : KeepsArena P (raiseStep height current) := by
  intro sl hsl
  unfold SkipList.raiseStep
  split_ifs <;> exact hsl

theorem raiseHeight (height listHeight : ℕ) : KeepsArena P (raiseHeight height listHeight) := by
  intro sl hsl
  unfold SkipList.raiseHeight
  split_ifs
  · exact Keeps.loop (raiseStep height) (.throw trivial) _ _ sl hsl
  · exact hsl
  · exact hsl

section

variable (hP : StoreStable P)

include hP

theorem linkStep (key value : Bytes) (node i : ℕ) (s : Splices) :
    KeepsArena P (linkStep key value node i s) := by
  unfold SkipList.linkStep
  refine reading.bind fun before => ?_
  extract_lets link
  have hlink : ∀ s, KeepsArena P (link s) := by
    intro s
    refine reading.bind fun p => reading.bind fun nextOffset => ?_
    refine (storing fun a a' ha => hP.nodeSetNext ha).bind fun _ => ?_
    refine (updating (P := P) fun a r ha => hP.nodeCompareExchange ha).bind fun linked =>
      .ite (.pure _) ?_
    refine reading.bind fun r => .ite (.ite (.throw trivial) ?_) ?_
    · exact reading.bind fun _ => .pure _
    · exact reading.bind fun _ => .pure _
  refine .ite ?_ ?_
  · exact reading.bind fun r => reading.bind hlink
  · exact (Keeps.pure _).bind hlink

theorem storeLink (node i : ℕ) (s : Splices) : KeepsArena P (storeLink node i s) := by
  unfold SkipList.storeLink
  refine reading.bind fun before => reading.bind fun nextOffset => ?_
  extract_lets link
  have hlink : ∀ s, KeepsArena P (link s) := by
    intro s
    refine reading.bind fun p => ?_
    extract_lets stores
    have hstores : KeepsArena P (stores ()) :=
      (storing fun a a' ha => hP.nodeSetNext ha).bind fun _ =>
        (storing fun a a' ha => hP.nodeSetNext ha).bind fun _ => .pure _
    refine .ite ?_ hstores
    refine (storing fun a a' ha => hP.nodeSetPrev ha).bind fun _ => .ite ?_ hstores
    exact (storing fun a a' ha => hP.nodeSetPrev ha).bind fun _ => hstores
  refine .ite ?_ ?_
  · exact reading.bind fun _ => reading.bind hlink
  · exact (Keeps.pure _).bind hlink

theorem linkLevels (key value : Bytes) (node todo i : ℕ) (s : Splices) :
    KeepsArena P (linkLevels key value node todo i s) := by
  induction todo generalizing i s with
  | zero => exact .pure _
  | succ todo ih =>
    rw [SkipList.linkLevels]
    refine reading.bind fun concurrent => .ite ?_ ?_
    · refine reading.bind fun fuel =>
        (Keeps.loop (linkStep hP key value node i) (.throw trivial) fuel s).bind fun r => ?_
      cases r with
      | inl r => exact .pure r
      | inr s => exact ih (i + 1) s
    · exact (storeLink hP node i s).bind fun s => ih (i + 1) s

end

end KeepsArena

section

variable {P : Arena → Prop} {key value : Bytes} {height : ℕ} {sl sl' : SkipList}
  {r : Option (Bytes × Bytes)}

theorem reading_ok {α : Type} {f : SkipList → Except Fault α} {a : α}
    (hrun : SkipList.reading f sl = .ok a sl') : sl = sl' := by
  unfold SkipList.reading at hrun
  cases hf : f sl with
  | error e =>
    rw [hf] at hrun
    cases hrun
  | ok a =>
    rw [hf] at hrun
    cases hrun
    rfl

/-- **A `put` that returns** leaves the arena alone, or it has allocated its node and then stored to
slots and back pointers. -/
theorem put_arena (hrun : SkipList.put key value height sl = .ok r sl') :
    sl'.arena = sl.arena ∨ ∃ node a, allocNode key value height sl.arena = .ok node a ∧
      ∀ P : Arena → Prop, StoreStable P → P a → P sl'.arena := by
  unfold SkipList.put at hrun
  obtain ⟨listHeight, sl₁, hread, hrun⟩ := bind_eq_ok.1 hrun
  obtain rfl := reading_ok hread
  obtain ⟨found, sl₂, hsearch, hrun⟩ := bind_eq_ok.1 hrun
  obtain rfl := reading_ok hsearch
  cases found with
  | inl r =>
    cases hrun
    exact Or.inl rfl
  | inr s =>
    obtain ⟨node, sl₁, halloc, hrun⟩ := bind_eq_ok.1 hrun
    obtain ⟨⟨⟩, sl₂, hraise, hlink⟩ := bind_eq_ok.1 hrun
    simp only [SkipList.onArena] at halloc
    cases hnode : allocNode key value height sl.arena with
    | error e a =>
      rw [hnode] at halloc
      cases halloc
    | ok o a =>
      rw [hnode] at halloc
      cases halloc
      refine Or.inr ⟨node, a, rfl, fun P hP h => ?_⟩
      have hraised : P sl₂.arena :=
        Keeps.ok (KeepsArena.raiseHeight (P := P) height listHeight) h hraise
      exact Keeps.ok (KeepsArena.linkLevels hP key value node (height + 1) 0 s) hraised hlink

theorem KeepsArena.put (hP : StoreStable P)
    (halloc : ∀ a o a', P a → allocNode key value height a = .ok o a' → P a') :
    KeepsArena P (SkipList.put key value height) := by
  intro sl hsl
  cases hrun : SkipList.put key value height sl with
  | error e sl' => trivial
  | ok r sl' =>
    rcases put_arena hrun with he | ⟨node, a, hnode, hkeep⟩
    · exact show P sl'.arena from he ▸ hsl
    · exact hkeep P hP (halloc _ _ _ hsl hnode)

end

end StoneDb
