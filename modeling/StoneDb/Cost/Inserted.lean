import StoneDb.Cost.Search
import StoneDb.SkipList.MemSize

/-!
# The nodes of a run

What calls of `put` leave in a list with room for all of them, one after the other: a node for each
first call of its key, with the key and the height of the call (`Placed`).  Which calls these are
depends on the keys alone (`firsts`), and not on the heights.
-/

namespace StoneDb

open SkipList

/-! ### The height of a new node -/

namespace Arena

variable {a : Arena} {key value : Bytes} {height : ℕ}

theorem heightAt_stable (f : ℕ → ℕ) : StoreStable fun a => a.heightAt = f where
  setNext a o l x h := by
    rw [← h]
    funext o'
    rw [heightAt, node_setNext, heightAt, Option.map_map]
    congr 2
    funext n
    simp only [Function.comp]
    split_ifs <;> rfl
  setPrev a o x h := by
    rw [← h]
    funext o'
    rw [heightAt, node_setPrev, heightAt, Option.map_map]
    congr 2
    funext n
    simp only [Function.comp]
    split_ifs <;> rfl

theorem heightAt_push (hh : height < maxHeight) :
    (a.push key value height).heightAt = Function.update a.heightAt a.len height := by
  funext o
  rw [heightAt, push, node_write, Function.update_apply]
  split_ifs
  · rw [Option.map_some, Option.getD_some, Node.height_init _ _ hh]
  · rfl

theorem not_alive_stable (o : ℕ) : StoreStable fun a => ¬ a.Alive o where
  setNext a o l x h := by rwa [alive_setNext]
  setPrev a o x h := by rwa [alive_setPrev]

end Arena

variable {cmp : KeyComparator} [Std.TransCmp cmp.compareKey] {sl sl' : SkipList}
  {S S' : ℕ → Finset ℕ} {m : OrderedMap cmp.compareKey Bytes} {cs : List PutCall} {c : PutCall}
  {r : Option (Bytes × Bytes)} {x : ℕ}

/-- The node of a call that inserts has the height of the call, and no other height changes. -/
theorem heightAt_after (h : Wf cmp sl S) (hh : c.height < maxHeight)
    (hsz : Sized sl.arena.capacity c.key c.value)
    (hrun : SkipList.put c.key c.value c.height sl = .ok r sl')
    (hadd : PutAdded cmp sl S c.key c.value c.height sl' S' x) :
    sl'.arena.heightAt = Function.update sl.arena.heightAt x c.height := by
  have halive : sl'.arena.Alive x :=
    hadd.wf.alive (l := 0) (hadd.zero ▸ Finset.mem_insert_self _ _)
  rcases put_arena hrun with he | ⟨o, a, hnode, hkeep⟩
  · exact absurd (he ▸ halive) hadd.fresh
  rcases h.allocNode_cases hh hsz.keySized with ⟨-, hfull⟩ | ⟨-, hpush⟩
  · rw [hfull] at hnode
    cases hnode
  rw [hpush] at hnode
  cases hnode
  have hlen : x = sl.arena.len := by
    by_contra hne
    refine hkeep _ (Arena.not_alive_stable x) ?_ halive
    rw [Arena.push, Arena.alive_write_of_ne hne]
    exact hadd.fresh
  rw [hkeep _ (Arena.heightAt_stable _) (Arena.heightAt_push hh), hlen]

/-! ### First calls -/

/-- The indices of the keys that no key before equals. -/
def firsts (cmp : KeyComparator) (keys : List Bytes) : Finset ℕ :=
  {i ∈ Finset.range keys.length |
    ∀ j < i, cmp.compareKey (keys.getD j []) (keys.getD i []) ≠ .eq}

variable {keys : List Bytes} {key : Bytes} {i : ℕ}

omit [Std.TransCmp cmp.compareKey] in
theorem firsts_subset : firsts cmp keys ⊆ Finset.range keys.length := Finset.filter_subset _ _

theorem mem_firsts : i ∈ firsts cmp keys ↔ i < keys.length ∧
    ∀ j < i, keyPos cmp (keys.getD j []) ≠ keyPos cmp (keys.getD i []) := by
  simp only [firsts, Finset.mem_filter, Finset.mem_range, ne_eq, keyPos_eq_keyPos]

/-- Every key equals a first one. -/
theorem exists_firsts (hi : i < keys.length) : ∃ j ∈ firsts cmp keys,
    keyPos cmp (keys.getD j []) = keyPos cmp (keys.getD i []) := by
  induction i using Nat.strong_induction_on with
  | _ i ih =>
    by_cases hfirst : i ∈ firsts cmp keys
    · exact ⟨i, hfirst, rfl⟩
    · simp only [mem_firsts, hi, true_and, not_forall, not_not] at hfirst
      obtain ⟨j, hj, heq⟩ := hfirst
      obtain ⟨o, ho, heq'⟩ := ih j hj (hj.trans hi)
      exact ⟨o, ho, heq'.trans heq⟩

/-- No two first keys are equal. -/
theorem injOn_firsts :
    Set.InjOn (fun i => keyPos cmp (keys.getD i [])) (firsts cmp keys) := by
  intro i hi j hj heq
  rcases lt_trichotomy i j with hlt | he | hgt
  · exact absurd heq ((mem_firsts.1 hj).2 i hlt)
  · exact he
  · exact absurd heq.symm ((mem_firsts.1 hi).2 j hgt)

theorem getD_concat_of_lt (hi : i < keys.length) (key : Bytes) :
    (keys ++ [key]).getD i [] = keys.getD i [] := List.getD_append _ _ _ _ hi

theorem getD_concat_length (keys : List Bytes) (key : Bytes) :
    (keys ++ [key]).getD keys.length [] = key := by
  rw [List.getD_append_right _ _ _ _ le_rfl, Nat.sub_self, List.getD_cons_zero]

/-- One more key is a first one if none of the first ones equals it. -/
theorem firsts_concat (key : Bytes) : firsts cmp (keys ++ [key]) =
    if ∃ i ∈ firsts cmp keys, keyPos cmp (keys.getD i []) = keyPos cmp key then firsts cmp keys
    else insert keys.length (firsts cmp keys) := by
  have hlt (i : ℕ) (hi : i < keys.length) :
      i ∈ firsts cmp (keys ++ [key]) ↔ i ∈ firsts cmp keys := by
    rw [mem_firsts, mem_firsts, getD_concat_of_lt hi, List.length_append, List.length_singleton]
    refine and_congr (iff_of_true (hi.trans (Nat.lt_succ_self _)) hi) (forall₂_congr fun j hj => ?_)
    rw [getD_concat_of_lt (hj.trans hi)]
  have hlast : keys.length ∈ firsts cmp (keys ++ [key]) ↔
      ¬ ∃ i ∈ firsts cmp keys, keyPos cmp (keys.getD i []) = keyPos cmp key := by
    rw [mem_firsts, getD_concat_length, List.length_append, List.length_singleton]
    constructor
    · rintro ⟨-, hne⟩ ⟨i, hi, heq⟩
      have hil := (mem_firsts.1 hi).1
      exact hne i hil (by rw [getD_concat_of_lt hil, heq])
    · refine fun hnone => ⟨Nat.lt_succ_self _, fun j hj heq => hnone ?_⟩
      rw [getD_concat_of_lt hj] at heq
      obtain ⟨i, hi, heq'⟩ : ∃ i ∈ firsts cmp keys,
        keyPos cmp (keys.getD i []) = keyPos cmp (keys.getD j []) := exists_firsts hj
      exact ⟨i, hi, heq'.trans heq⟩
  ext i
  by_cases hi : i < keys.length
  · rw [hlt i hi]
    split_ifs
    · rfl
    · rw [Finset.mem_insert, or_iff_right hi.ne]
  · have hnot : i ∉ firsts cmp keys := fun hm => hi (mem_firsts.1 hm).1
    by_cases he : i = keys.length
    · subst he
      rw [hlast]
      split_ifs with hex
      · exact iff_of_false (not_not_intro hex) hnot
      · exact iff_of_true hex (Finset.mem_insert_self _ _)
    · refine iff_of_false (fun hm => ?_) (fun hm => ?_)
      · have hlen := (mem_firsts.1 hm).1
        rw [List.length_append, List.length_singleton] at hlen
        omega
      · split_ifs at hm
        · exact hnot hm
        · exact (Finset.mem_insert.1 hm).elim he hnot

/-! ### Runs -/

/-- The list after the calls, panics caught. -/
def afterAll (cs : List PutCall) (sl : SkipList) : SkipList := cs.foldl (fun sl c => c.after sl) sl

theorem afterAll_concat (cs : List PutCall) (c : PutCall) (sl : SkipList) :
    afterAll (cs ++ [c]) sl = c.after (afterAll cs sl) := List.foldl_concat _ _ _ _

section

variable {capacity : ℕ} {mode : Bool}

omit [Std.TransCmp cmp.compareKey] in
theorem reachable_afterAll (hnew : SkipList.withCapacity cmp capacity mode = .ok sl)
    (hcs : ∀ c ∈ cs, c.Valid) : (afterAll cs sl).Reachable cmp capacity mode PutCall.Valid := by
  induction cs using List.reverseRecOn with
  | nil => exact .new hnew
  | append_singleton cs c ih =>
    rw [afterAll_concat]
    exact .put (ih fun c hc => hcs c (List.mem_append_left _ hc)) c
      (hcs c (List.mem_append_right _ (List.mem_singleton_self c)))

/-- What a list of the run is before its next call. -/
theorem SkipList.Reachable.sized (h : sl.Reachable cmp capacity mode PutCall.Valid)
    (hcap : capacity ≤ 2 ^ 32) (hc : c.Valid) : sl.arena.capacity = capacity ∧
      Sized sl.arena.capacity c.key c.value ∧ ∃ S m, Refines cmp sl S m := by
  obtain ⟨hcapacity, S, m, hm, -⟩ := h.refines fun c hc => hc.storable hcap
  exact ⟨hcapacity, sized_of_le (hcapacity.trans_le hcap) hc.size, S, m, hm⟩

/-- A call takes at most the bytes of its node. -/
theorem SkipList.Reachable.memSize_after (h : sl.Reachable cmp capacity mode PutCall.Valid)
    (hcap : capacity ≤ 2 ^ 32) (hc : c.Valid) :
    (c.after sl).memSize ≤ sl.memSize + nodeBytes c.key c.value c.height := by
  obtain ⟨-, hsz, S, m, hm⟩ := h.sized hcap hc
  rcases hm.put_or_full hc.height hsz with ⟨-, hrun⟩ | ⟨sl', S', hrun, -, -, hlen⟩
  · rw [PutCall.after, hrun]
    exact Nat.le_add_right _ _
  · rw [PutCall.after, hrun]
    exact hlen

theorem memSize_afterAll (hcap : capacity ≤ 2 ^ 32)
    (hnew : SkipList.withCapacity cmp capacity mode = .ok sl) (hcs : ∀ c ∈ cs, c.Valid) :
    (afterAll cs sl).memSize ≤ 192 + callBytes cs := by
  induction cs using List.reverseRecOn with
  | nil => exact (wf_withCapacity hnew).2.2.2.1.le
  | append_singleton cs c ih =>
    have hcs' : ∀ c ∈ cs, c.Valid := fun c hc => hcs c (List.mem_append_left _ hc)
    have hc : c.Valid := hcs c (List.mem_append_right _ (List.mem_singleton_self c))
    have hafter := (reachable_afterAll hnew hcs').memSize_after hcap hc
    have hbefore := ih hcs'
    rw [afterAll_concat, callBytes_concat]
    omega

end

/-- `node` names the nodes of the list by the calls that have inserted them. -/
structure Placed (cmp : KeyComparator) [Std.TransCmp cmp.compareKey] (cs : List PutCall)
    (sl : SkipList) (S : ℕ → Finset ℕ) (node : ℕ → ℕ) : Prop where
  inj : Set.InjOn node (firsts cmp (cs.map PutCall.key))
  nodes : S 0 = (firsts cmp (cs.map PutCall.key)).image node
  holds : ∀ i ∈ firsts cmp (cs.map PutCall.key), ∃ c, cs[i]? = some c ∧
    sl.arena.keyAt (node i) = c.key ∧ sl.arena.heightAt (node i) = c.height
  height : ∀ H, (∀ i ∈ firsts cmp (cs.map PutCall.key), ∀ c, cs[i]? = some c → c.height ≤ H) →
    sl.height ≤ H

namespace Placed

variable {node : ℕ → ℕ}

theorem key_eq {i : ℕ} (hi : cs[i]? = some c) : (cs.map PutCall.key).getD i [] = c.key := by
  rw [List.getD_eq_getElem?_getD, List.getElem?_map, hi]
  rfl

theorem new {capacity : ℕ} {mode : Bool}
    (hnew : SkipList.withCapacity cmp capacity mode = .ok sl) :
    Placed cmp [] sl (fun _ => ∅) node := by
  have hnone : firsts cmp (([] : List PutCall).map PutCall.key) = ∅ := rfl
  obtain ⟨rfl, -, -⟩ := withCapacity_eq_ok hnew
  refine ⟨?_, ?_, fun i hi => ?_, fun H _ => Nat.zero_le H⟩
  · rw [hnone]
    simp
  · rw [hnone, Finset.image_empty]
  · rw [hnone] at hi
    exact absurd hi (Finset.notMem_empty i)

/-- A linked node has the key exactly if a call before has. -/
theorem exists_iff (h : Placed cmp cs sl S node) (hwf : Wf cmp sl S) (key : Bytes) :
    (∃ x ∈ S 0, pos cmp sl x = keyPos cmp key) ↔ ∃ i ∈ firsts cmp (cs.map PutCall.key),
      keyPos cmp ((cs.map PutCall.key).getD i []) = keyPos cmp key := by
  have hpos (i : ℕ) (hi : i ∈ firsts cmp (cs.map PutCall.key)) : node i ∈ S 0 ∧
      pos cmp sl (node i) = keyPos cmp ((cs.map PutCall.key).getD i []) := by
    have hmem : node i ∈ S 0 := h.nodes ▸ Finset.mem_image_of_mem node hi
    obtain ⟨c, hc, hkey, -⟩ := h.holds i hi
    rw [hwf.pos_mem hmem, hkey, key_eq hc]
    exact ⟨hmem, rfl⟩
  constructor
  · rintro ⟨x, hx, heq⟩
    rw [h.nodes] at hx
    obtain ⟨i, hi, rfl⟩ := Finset.mem_image.1 hx
    exact ⟨i, hi, (hpos i hi).2.symm.trans heq⟩
  · rintro ⟨i, hi, heq⟩
    exact ⟨node i, (hpos i hi).1, (hpos i hi).2.trans heq⟩

/-- A call whose key is linked. -/
theorem kept (h : Placed cmp cs sl S node) (hwf : Wf cmp sl S)
    (hmem : ∃ x ∈ S 0, pos cmp sl x = keyPos cmp c.key) : Placed cmp (cs ++ [c]) sl S node := by
  have hfirsts : firsts cmp ((cs ++ [c]).map PutCall.key) = firsts cmp (cs.map PutCall.key) := by
    rw [List.map_append, List.map_singleton, firsts_concat,
      if_pos ((h.exists_iff hwf c.key).1 hmem)]
  have hget (i : ℕ) (hi : i ∈ firsts cmp (cs.map PutCall.key)) : (cs ++ [c])[i]? = cs[i]? := by
    have hlt := (mem_firsts.1 hi).1
    rw [List.length_map] at hlt
    exact List.getElem?_append_left hlt
  refine ⟨hfirsts ▸ h.inj, hfirsts ▸ h.nodes, fun i hi => ?_, fun H hH => h.height H ?_⟩
  · rw [hfirsts] at hi
    rw [hget i hi]
    exact h.holds i hi
  · intro i hi c' hc'
    exact hH i (hfirsts ▸ hi) c' ((hget i hi).trans hc')

/-- A call that inserts. -/
theorem added (h : Placed cmp cs sl S node) (hwf : Wf cmp sl S) (hc : c.height < maxHeight)
    (hsz : Sized sl.arena.capacity c.key c.value)
    (habs : ∀ x ∈ S 0, pos cmp sl x ≠ keyPos cmp c.key)
    (hrun : SkipList.put c.key c.value c.height sl = .ok r sl')
    (hadd : PutAdded cmp sl S c.key c.value c.height sl' S' x) :
    Placed cmp (cs ++ [c]) sl' S' (Function.update node cs.length x) := by
  have hfirsts : firsts cmp ((cs ++ [c]).map PutCall.key) =
      insert cs.length (firsts cmp (cs.map PutCall.key)) := by
    rw [List.map_append, List.map_singleton, firsts_concat, if_neg, List.length_map]
    rw [← h.exists_iff hwf c.key]
    rintro ⟨x, hx, heq⟩
    exact habs x hx heq
  have hlt (i : ℕ) (hi : i ∈ firsts cmp (cs.map PutCall.key)) : i < cs.length := by
    have hlt := (mem_firsts.1 hi).1
    rwa [List.length_map] at hlt
  have hold (i : ℕ) (hi : i ∈ firsts cmp (cs.map PutCall.key)) :
      Function.update node cs.length x i = node i ∧ node i ∈ S 0 ∧ node i ≠ x := by
    have hmem : node i ∈ S 0 := h.nodes ▸ Finset.mem_image_of_mem node hi
    exact ⟨Function.update_of_ne (hlt i hi).ne _ _, hmem,
      fun he => hadd.fresh (he ▸ hwf.alive hmem)⟩
  have hlast : Function.update node cs.length x cs.length = x := Function.update_self _ _ _
  refine ⟨?_, ?_, fun i hi => ?_, fun H hH => ?_⟩
  · rw [hfirsts, Finset.coe_insert]
    refine (Set.injOn_insert fun hmem => (hlt _ hmem).ne rfl).2 ⟨?_, ?_⟩
    · intro i hi j hj he
      rw [(hold i hi).1, (hold j hj).1] at he
      exact h.inj hi hj he
    · rintro ⟨i, hi, he⟩
      rw [hlast, (hold i hi).1] at he
      exact (hold i hi).2.2 he
  · rw [hfirsts, Finset.image_insert, hlast, hadd.zero, h.nodes]
    congr 1
    exact Finset.image_congr fun i hi => ((hold i hi).1).symm
  · rw [hfirsts] at hi
    rcases Finset.mem_insert.1 hi with rfl | hi
    · refine ⟨c, List.getElem?_concat_length, ?_⟩
      rw [hlast, heightAt_after hwf hc hsz hrun hadd, Function.update_self]
      exact ⟨congrArg Prod.fst hadd.pair, rfl⟩
    · obtain ⟨c', hc', hkey, hheight⟩ := h.holds i hi
      obtain ⟨he, hmem, hne⟩ := hold i hi
      refine ⟨c', (List.getElem?_append_left (hlt i hi)).trans hc', ?_⟩
      rw [he, heightAt_after hwf hc hsz hrun hadd, Function.update_of_ne hne]
      exact ⟨(congrArg Prod.fst (hadd.grows.pair _ (hwf.alive hmem))).trans hkey, hheight⟩
  · have hle : sl'.height ≤ max sl.height c.height := by
      rcases Concurrent.put_returns hwf hc hsz with ⟨r', sl₁, hrun', hle⟩ | ⟨hfull, -⟩
      · rw [hrun] at hrun'
        cases hrun'
        exact hle
      · rw [hrun] at hfull
        cases hfull
    refine hle.trans (max_le (h.height H fun i hi c' hc' => ?_) ?_)
    · exact hH i (hfirsts ▸ Finset.mem_insert_of_mem hi) c'
        ((List.getElem?_append_left (hlt i hi)).trans hc')
    · exact hH cs.length (hfirsts ▸ Finset.mem_insert_self _ _) c List.getElem?_concat_length

end Placed

/-- **A run** with room for the nodes of all calls. -/
theorem placed_afterAll {capacity : ℕ} {mode : Bool} (hcap : capacity ≤ 2 ^ 32)
    (hnew : SkipList.withCapacity cmp capacity mode = .ok sl) (hcs : ∀ c ∈ cs, c.Valid)
    (hroom : 192 + callBytes cs ≤ capacity) :
    ∃ S node, Wf cmp (afterAll cs sl) S ∧ Placed cmp cs (afterAll cs sl) S node := by
  induction cs using List.reverseRecOn with
  | nil => exact ⟨_, id, (wf_withCapacity hnew).1, .new hnew⟩
  | append_singleton cs c ih =>
    rw [callBytes_concat] at hroom
    have hcs' : ∀ c ∈ cs, c.Valid := fun c hc => hcs c (List.mem_append_left _ hc)
    have hc : c.Valid := hcs c (List.mem_append_right _ (List.mem_singleton_self c))
    obtain ⟨S, node, hwf, hplaced⟩ := ih hcs' (by omega)
    obtain ⟨hcapacity, hsz, S₁, m, hm⟩ := (reachable_afterAll hnew hcs').sized hcap hc
    obtain rfl := hwf.unique hm.wf
    have hlen : (afterAll cs sl).arena.len ≤ _ := memSize_afterAll hcap hnew hcs'
    rw [afterAll_concat, PutCall.after]
    rcases put_spec hm.wf hm.back hc.height hsz.keySized with
      ⟨x, hx, hpos, hrun⟩ | ⟨habs, ⟨hfull, -⟩ | ⟨-, sl', S', x, hrun, hadd⟩⟩
    · rw [hrun]
      exact ⟨S, node, hwf, hplaced.kept hwf ⟨x, hx, hpos⟩⟩
    · omega
    · rw [hrun]
      exact ⟨S', _, hadd.wf, hplaced.added hwf hc.height hsz habs hrun hadd⟩

end StoneDb
