import StoneDb.SkipList.Keeping
import StoneDb.SkipList.Reachable
import Mathlib.Algebra.BigOperators.Group.Finset.Basic

/-!
# The memory of a list

`mem_size` counts the null offset, the head and the nodes on the level-0 chain, each rounded up to a
multiple of 8, and nothing else (`memSize_eq`): a call that finds its key or that panics takes
nothing, a call that inserts takes the block of its node (`spaceAt_after`).

No node takes more than its key, its value and 191 bytes, so a list of the capacity that `arena_cap`
computes has room for all its calls (`runPuts_of_room`).
-/

namespace StoneDb

/-- The bytes of a node: header, tower, key and value, rounded up to a multiple of 8. -/
def Node.space (n : Node) : ℕ := (32 + 8 * n.height + n.key.length + n.value.length + 7) / 8 * 8

/-- The bytes of the node at `o`. -/
def Arena.spaceAt (a : Arena) (o : ℕ) : ℕ := ((a.node o).map Node.space).getD 0

/-- `arena_cap`: a capacity for `n` entries of the given sizes. -/
def arenaCap (n keySize valueSize : ℕ) : ℕ := n * (keySize + valueSize + 256) + 2 ^ 20

variable {a : Arena} {key value : Bytes} {height o : ℕ}

theorem Node.space_init (hh : height < maxHeight) (hk : key.length < 2 ^ 32)
    (hv : value.length < 2 ^ 32) :
    (Node.init key value height).space = nodeBytes key value height := by
  rw [Node.space, Node.key_init value height hk, Node.value_init value height hk,
    storedValue_eq hv,
    Node.height_init key value hh, nodeBytes, kvDataOff, towerOff, slotSize]
  congr 2
  omega

theorem Arena.spaceAt_ne_zero : a.spaceAt o ≠ 0 ↔ a.Alive o := by
  rw [spaceAt, Alive]
  cases ha : a.node o with
  | none => simp
  | some n => simp [Node.space]; omega

theorem Arena.spaceAt_setNext (o l x : ℕ) : (a.setNext o l x).spaceAt = a.spaceAt := by
  funext o'
  rw [spaceAt, node_setNext, spaceAt, Option.map_map]
  congr 2
  funext n
  simp only [Function.comp]
  split_ifs <;> rfl

theorem Arena.spaceAt_setPrev (o x : ℕ) : (a.setPrev o x).spaceAt = a.spaceAt := by
  funext o'
  rw [spaceAt, node_setPrev, spaceAt, Option.map_map]
  congr 2
  funext n
  simp only [Function.comp]
  split_ifs <;> rfl

/-- Once a node is allocated, its space does not change. -/
theorem Arena.spaceAt_stable (f : ℕ → ℕ) : StoreStable fun a => a.spaceAt = f where
  setNext _ o l x h := (spaceAt_setNext o l x).trans h
  setPrev _ o x h := (spaceAt_setPrev o x).trans h

theorem Arena.spaceAt_push (hh : height < maxHeight)
    (hkv : key.length < 2 ^ 32 ∧ value.length < 2 ^ 32) :
    (a.push key value height).spaceAt =
      Function.update a.spaceAt a.len (nodeBytes key value height) := by
  funext o
  rw [spaceAt, push, node_write, Function.update_apply]
  split_ifs
  · rw [Option.map_some, Option.getD_some, Node.space_init hh hkv.1 hkv.2]
  · rfl

section

variable {cmp : KeyComparator} [Std.TransCmp cmp.compareKey] {sl sl' : SkipList}
  {S S' : ℕ → Finset ℕ} {m : OrderedMap cmp.compareKey Bytes} {capacity : ℕ} {mode : Bool}
  {r : Option (Bytes × Bytes)} {node : ℕ}

/-- A call that inserts allocates the node that it links, and no other. -/
theorem spaceAt_after (h : Wf cmp sl S) (hh : height < maxHeight)
    (hsz : Sized sl.arena.capacity key value)
    (hrun : SkipList.put key value height sl = .ok r sl')
    (hadd : PutAdded cmp sl S key value height sl' S' node) :
    sl'.arena.spaceAt = Function.update sl.arena.spaceAt node (nodeBytes key value height) := by
  have halive : sl'.arena.Alive node :=
    hadd.wf.alive (l := 0) (hadd.zero ▸ Finset.mem_insert_self _ _)
  rcases put_arena hrun with he | ⟨o, a, hnode, hkeep⟩
  · exact absurd (he ▸ halive) hadd.fresh
  rcases h.allocNode_cases hh hsz.keySized with ⟨-, hfull⟩ | ⟨hfit, hpush⟩
  · rw [hfull] at hnode
    cases hnode
  rw [hpush] at hnode
  cases hnode
  have hspace := Arena.spaceAt_push (a := sl.arena) hh (hsz.lt_of_fits hfit)
  have hspace' := hkeep _ (Arena.spaceAt_stable _) hspace
  -- the node that is new is the one at the old bump pointer
  have hlen : node = sl.arena.len := by
    by_contra hne
    have hne0 := Arena.spaceAt_ne_zero.2 halive
    rw [hspace', Function.update_of_ne hne, Arena.spaceAt_ne_zero] at hne0
    exact hadd.fresh hne0
  rw [hspace', hlen]

/-- The null offset and the head take 192 bytes, the linked nodes the rest. -/
def Accounted (sl : SkipList) (S : ℕ → Finset ℕ) : Prop :=
  sl.memSize = 192 + ∑ o ∈ S 0, sl.arena.spaceAt o

theorem Accounted.put (h : Wf cmp sl S) (hacc : Accounted sl S) (hh : height < maxHeight)
    (hsz : Sized sl.arena.capacity key value)
    (hrun : SkipList.put key value height sl = .ok r sl')
    (hadd : PutAdded cmp sl S key value height sl' S' node) : Accounted sl' S' := by
  have hfresh : node ∉ S 0 := fun hmem => hadd.fresh (h.alive hmem)
  have hsum : ∑ o ∈ S 0, sl'.arena.spaceAt o = ∑ o ∈ S 0, sl.arena.spaceAt o := by
    refine Finset.sum_congr rfl fun o ho => ?_
    have hne : o ≠ node := fun he => hfresh (he ▸ ho)
    rw [spaceAt_after h hh hsz hrun hadd, Function.update_of_ne hne]
  have hnode : sl'.arena.spaceAt node = nodeBytes key value height := by
    rw [spaceAt_after h hh hsz hrun hadd, Function.update_self]
  have hlen : sl'.memSize = sl.memSize + nodeBytes key value height := hadd.len
  rw [Accounted, hadd.zero, Finset.sum_insert hfresh, hsum, hnode, hlen, hacc]
  omega

theorem SkipList.Reachable.accounted {P : PutCall → Prop}
    (h : sl.Reachable cmp capacity mode P) (hP : ∀ c, P c → c.Storable capacity) :
    ∃ S, Wf cmp sl S ∧ Accounted sl S := by
  induction h with
  | new hnew =>
    obtain ⟨hwf, -, -, hlen, -⟩ := wf_withCapacity hnew
    exact ⟨_, hwf, by rw [Accounted, Finset.sum_empty]; exact hlen⟩
  | @put sl hsl c hc ih =>
    obtain ⟨S, hwf, hacc⟩ := ih
    obtain ⟨hcap, S', m, hm, -⟩ := hsl.refines hP
    obtain rfl := hwf.unique hm.wf
    have hst := hP c hc
    rw [← hcap] at hst
    rw [PutCall.after]
    rcases hm.put_cases hst.1 hst.2.keySized with
      ⟨p, -, hrun⟩ | ⟨-, ⟨-, hrun⟩ | ⟨sl', S', node, hrun, hadd⟩⟩
    · rw [hrun]
      exact ⟨S, hwf, hacc⟩
    · rw [hrun]
      exact ⟨S, hwf, hacc⟩
    · rw [hrun]
      exact ⟨S', hadd.wf, hacc.put hwf hst.1 hst.2 hrun hadd⟩

/-- The linked nodes are those of the chain. -/
theorem Wf.sum_chain (h : Wf cmp sl S) (f : ℕ → ℕ) :
    ∑ o ∈ S 0, f o = ((sl.chain 0).map f).sum := by
  have hset : (sl.chain 0).toFinset = S 0 := Finset.ext fun x => by
    rw [List.mem_toFinset, h.mem_chain_zero]
  rw [← hset, List.sum_toFinset _ (List.nodup_cons.1 (h.nodup_chain (by decide))).2]

/-- **`mem_size` is exact.** -/
theorem memSize_eq {P : PutCall → Prop} (h : sl.Reachable cmp capacity mode P)
    (hP : ∀ c, P c → c.Storable capacity) :
    sl.memSize = 192 + ((sl.chain 0).map sl.arena.spaceAt).sum := by
  obtain ⟨S, hwf, hacc⟩ := h.accounted hP
  rw [hacc, hwf.sum_chain]

/-! ### The sizing rule -/

/-- A new list, if the capacity has room for the head. -/
theorem withCapacity_of_room (cmp : KeyComparator) (mode : Bool) (hroom : 192 ≤ capacity)
    (hcap : capacity ≤ isizeMax - 7) :
    ∃ sl, SkipList.withCapacity cmp capacity mode = .ok sl := by
  have harena : Arena.withCapacity capacity = .ok ⟨none, capacity, fun _ => none⟩ :=
    if_neg (not_lt.2 hcap)
  rcases allocNode_head capacity with ⟨hfull, -⟩ | ⟨-, halloc⟩
  · exact absurd hfull (not_lt.2 hroom)
  · refine ⟨⟨0, 8, newArena capacity, cmp, mode⟩, ?_⟩
    simp only [SkipList.withCapacity, harena, bind, Except.bind, halloc]
    rfl

/-- The bytes of the nodes of all calls. -/
def callBytes (cs : List PutCall) : ℕ :=
  (cs.map fun c => nodeBytes c.key c.value c.height).sum

theorem callBytes_concat (cs : List PutCall) (c : PutCall) :
    callBytes (cs ++ [c]) = callBytes cs + nodeBytes c.key c.value c.height := by
  rw [callBytes, List.map_append, List.map_singleton, List.sum_append, List.sum_singleton,
    callBytes]

/-- The calls of a run: keys of at most `k` and values of at most `v` bytes. -/
def PutCall.Within (k v : ℕ) (c : PutCall) : Prop :=
  c.key.length ≤ k ∧ c.value.length ≤ v ∧ c.height < maxHeight

/-- A list with 191 bytes and the sizes of a key and a value for each call accepts them all. -/
theorem runPuts_of_room {k v : ℕ} {calls : List PutCall} (hcalls : ∀ c ∈ calls, c.Within k v)
    (h : Refines cmp sl S m) (hcap : sl.arena.capacity ≤ 2 ^ 32)
    (hroom : sl.arena.len + calls.length * (k + v + 191) ≤ sl.arena.capacity) :
    ∃ rs sl', runPuts calls sl = .ok rs sl' := by
  induction calls generalizing sl S m with
  | nil => exact ⟨[], sl, rfl⟩
  | cons c calls ih =>
    obtain ⟨⟨hk, hv, hh⟩, hcalls⟩ := List.forall_mem_cons.1 hcalls
    have hbytes := nodeBytes_le c.key c.value hh
    rw [List.length_cons, Nat.succ_mul] at hroom
    have hsz : Sized sl.arena.capacity c.key c.value :=
      sized_of_le hcap (by simp only [isizeMax]; omega)
    obtain ⟨sl₁, S₁, hput, h₁, hgrow, hlen⟩ := h.put_of_fits hh hsz (by omega)
    have hroom₁ : sl₁.arena.len + calls.length * (k + v + 191) ≤ sl₁.arena.capacity := by
      rw [hgrow.capacity]
      omega
    obtain ⟨rs, sl', hrun⟩ := ih hcalls h₁ (hgrow.capacity.trans_le hcap) hroom₁
    exact ⟨(m.insertIfAbsent c.key c.value).2 :: rs, sl', by rw [runPuts_cons hput, hrun]⟩

/-- **Memory accounting is exact, and the sizing rule is sufficient.**  After any calls, in either
mode, `mem_size` is 192 plus the bytes of the nodes on the level-0 chain; and a list of the capacity
that `arena_cap` computes accepts its calls. -/
theorem memory_accounting (cmp : KeyComparator) [Std.TransCmp cmp.compareKey] :
    (∀ (capacity : ℕ) (mode : Bool) (sl : SkipList), capacity ≤ 2 ^ 32 →
      sl.Reachable cmp capacity mode PutCall.Valid →
        sl.memSize = 192 + ((sl.chain 0).map sl.arena.spaceAt).sum) ∧
    ∀ (n k v : ℕ) (mode : Bool), arenaCap n k v ≤ 2 ^ 32 →
      ∃ sl, SkipList.withCapacity cmp (arenaCap n k v) mode = .ok sl ∧
        ∀ calls : List PutCall, calls.length ≤ n → (∀ c ∈ calls, c.Within k v) →
          ∃ rs sl', runPuts calls sl = .ok rs sl' := by
  refine ⟨fun capacity mode sl hcap hsl => memSize_eq hsl fun c hc => hc.storable hcap, ?_⟩
  intro n k v mode hcap
  have hroom : 192 + n * (k + v + 191) ≤ arenaCap n k v := by
    have hmul : n * (k + v + 191) ≤ n * (k + v + 256) := Nat.mul_le_mul_left n (by omega)
    simp only [arenaCap]
    omega
  obtain ⟨sl, hsl⟩ := withCapacity_of_room cmp mode (by omega)
    (hcap.trans (show 2 ^ 32 ≤ isizeMax - 7 by decide))
  obtain ⟨-, -, hcapacity, hlen, -⟩ := wf_withCapacity hsl
  refine ⟨sl, hsl, fun calls hn hcalls => ?_⟩
  refine runPuts_of_room hcalls (refines_withCapacity hsl) (hcapacity.trans_le hcap) ?_
  have hmul : calls.length * (k + v + 191) ≤ n * (k + v + 191) := Nat.mul_le_mul_right _ hn
  rw [hlen, hcapacity]
  omega

/-- A list for two entries of one byte each, filled with two calls and a duplicate. -/
theorem memory_accounting_pair : ∃ sl,
    SkipList.withCapacity bytewiseComparator (arenaCap 2 1 1) true = .ok sl ∧
      (∃ rs sl', runPuts [⟨[1], [2], 0⟩, ⟨[3], [4], 19⟩] sl = .ok rs sl') ∧
      let sl' := (PutCall.mk [3] [5] 7).after ((PutCall.mk [3] [4] 1).after sl)
      sl'.memSize = 192 + ((sl'.chain 0).map sl'.arena.spaceAt).sum := by
  obtain ⟨haccount, hsize⟩ := memory_accounting bytewiseComparator
  obtain ⟨sl, hsl, hfits⟩ := hsize 2 1 1 true (by decide)
  refine ⟨sl, hsl, hfits _ le_rfl fun c hc => ?_, ?_⟩
  · simp only [List.mem_cons, List.not_mem_nil, or_false] at hc
    rcases hc with rfl | rfl <;> exact ⟨by decide, by decide, by decide⟩
  · exact haccount _ _ _ (show arenaCap 2 1 1 ≤ 2 ^ 32 by decide)
      (.put (.put (.new hsl) _ (by decide)) _ (by decide))

end

end StoneDb
