import StoneDb.Lib.BigEndian
import StoneDb.Lib.Tiling
import Mathlib.Data.List.Range

/-!
# Byte memory

Memory as a function from addresses to bytes.  Byte strings are read and written at an address
(`load`, `store`), and numbers as `n` little-endian bytes (`loadLe`, `storeLe`).

A write changes the bytes it covers and no others (`store_of_notMem`), so a read sees the last write
to its own bytes (`load_store`, `loadLe_storeLe`) and is left alone by a write elsewhere
(`load_storeLe_of_disjoint`, `loadLe_store_of_disjoint`).
-/

namespace StoneDb

/-- The byte at each address. -/
abbrev ByteMemory := ℕ → UInt8

namespace ByteMemory

variable (mem mem' : ByteMemory) (o n x : ℕ) (bs : List UInt8)

/-- The `n` bytes at `o`. -/
def load : List UInt8 := (List.range n).map fun i => mem (o + i)

/-- Write `bs` at `o`. -/
def store : ByteMemory := fun a => if o ≤ a then (bs[a - o]?).getD (mem a) else mem a

/-- The number that the `n` bytes at `o` spell, the least significant first. -/
def loadLe : ℕ := ofBe (mem.load o n).reverse

/-- Write `x` as `n` bytes at `o`, the least significant first. -/
def storeLe : ByteMemory := mem.store o (beBytes n x).reverse

variable {mem mem' o n x bs}

@[simp] theorem length_load : (mem.load o n).length = n := by simp [load]

/-! ### Frames -/

theorem store_of_notMem {a : ℕ} (h : a ∉ span o bs.length) : mem.store o bs a = mem a := by
  unfold store
  split_ifs with ho
  · have hlen : bs.length ≤ a - o := by
      by_contra hlt
      exact h ⟨ho, by omega⟩
    rw [List.getElem?_eq_none hlen, Option.getD_none]
  · rfl

theorem storeLe_of_notMem {a : ℕ} (h : a ∉ span o n) : mem.storeLe o n x a = mem a :=
  store_of_notMem (by simpa using h)

/-- Memories that agree on the bytes of a read agree on its answer. -/
theorem load_congr (h : ∀ a ∈ span o n, mem' a = mem a) : mem'.load o n = mem.load o n := by
  refine List.map_congr_left fun i hi => h _ ⟨Nat.le_add_right _ _, ?_⟩
  have := List.mem_range.1 hi
  omega

theorem loadLe_congr (h : ∀ a ∈ span o n, mem' a = mem a) : mem'.loadLe o n = mem.loadLe o n := by
  rw [loadLe, load_congr h, loadLe]

theorem loadLe_store_of_disjoint {o' : ℕ} (h : Disjoint (span o n) (span o' bs.length)) :
    (mem.store o' bs).loadLe o n = mem.loadLe o n :=
  loadLe_congr fun _ ha => store_of_notMem (Set.disjoint_left.1 h ha)

theorem load_storeLe_of_disjoint {o' n' : ℕ} (h : Disjoint (span o n) (span o' n')) :
    (mem.storeLe o' n' x).load o n = mem.load o n :=
  load_congr fun _ ha => storeLe_of_notMem (Set.disjoint_left.1 h ha)

theorem loadLe_storeLe_of_disjoint {o' n' : ℕ} (h : Disjoint (span o n) (span o' n')) :
    (mem.storeLe o' n' x).loadLe o n = mem.loadLe o n :=
  loadLe_congr fun _ ha => storeLe_of_notMem (Set.disjoint_left.1 h ha)

/-- Two writes one behind the other are one. -/
theorem store_append {bs' : List UInt8} :
    (mem.store o bs).store (o + bs.length) bs' = mem.store o (bs ++ bs') := by
  funext a
  simp only [store]
  by_cases ho : o ≤ a
  · by_cases hlt : a - o < bs.length
    · have hlt' : ¬ o + bs.length ≤ a := by omega
      simp only [ho, hlt', if_true, if_false, List.getElem?_append_left hlt]
    · have hle : o + bs.length ≤ a := by omega
      rw [if_pos hle, if_pos ho, if_pos ho, List.getElem?_eq_none (not_lt.1 hlt), Option.getD_none,
        List.getElem?_append_right (not_lt.1 hlt), Nat.sub_add_eq]
  · have hlt : ¬ o + bs.length ≤ a := by omega
    rw [if_neg hlt, if_neg ho, if_neg ho]

/-! ### Reading back -/

/-- **A read sees what was written.** -/
theorem load_store : (mem.store o bs).load o bs.length = bs := by
  refine List.ext_getElem (by simp) fun i hi hi' => ?_
  simp [load, store, List.getElem?_eq_getElem hi']

theorem loadLe_storeLe_mod : (mem.storeLe o n x).loadLe o n = x % 256 ^ n := by
  have hload : (mem.store o (beBytes n x).reverse).load o (beBytes n x).reverse.length = _ :=
    load_store
  rw [List.length_reverse, length_beBytes] at hload
  rw [loadLe, storeLe, hload, List.reverse_reverse, ofBe_beBytes]

theorem loadLe_storeLe (h : x < 256 ^ n) : (mem.storeLe o n x).loadLe o n = x := by
  rw [loadLe_storeLe_mod, Nat.mod_eq_of_lt h]

/-! ### Parts of a read -/

theorem load_add (n' : ℕ) : mem.load o (n + n') = mem.load o n ++ mem.load (o + n) n' := by
  rw [load, List.range_add, List.map_append, List.map_map, load, load]
  congr 1
  refine List.map_congr_left fun i _ => ?_
  simp only [Function.comp, Nat.add_assoc]

theorem take_load {n' : ℕ} (h : n' ≤ n) : (mem.load o n).take n' = mem.load o n' := by
  obtain ⟨k, rfl⟩ := Nat.exists_eq_add_of_le h
  rw [load_add, List.take_left' length_load]

theorem drop_load {n' : ℕ} (h : n' ≤ n) :
    (mem.load o n).drop n' = mem.load (o + n') (n - n') := by
  obtain ⟨k, rfl⟩ := Nat.exists_eq_add_of_le h
  rw [load_add, List.drop_left' length_load, Nat.add_sub_cancel_left]

end ByteMemory

end StoneDb
