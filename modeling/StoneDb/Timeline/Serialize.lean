import Mathlib.Data.List.AList
import Mathlib.Tactic.Ring

/-!
# Timeline lines

`serialize_event` puts the metadata of a line (`ts`, `thread` and the number that `next_seq` draws)
into a map and merges the fields of the event into it.  A map holds one value for each key, so the
fields of the event win: what an event calls `seq` takes the place of the number that orders the
lines.

`replayable_iff` says when a run of lines is in order and complete all the same: no event brings a
`seq` that is not its number, and the counter does not wrap.

`serde_json` and `serde` are a parameter, `SerdeJson`: of its maps and values only what the two
crates document is assumed (`SerdeJson.Documented`).  The values of events and of the metadata are
flat; the text that `serde_json` prints for the object is left out.
-/

namespace StoneDb

/-- A JSON value other than an array or an object. -/
inductive Scalar where
  /-- `null`. -/
  | null
  /-- `true` and `false`. -/
  | bool (b : Bool)
  /-- A number. -/
  | number (n : ℕ)
  /-- A string. -/
  | string (s : String)
  deriving DecidableEq, Repr

/-- A field: its name and its value. -/
abbrev Field := Sigma fun _ : String => Scalar

/-- `serde_json::Value`, as far as events are made of it. -/
inductive Json (Map : Type) where
  /-- A value that is not an object. -/
  | scalar (v : Scalar)
  /-- An object. -/
  | object (map : Map)

/-! ### Events -/

/-- `TimelineEvent`. -/
inductive TimelineEvent where
  /-- `SkipListInsert`. -/
  | skipListInsert (key value : String) (level : UInt64) (result : String)
  /-- `SkipListGet`. -/
  | skipListGet (key : String) (found : Bool)
  /-- `SkipListContains`. -/
  | skipListContains (key : String) (found : Bool)
  /-- `SkipListLowerBound`. -/
  | skipListLowerBound (key : String) (found : Bool)
  /-- `MemTablePut`. -/
  | memTablePut (key value : String) (seq size : UInt64)
  /-- `MemTableDelete`. -/
  | memTableDelete (key : String) (seq size : UInt64)
  /-- `MemTableGet`. -/
  | memTableGet (key : String) (found : Bool) (seq : Option UInt64)
  /-- `MemTableContains`. -/
  | memTableContains (key : String) (found : Bool)

namespace TimelineEvent

/-- A `u64` or `usize` as JSON. -/
def ofU64 (n : UInt64) : Scalar := .number n.toNat

/-- An `Option<u64>` as JSON. -/
def ofOptionU64 : Option UInt64 → Scalar
  | some n => ofU64 n
  | none => .null

/-- The tag of the variant and its fields. -/
def fields : TimelineEvent → List Field
  | .skipListInsert key value level result =>
    [⟨"event", .string "skiplist_insert"⟩, ⟨"key", .string key⟩, ⟨"value", .string value⟩,
      ⟨"level", ofU64 level⟩, ⟨"result", .string result⟩]
  | .skipListGet key found =>
    [⟨"event", .string "skiplist_get"⟩, ⟨"key", .string key⟩, ⟨"found", .bool found⟩]
  | .skipListContains key found =>
    [⟨"event", .string "skiplist_contains"⟩, ⟨"key", .string key⟩, ⟨"found", .bool found⟩]
  | .skipListLowerBound key found =>
    [⟨"event", .string "skiplist_lower_bound"⟩, ⟨"key", .string key⟩, ⟨"found", .bool found⟩]
  | .memTablePut key value seq size =>
    [⟨"event", .string "memtable_put"⟩, ⟨"key", .string key⟩, ⟨"value", .string value⟩,
      ⟨"seq", ofU64 seq⟩, ⟨"size", ofU64 size⟩]
  | .memTableDelete key seq size =>
    [⟨"event", .string "memtable_delete"⟩, ⟨"key", .string key⟩, ⟨"seq", ofU64 seq⟩,
      ⟨"size", ofU64 size⟩]
  | .memTableGet key found seq =>
    [⟨"event", .string "memtable_get"⟩, ⟨"key", .string key⟩, ⟨"found", .bool found⟩,
      ⟨"seq", ofOptionU64 seq⟩]
  | .memTableContains key found =>
    [⟨"event", .string "memtable_contains"⟩, ⟨"key", .string key⟩, ⟨"found", .bool found⟩]

/-- No two fields of a variant have the same name. -/
theorem nodupKeys_fields (e : TimelineEvent) : e.fields.NodupKeys := by
  cases e <;> simp [fields, List.NodupKeys]

/-- What an event itself calls `seq`: `memtable_put`, `memtable_delete` and `memtable_get` do. -/
def seq : TimelineEvent → Option Scalar
  | .memTablePut _ _ seq _ => some (ofU64 seq)
  | .memTableDelete _ seq _ => some (ofU64 seq)
  | .memTableGet _ _ seq => some (ofOptionU64 seq)
  | _ => none

end TimelineEvent

/-! ### The crates -/

/-- `serde_json`, and the implementation of `Serialize` that `serde` derives for events, as far as
`serialize_event` calls them. -/
structure SerdeJson where
  /-- `Map`. -/
  Map : Type
  /-- `Map::new`. -/
  new : Map
  /-- `Map::insert`. -/
  insert : Map → String → Scalar → Map
  /-- `Map::extend`. -/
  extend : Map → Map → Map
  /-- `Map::get`. -/
  get : Map → String → Option Scalar
  /-- `to_value`. -/
  toValue : TimelineEvent → Json Map

namespace SerdeJson

/-- **What the crates document**: a map holds one value for each key, `insert` and `extend`
overwrite, and an internally tagged variant becomes an object of its tag and its fields. -/
structure Documented (serde : SerdeJson) : Prop where
  get_new : ∀ name, serde.get serde.new name = none
  get_insert : ∀ map key v name,
    serde.get (serde.insert map key v) name = if name = key then some v else serde.get map name
  get_extend : ∀ map entries name,
    serde.get (serde.extend map entries) name = (serde.get entries name).or (serde.get map name)
  toValue : ∀ e, ∃ map, serde.toValue e = .object map ∧
    ∀ name, serde.get map name = e.fields.dlookup name

variable (serde : SerdeJson)

/-- The value of a field of an object. -/
def field (obj : Json serde.Map) (name : String) : Option Scalar :=
  match obj with
  | .scalar _ => none
  | .object map => serde.get map name

/-- The object has all these fields. -/
def Carries (obj : Json serde.Map) (fields : List Field) : Prop :=
  ∀ p ∈ fields, serde.field obj p.1 = some p.2

end SerdeJson

/-- An association list, with one entry for each key. -/
abbrev JsonMap := AList fun _ : String => Scalar

theorem JsonMap.lookup_insert (map : JsonMap) (key : String) (v : Scalar) (name : String) :
    (AList.insert key v map).lookup name = if name = key then some v else map.lookup name := by
  split_ifs with hname
  · rw [hname, AList.lookup_insert]
  · exact AList.lookup_insert_ne hname

theorem JsonMap.lookup_union (map entries : JsonMap) (name : String) :
    (entries ∪ map).lookup name = (entries.lookup name).or (map.lookup name) := by
  by_cases hname : name ∈ entries
  · obtain ⟨v, hv⟩ := Option.isSome_iff_exists.1 (AList.lookup_isSome.2 hname)
    rw [AList.lookup_union_left hname, hv, Option.some_or]
  · rw [AList.lookup_union_right hname, AList.lookup_eq_none.2 hname, Option.none_or]

/-- The crates, with association lists for the maps. -/
def listSerde : SerdeJson where
  Map := JsonMap
  new := ∅
  insert map key v := AList.insert key v map
  extend map entries := entries ∪ map
  get map name := map.lookup name
  toValue e := .object ⟨e.fields, e.nodupKeys_fields⟩

theorem documented_listSerde : listSerde.Documented where
  get_new name := show (∅ : JsonMap).lookup name = none from AList.lookup_empty name
  get_insert := JsonMap.lookup_insert
  get_extend := JsonMap.lookup_union
  toValue _ := ⟨_, rfl, fun _ => rfl⟩

/-! ### Lines -/

/-- A call of `serialize_event`, with the time and the thread name that it reads. -/
structure LineCall where
  /-- `event`. -/
  event : TimelineEvent
  /-- What `now_micros` returns. -/
  now : UInt64
  /-- What `thread_name` returns. -/
  thread : String

/-- `next_seq`: `SEQ.fetch_add(1)`, which wraps. -/
def nextSeq : StateM UInt64 UInt64 := fun seq => (seq, seq + 1)

/-- The metadata of a line. -/
def LineCall.metadata (c : LineCall) (seq : UInt64) : List Field :=
  [⟨"ts", .number c.now.toNat⟩, ⟨"thread", .string c.thread⟩, ⟨"seq", .number seq.toNat⟩]

section

variable (serde : SerdeJson)

/-- `serialize_event`, up to the printing of the object. -/
def serializeEvent (c : LineCall) : StateM UInt64 (Json serde.Map) := do
  let map := serde.new
  let map := serde.insert map "ts" (.number c.now.toNat)
  let map := serde.insert map "thread" (.string c.thread)
  let map := serde.insert map "seq" (.number (← nextSeq).toNat)
  match serde.toValue c.event with
  | .object eventMap => return .object (serde.extend map eventMap)
  | .scalar _ => return .object map

/-- Calls of `serialize_event`, one after another. -/
def serializeEvents : List LineCall → StateM UInt64 (List (Json serde.Map))
  | [] => return []
  | c :: cs => do
    let line ← serializeEvent serde c
    let lines ← serializeEvents cs
    return line :: lines

/-- The line of a call that draws the number `seq`. -/
def line (c : LineCall) (seq : UInt64) : Json serde.Map := (serializeEvent serde c seq).1

end

/-! ### One line -/

variable {serde : SerdeJson} {c : LineCall} {start seq : UInt64} {calls : List LineCall} {i : ℕ}

theorem fields_seq (e : TimelineEvent) : e.fields.dlookup "seq" = e.seq := by
  cases e <;> rfl

/-- No event calls anything `ts` or `thread`. -/
theorem fields_ts (e : TimelineEvent) : e.fields.dlookup "ts" = none := by
  cases e <;> rfl

theorem fields_thread (e : TimelineEvent) : e.fields.dlookup "thread" = none := by
  cases e <;> rfl

section

variable (hserde : serde.Documented)

include hserde

/-- A line has all the fields of its event, and the metadata under the names that are left. -/
theorem line_get (c : LineCall) (seq : UInt64) (name : String) :
    serde.field (line serde c seq) name = (c.event.fields.dlookup name).or
      (if name = "seq" then some (.number seq.toNat) else
        if name = "thread" then some (.string c.thread) else
          if name = "ts" then some (.number c.now.toNat) else none) := by
  obtain ⟨eventMap, hevent, hfields⟩ := hserde.toValue c.event
  have hline : line serde c seq = .object (serde.extend (serde.insert (serde.insert (serde.insert
      serde.new "ts" (.number c.now.toNat)) "thread" (.string c.thread)) "seq" (.number seq.toNat))
      eventMap) := by
    simp only [line, serializeEvent, hevent]
    rfl
  rw [hline, SerdeJson.field, hserde.get_extend, hfields, hserde.get_insert, hserde.get_insert,
    hserde.get_insert, hserde.get_new]

theorem line_get_seq (c : LineCall) (seq : UInt64) :
    serde.field (line serde c seq) "seq" = some (c.event.seq.getD (.number seq.toNat)) := by
  rw [line_get hserde, fields_seq, if_pos rfl]
  cases c.event.seq <;> rfl

/-- The fields of the event are always there. -/
theorem line_carries_fields (c : LineCall) (seq : UInt64) :
    serde.Carries (line serde c seq) c.event.fields := by
  intro p hp
  have hlookup : c.event.fields.dlookup p.1 = some p.2 :=
    List.mem_dlookup c.event.nodupKeys_fields hp
  rw [line_get hserde, hlookup, Option.some_or]

/-- The metadata is there exactly if the event has no `seq` of another value. -/
theorem line_carries_metadata_iff : serde.Carries (line serde c seq) (c.metadata seq) ↔
    ∀ v, c.event.seq = some v → v = .number seq.toNat := by
  have hts : serde.field (line serde c seq) "ts" = some (.number c.now.toNat) := by
    rw [line_get hserde, fields_ts]
    rfl
  have hthread : serde.field (line serde c seq) "thread" = some (.string c.thread) := by
    rw [line_get hserde, fields_thread]
    rfl
  simp only [SerdeJson.Carries, LineCall.metadata, List.forall_mem_cons, hts, hthread,
    line_get_seq hserde, true_and, Option.some.injEq]
  cases hseq : c.event.seq <;> simp

end

/-! ### Runs -/

/-- The `seq` of one line is below that of the other. -/
def SerdeJson.SeqLt (serde : SerdeJson) (obj obj' : Json serde.Map) : Prop :=
  ∃ a b, serde.field obj "seq" = some (.number a) ∧ serde.field obj' "seq" = some (.number b) ∧
    a < b

/-- **Lines that can be replayed**: their `seq` strictly increases, and each has its metadata and
the fields of its event. -/
structure Replayable (serde : SerdeJson) (start : UInt64) (calls : List LineCall) : Prop where
  ordered : (serializeEvents serde calls start).1.Pairwise serde.SeqLt
  complete : ∀ (i : ℕ) (c : LineCall) (obj : Json serde.Map), calls[i]? = some c →
    (serializeEvents serde calls start).1[i]? = some obj →
    serde.Carries obj (c.metadata (start + .ofNat i)) ∧ serde.Carries obj c.event.fields

/-- Every call draws one number. -/
theorem serializeEvent_snd (serde : SerdeJson) (c : LineCall) (seq : UInt64) :
    (serializeEvent serde c seq).2 = seq + 1 := by
  simp only [serializeEvent]
  cases serde.toValue c.event <;> rfl

/-- The number of a line is the place of its call. -/
theorem serializeEvents_getElem? (serde : SerdeJson) (calls : List LineCall) (start : UInt64)
    (i : ℕ) : (serializeEvents serde calls start).1[i]? =
      calls[i]?.map fun c => line serde c (start + .ofNat i) := by
  induction calls generalizing start i with
  | nil => rfl
  | cons c calls ih =>
    have hrun : (serializeEvents serde (c :: calls) start).1 =
        line serde c start :: (serializeEvents serde calls (start + 1)).1 := by
      rw [← serializeEvent_snd serde c start]
      rfl
    rw [hrun]
    cases i with
    | zero => simp
    | succ i =>
      rw [List.getElem?_cons_succ, List.getElem?_cons_succ, ih]
      congr 2
      funext c
      rw [UInt64.ofNat_add, UInt64.add_assoc, UInt64.add_comm 1]
      rfl

theorem toNat_add_ofNat (start : UInt64) (i : ℕ) :
    (start + .ofNat i).toNat = (start.toNat + i) % 2 ^ 64 := by
  rw [UInt64.toNat_add, UInt64.toNat_ofNat', Nat.add_mod_mod]

/-- Each line has its metadata exactly if no event brings another `seq`. -/
theorem complete_iff (hserde : serde.Documented) :
    (∀ (i : ℕ) (c : LineCall) (obj : Json serde.Map), calls[i]? = some c →
      (serializeEvents serde calls start).1[i]? = some obj →
        serde.Carries obj (c.metadata (start + .ofNat i)) ∧ serde.Carries obj c.event.fields) ↔
    ∀ (i : ℕ) (c : LineCall), calls[i]? = some c →
      ∀ v, c.event.seq = some v → v = .number ((start.toNat + i) % 2 ^ 64) := by
  simp only [serializeEvents_getElem?, ← toNat_add_ofNat]
  constructor
  · intro hall i c hc
    exact (line_carries_metadata_iff hserde).1 (hall i c _ hc (by rw [hc]; rfl)).1
  · intro hall i c obj hc hobj
    rw [hc] at hobj
    cases hobj
    exact ⟨(line_carries_metadata_iff hserde).2 (hall i c hc), line_carries_fields hserde c _⟩

theorem pairwise_iff_getElem? {α : Type} {R : α → α → Prop} {l : List α} :
    l.Pairwise R ↔ ∀ i j : ℕ, i < j → ∀ x y, l[i]? = some x → l[j]? = some y → R x y := by
  rw [List.pairwise_iff_getElem]
  constructor
  · intro h i j hij x y hx hy
    obtain ⟨hi, rfl⟩ := List.getElem?_eq_some_iff.1 hx
    obtain ⟨hj, rfl⟩ := List.getElem?_eq_some_iff.1 hy
    exact h i j hi hj hij
  · intro h i j hi hj hij
    exact h i j hij _ _ (List.getElem?_eq_getElem hi) (List.getElem?_eq_getElem hj)

/-- As long as the event does not interfere, a line has its own number. -/
theorem line_own_seq (hserde : serde.Documented) {n : UInt64}
    (h : ∀ v, c.event.seq = some v → v = .number n.toNat) :
    serde.field (line serde c n) "seq" = some (.number n.toNat) := by
  rw [line_get_seq hserde]
  cases he : c.event.seq with
  | none => rfl
  | some v => rw [h v he]; rfl

theorem lt_of_call {i : ℕ} (hc : calls[i]? = some c) : i < calls.length :=
  (List.getElem?_eq_some_iff.1 hc).1

/-- Lines that have their own numbers are in order exactly if the counter does not wrap. -/
theorem ordered_iff (hserde : serde.Documented)
    (hown : ∀ (i : ℕ) (c : LineCall), calls[i]? = some c → ∀ v, c.event.seq = some v →
      v = .number ((start.toNat + i) % 2 ^ 64)) :
    (serializeEvents serde calls start).1.Pairwise serde.SeqLt ↔
      start.toNat + calls.length ≤ 2 ^ 64 := by
  have hstart := start.toNat_lt
  have hseq : ∀ {i c}, calls[i]? = some c → serde.field (line serde c (start + .ofNat i)) "seq" =
      some (.number ((start.toNat + i) % 2 ^ 64)) := by
    intro i c hc
    rw [← toNat_add_ofNat]
    refine line_own_seq hserde fun v hv => ?_
    rw [toNat_add_ofNat]
    exact hown i c hc v hv
  rw [pairwise_iff_getElem?]
  simp only [serializeEvents_getElem?, Option.map_eq_some_iff]
  constructor
  · intro hordered
    by_contra hlong
    -- the line with the greatest number is followed by one with the number 0
    obtain ⟨k, hk⟩ : ∃ k, start.toNat + k + 1 = 2 ^ 64 := ⟨2 ^ 64 - 1 - start.toNat, by omega⟩
    obtain ⟨c, hc⟩ : ∃ c, calls[k]? = some c := ⟨_, List.getElem?_eq_getElem (by omega)⟩
    obtain ⟨c', hc'⟩ : ∃ c', calls[k + 1]? = some c' :=
      ⟨_, List.getElem?_eq_getElem (by omega)⟩
    obtain ⟨a, b, ha, hb, hab⟩ := hordered k (k + 1) (Nat.lt_succ_self k) _ _ ⟨c, hc, rfl⟩
      ⟨c', hc', rfl⟩
    rw [hseq hc'] at hb
    have hb0 : b = (start.toNat + (k + 1)) % 2 ^ 64 := by
      simpa using hb.symm
    omega
  · rintro hwrap i j hij _ _ ⟨c, hc, rfl⟩ ⟨c', hc', rfl⟩
    have hi := lt_of_call hc
    have hj := lt_of_call hc'
    refine ⟨_, _, hseq hc, hseq hc', ?_⟩
    rw [Nat.mod_eq_of_lt (by omega), Nat.mod_eq_of_lt (by omega)]
    omega

/-- **When timeline lines keep their global order.**  The lines of a run are in order and complete
exactly if the counter does not wrap and no event brings a `seq` other than the number of its
line. -/
theorem replayable_iff (hserde : serde.Documented) (start : UInt64) (calls : List LineCall) :
    Replayable serde start calls ↔ start.toNat + calls.length ≤ 2 ^ 64 ∧
      ∀ (i : ℕ) (c : LineCall), calls[i]? = some c →
        ∀ v, c.event.seq = some v → v = .number (start.toNat + i) := by
  constructor
  · rintro ⟨hordered, hcomplete⟩
    rw [complete_iff hserde] at hcomplete
    have hwrap := (ordered_iff hserde hcomplete).1 hordered
    refine ⟨hwrap, fun i c hc v hv => ?_⟩
    have hi := lt_of_call hc
    rw [hcomplete i c hc v hv, Nat.mod_eq_of_lt (by omega)]
  · rintro ⟨hwrap, hall⟩
    have hown : ∀ (i : ℕ) (c : LineCall), calls[i]? = some c →
        ∀ v, c.event.seq = some v → v = .number ((start.toNat + i) % 2 ^ 64) := by
      intro i c hc v hv
      have hi := lt_of_call hc
      rw [hall i c hc v hv, Nat.mod_eq_of_lt (by omega)]
    exact ⟨(ordered_iff hserde hown).2 hwrap, (complete_iff hserde).2 hown⟩

/-- A `memtable_put` whose `seq` is the number of its line, and a lookup. -/
theorem replayable_iff_numbered : Replayable listSerde 42
    [⟨.memTablePut "a2V5" "djE=" 42 15, 7, "main"⟩, ⟨.skipListGet "a2V5" true, 8, "main"⟩] := by
  refine (replayable_iff documented_listSerde 42 _).2 ⟨by decide, fun i c hc v hv => ?_⟩
  match i with
  | 0 =>
    cases hc
    cases hv
    rfl
  | 1 =>
    cases hc
    cases hv
  | i + 2 => cases hc

/-- Two `memtable_put` events with the same `seq`: the lines have it in place of their numbers. -/
theorem replayable_clash : ∃ calls : List LineCall,
    calls = [⟨.memTablePut "a2V5" "djE=" 42 15, 7, "main"⟩,
      ⟨.memTablePut "a2V5" "djI=" 42 15, 8, "main"⟩] ∧
    (serializeEvents listSerde calls 0).1.map (listSerde.field · "seq") =
      [some (.number 42), some (.number 42)] ∧
    ¬ Replayable listSerde 0 calls := by
  refine ⟨_, rfl, rfl, fun hall => ?_⟩
  have hseq := ((replayable_iff documented_listSerde 0 _).1 hall).2 0 _ rfl _ rfl
  exact absurd hseq (by decide)

end StoneDb
