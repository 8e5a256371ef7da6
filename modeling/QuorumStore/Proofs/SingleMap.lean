import Std.Data.HashMap
import Mathlib.Data.List.Nodup
import QuorumStore.Proofs.Convergence

/-!
# The store as a single map

Keys are spread over buckets, and a key has fields of its own; a write that stores
nothing still leaves its key in a bucket, and a deletion is remembered but not
shown. None of this can be told from the replies: whatever calls it takes, a store
of any number of buckets replies as one map from keys and fields to records would
that keeps the write of the highest rank.
-/

namespace QuorumStore

/-- Sorting names that do not repeat loses none. -/
theorem sortedNames_perm {names : List String} (h : names.Nodup) :
    (sortedNames names).Perm names :=
  (List.perm_ext_iff_of_nodup (nodup_of_rising (sortedNames_pairwise names)) h).2
    fun _ => mem_sortedNames

/-- Every record that was kept, under its key and field. -/
abbrev Records := Std.HashMap (Key × Field) Cell

/-- Whether a write stands above what is stored. -/
def Cell.isAbove (c : Cell) (stored : Option Cell) : Bool :=
  stored.all fun d => decide (d.rank < c.rank)

namespace Records

/-- Take the writes of a key one by one. Each is kept if it stands above what the
map has by then. -/
def write (kind : WriteKind) (key : Key) : Records → List FieldValue → Records × ChangeSet
  | records, [] => (records, .empty)
  | records, m :: rest =>
    if (m.written kind).isAbove records[(key, m.field)]? then
      let (records, changes) := write kind key (records.insert (key, m.field) (m.written kind)) rest
      (records, { changes with success := m.field :: changes.success })
    else
      let (records, changes) := write kind key records rest
      (records, { changes with failure := m.field :: changes.failure })

/-- The keys and fields of the live records. -/
def live (records : Records) : List (Key × Field) :=
  (records.toList.filter fun entry => entry.2.live).map Prod.fst

/-- The live fields of a key, in no order. -/
def liveFields (records : Records) (key : Key) : List Field :=
  (records.live.filter fun place => place.1 = key).map Prod.snd

/-- What the map has for a field that is live. -/
def select (records : Records) (key : Key) (field : Field) : Except Fault FieldValue :=
  match records[(key, field)]?.filter Cell.live with
  | some c => .ok ⟨field, c.value, c.score⟩
  | none => .error (.notFound (key ++ "/" ++ field))

/-- What the map knows about a field. -/
def score (records : Records) (key : Key) (field : Field) : Presence :=
  (records[(key, field)]?.map fun c => ⟨c.live, true, c.score⟩).getD .absent

/-- The reply to a call, and the map after it. -/
def answer (records : Records) : Call → Reply × Records
  | .insert key members =>
    let (records, changes) := records.write .insert key members
    (.changes changes, records)
  | .delete key members =>
    let (records, changes) := records.write .delete key members
    (.changes changes, records)
  | .select key field =>
    match records.select key field with
    | .ok record => (.record record, records)
    | .error fault => (.fault fault, records)
  | .keys => (.keys (sortedNames (records.live.map Prod.fst)), records)
  | .size key => (.count (records.liveFields key).length, records)
  | .members key => (.fields (sortedNames (records.liveFields key)), records)
  | .score key field => (.presence (records.score key field), records)

end Records

/-- The replies to calls taken one after the other, and the state after them. -/
def Call.serve {State : Type} (answer : State → Call → Reply × State) :
    State → List Call → List Reply × State
  | state, [] => ([], state)
  | state, call :: rest =>
    let (reply, state) := answer state call
    let (replies, state) := serve answer state rest
    (reply :: replies, state)

namespace Store

/-- The keys with a live field, as the buckets give them one after the other. -/
def gathered (store : Store) : List Key :=
  store.buckets.toList.flatMap fun bucket =>
    bucket.toList.filterMap fun (key, cells) => if Cells.anyLive cells then some key else none

/-- The keys that are shown are those that the buckets give. -/
theorem keys_eq (store : Store) : store.keys = sortedNames store.gathered := rfl

/-- The lists, counts and snapshots of a store say the same of every field. -/
structure Consistent (store : Store) : Prop where
  /-- The keys rise. -/
  keys_rise : store.keys.Pairwise (compare · · = .lt)
  /-- The buckets give no key twice, so none is lost in sorting. -/
  keys_perm : store.keys.Perm store.gathered
  /-- The fields of a key rise. -/
  members_rise : ∀ key, (store.members key).Pairwise (compare · · = .lt)
  /-- The fields of a key are counted. -/
  size_eq : ∀ key, store.size key = (store.members key).length
  /-- The count is that of the live records. -/
  count_eq : ∀ key, store.size key = (store.cells key).toList.countP fun entry => entry.2.live
  /-- A key is shown if it has a field to show. -/
  mem_keys : ∀ key, key ∈ store.keys ↔ store.members key ≠ []
  /-- A field is shown if it can be read. -/
  mem_select : ∀ key field, field ∈ store.members key ↔
    ∃ record, store.select key field = .ok record
  /-- A field is shown if its snapshot is live. -/
  mem_score : ∀ key field, field ∈ store.members key ↔
    (store.score key field).inserted = true

/-- A store keeps the records of a map, each key in its bucket. -/
structure Refines (store : Store) (records : Records) : Prop where
  /-- A field has the record that the map has for it. -/
  cell : ∀ key field, store.cell? key field = records[(key, field)]?
  /-- Every key is in the bucket of its digest. -/
  placed : store.Placed

end Store

/-! ## Writes -/

/-- The tests for the two kinds of write are one test of ranks. -/
theorem WriteKind.wins_eq (kind : WriteKind) (stored : Option Cell) (m : FieldValue) :
    kind.wins stored m.score = (m.written kind).isAbove stored := by
  rw [Bool.eq_iff_iff, kind.wins_iff, kind.cell_eq]
  cases stored <;> simp [Cell.isAbove]

namespace Records

variable {kind : WriteKind} {key : Key} {cells : Cells} {records : Records}

/-- The members of a write fare the same in the fields of a key as in a map that has
these fields. -/
theorem write_of_cells (kind : WriteKind)
    (h : ∀ field : Field, cells[field]? = records[(key, field)]?)
    (members : List FieldValue) :
    (cells.write kind members).2 = (records.write kind key members).2 ∧
      ∀ field : Field, (cells.write kind members).1[field]?
        = (records.write kind key members).1[(key, field)]? := by
  induction members generalizing cells records with
  | nil => exact ⟨rfl, h⟩
  | cons m rest ih =>
    have htest : kind.wins cells[m.field]? m.score
        = (m.written kind).isAbove records[(key, m.field)]? := by
      rw [WriteKind.wins_eq, h]
    cases habove : (m.written kind).isAbove records[(key, m.field)]? with
    | true =>
      have hinsert : ∀ field : Field, (cells.insert m.field (m.written kind))[field]?
          = (records.insert (key, m.field) (m.written kind))[(key, field)]? := by
        intro field
        simp [Std.TreeMap.getElem?_insert, Std.HashMap.getElem?_insert, h]
      obtain ⟨hchanges, hcells⟩ := ih hinsert
      simp only [Cells.write, write, htest, habove, if_true, WriteKind.cell_eq, hchanges]
      exact ⟨trivial, hcells⟩
    | false =>
      obtain ⟨hchanges, hcells⟩ := ih h
      simp only [Cells.write, write, htest, habove, Bool.false_eq_true, if_false, hchanges]
      exact ⟨trivial, hcells⟩

/-- A write leaves the fields of every other key alone. -/
theorem write_other {other : Key} (hne : other ≠ key) (members : List FieldValue)
    (field : Field) :
    (records.write kind key members).1[(other, field)]? = records[(other, field)]? := by
  induction members generalizing records with
  | nil => rfl
  | cons m rest ih =>
    simp only [write]
    split
    · simp [ih, Std.HashMap.getElem?_insert, Ne.symm hne]
    · exact ih

/-! ## Reads -/

theorem mem_live {place : Key × Field} :
    place ∈ records.live ↔ ∃ c, records[place]? = some c ∧ c.live = true := by
  simp [live, Std.HashMap.mem_toList_iff_getElem?_eq_some]

theorem mem_liveFields {field : Field} :
    field ∈ records.liveFields key ↔
      ∃ c, records[(key, field)]? = some c ∧ c.live = true := by
  simp [liveFields, mem_live]

/-- A map has one record for a key and field. -/
theorem nodup_liveFields (records : Records) (key : Key) : (records.liveFields key).Nodup := by
  have hplaces : (records.toList.map Prod.fst).Nodup := by
    rw [Std.HashMap.map_fst_toList_eq_keys]
    exact Std.HashMap.nodup_keys
  have hlive : records.live.Nodup := hplaces.sublist (List.filter_sublist.map _)
  refine List.Nodup.map_on ?_ (hlive.filter _)
  intro place hplace other hother hfield
  rw [List.mem_filter, decide_eq_true_eq] at hplace hother
  exact Prod.ext (hplace.2.trans hother.2.symm) hfield

end Records

namespace Store

variable {store : Store} {records : Records}

namespace Refines

/-- Both have the same live fields. -/
theorem mem_members (h : Refines store records) {key : Key} {field : Field} :
    field ∈ store.members key ↔ field ∈ records.liveFields key := by
  rw [Store.mem_members, Records.mem_liveFields, h.cell]

theorem members_eq (h : Refines store records) (key : Key) :
    store.members key = sortedNames (records.liveFields key) :=
  eq_of_pairwise_of_mem_iff (members_pairwise store key) (sortedNames_pairwise _) fun _ =>
    h.mem_members.trans mem_sortedNames.symm

theorem size_eq (h : Refines store records) (key : Key) :
    store.size key = (records.liveFields key).length :=
  ((List.perm_ext_iff_of_nodup (nodup_of_rising (members_pairwise store key))
    (records.nodup_liveFields key)).2 fun _ => h.mem_members).length_eq

theorem keys_eq (h : Refines store records) :
    store.keys = sortedNames (records.live.map Prod.fst) := by
  refine eq_of_pairwise_of_mem_iff (sortedNames_pairwise _) (sortedNames_pairwise _) fun key => ?_
  refine h.placed.mem_keys.trans ?_
  simp [mem_sortedNames, Records.mem_live, h.cell]

theorem select_eq (h : Refines store records) (key : Key) (field : Field) :
    store.select key field = records.select key field := by
  rw [select, Records.select, h.cell]
  cases records[(key, field)]? with
  | none => rfl
  | some c => cases hlive : c.live <;> simp [Option.filter, hlive]

theorem score_eq (h : Refines store records) (key : Key) (field : Field) :
    store.score key field = records.score key field := by
  rw [score, Records.score, h.cell]
  cases records[(key, field)]? <;> rfl

/-- A write has the same outcome for both, and leaves them alike. -/
theorem write (h : Refines store records) (kind : WriteKind) (key : Key)
    (members : List FieldValue) :
    (store.write kind key members).2 = (records.write kind key members).2 ∧
      Refines (store.write kind key members).1 (records.write kind key members).1 := by
  obtain ⟨hchanges, hcells⟩ := Records.write_of_cells kind (h.cell key) members
  refine ⟨hchanges, fun other field => ?_, h.placed.apply ⟨kind, key, members⟩⟩
  by_cases hkey : other = key
  · subst hkey
    rw [cell?, cells_write_self, hcells]
  · rw [cell?, cells_write_other _ _ _ hkey, Records.write_other hkey]
    exact h.cell other field

/-- A call has the same reply from both, and leaves them alike. -/
theorem answer (h : Refines store records) (call : Call) :
    (store.answer call).1 = (records.answer call).1 ∧
      Refines (store.answer call).2 (records.answer call).2 := by
  cases call with
  | insert key members =>
    obtain ⟨hchanges, hafter⟩ := h.write .insert key members
    exact ⟨congrArg Reply.changes hchanges, hafter⟩
  | delete key members =>
    obtain ⟨hchanges, hafter⟩ := h.write .delete key members
    exact ⟨congrArg Reply.changes hchanges, hafter⟩
  | select key field =>
    simp only [Store.answer, Records.answer, h.select_eq]
    cases records.select key field <;> exact ⟨rfl, h⟩
  | keys => exact ⟨congrArg Reply.keys h.keys_eq, h⟩
  | size key => exact ⟨congrArg (fun n : Nat => Reply.count n) (h.size_eq key), h⟩
  | members key => exact ⟨congrArg Reply.fields (h.members_eq key), h⟩
  | score key field => exact ⟨congrArg Reply.presence (h.score_eq key field), h⟩

/-- Calls have the same replies from both, and leave them alike. -/
theorem serve (h : Refines store records) (calls : List Call) :
    (Call.serve Store.answer store calls).1 = (Call.serve Records.answer records calls).1 ∧
      Refines (Call.serve Store.answer store calls).2
        (Call.serve Records.answer records calls).2 := by
  induction calls generalizing store records with
  | nil => exact ⟨rfl, h⟩
  | cons call rest ih =>
    obtain ⟨hreply, hafter⟩ := h.answer call
    obtain ⟨hreplies, hlast⟩ := ih hafter
    exact ⟨congrArg₂ List.cons hreply hreplies, hlast⟩

end Refines

theorem refines_empty (buckets : Nat) (h : 0 < buckets) : Refines (empty buckets h) ∅ := by
  refine ⟨fun key field => ?_, placed_empty buckets h⟩
  rw [cell?, cells_empty]
  simp

/-! ## The queries agree -/

/-- A bucket gives a key with a live field once. -/
theorem nodup_liveKeys (bucket : Bucket) :
    (bucket.toList.filterMap fun (key, cells) =>
      if Cells.anyLive cells then some key else none).Nodup := by
  refine nodup_of_rising (List.pairwise_filterMap.2 ?_)
  refine Std.TreeMap.ordered_keys_toList.imp ?_
  rintro ⟨k, cells⟩ ⟨l, others⟩ hlt x hx y hy
  obtain ⟨-, hk⟩ := Option.ite_none_right_eq_some.1 hx
  obtain ⟨-, hl⟩ := Option.ite_none_right_eq_some.1 hy
  rw [← Option.some.inj hk, ← Option.some.inj hl]
  exact hlt

/-- Where every key is in its bucket, no two buckets give the same key. -/
theorem Placed.nodup_gathered (h : store.Placed) : store.gathered.Nodup := by
  refine List.nodup_flatMap.2 ⟨fun bucket _ => nodup_liveKeys bucket, ?_⟩
  have hslot : ∀ i (hi : i < store.buckets.toList.length) key,
      (key ∈ store.buckets.toList[i].toList.filterMap fun (key, cells) =>
        if Cells.anyLive cells then some key else none) → i = store.slot key := by
    intro i hi key hkey
    obtain ⟨⟨k, cells⟩, hmem, hsome⟩ := List.mem_filterMap.1 hkey
    obtain ⟨-, hk⟩ := Option.ite_none_right_eq_some.1 hsome
    obtain rfl := Option.some.inj hk
    refine h i _ k cells ?_ (Std.TreeMap.mem_toList_iff_getElem?_eq_some.1 hmem)
    simp
  refine List.pairwise_iff_getElem.2 fun i j hi hj hlt key hleft hright => ?_
  exact hlt.ne ((hslot i hi key hleft).trans (hslot j hj key hright).symm)

/-- Where every key is in its bucket, the queries agree. -/
theorem Placed.consistent (h : store.Placed) : Consistent store where
  keys_rise := sortedNames_pairwise _
  keys_perm := sortedNames_perm h.nodup_gathered
  members_rise := members_pairwise store
  size_eq := fun _ => rfl
  count_eq := fun key => by
    rw [size, members, Cells.liveFields, List.length_filterMap_eq_countP]
    refine List.countP_congr fun entry _ => ?_
    cases hlive : entry.2.live <;> simp [hlive]
  mem_keys := fun key => by
    rw [h.mem_keys, ne_eq, List.eq_nil_iff_forall_not_mem, not_forall_not]
    exact exists_congr fun field => mem_members.symm
  mem_select := fun key field => by
    rw [Store.mem_members, select]
    cases store.cell? key field with
    | none => simp
    | some c => cases hlive : c.live <;> simp [hlive]
  mem_score := fun key field => by
    rw [Store.mem_members, score]
    cases store.cell? key field with
    | none => simp [Presence.absent]
    | some c => simp

/-- A store of any number of buckets replies to all calls as a single map from keys
and fields to records does, and its queries agree after any of them. -/
theorem refines_single_map {buckets : Nat} (h : 0 < buckets) (calls : List Call) :
    new buckets = .ok (empty buckets h) ∧
      (Call.serve answer (empty buckets h) calls).1
        = (Call.serve Records.answer ∅ calls).1 ∧
      Consistent (Call.serve answer (empty buckets h) calls).2 := by
  obtain ⟨hreplies, hlast⟩ := (refines_empty buckets h).serve calls
  exact ⟨dif_pos h, hreplies, hlast.placed.consistent⟩

/-- A field is deleted, a late insertion fails, and a write of no members leaves its
key unseen. -/
theorem refines_single_map_deleted :
    0 < 2 ∧ (Call.serve Records.answer ∅
      [.insert "k" [⟨"f", [1], 5⟩, ⟨"g", [2], -3⟩], .delete "k" [⟨"f", [9], 6⟩],
        .insert "k" [⟨"f", [3], 6⟩, ⟨"f", [4], 5⟩], .delete "k" [⟨"f", [], 7⟩], .insert "j" [],
        .select "k" "f", .select "k" "g", .keys, .size "k", .members "k", .score "k" "f",
        .score "j" "f"]).1
      = [.changes ⟨["f", "g"], []⟩, .changes ⟨["f"], []⟩, .changes ⟨["f"], ["f"]⟩,
        .changes ⟨["f"], []⟩, .changes ⟨[], []⟩, .fault (.notFound "k/f"),
        .record ⟨"g", [2], -3⟩, .keys ["k"], .count 1, .fields ["g"],
        .presence ⟨false, true, 7⟩, .presence .absent] :=
  ⟨by decide, (refines_single_map Nat.two_pos _).2.1.symm.trans
    (by decide +kernel)⟩

end Store

end QuorumStore
