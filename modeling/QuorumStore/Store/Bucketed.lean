import Std.Data.TreeMap
import QuorumStore.Hash.Murmur
import QuorumStore.Reply

/-!
# The bucketed store

A node keeps the last write of every field, live value or deletion, in buckets
that keys are spread over by their digest. The last write is the one with the
higher score, and at equal scores an insertion wins over a deletion. A deletion
is remembered, so that an older insertion cannot bring the field back.
-/

namespace QuorumStore

/-- The last write of a field. -/
structure Cell where
  /-- The octets written; none for a deletion. -/
  value : Bytes
  /-- The score of the write. -/
  score : Int
  /-- Whether the write was an insertion. -/
  live : Bool
  deriving DecidableEq, Repr

/-- The fields of one key. -/
abbrev Cells := Std.TreeMap Field Cell

namespace Cells

/-- Whether any field is live. -/
def anyLive (cells : Cells) : Bool := cells.toList.any fun (_, c) => c.live

/-- The live fields, sorted. -/
def liveFields (cells : Cells) : List Field :=
  cells.toList.filterMap fun (f, c) => if c.live then some f else none

end Cells

/-- Whether an insertion replaces what is stored. -/
def Cell.yieldsToInsert (stored : Option Cell) (score : Int) : Bool :=
  match stored with
  | none => true
  | some c => decide (c.score < score) || (decide (c.score = score) && !c.live)

/-- Whether a deletion replaces what is stored. -/
def Cell.yieldsToDelete (stored : Option Cell) (score : Int) : Bool :=
  match stored with
  | none => true
  | some c => decide (c.score < score)

/-- The two kinds of write. -/
inductive WriteKind where
  /-- Values are written. -/
  | insert
  /-- Fields are deleted. -/
  | delete
  deriving DecidableEq, Repr, Inhabited

namespace WriteKind

/-- The name of a kind of write. -/
def name : WriteKind → String
  | insert => "insert"
  | delete => "delete"

/-- The call that asks a node for a write. -/
def call (kind : WriteKind) (key : Key) (members : List FieldValue) : Call :=
  match kind with
  | insert => .insert key members
  | delete => .delete key members

/-- Whether a write replaces what is stored. -/
def wins (kind : WriteKind) (stored : Option Cell) (score : Int) : Bool :=
  match kind with
  | insert => Cell.yieldsToInsert stored score
  | delete => Cell.yieldsToDelete stored score

/-- What a write leaves behind where it wins. -/
def cell (kind : WriteKind) (member : FieldValue) : Cell :=
  match kind with
  | insert => ⟨member.value, member.score, true⟩
  | delete => ⟨[], member.score, false⟩

end WriteKind

/-- Apply the members of a write in order. A member succeeds where it wins over
what is stored by then. -/
def Cells.write (kind : WriteKind) : Cells → List FieldValue → Cells × ChangeSet
  | cells, [] => (cells, .empty)
  | cells, m :: rest =>
    if kind.wins cells[m.field]? m.score then
      let (cells, changes) := Cells.write kind (cells.insert m.field (kind.cell m)) rest
      (cells, { changes with success := m.field :: changes.success })
    else
      let (cells, changes) := Cells.write kind cells rest
      (cells, { changes with failure := m.field :: changes.failure })

/-- One bucket: the keys that fall into it. -/
abbrev Bucket := Std.TreeMap Key Cells

/-- A store of at least one bucket. -/
structure Store where
  /-- The buckets. -/
  buckets : Array Bucket
  /-- There is a bucket. -/
  size_pos : 0 < buckets.size

namespace Store

/-- The store without records. -/
def empty (buckets : Nat) (h : 0 < buckets) : Store := ⟨Array.replicate buckets ∅, by simpa⟩

/-- The store without records, if it has a bucket. -/
def new (buckets : Nat) : Except Abort Store :=
  if h : 0 < buckets then .ok (empty buckets h) else .error .noBuckets

/-- The number of the bucket that a key falls into. -/
def slot (store : Store) (key : Key) : Nat :=
  (Murmur.textDigest key).toNat % store.buckets.size

theorem slot_lt (store : Store) (key : Key) : store.slot key < store.buckets.size :=
  Nat.mod_lt _ store.size_pos

/-- The fields of a key, written or not. -/
def cells (store : Store) (key : Key) : Cells :=
  ((store.buckets[store.slot key]?.getD ∅)[key]?).getD ∅

/-- The last write of a field. -/
def cell? (store : Store) (key : Key) (field : Field) : Option Cell := (store.cells key)[field]?

/-- Write members under a key. -/
def write (store : Store) (kind : WriteKind) (key : Key) (members : List FieldValue) :
    Store × ChangeSet :=
  let (cells, changes) := (store.cells key).write kind members
  (⟨store.buckets.modify (store.slot key) (·.insert key cells), by simpa using store.size_pos⟩,
    changes)

/-- Insert values under a key. -/
def insert (store : Store) (key : Key) (members : List FieldValue) : Store × ChangeSet :=
  store.write .insert key members

/-- Delete fields under a key. -/
def delete (store : Store) (key : Key) (members : List FieldValue) : Store × ChangeSet :=
  store.write .delete key members

/-- The live value of a field. -/
def select (store : Store) (key : Key) (field : Field) : Except Fault FieldValue :=
  match store.cell? key field with
  | some c =>
    if c.live then .ok ⟨field, c.value, c.score⟩ else .error (.notFound (key ++ "/" ++ field))
  | none => .error (.notFound (key ++ "/" ++ field))

/-- The keys with a live field, sorted. -/
def keys (store : Store) : List Key :=
  sortedNames <| store.buckets.toList.flatMap fun bucket =>
    bucket.toList.filterMap fun (key, cells) => if Cells.anyLive cells then some key else none

/-- The live fields of a key, sorted. -/
def members (store : Store) (key : Key) : List Field := Cells.liveFields (store.cells key)

/-- The number of live fields of a key. -/
def size (store : Store) (key : Key) : Nat := (store.members key).length

/-- What the store knows about a field. -/
def score (store : Store) (key : Key) (field : Field) : Presence :=
  match store.cell? key field with
  | some c => ⟨c.live, true, c.score⟩
  | none => .absent

/-- Answer a call with its one reply. -/
def answer (store : Store) : Call → Reply × Store
  | .insert key members =>
    let (store, changes) := store.insert key members
    (.changes changes, store)
  | .delete key members =>
    let (store, changes) := store.delete key members
    (.changes changes, store)
  | .select key field =>
    match store.select key field with
    | .ok record => (.record record, store)
    | .error fault => (.fault fault, store)
  | .keys => (.keys store.keys, store)
  | .size key => (.count (Int.ofNat (store.size key)), store)
  | .members key => (.fields (store.members key), store)
  | .score key field => (.presence (store.score key field), store)

end Store

end QuorumStore
