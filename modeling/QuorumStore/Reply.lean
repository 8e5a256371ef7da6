import QuorumStore.Fault
import QuorumStore.Record

/-!
# Calls and replies

Everything that can be asked of a node, and everything that a node can send
back. A call has one kind of reply that answers it; a reply of another kind is
a fault of the node.
-/

namespace QuorumStore

/-- A request to one node. -/
inductive Call where
  /-- Write values. -/
  | insert (key : Key) (members : List FieldValue)
  /-- Delete fields; the values given are ignored. -/
  | delete (key : Key) (members : List FieldValue)
  /-- Read one live field. -/
  | select (key : Key) (field : Field)
  /-- List the keys with a live field. -/
  | keys
  /-- Count the live fields of a key. -/
  | size (key : Key)
  /-- List the live fields of a key. -/
  | members (key : Key)
  /-- Ask what the node knows about one field. -/
  | score (key : Key) (field : Field)
  deriving DecidableEq, Repr, Inhabited

/-- The name of a call. -/
def Call.name : Call → String
  | .insert .. => "insert"
  | .delete .. => "delete"
  | .select .. => "select"
  | .keys => "keys"
  | .size .. => "size"
  | .members .. => "members"
  | .score .. => "score"

/-- One message from a node. -/
inductive Reply where
  /-- The node reports a fault. -/
  | fault (fault : Fault)
  /-- The outcome of a write. -/
  | changes (changes : ChangeSet)
  /-- A field that was read. -/
  | record (record : FieldValue)
  /-- A list of keys. -/
  | keys (keys : List Key)
  /-- A list of fields. -/
  | fields (fields : List Field)
  /-- A count. -/
  | count (count : Int)
  /-- What the node knows about a field. -/
  | presence (presence : Presence)
  deriving DecidableEq, Repr, Inhabited

namespace Reply

/-- The name of a reply's kind. -/
def kind : Reply → String
  | fault _ => "error"
  | changes _ => "change_set"
  | record _ => "field_value_score"
  | keys _ => "keys"
  | fields _ => "fields"
  | count _ => "int64"
  | presence _ => "presence"

/-- The outcome of a write, if this is one. -/
def changes? : Reply → Option ChangeSet
  | changes c => some c
  | _ => none

/-- The field read, if this is one. -/
def record? : Reply → Option FieldValue
  | record r => some r
  | _ => none

/-- The keys, if these are keys. -/
def keys? : Reply → Option (List Key)
  | keys k => some k
  | _ => none

/-- The fields, if these are fields. -/
def fields? : Reply → Option (List Field)
  | fields f => some f
  | _ => none

/-- The count, if this is one. -/
def count? : Reply → Option Int
  | count n => some n
  | _ => none

/-- The presence, if this is one. -/
def presence? : Reply → Option Presence
  | presence p => some p
  | _ => none

end Reply

end QuorumStore
