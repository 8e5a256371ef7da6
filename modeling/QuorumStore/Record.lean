import QuorumStore.Bytes
import QuorumStore.Names

/-!
# Records

A record has fields, and a field has a value with the score of the write that
put it there. Scores are 64-bit signed integers: readers of the wire refuse any
other, and the one place that computes a score refuses to go beyond the
greatest.
-/

namespace QuorumStore

/-- The least score. -/
def minScore : Int := -9223372036854775808

/-- The greatest score. -/
def maxScore : Int := 9223372036854775807

/-- A field's value with the score of its write. -/
structure FieldValue where
  /-- The field written. -/
  field : Field
  /-- The octets written; a deletion has none. -/
  value : Bytes
  /-- The logical time of the write. -/
  score : Int
  deriving DecidableEq, Repr, Inhabited

/-- What one node did with each field of a write, in the order asked. -/
structure ChangeSet where
  /-- The fields that were written. -/
  success : List Field
  /-- The fields whose stored record stood. -/
  failure : List Field
  deriving DecidableEq, Repr, Inhabited

namespace ChangeSet

/-- No field was asked for. -/
def empty : ChangeSet := ⟨[], []⟩

/-- Whether no field was asked for. -/
def isEmpty (c : ChangeSet) : Bool := c.success.isEmpty && c.failure.isEmpty

/-- The same outcomes with each list sorted and free of repeats. -/
def normalized (c : ChangeSet) : ChangeSet := ⟨sortedNames c.success, sortedNames c.failure⟩

/-- Whether two nodes report the same outcome for every field. -/
def agrees (c d : ChangeSet) : Bool := decide (c.normalized = d.normalized)

end ChangeSet

/-- What one node knows about one field. -/
structure Presence where
  /-- The node holds a live value. -/
  inserted : Bool
  /-- The node holds a value or remembers a deletion. -/
  present : Bool
  /-- The score of what it holds. -/
  score : Int
  deriving DecidableEq, Repr, Inhabited

/-- The presence of a field that a node has never seen. -/
def Presence.absent : Presence := ⟨false, false, -1⟩

end QuorumStore
