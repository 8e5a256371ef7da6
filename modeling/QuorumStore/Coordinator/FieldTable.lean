import Std.Data.TreeMap
import QuorumStore.Quorum
import QuorumStore.Record

/-!
# Reconciling what replicas hold

What one replica answers is a table from fields to scored values. A field
qualifies when enough tables hold it, measured against the number of replicas
asked and not the number that answered. The highest score wins, and of equal
scores the first met. A negative score means that there is no value.
-/

namespace QuorumStore

/-- A value with its score. -/
structure Scored where
  /-- The score. -/
  score : Int
  /-- The octets. -/
  value : Bytes
  deriving DecidableEq, Repr

/-- One replica's view: the best value of each field. -/
structure FieldTable where
  /-- The best values. -/
  rows : Std.TreeMap Field Scored

namespace FieldTable

/-- The table without fields. -/
def empty : FieldTable := ⟨∅⟩

/-- Record a value, unless its score is negative or no higher than that of the
value already there. -/
def insert (table : FieldTable) (member : FieldValue) : FieldTable :=
  if member.score < 0 then table
  else
    match table.rows[member.field]? with
    | some row =>
      if member.score ≤ row.score then table
      else ⟨table.rows.insert member.field ⟨member.score, member.value⟩⟩
    | none => ⟨table.rows.insert member.field ⟨member.score, member.value⟩⟩

/-- The table of a replica's answer. -/
def ofMembers (members : List FieldValue) : FieldTable := members.foldl insert empty

/-- The value of a field. -/
def get? (table : FieldTable) (field : Field) : Option FieldValue :=
  table.rows[field]?.map fun row => ⟨field, row.value, row.score⟩

/-- The score of a field. -/
def score? (table : FieldTable) (field : Field) : Option Int := table.rows[field]?.map (·.score)

/-- The number of fields. -/
def size (table : FieldTable) : Nat := table.rows.size

/-- Whether there are no fields. -/
def isEmpty (table : FieldTable) : Bool := table.rows.isEmpty

/-- The values in field order. -/
def members (table : FieldTable) : List FieldValue :=
  table.rows.toList.map fun (field, row) => ⟨field, row.value, row.score⟩

/-- How many tables hold a field, and the best value among them. -/
structure Tally where
  /-- The number of tables that hold the field. -/
  count : Nat
  /-- The value with the highest score, the first met of equals. -/
  best : Scored

/-- Count one more table that holds a field. -/
def Tally.add (tally : Option Tally) (row : Scored) : Tally :=
  match tally with
  | none => ⟨1, row⟩
  | some t => ⟨t.count + 1, if t.best.score < row.score then row else t.best⟩

/-- The fields of all tables with their tallies. -/
def tally (tables : List FieldTable) : Std.TreeMap Field Tally :=
  tables.foldl (fun tallies table =>
    table.rows.toList.foldl (fun tallies (field, row) =>
      tallies.insert field (.add tallies[field]? row)) tallies) ∅

/-- The best values of the fields whose tallies satisfy a condition. -/
def select (keep : Tally → Bool) (tables : List FieldTable) : FieldTable :=
  ⟨((tally tables).filter fun _ t => keep t).map fun _ t => t.best⟩

/-- What to serve: the fields that enough of the `expected` replicas hold. -/
def union (tables : List FieldTable) (quorum : Quorum) (expected : Nat) : FieldTable :=
  select (fun t => quorum.met expected t.count) tables

/-- What to repair: the fields to serve that some table lacks. -/
def difference (tables : List FieldTable) (quorum : Quorum) (expected : Nat) : FieldTable :=
  select (fun t => decide (t.count < tables.length) && quorum.met expected t.count) tables

end FieldTable

/-- The nodes whose score is below the winning one, sorted. A node named twice
counts with its last score. -/
def lagging (scores : List (UInt32 × Int)) (winner : Int) : List UInt32 :=
  ((Std.TreeMap.ofList scores).filter fun _ score => decide (score < winner)).keys

end QuorumStore
