import QuorumStore.Quorum
import QuorumStore.Record

/-!
# Diagnoses

A diagnosis is what the replicas' snapshots say about one suspected field: which
state wins, at which score, and whether enough replicas know the field at all.
The winner has the highest score among the replicas that know the field, and an
insertion wins over a deletion of the same score.
-/

namespace QuorumStore

/-- A field suspected of differing between replicas. -/
structure Suspect where
  /-- The key of the field. -/
  key : Key
  /-- The field. -/
  field : Field
  /-- The value last seen, for information only. -/
  value : Bytes
  deriving DecidableEq, Repr, Inhabited

/-- What to do about a suspected field. -/
structure Diagnosis where
  /-- The key of the field. -/
  key : Key
  /-- The field. -/
  field : Field
  /-- The value last seen. -/
  value : Bytes
  /-- No replica that answered knows the field. -/
  ignore : Bool
  /-- The winning state is a live value. -/
  insert : Bool
  /-- The winning score. -/
  score : Int
  /-- Enough of the replicas asked know the field. -/
  quorum : Bool
  deriving DecidableEq, Repr

/-- The greatest of a list of scores. -/
def topScore? : List Int → Option Int
  | [] => none
  | s :: rest => some (rest.foldl max s)

/-- The diagnosis for an item from the snapshots that came back, out of the number
of replicas asked. -/
def Diagnosis.ofPresences (item : Suspect) (asked : Nat) (replies : List Presence) : Diagnosis :=
  let known := replies.filter (·.present)
  match topScore? (known.map (·.score)) with
  | none => ⟨item.key, item.field, item.value, true, false, -1, false⟩
  | some score =>
    ⟨item.key, item.field, item.value, false,
      known.any fun p => decide (p.score = score) && p.inserted, score,
      Quorum.consensus.met asked known.length⟩

/-- Whether the winning value has to be had before the field is repaired. -/
def Diagnosis.needsValue (diagnosis : Diagnosis) : Bool :=
  !diagnosis.ignore && diagnosis.quorum && diagnosis.insert

/-- Whether a snapshot shows the winning state. -/
def Diagnosis.isWinner (diagnosis : Diagnosis) (p : Presence) : Bool :=
  p.present && decide (p.score = diagnosis.score) && p.inserted == diagnosis.insert

end QuorumStore
