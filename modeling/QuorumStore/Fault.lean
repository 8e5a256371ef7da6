/-!
# Faults

A fault is what a node, the transport or the gossip between members reports in
place of an answer. An abort is a condition under which the program stops: a
size that must be positive is zero, or a score has no successor.
-/

namespace QuorumStore

/-- Why an answer is missing. Each cause carries its own detail. -/
inductive Fault where
  /-- The node says that it does not hold what was asked for. -/
  | notFound (what : String)
  /-- Talking to one node failed, or the node reports a failure. -/
  | node (detail : String)
  /-- Replicas disagree about the same write. -/
  | variance (detail : String)
  /-- The local store failed. -/
  | storage (detail : String)
  /-- A message could not be written or read. -/
  | serialization (detail : String)
  /-- The network failed. -/
  | network (detail : String)
  /-- A membership hint does not fit. -/
  | hint (detail : String)
  /-- A state or an argument is not allowed. -/
  | invalidState (detail : String)
  deriving DecidableEq, Repr, Inhabited

namespace Fault

/-- The text shown for a fault. -/
def message : Fault → String
  | notFound what => "Not found: " ++ what
  | node detail => "Node error: " ++ detail
  | variance detail => "Variance detected from replication: " ++ detail
  | storage detail => "Storage error: " ++ detail
  | serialization detail => "Serialization error: " ++ detail
  | network detail => "Network error: " ++ detail
  | hint detail => "Hint error: " ++ detail
  | invalidState detail => "Invalid state: " ++ detail

/-- Whether the fault is an explicit absence. -/
def isNotFound : Fault → Bool
  | notFound _ => true
  | _ => false

/-- The texts of several faults in one line. -/
def joined (faults : List Fault) : String := String.intercalate "; " (faults.map message)

end Fault

/-- A condition under which the program stops. -/
inductive Abort where
  /-- A ring has no positions per host. -/
  | noReplicationFactor
  /-- A hint has no bits, or a queue no places. -/
  | noCapacity
  /-- A hint has no positions per item. -/
  | noRecursions
  /-- A store has no buckets. -/
  | noBuckets
  /-- A repair queue has no workers. -/
  | noWorkers
  /-- The greatest score has no successor. -/
  | scoreOverflow
  /-- A server was started and could not be reached. -/
  | unreachableServer
  deriving DecidableEq, Repr, Inhabited

/-- The text shown for an abort. -/
def Abort.message : Abort → String
  | .noReplicationFactor => "replication_factor must be > 0"
  | .noCapacity => "capacity must be > 0"
  | .noRecursions => "recursions must be > 0"
  | .noBuckets => "buckets must be > 0"
  | .noWorkers => "workers must be > 0"
  | .scoreOverflow => "attempt to add with overflow"
  | .unreachableServer => "server never became ready"

end QuorumStore
