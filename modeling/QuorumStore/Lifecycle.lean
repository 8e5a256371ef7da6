/-!
# The life of a member

A member starts, joins the cluster and serves. From anywhere it may begin to
shut down, once.
-/

namespace QuorumStore

/-- Where a member is in its life. -/
inductive Phase where
  /-- It loads its settings. -/
  | initializing
  /-- It makes itself known and builds its first ring. -/
  | joining
  /-- It serves. -/
  | ready
  /-- It shuts down. -/
  | shuttingDown
  deriving DecidableEq, Repr, Inhabited

namespace Phase

/-- The name of a phase. -/
def name : Phase → String
  | initializing => "Initializing"
  | joining => "Joining"
  | ready => "Ready"
  | shuttingDown => "ShuttingDown"

/-- The phase of a name. -/
def ofName? : String → Option Phase
  | "Initializing" => some initializing
  | "Joining" => some joining
  | "Ready" => some ready
  | "ShuttingDown" => some shuttingDown
  | _ => none

/-- Whether one phase may follow another. -/
def leadsTo : Phase → Phase → Bool
  | shuttingDown, shuttingDown => false
  | _, shuttingDown => true
  | initializing, joining => true
  | joining, ready => true
  | _, _ => false

/-- The text shown for a step that is not allowed. -/
def refusal (now next : Phase) : String :=
  "Invalid state transition: " ++ now.name ++ " -> " ++ next.name

/-- Go on to another phase, where that is allowed. -/
def advance (now next : Phase) : Except String Phase :=
  if now.leadsTo next then .ok next else .error (refusal now next)

end Phase

end QuorumStore
