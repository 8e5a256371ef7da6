import QuorumStore.Cluster.Fleet
import QuorumStore.Quorum

/-!
# Outcomes

What a caller is told about an operation on several replicas: the value when
every node did its part, the value with a warning when a quorum was met all the
same, an absence when every failure was one, and otherwise that the quorum was
not met.
-/

namespace QuorumStore

/-- What came of an operation on several replicas. -/
inductive Outcome (α : Type) where
  /-- The value, without any failure. -/
  | done (value : α)
  /-- The value, in spite of failures. -/
  | degraded (value : α) (total returned : Nat) (faults : List Fault)
  /-- Nobody holds what was asked for. -/
  | notFound
  /-- The quorum was not met. -/
  | unmet (total returned : Nat) (faults : List Fault)
  deriving DecidableEq, Repr

namespace Outcome

variable {α β : Type}

/-- Change the value. -/
def map (f : α → β) : Outcome α → Outcome β
  | done value => done (f value)
  | degraded value total returned faults => degraded (f value) total returned faults
  | notFound => notFound
  | unmet total returned faults => unmet total returned faults

/-- The value, degraded or not. -/
def value? : Outcome α → Option α
  | done value => some value
  | degraded value .. => some value
  | notFound => none
  | unmet .. => none

/-- The text of the failures behind an unmet quorum. -/
def unmetDetail (faults : List Fault) : String :=
  if faults.isEmpty then "no replies" else Fault.joined faults

/-- The text shown for anything but a value without failure. -/
def message? : Outcome α → Option String
  | done _ => none
  | degraded _ total returned faults =>
    some (s!"Partial success ({returned}/{total}): " ++ Fault.joined faults)
  | notFound => some "Not found"
  | unmet total returned faults =>
    some (s!"Quorum not met ({returned}/{total}): " ++ unmetDetail faults)

/-- The outcome without a quorum: an absence if there were failures and each of
them was one. -/
def short (total returned : Nat) (faults : List Fault) : Outcome α :=
  if !faults.isEmpty && faults.all Fault.isNotFound then notFound
  else unmet total returned faults

/-- The outcome of an operation that needs a quorum of answers. -/
def settle (quorum : Quorum) (total returned : Nat) (faults : List Fault) (value : α) : Outcome α :=
  if quorum.met total returned then
    if faults.isEmpty then done value else degraded value total returned faults
  else short total returned faults

end Outcome

/-- Replies sorted into the answers wanted, marked by node, and the failures. -/
structure Gathered (α : Type) where
  /-- The answers in order of arrival. -/
  values : List (UInt32 × α)
  /-- The failures in order of arrival. -/
  faults : List Fault

/-- The failure of a node that answers the wrong kind. -/
def Reply.unexpected (reply : Reply) (op : String) (node : UInt32) : Fault :=
  .node ("unexpected " ++ reply.kind ++ " reply to " ++ op ++ " from node " ++ toString node)

/-- Sort replies to the named operation. A reply of the wrong kind is a failure. -/
def Gathered.ofReplies {α : Type} (want : Reply → Option α) (op : String) :
    List Tagged → Gathered α
  | [] => ⟨[], []⟩
  | (node, reply) :: rest =>
    let others := ofReplies want op rest
    match want reply, reply with
    | some value, _ => ⟨(node, value) :: others.values, others.faults⟩
    | none, .fault fault => ⟨others.values, fault :: others.faults⟩
    | none, reply => ⟨others.values, reply.unexpected op node :: others.faults⟩

end QuorumStore
