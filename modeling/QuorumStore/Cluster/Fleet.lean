import QuorumStore.Hash.Murmur
import QuorumStore.Reply

/-!
# Fleets

A fleet is how callers see the replicas. Asked a call, a host sends back any
number of replies and closes; the replicas are a state that answering may
change. The replies of a scattered call arrive in some order, which the fleet
decides, each marked with the digest of the host that sent it. A host answers as
soon as it is asked, but its replies take some time to arrive. Nothing is assumed
of a fleet: a host may say nothing, say too much, or answer the wrong kind.
-/

namespace QuorumStore

/-- A reply marked with the digest of its host. -/
abbrev Tagged := UInt32 × Reply

/-- Replicas as their callers see them. -/
structure Fleet (σ : Type) where
  /-- What a host sends back to a call before it closes. -/
  answer : Host → Call → σ → List Reply × σ
  /-- The order in which the replies of several hosts arrive. -/
  arrive : σ → List (Host × List Reply) → List Tagged
  /-- How long what a host sends back takes to arrive. -/
  latency : σ → Host → Nat

namespace Fleet

variable {σ : Type}

/-- Send a call to hosts in turn and keep what each sends back. -/
def contact (fleet : Fleet σ) (call : Call) : List Host → σ → List (Host × List Reply) × σ
  | [], s => ([], s)
  | host :: rest, s =>
    let (replies, s) := fleet.answer host call s
    let (others, s) := fleet.contact call rest s
    ((host, replies) :: others, s)

/-- Send a call to all hosts of a list and gather every reply. -/
def scatter (fleet : Fleet σ) (hosts : List Host) (call : Call) (s : σ) : List Tagged × σ :=
  let (streams, s) := fleet.contact call hosts s
  (fleet.arrive s streams, s)

/-- The first reply of a list; a host that closes without one is at fault. -/
def firstReply : List Reply → Reply
  | [] => .fault (.node "node closed its stream without a reply")
  | reply :: _ => reply

/-- Send a call to one host and take its first reply. -/
def first (fleet : Fleet σ) (host : Host) (call : Call) (s : σ) : Reply × σ :=
  let (replies, s) := fleet.answer host call s
  (firstReply replies, s)

end Fleet

end QuorumStore
