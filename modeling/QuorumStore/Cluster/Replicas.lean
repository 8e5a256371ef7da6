import QuorumStore.Cluster.Line
import QuorumStore.Store.Bucketed

/-!
# Replicas with scripts

The replicas of a cluster in one process. A replica answers from its store,
unless its script says what to send back to a call; then the store is left
alone. Replies arrive in the order in which the replicas are listed, each
replica's a moment after those of the one before. Hosts that are not listed
answer at once, in the order in which they are contacted, each from a store of
its own that is empty at first and is lost when the host is forgotten.
-/

namespace QuorumStore

/-- What a replica sends back in place of its own answers, by the name of the
call; `*` stands for every call that is not named. -/
abbrev Script := List (String × List Reply)

/-- The replies that a script has for a call. -/
def Script.replies? (script : Script) (call : Call) : Option (List Reply) :=
  (script.lookup call.name).or (script.lookup "*")

/-- A replica. -/
structure Replica where
  /-- Its host. -/
  host : Host
  /-- Its store. -/
  store : Store
  /-- Its script. -/
  script : Script

namespace Replica

/-- A replica that answers from an empty store of the usual size. -/
def fresh (host : Host) : Replica := ⟨host, .empty 4 (by decide), []⟩

/-- Answer a call. -/
def answer (r : Replica) (call : Call) : List Reply × Replica :=
  match r.script.replies? call with
  | some replies => (replies, r)
  | none =>
    let (reply, store) := r.store.answer call
    ([reply], { r with store := store })

end Replica

/-- The replicas of a cluster. -/
structure Replicas where
  /-- The hosts contacted that are not listed. -/
  strays : List Replica
  /-- The listed replicas. -/
  listed : List Replica

namespace Replicas

/-- Put a replica in the place of the one with its host. -/
def put (r : Replica) : List Replica → List Replica
  | [] => []
  | q :: rest => if q.host = r.host then r :: rest else q :: put r rest

/-- The replica of a host. -/
def find? (rs : Replicas) (host : Host) : Option Replica :=
  (rs.strays ++ rs.listed).find? fun r => r.host = host

/-- Change the listed replica of a host. -/
def modify (rs : Replicas) (host : Host) (f : Replica → Replica) : Replicas :=
  { rs with listed := rs.listed.map fun r => if r.host = host then f r else r }

/-- Answer a call to a host. -/
def answer (host : Host) (call : Call) (rs : Replicas) : List Reply × Replicas :=
  match rs.find? host with
  | some r =>
    let (replies, r) := r.answer call
    (replies, ⟨put r rs.strays, put r rs.listed⟩)
  | none =>
    let (replies, r) := (Replica.fresh host).answer call
    (replies, { rs with strays := rs.strays ++ [r] })

/-- How long the replies of a host take: its place on the list, and no time when
it is not listed. -/
def latency (rs : Replicas) (host : Host) : Nat :=
  match rs.listed.findIdx? fun r => r.host = host with
  | some place => place + 1
  | none => 0

/-- Order what hosts send back by the time that it takes. What is sent at one time
shares a line with a place for each host that was asked. -/
def arrive (rs : Replicas) (streams : List (Host × List Reply)) : List Tagged :=
  (List.range (rs.listed.length + 1)).flatMap fun time =>
    Line.carry streams.length <| streams.filter fun stream => rs.latency stream.1 = time

/-- The replicas as a fleet. -/
def fleet : Fleet Replicas := ⟨answer, arrive, latency⟩

/-- Forget the hosts that are not listed, apart from those of a list. -/
def forgetExcept (rs : Replicas) (hosts : List Host) : Replicas :=
  { rs with strays := rs.strays.filter fun r => hosts.contains r.host }

end Replicas

end QuorumStore
