import QuorumStore.Cluster.Assembly
import QuorumStore.Rpc.Client

/-!
# A member and its server

A member that serves requests: with a store of its own, with a coordinator over
a cluster, with both, or with neither. It may write down the hints and the
announcements that reach it. What its server offers follows from what it has.
-/

namespace QuorumStore

/-- A member that serves requests. -/
structure Member where
  /-- Its address. -/
  url : Host
  /-- Its role. -/
  role : Role
  /-- Its own store. -/
  store : Option Store
  /-- The cluster that it coordinates. -/
  cluster : Option Cluster
  /-- The hints written down, in order, if it listens for them. -/
  hints : Option (List HintEvent)
  /-- The announcements written down, in order, if it listens for them. -/
  announcements : Option (List Wire.Announcement)

namespace Member

/-- Answer a call from the member's store. -/
def callStore (call : Call) (m : Member) : Reply × Member :=
  match m.store with
  | none => (.fault (.notFound m.url), m)
  | some store =>
    let (reply, store) := store.answer call
    (reply, { m with store := some store })

/-- Carry out an operation of the member's coordinator. -/
def coordinate (op : Operation) (m : Member) : Outcome Reply × Member :=
  match m.cluster with
  | none => (.notFound, m)
  | some cluster =>
    let (outcome, cluster) := cluster.run op
    (outcome, { m with cluster := some cluster })

/-- The hosts on the coordinator's ring, sorted. -/
def ring (m : Member) : List Host :=
  match m.cluster.bind fun c => c.network.registry? Cluster.coordinator with
  | none => []
  | some r => r.ring.hosts

/-- Write a hint down. -/
def hear (e : HintEvent) (m : Member) : Member :=
  { m with hints := m.hints.map (· ++ [e]) }

/-- Write an announcement down. -/
def greet (a : Wire.Announcement) (m : Member) : Member :=
  { m with announcements := m.announcements.map (· ++ [a]) }

/-- The member's server. -/
def server (m : Member) : Server Member where
  url := m.url
  role := m.role
  node := m.store.map fun _ => callStore
  coordinator := m.cluster.map fun _ => coordinate
  ring := ring
  gossip := m.hints.map fun _ => hear
  announce := m.announcements.map fun _ => greet

/-- Serve a request. -/
def handle (m : Member) (request : Request) : Envelope × Member := m.server.dispatch request m

/-- Serve the bodies of posts in turn. -/
def handleAll : List Bytes → Member → List Envelope × Member
  | [], m => ([], m)
  | body :: rest, m =>
    let (envelope, m) := m.server.post body m
    let (envelopes, m) := handleAll rest m
    (envelope :: envelopes, m)

end Member

end QuorumStore
