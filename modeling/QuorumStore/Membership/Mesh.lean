import QuorumStore.Membership.Directory
import QuorumStore.Registry.Sharing
import QuorumStore.Rpc.Client

/-!
# Members that talk over the network

Several members of one machine, each with a directory of the others, a registry
that listens for hints, and a server for announcements and events unless it is
dead. Whether a post arrives is up to the link between them.
-/

namespace QuorumStore

/-- A member with its server. -/
structure MeshMember where
  /-- What it knows of the others. -/
  directory : Directory
  /-- Its registry, which listens. -/
  registry : Registry
  /-- Whether its server listens. -/
  serving : Bool

/-- Members and the link between them. -/
structure Mesh where
  /-- The link. -/
  link : Loopback
  /-- The members by name. -/
  members : Std.TreeMap Host MeshMember

namespace Mesh

/-- The parameters of every registry. -/
def params : ClusterParams := ⟨8, 1024, 3⟩

/-- What a member is started with. -/
structure Seat where
  /-- Its name. -/
  name : Host
  /-- Its role. -/
  role : Role
  /-- The members that it was configured with. -/
  seeds : List Host
  /-- Its server does not listen. -/
  dead : Bool

/-- Start members; each server that is to listen has to be reached. -/
def start (link : Loopback) (seats : List Seat) : Except Abort Mesh := do
  let members ← seats.mapM fun seat => do
    let (directory, _) := (Directory.new seat.name seat.role seat.seeds).register
    let registry ← Registry.new params seat.name
    if !seat.dead then link.ready
    let (directory, number) := directory.register
    let member : MeshMember := ⟨directory, { registry with listener := some number }, !seat.dead⟩
    return (seat.name, member)
  return ⟨link, Std.TreeMap.ofList members⟩

/-- Change a member. -/
def modify (m : Mesh) (name : Host) (f : MeshMember → MeshMember) : Mesh :=
  { m with members := m.members.modify name f }

/-- Change what a member knows of the others. -/
def modifyDirectory (m : Mesh) (name : Host) (f : Directory → Directory) : Mesh :=
  m.modify name fun member => { member with directory := f member.directory }

/-- A member's listeners take an event. -/
def deliver (name : Host) (e : HintEvent) (m : Mesh) : Mesh :=
  m.modify name fun member =>
    { member with
      directory := member.directory.deliver e
      registry := member.registry.receive e }

/-- The server of a member, if it listens. -/
def server? (m : Mesh) (name : Host) : Option (Server Mesh) :=
  m.members[name]?.bind fun member =>
    if member.serving then
      some
        { url := name
          role := member.directory.role
          node := none
          coordinator := none
          ring := fun _ => []
          gossip := some (deliver name)
          announce := some fun a m => m.modifyDirectory name fun d => (d.discover a.url a.role).1 }
    else none

/-- Call a method of another member. -/
def call {α : Type} (m : Mesh) (peer : Host) (method : String) (params : Json)
    (read? : Json → Option α) : Except Fault α × Mesh :=
  let (posted, m) := m.link.post (m.server? peer) ⟨method, params⟩ m
  (posted.openWith peer method read?, m)

/-- Whether an event was accepted. -/
def accepted? (j : Json) : Option Unit := do
  match ← Wire.struct? ["accepted"] 1 j with
  | [some accepted] => (accepted.bool?).map fun _ => ()
  | _ => none

/-- A member makes itself known to another. -/
def announce (m : Mesh) (name peer : Host) : Except Fault Wire.Acknowledgement × Mesh :=
  match m.members[name]? with
  | none => (.error (.notFound name), m)
  | some member =>
    let params := Wire.announcement member.directory.announcement
    let (answer, m) := m.call peer "peer/announce" params Wire.acknowledgement?
    (answer, m.modifyDirectory name (·.heard peer answer))

/-- A member makes itself known to every peer that it knows. -/
def announceAll (m : Mesh) (name : Host) : Mesh :=
  match m.members[name]? with
  | none => m
  | some member => member.directory.peers.keys.foldl (fun m peer => (m.announce name peer).2) m

/-- A member posts an event to every peer that is alive. -/
def dispatch (name : Host) (e : HintEvent) (m : Mesh) : List (Host × Fault) × Mesh :=
  match m.members[name]? with
  | none => ([], m)
  | some member =>
    let post := fun peer (m : Mesh) => m.call peer "gossip/event" (Wire.hintEvent e) accepted?
    let (failures, directory, m) := member.directory.dispatch post m
    (failures, m.modifyDirectory name fun _ => directory)

/-- A dispatch as a registry sees it. -/
def send (name : Host) (e : HintEvent) (m : Mesh) : Except Fault Unit × Mesh :=
  let (failures, m) := dispatch name e m
  (if failures.isEmpty then .ok () else .error (Directory.unreached failures), m)

/-- Put a registry in its place. -/
def putRegistry (m : Mesh) (r : Registry) : Mesh :=
  m.modify r.host fun member => { member with registry := r }

/-- The registry of a member follows its directory, visited in any order. -/
def update (m : Mesh) (name : Host) (visit : Arrangement Host := .listed) :
    Except Abort Registry.Churn × Mesh :=
  match m.members[name]? with
  | none => (.ok ⟨0, 0⟩, m)
  | some member =>
    let (churn, r) := member.registry.update (visit.order (member.directory.current .store))
    (churn, m.putRegistry r)

/-- The registry of a member sends every hint that is due, in any order. -/
def broadcast (m : Mesh) (name : Host) (sending : Arrangement Shipment := .listed) :
    Registry.Broadcast × Mesh :=
  match m.members[name]? with
  | none => (⟨0, []⟩, m)
  | some member =>
    let (b, r, m) := member.registry.broadcast (send name) sending m
    (b, m.putRegistry r)

end Mesh

end QuorumStore
