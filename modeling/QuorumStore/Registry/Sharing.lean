import QuorumStore.Arrangement
import QuorumStore.Gossip
import QuorumStore.Registry.State

/-!
# Sharing hints

A hint is due when it changed since it was last shared. A broadcast sends the
hints that were due when it began, one by one in the order that chance gives, and
a hint that could not be sent stays due. A hint that arrives is united with the one
held; if nothing was due before, the result counts as shared, so that what came by
gossip alone is not sent on.
-/

namespace QuorumStore

namespace Peer

/-- Whether the hint changed since it was last shared. -/
def due (p : Peer) : Bool := decide (p.shared < p.clock)

/-- The peer once its hint was sent as it stood at a clock value. -/
def sentAt (p : Peer) (clock : Nat) : Peer := { p with shared := max p.shared clock }

/-- The peer once a hint for it has arrived. A hint of another shape, or one
that adds nothing, changes nothing. -/
def merge (p : Peer) (incoming : Hint) : Peer :=
  match p.hint.union incoming with
  | .ok (hint, true) =>
    { p with
      hint := hint
      clock := p.clock + 1
      shared := if p.due then p.shared else p.clock + 1 }
  | _ => p

end Peer

/-- A hint as it stood when a broadcast began. -/
structure Shipment where
  /-- The digest of the host that the hint is about. -/
  peer : UInt32
  /-- The clock of the hint. -/
  clock : Nat
  /-- The octets of the hint. -/
  payload : Bytes
  deriving DecidableEq, Repr

/-- A hint that could not be sent, and why. -/
structure Undelivered where
  /-- The digest of the host that the hint is about. -/
  peer : UInt32
  /-- Why it could not be sent. -/
  fault : Fault
  deriving DecidableEq, Repr

/-- The fault of a broadcast that left hints behind. -/
def Undelivered.joined (failures : List Undelivered) : Fault :=
  .network <| String.intercalate "; " <| failures.map fun u =>
    "peer " ++ toString u.peer ++ ": " ++ u.fault.message

namespace Registry

/-- The hints that are due. -/
def shipments (r : Registry) : List Shipment :=
  r.peers.toList.filterMap fun (peer, p) =>
    if p.due then some ⟨peer, p.clock, p.hint.toBytes⟩ else none

/-- The message that carries a shipment. -/
def event (r : Registry) (s : Shipment) : HintEvent := ⟨r.host, s.peer, s.payload⟩

/-- A shipment has been sent. -/
def markSent (r : Registry) (s : Shipment) : Registry := r.modifyPeer s.peer (·.sentAt s.clock)

/-- What came of the shipments of a broadcast. -/
structure Broadcast where
  /-- The number of hints sent. -/
  sent : Nat
  /-- The hints that could not be sent, in order. -/
  failures : List Undelivered
  deriving DecidableEq, Repr

/-- The number of hints sent, unless one of them failed. -/
def Broadcast.result (b : Broadcast) : Except Fault Nat :=
  if b.failures.isEmpty then .ok b.sent else .error (Undelivered.joined b.failures)

/-- Send shipments in turn. Sending is left to `dispatch`, which works on the
world outside the registry. -/
def ship {σ : Type} (dispatch : HintEvent → σ → Except Fault Unit × σ) :
    List Shipment → Registry → σ → Broadcast × Registry × σ
  | [], r, world => (⟨0, []⟩, r, world)
  | s :: rest, r, world =>
    match dispatch (r.event s) world with
    | (.ok _, world) =>
      let (b, r, world) := ship dispatch rest (r.markSent s) world
      (⟨b.sent + 1, b.failures⟩, r, world)
    | (.error fault, world) =>
      let (b, r, world) := ship dispatch rest r world
      (⟨b.sent, ⟨s.peer, fault⟩ :: b.failures⟩, r, world)

/-- Send every hint that is due. -/
def broadcast {σ : Type} (dispatch : HintEvent → σ → Except Fault Unit × σ)
    (sending : Arrangement Shipment) (r : Registry) (world : σ) : Broadcast × Registry × σ :=
  ship dispatch (sending.order r.shipments) r world

/-- A hint has arrived. It is dropped when the registry sent it itself, when its
octets are no hint, and when it is about a host that is not known. -/
def receive (r : Registry) (e : HintEvent) : Registry :=
  if e.sender = r.host then r
  else
    match Hint.ofBytes e.payload with
    | .error _ => r
    | .ok incoming => r.modifyPeer e.peer (·.merge incoming)

end Registry

end QuorumStore
