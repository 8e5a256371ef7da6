import QuorumStore.Quorum
import QuorumStore.Registry.State

/-!
# Choosing replicas

Reads go where the hints say that the key is, nearest hosts first; writes go
there too and are filled up along the ring. Where the choice is left to chance
it is an argument: `shuffle` is the order that chance gives to a list. What makes
several choices is given as many orders, each drawn anew.
-/

namespace QuorumStore

/-- The orders that chance gives in one choice after another. -/
abbrev Shuffles := Nat → List Host → List Host

namespace Shuffles

/-- The orders that are left after some choices. -/
def after (shuffles : Shuffles) (choices : Nat) : Shuffles := fun i => shuffles (choices + i)

/-- Every order leaves nothing out and adds nothing. -/
def Fair (shuffles : Shuffles) : Prop := ∀ i hosts, (shuffles i hosts).Perm hosts

/-- So do those that are left. -/
theorem Fair.after {shuffles : Shuffles} (h : shuffles.Fair) (choices : Nat) :
    (shuffles.after choices).Fair := fun i => h (choices + i)

end Shuffles

namespace Registry

/-- The hosts of all peers. -/
def nodes (r : Registry) : List Host := r.peers.values.map Peer.host

/-- The hosts of the peers that a list of hosts names. -/
def known (r : Registry) (hosts : List Host) : List Host :=
  hosts.filterMap fun host => r.peers[digest host]?.map Peer.host

/-- Whether the hint of a host holds a key. -/
def holds (r : Registry) (key : Key) (host : Host) : Bool := r.hinted (digest host) key

/-- Whether the digest of a host is none of those chosen. -/
def isNew (chosen : List Host) (host : Host) : Bool :=
  !(chosen.map digest).contains (digest host)

/-- The hosts to read a key from. -/
def read (r : Registry) (shuffle : List Host → List Host) (key : Key) : Quorum → List Host
  | .one => ((shuffle r.nodes).find? (r.holds key)).toList
  | .strong => shuffle r.nodes
  | .consensus =>
    let threshold := majority r.ring.size
    let near := (r.known (r.ring.nearest key threshold)).filter (r.holds key)
    let others := (shuffle r.nodes).filter fun host => isNew near host && r.holds key host
    near ++ others.take (threshold - near.length)

/-- The hosts to write a key to. -/
def write (r : Registry) (shuffle : List Host → List Host) (key : Key) (quorum : Quorum) :
    List Host :=
  let chosen := r.read shuffle key quorum
  match quorum with
  | .strong => chosen
  | .one => if chosen.isEmpty then r.known (r.ring.nearest key 1) else chosen
  | .consensus =>
    let threshold := majority r.ring.size
    let padding := (r.ring.nearest key r.ring.size).filter (isNew chosen)
    chosen ++ r.known (padding.take (threshold - chosen.length))

end Registry

end QuorumStore
