import Std.Data.TreeMap
import QuorumStore.Hint.Octets
import QuorumStore.Placement.Ring

/-!
# The registry

What one member of the cluster believes about the others: the ring of the hosts
that hold data, and for each of them a hint of the keys that it holds. A hint
has a clock that counts its changes, and the clock value up to which it was
shared. Membership is reconciled against a list of hosts; a host whose digest is
taken by another host is passed over.
-/

namespace QuorumStore

/-- The parameters that every member of a cluster has to share. -/
structure ClusterParams where
  /-- The number of ring positions per host. -/
  factor : Nat
  /-- The number of bits of a hint. -/
  capacity : UInt64
  /-- The number of probes of a hint per key. -/
  recursions : UInt64
  deriving DecidableEq, Repr

/-- The parameters used unless others are given. -/
def ClusterParams.default : ClusterParams := ⟨32, 65536, 4⟩

/-- What is known about one host of the ring. -/
structure Peer where
  /-- The host. -/
  host : Host
  /-- The keys that it is believed to hold. -/
  hint : Hint
  /-- The number of changes of the hint. -/
  clock : Nat
  /-- The clock at which the hint was last sent or taken over. -/
  shared : Nat

/-- One member's view of the cluster. -/
structure Registry where
  /-- The member. -/
  host : Host
  /-- The parameters of its ring and its hints. -/
  config : ClusterParams
  /-- The hosts that hold data. -/
  ring : Placement.Ring
  /-- What is known about them, by digest. -/
  peers : Std.TreeMap UInt32 Peer
  /-- The number under which it listens for gossip, while it does. -/
  listener : Option Nat

namespace Registry

/-- The digest that stands for a host. -/
abbrev digest (host : Host) : UInt32 := Murmur.textDigest host

/-- A registry without peers. -/
def new (config : ClusterParams) (host : Host) : Except Abort Registry :=
  if h : 0 < config.factor then .ok ⟨host, config, .empty config.factor h, ∅, none⟩
  else .error .noReplicationFactor

/-- Change the peer of a digest, if there is one. -/
def modifyPeer (r : Registry) (peer : UInt32) (f : Peer → Peer) : Registry :=
  { r with peers := r.peers.modify peer f }

/-- Changing one peer changes what is known about it and about no other. -/
theorem getElem?_modifyPeer (r : Registry) (peer other : UInt32) (f : Peer → Peer) :
    (r.modifyPeer peer f).peers[other]?
      = if peer = other then r.peers[other]?.map f else r.peers[other]? := by
  by_cases h : peer = other
  · simp [modifyPeer, h]
  · simp [modifyPeer, Std.TreeMap.getElem?_modify, h]

/-! ## Membership -/

/-- Forget a host. -/
def drop (r : Registry) (host : Host) : Registry :=
  { r with ring := (r.ring.remove host).1, peers := r.peers.erase (digest host) }

/-- Whether a listed host would join: it is new, and so is its digest. -/
def accepts (r : Registry) (host : Host) : Bool :=
  !r.ring.contains host && !r.peers.contains (digest host)

/-- Let a host join with an empty hint. -/
def enrol (blank : Hint) (r : Registry) (host : Host) : Registry :=
  { r with
    ring := (r.ring.add host).1
    peers := r.peers.insert (digest host) ⟨host, blank, 0, 0⟩ }

/-- Let the hosts of a list join in turn, and count those that do. -/
def enrolAll (blank : Hint) (r : Registry) : List Host → Registry × Nat
  | [] => (r, 0)
  | host :: rest =>
    if r.accepts host then
      let (r, joined) := enrolAll blank (r.enrol blank host) rest
      (r, joined + 1)
    else enrolAll blank r rest

/-- Every hint has to be sent again. -/
def unshareAll (r : Registry) : Registry :=
  { r with peers := r.peers.map fun _ p => { p with shared := 0 } }

/-- The hosts of the ring that a list lacks. -/
def departed (r : Registry) (listed : List Host) : List Host :=
  r.ring.hosts.filter fun host => !listed.contains host

/-- Drop the hosts that a list lacks. -/
def dropMissing (r : Registry) (listed : List Host) : Registry := (r.departed listed).foldl drop r

/-- How many hosts a reconciliation let in and let go. -/
structure Churn where
  /-- The hosts that joined. -/
  joined : Nat
  /-- The hosts that left. -/
  left : Nat
  deriving DecidableEq, Repr

/-- Make the ring follow a list of hosts, visited in the order of the list. When
any host joins, every hint is due to be sent again, since the newcomer has seen
none. -/
def reconcile (blank : Hint) (r : Registry) (listed : List Host) : Registry × Churn :=
  let left := (r.departed listed).length
  let (kept, joined) := (r.dropMissing listed).enrolAll blank listed
  (if 0 < joined then kept.unshareAll else kept, ⟨joined, left⟩)

/-- Reconcile with the registry's own hint parameters. Parameters that no hint
can have stop the program as soon as a host would join, when that host already
stands on the ring. -/
def update (r : Registry) (listed : List Host) : Except Abort Churn × Registry :=
  match Hint.new r.config.capacity r.config.recursions with
  | .ok blank =>
    let (r, churn) := r.reconcile blank listed
    (.ok churn, r)
  | .error abort =>
    let kept := r.dropMissing listed
    match listed.find? kept.accepts with
    | some host => (.error abort, { kept with ring := (kept.ring.add host).1 })
    | none => (.ok ⟨0, (r.departed listed).length⟩, kept)

/-! ## Hints -/

/-- Whether the hint of a digest holds a key. -/
def hinted (r : Registry) (peer : UInt32) (key : Key) : Bool :=
  match r.peers[peer]? with
  | some p => p.hint.contains (Bytes.ofText key)
  | none => false

/-- The clock of the hint of a digest. -/
def clock? (r : Registry) (peer : UInt32) : Option Nat := r.peers[peer]?.map Peer.clock

/-- Record that the peers of the given digests hold a key, and count the hints
that this changed. -/
def commit (r : Registry) (key : Key) : List UInt32 → Registry × Nat
  | [] => (r, 0)
  | peer :: rest =>
    if (r.peers.contains peer) && !r.hinted peer key then
      let r := r.modifyPeer peer fun p =>
        { p with hint := p.hint.add (Bytes.ofText key), clock := p.clock + 1 }
      let (r, changed) := commit r key rest
      (r, changed + 1)
    else commit r key rest

end Registry

end QuorumStore
