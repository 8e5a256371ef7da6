import Std.Data.TreeMap
import Std.Data.TreeSet
import QuorumStore.Gossip
import QuorumStore.Quorum
import QuorumStore.Rpc.Wire

/-!
# The directory of peers

What a member knows of the others from configuration, from their announcements
and from how talking to them went: their role, once they have told it, and
whether they were alive when last talked to. A member never lists itself as a
peer. Events go to all peers that are alive, and one that cannot be reached
counts as dead until it is heard of again.
-/

namespace QuorumStore

/-- What is known about a peer. -/
structure PeerStatus where
  /-- The role that it told. -/
  role : Option Role
  /-- Talking to it last went well. -/
  alive : Bool
  deriving DecidableEq, Repr

/-- A peer that has not been heard of. -/
def PeerStatus.unheard : PeerStatus := ⟨none, false⟩

/-- What a member knows of the others, and its listeners for their events. -/
structure Directory where
  /-- The member. -/
  self : Host
  /-- Its role. -/
  role : Role
  /-- The other members by address. -/
  peers : Std.TreeMap Host PeerStatus
  /-- The listeners that are registered. -/
  listeners : Std.TreeSet Nat
  /-- The last number given to a listener. -/
  lastNumber : Nat
  /-- What each listener has been handed, registered still or not. -/
  handed : Std.TreeMap Nat (List HintEvent)

namespace Directory

/-- The directory of a member with the peers that it was configured with, none
of which has been heard of. -/
def new (self : Host) (role : Role) (seeds : List Host) : Directory where
  self := self
  role := role
  peers := Std.TreeMap.ofList ((seeds.filter (· ≠ self)).map fun url => (url, PeerStatus.unheard))
  listeners := ∅
  lastNumber := 0
  handed := ∅

/-- What is known about a peer. -/
def peer? (d : Directory) (url : Host) : Option PeerStatus := d.peers[url]?

/-- The peers that are alive, sorted. -/
def live (d : Directory) : List Host :=
  d.peers.toList.filterMap fun (url, p) => if p.alive then some url else none

/-- A peer has made itself known. The answer tells whether it is new. -/
def discover (d : Directory) (url : Host) (role : Role) : Directory × Bool :=
  if url = d.self then (d, false)
  else ({ d with peers := d.peers.insert url ⟨some role, true⟩ }, !d.peers.contains url)

/-- Talking to a known peer went well or not; a role that was learned on the
way replaces the one known. -/
def mark (d : Directory) (url : Host) (alive : Bool) (role : Option Role) : Directory :=
  { d with peers := d.peers.modify url fun p => ⟨role.or p.role, alive⟩ }

/-- The members in a role that are alive, the member itself included, sorted. -/
def current (d : Directory) (role : Role) : List Host :=
  let others := d.peers.toList.filterMap fun (url, p) =>
    if p.alive ∧ p.role = some role then some url else none
  if d.role = role then sortedNames (d.self :: others) else others

/-! ## Events -/

/-- Register a listener. The answer is its number. -/
def register (d : Directory) : Directory × Nat :=
  let number := d.lastNumber + 1
  ({ d with
      listeners := d.listeners.insert number
      lastNumber := number
      handed := d.handed.insert number [] },
    number)

/-- Remove a listener. The answer tells whether it was registered. -/
def deregister (d : Directory) (number : Nat) : Directory × Bool :=
  ({ d with listeners := d.listeners.erase number }, d.listeners.contains number)

/-- Hand an event to every listener. -/
def deliver (d : Directory) (e : HintEvent) : Directory :=
  { d with handed := d.listeners.toList.foldl (fun handed number =>
      handed.insert number ((handed[number]?).getD [] ++ [e])) d.handed }

/-- What a listener has been handed. -/
def handedTo (d : Directory) (number : Nat) : List HintEvent := (d.handed[number]?).getD []

variable {σ : Type}

/-- Post an event to peers in turn. The peers that cannot be reached are marked
dead and named with their faults. -/
def postAll (post : Host → σ → Except Fault Unit × σ) :
    List Host → Directory → σ → List (Host × Fault) × Directory × σ
  | [], d, s => ([], d, s)
  | url :: rest, d, s =>
    match post url s with
    | (.ok _, s) => postAll post rest d s
    | (.error f, s) =>
      let (failures, d, s) := postAll post rest (d.mark url false none) s
      ((url, f) :: failures, d, s)

/-- Post an event to every peer that is alive. -/
def dispatch (d : Directory) (post : Host → σ → Except Fault Unit × σ) (s : σ) :
    List (Host × Fault) × Directory × σ :=
  postAll post d.live d s

/-- The fault of a dispatch that did not reach every peer. -/
def unreached (failures : List (Host × Fault)) : Fault :=
  .network (String.intercalate "; " (failures.map fun (url, f) => url ++ ": " ++ f.message))

/-- Take what a peer answered to an announcement. -/
def heard (d : Directory) (url : Host) (answer : Except Fault Wire.Acknowledgement) : Directory :=
  match answer with
  | .ok ack => d.mark url true (some ack.role)
  | .error _ => d.mark url false none

/-- The announcement of the member. -/
def announcement (d : Directory) : Wire.Announcement := ⟨d.self, d.role⟩

end Directory

end QuorumStore
