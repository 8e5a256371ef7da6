import Std.Data.TreeMap
import QuorumStore.Quorum

/-!
# The bus

Members of one process find each other on a bus: who is a member in which role,
and who listens for gossip. Listeners belong to a host and are numbered from one
across the bus. A host that leaves loses its listeners; its handle stays usable,
so it may listen again without joining.
-/

namespace QuorumStore

/-- What listens for gossip. -/
inductive Listener where
  /-- The registry with the given serial number takes hints in. -/
  | registry (serial : Nat)
  /-- Events are written down. -/
  | recorder
  deriving DecidableEq, Repr

/-- Members and listeners. -/
structure Bus where
  /-- The members with their roles. -/
  members : Std.TreeMap Host Role
  /-- The listeners of each host, by number. -/
  listeners : Std.TreeMap Host (Std.TreeMap Nat Listener)
  /-- The last number given to a listener. -/
  lastNumber : Nat

namespace Bus

/-- No members. -/
def empty : Bus := ⟨∅, ∅, 0⟩

/-- The listeners of a host. -/
def of (bus : Bus) (host : Host) : Std.TreeMap Nat Listener := (bus.listeners[host]?).getD ∅

/-- A host joins, or changes its role; its listeners stay. -/
def join (bus : Bus) (host : Host) (role : Role) : Bus :=
  { bus with
    members := bus.members.insert host role
    listeners := bus.listeners.insert host (bus.of host) }

/-- A host leaves with its listeners. The answer tells whether it was a member. -/
def leave (bus : Bus) (host : Host) : Bus × Bool :=
  ({ bus with
      members := bus.members.erase host
      listeners := bus.listeners.erase host },
    bus.members.contains host)

/-- The members in a role, sorted. -/
def current (bus : Bus) (role : Role) : List Host :=
  bus.members.toList.filterMap fun (host, r) => if r = role then some host else none

/-- Start listening for a host. The answer is the listener's number. -/
def register (bus : Bus) (host : Host) (listener : Listener) : Bus × Nat :=
  let number := bus.lastNumber + 1
  ({ bus with
      listeners := bus.listeners.insert host ((bus.of host).insert number listener)
      lastNumber := number },
    number)

/-- Stop listening. The answer tells whether the host had a listener of that number. -/
def deregister (bus : Bus) (host : Host) (number : Nat) : Bus × Bool :=
  if (bus.of host).contains number then
    ({ bus with listeners := bus.listeners.insert host ((bus.of host).erase number) }, true)
  else (bus, false)

/-- The listeners that an event from a host reaches: those of every other host. -/
def audience (bus : Bus) (sender : Host) : List (Nat × Listener) :=
  bus.listeners.toList.flatMap fun (host, listeners) =>
    if host = sender then [] else listeners.toList

end Bus

end QuorumStore
