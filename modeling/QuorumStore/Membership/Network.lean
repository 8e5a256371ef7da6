import QuorumStore.Membership.Bus
import QuorumStore.Registry.Sharing

/-!
# Registries on a bus

Several members of one process, each with a registry, joined by a bus that
delivers an event to every other host's listeners before it answers. A member's
source of membership can be made to fail, for lists and for dispatch apart.
-/

namespace QuorumStore

/-- What fails in a member's source of membership. -/
structure Failing where
  /-- Lists of members are refused. -/
  current : Bool
  /-- Dispatch is refused. -/
  dispatch : Bool
  deriving DecidableEq, Repr

/-- Registries joined by a bus. -/
structure Network where
  /-- The bus. -/
  bus : Bus
  /-- Every registry made so far, by serial number. -/
  registries : Std.TreeMap Nat Registry
  /-- The registry that acts for a host. -/
  acting : Std.TreeMap Host Nat
  /-- The recorder last registered for a host. -/
  recorders : Std.TreeMap Host Nat
  /-- What each recorder has written down, by listener number. -/
  written : Std.TreeMap Nat (List HintEvent)
  /-- What fails for a host. -/
  failing : Std.TreeMap Host Failing

namespace Network

/-- No members and no registries. -/
def empty : Network := ⟨.empty, ∅, ∅, ∅, ∅, ∅⟩

/-- A host joins the bus. -/
def join (n : Network) (host : Host) (role : Role) : Network :=
  { n with bus := n.bus.join host role }

/-- A host leaves the bus. -/
def leave (n : Network) (host : Host) : Network × Bool :=
  let (bus, left) := n.bus.leave host
  ({ n with bus := bus }, left)

/-- From now on the source of membership of a host fails as told. -/
def fail (n : Network) (host : Host) (failing : Failing) : Network :=
  { n with failing := n.failing.insert host failing }

/-- Whether lists of members are refused to a host. -/
def refusesCurrent (n : Network) (host : Host) : Bool :=
  (n.failing[host]?).any (·.current)

/-- Whether dispatch is refused to a host. -/
def refusesDispatch (n : Network) (host : Host) : Bool :=
  (n.failing[host]?).any (·.dispatch)

/-- The members in a role, as a host's source lists them. -/
def current (n : Network) (host : Host) (role : Role) : Except Fault (List Host) :=
  if n.refusesCurrent host then .error (.network "membership unavailable")
  else .ok (n.bus.current role)

/-! ## Events -/

/-- Hand an event to one listener. -/
def hand (n : Network) (e : HintEvent) (listener : Nat × Listener) : Network :=
  match listener.2 with
  | .registry serial => { n with registries := n.registries.modify serial (·.receive e) }
  | .recorder =>
    { n with written := n.written.insert listener.1 ((n.written[listener.1]?).getD [] ++ [e]) }

/-- Deliver an event to the listeners of every other host. -/
def deliver (n : Network) (host : Host) (e : HintEvent) : Network :=
  (n.bus.audience host).foldl (fun n listener => n.hand e listener) n

/-- Dispatch an event through a host's source of membership. -/
def dispatch (host : Host) (e : HintEvent) (n : Network) : Except Fault Unit × Network :=
  if n.refusesDispatch host then (.error (.network "dispatch refused"), n)
  else (.ok (), n.deliver host e)

/-- Start a recorder for a host. The answer is its number. -/
def record (n : Network) (host : Host) : Network × Nat :=
  let (bus, number) := n.bus.register host .recorder
  ({ n with
      bus := bus
      recorders := n.recorders.insert host number
      written := n.written.insert number [] },
    number)

/-- Stop the recorder of a host. -/
def unrecord (n : Network) (host : Host) : Network × Bool :=
  match n.recorders[host]? with
  | none => (n, false)
  | some number =>
    let (bus, gone) := n.bus.deregister host number
    ({ n with bus := bus }, gone)

/-- What the recorder of a host has written down. -/
def seen (n : Network) (host : Host) : List HintEvent :=
  match n.recorders[host]? with
  | none => []
  | some number => (n.written[number]?).getD []

/-! ## Registries -/

/-- Make a registry for a host; it acts for the host from now on. -/
def openRegistry (n : Network) (host : Host) (config : ClusterParams) : Except Abort Network := do
  let r ← Registry.new config host
  let serial := n.registries.size
  return { n with
    registries := n.registries.insert serial r
    acting := n.acting.insert host serial }

/-- The registry that acts for a host. -/
def registry? (n : Network) (host : Host) : Option Registry :=
  n.acting[host]?.bind fun serial => n.registries[serial]?

/-- Put a registry in the place of the one that acts for its host. -/
def putRegistry (n : Network) (r : Registry) : Network :=
  match n.acting[r.host]? with
  | some serial => { n with registries := n.registries.insert serial r }
  | none => n

/-- The registry of a host starts to listen, unless it holds a listener's number already. -/
def start (n : Network) (host : Host) : Network :=
  match n.acting[host]?, n.registry? host with
  | some serial, some r =>
    if r.listener.isSome then n
    else
      let (bus, number) := n.bus.register host (.registry serial)
      { n with bus := bus }.putRegistry { r with listener := some number }
  | _, _ => n

/-- The registry of a host stops listening. -/
def stop (n : Network) (host : Host) : Network :=
  match n.registry? host with
  | some r =>
    match r.listener with
    | some number =>
      { n with bus := (n.bus.deregister host number).1 }.putRegistry { r with listener := none }
    | none => n
  | none => n

/-- The registry of a host follows the members that hold data, visited in any order. -/
def update (n : Network) (host : Host) (visit : Arrangement Host := .listed) :
    Except Abort (Except Fault Registry.Churn) × Network :=
  match n.registry? host, n.current host .store with
  | none, _ => (.ok (.ok ⟨0, 0⟩), n)
  | some _, .error fault => (.ok (.error fault), n)
  | some r, .ok listed =>
    let (churn, r) := r.update (visit.order listed)
    (churn.map .ok, n.putRegistry r)

/-- The registry of a host sends every hint that is due, in any order. -/
def broadcast (n : Network) (host : Host) (sending : Arrangement Shipment := .listed) :
    Registry.Broadcast × Network :=
  match n.registry? host with
  | none => (⟨0, []⟩, n)
  | some r =>
    let (b, r, n) := r.broadcast (dispatch host) sending n
    (b, n.putRegistry r)

/-- The registry of a host records that peers hold a key. -/
def commit (n : Network) (host : Host) (key : Key) (peers : List UInt32) : Nat × Network :=
  match n.registry? host with
  | none => (0, n)
  | some r =>
    let (r, changed) := r.commit key peers
    (changed, n.putRegistry r)

/-! ## Loops -/

/-- The number of ticks of a loop within a span of time: one at the start and
one after each full interval. A loop without an interval does not start. -/
def ticks (every span : Nat) : Nat := if every = 0 then 0 else span / every + 1

/-- Reconcile a number of times, each in an order of its own; a tick that fails is
passed over. A tick that stops the program stops the loop alone, and what it did
before then stays. -/
def discover (host : Host) (count : Nat) (n : Network)
    (visits : Nat → Arrangement Host := fun _ => .listed) : Network :=
  match count with
  | 0 => n
  | count + 1 =>
    match n.update host (visits count) with
    | (.error _, n) => n
    | (.ok _, n) => discover host count n visits

/-- Broadcast a number of times, each in an order of its own; a tick that fails is
passed over. -/
def rebroadcast (host : Host) (count : Nat) (n : Network)
    (sendings : Nat → Arrangement Shipment := fun _ => .listed) : Network :=
  match count with
  | 0 => n
  | count + 1 => rebroadcast host count (n.broadcast host (sendings count)).2 sendings

end Network

end QuorumStore
