import QuorumStore.Rpc.Server

/-!
# Calling another member

A call is posted to one route of the other member's server, and its answer is
read from the body that comes back. Whether a post reaches anybody is up to the
network; a post that does not, and a status that is no success, are network
faults. The transport is a parameter, so the same definitions hold on a network
that delivers and on one that does not.
-/

namespace QuorumStore

/-- The name under which a server takes posts. -/
def serviceName : String := "tessel.rpc.TesselService"

/-- The route to post to on a host; slashes that end the host are dropped. -/
def callRoute (host : Host) : String :=
  String.ofList (host.toList.reverse.dropWhile (· = '/')).reverse ++ "/" ++ serviceName ++ "/Call"

/-- What comes back from a post. -/
inductive Posted where
  /-- Nobody was reached. -/
  | unreachable
  /-- A response with a status and a body. -/
  | answered (status : Nat) (body : Bytes)

namespace Posted

/-- What a response stands for, its result read by `read?`. A body that is no
response cannot be read. -/
def openWith {α : Type} (host : Host) (method : String) (read? : Json → Option α) :
    Posted → Except Fault α
  | unreachable => .error (.network (host ++ " " ++ method))
  | answered status body =>
    if 200 ≤ status ∧ status < 300 then
      match (Json.ofBytes? body).bind Envelope.ofJson? with
      | some e => e.openWith host read?
      | none => .error (.serialization (host ++ " " ++ method))
    else .error (.network s!"{host} {method} returned status {status}")

end Posted

/-- Whether posts between the members of one machine are delivered. -/
inductive Loopback where
  /-- A post reaches the server that listens. -/
  | up
  /-- A post reaches nobody. -/
  | down
  deriving DecidableEq, Repr

namespace Loopback

variable {σ : Type}

/-- What comes back from a server that gives one answer to every post. -/
def respond (link : Loopback) (status : Nat) (body : Bytes) : Posted :=
  match link with
  | up => .answered status body
  | down => .unreachable

/-- Wait until a server can be reached. -/
def ready : Loopback → Except Abort Unit
  | up => .ok ()
  | down => .error .unreachableServer

/-- Post a request to a server; `none` is a server that does not listen. The
response is written and read as text. -/
def post (link : Loopback) (server : Option (Server σ)) (request : Request) (s : σ) :
    Posted × σ :=
  match link, server with
  | up, some server =>
    let (envelope, s) := server.post (Bytes.ofText request.toJson.print) s
    (.answered Server.okStatus (Bytes.ofText envelope.toJson.print), s)
  | _, _ => (.unreachable, s)

/-- Send a call to a node behind a server. -/
def callNode (link : Loopback) (host : Host) (server : Option (Server σ)) (call : Call) (s : σ) :
    Reply × σ :=
  let (method, params) := Wire.callParams call
  let (posted, s) := link.post server ⟨method, params⟩ s
  match posted.openWith host method (Wire.reply? call) with
  | .ok reply => (reply, s)
  | .error f => (.fault f, s)

end Loopback

/-- How a member talks to a node. -/
inductive Reach where
  /-- The node is the member's own, and no post is needed. -/
  | own
  /-- The node is behind another member's server. -/
  | remote
  deriving DecidableEq, Repr

/-- How a member with a node of its own, or without one, talks to a host. -/
def Reach.of (self : Option Host) (host : Host) : Reach :=
  if self = some host then .own else .remote

end QuorumStore
