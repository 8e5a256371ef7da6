import QuorumStore.Json.Printer
import QuorumStore.Json.Reader
import QuorumStore.Rpc.Envelope

/-!
# Serving requests

A server serves what its member has: a store, a coordinator, a listener for
gossip, a listener for announcements. A request is first routed by its method,
then checked against what the member has, then its parameters are read, and only
then is anything done; so a request that is refused has changed nothing.
-/

namespace QuorumStore

/-- What a request asks for. -/
inductive Method where
  /-- A call to the member's own store. -/
  | node (read? : Json → Option Call)
  /-- The member's view of itself. -/
  | status
  /-- An operation of the coordinator. -/
  | coordinate (read? : Json → Option Operation)
  /-- A hint has arrived. -/
  | gossip
  /-- A member makes itself known. -/
  | announce

namespace Method

/-- The method of a name. -/
def ofName? : String → Option Method
  | "node/insert" => some (.node fun j => (Wire.writeParams? j).map fun (k, ms) => .insert k ms)
  | "node/delete" => some (.node fun j => (Wire.writeParams? j).map fun (k, ms) => .delete k ms)
  | "node/select" => some (.node fun j => (Wire.fieldParams? j).map fun (k, f) => .select k f)
  | "node/keys" => some (.node fun j => (Wire.noParams? j).map fun _ => .keys)
  | "node/size" => some (.node fun j => (Wire.keyParams? j).map .size)
  | "node/members" => some (.node fun j => (Wire.keyParams? j).map .members)
  | "node/score" => some (.node fun j => (Wire.fieldParams? j).map fun (k, f) => .score k f)
  | "node/status" => some .status
  | "farm/insert" =>
    some (.coordinate fun j => (Wire.quorumWrite? j).map fun (k, ms, q) => .write .insert k ms q)
  | "farm/delete" =>
    some (.coordinate fun j => (Wire.quorumWrite? j).map fun (k, ms, q) => .write .delete k ms q)
  | "farm/select" =>
    some (.coordinate fun j => (Wire.quorumSelect? j).map fun (k, f, q) => .select k f q)
  | "farm/keys" => some (.coordinate fun j => (Wire.noParams? j).map fun _ => .keys)
  | "farm/size" => some (.coordinate fun j => (Wire.keyParams? j).map .size)
  | "farm/members" => some (.coordinate fun j => (Wire.keyParams? j).map .members)
  | "farm/score" => some (.coordinate fun j => (Wire.fieldParams? j).map fun (k, f) => .score k f)
  | "gossip/event" => some .gossip
  | "peer/announce" => some .announce
  | _ => none

end Method

/-- What a member serves, over a state that serving may change. -/
structure Server (σ : Type) where
  /-- The member's address. -/
  url : Host
  /-- The member's role. -/
  role : Role
  /-- Its store. -/
  node : Option (Call → σ → Reply × σ)
  /-- Its coordinator. -/
  coordinator : Option (Operation → σ → Outcome Reply × σ)
  /-- The hosts on its ring, sorted; none without a coordinator. -/
  ring : σ → List Host
  /-- Its listener for gossip. -/
  gossip : Option (HintEvent → σ → σ)
  /-- Its listener for announcements. -/
  announce : Option (Wire.Announcement → σ → σ)

/-- Why a request is refused. -/
inductive Refusal where
  /-- The member has no store. -/
  | noStore (url : Host)
  /-- The member has no coordinator. -/
  | noCoordinator (url : Host)
  /-- There is no such method. -/
  | unknownMethod (method : String)
  /-- The parameters cannot be read. -/
  | badParams
  /-- The body is no request. -/
  | badRequest
  /-- An announcement names no address. -/
  | noUrl
  deriving DecidableEq, Repr

/-- The text shown for a refusal. -/
def Refusal.message : Refusal → String
  | noStore url => url ++ " holds no data"
  | noCoordinator url => url ++ " has no coordinator"
  | unknownMethod method => "Unknown method: " ++ method
  | badParams => "Failed to deserialize request"
  | badRequest => "Invalid JSON-RPC request"
  | noUrl => "Announcement without a url"

namespace Envelope

/-- The response that refuses a request. -/
def refuse (r : Refusal) : Envelope := failure r.message

/-- The response that carries a node's reply. -/
def ofReply : Reply → Envelope
  | .fault (.notFound what) => absence what
  | .fault f => failure f.message
  | reply => ok (Wire.payload reply)

/-- The response that carries the outcome of an operation. -/
def ofOutcome (outcome : Outcome Reply) : Envelope :=
  match outcome with
  | .done value => ok (Wire.payload value)
  | .degraded value .. => partially (Wire.payload value) (outcome.message?.getD "")
  | .notFound => absence "no replica holds it"
  | .unmet .. => failure (outcome.message?.getD "")

end Envelope

namespace Server

variable {σ : Type}

/-- The status of every response; what went wrong is told in the envelope. -/
def okStatus : Nat := 200

/-- The content type of every response. -/
def contentType : String := "application/json"

/-- The version that a member reports. -/
def version : String := "0.1.0"

/-- A member's view of itself. -/
def status (server : Server σ) (s : σ) : Json :=
  .object [("host", .text server.url), ("node_type", .text server.role.name),
    ("version", .text version), ("ring", .texts (server.ring s))]

/-- Serve a request. -/
def dispatch (server : Server σ) (request : Request) (s : σ) : Envelope × σ :=
  match Method.ofName? request.method with
  | none => (.refuse (.unknownMethod request.method), s)
  | some (.node read?) =>
    match server.node, read? request.params with
    | none, _ => (.refuse (.noStore server.url), s)
    | some _, none => (.refuse .badParams, s)
    | some node, some call =>
      let (reply, s) := node call s
      (.ofReply reply, s)
  | some .status =>
    match Wire.noParams? request.params with
    | none => (.refuse .badParams, s)
    | some _ => (.ok (server.status s), s)
  | some (.coordinate read?) =>
    match server.coordinator, read? request.params with
    | none, _ => (.refuse (.noCoordinator server.url), s)
    | some _, none => (.refuse .badParams, s)
    | some coordinate, some op =>
      let (outcome, s) := coordinate op s
      (.ofOutcome outcome, s)
  | some .gossip =>
    match Wire.hintEvent? request.params, server.gossip with
    | none, _ => (.refuse .badParams, s)
    | some _, none => (.ok (.object [("accepted", .bool false)]), s)
    | some e, some listen => (.ok (.object [("accepted", .bool true)]), listen e s)
  | some .announce =>
    match Wire.announcement? request.params with
    | none => (.refuse .badParams, s)
    | some a =>
      if a.url = "" then (.refuse .noUrl, s)
      else
        let reply : Wire.Acknowledgement := ⟨server.url, server.role, "Announcement received"⟩
        (.ok (Wire.acknowledgement reply), (server.announce.elim s fun listen => listen a s))

/-- Serve the body of a post. -/
def post (server : Server σ) (body : Bytes) (s : σ) : Envelope × σ :=
  match (Json.ofBytes? body).bind Request.ofJson? with
  | none => (.refuse .badRequest, s)
  | some request => server.dispatch request s

end Server

end QuorumStore
