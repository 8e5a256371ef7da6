import QuorumStore.Registry.State
import QuorumStore.Quorum
import QuorumStore.Settings.Toml.Document

/-!
# Settings

What a member is started with: defaults, replaced by what a TOML document says.
Names that no setting has are passed over. A value of the wrong kind or out of
range is refused with the whole document; whether a member can start with the
values is checked apart, and the first objection counts.
-/

namespace QuorumStore

/-- What a member is started with. -/
structure Settings where
  /-- The role, as it was written. -/
  nodeType : String
  /-- The address to listen on. -/
  rpcHost : String
  /-- The TCP endpoint to listen on. -/
  rpcPort : Nat
  /-- The address under which others reach this member. -/
  selfUrl : Host
  /-- Members to make itself known to at first. -/
  peers : List Host
  /-- How much is logged. -/
  logLevel : String
  /-- The number of ring positions per host. -/
  replicationFactor : Nat
  /-- The number of bits of a hint. -/
  hintCapacity : Nat
  /-- The number of probes of a hint per key. -/
  hintRecursions : Nat
  /-- The number of buckets of the store. -/
  storeBuckets : Nat
  /-- The time between two reconciliations, in milliseconds. -/
  discoveryInterval : Nat
  /-- The time between two broadcasts. -/
  broadcastInterval : Nat
  /-- The time between two announcements. -/
  announceInterval : Nat
  /-- The number of places for repair jobs. -/
  repairCapacity : Nat
  /-- The number of repair workers. -/
  repairWorkers : Nat
  /-- The time that a post may take. -/
  requestTimeout : Nat
  deriving DecidableEq, Repr

namespace Settings

/-- The settings of an empty document. -/
def default : Settings where
  nodeType := "store"
  rpcHost := "127.0.0.1"
  rpcPort := 7650
  selfUrl := "http://127.0.0.1:7650"
  peers := []
  logLevel := "info"
  replicationFactor := 32
  hintCapacity := 65536
  hintRecursions := 4
  storeBuckets := 64
  discoveryInterval := 1000
  broadcastInterval := 500
  announceInterval := 5000
  repairCapacity := 1024
  repairWorkers := 4
  requestTimeout := 10000

/-! ## Reading -/

/-- A text, unless nothing was given. -/
def textOr (given : Option Toml.Value) (usual : String) : Option String :=
  match given with
  | none => some usual
  | some (.text s) => some s
  | some _ => none

/-- A number from zero to a bound, unless nothing was given. -/
def numberOr (bound : Nat) (given : Option Toml.Value) (usual : Nat) : Option Nat :=
  match given with
  | none => some usual
  | some (.integer n) => if 0 ≤ n ∧ n ≤ Int.ofNat bound then some n.toNat else none
  | some _ => none

/-- The text of a value, if it is one. -/
def text? : Toml.Value → Option String
  | .text s => some s
  | _ => none

/-- A list of texts, unless nothing was given. -/
def textsOr (given : Option Toml.Value) (usual : List String) : Option (List String) :=
  match given with
  | none => some usual
  | some (.array items) => items.mapM text?
  | some _ => none

/-- The greatest number of a TCP endpoint. -/
def maxPort : Nat := 65535

/-- The greatest integer that a document can write. -/
def maxCount : Nat := 9223372036854775807

/-- The settings that a document's table gives. -/
def ofEntries (entries : Toml.Entries) : Option Settings := do
  let given := fun name => entries.lookup name
  let count := fun name usual => numberOr maxCount (given name) usual
  return {
    nodeType := ← textOr (given "node_type") default.nodeType
    rpcHost := ← textOr (given "rpc_host") default.rpcHost
    rpcPort := ← numberOr maxPort (given "rpc_port") default.rpcPort
    selfUrl := ← textOr (given "self_url") default.selfUrl
    peers := ← textsOr (given "peers") default.peers
    logLevel := ← textOr (given "log_level") default.logLevel
    replicationFactor := ← count "replication_factor" default.replicationFactor
    hintCapacity := ← count "hint_capacity" default.hintCapacity
    hintRecursions := ← count "hint_recursions" default.hintRecursions
    storeBuckets := ← count "store_buckets" default.storeBuckets
    discoveryInterval := ← count "discovery_interval_ms" default.discoveryInterval
    broadcastInterval := ← count "broadcast_interval_ms" default.broadcastInterval
    announceInterval := ← count "announce_interval_ms" default.announceInterval
    repairCapacity := ← count "repair_queue_capacity" default.repairCapacity
    repairWorkers := ← count "repair_workers" default.repairWorkers
    requestTimeout := ← count "request_timeout_ms" default.requestTimeout }

/-- The settings that a document gives, if it is one. -/
def parse? (document : String) : Option Settings := (Toml.parse? document).bind ofEntries

/-! ## Checking -/

/-- Why a member cannot start. -/
inductive Objection where
  /-- There is no such role. -/
  | unknownRole (nodeType : String)
  /-- A number has to be positive. -/
  | zero (name : String)
  /-- A hint has too few bits. -/
  | smallHint
  /-- The address is no web address. -/
  | badUrl (url : String)
  deriving DecidableEq, Repr

/-- The text shown for an objection. -/
def Objection.message : Objection → String
  | unknownRole nodeType => s!"Invalid config: unknown node_type '{nodeType}'"
  | zero name => s!"Invalid config: {name} must be > 0"
  | smallHint => "Invalid config: hint_capacity must be >= 64"
  | badUrl url => s!"Invalid config: self_url '{url}' must be an http(s) URL"

/-- The role of the member. -/
def role (s : Settings) : Except Objection Role :=
  match Role.ofName? (lowerAscii s.nodeType) with
  | some role => .ok role
  | none => .error (.unknownRole s.nodeType)

/-- The numbers that have to be positive, in the order in which they are checked. -/
def positives (s : Settings) : List (String × Nat) :=
  [("replication_factor", s.replicationFactor), ("hint_capacity", s.hintCapacity),
    ("hint_recursions", s.hintRecursions), ("store_buckets", s.storeBuckets),
    ("discovery_interval_ms", s.discoveryInterval),
    ("broadcast_interval_ms", s.broadcastInterval),
    ("announce_interval_ms", s.announceInterval),
    ("repair_queue_capacity", s.repairCapacity), ("repair_workers", s.repairWorkers),
    ("request_timeout_ms", s.requestTimeout)]

/-- Whether a member can start. -/
def validate (s : Settings) : Except Objection Unit :=
  match s.role with
  | .error objection => .error objection
  | .ok _ =>
    match s.positives.find? fun p => p.2 = 0 with
    | some (name, _) => .error (.zero name)
    | none =>
      if s.hintCapacity < 64 then .error .smallHint
      else if !s.selfUrl.startsWith "http://" && !s.selfUrl.startsWith "https://" then
        .error (.badUrl s.selfUrl)
      else .ok ()

/-- The parameters of the member's registry. -/
def params (s : Settings) : ClusterParams :=
  ⟨s.replicationFactor, UInt64.ofNat s.hintCapacity, UInt64.ofNat s.hintRecursions⟩

end Settings

end QuorumStore
