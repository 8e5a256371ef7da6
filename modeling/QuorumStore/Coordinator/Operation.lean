import QuorumStore.Coordinator.Verdict
import QuorumStore.Registry.Selection

/-!
# Operations of the coordinator

Every operation has the same course: the registry chooses the replicas, the call
goes to all of them, and the replies give a verdict. A write that met its quorum
is committed into the hints of the nodes that confirmed it. Repair is not done
here; an operation hands back the fields that it suspects.
-/

namespace QuorumStore

/-- A registry and the replicas that it chooses from. -/
structure Site (σ : Type) where
  /-- The registry of the coordinating member. -/
  registry : Registry
  /-- The replicas. -/
  world : σ

/-- A request to the coordinator. -/
inductive Operation where
  /-- Write values, or delete fields, on a quorum. -/
  | write (kind : WriteKind) (key : Key) (members : List FieldValue) (quorum : Quorum)
  /-- Read one field from a quorum. -/
  | select (key : Key) (field : Field) (quorum : Quorum)
  /-- List the keys. -/
  | keys
  /-- Count the live fields of a key. -/
  | size (key : Key)
  /-- List the live fields of a key. -/
  | members (key : Key)
  /-- Ask what is known about one field. -/
  | score (key : Key) (field : Field)
  deriving DecidableEq, Repr

namespace Site

variable {σ : Type}

/-- Send a call to all hosts of a list. -/
def scatter (site : Site σ) (fleet : Fleet σ) (hosts : List Host) (call : Call) :
    List Tagged × Site σ :=
  let (replies, world) := fleet.scatter hosts call site.world
  (replies, { site with world := world })

/-- Record that nodes hold a key. -/
def commit (site : Site σ) (key : Key) (nodes : List UInt32) : Site σ :=
  { site with registry := (site.registry.commit key nodes).1 }

/-- Write under a key. -/
def write (site : Site σ) (fleet : Fleet σ) (shuffle : List Host → List Host) (kind : WriteKind)
    (key : Key) (members : List FieldValue) (quorum : Quorum) : Verdict ChangeSet × Site σ :=
  let hosts := site.registry.write shuffle key quorum
  let (replies, site) := site.scatter fleet hosts (kind.call key members)
  let verdict := Verdict.ofWrite kind key members quorum hosts.length replies
  (verdict, site.commit key verdict.confirmed)

/-- Read one field. -/
def select (site : Site σ) (fleet : Fleet σ) (shuffle : List Host → List Host) (key : Key)
    (field : Field) (quorum : Quorum) : Verdict FieldValue × Site σ :=
  let hosts := site.registry.read shuffle key quorum
  let (replies, site) := site.scatter fleet hosts (.select key field)
  (Verdict.ofSelect key field quorum hosts.length replies, site)

/-- Ask every replica a call, and judge the replies. -/
def survey {α : Type} (site : Site σ) (fleet : Fleet σ) (shuffle : List Host → List Host)
    (call : Call) (judge : Nat → List Tagged → Verdict α) : Verdict α × Site σ :=
  let hosts := shuffle site.registry.nodes
  let (replies, site) := site.scatter fleet hosts call
  (judge hosts.length replies, site)

/-- What an operation tells its caller, as a reply of the kind it yields, and
the fields that it suspects. -/
structure Report where
  /-- What the caller is told. -/
  outcome : Outcome Reply
  /-- The fields to repair. -/
  repairs : List Suspect

/-- The report of a verdict. -/
def Report.ofVerdict {α : Type} (wrap : α → Reply) (v : Verdict α) : Report :=
  ⟨v.outcome.map wrap, v.repairs⟩

/-- Carry out an operation. -/
def run (site : Site σ) (fleet : Fleet σ) (shuffle : List Host → List Host) :
    Operation → Report × Site σ
  | .write kind key members quorum =>
    let (v, site) := site.write fleet shuffle kind key members quorum
    (.ofVerdict .changes v, site)
  | .select key field quorum =>
    let (v, site) := site.select fleet shuffle key field quorum
    (.ofVerdict .record v, site)
  | .keys =>
    let (v, site) := site.survey fleet shuffle .keys Verdict.ofKeys
    (.ofVerdict .keys v, site)
  | .size key =>
    let (v, site) := site.survey fleet shuffle (.size key) Verdict.ofSize
    (.ofVerdict .count v, site)
  | .members key =>
    let (v, site) := site.survey fleet shuffle (.members key) (Verdict.ofMembers key)
    (.ofVerdict .fields v, site)
  | .score key field =>
    let (v, site) := site.survey fleet shuffle (.score key field) Verdict.ofScore
    (.ofVerdict .presence v, site)

end Site

end QuorumStore
