import QuorumStore.Coordinator.Operation

/-!
# Repair passes

A pass looks at suspected fields one by one: it asks every replica for its
snapshot, and where enough of them know the field it takes the winning state,
with the value as one of the winners serves it. It then writes the winners of
each key to every replica, at the score after the winning one, so that each
replica accepts them. Failures are collected and the pass goes on; only a score
without a successor ends it.
-/

namespace QuorumStore

/-- What went wrong during a pass. -/
inductive RepairFault where
  /-- A node reported a fault, or the value could not be had. -/
  | fault (fault : Fault)
  /-- A node answered the wrong kind. -/
  | unexpected (kind stage : String)
  deriving DecidableEq, Repr

/-- The text shown for what went wrong. -/
def RepairFault.message : RepairFault → String
  | fault f => f.message
  | unexpected kind stage => "unexpected " ++ kind ++ " reply to " ++ stage

/-- The counts of a pass. -/
structure RepairCounts where
  /-- The items looked at. -/
  examined : Nat
  /-- The items that no replica knows. -/
  ignored : Nat
  /-- The items that too few replicas know. -/
  belowQuorum : Nat
  /-- The values written. -/
  inserts : Nat
  /-- The deletions written. -/
  deletes : Nat
  deriving DecidableEq, Repr

/-- What a pass writes under one key. -/
structure Corrections where
  /-- The values, in the order of their items. -/
  inserts : List FieldValue
  /-- The deletions, in the order of their items. -/
  deletes : List FieldValue
  deriving DecidableEq, Repr

/-- Sort the replies to a repair call into answers and failures. -/
def RepairFault.sort {α : Type} (want : Reply → Option α) (stage : String) :
    List Tagged → List (UInt32 × α) × List RepairFault
  | [] => ([], [])
  | (node, reply) :: rest =>
    let (values, faults) := sort want stage rest
    match want reply, reply with
    | some value, _ => ((node, value) :: values, faults)
    | none, .fault f => (values, .fault f :: faults)
    | none, reply => (values, .unexpected reply.kind stage :: faults)

/-- The score after a given one; the greatest has none. -/
def nextScore? (score : Int) : Option Int := if score < maxScore then some (score + 1) else none

namespace Site

variable {σ : Type}

/-- The value that a reply serves. -/
def served : Reply → Except Fault Bytes
  | .record r => .ok r.value
  | .fault f => .error f
  | reply => .error (.node ("unexpected " ++ reply.kind ++ " reply to select"))

/-- Ask one winner for the value. -/
def askWinner (site : Site σ) (fleet : Fleet σ) (key : Key) (field : Field) (host : Host) :
    Except Fault Bytes × Site σ :=
  let (reply, world) := fleet.first host (.select key field) site.world
  (served reply, { site with world := world })

/-- Ask the winners in turn for the value until one serves it. The last failure
counts when none does. -/
def fetchValue (site : Site σ) (fleet : Fleet σ) (key : Key) (field : Field)
    (winners : List Host) (last : Fault) : Except Fault Bytes × Site σ :=
  match winners with
  | [] => (.error last, site)
  | host :: rest =>
    match site.askWinner fleet key field host with
    | (.ok value, site) => (.ok value, site)
    | (.error f, site) => site.fetchValue fleet key field rest f

/-- The fault when there is no winner to ask. -/
def noServer (key : Key) (field : Field) : Fault :=
  .node ("no replica serves " ++ key ++ "/" ++ field)

/-- What a pass knows about one item. -/
structure Finding where
  /-- The diagnosis. -/
  diagnosis : Diagnosis
  /-- The hosts that reported the winning state, in order of arrival. -/
  winners : List Host
  /-- What went wrong. -/
  faults : List RepairFault

/-- Ask every replica about an item. -/
def investigate (site : Site σ) (fleet : Fleet σ) (shuffle : List Host → List Host)
    (item : Suspect) : Finding × Site σ :=
  let hosts := site.registry.read shuffle item.key .strong
  let (replies, site) := site.scatter fleet hosts (.score item.key item.field)
  let (answers, faults) := RepairFault.sort Reply.presence? "score" replies
  let diagnosis := Diagnosis.ofPresences item hosts.length (answers.map Prod.snd)
  let winners := answers.filterMap fun (node, p) =>
    if diagnosis.isWinner p then hosts.find? fun host => Registry.digest host = node else none
  (⟨diagnosis, winners, faults⟩, site)

/-- What a pass does about one item. -/
inductive Decision where
  /-- No replica knows the field. -/
  | ignore
  /-- Too few replicas know the field. -/
  | belowQuorum
  /-- The winning value is written. -/
  | insert (member : FieldValue)
  /-- The deletion is written. -/
  | delete (member : FieldValue)
  /-- The winning value could not be had. -/
  | lost (fault : Fault)
  deriving DecidableEq, Repr

/-- The decision that a diagnosis calls for, given what came of fetching the
winning value. A value is fetched before its score is computed. -/
def conclude (diagnosis : Diagnosis) (value : Except Fault Bytes) : Except Abort Decision :=
  if diagnosis.ignore then .ok .ignore
  else if !diagnosis.quorum then .ok .belowQuorum
  else if diagnosis.insert then
    match value, nextScore? diagnosis.score with
    | .error f, _ => .ok (.lost f)
    | .ok value, some score => .ok (.insert ⟨diagnosis.field, value, score⟩)
    | .ok _, none => .error .scoreOverflow
  else
    match nextScore? diagnosis.score with
    | some score => .ok (.delete ⟨diagnosis.field, [], score⟩)
    | none => .error .scoreOverflow

/-- Decide about one item. -/
def decideItem (site : Site σ) (fleet : Fleet σ) (shuffle : List Host → List Host)
    (item : Suspect) : Except Abort (Decision × List RepairFault) × Site σ :=
  let (finding, site) := site.investigate fleet shuffle item
  let (value, site) :=
    if finding.diagnosis.needsValue then
      site.fetchValue fleet item.key item.field finding.winners (noServer item.key item.field)
    else (.ok [], site)
  ((conclude finding.diagnosis value).map fun decision => (decision, finding.faults), site)

/-! ## The course of a pass -/

/-- What a pass has decided so far. -/
structure Plan where
  /-- The items looked at. -/
  examined : Nat
  /-- The items that no replica knows. -/
  ignored : Nat
  /-- The items that too few replicas know. -/
  belowQuorum : Nat
  /-- What to write, by key. -/
  corrections : Std.TreeMap Key Corrections
  /-- What went wrong, in order. -/
  faults : List RepairFault

/-- Nothing decided. -/
def Plan.empty : Plan := ⟨0, 0, 0, ∅, []⟩

/-- Change what to write under a key. -/
def Plan.alter (plan : Plan) (key : Key) (f : Corrections → Corrections) : Plan :=
  let before := (plan.corrections[key]?).getD ⟨[], []⟩
  { plan with corrections := plan.corrections.insert key (f before) }

/-- Take a decision into the plan. -/
def Plan.take (plan : Plan) (key : Key) (decision : Decision) (faults : List RepairFault) : Plan :=
  let plan := { plan with examined := plan.examined + 1, faults := plan.faults ++ faults }
  match decision with
  | .ignore => { plan with ignored := plan.ignored + 1 }
  | .belowQuorum => { plan with belowQuorum := plan.belowQuorum + 1 }
  | .insert m => plan.alter key fun w => { w with inserts := w.inserts ++ [m] }
  | .delete m => plan.alter key fun w => { w with deletes := w.deletes ++ [m] }
  | .lost f => { plan with faults := plan.faults ++ [.fault f] }

/-- Decide about items in turn; the hosts are shuffled for each of them. -/
def decideAll (site : Site σ) (fleet : Fleet σ) (shuffles : Shuffles) (plan : Plan)
    (items : List Suspect) : Except Abort Plan × Site σ :=
  match items with
  | [] => (.ok plan, site)
  | item :: rest =>
    match site.decideItem fleet (shuffles 0) item with
    | (.error abort, site) => (.error abort, site)
    | (.ok (decision, faults), site) =>
      site.decideAll fleet (shuffles.after 1) (plan.take item.key decision faults) rest

/-- One write of a pass. -/
structure Correction where
  /-- Whether values or deletions are written. -/
  kind : WriteKind
  /-- The key. -/
  key : Key
  /-- What is written under it. -/
  members : List FieldValue
  deriving DecidableEq, Repr

/-- Send a correction to every replica of its key. The answer names the nodes that
took values. -/
def send (site : Site σ) (fleet : Fleet σ) (shuffle : List Host → List Host) (c : Correction) :
    (List UInt32 × List RepairFault) × Site σ :=
  let hosts := site.registry.write shuffle c.key .strong
  let (replies, site) := site.scatter fleet hosts (c.kind.call c.key c.members)
  let (answers, faults) := RepairFault.sort Reply.changes? "repair write" replies
  match c.kind with
  | .insert => ((answers.map Prod.fst, faults), site)
  | .delete => (([], faults), site)

/-- Make a correction. Nodes that took values are recorded as holding the key. -/
def correct (site : Site σ) (fleet : Fleet σ) (shuffle : List Host → List Host)
    (c : Correction) : List RepairFault × Site σ :=
  let ((holders, faults), site) := site.send fleet shuffle c
  (faults, site.commit c.key holders)

/-- What a plan writes: key by key, values before deletions. -/
def Plan.writes (plan : Plan) : List Correction :=
  let all := plan.corrections.toList.flatMap fun (key, c) =>
    [⟨.insert, key, c.inserts⟩, ⟨.delete, key, c.deletes⟩]
  all.filter fun c => !c.members.isEmpty

/-- Make corrections in turn; the hosts are shuffled for each of them. -/
def correctAll (site : Site σ) (fleet : Fleet σ) (shuffles : Shuffles) :
    List Correction → List RepairFault × Site σ
  | [] => ([], site)
  | c :: rest =>
    let (first, site) := site.correct fleet (shuffles 0) c
    let (others, site) := site.correctAll fleet (shuffles.after 1) rest
    (first ++ others, site)

/-- The counts of a plan that was carried out. -/
def Plan.report (plan : Plan) : RepairCounts :=
  let corrections := plan.corrections.values
  ⟨plan.examined, plan.ignored, plan.belowQuorum, (corrections.flatMap (·.inserts)).length,
    (corrections.flatMap (·.deletes)).length⟩

/-- Write what a plan says. The answer is the counts, unless anything went wrong
by now. -/
def carryOut (site : Site σ) (fleet : Fleet σ) (shuffles : Shuffles) (plan : Plan) :
    Except Fault RepairCounts × Site σ :=
  let (faults, site) := site.correctAll fleet shuffles plan.writes
  let faults := plan.faults ++ faults
  if faults.isEmpty then (.ok plan.report, site)
  else
    let detail := String.intercalate "; " (faults.map RepairFault.message)
    (.error (.node detail), site)

/-- Repair items: decide about all of them, then write. -/
def repair (site : Site σ) (fleet : Fleet σ) (shuffles : Shuffles) (items : List Suspect) :
    Except Abort (Except Fault RepairCounts) × Site σ :=
  match site.decideAll fleet shuffles .empty items with
  | (.error abort, site) => (.error abort, site)
  | (.ok plan, site) =>
    let (result, site) := site.carryOut fleet (shuffles.after items.length) plan
    (.ok result, site)

end Site

end QuorumStore
