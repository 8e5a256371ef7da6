import QuorumStore.Coordinator.Agreement
import QuorumStore.Coordinator.FieldTable
import QuorumStore.Coordinator.Outcome
import QuorumStore.Repair.Diagnosis
import QuorumStore.Store.Bucketed

/-!
# Verdicts

What the coordinator concludes from the replies to one operation. A verdict
depends on nothing but the replies, in the order in which they arrived, and on
the number of nodes asked. It says what the caller is told, which nodes are from
now on believed to hold the key, and which fields to repair.
-/

namespace QuorumStore

/-- The conclusion from the replies to one operation. -/
structure Verdict (α : Type) where
  /-- What the caller is told. -/
  outcome : Outcome α
  /-- The nodes that confirmed a write, by digest. -/
  confirmed : List UInt32
  /-- The fields to repair. -/
  repairs : List Suspect

namespace Verdict

/-- The conclusion when there was no node to ask. -/
def nobody {α : Type} : Verdict α := ⟨.notFound, [], []⟩

/-- A write needs a quorum of change sets. Change sets that disagree are a
failure, and a failure that does not cost the quorum sends the written fields to
repair. -/
def ofWrite (kind : WriteKind) (key : Key) (members : List FieldValue) (quorum : Quorum)
    (total : Nat) (replies : List Tagged) : Verdict ChangeSet :=
  if total = 0 then nobody
  else
    let gathered := Gathered.ofReplies Reply.changes? kind.name replies
    let agreement := Agreement.ofList (gathered.values.map Prod.snd)
    let confirmed := gathered.values.map Prod.fst
    let returned := confirmed.length
    if quorum.met total returned then
      let faults := gathered.faults ++ agreement.fault?.toList
      if faults.isEmpty then ⟨.done agreement.value, confirmed, []⟩
      else
        ⟨.degraded agreement.value total returned faults, confirmed,
          members.map fun m => ⟨key, m.field, m.value⟩⟩
    else ⟨.short total returned gathered.faults, [], []⟩

/-- A read serves the highest score that a quorum of the nodes asked stands
behind. An absence is an answer. A field that some node lacks, or holds with a
lower score, goes to repair, and so does one whose quorum was not met although a
node holds it. -/
def ofSelect (key : Key) (field : Field) (quorum : Quorum) (total : Nat)
    (replies : List Tagged) : Verdict FieldValue :=
  if total = 0 then nobody
  else
    let gathered := Gathered.ofReplies Reply.record? "select" replies
    let absent := gathered.faults.filter Fault.isNotFound
    let failures := gathered.faults.filter fun f => !f.isNotFound
    let tables := gathered.values.map (fun (_, r) => FieldTable.ofMembers [r])
      ++ absent.map fun _ => FieldTable.empty
    let returned := gathered.values.length
    match (FieldTable.union tables quorum total).get? field with
    | none =>
      ⟨.short total returned (failures ++ absent), [],
        if 0 < returned then [⟨key, field, []⟩] else []⟩
    | some winner =>
      let behind := lagging (gathered.values.map fun (node, r) => (node, r.score)) winner.score
      let missing := FieldTable.difference tables quorum total
      let repairs : List Suspect :=
        if behind.isEmpty && missing.isEmpty && failures.isEmpty then []
        else [⟨key, field, winner.value⟩]
      if failures.isEmpty then ⟨.done winner, [], repairs⟩
      else ⟨.degraded winner total returned failures, [], repairs⟩

/-- The keys of all nodes; every node has to answer. -/
def ofKeys (total : Nat) (replies : List Tagged) : Verdict (List Key) :=
  if total = 0 then nobody
  else
    let gathered := Gathered.ofReplies Reply.keys? "keys" replies
    ⟨.settle .strong total gathered.values.length gathered.faults
      (sortedNames (gathered.values.flatMap Prod.snd)), [], []⟩

/-- The greatest count that a node reports; every node has to answer. -/
def ofSize (total : Nat) (replies : List Tagged) : Verdict Int :=
  if total = 0 then nobody
  else
    let gathered := Gathered.ofReplies Reply.count? "size" replies
    ⟨.settle .strong total gathered.values.length gathered.faults
      ((topScore? (gathered.values.map Prod.snd)).getD 0), [], []⟩

/-- The fields of all nodes; every node has to answer. A field that some of the
nodes that answered list and others do not goes to repair. -/
def ofMembers (key : Key) (total : Nat) (replies : List Tagged) : Verdict (List Field) :=
  if total = 0 then nobody
  else
    let gathered := Gathered.ofReplies Reply.fields? "members" replies
    let lists := gathered.values.map Prod.snd
    let fields := sortedNames lists.flatten
    let uneven := fields.filter fun f => !lists.all (·.contains f)
    ⟨.settle .strong total gathered.values.length gathered.faults fields, [],
      uneven.map fun f => ⟨key, f, []⟩⟩

/-- Whether a snapshot is at least as strong as another: a higher score, or the
same score and a live value if the other is live. -/
def atLeast (p q : Presence) : Bool :=
  decide (q.score < p.score) || (decide (q.score = p.score) && (p.inserted || !q.inserted))

/-- The strongest of the snapshots that know the field, the last of equals; if
none does, the first snapshot. -/
def strongest (presences : List Presence) : Presence :=
  match presences.filter (·.present) with
  | p :: rest => rest.foldl (fun best p => if atLeast p best then p else best) p
  | [] => presences.head?.getD .absent

/-- The strongest snapshot of one field; every node has to answer. -/
def ofScore (total : Nat) (replies : List Tagged) : Verdict Presence :=
  if total = 0 then nobody
  else
    let gathered := Gathered.ofReplies Reply.presence? "score" replies
    ⟨.settle .strong total gathered.values.length gathered.faults
      (strongest (gathered.values.map Prod.snd)), [], []⟩

end Verdict

end QuorumStore
