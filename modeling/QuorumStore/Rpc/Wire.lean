import QuorumStore.Coordinator.Operation
import QuorumStore.Gossip
import QuorumStore.Json.Value

/-!
# Values on the wire

How the values that members exchange are written as JSON, and what is read
back. A structure is an object whose unknown fields are passed over, or a list
of its fields in order. A field that is repeated, missing without a default, or
of the wrong kind is refused, and so is an integer that is out of range or not
written as one. A name of a fixed set may also stand as the only field of an
object, with nothing as its value.
-/

namespace QuorumStore.Wire

/-! ## Parts -/

/-- The value of a field of an object: refused when it is repeated. -/
def fieldOnce (name : String) (fields : List (String × Json)) : Option (Option Json) :=
  match Json.fieldValues name fields with
  | [] => some none
  | [value] => some (some value)
  | _ => none

/-- The fields of a structure in order, each with its value if it has one. The
structure is an object, or a list that leaves out none of the first `least`
fields. -/
def struct? (names : List String) (least : Nat) : Json → Option (List (Option Json))
  | .object fields => names.mapM fun name => fieldOnce name fields
  | .array items =>
    if least ≤ items.length ∧ items.length ≤ names.length then
      some (items.map some ++ List.replicate (names.length - items.length) none)
    else none
  | _ => none

/-- The same value with the last of each repeated field kept. -/
def settleFields : Json → Json
  | .array items => .array (settleItems items)
  | .object fields => .object (settleObject fields)
  | value => value
where
  /-- The items of a list. -/
  settleItems : List Json → List Json
    | [] => []
    | item :: rest => settleFields item :: settleItems rest
  /-- The fields of an object. -/
  settleObject : List (String × Json) → List (String × Json)
    | [] => []
    | (name, value) :: rest =>
      let rest' := settleObject rest
      if rest'.any (·.1 == name) then rest' else (name, settleFields value) :: rest'

/-- An integer between two bounds. -/
def integer? (low high : Int) : Json → Option Int
  | .int n => if low ≤ n ∧ n ≤ high then some n else none
  | _ => none

/-- A score or a count. -/
def score? (j : Json) : Option Int := integer? minScore maxScore j

/-- A digest of a host. -/
def digest? (j : Json) : Option UInt32 :=
  (integer? 0 4294967295 j).map fun n => UInt32.ofNat n.toNat

/-- One octet. -/
def octet? (j : Json) : Option UInt8 := (integer? 0 255 j).map fun n => UInt8.ofNat n.toNat

/-- A byte string, written as the list of its octets. -/
def bytes? (j : Json) : Option Bytes := j.array?.bind fun items => items.mapM octet?

/-- A list of names. -/
def names? (j : Json) : Option (List String) := j.array?.bind fun items => items.mapM Json.text?

/-- A name of a fixed set. -/
def choice? {α : Type} (ofName? : String → Option α) : Json → Option α
  | .text name => ofName? name
  | .object [(name, .null)] => ofName? name
  | _ => none

/-- A quorum. -/
def quorum? : Json → Option Quorum := choice? Quorum.ofName?

/-- A role. -/
def role? : Json → Option Role := choice? Role.ofName?

/-- The octets of a byte string. -/
def bytes (b : Bytes) : Json := .array (b.map fun o => Json.nat o.toNat)

/-! ## Records -/

/-- A field's value with its score; octets that are left out are none. -/
def fieldValue? (j : Json) : Option FieldValue := do
  match ← struct? ["field", "value", "score"] 3 j with
  | [some field, value, some score] =>
    return ⟨← field.text?, ← value.elim (some []) bytes?, ← score? score⟩
  | _ => none

/-- A field's value with its score, written. -/
def fieldValue (v : FieldValue) : Json :=
  .object [("field", .text v.field), ("value", bytes v.value), ("score", .int v.score)]

/-- A list of scored values. -/
def fieldValues? (j : Json) : Option (List FieldValue) :=
  j.array?.bind fun items => items.mapM fieldValue?

/-- A change set. -/
def changeSet? (j : Json) : Option ChangeSet := do
  match ← struct? ["success", "failure"] 2 j with
  | [some success, some failure] => return ⟨← names? success, ← names? failure⟩
  | _ => none

/-- A change set, written. -/
def changeSet (c : ChangeSet) : Json :=
  .object [("success", .texts c.success), ("failure", .texts c.failure)]

/-- A presence. -/
def presence? (j : Json) : Option Presence := do
  match ← struct? ["inserted", "present", "score"] 3 j with
  | [some inserted, some present, some score] =>
    return ⟨← inserted.bool?, ← present.bool?, ← score? score⟩
  | _ => none

/-- A presence, written. -/
def presence (p : Presence) : Json :=
  .object [("inserted", .bool p.inserted), ("present", .bool p.present), ("score", .int p.score)]

/-- What a reply carries, written; a fault carries nothing. -/
def payload : Reply → Json
  | .fault _ => .null
  | .changes c => changeSet c
  | .record r => fieldValue r
  | .keys keys => .texts keys
  | .fields fields => .texts fields
  | .count n => .int n
  | .presence p => presence p

/-- What answers a call, read as the reply that the call asks for. -/
def reply? : Call → Json → Option Reply
  | .insert .., j => (changeSet? j).map .changes
  | .delete .., j => (changeSet? j).map .changes
  | .select .., j => (fieldValue? j).map .record
  | .keys, j => (names? j).map .keys
  | .size .., j => (score? j).map .count
  | .members .., j => (names? j).map .fields
  | .score .., j => (presence? j).map .presence

/-! ## Events -/

/-- A hint on its way. It is marked by its type, and in a list the type comes
first. -/
def hintEvent? (j : Json) : Option HintEvent := do
  match ← struct? ["type", "sender", "peer_hash", "payload"] 4 j with
  | [some (.text "bloom"), some sender, some peer, some payload] =>
    return ⟨← sender.text?, ← digest? peer, ← bytes? payload⟩
  | _ => none

/-- A hint on its way, written. -/
def hintEvent (e : HintEvent) : Json :=
  .object [("type", .text "bloom"), ("sender", .text e.sender),
    ("peer_hash", .nat e.peer.toNat), ("payload", bytes e.payload)]

/-- A member makes itself known. -/
structure Announcement where
  /-- The address of the member. -/
  url : Host
  /-- Its role. -/
  role : Role
  deriving DecidableEq, Repr

/-- An announcement. -/
def announcement? (j : Json) : Option Announcement := do
  match ← struct? ["url", "node_type"] 2 j with
  | [some url, some role] => return ⟨← url.text?, ← role? role⟩
  | _ => none

/-- An announcement, written. -/
def announcement (a : Announcement) : Json :=
  .object [("url", .text a.url), ("node_type", .text a.role.name)]

/-- What a member answers to an announcement. -/
structure Acknowledgement where
  /-- The address of the member that answers. -/
  url : Host
  /-- Its role. -/
  role : Role
  /-- A text for the reader. -/
  message : String
  deriving DecidableEq, Repr

/-- An acknowledgement. -/
def acknowledgement? (j : Json) : Option Acknowledgement := do
  match ← struct? ["url", "node_type", "message"] 3 j with
  | [some url, some role, some message] =>
    return ⟨← url.text?, ← role? role, ← message.text?⟩
  | _ => none

/-- An acknowledgement, written. -/
def acknowledgement (a : Acknowledgement) : Json :=
  .object [("url", .text a.url), ("node_type", .text a.role.name), ("message", .text a.message)]

/-! ## Parameters -/

/-- No parameters. -/
def noParams? (j : Json) : Option Unit := (struct? [] 0 j).map fun _ => ()

/-- A key. -/
def keyParams? (j : Json) : Option Key := do
  match ← struct? ["key"] 1 j with
  | [some key] => key.text?
  | _ => none

/-- A key, written. -/
def keyParams (key : Key) : Json := .object [("key", .text key)]

/-- A key and a field. -/
def fieldParams? (j : Json) : Option (Key × Field) := do
  match ← struct? ["key", "field"] 2 j with
  | [some key, some field] => return (← key.text?, ← field.text?)
  | _ => none

/-- A key and a field, written. -/
def fieldParams (key : Key) (field : Field) : Json :=
  .object [("key", .text key), ("field", .text field)]

/-- A key and members to write. -/
def writeParams? (j : Json) : Option (Key × List FieldValue) := do
  match ← struct? ["key", "members"] 2 j with
  | [some key, some members] => return (← key.text?, ← fieldValues? members)
  | _ => none

/-- A key and members to write, written. -/
def writeParams (key : Key) (members : List FieldValue) : Json :=
  .object [("key", .text key), ("members", .array (members.map fieldValue))]

/-- A quorum that may be left out. -/
def quorumOr? (j : Option Json) : Option Quorum := j.elim (some .consensus) quorum?

/-- A key, members to write, and a quorum. -/
def quorumWrite? (j : Json) : Option (Key × List FieldValue × Quorum) := do
  match ← struct? ["key", "members", "quorum"] 2 j with
  | [some key, some members, quorum] =>
    return (← key.text?, ← fieldValues? members, ← quorumOr? quorum)
  | _ => none

/-- A key, members to write, and a quorum, written. -/
def quorumWrite (key : Key) (members : List FieldValue) (quorum : Quorum) : Json :=
  .object [("key", .text key), ("members", .array (members.map fieldValue)),
    ("quorum", .text quorum.name)]

/-- A key, a field, and a quorum. -/
def quorumSelect? (j : Json) : Option (Key × Field × Quorum) := do
  match ← struct? ["key", "field", "quorum"] 2 j with
  | [some key, some field, quorum] =>
    return (← key.text?, ← field.text?, ← quorumOr? quorum)
  | _ => none

/-- A key, a field, and a quorum, written. -/
def quorumSelect (key : Key) (field : Field) (quorum : Quorum) : Json :=
  .object [("key", .text key), ("field", .text field), ("quorum", .text quorum.name)]

/-- The name of the method that carries a call to a node, and its parameters. -/
def callParams : Call → String × Json
  | .insert key members => ("node/insert", writeParams key members)
  | .delete key members => ("node/delete", writeParams key members)
  | .select key field => ("node/select", fieldParams key field)
  | .keys => ("node/keys", .object [])
  | .size key => ("node/size", keyParams key)
  | .members key => ("node/members", keyParams key)
  | .score key field => ("node/score", fieldParams key field)

end QuorumStore.Wire
