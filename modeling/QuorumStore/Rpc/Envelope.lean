import QuorumStore.Rpc.Wire

/-!
# Envelopes

A request names a method and its parameters. A response carries a result or an
error, says whether the error is an absence, and whether a result came in spite
of failures. Opening a response gives the result or the fault that it stands
for; an absence counts before anything else.
-/

namespace QuorumStore

/-- A request. -/
structure Request where
  /-- The method. -/
  method : String
  /-- The parameters. -/
  params : Json

namespace Request

/-- Read a request. The parameters may be any value, but have to be there. -/
def ofJson? (j : Json) : Option Request := do
  match ← Wire.struct? ["method", "params"] 2 j with
  | [some method, some params] => return ⟨← method.text?, Wire.settleFields params⟩
  | _ => none

/-- A request, written. -/
def toJson (r : Request) : Json := .object [("method", .text r.method), ("params", r.params)]

end Request

/-- A response. -/
structure Envelope where
  /-- Whether there is a result. -/
  success : Bool
  /-- The result. -/
  result : Option Json
  /-- The error, or the failures behind a degraded result. -/
  error : Option String
  /-- The error is an absence. -/
  notFound : Bool
  /-- The result came in spite of failures. -/
  degraded : Bool

namespace Envelope

/-- A result. -/
def ok (result : Json) : Envelope := ⟨true, some result, none, false, false⟩

/-- An error. -/
def failure (message : String) : Envelope := ⟨false, none, some message, false, false⟩

/-- An absence. -/
def absence (what : String) : Envelope := ⟨false, none, some what, true, false⟩

/-- A result with the failures behind it. -/
def partially (result : Json) (message : String) : Envelope :=
  ⟨true, some result, some message, false, true⟩

/-- A value that may be missing or nothing. -/
def present? : Option Json → Option Json
  | some .null => none
  | j => j

/-- A flag that may be left out. -/
def flag? (j : Option Json) : Option Bool := j.elim (some false) Json.bool?

/-- A text that may be missing or nothing. -/
def message? (j : Option Json) : Option (Option String) :=
  match present? j with
  | none => some none
  | some j => j.text?.map some

/-- Read a response. -/
def ofJson? (j : Json) : Option Envelope := do
  match ← Wire.struct? ["success", "result", "error", "not_found", "partial"] 3 j with
  | [some success, result, error, notFound, degraded] =>
    return ⟨← success.bool?, (present? result).map Wire.settleFields, ← message? error,
      ← flag? notFound, ← flag? degraded⟩
  | _ => none

/-- A response, written. -/
def toJson (e : Envelope) : Json :=
  .object [("success", .bool e.success), ("result", e.result.getD .null),
    ("error", e.error.elim .null .text), ("not_found", .bool e.notFound),
    ("partial", .bool e.degraded)]

/-- What a response from a host stands for, its result read by `read?`. A
result that cannot be read is a fault of its own. -/
def openWith {α : Type} (host : Host) (read? : Json → Option α) (e : Envelope) : Except Fault α :=
  if e.notFound then .error (.notFound (e.error.getD ""))
  else if e.success then
    match read? (e.result.getD .null) with
    | some value => .ok value
    | none => .error (.serialization "unreadable result")
  else .error (.node (host ++ ": " ++ e.error.getD "unknown error"))

end Envelope

end QuorumStore
