import Mathlib.Tactic.SplitIfs
import QuorumStore.Rpc.Member

/-!
# Serving a request

Serving a request comes to one of four things: it is refused, the store replies, an operation
has an outcome, or the member answers for itself. So the parts of every envelope fit together,
whatever a member has and whatever it is asked, and a request that cannot be read changes
nothing.
-/

namespace QuorumStore

/-! ## Envelopes whose parts fit together -/

namespace Envelope

/-- The parts of an envelope fit together. -/
structure WellFormed (e : Envelope) : Prop where
  /-- A success has a result and is no absence. -/
  of_success : e.success = true → e.result.isSome = true ∧ e.notFound = false
  /-- A failure has no result, says what went wrong, and is not degraded. -/
  of_failure : e.success = false → e.result = none ∧ e.error.isSome = true ∧ e.degraded = false
  /-- A degraded result is a success that says what failed. -/
  of_degraded : e.degraded = true → e.success = true ∧ e.error.isSome = true

theorem wellFormed_ok (result : Json) : (ok result).WellFormed :=
  ⟨fun _ => ⟨rfl, rfl⟩, nofun, nofun⟩

theorem wellFormed_failure (message : String) : (failure message).WellFormed :=
  ⟨nofun, fun _ => ⟨rfl, rfl, rfl⟩, nofun⟩

theorem wellFormed_absence (what : String) : (absence what).WellFormed :=
  ⟨nofun, fun _ => ⟨rfl, rfl, rfl⟩, nofun⟩

theorem wellFormed_partially (result : Json) (message : String) :
    (partially result message).WellFormed :=
  ⟨fun _ => ⟨rfl, rfl⟩, nofun, fun _ => ⟨rfl, rfl⟩⟩

theorem wellFormed_ofReply (reply : Reply) : (ofReply reply).WellFormed := by
  cases reply with
  | fault f =>
    cases f with
    | notFound what => exact wellFormed_absence what
    | _ => exact wellFormed_failure _
  | _ => exact wellFormed_ok _

theorem wellFormed_ofOutcome (outcome : Outcome Reply) : (ofOutcome outcome).WellFormed := by
  cases outcome with
  | done value => exact wellFormed_ok _
  | degraded value total returned faults => exact wellFormed_partially _ _
  | notFound => exact wellFormed_absence _
  | unmet total returned faults => exact wellFormed_failure _

end Envelope

/-! ## Requests that can be read -/

/-- Whether a method can read parameters. -/
def Method.reads : Method → Json → Bool
  | .node read?, params => (read? params).isSome
  | .status, params => (Wire.noParams? params).isSome
  | .coordinate read?, params => (read? params).isSome
  | .gossip, params => (Wire.hintEvent? params).isSome
  | .announce, params => (Wire.announcement? params).isSome

namespace Request

/-- Whether the method of a request is known and can read its parameters. -/
def readable (request : Request) : Bool :=
  (Method.ofName? request.method).any (·.reads request.params)

/-- The operation of the coordinator that a request asks for. -/
def operation? (request : Request) : Option Operation :=
  match Method.ofName? request.method with
  | some (.coordinate read?) => read? request.params
  | _ => none

end Request

/-! ## What serving a request can do -/

namespace Server

variable {σ : Type} {server : Server σ} {request : Request} {s : σ}

/-- All that serving a request can do. -/
inductive Served (server : Server σ) (request : Request) (s : σ) : Envelope × σ → Prop where
  /-- The request is refused, and nothing is done. -/
  | refused (why : Refusal) : Served server request s (.refuse why, s)
  /-- The member's store replies to a call. -/
  | replied (reads : request.readable = true) (reply : Reply) (s' : σ) :
      Served server request s (.ofReply reply, s')
  /-- An operation of the member's coordinator has an outcome. -/
  | told (reads : request.readable = true) {coordinate : Operation → σ → Outcome Reply × σ}
      {op : Operation} (has : server.coordinator = some coordinate)
      (asks : request.operation? = some op) :
      Served server request s (.ofOutcome (coordinate op s).1, (coordinate op s).2)
  /-- The member answers for itself. -/
  | granted (reads : request.readable = true) (result : Json) (s' : σ) :
      Served server request s (.ok result, s')

theorem served_dispatch (server : Server σ) (request : Request) (s : σ) :
    server.Served request s (server.dispatch request s) := by
  unfold dispatch
  cases hmethod : Method.ofName? request.method with
  | none => exact .refused _
  | some method =>
    have hreads (h : method.reads request.params = true) : request.readable = true := by
      rw [Request.readable, hmethod]
      exact h
    cases method with
    | node read? =>
      dsimp only
      cases hnode : server.node with
      | none => exact .refused _
      | some node =>
        cases hread : read? request.params with
        | none => exact .refused _
        | some call => exact .replied (hreads (Option.isSome_of_eq_some hread)) _ _
    | status =>
      dsimp only
      cases hread : Wire.noParams? request.params with
      | none => exact .refused _
      | some _ => exact .granted (hreads (Option.isSome_of_eq_some hread)) _ _
    | coordinate read? =>
      dsimp only
      cases hhas : server.coordinator with
      | none => exact .refused _
      | some coordinate =>
        cases hread : read? request.params with
        | none => exact .refused _
        | some op =>
          refine .told (hreads (Option.isSome_of_eq_some hread)) hhas ?_
          rw [Request.operation?, hmethod]
          exact hread
    | gossip =>
      dsimp only
      cases hread : Wire.hintEvent? request.params with
      | none => exact .refused _
      | some e =>
        have hreadable := hreads (Option.isSome_of_eq_some hread)
        cases server.gossip with
        | none => exact .granted hreadable _ _
        | some listen => exact .granted hreadable _ _
    | announce =>
      dsimp only
      cases hread : Wire.announcement? request.params with
      | none => exact .refused _
      | some a =>
        dsimp only
        split_ifs
        · exact .refused _
        · exact .granted (hreads (Option.isSome_of_eq_some hread)) _ _

/-- Whatever is asked, the parts of the envelope fit together. -/
theorem wellFormed_dispatch (server : Server σ) (request : Request) (s : σ) :
    (server.dispatch request s).1.WellFormed := by
  obtain hserved := server.served_dispatch request s
  generalize server.dispatch request s = served at hserved
  cases hserved with
  | refused why => exact Envelope.wellFormed_failure _
  | replied reads reply s' => exact Envelope.wellFormed_ofReply reply
  | told reads has asks => exact Envelope.wellFormed_ofOutcome _
  | granted reads result s' => exact Envelope.wellFormed_ok result

/-- A request that cannot be read is refused, and changes nothing. -/
theorem dispatch_of_unreadable (h : request.readable = false) :
    (∃ why, (server.dispatch request s).1 = .refuse why) ∧ (server.dispatch request s).2 = s := by
  obtain hserved := server.served_dispatch request s
  generalize server.dispatch request s = served at hserved
  cases hserved with
  | refused why => exact ⟨⟨why, rfl⟩, rfl⟩
  | replied reads | told reads | granted reads =>
    rw [h] at reads
    cases reads

/-- An operation that is asked for of a coordinator is carried out, and its outcome told. -/
theorem dispatch_of_operation {coordinate : Operation → σ → Outcome Reply × σ} {op : Operation}
    (has : server.coordinator = some coordinate) (asks : request.operation? = some op) :
    server.dispatch request s = (.ofOutcome (coordinate op s).1, (coordinate op s).2) := by
  unfold Request.operation? at asks
  unfold dispatch
  split at asks
  · next read? hmethod => simp only [hmethod, has, asks]
  · cases asks

end Server

end QuorumStore
