import Mathlib.Tactic.SplitIfs
import QuorumStore.Registry.Sharing

/-!
# What comes of shipments

Shipments are sent in turn, each in the world that those before it have left, whatever
came of these. What is delivered is marked as sent and counted, and what is not is told
with its fault. So all that sending does to the registry, to the world and to its caller
is read off the attempts and off what they deliver.
-/

namespace QuorumStore

/-- An event that was dispatched, and what came of it. -/
structure Dispatched where
  /-- The event. -/
  event : HintEvent
  /-- What came of it. -/
  outcome : Except Fault Unit

/-- The hint that could not be sent, if the dispatch failed. -/
def Dispatched.undelivered (d : Dispatched) : Option Undelivered :=
  match d.outcome with
  | .ok _ => none
  | .error fault => some ⟨d.event.peer, fault⟩

theorem Dispatched.undelivered_eq_none_iff {d : Dispatched} :
    d.undelivered = none ↔ d.outcome.isOk = true := by
  unfold Dispatched.undelivered
  cases d.outcome with
  | ok _ => exact iff_of_true rfl rfl
  | error fault => exact iff_of_false (Option.some_ne_none _) Bool.false_ne_true

namespace Registry

/-- A shipment that was sent, and what came of it. -/
structure Attempt where
  /-- The shipment. -/
  shipment : Shipment
  /-- What came of it. -/
  outcome : Except Fault Unit

/-- What is written down of an attempt. -/
def Attempt.logged (event : Shipment → HintEvent) (a : Attempt) : Dispatched :=
  ⟨event a.shipment, a.outcome⟩

variable {σ : Type} (dispatch : HintEvent → σ → Except Fault Unit × σ)

/-- What comes of shipments that are sent in turn. -/
def attempts (event : Shipment → HintEvent) : List Shipment → σ → List Attempt
  | [], _ => []
  | s :: rest, world =>
    ⟨s, (dispatch (event s) world).1⟩ :: attempts event rest (dispatch (event s) world).2

/-- What is written down when shipments are sent in turn. -/
def log (event : Shipment → HintEvent) (shipments : List Shipment) (world : σ) : List Dispatched :=
  (attempts dispatch event shipments world).map (Attempt.logged event)

/-- The shipments that are delivered when they are sent in turn. -/
def delivered (shipments : List Shipment) (r : Registry) (world : σ) : List Shipment :=
  ((attempts dispatch r.event shipments world).filter (·.outcome.isOk)).map Attempt.shipment

/-- The world that events leave which are dispatched in turn. -/
def worldAfter (events : List HintEvent) (world : σ) : σ :=
  events.foldl (fun world e => (dispatch e world).2) world

/-- Sending shipments marks those that are delivered and counts them, tells of the others,
and leaves the world that the dispatches leave. -/
theorem ship_eq (shipments : List Shipment) (r : Registry) (world : σ) :
    ship dispatch shipments r world
      = (⟨(delivered dispatch shipments r world).length,
          (log dispatch r.event shipments world).filterMap Dispatched.undelivered⟩,
        (delivered dispatch shipments r world).foldl markSent r,
        worldAfter dispatch (shipments.map r.event) world) := by
  induction shipments generalizing r world with
  | nil => rfl
  | cons s rest ih =>
    -- to mark a hint as sent leaves the sender that the next events name
    have hevent : (r.markSent s).event = r.event := rfl
    unfold delivered log at ih ⊢
    rw [ship, attempts, worldAfter, List.map_cons, List.map_cons, List.foldl_cons]
    rcases dispatch (r.event s) world with ⟨fault | _, after⟩
    · dsimp only
      rw [ih]
      rfl
    · dsimp only
      rw [ih, hevent]
      rfl

variable {dispatch} in
theorem delivered_cons {s : Shipment} {rest : List Shipment} {r : Registry} {world after : σ}
    {outcome : Except Fault Unit} (h : dispatch (r.event s) world = (outcome, after)) :
    delivered dispatch (s :: rest) r world
      = if outcome.isOk then s :: delivered dispatch rest r after
        else delivered dispatch rest r after := by
  unfold delivered
  rw [attempts, h, List.filter_cons]
  dsimp only
  split_ifs <;> rfl

/-- Every shipment is sent, in turn. -/
theorem map_shipment_attempts (event : Shipment → HintEvent) (shipments : List Shipment)
    (world : σ) :
    (attempts dispatch event shipments world).map Attempt.shipment = shipments := by
  induction shipments generalizing world with
  | nil => rfl
  | cons s rest ih => exact congrArg (s :: ·) (ih _)

/-- Only what is sent is delivered, and at most as often. -/
theorem delivered_sublist (shipments : List Shipment) (r : Registry) (world : σ) :
    (delivered dispatch shipments r world).Sublist shipments := by
  have hsome : (delivered dispatch shipments r world).Sublist
      ((attempts dispatch r.event shipments world).map Attempt.shipment) :=
    List.filter_sublist.map Attempt.shipment
  rwa [map_shipment_attempts] at hsome

/-! ## Marking what was delivered -/

/-- The latest clock among the shipments about a peer. -/
def latest : List Shipment → UInt32 → Nat
  | [], _ => 0
  | shipment :: rest, peer =>
    if shipment.peer = peer then max shipment.clock (latest rest peer) else latest rest peer

theorem le_latest {shipments : List Shipment} {shipment : Shipment} (hm : shipment ∈ shipments) :
    shipment.clock ≤ latest shipments shipment.peer := by
  induction shipments with
  | nil => cases hm
  | cons first rest ih =>
    rw [latest]
    rcases List.mem_cons.1 hm with rfl | hm
    · rw [if_pos rfl]
      exact Nat.le_max_left _ _
    · have hrest := ih hm
      split_ifs
      · exact Nat.le_trans hrest (Nat.le_max_right _ _)
      · exact hrest

theorem latest_le {shipments : List Shipment} {peer : UInt32} {clock : Nat}
    (h : ∀ shipment ∈ shipments, shipment.peer = peer → shipment.clock ≤ clock) :
    latest shipments peer ≤ clock := by
  induction shipments with
  | nil => exact Nat.zero_le clock
  | cons first rest ih =>
    have hrest := ih fun shipment hm => h shipment (List.mem_cons_of_mem first hm)
    rw [latest]
    split_ifs with he
    · exact Nat.max_le.2 ⟨h first List.mem_cons_self he, hrest⟩
    · exact hrest

/-- Marking shipments as sent moves each peer to the latest clock sent for it. -/
theorem getElem?_foldl_markSent (shipments : List Shipment) (r : Registry) (peer : UInt32) :
    (shipments.foldl markSent r).peers[peer]?
      = r.peers[peer]?.map (·.sentAt (latest shipments peer)) := by
  induction shipments generalizing r with
  | nil =>
    have hsame (p : Peer) : p.sentAt 0 = p := by
      rw [Peer.sentAt, Nat.max_zero]
    simp only [List.foldl_nil, latest, hsame, Option.map_id']
  | cons first rest ih =>
    rw [List.foldl_cons, ih, markSent, getElem?_modifyPeer, latest]
    split_ifs with he
    · rw [Option.map_map]
      congr 1
      funext p
      exact congrArg (fun shared => { p with shared := shared }) (Nat.max_assoc _ _ _)
    · rfl

/-- Marking shipments as sent leaves all that is not about a peer. -/
theorem foldl_markSent_frame (shipments : List Shipment) (r : Registry) :
    (shipments.foldl markSent r).host = r.host ∧ (shipments.foldl markSent r).ring = r.ring ∧
      (shipments.foldl markSent r).config = r.config ∧
      (shipments.foldl markSent r).listener = r.listener := by
  induction shipments generalizing r with
  | nil => exact ⟨rfl, rfl, rfl, rfl⟩
  | cons first rest ih => exact ih (r.markSent first)

end Registry

end QuorumStore
