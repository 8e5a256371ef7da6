import QuorumStore.Repair.Pass

/-!
# Passes by turns

A pass that runs beside others, one call at a time. Between two calls it waits
for the replies to the first, and meanwhile the others take their turns; so what
it finds and writes depends on when its turns come. That is a matter of time,
and at one time of hops: a reply reaches a worker that asked one host in one
hop, while the replies of several hosts are gathered in between, and a host that
has more than one to send waits until the one before has been passed on.
-/

namespace QuorumStore

/-- How the replies to a call come in. -/
structure Pause where
  /-- How long the last of them takes to arrive. -/
  latency : Nat
  /-- The hops from then to the worker. -/
  hops : Nat
  deriving DecidableEq, Repr

namespace Pause

/-- The pause of two that is over later. -/
def later (a b : Pause) : Pause :=
  if a.latency < b.latency || (a.latency == b.latency && a.hops < b.hops) then b else a

/-- The pause until a number of replies of one host are gathered: two hops for
each, and for the close of a host that has none. A host that answers at once
saves the first. -/
def gathered (latency replies : Nat) : Pause :=
  ⟨latency, if latency = 0 then 2 * max 1 replies - 1 else 2 * max 1 replies⟩

end Pause

namespace Fleet

variable {σ : Type}

/-- The pause until all replies of several hosts to a call are gathered. -/
def gathering (fleet : Fleet σ) (hosts : List Host) (call : Call) (s : σ) : Pause :=
  (fleet.contact call hosts s).1.foldl
    (fun pause (host, replies) => pause.later (.gathered (fleet.latency s host) replies.length))
    ⟨0, 0⟩

/-- The pause for the first reply of one host. -/
def asking (fleet : Fleet σ) (host : Host) (s : σ) : Pause := ⟨fleet.latency s host, 1⟩

end Fleet

namespace Site

variable {σ : Type}

/-- Record the nodes that took the values sent last. -/
def record (site : Site σ) : Option (Key × List UInt32) → Site σ
  | none => site
  | some (key, holders) => site.commit key holders

/-- Where a pass stands: what it does in its next turn. -/
inductive Stage where
  /-- Ask about an item; others follow. -/
  | inspect (plan : Plan) (item : Suspect) (items : List Suspect)
  /-- Ask a winner for the value of an item; other winners and items follow. -/
  | fetch (plan : Plan) (finding : Finding) (winner : Host) (winners : List Host)
      (items : List Suspect)
  /-- Record the nodes that took the values sent last, then make corrections. -/
  | correct (taken : Option (Key × List UInt32)) (corrections : List Correction)

/-- What a turn leads to. -/
inductive Progress where
  /-- The pass goes on after a pause. -/
  | waits (pause : Pause) (stage : Stage)
  /-- The pass is over. -/
  | over
  /-- The pass costs its worker. -/
  | lost

namespace Stage

/-- The stage at which a pass looks at items, or writes if there are none left. -/
def next (plan : Plan) : List Suspect → Stage
  | [] => .correct none plan.writes
  | item :: items => .inspect plan item items

/-- The stage after a decision about an item, given what came of fetching its value. -/
def settle (plan : Plan) (finding : Finding) (value : Except Fault Bytes) (pause : Pause)
    (items : List Suspect) : Progress :=
  match conclude finding.diagnosis value with
  | .ok decision =>
    .waits pause (next (plan.take finding.diagnosis.key decision finding.faults) items)
  | .error _ => .lost

/-- Take one turn: make one call, and see from its replies what comes next. -/
def turn (fleet : Fleet σ) (shuffle : List Host → List Host) (site : Site σ) :
    Stage → Progress × Site σ
  | .inspect plan item items =>
    let hosts := site.registry.read shuffle item.key .strong
    let pause := fleet.gathering hosts (.score item.key item.field) site.world
    let (finding, site) := site.investigate fleet shuffle item
    if finding.diagnosis.needsValue then
      match finding.winners with
      | [] => (settle plan finding (.error (noServer item.key item.field)) pause items, site)
      | winner :: winners => (.waits pause (.fetch plan finding winner winners items), site)
    else (settle plan finding (.ok []) pause items, site)
  | .fetch plan finding winner winners items =>
    let pause := fleet.asking winner site.world
    let (value, site) :=
      site.askWinner fleet finding.diagnosis.key finding.diagnosis.field winner
    match value, winners with
    | .error _, winner :: winners => (.waits pause (.fetch plan finding winner winners items), site)
    | value, _ => (settle plan finding value pause items, site)
  | .correct taken [] => (.over, site.record taken)
  | .correct taken (c :: rest) =>
    let site := site.record taken
    let hosts := site.registry.write shuffle c.key .strong
    let pause := fleet.gathering hosts (c.kind.call c.key c.members) site.world
    let ((holders, _), site) := site.send fleet shuffle c
    (.waits pause (.correct (some (c.key, holders)) rest), site)

/-! ## The end of a pass -/

/-- The items that a pass has not decided about, counted so that every turn but
those for further winners and further corrections leaves fewer. -/
def undecided : Stage → Nat
  | .inspect _ _ items => 2 * items.length + 3
  | .fetch _ _ _ _ items => 2 * items.length + 2
  | .correct _ _ => 0

/-- The winners or the corrections that are left. -/
def left : Stage → Nat
  | .inspect _ _ _ => 1
  | .fetch _ _ _ winners _ => winners.length + 1
  | .correct _ corrections => corrections.length + 1

theorem left_pos (stage : Stage) : 0 < stage.left := by cases stage <;> simp [left]

theorem undecided_next (plan : Plan) (items : List Suspect) :
    (next plan items).undecided ≤ 2 * items.length + 1 := by
  cases items with
  | nil => simp [next, undecided]
  | cons item items =>
    simp only [next, undecided, List.length_cons]
    omega

/-- A stage is nearer to its end than another. -/
def Nearer (a b : Stage) : Prop :=
  a.undecided < b.undecided ∨ (a.undecided = b.undecided ∧ a.left < b.left)

theorem nearer_settle {plan : Plan} {finding : Finding} {value : Except Fault Bytes}
    {pause awaited : Pause} {items : List Suspect} {stage after : Stage}
    (hstage : 2 * items.length + 2 ≤ stage.undecided)
    (h : settle plan finding value pause items = .waits awaited after) : after.Nearer stage := by
  unfold settle at h
  split at h
  · cases h
    exact .inl (Nat.lt_of_le_of_lt (undecided_next _ _) (by omega))
  · cases h

/-- A turn brings a pass nearer to its end. -/
theorem nearer_turn {fleet : Fleet σ} {shuffle : List Host → List Host} {site : Site σ}
    {stage after : Stage} {pause : Pause}
    (h : (stage.turn fleet shuffle site).1 = .waits pause after) : after.Nearer stage := by
  cases stage with
  | inspect plan item items =>
    simp only [turn] at h
    split at h
    · split at h
      · exact nearer_settle (by simp [undecided]) h
      · cases h
        exact .inl (by simp [undecided])
    · exact nearer_settle (by simp [undecided]) h
  | fetch plan finding winner winners items =>
    simp only [turn] at h
    split at h
    · cases h
      exact .inr (by simp [undecided, left])
    · exact nearer_settle (by simp [undecided]) h
  | correct taken corrections =>
    cases corrections with
    | nil => simp [turn] at h
    | cons c rest =>
      simp only [turn] at h
      cases h
      exact .inr (by simp [undecided, left])

end Stage

end Site

end QuorumStore
