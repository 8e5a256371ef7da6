import QuorumStore.Repair.Pass

/-!
# Recorded passes

What passes between a coordinator and its replicas is put on record: each call to a host with
what came back, in the order in which the calls were made. The record is kept beside the state
of the replicas, where neither they nor the coordinator look at it, so a repair pass that is
put on record does what it would have done otherwise.
-/

namespace QuorumStore

/-- A call to a host with what came back. -/
structure Exchange where
  /-- The host. -/
  host : Host
  /-- The call. -/
  call : Call
  /-- What the host sent back. -/
  replies : List Reply
  deriving DecidableEq, Repr

variable {σ : Type} {fleet : Fleet σ} {shuffle : List Host → List Host}

/-! ## Calls -/

namespace Fleet

/-- Replicas whose calls are put on record. -/
def recorded (fleet : Fleet σ) : Fleet (σ × List Exchange) where
  answer host call s :=
    let (replies, world) := fleet.answer host call s.1
    (replies, (world, s.2 ++ [⟨host, call, replies⟩]))
  arrive s streams := fleet.arrive s.1 streams
  latency s host := fleet.latency s.1 host

theorem contact_recorded (call : Call) (hosts : List Host) (s : σ × List Exchange) :
    Prod.map id Prod.fst (fleet.recorded.contact call hosts s) = fleet.contact call hosts s.1 := by
  induction hosts generalizing s with
  | nil => rfl
  | cons host rest ih =>
    exact congrArg (fun others => ((host, (fleet.answer host call s.1).1) :: others.1, others.2))
      (ih (fleet.recorded.answer host call s).2)

theorem scatter_recorded (call : Call) (hosts : List Host) (s : σ × List Exchange) :
    Prod.map id Prod.fst (fleet.recorded.scatter hosts call s) = fleet.scatter hosts call s.1 :=
  congrArg (fun streams => (fleet.arrive streams.2 streams.1, streams.2))
    (contact_recorded call hosts s)

end Fleet

/-! ## Passes -/

namespace Site

/-- The site without the record. -/
def plain (site : Site (σ × List Exchange)) : Site σ := ⟨site.registry, site.world.1⟩

variable {site : Site (σ × List Exchange)} {shuffles : Shuffles}

theorem scatter_recorded (site : Site (σ × List Exchange)) (fleet : Fleet σ) (hosts : List Host)
    (call : Call) :
    Prod.map id plain (site.scatter fleet.recorded hosts call)
      = site.plain.scatter fleet hosts call :=
  congrArg (fun heard => (heard.1, (⟨site.registry, heard.2⟩ : Site σ)))
    (Fleet.scatter_recorded call hosts site.world)

theorem fetchValue_recorded (key : Key) (field : Field) (winners : List Host)
    (site : Site (σ × List Exchange)) (last : Fault) :
    Prod.map id plain (site.fetchValue fleet.recorded key field winners last)
      = site.plain.fetchValue fleet key field winners last := by
  induction winners generalizing site last with
  | nil => rfl
  | cons host rest ih =>
    have hasked : site.plain.askWinner fleet key field host
        = Prod.map id plain (site.askWinner fleet.recorded key field host) := rfl
    rw [fetchValue, fetchValue, hasked]
    rcases site.askWinner fleet.recorded key field host with ⟨result, site'⟩
    cases result with
    | ok value => rfl
    | error fault => exact ih site' fault

theorem investigate_recorded (site : Site (σ × List Exchange)) (item : Suspect) :
    Prod.map id plain (site.investigate fleet.recorded shuffle item)
      = site.plain.investigate fleet shuffle item := by
  have hheard := site.scatter_recorded fleet
    (site.registry.read shuffle item.key .strong) (.score item.key item.field)
  have hread : site.plain.registry = site.registry := rfl
  rw [investigate, investigate, hread, ← hheard]
  rfl

theorem decideItem_recorded (site : Site (σ × List Exchange)) (item : Suspect) :
    Prod.map id plain (site.decideItem fleet.recorded shuffle item)
      = site.plain.decideItem fleet shuffle item := by
  rw [decideItem, decideItem, ← investigate_recorded]
  rcases site.investigate fleet.recorded shuffle item with ⟨finding, site'⟩
  dsimp only [Prod.map, id]
  split
  · rw [← fetchValue_recorded]
    rfl
  · rfl

theorem decideAll_recorded (items : List Suspect) (site : Site (σ × List Exchange)) (plan : Plan) :
    Prod.map id plain (site.decideAll fleet.recorded shuffles plan items)
      = site.plain.decideAll fleet shuffles plan items := by
  induction items generalizing site plan shuffles with
  | nil => rfl
  | cons item rest ih =>
    rw [decideAll, decideAll, ← decideItem_recorded]
    rcases site.decideItem fleet.recorded (shuffles 0) item with ⟨result, site'⟩
    rcases result with abort | ⟨decision, faults⟩
    · rfl
    · exact ih site' _

theorem correct_recorded (site : Site (σ × List Exchange)) (c : Correction) :
    Prod.map id plain (site.correct fleet.recorded shuffle c)
      = site.plain.correct fleet shuffle c := by
  have hheard := site.scatter_recorded fleet
    (site.registry.write shuffle c.key .strong) (c.kind.call c.key c.members)
  have hwrite : site.plain.registry = site.registry := rfl
  rw [correct, correct, send, send, hwrite, ← hheard]
  cases c.kind <;> rfl

theorem correctAll_recorded (corrections : List Correction) (site : Site (σ × List Exchange)) :
    Prod.map id plain (site.correctAll fleet.recorded shuffles corrections)
      = site.plain.correctAll fleet shuffles corrections := by
  induction corrections generalizing site shuffles with
  | nil => rfl
  | cons c rest ih =>
    rw [correctAll, correctAll, ← correct_recorded]
    rcases site.correct fleet.recorded (shuffles 0) c with ⟨first, site'⟩
    exact congrArg (fun others => (first ++ others.1, others.2)) (ih site')

/-- A pass that is put on record does the same. -/
theorem repair_recorded (site : Site (σ × List Exchange)) (items : List Suspect) :
    Prod.map id plain (site.repair fleet.recorded shuffles items)
      = site.plain.repair fleet shuffles items := by
  rw [repair, repair, ← decideAll_recorded]
  rcases site.decideAll fleet.recorded shuffles .empty items with ⟨result, site'⟩
  cases result with
  | error abort => rfl
  | ok plan =>
    dsimp only [Prod.map, id]
    rw [carryOut, carryOut, ← correctAll_recorded]
    rcases site'.correctAll fleet.recorded (shuffles.after items.length) plan.writes
      with ⟨faults, site''⟩
    dsimp only [Prod.map, id]
    split <;> rfl

/-- The site with an empty record. -/
def onRecord (site : Site σ) : Site (σ × List Exchange) := ⟨site.registry, (site.world, [])⟩

/-- The calls that a pass makes, each with what came back, in order. -/
def traffic (site : Site σ) (fleet : Fleet σ) (shuffles : Shuffles) (items : List Suspect) :
    List Exchange :=
  (site.onRecord.repair fleet.recorded shuffles items).2.world.2

end Site

end QuorumStore
