import QuorumStore.Proofs.ScoreLimit
import QuorumStore.Proofs.Staff
import QuorumStore.Repair.Backlog

/-!
# Room for passes that run side by side

Several passes at once may each find what another has just written and go one score
higher. But each of them decides once about its fields, so together they raise a score
by no more than their number. Where the records leave room for that, no pass meets the
greatest score and no worker is lost, whatever replicas fail and however the turns
fall. Without that room a single job can cost a worker.
-/

namespace QuorumStore

variable {σ : Type} {fleet : Fleet σ} {shuffle : List Host → List Host} {shuffles : Shuffles}
  {stores : σ → Host → Store} {site site' : Site σ} {limit : Int} {listed : List Suspect}

/-! ## Scores within a limit -/

namespace Site

/-- No node holds a record of a listed field above a limit. -/
def RecordsWithin (stores : σ → Host → Store) (site : Site σ) (listed : List Suspect)
    (limit : Int) : Prop :=
  ∀ item ∈ listed, ∀ c ∈ site.recordsOf stores item, c.score ≤ limit

theorem RecordsWithin.mono {upper : Int} (h : site.RecordsWithin stores listed limit)
    (hle : limit ≤ upper) : site.RecordsWithin stores listed upper :=
  fun item hitem c hc => (h item hitem c hc).trans hle

/-- Records stay within a limit when nothing happens to the stores. -/
theorem RecordsWithin.congr (h : site.RecordsWithin stores listed limit)
    (hnodes : ∀ host ∈ site'.registry.nodes, host ∈ site.registry.nodes)
    (hstores : stores site'.world = stores site.world) :
    site'.RecordsWithin stores listed limit := by
  intro item hitem c hc
  obtain ⟨host, hhost, hheld⟩ := mem_records.1 hc
  rw [hstores] at hheld
  exact h item hitem c (mem_records.2 ⟨host, hnodes host hhost, hheld⟩)

/-- Records stay within a limit when stores take a write within the limit or leave it. -/
theorem RecordsWithin.apply (h : site.RecordsWithin stores listed limit)
    (hnodes : ∀ host ∈ site'.registry.nodes, host ∈ site.registry.nodes) {b : Batch}
    (hmembers : ∀ m ∈ b.members, m.score ≤ limit)
    (hstores : ∀ host, stores site'.world host = stores site.world host ∨
      stores site'.world host = (stores site.world host).apply b) :
    site'.RecordsWithin stores listed limit := by
  intro item hitem c hc
  obtain ⟨host, hhost, hheld⟩ := mem_records.1 hc
  have hold (hkept : (stores site.world host).cell? item.key item.field = some c) :
      c.score ≤ limit :=
    h item hitem c (mem_records.2 ⟨host, hnodes host hhost, hkept⟩)
  rcases hstores host with hleft | htaken
  · rw [hleft] at hheld
    exact hold hheld
  · rw [htaken] at hheld
    rcases Store.cell?_apply_cases hheld with hkept | hnew
    · exact hold hkept
    · obtain ⟨m, hm, heq⟩ := List.mem_map.1 hnew
      have hscore : (m.written b.kind).score = c.score :=
        congrArg (fun w : Mutation => w.cell.score) heq
      rw [← hscore, FieldValue.score_written]
      exact hmembers m hm

/-- Nothing in a plan is above a limit. -/
def Plan.Within (plan : Plan) (limit : Int) : Prop :=
  ∀ key kind, ∀ m ∈ plan.entries key kind, m.score ≤ limit

theorem Plan.within_empty (limit : Int) : Plan.empty.Within limit := by
  intro key kind m hm
  rw [entries_empty] at hm
  cases hm

/-- Whether a stage comes before the decisions of its pass are made, counted. -/
def Stage.deciding : Stage → Nat
  | .inspect _ _ _ => 1
  | .fetch _ _ _ _ _ => 1
  | .correct _ _ => 0

theorem Stage.deciding_le_one (stage : Stage) : stage.deciding ≤ 1 := by
  cases stage <;> simp [deciding]

/-- A stage keeps to a limit: a pass that has decided writes nothing above it, one that
decides nothing above its successor. -/
def Stage.Within (listed : List Suspect) (limit : Int) : Stage → Prop
  | .inspect plan item items => plan.Within (limit + 1) ∧ ∀ i ∈ item :: items, i ∈ listed
  | .fetch plan finding _ _ items =>
    plan.Within (limit + 1) ∧ finding.diagnosis.score ≤ limit ∧ ∀ i ∈ items, i ∈ listed
  | .correct _ corrections => ∀ c ∈ corrections, ∀ m ∈ c.members, m.score ≤ limit

theorem Stage.Within.mono {stage : Stage} {upper : Int} (h : stage.Within listed limit)
    (hle : limit ≤ upper) : stage.Within listed upper := by
  have hplan {plan : Plan} (hp : plan.Within (limit + 1)) : plan.Within (upper + 1) :=
    fun key kind m hm => (hp key kind m hm).trans (Int.add_le_add_right hle 1)
  cases stage with
  | inspect plan item items => exact ⟨hplan h.1, h.2⟩
  | fetch plan finding winner winners items => exact ⟨hplan h.1, h.2.1.trans hle, h.2.2⟩
  | correct taken corrections => exact fun c hc m hm => (h c hc m hm).trans hle

/-- The stage that comes after decisions keeps to a limit that is higher by one when it
writes what was decided. -/
theorem Stage.within_next {plan : Plan} {items : List Suspect} (hplan : plan.Within (limit + 1))
    (hitems : ∀ i ∈ items, i ∈ listed) :
    (next plan items).Within listed (limit + 1 - (next plan items).deciding) := by
  cases items with
  | nil =>
    intro c hc m hm
    rw [(Plan.mem_writes_iff.1 hc).1] at hm
    simpa [next, deciding] using hplan c.key c.kind m hm
  | cons item items =>
    simpa [next, deciding, Within] using And.intro hplan hitems

/-- A decision about a field within a limit keeps the pass going, and to the limit. -/
theorem Stage.within_settle {plan : Plan} {finding : Finding} {value : Except Fault Bytes}
    {pause : Pause} {items : List Suspect} (hplan : plan.Within (limit + 1))
    (hscore : finding.diagnosis.ignore = false → finding.diagnosis.score ≤ limit)
    (hroom : limit < maxScore) (hitems : ∀ i ∈ items, i ∈ listed) :
    ∃ after, settle plan finding value pause items = .waits pause after ∧
      after.Within listed (limit + 1 - after.deciding) := by
  unfold settle
  cases hconcluded : conclude finding.diagnosis value with
  | error abort =>
    obtain ⟨-, ⟨hcounts, -⟩, htop, -⟩ := conclude_eq_error_iff.1 hconcluded
    exact absurd ((hscore hcounts).trans_lt hroom) (not_lt.2 htop)
  | ok decision =>
    refine ⟨_, rfl, within_next (fun key kind m hm => ?_) hitems⟩
    rcases (Plan.mem_entries_take finding.faults).1 hm with hold | ⟨-, hwrite⟩
    · exact hplan key kind m hold
    · obtain ⟨hcounts, -, -, hnext, -⟩ := conclude_write hconcluded hwrite
      rw [hnext]
      exact Int.add_le_add_right (hscore hcounts) 1

/-- What is found among records within a limit is within the limit. -/
theorem score_investigate_le (honest : fleet.Honest stores) (hsound : site.registry.Sound)
    (hshuffle : ∀ hosts, (shuffle hosts).Perm hosts) {item : Suspect} (hitem : item ∈ listed)
    (hrecords : site.RecordsWithin stores listed limit)
    (hcounts : (site.investigate fleet shuffle item).1.diagnosis.ignore = false) :
    (site.investigate fleet shuffle item).1.diagnosis.score ≤ limit := by
  obtain ⟨host, hnode, held, hheld, hrank⟩ :=
    (investigate_spec honest hsound hshuffle item).holder hcounts
  rw [← (Diagnosis.eq_of_rank_eq hrank).1]
  exact hrecords item hitem held (mem_records.2 ⟨host, hnode, hheld⟩)

/-- What a turn comes to whose pass keeps to a limit: it costs no worker, and what
comes next keeps to a limit that is higher by one when the pass has decided by then. -/
structure Stage.Kept (stores : σ → Host → Store) (listed : List Suspect) (limit : Int)
    (stage : Stage) (result : Progress × Site σ) : Prop where
  /-- The registry is still sound. -/
  sound : result.2.registry.Sound
  /-- Records of the listed fields keep to the limit. -/
  records : result.2.RecordsWithin stores listed limit
  /-- The worker is not lost. -/
  worker : result.1 ≠ .lost
  /-- The next stage keeps to its limit. -/
  next : ∀ pause after, result.1 = .waits pause after → after.deciding ≤ stage.deciding ∧
    after.Within listed (limit + stage.deciding - after.deciding)

/-- To record who took values leaves the nodes as they are. -/
theorem mem_nodes_record (hsound : site.registry.Sound) (taken : Option (Key × List UInt32)) :
    (site.record taken).registry.Sound ∧
      ∀ host ∈ (site.record taken).registry.nodes, host ∈ site.registry.nodes := by
  cases taken with
  | none => exact ⟨hsound, fun _ hhost => hhost⟩
  | some holders =>
    have hsound' : (site.commit holders.1 holders.2).registry.Sound :=
      hsound.commit holders.1 holders.2
    have hring : (site.commit holders.1 holders.2).registry.ring = site.registry.ring :=
      Registry.ring_commit _ _ _
    refine ⟨hsound', fun host hhost => ?_⟩
    rw [hsound.mem_nodes, ← hring]
    exact hsound'.mem_nodes.1 hhost

theorem world_record (site : Site σ) (taken : Option (Key × List UInt32)) :
    (site.record taken).world = site.world := by
  cases taken <;> rfl

/-- A decision about a field within a limit is a turn that keeps to the limit. -/
theorem Stage.kept_settle {stage : Stage} {plan : Plan} {finding : Finding}
    (hsound : site.registry.Sound) (hrecords : site.RecordsWithin stores listed limit)
    (hdeciding : stage.deciding = 1) (hplan : plan.Within (limit + 1))
    (hscore : finding.diagnosis.ignore = false → finding.diagnosis.score ≤ limit)
    (hroom : limit < maxScore) {items : List Suspect} (hitems : ∀ i ∈ items, i ∈ listed)
    (value : Except Fault Bytes) (pause : Pause) :
    stage.Kept stores listed limit (settle plan finding value pause items, site) := by
  obtain ⟨after, hsettled, hwithin⟩ := within_settle hplan hscore hroom hitems
  refine ⟨hsound, hrecords, ?_, fun awaited later hwaits => ?_⟩
  · rw [hsettled]
    exact Progress.noConfusion
  · rw [hsettled] at hwaits
    cases hwaits
    rw [hdeciding]
    refine ⟨?_, hwithin⟩
    cases after <;> simp [deciding]

/-- A turn after which the pass goes on as it was keeps to the limit. -/
theorem Stage.kept_waits {stage after : Stage} (hsound : site.registry.Sound)
    (hrecords : site.RecordsWithin stores listed limit)
    (hdeciding : after.deciding = stage.deciding) (hafter : after.Within listed limit)
    (pause : Pause) : stage.Kept stores listed limit (.waits pause after, site) := by
  refine ⟨hsound, hrecords, Progress.noConfusion, fun awaited later hwaits => ?_⟩
  obtain ⟨-, rfl⟩ := Progress.waits.inj hwaits
  rw [hdeciding, Int.add_sub_cancel]
  exact ⟨Nat.le_refl _, hafter⟩

/-- A turn that asks about an item keeps to the limit. -/
theorem Stage.kept_inspect (honest : fleet.Honest stores) (hsound : site.registry.Sound)
    (hshuffle : ∀ hosts, (shuffle hosts).Perm hosts)
    (hrecords : site.RecordsWithin stores listed limit) {plan : Plan} {item : Suspect}
    {items : List Suspect} (hstage : (inspect plan item items).Within listed limit)
    (hroom : limit < maxScore) :
    (inspect plan item items).Kept stores listed limit
      ((inspect plan item items).turn fleet shuffle site) := by
  obtain ⟨hplan, hlisted⟩ := hstage
  obtain ⟨hitem, hitems⟩ := List.forall_mem_cons.1 hlisted
  have hscore := score_investigate_le honest hsound hshuffle hitem hrecords
  obtain ⟨hstores, hregistry, -⟩ := investigate_spec honest hsound hshuffle item
  rw [turn]
  rcases hask : site.investigate fleet shuffle item with ⟨finding, site'⟩
  rw [hask] at hscore hstores hregistry
  have hrecords' : site'.RecordsWithin stores listed limit :=
    hrecords.congr (fun _ hhost => hregistry ▸ hhost) hstores
  have hsound' : site'.registry.Sound := hregistry ▸ hsound
  dsimp only at hscore ⊢
  split
  · next hneeds =>
    have hcounts : finding.diagnosis.ignore = false := by
      simp only [Diagnosis.needsValue, Bool.and_eq_true, Bool.not_eq_true'] at hneeds
      exact hneeds.1.1
    split
    · exact kept_settle hsound' hrecords' rfl hplan hscore hroom hitems _ _
    · next winner winners _ =>
      have hafter : (fetch plan finding winner winners items).Within listed limit :=
        ⟨hplan, hscore hcounts, hitems⟩
      exact kept_waits hsound' hrecords' (by rfl) hafter _
  · exact kept_settle hsound' hrecords' rfl hplan hscore hroom hitems _ _

/-- So does a turn that asks a winner for the value. -/
theorem Stage.kept_fetch (honest : fleet.Honest stores) (hsound : site.registry.Sound)
    (hrecords : site.RecordsWithin stores listed limit) {plan : Plan} {finding : Finding}
    {winner : Host} {winners : List Host} {items : List Suspect}
    (hstage : (fetch plan finding winner winners items).Within listed limit)
    (hroom : limit < maxScore) :
    (fetch plan finding winner winners items).Kept stores listed limit
      ((fetch plan finding winner winners items).turn fleet shuffle site) := by
  obtain ⟨hplan, hscore, hitems⟩ := hstage
  obtain ⟨hstores, hregistry, -⟩ :=
    askWinner_spec honest site finding.diagnosis.key finding.diagnosis.field winner
  rw [turn]
  rcases hask : site.askWinner fleet finding.diagnosis.key finding.diagnosis.field winner
    with ⟨value, site'⟩
  rw [hask] at hstores hregistry
  have hrecords' : site'.RecordsWithin stores listed limit :=
    hrecords.congr (fun _ hhost => hregistry ▸ hhost) hstores
  have hsound' : site'.registry.Sound := hregistry ▸ hsound
  dsimp only
  split
  · next _ winner winners =>
    have hafter : (fetch plan finding winner winners items).Within listed limit :=
      ⟨hplan, hscore, hitems⟩
    exact kept_waits hsound' hrecords' (by rfl) hafter _
  · exact kept_settle hsound' hrecords' rfl hplan (fun _ => hscore) hroom hitems _ _

/-- To send a correction is to scatter a write. -/
theorem send_eq (site : Site σ) (fleet : Fleet σ) (shuffle : List Host → List Host)
    (c : Correction) :
    (site.send fleet shuffle c).2
      = (site.scatter fleet (shuffle site.registry.nodes) (c.kind.call c.key c.members)).2 := by
  unfold send
  cases c.kind <;> rfl

/-- So does a turn that makes a correction, or that finds none left. -/
theorem Stage.kept_correct (honest : fleet.Honest stores) (hsound : site.registry.Sound)
    (hshuffle : ∀ hosts, (shuffle hosts).Perm hosts)
    (hrecords : site.RecordsWithin stores listed limit) {taken : Option (Key × List UInt32)}
    {corrections : List Correction} (hstage : (correct taken corrections).Within listed limit) :
    (correct taken corrections).Kept stores listed limit
      ((correct taken corrections).turn fleet shuffle site) := by
  obtain ⟨hsound', hnodes⟩ := mem_nodes_record hsound taken
  have hrecords' := hrecords.congr hnodes (congrArg stores (world_record site taken))
  cases corrections with
  | nil =>
    exact ⟨hsound', hrecords', Progress.noConfusion, fun pause after hwaits => by cases hwaits⟩
  | cons c rest =>
    have hnodup := (hshuffle (site.record taken).registry.nodes).nodup_iff.2 hsound'.nodup_nodes
    obtain ⟨hfirst, hothers⟩ := List.forall_mem_cons.1 hstage
    have hsent := send_eq (site.record taken) fleet shuffle c
    have hrecords'' :
        ((site.record taken).send fleet shuffle c).2.RecordsWithin stores listed limit := by
      rw [hsent]
      exact hrecords'.apply (b := c.batch) (fun _ hhost => hhost) hfirst
        (apply_of_scatter honest c.batch hnodup (site.record taken).world)
    have hsound'' : ((site.record taken).send fleet shuffle c).2.registry.Sound := by
      rw [hsent]
      exact hsound'
    rw [turn]
    rcases hsend : (site.record taken).send fleet shuffle c with ⟨⟨holders, faults⟩, site'⟩
    rw [hsend] at hsound'' hrecords''
    have hafter : (correct (some (c.key, holders)) rest).Within listed limit := hothers
    exact kept_waits hsound'' hrecords'' (by rfl) hafter _

/-- A turn keeps to the limit that its stage keeps to, when a stage that decides has
room above it. -/
theorem Stage.kept_turn (honest : fleet.Honest stores) (hsound : site.registry.Sound)
    (hshuffle : ∀ hosts, (shuffle hosts).Perm hosts)
    (hrecords : site.RecordsWithin stores listed limit) {stage : Stage}
    (hstage : stage.Within listed limit) (hroom : limit + stage.deciding ≤ maxScore) :
    stage.Kept stores listed limit (stage.turn fleet shuffle site) := by
  cases stage with
  | inspect plan item items =>
    exact kept_inspect honest hsound hshuffle hrecords hstage hroom
  | fetch plan finding winner winners items =>
    exact kept_fetch honest hsound hrecords hstage hroom
  | correct taken corrections => exact kept_correct honest hsound hshuffle hrecords hstage

end Site

/-! ## Room for all passes of a shift -/

namespace Shift

variable {s after : Shift}

/-- Whether the pass of a turn has yet to decide, counted. -/
def deciding (t : Turn) : Nat :=
  match t.duty with
  | .takeUp => 0
  | .goOn stage => stage.deciding

/-- The passes that have yet to decide, those of jobs that wait among them. -/
def ahead (s : Shift) : Nat := sum deciding s.row + sumLater deciding s.later + s.jobs.length

/-- All turns to come. -/
def turns (s : Shift) : List Turn := s.row ++ s.later.map Prod.snd

/-- The pass of a turn keeps to a limit. -/
def Keeps (listed : List Suspect) (limit : Int) (t : Turn) : Prop :=
  ∀ stage, t.duty = .goOn stage → stage.Within listed limit

theorem keeps_takeUp (hops : Nat) : Keeps listed limit ⟨hops, .takeUp⟩ := nofun

theorem keeps_goOn {stage : Site.Stage} (h : stage.Within listed limit) (hops : Nat) :
    Keeps listed limit ⟨hops, .goOn stage⟩ := by
  intro other heq
  cases heq
  exact h

/-- All that is to come keeps so far below the greatest score that every pass that has
yet to decide may raise scores by one. -/
structure Roomy (stores : σ → Host → Store) (listed : List Suspect) (s : Shift) (site : Site σ) :
    Prop where
  /-- The registry is sound. -/
  sound : site.registry.Sound
  /-- There is room above the records of the listed fields. -/
  records : site.RecordsWithin stores listed (maxScore - s.ahead)
  /-- There is room above what the passes know and write. -/
  turns : ∀ t ∈ s.turns, Keeps listed (maxScore - s.ahead) t
  /-- Jobs are about listed fields. -/
  jobs : ∀ job ∈ s.jobs, ∀ item ∈ job, item ∈ listed

/-- Room is left when no more passes have yet to decide than before. -/
theorem Roomy.mono (h : s.Roomy stores listed site) (hle : after.ahead ≤ s.ahead)
    (hturns : ∀ t ∈ after.turns, t ∈ s.turns ∨ Keeps listed (maxScore - after.ahead) t)
    (hjobs : ∀ job ∈ after.jobs, job ∈ s.jobs) : after.Roomy stores listed site where
  sound := h.sound
  records := h.records.mono (by omega)
  turns t ht := by
    rcases hturns t ht with hold | hnew
    · exact fun stage hduty => (h.turns t hold stage hduty).mono (by omega)
    · exact hnew
  jobs job hjob := h.jobs job (hjobs job hjob)

/-- A pass that begins keeps to any limit. -/
theorem keeps_begin {job : RepairJob} (hjob : ∀ item ∈ job, item ∈ listed) :
    Keeps listed limit ⟨0, .goOn (.next .empty job)⟩ := by
  have hwithin := Site.Stage.within_next
    (Site.Plan.within_empty (limit + (Site.Stage.next .empty job).deciding - 1 + 1)) hjob
  refine keeps_goOn (hwithin.mono ?_) 0
  omega

/-- Room is left when the first of the row takes up a job and others line up. -/
theorem Roomy.takeUp {t : Turn} {job : RepairJob} {jobs : List RepairJob}
    (h : Roomy stores listed { s with row := t :: s.row } site) (hjobs : s.jobs = job :: jobs)
    (others : List Turn) (hothers : ∀ u ∈ others, u = ⟨0, .takeUp⟩) (queued : Nat) :
    Roomy stores listed { s with
      row := ⟨0, .goOn (.next .empty job)⟩ :: (s.row ++ others), jobs := jobs,
      queued := queued } site := by
  have hidle : sum deciding others = 0 := by
    clear h
    induction others with
    | nil => rfl
    | cons u rest ih =>
      obtain ⟨rfl, hrest⟩ := List.forall_mem_cons.1 hothers
      rw [sum, ih hrest]
      rfl
  have hone := (Site.Stage.next .empty job).deciding_le_one
  refine h.mono ?_ (fun u hu => ?_) fun other hother => ?_
  · simp only [ahead, sum, sum_append, deciding, hjobs, List.length_cons]
    omega
  · simp only [Shift.turns, List.cons_append, List.append_assoc, List.mem_cons, List.mem_append]
      at hu ⊢
    rcases hu with rfl | hrow | hnew | hlater
    · exact .inr (keeps_begin (h.jobs job (hjobs ▸ List.mem_cons_self)))
    · exact .inl (.inr (.inl hrow))
    · rw [hothers u hnew]
      exact .inr (keeps_takeUp 0)
    · exact .inl (.inr (.inr hlater))
  · rw [hjobs]
    exact List.mem_cons_of_mem job hother

/-- Room is left when a job is given out, or none is found. -/
theorem Roomy.handOut {t : Turn} (h : Roomy stores listed { s with row := t :: s.row } site) :
    s.handOut.Roomy stores listed site := by
  unfold Shift.handOut
  split
  · refine h.mono ?_ (fun u hu => .inl (List.mem_cons_of_mem _ hu)) fun job hjob => hjob
    simp only [ahead, sum]
    omega
  · next job jobs hjobs =>
    refine h.takeUp hjobs _ (fun u hu => ?_) _
    split_ifs at hu
    · cases hu
    · exact List.mem_singleton.1 hu

/-- Room is left when a pass is over. -/
theorem Roomy.release {t : Turn} (h : Roomy stores listed { s with row := t :: s.row } site) :
    s.release.Roomy stores listed site := by
  have hdropped {other : Shift} (hrow : other.row = s.row) (hlater : other.later = s.later)
      (hjobs : other.jobs = s.jobs) : other.Roomy stores listed site := by
    refine h.mono ?_ (fun u hu => .inl (List.mem_cons_of_mem _ ?_)) fun job hjob => hjobs ▸ hjob
    · simp only [ahead, sum, hrow, hlater, hjobs]
      omega
    · simp only [Shift.turns, hrow, hlater] at hu
      exact hu
  unfold Shift.release
  split
  · exact hdropped rfl rfl rfl
  · next job jobs hjobs =>
    split
    · have htaken := h.takeUp hjobs [] (fun u hu => by cases hu) s.queued
      rwa [List.append_nil] at htaken
    · exact hdropped rfl rfl rfl

/-- The turns to come with one more among the later ones. -/
theorem mem_enqueue {time : Nat} {turn : Turn} {turns : List (Nat × Turn)} {u : Nat × Turn} :
    u ∈ enqueue time turn turns ↔ u = (time, turn) ∨ u ∈ turns := by
  induction turns with
  | nil => simp [enqueue]
  | cons v rest ih =>
    unfold enqueue
    split
    · exact List.mem_cons
    · simp only [List.mem_cons, ih]
      exact or_left_comm

/-- Room is left when a pass waits that keeps to its limit. -/
theorem Roomy.wait {stage next : Site.Stage} (pause : Pause)
    (h : Roomy stores listed { s with row := ⟨0, .goOn stage⟩ :: s.row } site)
    (hle : next.deciding ≤ stage.deciding)
    (hnext : next.Within listed
      (maxScore - ahead { s with row := ⟨0, .goOn stage⟩ :: s.row } + stage.deciding
        - next.deciding)) :
    (s.wait pause next).Roomy stores listed site := by
  have hahead : (s.wait pause next).ahead + stage.deciding
      = ahead { s with row := ⟨0, .goOn stage⟩ :: s.row } + next.deciding := by
    unfold Shift.wait
    dsimp only
    split
    · simp only [ahead, sum, sum_append, deciding]
      omega
    · simp only [ahead, sum, sumLater_enqueue, deciding]
      omega
  have hkeeps : Keeps listed (maxScore - (s.wait pause next).ahead) ⟨pause.hops, .goOn next⟩ := by
    refine keeps_goOn (hnext.mono ?_) _
    omega
  refine h.mono (by omega) (fun u hu => ?_) fun job hjob => ?_
  · have hcases : u = ⟨pause.hops, .goOn next⟩ ∨ u ∈ s.turns := by
      unfold Shift.wait at hu
      dsimp only at hu
      split at hu
      · simp only [Shift.turns, List.mem_append, List.mem_singleton] at hu ⊢
        tauto
      · simp only [Shift.turns, List.mem_append, List.mem_map, mem_enqueue] at hu ⊢
        rcases hu with hrow | ⟨v, rfl | hlater, rfl⟩
        · exact .inr (.inl hrow)
        · exact .inl rfl
        · exact .inr (.inr ⟨v, hlater, rfl⟩)
    rcases hcases with rfl | hold
    · exact .inr hkeeps
    · exact .inl (List.mem_cons_of_mem _ hold)
  · unfold Shift.wait at hjob
    dsimp only at hjob
    split at hjob <;> exact hjob

/-- Room is left when time passes. -/
theorem Roomy.advance (h : s.Roomy stores listed site) (hrow : s.row = [])
    (hstep : s.advance = some after) : after.Roomy stores listed site := by
  unfold Shift.advance at hstep
  split at hstep <;> cases hstep
  rename_i time turn rest hturns
  have hdeciding := sumLater_span deciding (fun v => v.1 = time) rest
  refine h.mono ?_ (fun u hu => .inl ?_) fun job hjob => hjob
  · simp only [ahead, hrow, hturns, sum, sumLater]
    omega
  · simp only [Shift.turns, hrow, hturns, List.cons_append, List.nil_append, List.map_cons,
      List.mem_cons, ← List.map_append, List.takeWhile_append_dropWhile] at hu ⊢
    exact hu

/-- Where there is room, the turn of a pass keeps to its limit. -/
theorem Roomy.kept (honest : fleet.Honest stores)
    (hshuffle : ∀ hosts, (shuffle hosts).Perm hosts) {hops : Nat} {stage : Site.Stage}
    (h : Roomy stores listed { s with row := ⟨hops, .goOn stage⟩ :: s.row } site) :
    stage.Kept stores listed (maxScore - ahead { s with row := ⟨hops, .goOn stage⟩ :: s.row })
      (stage.turn fleet shuffle site) := by
  refine Site.Stage.kept_turn honest h.sound hshuffle h.records
    (h.turns _ List.mem_cons_self stage rfl) ?_
  simp only [ahead, sum, deciding]
  omega

/-- A step leaves room where there was room. -/
theorem Roomy.step (honest : fleet.Honest stores)
    (hshuffle : ∀ hosts, (shuffle hosts).Perm hosts) (h : s.Roomy stores listed site)
    (hstep : s.step fleet shuffle site = some (after, site')) :
    after.Roomy stores listed site' := by
  obtain ⟨now, row, later, jobs, queued, resting⟩ := s
  match row with
  | [] =>
    simp only [Shift.step, Option.map_eq_some_iff] at hstep
    obtain ⟨_, hadvance, heq⟩ := hstep
    cases heq
    exact h.advance rfl hadvance
  | ⟨hops + 1, duty⟩ :: row =>
    simp only [Shift.step] at hstep
    cases hstep
    have hahead : ahead ⟨now, row ++ [⟨hops, duty⟩], later, jobs, queued, resting⟩
        = ahead ⟨now, ⟨hops + 1, duty⟩ :: row, later, jobs, queued, resting⟩ := by
      simp only [ahead, sum, sum_append, deciding]
      omega
    have hduty : Keeps listed (maxScore
        - ahead ⟨now, ⟨hops + 1, duty⟩ :: row, later, jobs, queued, resting⟩) ⟨hops, duty⟩ :=
      h.turns ⟨hops + 1, duty⟩ List.mem_cons_self
    refine h.mono hahead.le (fun u hu => ?_) fun job hjob => hjob
    simp only [Shift.turns, List.mem_append, List.mem_cons, List.not_mem_nil, or_false] at hu ⊢
    rcases hu with (hrow | rfl) | hlater
    · exact .inl (.inl (.inr hrow))
    · exact .inr (hahead ▸ hduty)
    · exact .inl (.inr hlater)
  | ⟨0, .takeUp⟩ :: row =>
    simp only [Shift.step] at hstep
    cases hstep
    exact Roomy.handOut (s := ⟨now, row, later, jobs, queued, resting⟩) h
  | ⟨0, .goOn stage⟩ :: row =>
    have hkept := Roomy.kept (s := ⟨now, row, later, jobs, queued, resting⟩) honest hshuffle h
    have hroomy (pass : Site.Progress × Site σ) (hpass : stage.turn fleet shuffle site = pass) :
        Roomy stores listed ⟨now, ⟨0, .goOn stage⟩ :: row, later, jobs, queued, resting⟩ pass.2 :=
      ⟨hpass ▸ hkept.sound, hpass ▸ hkept.records, h.turns, h.jobs⟩
    simp only [Shift.step] at hstep
    split at hstep
    · rename_i pause next site'' hturn
      cases hstep
      obtain ⟨hle, hnext⟩ := hkept.next pause next (congrArg Prod.fst hturn)
      exact Roomy.wait (s := ⟨now, row, later, jobs, queued, resting⟩) pause (hroomy _ hturn) hle
        hnext
    · rename_i site'' hturn
      cases hstep
      exact Roomy.release (s := ⟨now, row, later, jobs, queued, resting⟩) (hroomy _ hturn)
    · rename_i hturn
      exact absurd (congrArg Prod.fst hturn) hkept.worker

/-- Where there is room, no worker is lost. -/
theorem Roomy.run (honest : fleet.Honest stores) (fair : shuffles.Fair)
    (h : s.Roomy stores listed site) (hqueues : s.Queues) :
    (s.run fleet shuffles site).1 = s.staff := by
  refine Queues.run (Roomy stores listed) (fun i _ _ _ _ => Roomy.step honest (fair i))
    (fun i s site hroomy => ?_) s site hqueues h
  rintro ⟨row, stage, hrow, hlost⟩
  obtain ⟨now, _, later, jobs, queued, resting⟩ := s
  cases hrow
  exact (Roomy.kept (s := ⟨now, row, later, jobs, queued, resting⟩) honest (fair i) hroomy).worker
    hlost

end Shift

/-- A queue keeps its workers when every record of a listed field leaves room for as many
scores as there are jobs. -/
theorem RepairBacklog.workers_drain (honest : fleet.Honest stores) (hsound : site.registry.Sound)
    (fair : shuffles.Fair) {q : RepairBacklog} (hpos : 0 < q.workers)
    (hroom : ∀ job ∈ q.waiting, ∀ item ∈ job, ∀ c ∈ site.recordsOf stores item,
      c.score + q.waiting.length ≤ maxScore) :
    (q.drain fleet shuffles site).1.workers = q.workers := by
  have hahead : (Shift.start q.workers q.waiting).ahead = q.waiting.length := by
    simp [Shift.start, Shift.ahead, Shift.sum, Shift.sumLater, Shift.deciding]
  have hroomy : (Shift.start q.workers q.waiting).Roomy stores q.waiting.flatten site := by
    refine ⟨hsound, fun item hitem c hc => ?_, fun t ht => ?_, fun job hjob item hitem => ?_⟩
    · obtain ⟨job, hjob, hin⟩ := List.mem_flatten.1 hitem
      have hle := hroom job hjob item hin c hc
      omega
    · rw [List.mem_singleton.1 ht]
      exact Shift.keeps_takeUp 0
    · exact List.mem_flatten.2 ⟨job, hjob, hitem⟩
  have hstaff : (Shift.start q.workers q.waiting).staff = q.workers := by
    simp [Shift.start, Shift.staff, Shift.sum, Shift.sumLater, Shift.busy]
  exact (hroomy.run honest fair (Shift.queues_start hpos q.waiting)).trans hstaff

namespace Site

/-- How scores run out. A pass over any replicas comes to its end exactly when no item, at
its turn, has used up the scores, and whatever it writes, it writes above every score that
the replicas reported of the field at that turn. Where the replicas are healthy, a pass
comes to its end exactly when no listed field that enough of them hold has a record with
the greatest score. And where they are honest, a queue keeps its workers as long as
every record of a listed field leaves room for as many scores as there are jobs. -/
theorem passes_within_scores (fleet : Fleet σ) (shuffles : Shuffles) (site : Site σ) :
    (∀ items, (∃ result, (site.repair fleet shuffles items).1 = .ok result) ↔
      ∀ asked ∈ site.course fleet shuffles items, ¬ asked.Exhausts fleet) ∧
    (∀ items, ∀ c ∈ site.rewrites fleet shuffles items, ∀ m ∈ c.members,
      ∃ asked ∈ site.course fleet shuffles items, asked.item.key = c.key ∧
        asked.item.field = m.field ∧ ∀ p ∈ asked.reports fleet, p.score < m.score) ∧
    ∀ stores : σ → Host → Store, site.registry.Reached → shuffles.Fair →
      (fleet.Healthy stores → ∀ items,
        (∃ result, (site.repair fleet shuffles items).1 = .ok result) ↔
          ∀ item ∈ items, Quorum.consensus.met site.registry.nodes.length
              (site.recordsOf stores item).length = true →
            ∀ c ∈ site.recordsOf stores item, c.score < maxScore) ∧
      (fleet.Honest stores → ∀ q : RepairBacklog, 0 < q.workers →
        (∀ job ∈ q.waiting, ∀ item ∈ job, ∀ c ∈ site.recordsOf stores item,
          c.score + q.waiting.length ≤ maxScore) →
        (q.drain fleet shuffles site).1.workers = q.workers) :=
  ⟨fun _ => repair_eq_ok_iff, fun _ _ hc _ hm => score_lt_of_mem_rewrites hc hm,
    fun _ hreached fair =>
      ⟨fun healthy _ => repair_healthy_eq_ok_iff healthy hreached.sound fair,
        fun honest _ hpos hroom =>
          RepairBacklog.workers_drain honest hreached.sound fair hpos hroom⟩⟩

/-- Three replicas of which two hold one field as deleted, at some score. -/
def atScore (score : Int) : Site (Host → Store) :=
  ⟨Registry.trio, fun host => (Store.empty 1 Nat.one_pos).run <|
    if host = "c" then [] else [⟨.delete, "k", [⟨"f", [], score⟩]⟩]⟩

/-- Two jobs for two workers, two scores below the greatest: both workers are left. -/
theorem passes_within_scores_of_two_jobs :
    (∀ c ∈ (atScore (maxScore - 2)).recordsOf (fun s => s) ⟨"k", "f", []⟩,
      c.score + 2 ≤ maxScore) ∧
    ((⟨16, [[⟨"k", "f", []⟩], [⟨"k", "f", []⟩]], 2⟩ : RepairBacklog).drain
      (.direct fun _ _ => false) (fun _ => id) (atScore (maxScore - 2))).1.workers = 2 := by
  have hroom : ∀ c ∈ (atScore (maxScore - 2)).recordsOf (fun s => s) ⟨"k", "f", []⟩,
      c.score + 2 ≤ maxScore := by decide +kernel
  refine ⟨hroom, ((passes_within_scores _ _ (atScore (maxScore - 2))).2.2 (fun s => s)
    Registry.reached_trio fun _ _ => List.Perm.refl _).2 (Fleet.honest_direct _) _ (by decide) ?_⟩
  intro job hjob item hitem
  have hfield : item = ⟨"k", "f", []⟩ := by
    rcases List.mem_pair.1 hjob with rfl | rfl <;> exact List.mem_singleton.1 hitem
  rw [hfield]
  exact hroom

/-! ## A job that costs its worker -/

/-- An item that has used up the scores costs the worker, here where it was deleted. -/
theorem Stage.lost_of_exhausts {item : Suspect} (h : site.Exhausts fleet shuffle item)
    (hdeleted : (site.investigate fleet shuffle item).1.diagnosis.insert = false) (plan : Plan)
    (items : List Suspect) : ((inspect plan item items).turn fleet shuffle site).1 = .lost := by
  have hcounts := (site.acts_iff_known fleet shuffle item).2 h.known
  have hover : conclude (site.investigate fleet shuffle item).1.diagnosis (.ok [])
      = .error .scoreOverflow :=
    conclude_eq_error_iff.2 ⟨rfl, hcounts, (Diagnosis.le_score_iff hcounts.1).2 h.top,
      fun _ => ⟨[], rfl⟩⟩
  have hvalue : (site.investigate fleet shuffle item).1.diagnosis.needsValue = false := by
    rw [Diagnosis.needsValue, hdeleted, Bool.and_false]
  rw [turn]
  dsimp only
  rw [hvalue, if_neg Bool.false_ne_true, settle, hover]

end Site

/-- So a queue of one worker that takes up such a job is left without workers. -/
theorem RepairBacklog.workers_drain_of_exhausts {item : Suspect}
    (h : site.Exhausts fleet (shuffles 1) item)
    (hdeleted : (site.investigate fleet (shuffles 1) item).1.diagnosis.insert = false)
    (capacity : Nat) :
    ((⟨capacity, [[item]], 1⟩ : RepairBacklog).drain fleet shuffles site).1.workers = 0 := by
  have hlost := Site.Stage.lost_of_exhausts h hdeleted .empty []
  rcases hturn : (Site.Stage.inspect .empty item []).turn fleet (shuffles 1) site
    with ⟨pass, site'⟩
  rw [hturn] at hlost
  dsimp only at hlost
  subst hlost
  have htaken : (Shift.start 1 [[item]]).step fleet (shuffles 0) site
      = some (⟨0, [⟨0, .goOn (.inspect .empty item [])⟩], [], [], 0, 0⟩, site) := rfl
  have hgone : Shift.step fleet (shuffles 1)
      ⟨0, [⟨0, .goOn (.inspect .empty item [])⟩], [], [], 0, 0⟩ site
        = some (⟨0, [], [], [], 0, 0⟩, site') := by
    simp only [Shift.step, hturn]
  have hrun : (Shift.start 1 [[item]]).run fleet shuffles site = (0, site') := by
    rw [Shift.run_of_step htaken, Shift.run_of_step hgone]
    exact Shift.run_of_done rfl
  exact congrArg Prod.fst hrun

namespace Site

/-- A deletion at the greatest score ends the pass that comes upon it, and the only worker
of a queue is lost with its first job. -/
theorem repair_overflows_at_greatest :
    ((atScore maxScore).repair (.direct fun _ _ => false) (fun _ => id) [⟨"k", "f", []⟩]).1
      = .error .scoreOverflow ∧
    ((⟨16, [[⟨"k", "f", []⟩]], 1⟩ : RepairBacklog).drain (.direct fun _ _ => false) (fun _ => id)
      (atScore maxScore)).1.workers = 0 := by
  have hsound : (atScore maxScore).registry.Sound := Registry.reached_trio.sound
  have hover : (atScore maxScore).Exhausts (.direct fun _ _ => false) id ⟨"k", "f", []⟩ :=
    (exhausts_healthy_iff Fleet.healthy_direct hsound fun _ => List.Perm.refl _).2
      (by decide +kernel)
  exact ⟨by decide +kernel, RepairBacklog.workers_drain_of_exhausts hover (by decide +kernel) 16⟩

end Site

end QuorumStore
