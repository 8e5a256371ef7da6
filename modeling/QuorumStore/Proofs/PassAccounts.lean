import Mathlib.Algebra.BigOperators.Group.List.Basic
import QuorumStore.Proofs.Hearings
import QuorumStore.Proofs.Surveys
import QuorumStore.Proofs.Tallies
import QuorumStore.Proofs.WriteOutcomes

/-!
# The accounts of a pass

A pass hears its items one by one, and then makes its writes. What it writes is called for by
a hearing, and what it reports are the numbers of hearings of each kind. The hints that gain a
key are those of the nodes that took values under it, and the pass fails if anything went wrong
in a hearing or with a write. So it goes unless an item has used up the scores: the pass is then
cut short before it has written anything, and does not report what went wrong before.
-/

namespace QuorumStore

/-- A peer once it is known to hold several keys. -/
def Peer.learnAll (keys : List Key) (p : Peer) : Peer := keys.foldl (fun p key => p.learn key) p

@[simp] theorem Peer.host_learn (key : Key) (p : Peer) : (p.learn key).host = p.host := by
  unfold learn
  split <;> rfl

@[simp] theorem Peer.host_learnAll (keys : List Key) (p : Peer) :
    (p.learnAll keys).host = p.host := by
  induction keys generalizing p with
  | nil => rfl
  | cons key rest ih => exact (ih (p.learn key)).trans (p.host_learn key)

theorem Peer.learnAll_append (keys others : List Key) (p : Peer) :
    p.learnAll (keys ++ others) = (p.learnAll keys).learnAll others :=
  List.foldl_append

/-- The number of values and deletions that are written under a key. -/
def Corrections.written (c : Corrections) : Nat := c.inserts.length + c.deletes.length

/-- The total of a table after a change under one key. -/
theorem sum_toList_insert {α : Type} (table : Std.TreeMap Key α) (key : Key) (a : α)
    (size : α → Nat) :
    ((table.insert key a).toList.map fun e => size e.2).sum + (table[key]?.map size).getD 0
      = (table.toList.map fun e => size e.2).sum + size a := by
  have hinsert := ((Std.TreeMap.toList_insert_perm (t := table) (k := key) (v := a)).map
    fun e => size e.2).sum_eq
  have hsplit := ((List.filter_append_perm (fun e => decide (e.1 = key)) table.toList).map
    fun e => size e.2).sum_eq
  have hothers : (table.toList.filter fun e => decide ¬(key == e.1) = true)
      = table.toList.filter fun e => !decide (e.1 = key) := by
    refine List.filter_congr fun e _ => ?_
    rw [← decide_not, decide_eq_decide, beq_iff_eq]
    exact not_congr eq_comm
  have hkey : ((table.toList.filter fun e => decide (e.1 = key)).map fun e => size e.2).sum
      = (table[key]?.map size).getD 0 := by
    rw [← Function.comp_def size Prod.snd, ← List.map_map, FieldTable.filter_toList]
    cases table[key]? <;> simp
  rw [hothers, List.map_cons, List.sum_cons] at hinsert
  dsimp only at hinsert
  rw [List.map_append, List.sum_append, hkey] at hsplit
  omega

namespace Site

variable {hearings : List Hearing} {h : Hearing} {plan : Plan} {key : Key}

/-! ## What a plan counts -/

/-- The number of values and deletions that a plan writes. -/
def Plan.written (plan : Plan) : Nat := plan.report.inserts + plan.report.deletes

/-- They are counted key by key. -/
theorem Plan.written_eq (plan : Plan) :
    plan.written = (plan.corrections.toList.map fun e => e.2.written).sum := by
  rw [written, report, Registry.values_eq_map_snd]
  dsimp only
  rw [List.length_flatMap, List.length_flatMap, List.map_map, List.map_map]
  exact List.sum_map_add.symm

/-- A change under one key counts as much as it adds there. -/
theorem Plan.written_alter (plan : Plan) (key : Key) {f : Corrections → Corrections} {more : Nat}
    (h : ∀ c, (f c).written = c.written + more) :
    (plan.alter key f).written = plan.written + more := by
  have hsum := sum_toList_insert plan.corrections key
    (f ((plan.corrections[key]?).getD ⟨[], []⟩)) Corrections.written
  have hbefore : (plan.corrections[key]?.map Corrections.written).getD 0
      = ((plan.corrections[key]?).getD ⟨[], []⟩).written := by
    cases plan.corrections[key]? <;> rfl
  rw [hbefore, h] at hsum
  rw [Plan.written_eq, Plan.written_eq, alter]
  dsimp only
  omega

/-- A decision counts as what it is. -/
theorem Plan.counts_take (plan : Plan) (key : Key) (decision : Decision)
    (faults : List RepairFault) :
    (plan.take key decision faults).examined = plan.examined + 1 ∧
      (plan.take key decision faults).ignored
        = plan.ignored + (if decision = .ignore then 1 else 0) ∧
      (plan.take key decision faults).belowQuorum
        = plan.belowQuorum + (if decision = .belowQuorum then 1 else 0) ∧
      (plan.take key decision faults).written
        = plan.written + (if decision.write?.isSome then 1 else 0) := by
  cases decision with
  | ignore => exact ⟨rfl, rfl, rfl, rfl⟩
  | belowQuorum => exact ⟨rfl, rfl, rfl, rfl⟩
  | lost fault => exact ⟨rfl, rfl, rfl, rfl⟩
  | insert m =>
    refine ⟨rfl, rfl, rfl, Plan.written_alter _ key fun c => ?_⟩
    simp only [Corrections.written, List.length_append]
    exact Nat.add_right_comm _ _ _
  | delete m =>
    refine ⟨rfl, rfl, rfl, Plan.written_alter _ key fun c => ?_⟩
    simp only [Corrections.written, List.length_append]
    exact (Nat.add_assoc _ _ _).symm

/-- Nothing has gone wrong if nothing had before and nothing went wrong with the item. -/
theorem Plan.faults_take_eq_nil_iff {plan : Plan} {key : Key} {decision : Decision}
    {faults : List RepairFault} :
    (plan.take key decision faults).faults = [] ↔
      plan.faults = [] ∧ faults = [] ∧ ∀ fault, decision ≠ .lost fault := by
  cases decision <;> simp [take, alter]

/-- What a plan says about items that were heard. -/
structure Plan.Follows (plan : Plan) (hearings : List Hearing) : Prop where
  /-- Every hearing counts. -/
  examined : plan.examined = hearings.length
  /-- Those are ignored that find that no node knows the field. -/
  ignored : plan.ignored = hearings.countP fun h => h.diagnosis.ignore
  /-- Those are left alone that find that too few do. -/
  belowQuorum : plan.belowQuorum
    = hearings.countP fun h => !h.diagnosis.ignore && !h.diagnosis.quorum
  /-- What the plan writes is called for. -/
  called : ∀ key kind, ∀ m ∈ plan.entries key kind,
    ∃ h ∈ hearings, h.item.key = key ∧ h.Calls kind m
  /-- Nothing is reported if nothing went wrong. -/
  clean_iff : plan.faults = [] ↔ ∀ h ∈ hearings, ¬ h.Fails
  /-- If so, an item that is neither ignored nor left alone is written. -/
  written : plan.faults = [] → plan.examined = plan.ignored + plan.belowQuorum + plan.written

theorem Plan.follows_empty : Plan.empty.Follows [] where
  examined := rfl
  ignored := rfl
  belowQuorum := rfl
  called key kind m hm := by
    rw [entries_empty] at hm
    cases hm
  clean_iff := iff_of_true rfl fun h hm => absurd hm List.not_mem_nil
  written _ := rfl

/-- A decision that a hearing leads to is taken into the plan with it. -/
theorem Plan.Follows.take (hplan : plan.Follows hearings) {decision : Decision}
    {faults : List RepairFault} (hleads : h.Leads decision faults) :
    (plan.take h.item.key decision faults).Follows (hearings ++ [h]) := by
  obtain ⟨hexamined, hignored, hbelow, hwritten⟩ :=
    Plan.counts_take plan h.item.key decision faults
  have hclean : (plan.take h.item.key decision faults).faults = [] ↔ _ :=
    Plan.faults_take_eq_nil_iff
  constructor
  · rw [hexamined, hplan.examined, List.length_append]
    rfl
  · rw [hignored, hplan.ignored, List.countP_append, List.countP_singleton]
    exact congrArg (_ + ·) (if_congr hleads.ignore_iff rfl rfl)
  · rw [hbelow, hplan.belowQuorum, List.countP_append, List.countP_singleton]
    refine congrArg (_ + ·) (if_congr (hleads.belowQuorum_iff.trans ?_) rfl rfl)
    rw [Bool.and_eq_true, Bool.not_eq_true', Bool.not_eq_true']
  · intro key kind m hm
    rcases (Plan.mem_entries_take faults).1 hm with hold | ⟨hkey, hwrite⟩
    · obtain ⟨other, ho, hcalls⟩ := hplan.called key kind m hold
      exact ⟨other, List.mem_append_left _ ho, hcalls⟩
    · exact ⟨h, List.mem_append_right _ List.mem_cons_self, hkey, hleads.calls kind m hwrite⟩
  · rw [hclean, hleads.clean_iff, hplan.clean_iff, List.forall_mem_append, List.forall_mem_singleton]
  · intro hnone
    obtain ⟨hold, -, hkept⟩ := hclean.1 hnone
    rw [hexamined, hignored, hbelow, hwritten, hplan.written hold]
    cases decision with
    | lost fault => exact absurd rfl (hkept fault)
    | _ => simp [Decision.write?]; omega

/-! ## Hearing the items -/

variable {σ : Type} {fleet : Fleet σ} {shuffle : List Host → List Host} {shuffles : Shuffles}

/-- Items that are heard in turn, perhaps not all of them. -/
structure Heard (nodes : List Host) (items : List Suspect) (hearings : List Hearing) : Prop where
  /-- The hearings are of the first items, in their order. -/
  items : hearings.map (·.item) <+: items
  /-- Every node is asked once for each. -/
  asked : ∀ h ∈ hearings, (h.snapshots.map Prod.fst).Perm nodes

/-- A pass hears its items until one has used up the scores. -/
theorem decideAll_heard (hone : fleet.AnswersOnce) (hdelivers : fleet.Delivers)
    (fair : shuffles.Fair) (items : List Suspect) (site : Site (σ × List Exchange))
    (hsound : site.registry.Sound) {earlier : List Hearing} (hplan : plan.Follows earlier) :
    ∃ hearings : List Hearing, Heard site.registry.nodes items hearings ∧
      (site.decideAll fleet.recorded shuffles plan items).2.registry = site.registry ∧
      (site.decideAll fleet.recorded shuffles plan items).2.world.2
        = site.world.2 ++ hearings.flatMap Hearing.exchanges ∧
      ((∃ abort, (site.decideAll fleet.recorded shuffles plan items).1 = .error abort) ↔
        ∃ h ∈ hearings, h.Exhausts) ∧
      ∀ done, (site.decideAll fleet.recorded shuffles plan items).1 = .ok done →
        hearings.map (·.item) = items ∧ done.Follows (earlier ++ hearings) := by
  induction items generalizing site plan earlier shuffles with
  | nil =>
    refine ⟨[], ⟨List.prefix_rfl, fun h hm => absurd hm List.not_mem_nil⟩, rfl,
      (List.append_nil _).symm, by simp [decideAll], fun done hdone => ?_⟩
    cases hdone
    rw [List.append_nil]
    exact ⟨rfl, hplan⟩
  | cons item rest ih =>
    obtain ⟨h, rfl, hnodes, hregistry, hlog, hdecides⟩ :=
      decideItem_heard hone hdelivers hsound (fair 0) item
    rw [decideAll]
    rcases hdecide : site.decideItem fleet.recorded (shuffles 0) h.item with ⟨result, site'⟩
    rw [hdecide] at hregistry hlog hdecides
    dsimp only at hregistry hlog hdecides
    rcases result with abort | ⟨decision, faults⟩
    · -- the item has used up the scores, and no other is heard after it
      have hover : h.Exhausts := hdecides.cut_iff.1 ⟨abort, rfl⟩
      refine ⟨[h], ⟨List.singleton_prefix_cons_iff.2 rfl, List.forall_mem_singleton.2 hnodes⟩,
        hregistry, ?_, iff_of_true ⟨abort, rfl⟩ ⟨h, List.mem_cons_self, hover⟩, fun done hdone => ?_⟩
      · rw [List.flatMap_singleton]
        exact hlog
      · cases hdone
    · have hroom : ¬ h.Exhausts := fun hover => by
        obtain ⟨abort, hcut⟩ := hdecides.cut_iff.2 hover
        cases hcut
      obtain ⟨hearings, hheard, hregistry', hlog', hcut, hdone⟩ :=
        ih (fair.after 1) site' (hregistry ▸ hsound)
          (hplan.take (hdecides.leads decision faults rfl))
      refine ⟨h :: hearings, ⟨?_, ?_⟩, hregistry'.trans hregistry, ?_, ?_, fun done h' => ?_⟩
      · exact List.prefix_cons_inj _ |>.2 hheard.items
      · rw [List.forall_mem_cons]
        exact ⟨hnodes, fun other ho => hregistry ▸ hheard.asked other ho⟩
      · rw [hlog', hlog, List.flatMap_cons, List.append_assoc]
      · simpa only [List.mem_cons, exists_eq_or_imp, hroom, false_or] using hcut
      · obtain ⟨hitems, hfollows⟩ := hdone done h'
        rw [List.append_assoc] at hfollows
        exact ⟨congrArg (h.item :: ·) hitems, hfollows⟩

/-! ## Making the writes -/

/-- A write of a pass with what came back. -/
structure Delivery where
  /-- The write. -/
  correction : Correction
  /-- What each node says to it. -/
  receipts : List (Host × Reply)

namespace Delivery

/-- The calls that the pass makes for the write. -/
def exchanges (d : Delivery) : List Exchange :=
  Exchange.of (d.correction.kind.call d.correction.key d.correction.members) d.receipts

/-- Something went wrong: a node sent no change set. -/
def Fails (d : Delivery) : Prop := ∃ t ∈ d.receipts, t.2.changes? = none

/-- Whether a host took values. -/
def taken (d : Delivery) (host : Host) : Bool :=
  decide (d.correction.kind = .insert) &&
    d.receipts.any fun t => decide (t.1 = host) && t.2.changes?.isSome

end Delivery

/-- The keys under which a host took values. -/
def taken (deliveries : List Delivery) (host : Host) : List Key :=
  (deliveries.filter fun d => d.taken host).map (·.correction.key)

/-- What a correction comes to, by the replies to it: the nodes that took values are recorded. -/
theorem correct_eq (site : Site σ) (fleet : Fleet σ) (shuffle : List Host → List Host)
    (c : Correction) :
    site.correct fleet shuffle c
      = ((RepairFault.sort Reply.changes? "repair write"
            (fleet.scatter (shuffle site.registry.nodes) (c.kind.call c.key c.members)
              site.world).1).2,
          Site.commit ⟨site.registry, (fleet.scatter (shuffle site.registry.nodes)
              (c.kind.call c.key c.members) site.world).2⟩ c.key
            (if c.kind = .insert then (RepairFault.sort Reply.changes? "repair write"
              (fleet.scatter (shuffle site.registry.nodes) (c.kind.call c.key c.members)
                site.world).1).1.map Prod.fst else [])) := by
  unfold correct send
  cases c.kind <;> rfl

/-- A node is among those that answer exactly if a host under its digest sent an answer. -/
theorem mem_map_fst_sort {α : Type} {want : Reply → Option α} {stage : String}
    {replies : List Tagged} {said : List (Host × Reply)}
    (h : replies.Perm (said.map fun t => (Registry.digest t.1, t.2))) {node : UInt32} :
    node ∈ (RepairFault.sort want stage replies).1.map Prod.fst ↔
      ∃ t ∈ said, Registry.digest t.1 = node ∧ (want t.2).isSome = true := by
  rw [((RepairFault.sort_fst_perm h).map Prod.fst).mem_iff, List.map_filterMap, List.mem_filterMap]
  refine exists_congr fun t => and_congr_right fun _ => ?_
  cases want t.2 <;> simp

variable {site : Site (σ × List Exchange)}

/-- The peer of a host is among those that took values exactly if the host is. -/
theorem mem_holders_iff (hsound : site.registry.Sound) {d : Delivery} {replies : List Tagged}
    {stage : String}
    (hreplies : replies.Perm (d.receipts.map fun t => (Registry.digest t.1, t.2)))
    (hnodes : (d.receipts.map Prod.fst).Perm site.registry.nodes) {peer : UInt32} {p : Peer}
    (hp : site.registry.peers[peer]? = some p) :
    peer ∈ (if d.correction.kind = .insert then
        (RepairFault.sort Reply.changes? stage replies).1.map Prod.fst else []) ↔
      d.taken p.host = true := by
  obtain ⟨hdigest, hin⟩ := hsound.host_of_peer hp
  have hsame : ∀ t ∈ d.receipts, Registry.digest t.1 = peer ↔ t.1 = p.host := fun t ht => by
    have hnode : t.1 ∈ site.registry.nodes := hnodes.mem_iff.1 (List.mem_map_of_mem ht)
    refine ⟨fun heq => ?_, fun heq => heq ▸ hdigest⟩
    exact hsound.digest_inj (hsound.mem_nodes.1 hnode) hin (heq.trans hdigest.symm)
  have hholders : peer ∈ (RepairFault.sort Reply.changes? stage replies).1.map Prod.fst ↔
      ∃ t ∈ d.receipts, t.1 = p.host ∧ t.2.changes?.isSome = true := by
    rw [mem_map_fst_sort hreplies]
    exact exists_congr fun t => and_congr_right fun ht => and_congr_left' (hsame t ht)
  rw [Delivery.taken, Bool.and_eq_true, decide_eq_true_eq, List.any_eq_true]
  simp only [Bool.and_eq_true, decide_eq_true_eq, ← hholders]
  split_ifs with hinsert
  · rw [and_iff_right hinsert]
  · exact iff_of_false List.not_mem_nil fun h => hinsert h.1

/-- A write goes to every node once, and those that take values learn the key. -/
theorem correct_heard (hone : fleet.AnswersOnce) (hdelivers : fleet.Delivers)
    (hshuffle : ∀ hosts, (shuffle hosts).Perm hosts) (hsound : site.registry.Sound)
    (c : Correction) :
    ∃ d : Delivery, d.correction = c ∧ (d.receipts.map Prod.fst).Perm site.registry.nodes ∧
      (site.correct fleet.recorded shuffle c).2.registry.Sound ∧
      (site.correct fleet.recorded shuffle c).2.registry.ring = site.registry.ring ∧
      (site.correct fleet.recorded shuffle c).2.world.2 = site.world.2 ++ d.exchanges ∧
      ((site.correct fleet.recorded shuffle c).1 = [] ↔ ¬ d.Fails) ∧
      ∀ peer : UInt32, (site.correct fleet.recorded shuffle c).2.registry.peers[peer]?
        = site.registry.peers[peer]?.map fun p : Peer => p.learnAll (taken [d] p.host) := by
  obtain ⟨said, hhosts, hreplies, hlog⟩ := hone.scatter hdelivers (c.kind.call c.key c.members)
    (shuffle site.registry.nodes) site.world
  have hnodes : (said.map Prod.fst).Perm site.registry.nodes := hhosts ▸ hshuffle _
  rw [correct_eq]
  refine ⟨⟨c, said⟩, rfl, hnodes, hsound.commit _ _, Registry.ring_commit _ _ _, hlog, ?_,
    fun peer => ?_⟩
  · rw [RepairFault.sort_snd_eq_nil_iff_said hreplies, Delivery.Fails]
    simp only [not_exists, not_and, Option.isSome_iff_ne_none, ne_eq]
  · refine (Registry.getElem?_commit _ _ _ _).trans (Option.map_congr fun p hp => ?_)
    rw [if_congr (mem_holders_iff (d := ⟨c, said⟩) hsound hreplies hnodes hp) rfl rfl]
    cases htaken : Delivery.taken ⟨c, said⟩ p.host <;> simp [taken, htaken, Peer.learnAll]

/-- So do those that take values of several writes. -/
theorem correctAll_heard (hone : fleet.AnswersOnce) (hdelivers : fleet.Delivers)
    (fair : shuffles.Fair) (corrections : List Correction) (site : Site (σ × List Exchange))
    (hsound : site.registry.Sound) :
    ∃ deliveries : List Delivery, deliveries.map (·.correction) = corrections ∧
      (∀ d ∈ deliveries, (d.receipts.map Prod.fst).Perm site.registry.nodes) ∧
      (site.correctAll fleet.recorded shuffles corrections).2.world.2
        = site.world.2 ++ deliveries.flatMap Delivery.exchanges ∧
      ((site.correctAll fleet.recorded shuffles corrections).1 = [] ↔
        ∀ d ∈ deliveries, ¬ d.Fails) ∧
      ∀ peer : UInt32, (site.correctAll fleet.recorded shuffles corrections).2.registry.peers[peer]?
        = site.registry.peers[peer]?.map fun p : Peer => p.learnAll (taken deliveries p.host) := by
  induction corrections generalizing site shuffles with
  | nil =>
    refine ⟨[], rfl, fun d hd => absurd hd List.not_mem_nil, (List.append_nil _).symm,
      iff_of_true rfl fun d hd => absurd hd List.not_mem_nil, fun peer => ?_⟩
    exact Option.map_id'.symm
  | cons c rest ih =>
    obtain ⟨d, hd, hnodes, hsound', hring, hlog, hclean, hpeers⟩ :=
      correct_heard hone hdelivers (fair 0) hsound c
    rw [correctAll]
    rcases hcorrect : site.correct fleet.recorded (shuffles 0) c with ⟨first, site'⟩
    rw [hcorrect] at hsound' hring hlog hclean hpeers
    dsimp only at hsound' hring hlog hclean hpeers ⊢
    obtain ⟨deliveries, hall, hnodes', hlog', hclean', hpeers'⟩ := ih (fair.after 1) site' hsound'
    have hsame : site'.registry.nodes.Perm site.registry.nodes :=
      hsound'.nodes_perm.trans (hring ▸ hsound.nodes_perm.symm)
    refine ⟨d :: deliveries, ?_, ?_, ?_, ?_, fun peer => ?_⟩
    · rw [List.map_cons, hd, hall]
    · rw [List.forall_mem_cons]
      exact ⟨hnodes, fun other ho => (hnodes' other ho).trans hsame⟩
    · rw [hlog', hlog, List.flatMap_cons, List.append_assoc]
    · rw [List.append_eq_nil_iff, hclean, hclean', List.forall_mem_cons]
    · rw [hpeers', hpeers, Option.map_map]
      refine Option.map_congr fun p _ => ?_
      have hkeys : taken (d :: deliveries) p.host
          = taken [d] p.host ++ taken deliveries p.host := by
        rw [taken, ← List.singleton_append, List.filter_append, List.map_append]
        rfl
      rw [Function.comp_apply, Peer.host_learnAll, hkeys, Peer.learnAll_append]

/-! ## The whole pass -/

/-- The accounts of a pass: how what it wrote, recorded and reported follows from what was
said. -/
structure Accounted (nodes : List Host) (items : List Suspect) (hearings : List Hearing)
    (deliveries : List Delivery) (before after : Registry)
    (result : Except Abort (Except Fault RepairCounts)) : Prop where
  /-- The items are heard in turn. -/
  heard : Heard nodes items hearings
  /-- The pass is cut short if an item has used up the scores. -/
  cut_iff : (∃ abort, result = .error abort) ↔ ∃ h ∈ hearings, h.Exhausts
  /-- It has then written nothing. -/
  cut : ∀ abort, result = .error abort → deliveries = []
  /-- Else all items are heard. -/
  all : ∀ told, result = .ok told → hearings.map (·.item) = items
  /-- What is written, to every node once, is called for by a hearing. -/
  written : ∀ d ∈ deliveries, (d.receipts.map Prod.fst).Perm nodes ∧ d.correction.members ≠ [] ∧
    ∀ m ∈ d.correction.members, ∃ h ∈ hearings,
      h.item.key = d.correction.key ∧ h.Calls d.correction.kind m
  /-- The nodes that took values under a key, and no others, are known to hold it. -/
  hints : ∀ peer : UInt32, after.peers[peer]?
    = before.peers[peer]?.map fun p : Peer => p.learnAll (taken deliveries p.host)
  /-- The pass fails if something went wrong in a hearing or with a write. -/
  failed_iff : ∀ told, result = .ok told → ((∃ fault, told = .error fault) ↔
    (∃ h ∈ hearings, h.Fails) ∨ ∃ d ∈ deliveries, d.Fails)
  /-- Else every item is counted once, as what was done about it. -/
  counted : ∀ counts, result = .ok (.ok counts) → counts.examined = items.length ∧
    counts.ignored = (hearings.countP fun h => h.diagnosis.ignore) ∧
    counts.belowQuorum = (hearings.countP fun h => !h.diagnosis.ignore && !h.diagnosis.quorum) ∧
    counts.examined = counts.ignored + counts.belowQuorum + counts.inserts + counts.deletes

/-- The accounts of a pass that is cut short. -/
theorem accounted_of_cut {nodes : List Host} {items : List Suspect}
    (hheard : Heard nodes items hearings)
    (hover : ∃ h ∈ hearings, h.Exhausts) (registry : Registry) (abort : Abort) :
    Accounted nodes items hearings [] registry registry (.error abort) where
  heard := hheard
  cut_iff := iff_of_true ⟨abort, rfl⟩ hover
  cut _ _ := rfl
  all _ h := by cases h
  written d hd := absurd hd List.not_mem_nil
  hints _ := Option.map_id'.symm
  failed_iff _ h := by cases h
  counted _ h := by cases h

/-- What comes of the writes: the pass fails if anything has gone wrong by then, and else reports
what the plan counts. -/
theorem carryOut_spec (site : Site σ) (fleet : Fleet σ) (shuffles : Shuffles) (plan : Plan) :
    let made := site.correctAll fleet shuffles plan.writes
    (site.carryOut fleet shuffles plan).2 = made.2 ∧
      ((∃ fault, (site.carryOut fleet shuffles plan).1 = .error fault) ↔
        plan.faults ++ made.1 ≠ []) ∧
      ∀ counts, (site.carryOut fleet shuffles plan).1 = .ok counts →
        plan.faults ++ made.1 = [] ∧ counts = plan.report := by
  intro made
  unfold carryOut
  dsimp only
  split_ifs with hempty
  · refine ⟨rfl, iff_of_false (fun ⟨_, h⟩ => by cases h) ?_, fun counts h => ?_⟩
    · exact not_not.2 (List.isEmpty_iff.1 hempty)
    · exact ⟨List.isEmpty_iff.1 hempty, (Except.ok.inj h).symm⟩
  · exact ⟨rfl, iff_of_true ⟨_, rfl⟩ (List.isEmpty_iff.not.1 hempty), fun _ h => by cases h⟩

/-- The accounts of a pass that is not, once it has heard its items. -/
theorem carryOut_accounted (hone : fleet.AnswersOnce) (hdelivers : fleet.Delivers)
    (fair : shuffles.Fair) (hsound : site.registry.Sound) {items : List Suspect}
    (hheard : Heard site.registry.nodes items hearings)
    (hroom : ¬ ∃ h ∈ hearings, h.Exhausts) (hall : hearings.map (·.item) = items)
    (hplan : plan.Follows hearings) :
    ∃ deliveries : List Delivery,
      (site.carryOut fleet.recorded shuffles plan).2.world.2
        = site.world.2 ++ deliveries.flatMap Delivery.exchanges ∧
      Accounted site.registry.nodes items hearings deliveries site.registry
        (site.carryOut fleet.recorded shuffles plan).2.registry
        (.ok (site.carryOut fleet.recorded shuffles plan).1) := by
  obtain ⟨deliveries, hmade, hnodes, hlog, hclean, hpeers⟩ :=
    correctAll_heard hone hdelivers fair plan.writes site hsound
  obtain ⟨hsite, hfailed, hreport⟩ := carryOut_spec site fleet.recorded shuffles plan
  refine ⟨deliveries, hsite ▸ hlog, hheard, iff_of_false (fun ⟨_, h⟩ => by cases h) hroom,
    (fun _ h => by cases h), fun _ _ => hall, fun d hd => ?_, hsite ▸ hpeers,
    fun told htold => ?_, fun counts hcounts => ?_⟩
  · have hmem : d.correction ∈ plan.writes := hmade ▸ List.mem_map_of_mem hd
    obtain ⟨hentries, hsome⟩ := Plan.mem_writes_iff.1 hmem
    exact ⟨hnodes d hd, hsome, fun m hm => hplan.called _ _ m (hentries ▸ hm)⟩
  · cases htold
    rw [hfailed, ne_eq, List.append_eq_nil_iff, hplan.clean_iff, hclean, not_and_or]
    simp only [not_forall, not_not, exists_prop]
  · obtain ⟨hnone, rfl⟩ := hreport counts (Except.ok.inj hcounts)
    have hcounted := hplan.written (List.append_eq_nil_iff.1 hnone).1
    refine ⟨?_, hplan.ignored, hplan.belowQuorum, hcounted.trans (Nat.add_assoc _ _ _).symm⟩
    rw [← hall, List.length_map]
    exact hplan.examined

variable {site : Site σ}

/-- Whatever the nodes say, each one thing to each call, the accounts of a pass are kept. -/
theorem repair_accounted (hone : fleet.AnswersOnce) (hdelivers : fleet.Delivers)
    (hreached : site.registry.Reached) (fair : shuffles.Fair) (items : List Suspect) :
    ∃ hearings deliveries,
      site.traffic fleet shuffles items
        = hearings.flatMap Hearing.exchanges ++ deliveries.flatMap Delivery.exchanges ∧
      Accounted site.registry.nodes items hearings deliveries site.registry
        (site.repair fleet shuffles items).2.registry (site.repair fleet shuffles items).1 := by
  have hplain : Prod.map id plain (site.onRecord.repair fleet.recorded shuffles items)
      = site.repair fleet shuffles items := repair_recorded site.onRecord items
  obtain ⟨hearings, hheard, hregistry, hlog, hcut, hdone⟩ := decideAll_heard hone hdelivers
    fair items site.onRecord hreached.sound Plan.follows_empty
  rw [traffic, ← hplain]
  unfold repair
  rcases hdecide : site.onRecord.decideAll fleet.recorded shuffles .empty items
    with ⟨result, site'⟩
  rw [hdecide] at hregistry hlog hcut hdone
  dsimp only at hregistry hlog hcut hdone ⊢
  cases result with
  | error abort =>
    refine ⟨hearings, [], ?_, ?_⟩
    · rw [hlog]
      exact (List.append_nil _).symm
    · change Accounted _ _ _ _ _ site'.registry _
      rw [hregistry]
      exact accounted_of_cut hheard (hcut.1 ⟨abort, rfl⟩) _ abort
  | ok plan =>
    obtain ⟨hall, hfollows⟩ := hdone plan rfl
    have hroom : ¬ ∃ h ∈ hearings, h.Exhausts := fun hover => by
      obtain ⟨abort, habort⟩ := hcut.2 hover
      cases habort
    have hsound : site'.registry.Sound := hregistry ▸ hreached.sound
    have hheard' : Heard site'.registry.nodes items hearings := hregistry ▸ hheard
    obtain ⟨deliveries, hlog', haccounted⟩ :=
      carryOut_accounted hone hdelivers (fair.after items.length) hsound hheard' hroom hall
        hfollows
    refine ⟨hearings, deliveries, ?_, ?_⟩
    · rw [hlog', hlog]
      rfl
    · rw [hregistry] at haccounted
      exact haccounted

/-- Two of three hosts show a value, of which the first does not serve it, and one of the three
shows another field. The value that the second host serves is written, the other field is left
alone, and nothing is reported as a failure. -/
theorem repair_accounted_of_refusal :
    let said : Call → Host → Reply := fun call host => match call with
      | .score _ "f" => if host = "c" then .presence .absent else .presence ⟨true, true, 3⟩
      | .score _ _ => if host = "c" then .presence ⟨true, true, 1⟩ else .presence .absent
      | .select _ _ => if host = "a" then .fault (.network "down") else .record ⟨"f", [7], 3⟩
      | _ => .changes ⟨["f"], []⟩
    let fleet := Fleet.fixed said
    let site : Site Unit := ⟨.trio, ()⟩
    let items : List Suspect := [⟨"k", "f", []⟩, ⟨"k", "g", []⟩]
    let shuffles : Shuffles := fun i => if i = 0 then id else List.reverse
    fleet.AnswersOnce ∧ fleet.Delivers ∧ site.registry.Reached ∧ shuffles.Fair ∧
      (∃ counts, (site.repair fleet shuffles items).1 = .ok (.ok counts)
        ∧ counts = ⟨2, 0, 1, 1, 0⟩) ∧
      ∃ hearings deliveries,
        site.traffic fleet shuffles items
          = hearings.flatMap Hearing.exchanges ++ deliveries.flatMap Delivery.exchanges ∧
        Accounted site.registry.nodes items hearings deliveries site.registry
          (site.repair fleet shuffles items).2.registry (site.repair fleet shuffles items).1 := by
  intro said fleet site items shuffles
  have hone : fleet.AnswersOnce := fun host call _ => ⟨said call host, rfl⟩
  have hdelivers : fleet.Delivers := Fleet.delivers_prompt _
  have hreached : site.registry.Reached := Registry.reached_trio
  have fair : shuffles.Fair
    | 0, hosts => .refl hosts
    | i + 1, hosts => List.reverse_perm hosts
  exact ⟨hone, hdelivers, hreached, fair, ⟨⟨2, 0, 1, 1, 0⟩, by decide +kernel, rfl⟩,
    repair_accounted hone hdelivers hreached fair items⟩

/-- Two of three hosts show a deletion at the greatest score, and the third is down. A reply was
a fault, but the pass does not fail with it: it is cut short. -/
theorem fault_lost_at_greatest :
    let fleet := Fleet.fixed fun call host => match call with
      | .score _ _ => if host = "c" then .fault (.node "down") else .presence ⟨false, true, maxScore⟩
      | _ => .changes ⟨[], ["f"]⟩
    let site : Site Unit := ⟨.trio, ()⟩
    let result := (site.repair fleet (fun _ => id) [⟨"k", "f", []⟩]).1
    fleet.AnswersOnce ∧ fleet.Delivers ∧ site.registry.Reached ∧ result = .error .scoreOverflow ∧
      ¬ ((∃ fault, result = .ok (.error fault)) ↔
        ∃ e ∈ site.traffic fleet (fun _ => id) [⟨"k", "f", []⟩], ∃ fault,
          e.replies = [.fault fault]) := by
  intro fleet site result
  have hcut : result = .error .scoreOverflow := by decide +kernel
  have hdown : (⟨"c", .score "k" "f", [.fault (.node "down")]⟩ : Exchange)
      ∈ site.traffic fleet (fun _ => id) [⟨"k", "f", []⟩] := by decide +kernel
  refine ⟨fun host call _ => ⟨_, rfl⟩, Fleet.delivers_prompt _, Registry.reached_trio, hcut,
    fun hiff => ?_⟩
  obtain ⟨fault, hfault⟩ := hiff.2 ⟨_, hdown, .node "down", rfl⟩
  cases hcut.symm.trans hfault

end Site

end QuorumStore
