import QuorumStore.Proofs.Contacted
import QuorumStore.Proofs.Plans
import QuorumStore.Proofs.WriteVerdicts

/-!
# Acknowledged writes outlast repair

A write on consensus that was acknowledged without a failure has reached a strict
majority of the replicas, and later writes do not take it from them. So whatever
a repair pass puts out again for the field is at least as strong as the write: an
older value or deletion never comes back, whichever replicas fail to answer.
-/

namespace QuorumStore

variable {σ : Type} {fleet : Fleet σ} {stores : σ → Host → Store}

namespace Site

variable {site : Site σ} {shuffle : List Host → List Host} {shuffles : Shuffles}

/-! ## The plan of a pass -/

/-- Everything in a plan has a record behind it. -/
def Plan.AllBacked (stores : Host → Store) (nodes : List Host) (plan : Plan) : Prop :=
  ∀ key c, plan.corrections[key]? = some c →
    (∀ m ∈ c.inserts, Backed stores nodes key .insert m) ∧
      ∀ m ∈ c.deletes, Backed stores nodes key .delete m

theorem Plan.allBacked_empty (stores : Host → Store) (nodes : List Host) :
    Plan.empty.AllBacked stores nodes := by
  intro key c hc
  rw [Plan.empty, Std.TreeMap.getElem?_emptyc] at hc
  cases hc

/-- A plan is backed when whatever it writes is. -/
theorem Plan.allBacked_iff {held : Host → Store} {nodes : List Host} {plan : Plan} :
    plan.AllBacked held nodes ↔
      ∀ key kind, ∀ m ∈ plan.entries key kind, Backed held nodes key kind m := by
  constructor
  · intro h key kind m hm
    cases hc : plan.corrections[key]? with
    | none =>
      rw [entries, hc] at hm
      cases kind <;> cases hm
    | some c =>
      rw [entries_of_some hc] at hm
      cases kind with
      | insert => exact (h key c hc).1 m hm
      | delete => exact (h key c hc).2 m hm
  · intro h key c hc
    refine ⟨fun m hm => h key .insert m ?_, fun m hm => h key .delete m ?_⟩
    · rw [entries_of_some hc]
      exact hm
    · rw [entries_of_some hc]
      exact hm

/-- Taking in a decision that is backed keeps a plan backed. -/
theorem Plan.AllBacked.take {held : Host → Store} {nodes : List Host} {plan : Plan}
    (h : plan.AllBacked held nodes) {key : Key} {decision : Decision} (faults : List RepairFault)
    (hbacked : ∀ kind m, decision.write? = some (kind, m) →
      Backed held nodes key kind m) :
    (plan.take key decision faults).AllBacked held nodes := by
  refine allBacked_iff.2 fun other kind m hm => ?_
  rcases (mem_entries_take faults).1 hm with hold | ⟨rfl, hwrite⟩
  · exact allBacked_iff.1 h other kind m hold
  · exact hbacked kind m hwrite

/-- Deciding about items in turn makes a plan that is backed, and changes nothing. -/
theorem decideAll_spec (honest : fleet.Honest stores) (fair : shuffles.Fair)
    (items : List Suspect) (site : Site σ) (hsound : site.registry.Sound) (plan : Plan)
    (hplan : plan.AllBacked (stores site.world) site.registry.nodes) :
    stores (site.decideAll fleet shuffles plan items).2.world = stores site.world ∧
      (site.decideAll fleet shuffles plan items).2.registry = site.registry ∧
      ∀ done, (site.decideAll fleet shuffles plan items).1 = .ok done →
        done.AllBacked (stores site.world) site.registry.nodes := by
  induction items generalizing site plan shuffles with
  | nil =>
    refine ⟨rfl, rfl, fun done hok => ?_⟩
    cases hok
    exact hplan
  | cons item rest ih =>
    obtain ⟨hstores, hregistry, hbacked⟩ := decideItem_spec honest hsound (fair 0) item
    rw [decideAll]
    rcases hdecide : site.decideItem fleet (shuffles 0) item with ⟨result, site'⟩
    rw [hdecide] at hstores hregistry hbacked
    dsimp only at hstores hregistry hbacked
    rcases result with abort | ⟨decision, faults⟩
    · exact ⟨hstores, hregistry, fun done hok => by cases hok⟩
    · have htaken := hplan.take faults fun kind m => hbacked decision faults kind m rfl
      have hsound' : site'.registry.Sound := hregistry ▸ hsound
      rw [← hstores, ← hregistry] at htaken ⊢
      exact ih (fair.after 1) site' hsound' (plan.take item.key decision faults) htaken

/-- What a plan that is backed writes is backed. -/
theorem Plan.AllBacked.writes {held : Host → Store} {nodes : List Host} {plan : Plan}
    (h : plan.AllBacked held nodes) {c : Correction} (hc : c ∈ plan.writes) {m : FieldValue}
    (hm : m ∈ c.members) : Backed held nodes c.key c.kind m := by
  rw [(mem_writes_iff.1 hc).1] at hm
  exact allBacked_iff.1 h c.key c.kind m hm

/-- What a pass over items writes, in order; a pass that is ended early writes
nothing. -/
def rewrites (site : Site σ) (fleet : Fleet σ) (shuffles : Shuffles) (items : List Suspect) :
    List Correction :=
  match (site.decideAll fleet shuffles .empty items).1 with
  | .ok plan => plan.writes
  | .error _ => []

/-- Everything that a pass writes has a record behind it. -/
theorem backed_of_mem_rewrites (honest : fleet.Honest stores) (fair : shuffles.Fair)
    (hsound : site.registry.Sound) {items : List Suspect} {c : Correction}
    (hc : c ∈ site.rewrites fleet shuffles items) {m : FieldValue} (hm : m ∈ c.members) :
    Backed (stores site.world) site.registry.nodes c.key c.kind m := by
  obtain ⟨-, -, hplan⟩ :=
    decideAll_spec honest fair items site hsound .empty (Plan.allBacked_empty _ _)
  unfold rewrites at hc
  split at hc
  · next plan hok => exact (hplan plan hok).writes hc hm
  · cases hc

/-! ## Making corrections -/

/-- A correction as a batch of writes to a store. -/
def Correction.batch (c : Correction) : Batch := ⟨c.kind, c.key, c.members⟩

/-- A store answers a write by applying it. -/
theorem answer_call (store : Store) (b : Batch) :
    (store.answer (b.kind.call b.key b.members)).2 = store.apply b := by
  obtain ⟨kind, key, members⟩ := b
  cases kind <;> rfl

/-- A store that is sent a write leaves its records or applies the write. -/
theorem apply_of_responds {store after : Store} {b : Batch} {reply : Reply}
    (h : store.Responds (b.kind.call b.key b.members) reply after) :
    after = store ∨ after = store.apply b := by
  cases h with
  | served => exact Or.inr (answer_call store b)
  | lost fault => exact Or.inl rfl
  | unheard fault => exact Or.inr (answer_call store b)

/-- A store that confirms a write has applied it. -/
theorem apply_of_confirmed {store after : Store} {b : Batch} {reply : Reply}
    (h : store.Responds (b.kind.call b.key b.members) reply after)
    (hconfirmed : reply.changes?.isSome = true) : after = store.apply b := by
  cases h with
  | served => exact answer_call store b
  | lost fault => cases hconfirmed
  | unheard fault => cases hconfirmed

/-- Of a write that is scattered each store takes all or leaves it. -/
theorem apply_of_scatter (honest : fleet.Honest stores) (b : Batch) {hosts : List Host}
    (hnodup : hosts.Nodup) (s : σ) (host : Host) :
    stores (fleet.scatter hosts (b.kind.call b.key b.members) s).2 host = stores s host ∨
      stores (fleet.scatter hosts (b.kind.call b.key b.members) s).2 host
        = (stores s host).apply b := by
  obtain ⟨heard, -, hheard⟩ := honest.scatter (b.kind.call b.key b.members) hnodup s
  by_cases hasked : host ∈ hosts
  · exact apply_of_responds (hheard.responds host hasked)
  · exact Or.inl (hheard.others host hasked)

/-- A correction reaches the stores as the write that it is. -/
theorem world_correct (site : Site σ) (fleet : Fleet σ) (shuffle : List Host → List Host)
    (c : Correction) :
    (site.correct fleet shuffle c).2.world
      = (fleet.scatter (shuffle site.registry.nodes) (c.kind.call c.key c.members)
          site.world).2 := by
  unfold correct send
  cases c.kind <;> rfl

/-- Each store takes a correction or leaves it. -/
theorem correct_spec (honest : fleet.Honest stores)
    (hshuffle : ∀ hosts, (shuffle hosts).Perm hosts) (site : Site σ)
    (hsound : site.registry.Sound) (c : Correction) :
    (site.correct fleet shuffle c).2.registry.Sound ∧
      ∀ host, stores (site.correct fleet shuffle c).2.world host = stores site.world host ∨
        stores (site.correct fleet shuffle c).2.world host
          = (stores site.world host).apply c.batch := by
  have hnodup := (hshuffle site.registry.nodes).nodup_iff.2 hsound.nodup_nodes
  constructor
  · unfold correct send
    cases c.kind <;> exact hsound.commit _ _
  · intro host
    rw [world_correct]
    exact apply_of_scatter honest c.batch hnodup site.world host

/-- Each store takes some of the corrections, in their order, and nothing else. -/
theorem correctAll_spec (honest : fleet.Honest stores) (fair : shuffles.Fair)
    (cs : List Correction) (site : Site σ) (hsound : site.registry.Sound) (host : Host) :
    ∃ received : List Correction, received.Sublist cs ∧
      stores (site.correctAll fleet shuffles cs).2.world host
        = (stores site.world host).run (received.map Correction.batch) := by
  induction cs generalizing site shuffles with
  | nil => exact ⟨[], List.Sublist.refl [], (Store.run_nil _).symm⟩
  | cons c rest ih =>
    obtain ⟨hsound', hstep⟩ := correct_spec honest (fair 0) site hsound c
    obtain ⟨received, hsub, hrun⟩ :=
      ih (fair.after 1) (site.correct fleet (shuffles 0) c).2 hsound'
    have hworld : (site.correctAll fleet shuffles (c :: rest)).2.world
        = ((site.correct fleet (shuffles 0) c).2.correctAll fleet (shuffles.after 1)
            rest).2.world := rfl
    rw [hworld, hrun]
    rcases hstep host with hkept | htaken
    · exact ⟨received, hsub.cons c, by rw [hkept]⟩
    · refine ⟨c :: received, hsub.cons_cons c, ?_⟩
      rw [htaken, List.map_cons, Store.run_cons]

/-- A pass writes its rewrites and nothing else. -/
theorem repair_spec (honest : fleet.Honest stores) (fair : shuffles.Fair)
    (hsound : site.registry.Sound) (items : List Suspect) (host : Host) :
    ∃ received : List Correction, received.Sublist (site.rewrites fleet shuffles items) ∧
      stores (site.repair fleet shuffles items).2.world host
        = (stores site.world host).run (received.map Correction.batch) := by
  obtain ⟨hstores, hregistry, -⟩ :=
    decideAll_spec honest fair items site hsound .empty (Plan.allBacked_empty _ _)
  unfold repair rewrites
  rcases hdecide : site.decideAll fleet shuffles .empty items with ⟨result, site'⟩
  rw [hdecide] at hstores hregistry
  dsimp only at hstores hregistry ⊢
  cases result with
  | error abort => exact ⟨[], List.Sublist.refl [], by rw [hstores]; exact (Store.run_nil _).symm⟩
  | ok plan =>
    have hsound' : site'.registry.Sound := hregistry ▸ hsound
    obtain ⟨received, hsub, hrun⟩ :=
      correctAll_spec honest (fair.after items.length) plan.writes site' hsound' host
    refine ⟨received, hsub, ?_⟩
    rw [hstores] at hrun
    rw [← hrun]
    unfold carryOut
    dsimp only
    split_ifs <;> rfl

/-! ## Acknowledged writes -/

/-- A write that is done was applied by every host it went to. -/
theorem applied_of_done (honest : fleet.Honest stores) {kind : WriteKind} {key : Key}
    {members : List FieldValue} {quorum : Quorum}
    (hnodup : (site.registry.write shuffle key quorum).Nodup) {changes : ChangeSet}
    (h : (site.write fleet shuffle kind key members quorum).1.outcome = .done changes)
    {host : Host} (hm : host ∈ site.registry.write shuffle key quorum) :
    stores (site.write fleet shuffle kind key members quorum).2.world host
      = (stores site.world host).apply ⟨kind, key, members⟩ := by
  obtain ⟨heard, hreplies, hheard⟩ := honest.scatter (kind.call key members) hnodup site.world
  obtain ⟨-, ⟨hclean, -⟩, -⟩ := Verdict.undisputed_of_done h
  have hsent : (Registry.digest host, heard host)
      ∈ (fleet.scatter (site.registry.write shuffle key quorum) (kind.call key members)
          site.world).1 :=
    hreplies.mem_iff.2 (List.mem_map.2 ⟨host, hm, rfl⟩)
  exact apply_of_confirmed (b := ⟨kind, key, members⟩) (hheard.responds host hm)
    (hclean _ hsent)

/-- An acknowledged write is held by a majority. -/
theorem heldByMajority_of_done (honest : fleet.Honest stores) (hsound : site.registry.Sound)
    (hshuffle : ∀ hosts, (shuffle hosts).Perm hosts)
    (howns : ∀ host ∈ site.registry.ring.hosts, site.registry.ring.Owns host) {kind : WriteKind}
    {key : Key} {members : List FieldValue} {quorum : Quorum} (hquorum : quorum ≠ .one)
    {changes : ChangeSet}
    (hdone : (site.write fleet shuffle kind key members quorum).1.outcome = .done changes)
    {m : FieldValue} (hm : m ∈ members) :
    HeldByMajority (stores (site.write fleet shuffle kind key members quorum).2.world)
      site.registry.ring.hosts key m.field (kind.cell m).rank := by
  have howns' (host : Host) (hin : host ∈ site.registry.ring.members) :
      site.registry.ring.Owns host := howns host (Placement.Ring.mem_hosts_iff.2 hin)
  have hsome : site.registry.write shuffle key quorum ≠ [] := fun hnone =>
    (Verdict.undisputed_of_done hdone).1 (by rw [hnone]; rfl)
  obtain ⟨hnodup, hin, hhalf⟩ :=
    hsound.strict_majority_of_write hshuffle howns' hquorum hsome
  refine ⟨site.registry.write shuffle key quorum, hnodup, fun host hc => ?_, ?_, fun host hc => ?_⟩
  · exact Placement.Ring.mem_hosts_iff.2 (hin host hc)
  · rw [Placement.Ring.length_hosts]
    exact hhalf
  · rw [applied_of_done honest hnodup hdone hc]
    exact Store.reaches_apply (b := ⟨kind, key, members⟩) hm

end Site

/-- A majority of hosts is a majority of the same hosts in another order. -/
theorem HeldByMajority.perm {held : Host → Store} {hosts others : List Host} {key : Key}
    {field : Field} {rank : Rank} (h : HeldByMajority held hosts key field rank)
    (hperm : hosts.Perm others) : HeldByMajority held others key field rank := by
  obtain ⟨holders, hnodup, hsub, hlen, hheld⟩ := h
  refine ⟨holders, hnodup, fun host hm => hperm.mem_iff.1 (hsub host hm), ?_, hheld⟩
  rw [← hperm.length_eq]
  exact hlen

/-- An acknowledged write outlasts repair. A write of a field that needed more
than one success was done on a registry whose ring hosts all own a position;
then any number of further writes reached the replicas; then a registry of the
same membership ran a repair pass. Whatever the pass writes for the field is a
record that a replica held when the pass began, at the score after it and no
weaker than the acknowledged write. And a replica's store afterwards is the one
it had, with some of what the pass writes applied in order. -/
theorem Site.repair_keeps_acknowledged (honest : fleet.Honest stores)
    {writer repairer : Registry} (hwriter : writer.Reached) (hrepairer : repairer.Reached)
    (hmembers : repairer.ring.hosts = writer.ring.hosts)
    (howns : ∀ host ∈ writer.ring.hosts, writer.ring.Owns host)
    {shuffle : List Host → List Host} (hshuffle : ∀ hosts, (shuffle hosts).Perm hosts)
    {shuffles : Shuffles} (fair : shuffles.Fair)
    {kind : WriteKind} {key : Key} {members : List FieldValue} {quorum : Quorum}
    (hquorum : quorum ≠ .one) {before after : σ} {changes : ChangeSet}
    (hdone : ((⟨writer, before⟩ : Site σ).write fleet shuffle kind key members quorum).1.outcome
      = .done changes)
    (hafter : ∀ host, ∃ batches : List Batch, stores after host
      = (stores ((⟨writer, before⟩ : Site σ).write fleet shuffle kind key members quorum).2.world
          host).run batches)
    {m : FieldValue} (hm : m ∈ members) (items : List Suspect) :
    (∀ c ∈ (⟨repairer, after⟩ : Site σ).rewrites fleet shuffles items, c.key = key →
      ∀ n ∈ c.members, n.field = m.field →
        ∃ host ∈ repairer.ring.hosts, ∃ held, (stores after host).cell? key m.field = some held ∧
          held.Reissued c.kind n ∧ (kind.cell m).rank ≤ held.rank) ∧
    ∀ host, ∃ received : List Correction,
      received.Sublist ((⟨repairer, after⟩ : Site σ).rewrites fleet shuffles items) ∧
        stores ((⟨repairer, after⟩ : Site σ).repair fleet shuffles items).2.world host
          = (stores after host).run (received.map Correction.batch) := by
  have hperm := hrepairer.sound.nodes_perm
  have hmajority := (heldByMajority_of_done honest hwriter.sound hshuffle howns hquorum hdone
    hm).run hafter
  rw [← hmembers] at hmajority
  refine ⟨fun c hc hkey n hn hfield => ?_, ?_⟩
  · obtain ⟨host, hnode, held, hheld, hreissued, habove⟩ :=
      backed_of_mem_rewrites honest fair hrepairer.sound hc hn
    rw [hkey, hfield] at hheld habove
    exact ⟨host, hperm.mem_iff.1 hnode, held, hheld, hreissued,
      habove _ (hmajority.perm hperm.symm)⟩
  · exact repair_spec honest fair hrepairer.sound items

/-- A registry that was just made, with two ring positions for each host. -/
def Registry.fresh : Registry := ⟨"w", ⟨2, 64, 1⟩, .empty 2 Nat.two_pos, ∅, none⟩

/-- It may take in hosts. -/
theorem Registry.reached_of_fresh {hosts : List Host} {churn : Churn}
    (hjoined : (fresh.update hosts).1 = .ok churn) : (fresh.update hosts).2.Reached := by
  have hmade : Registry.new ⟨2, 64, 1⟩ "w" = .ok fresh := rfl
  exact (Reached.new hmade).update (Prod.ext hjoined rfl)

/-- A registry of three hosts. -/
def Registry.trio : Registry := (fresh.update ["a", "b", "c"]).2

theorem Registry.reached_trio : trio.Reached := by
  have hjoined : (fresh.update ["a", "b", "c"]).1 = .ok ⟨3, 0⟩ := by decide +kernel
  exact reached_of_fresh hjoined

/-- Replicas of which one, `b`, does not tell scores. -/
def Fleet.muted : Fleet (Host → Store) :=
  direct fun host call => decide (host = "b") && decide (call.name = "score")

/-- Three empty replicas after a deletion on consensus, which goes to `b` and `c`. -/
def Site.deleted : Verdict ChangeSet × Site (Host → Store) :=
  (⟨Registry.trio, fun _ => .empty 1 Nat.one_pos⟩ : Site (Host → Store)).write .muted id .delete
    "k" [⟨"f", [], 5⟩] .consensus

/-- Their stores after an older value has reached `a`. -/
def Site.storesLater : Host → Store :=
  Function.update deleted.2.world "a"
    ((deleted.2.world "a").run [⟨.insert, "k", [⟨"f", [1], 3⟩]⟩])

/-- A deletion at score 5 is done on two of three hosts, then an older value reaches
the third. One of the two fails to answer the pass, which still writes the
deletion out again, at score 6. -/
theorem Site.repair_keeps_deletion_of_two :
    deleted.1.outcome = .done ⟨["f"], []⟩ ∧
    (⟨Registry.trio, storesLater⟩ : Site (Host → Store)).rewrites .muted (fun _ => id)
        [⟨"k", "f", []⟩] = [⟨.delete, "k", [⟨"f", [], 6⟩]⟩] ∧
    ∀ c ∈ (⟨Registry.trio, storesLater⟩ : Site (Host → Store)).rewrites .muted (fun _ => id)
        [⟨"k", "f", []⟩], c.key = "k" → ∀ n ∈ c.members, n.field = "f" →
      ∃ host ∈ Registry.trio.ring.hosts, ∃ held, (storesLater host).cell? "k" "f" = some held ∧
        held.Reissued c.kind n ∧ (WriteKind.delete.cell ⟨"f", [], 5⟩).rank ≤ held.rank := by
  have hdone : deleted.1.outcome = .done ⟨["f"], []⟩ := by decide +kernel
  have hlater (host : Host) :
      ∃ batches : List Batch, storesLater host = (deleted.2.world host).run batches := by
    by_cases h : host = "a"
    · subst h
      refine ⟨[⟨.insert, "k", [⟨"f", [1], 3⟩]⟩], ?_⟩
      rw [storesLater, Function.update_self]
    · refine ⟨[], ?_⟩
      rw [Store.run_nil, storesLater, Function.update_of_ne h]
  have howns : ∀ host ∈ Registry.trio.ring.hosts, Registry.trio.ring.Owns host := by
    decide +kernel
  refine ⟨hdone, by decide +kernel, ?_⟩
  exact (Site.repair_keeps_acknowledged (Fleet.honest_direct _) Registry.reached_trio
    Registry.reached_trio rfl howns (fun _ => List.Perm.refl _) (fun _ _ => List.Perm.refl _)
    (by decide) hdone hlater List.mem_cons_self _).1

end QuorumStore
