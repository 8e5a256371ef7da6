import QuorumStore.Proofs.Diagnosed
import QuorumStore.Proofs.Honest
import QuorumStore.Proofs.Peers
import QuorumStore.Proofs.StrictMajority
import QuorumStore.Repair.Pass

/-!
# What a repair pass writes

Among honest replicas a pass makes nothing up: whatever it writes for a field is
a record that some replica holds, at the score after the one held. The record is
at least as strong as any that a majority of the replicas hold, because the
replicas that know the field are a majority too, and the two have a replica in
common. This needs no replica in particular to answer.
-/

namespace QuorumStore

/-- More than half of the hosts hold a record of at least the given rank. -/
def HeldByMajority (stores : Host → Store) (hosts : List Host) (key : Key) (field : Field)
    (rank : Rank) : Prop :=
  ∃ holders : List Host, holders.Nodup ∧ (∀ host ∈ holders, host ∈ hosts) ∧
    hosts.length < 2 * holders.length ∧
    ∀ host ∈ holders, Cell.Reaches ((stores host).cell? key field) rank

/-- Two groups of different hosts that are each more than half of all have a host
in common. -/
theorem exists_mem_both {hosts a b : List Host} (ha : a.Nodup) (hb : b.Nodup)
    (hsa : ∀ host ∈ a, host ∈ hosts) (hsb : ∀ host ∈ b, host ∈ hosts)
    (hla : hosts.length < 2 * a.length) (hlb : hosts.length < 2 * b.length) :
    ∃ host ∈ a, host ∈ b := by
  by_contra hnone
  have happart (x : Host) (hx : x ∈ a) (y : Host) (hy : y ∈ b) : x ≠ y :=
    fun he => hnone ⟨x, hx, he ▸ hy⟩
  have hall : (a ++ b).Nodup := List.nodup_append.2 ⟨ha, hb, happart⟩
  have hsub : a ++ b ⊆ hosts := fun host hm => by
    rcases List.mem_append.1 hm with hm | hm
    · exact hsa host hm
    · exact hsb host hm
  have hlen := (hall.subperm hsub).length_le
  rw [List.length_append] at hlen
  omega

/-- Further writes take no record from a majority. -/
theorem HeldByMajority.run {before after : Host → Store} {hosts : List Host} {key : Key}
    {field : Field} {rank : Rank} (h : HeldByMajority before hosts key field rank)
    (hafter : ∀ host, ∃ batches, after host = (before host).run batches) :
    HeldByMajority after hosts key field rank := by
  obtain ⟨holders, hnodup, hsub, hlen, hheld⟩ := h
  refine ⟨holders, hnodup, hsub, hlen, fun host hm => ?_⟩
  obtain ⟨batches, hrun⟩ := hafter host
  rw [hrun]
  exact Store.reaches_run (hheld host hm) batches

/-- A member of a write puts a held record out again, at the score after it. -/
structure Cell.Reissued (held : Cell) (kind : WriteKind) (m : FieldValue) : Prop where
  /-- The score is the next one. -/
  score : m.score = held.score + 1
  /-- A value is written as a value, and a deletion as a deletion. -/
  kind : kind = if held.live then .insert else .delete
  /-- A value is written as it is held. -/
  value : held.live = true → m.value = held.value

/-- The record that puts a record out again. -/
def Cell.next (c : Cell) : Cell := ⟨if c.live then c.value else [], c.score + 1, c.live⟩

/-- A record is put out again in one way. -/
theorem Cell.Reissued.cell_eq {held : Cell} {kind : WriteKind} {m : FieldValue}
    (h : held.Reissued kind m) : kind.cell m = held.next := by
  rw [h.kind]
  cases hl : held.live with
  | true => simp [WriteKind.cell, Cell.next, hl, h.score, h.value hl]
  | false => simp [WriteKind.cell, Cell.next, hl, h.score]

theorem Cell.rank_next (c : Cell) : c.next.rank = toLex (c.score + 1, c.live) := rfl

/-- A member of a write has a record behind it: some host holds what it puts out,
and no majority holds anything stronger. -/
def Backed (stores : Host → Store) (hosts : List Host) (key : Key) (kind : WriteKind)
    (m : FieldValue) : Prop :=
  ∃ host ∈ hosts, ∃ held, (stores host).cell? key m.field = some held ∧
    held.Reissued kind m ∧
    ∀ rank, HeldByMajority stores hosts key m.field rank → rank ≤ held.rank

/-! ## Asking the replicas -/

variable {σ : Type} {fleet : Fleet σ} {stores : σ → Host → Store}

/-- A call that no store is changed by. -/
def Call.Quiet (call : Call) : Prop := ∀ store : Store, (store.answer call).2 = store

theorem quiet_score (key : Key) (field : Field) : (Call.score key field).Quiet := fun _ => rfl

theorem quiet_select (key : Key) (field : Field) : (Call.select key field).Quiet := by
  intro store
  rw [Store.answer]
  split <;> rfl

/-- What is heard to a quiet call: the answer of the store, or a fault. -/
theorem Store.Responds.of_quiet {store after : Store} {call : Call} {reply : Reply}
    (h : store.Responds call reply after) (hquiet : call.Quiet) :
    after = store ∧ (reply = (store.answer call).1 ∨ ∃ fault, reply = .fault fault) := by
  cases h with
  | served => exact ⟨hquiet store, Or.inl rfl⟩
  | lost fault => exact ⟨rfl, Or.inr ⟨fault, rfl⟩⟩
  | unheard fault => exact ⟨hquiet store, Or.inr ⟨fault, rfl⟩⟩

/-- A quiet call to several hosts leaves every store as it is. -/
theorem Fleet.Heard.stores_eq {hosts : List Host} {call : Call} {heard : Host → Reply} {s s' : σ}
    (h : Fleet.Heard stores hosts call heard s s') (hquiet : call.Quiet) :
    stores s' = stores s := by
  funext host
  by_cases hm : host ∈ hosts
  · exact ((h.responds host hm).of_quiet hquiet).1
  · exact h.others host hm

/-- The answers among the replies to a repair call are those of the wanted kind. -/
theorem RepairFault.sort_fst {α : Type} (want : Reply → Option α) (stage : String)
    (replies : List Tagged) :
    (RepairFault.sort want stage replies).1
      = replies.filterMap fun tagged => (want tagged.2).map fun value => (tagged.1, value) := by
  induction replies with
  | nil => rfl
  | cons first rest ih =>
    obtain ⟨node, reply⟩ := first
    rw [RepairFault.sort, List.filterMap_cons]
    cases hwant : want reply with
    | some value => simp [ih]
    | none => cases reply <;> simp [ih]

namespace Site

variable {site : Site σ} {shuffle : List Host → List Host} {item : Suspect}

/-- The snapshots that come back from several hosts are those of their stores. -/
theorem presence_heard {hosts : List Host} {heard : Host → Reply} {s s' : σ} {key : Key}
    {field : Field} (h : Fleet.Heard stores hosts (.score key field) heard s s') {host : Host}
    (hm : host ∈ hosts) {p : Presence} (hp : (heard host).presence? = some p) :
    p = (stores s host).score key field := by
  rcases ((h.responds host hm).of_quiet (quiet_score key field)).2 with hown | ⟨fault, hfault⟩
  · rw [hown] at hp
    exact (Option.some.inj hp).symm
  · rw [hfault] at hp
    cases hp

/-- The hosts that were heard to know the field. -/
def reporters (hosts : List Host) (heard : Host → Reply) : List Host :=
  hosts.filter fun host => (heard host).presence?.any (·.present)

/-- As many hosts are heard to know the field as snapshots say so. -/
theorem length_known (hosts : List Host) (heard : Host → Reply) :
    (((hosts.filterMap fun host => (heard host).presence?.map fun p =>
      (Registry.digest host, p)).map Prod.snd).filter (·.present)).length
        = (reporters hosts heard).length := by
  induction hosts with
  | nil => rfl
  | cons host rest ih =>
    rw [reporters] at ih ⊢
    rw [List.filterMap_cons, List.filter_cons]
    cases hp : (heard host).presence? with
    | none => simpa using ih
    | some p =>
      by_cases hpresent : p.present = true
      · simpa [hpresent] using ih
      · simpa [hpresent] using ih

/-- The snapshots of a field that come back when every node is asked. -/
def snapshots (site : Site σ) (fleet : Fleet σ) (shuffle : List Host → List Host)
    (item : Suspect) : List (UInt32 × Presence) :=
  (RepairFault.sort Reply.presence? "score"
    (fleet.scatter (shuffle site.registry.nodes) (.score item.key item.field) site.world).1).1

/-- What the snapshots of a field are worth. -/
structure Snapshots (stores : Host → Store) (nodes : List Host) (item : Suspect)
    (answers : List (UInt32 × Presence)) : Prop where
  /-- A snapshot is that of the node that it is marked with. -/
  own : ∀ node p, (node, p) ∈ answers → ∃ host ∈ nodes, Registry.digest host = node ∧
    p = (stores host).score item.key item.field
  /-- Those that know the field come from as many nodes, and show what these hold. -/
  reporters : ∃ reporters : List Host, reporters.Nodup ∧ (∀ host ∈ reporters, host ∈ nodes) ∧
    ((answers.map Prod.snd).filter (·.present)).length = reporters.length ∧
    ∀ host ∈ reporters, ∃ p ∈ answers.map Prod.snd, p.present = true ∧
      p = (stores host).score item.key item.field

/-- Honest replicas send snapshots of their stores, and change none of these. -/
theorem snapshots_spec (honest : fleet.Honest stores) (hsound : site.registry.Sound)
    (hshuffle : ∀ hosts, (shuffle hosts).Perm hosts) (item : Suspect) :
    Snapshots (stores site.world) site.registry.nodes item (site.snapshots fleet shuffle item) ∧
      stores (fleet.scatter (shuffle site.registry.nodes) (.score item.key item.field)
        site.world).2 = stores site.world := by
  have hperm := hshuffle site.registry.nodes
  have hnodup := hperm.nodup_iff.2 hsound.nodup_nodes
  obtain ⟨heard, hreplies, hheard⟩ :=
    honest.scatter (.score item.key item.field) hnodup site.world
  have hanswers : (site.snapshots fleet shuffle item).Perm
      ((shuffle site.registry.nodes).filterMap fun host =>
        (heard host).presence?.map fun p => (Registry.digest host, p)) := by
    have hsorted := hreplies.filterMap fun tagged =>
      tagged.2.presence?.map fun p => (tagged.1, p)
    rw [List.filterMap_map, ← RepairFault.sort_fst] at hsorted
    exact hsorted
  refine ⟨⟨fun node p hm => ?_, ?_⟩, hheard.stores_eq (quiet_score _ _)⟩
  · obtain ⟨host, hin, hmap⟩ := List.mem_filterMap.1 (hanswers.mem_iff.1 hm)
    obtain ⟨q, hq, heq⟩ := Option.map_eq_some_iff.1 hmap
    cases heq
    exact ⟨host, hperm.mem_iff.1 hin, rfl, presence_heard hheard hin hq⟩
  · refine ⟨reporters (shuffle site.registry.nodes) heard, hnodup.filter _, ?_, ?_, ?_⟩
    · exact fun host hm => hperm.mem_iff.1 (List.mem_of_mem_filter hm)
    · rw [← length_known]
      exact ((hanswers.map Prod.snd).filter (·.present)).length_eq
    · intro host hm
      obtain ⟨hin, hknows⟩ := List.mem_filter.1 hm
      obtain ⟨p, hp, hpresent⟩ := (Option.any_eq_true _ _).1 hknows
      have hsent : (Registry.digest host, p) ∈ site.snapshots fleet shuffle item := by
        refine hanswers.mem_iff.2 (List.mem_filterMap.2 ⟨host, hin, ?_⟩)
        rw [hp]
        rfl
      exact ⟨p, List.mem_map.2 ⟨_, hsent, rfl⟩, hpresent, presence_heard hheard hin hp⟩

/-- What an inquiry about an item brings to light. -/
structure Inquiry (stores : σ → Host → Store) (site : Site σ) (item : Suspect)
    (finding : Finding) (site' : Site σ) : Prop where
  /-- Asking changes no store. -/
  stores_eq : stores site'.world = stores site.world
  /-- Asking does not touch the registry. -/
  registry_eq : site'.registry = site.registry
  /-- The diagnosis is about the field of the item. -/
  field_eq : finding.diagnosis.field = item.field
  /-- The winners hold the winning state. -/
  winner : ∀ host ∈ finding.winners, host ∈ site.registry.nodes ∧
    ∃ held, (stores site.world host).cell? item.key item.field = some held ∧
      held.rank = finding.diagnosis.rank
  /-- Unless the item is ignored, some replica holds the winning state. -/
  holder : finding.diagnosis.ignore = false → ∃ host ∈ site.registry.nodes,
    ∃ held, (stores site.world host).cell? item.key item.field = some held ∧
      held.rank = finding.diagnosis.rank
  /-- With a quorum, no majority holds anything above the winning state. -/
  above : finding.diagnosis.ignore = false → finding.diagnosis.quorum = true → ∀ rank,
    HeldByMajority (stores site.world) site.registry.nodes item.key item.field rank →
      rank ≤ finding.diagnosis.rank

/-- A node that shows the winning state holds it. -/
theorem exists_held {d : Diagnosis} {host : Host} {key : Key} {field : Field}
    {held : Host → Store} {p : Presence} (hown : p = (held host).score key field)
    (hpresent : p.present = true) (hrank : p.rank = d.rank) :
    ∃ c, (held host).cell? key field = some c ∧ c.rank = d.rank := by
  subst hown
  obtain ⟨c, hc, hcell⟩ := Store.exists_cell_of_present hpresent
  exact ⟨c, hc, hcell.symm.trans hrank⟩

/-- Among honest replicas an inquiry finds what they hold. -/
theorem investigate_spec (honest : fleet.Honest stores) (hsound : site.registry.Sound)
    (hshuffle : ∀ hosts, (shuffle hosts).Perm hosts) (item : Suspect) :
    Inquiry stores site item (site.investigate fleet shuffle item).1
      (site.investigate fleet shuffle item).2 := by
  obtain ⟨hanswers, hstores⟩ := snapshots_spec honest hsound hshuffle item
  have hasked : (shuffle site.registry.nodes).length = site.registry.nodes.length :=
    (hshuffle _).length_eq
  let answers := site.snapshots fleet shuffle item
  let d := Diagnosis.ofPresences item (shuffle site.registry.nodes).length (answers.map Prod.snd)
  have hd : (site.investigate fleet shuffle item).1.diagnosis = d := rfl
  have hwinners : (site.investigate fleet shuffle item).1.winners
      = answers.filterMap fun reply =>
        if d.isWinner reply.2 then
          (shuffle site.registry.nodes).find? fun host => Registry.digest host = reply.1
        else none := rfl
  refine ⟨hstores, rfl, ?_, ?_, ?_, ?_⟩
  · rw [hd]
    change (Diagnosis.ofPresences _ _ _).field = item.field
    unfold Diagnosis.ofPresences
    dsimp only
    split <;> rfl
  · rw [hwinners, hd]
    intro host hm
    obtain ⟨⟨node, p⟩, hp, hfind⟩ := List.mem_filterMap.1 hm
    dsimp only at hfind
    split_ifs at hfind with hwin
    obtain ⟨sender, hsender, hnode, hown⟩ := hanswers.own node p hp
    -- the host found under the digest is the one that sent the snapshot
    have hfound : host ∈ site.registry.nodes :=
      (hshuffle _).mem_iff.1 (List.mem_of_find?_eq_some hfind)
    have hdigest : Registry.digest host = node := by
      simpa using List.find?_some hfind
    have hsame : host = sender :=
      hsound.digest_inj (hsound.mem_nodes.1 hfound) (hsound.mem_nodes.1 hsender)
        (hdigest.trans hnode.symm)
    obtain ⟨hpresent, hrank⟩ := Diagnosis.isWinner_iff.1 hwin
    rw [hsame]
    exact ⟨hsender, exists_held hown hpresent hrank⟩
  · rw [hd]
    intro hignore
    obtain ⟨p, hp, hpresent, hrank⟩ := Diagnosis.exists_winner hignore
    obtain ⟨⟨node, q⟩, hq, rfl⟩ := List.mem_map.1 hp
    obtain ⟨sender, hsender, -, hown⟩ := hanswers.own node q hq
    exact ⟨sender, hsender, exists_held hown hpresent hrank⟩
  · rw [hd]
    intro hignore hquorum rank hmajority
    obtain ⟨holders, hhnodup, hhsub, hhlen, hheld⟩ := hmajority
    obtain ⟨reporters, hrnodup, hrsub, hrlen, hreport⟩ := hanswers.reporters
    obtain ⟨score, -, heq⟩ := Diagnosis.eq_of_not_ignore hignore
    have hmet : Quorum.consensus.met (shuffle site.registry.nodes).length
        ((answers.map Prod.snd).filter (·.present)).length = true := by
      rw [← hquorum]
      exact (congrArg Diagnosis.quorum heq).symm
    have hhalf := Quorum.lt_two_mul_of_met hmet
    rw [hasked, hrlen] at hhalf
    -- a majority holds the rank, a majority reports, so one host does both
    obtain ⟨host, hholder, hreporter⟩ :=
      exists_mem_both hhnodup hrnodup hhsub hrsub hhlen hhalf
    obtain ⟨p, hp, hpresent, hown⟩ := hreport host hreporter
    obtain ⟨c, hc, hreach⟩ := hheld host hholder
    have hshown : p.rank = c.rank := by
      rw [hown, Store.score_eq_of_cell? hc]
      rfl
    have hle := Diagnosis.rank_le hignore hp hpresent
    rw [hshown] at hle
    exact hreach.trans hle

/-! ## Fetching a value -/

/-- One host is asked for its value. -/
theorem askWinner_spec (honest : fleet.Honest stores) (site : Site σ) (key : Key) (field : Field)
    (host : Host) :
    stores (site.askWinner fleet key field host).2.world = stores site.world ∧
      (site.askWinner fleet key field host).2.registry = site.registry ∧
      ∀ value, (site.askWinner fleet key field host).1 = .ok value →
        ∃ record, (stores site.world host).select key field = .ok record ∧
          record.value = value := by
  obtain ⟨reply, hreply, hresponds⟩ := honest.responds host (.select key field) site.world
  obtain ⟨hstore, hanswer⟩ := hresponds.of_quiet (quiet_select key field)
  have hvalue : (site.askWinner fleet key field host).1 = served reply := by
    change served (Fleet.firstReply _) = _
    rw [hreply]
    rfl
  refine ⟨?_, rfl, fun value hok => ?_⟩
  · funext other
    by_cases hother : other = host
    · rw [hother]
      exact hstore
    · exact honest.others host _ _ other hother
  · rw [hvalue] at hok
    rcases hanswer with hown | ⟨fault, hfault⟩
    · rw [Store.answer] at hown
      cases hselect : (stores site.world host).select key field with
      | ok record =>
        rw [hselect] at hown
        rw [hown] at hok
        exact ⟨record, rfl, Except.ok.inj hok⟩
      | error fault =>
        rw [hselect] at hown
        rw [hown] at hok
        cases hok
    · rw [hfault] at hok
      cases hok

/-- A fetched value is one that some winner serves. -/
theorem fetchValue_spec (honest : fleet.Honest stores) (key : Key) (field : Field)
    (winners : List Host) (site : Site σ) (last : Fault) :
    stores (site.fetchValue fleet key field winners last).2.world = stores site.world ∧
      (site.fetchValue fleet key field winners last).2.registry = site.registry ∧
      ∀ value, (site.fetchValue fleet key field winners last).1 = .ok value →
        ∃ host ∈ winners, ∃ record, (stores site.world host).select key field = .ok record ∧
          record.value = value := by
  induction winners generalizing site last with
  | nil => exact ⟨rfl, rfl, fun value hok => by cases hok⟩
  | cons host rest ih =>
    obtain ⟨hstores, hregistry, hserved⟩ := askWinner_spec honest site key field host
    rw [fetchValue]
    rcases hask : site.askWinner fleet key field host with ⟨result, site'⟩
    rw [hask] at hstores hregistry hserved
    dsimp only at hstores hregistry hserved
    cases result with
    | ok value =>
      refine ⟨hstores, hregistry, fun v hok => ?_⟩
      obtain ⟨record, hselect, hvalue⟩ := hserved v hok
      exact ⟨host, List.mem_cons_self, record, hselect, hvalue⟩
    | error fault =>
      obtain ⟨hstores', hregistry', hserved'⟩ := ih site' fault
      refine ⟨hstores'.trans hstores, hregistry'.trans hregistry, fun v hok => ?_⟩
      obtain ⟨winner, hmem, record, hselect, hvalue⟩ := hserved' v hok
      rw [hstores] at hselect
      exact ⟨winner, List.mem_cons_of_mem host hmem, record, hselect, hvalue⟩

/-- A store that serves a value holds it live. -/
theorem exists_live_of_select {store : Store} {key : Key} {field : Field} {record : FieldValue}
    (h : store.select key field = .ok record) :
    ∃ c, store.cell? key field = some c ∧ c.live = true ∧ c.value = record.value := by
  rw [Store.select] at h
  cases hc : store.cell? key field with
  | none =>
    rw [hc] at h
    cases h
  | some c =>
    rw [hc] at h
    dsimp only at h
    split_ifs at h with hlive
    cases h
    exact ⟨c, rfl, hlive, rfl⟩

/-! ## Deciding -/

/-- What a decision writes, and as what. -/
def Decision.write? : Decision → Option (WriteKind × FieldValue)
  | .insert m => some (.insert, m)
  | .delete m => some (.delete, m)
  | .ignore => none
  | .belowQuorum => none
  | .lost _ => none

/-- A score has no successor but the next number. -/
theorem nextScore?_eq_some {score next : Int} (h : nextScore? score = some next) :
    next = score + 1 := by
  unfold nextScore? at h
  split_ifs at h
  exact (Option.some.inj h).symm

/-- What a conclusion writes, it writes with a quorum and at the next score. -/
theorem conclude_write {d : Diagnosis} {value : Except Fault Bytes} {decision : Decision}
    (h : conclude d value = .ok decision) {kind : WriteKind} {m : FieldValue}
    (hwrite : decision.write? = some (kind, m)) :
    d.ignore = false ∧ d.quorum = true ∧ m.field = d.field ∧ m.score = d.score + 1 ∧
      kind = (if d.insert then .insert else .delete) ∧
      (d.insert = true → value = .ok m.value) := by
  unfold conclude at h
  split_ifs at h with hignore hquorum hinsert
  · cases h
    cases hwrite
  · cases h
    cases hwrite
  all_goals
    have hcounts : d.ignore = false := by simpa using hignore
    have hmet : d.quorum = true := by simpa using hquorum
    refine ⟨hcounts, hmet, ?_⟩
  · cases value with
    | error fault =>
      cases h
      cases hwrite
    | ok value =>
      cases hnext : nextScore? d.score with
      | none =>
        rw [hnext] at h
        cases h
      | some next =>
        rw [hnext] at h
        cases h
        cases hwrite
        exact ⟨rfl, nextScore?_eq_some hnext, by rw [if_pos hinsert], fun _ => rfl⟩
  · cases hnext : nextScore? d.score with
    | none =>
      rw [hnext] at h
      cases h
    | some next =>
      rw [hnext] at h
      cases h
      cases hwrite
      exact ⟨rfl, nextScore?_eq_some hnext, by rw [if_neg hinsert], fun hi => absurd hi hinsert⟩

theorem conclude_of_decided {d : Diagnosis} {value : Except Fault Bytes}
    {heard faults : List RepairFault} {decision : Decision}
    (h : ((conclude d value).map fun decision => (decision, heard)) = .ok (decision, faults)) :
    conclude d value = .ok decision := by
  cases hc : conclude d value with
  | error abort =>
    rw [hc] at h
    cases h
  | ok concluded =>
    rw [hc] at h
    cases h
    rfl

/-- What is concluded from a held record of the winning rank puts that record out
again. -/
theorem reissued_of_conclude {d : Diagnosis} {kind : WriteKind} {m : FieldValue} {held : Cell}
    (hrank : held.rank = d.rank) (hscore : m.score = d.score + 1)
    (hkind : kind = if d.insert then .insert else .delete)
    (hvalue : d.insert = true → m.value = held.value) : held.Reissued kind m := by
  obtain ⟨hs, hl⟩ := Diagnosis.eq_of_rank_eq hrank
  constructor
  · rw [hscore, hs]
  · rw [hkind, hl]
  · intro hlive
    exact hvalue (hl ▸ hlive)

/-- What is decided about an item is backed by a replica, and deciding changes
nothing. -/
theorem decideItem_spec (honest : fleet.Honest stores) (hsound : site.registry.Sound)
    (hshuffle : ∀ hosts, (shuffle hosts).Perm hosts) (item : Suspect) :
    stores (site.decideItem fleet shuffle item).2.world = stores site.world ∧
      (site.decideItem fleet shuffle item).2.registry = site.registry ∧
      ∀ decision faults kind m,
        (site.decideItem fleet shuffle item).1 = .ok (decision, faults) →
        decision.write? = some (kind, m) →
        Backed (stores site.world) site.registry.nodes item.key kind m := by
  have hinquiry := investigate_spec honest hsound hshuffle item
  unfold decideItem
  rcases hask : site.investigate fleet shuffle item with ⟨finding, site'⟩
  rw [hask] at hinquiry
  have hstores := hinquiry.stores_eq
  have hregistry := hinquiry.registry_eq
  dsimp only at hinquiry hstores hregistry ⊢
  split_ifs with hneeds
  · obtain ⟨hstores', hregistry', hserved⟩ :=
      fetchValue_spec honest item.key item.field finding.winners site'
        (noServer item.key item.field)
    refine ⟨hstores'.trans hstores, hregistry'.trans hregistry, ?_⟩
    intro decision faults kind m hok hwrite
    have hconcluded := conclude_of_decided hok
    obtain ⟨hignore, hquorum, hfield, hscore, hkind, hvalue⟩ := conclude_write hconcluded hwrite
    have hinsert : finding.diagnosis.insert = true := by
      rw [Diagnosis.needsValue, Bool.and_eq_true] at hneeds
      exact hneeds.2
    obtain ⟨host, hwinner, record, hselect, hrecord⟩ := hserved m.value (hvalue hinsert)
    rw [hstores] at hselect
    obtain ⟨hnode, held, hheld, hrank⟩ := hinquiry.winner host hwinner
    obtain ⟨c, hc, -, hcvalue⟩ := exists_live_of_select hselect
    have hsame : held = c := Option.some.inj (hheld.symm.trans hc)
    rw [hinquiry.field_eq] at hfield
    refine ⟨host, hnode, held, by rw [hfield, hheld], ?_, ?_⟩
    · exact reissued_of_conclude hrank hscore hkind fun _ => by rw [hsame, hcvalue, hrecord]
    · intro rank hmajority
      rw [hfield] at hmajority
      rw [hrank]
      exact hinquiry.above hignore hquorum rank hmajority
  · refine ⟨hstores, hregistry, ?_⟩
    intro decision faults kind m hok hwrite
    have hconcluded := conclude_of_decided hok
    obtain ⟨hignore, hquorum, hfield, hscore, hkind, -⟩ := conclude_write hconcluded hwrite
    have hinsert : ¬ finding.diagnosis.insert = true := fun hi =>
      hneeds (by rw [Diagnosis.needsValue, hignore, hquorum, hi]; rfl)
    obtain ⟨host, hnode, held, hheld, hrank⟩ := hinquiry.holder hignore
    rw [hinquiry.field_eq] at hfield
    refine ⟨host, hnode, held, by rw [hfield, hheld], ?_, ?_⟩
    · exact reissued_of_conclude hrank hscore hkind fun hi => absurd hi hinsert
    · intro rank hmajority
      rw [hfield] at hmajority
      rw [hrank]
      exact hinquiry.above hignore hquorum rank hmajority

end Site

end QuorumStore
