import QuorumStore.Proofs.Healthy

/-!
# Repair brings replicas together

Among healthy replicas a repair pass does its work. Where enough of them hold a
record of a listed field, all of them hold the same one afterwards: the strongest
that was held, at the score after it. Nothing else changes. Several of the strongest
records may carry different values, and an item may be listed twice; the value
that is written first under the new score then stands on every replica.
-/

namespace QuorumStore

/-! ## The strongest of the records -/

/-- The records that hosts hold of a field, host by host. -/
def records (held : Host → Store) (hosts : List Host) (key : Key) (field : Field) : List Cell :=
  hosts.filterMap fun host => (held host).cell? key field

theorem mem_records {held : Host → Store} {hosts : List Host} {key : Key} {field : Field}
    {c : Cell} :
    c ∈ records held hosts key field ↔ ∃ host ∈ hosts, (held host).cell? key field = some c :=
  List.mem_filterMap

/-- A record restores some others: it is live exactly when one of those with the
greatest score is, and then it has the value of such a one; its own score is the next. -/
structure Cell.Restores (c : Cell) (held : List Cell) : Prop where
  /-- The score is the one after the greatest. -/
  score : ∃ top ∈ held, c.score = top.score + 1 ∧ ∀ d ∈ held, d.score ≤ top.score
  /-- The record is live when one with the greatest score was, and otherwise not. -/
  live : c.live = true ↔ ∃ d ∈ held, d.score + 1 = c.score ∧ d.live = true
  /-- A live record has the value of a live one with the greatest score. -/
  value : c.live = true →
    ∃ d ∈ held, d.score + 1 = c.score ∧ d.live = true ∧ d.value = c.value

/-- A member of a write puts out again one of the strongest of some records. -/
def Tops (held : List Cell) (kind : WriteKind) (m : FieldValue) : Prop :=
  ∃ top ∈ held, top.Reissued kind m ∧ ∀ d ∈ held, d.rank ≤ top.rank

/-- What puts out again one of the strongest records stands above all of them. -/
theorem Tops.rank_lt {held : List Cell} {kind : WriteKind} {m : FieldValue}
    (h : Tops held kind m) {d : Cell} (hd : d ∈ held) : d.rank < (kind.cell m).rank := by
  obtain ⟨top, -, hreissued, hmax⟩ := h
  rw [hreissued.cell_eq]
  refine (hmax d hd).trans_lt (Cell.rank_lt_iff.2 (Or.inl ?_))
  exact Int.lt_succ top.score

/-- Whatever puts out again one of the strongest records has the same rank. -/
theorem Tops.rank_eq {held : List Cell} {kind other : WriteKind} {m n : FieldValue}
    (h : Tops held kind m) (h' : Tops held other n) :
    (kind.cell m).rank = (other.cell n).rank := by
  obtain ⟨top, htop, hreissued, hmax⟩ := h
  obtain ⟨top', htop', hreissued', hmax'⟩ := h'
  have hsame : top.rank = top'.rank := le_antisymm (hmax' top htop) (hmax top' htop')
  obtain ⟨hscore, hlive⟩ := Cell.rank_eq_iff.1 hsame
  rw [hreissued.cell_eq, hreissued'.cell_eq, Cell.rank_next, Cell.rank_next, hscore, hlive]

/-- What puts out again one of the strongest records restores them. -/
theorem Tops.restores {held : List Cell} {kind : WriteKind} {m : FieldValue}
    (h : Tops held kind m) : (kind.cell m).Restores held := by
  obtain ⟨top, htop, hreissued, hmax⟩ := h
  have hscore (d : Cell) (hd : d ∈ held) :
      d.score < top.score ∨ (d.score = top.score ∧ d.live ≤ top.live) :=
    Prod.Lex.toLex_le_toLex.1 (hmax d hd)
  rw [hreissued.cell_eq]
  constructor
  · refine ⟨top, htop, rfl, fun d hd => ?_⟩
    rcases hscore d hd with hlt | ⟨hsame, -⟩
    · exact hlt.le
    · exact hsame.le
  · constructor
    · exact fun hl => ⟨top, htop, rfl, hl⟩
    · rintro ⟨d, hd, hnext, hl⟩
      have hsame : d.score = top.score := add_right_cancel hnext
      rcases hscore d hd with hlt | ⟨-, hle⟩
      · exact absurd hsame hlt.ne
      · exact Bool.le_iff_imp.1 hle hl
  · intro hl
    have hvalue : top.next.value = top.value := if_pos hl
    exact ⟨top, htop, rfl, hl, hvalue.symm⟩

/-- Of writes of one rank above what is stored the first stays. -/
theorem Cell.foldl_supersede_level {stored : Option Cell} {first : Cell} {rest : List Cell}
    (habove : ∀ d, stored = some d → d.rank < first.rank)
    (hlevel : ∀ c ∈ rest, c.rank = first.rank) :
    (first :: rest).foldl supersede stored = some first := by
  have hfirst : supersede stored first = some first := by
    cases stored with
    | none => rfl
    | some d => exact if_pos (habove d rfl)
  rw [List.foldl_cons, hfirst]
  clear habove hfirst
  induction rest with
  | nil => rfl
  | cons c rest ih =>
    have hkept : supersede (some first) c = some first :=
      if_neg (hlevel c List.mem_cons_self).not_gt
    rw [List.foldl_cons, hkept]
    exact ih fun d hd => hlevel d (List.mem_cons_of_mem _ hd)

/-! ## Diagnoses -/

/-- What a diagnosis says of records that it was told all of. -/
structure Diagnosis.Exact (d : Diagnosis) (held : List Cell) (asked : Nat) : Prop where
  /-- The field is repaired exactly when enough of those asked hold a record. -/
  acts : (!d.ignore && d.quorum) = Quorum.consensus.met asked held.length
  /-- No record stands above the winning state. -/
  above : d.ignore = false → ∀ c ∈ held, c.rank ≤ d.rank
  /-- A record shows the winning state. -/
  attained : d.ignore = false → ∃ c ∈ held, c.rank = d.rank

/-- The snapshots that know a field are those of the records. -/
theorem filter_present_eq (held : Host → Store) (hosts : List Host) (key : Key) (field : Field) :
    (hosts.map fun host => (held host).score key field).filter (·.present)
      = (records held hosts key field).map fun c => ⟨c.live, true, c.score⟩ := by
  induction hosts with
  | nil => rfl
  | cons host rest ih =>
    rw [records] at ih ⊢
    rw [List.map_cons, List.filter_cons, List.filterMap_cons, ih]
    cases hc : (held host).cell? key field with
    | none => simp [Store.score, hc, Presence.absent]
    | some c => simp [Store.score, hc]

/-- From the snapshots of all hosts, in any order, a diagnosis is exact. -/
theorem Diagnosis.exact_of_perm {held : Host → Store} {hosts : List Host} {item : Suspect}
    {asked : Nat} {replies : List Presence}
    (hperm : replies.Perm (hosts.map fun host => (held host).score item.key item.field)) :
    (ofPresences item asked replies).Exact (records held hosts item.key item.field) asked := by
  have hknown := hperm.filter (·.present)
  rw [filter_present_eq] at hknown
  have hshown (c : Cell) (hc : c ∈ records held hosts item.key item.field) :
      (⟨c.live, true, c.score⟩ : Presence) ∈ replies :=
    List.mem_of_mem_filter (hknown.mem_iff.2 (List.mem_map.2 ⟨c, hc, rfl⟩))
  constructor
  · cases hignore : (ofPresences item asked replies).ignore with
    | true =>
      have hnone : records held hosts item.key item.field = [] := by
        rw [filter_eq_nil_of_ignore hignore] at hknown
        exact List.map_eq_nil_iff.1 hknown.symm.eq_nil
      rw [hnone]
      exact (Quorum.met_consensus_none asked).symm
    | false =>
      obtain ⟨score, -, heq⟩ := eq_of_not_ignore hignore
      rw [heq]
      dsimp only
      rw [hknown.length_eq, List.length_map]
      rfl
  · intro hignore c hc
    exact rank_le hignore (hshown c hc) rfl
  · intro hignore
    obtain ⟨p, hp, hpresent, hrank⟩ := exists_winner hignore
    obtain ⟨c, hc, rfl⟩ := List.mem_map.1
      (hknown.mem_iff.1 (List.mem_filter.2 ⟨hp, hpresent⟩))
    exact ⟨c, hc, hrank⟩

/-! ## Deciding -/

namespace Site

variable {σ : Type} {fleet : Fleet σ} {stores : σ → Host → Store} {site : Site σ}
  {shuffle : List Host → List Host} {shuffles : Shuffles} {item : Suspect}

/-- The records that the nodes of a registry hold of the field of an item. -/
def recordsOf (stores : σ → Host → Store) (site : Site σ) (item : Suspect) : List Cell :=
  records (stores site.world) site.registry.nodes item.key item.field

/-- Among healthy replicas nothing goes wrong in an inquiry, it shows what all nodes
hold, and it names a winner unless the item is to be ignored. -/
theorem investigate_healthy (healthy : fleet.Healthy stores) (hsound : site.registry.Sound)
    (hshuffle : ∀ hosts, (shuffle hosts).Perm hosts) (item : Suspect) :
    (site.investigate fleet shuffle item).1.faults = [] ∧
      (site.investigate fleet shuffle item).1.diagnosis.Exact (site.recordsOf stores item)
        site.registry.nodes.length ∧
      ((site.investigate fleet shuffle item).1.diagnosis.ignore = false →
        (site.investigate fleet shuffle item).1.winners ≠ []) := by
  have hperm := hshuffle site.registry.nodes
  have hreplies := (healthy.scatter (.score item.key item.field)
    (hperm.nodup_iff.2 hsound.nodup_nodes) site.world).1
  refine ⟨?_, ?_, fun hignore => ?_⟩
  · refine RepairFault.sort_snd_eq_nil_iff.2 fun tagged hm => ?_
    obtain ⟨host, -, rfl⟩ := List.mem_map.1 (hreplies.mem_iff.1 hm)
    rfl
  · rw [← hperm.length_eq]
    exact Diagnosis.exact_of_perm (snapshots_perm healthy hsound hshuffle item)
  · obtain ⟨p, hp, hpresent, hrank⟩ := Diagnosis.exists_winner hignore
    obtain ⟨⟨node, q⟩, hq, rfl⟩ := List.mem_map.1 hp
    obtain ⟨host, hin, hnode, -⟩ :=
      (snapshots_spec healthy.honest hsound hshuffle item).1.own node q hq
    -- the sender is among the hosts asked, so some host is found under its digest
    have hfound : ((shuffle site.registry.nodes).find? fun host =>
        Registry.digest host = node).isSome = true :=
      List.find?_isSome.2 ⟨host, hperm.mem_iff.2 hin, decide_eq_true hnode⟩
    obtain ⟨winner, hwinner⟩ := Option.isSome_iff_exists.1 hfound
    refine List.ne_nil_of_mem (a := winner) (List.mem_filterMap.2 ⟨(node, q), hq, ?_⟩)
    dsimp only
    rw [if_pos (Diagnosis.isWinner_iff.2 ⟨hpresent, hrank⟩)]
    exact hwinner

/-- A diagnosis whose score has a successor, with the value where it needs one, is
acted upon. -/
theorem conclude_eq_ok {d : Diagnosis} {value : Except Fault Bytes}
    (hscore : d.ignore = false → d.score < maxScore)
    (hvalue : d.needsValue = true → ∃ v, value = .ok v) :
    ∃ decision, conclude d value = .ok decision ∧ (∀ fault, decision ≠ .lost fault) ∧
      decision.write?.isSome = (!d.ignore && d.quorum) := by
  unfold conclude
  split_ifs with hignore hquorum hinsert
  · exact ⟨.ignore, rfl, fun _ => Decision.noConfusion, by rw [hignore]; rfl⟩
  · refine ⟨.belowQuorum, rfl, fun _ => Decision.noConfusion, ?_⟩
    have hunmet : d.quorum = false := by simpa using hquorum
    rw [hunmet, Bool.and_false]
    rfl
  all_goals
    have hcounts : d.ignore = false := Bool.eq_false_of_not_eq_true hignore
    have hmet : d.quorum = true := by simpa using hquorum
    have hnext : nextScore? d.score = some (d.score + 1) := if_pos (hscore hcounts)
    rw [hnext, hcounts, hmet]
  · have hneeds : d.needsValue = true := by
      rw [Diagnosis.needsValue, hcounts, hmet, hinsert]
      rfl
    obtain ⟨v, rfl⟩ := hvalue hneeds
    exact ⟨.insert ⟨d.field, v, d.score + 1⟩, rfl, fun _ => Decision.noConfusion, rfl⟩
  · exact ⟨.delete ⟨d.field, [], d.score + 1⟩, rfl, fun _ => Decision.noConfusion, rfl⟩

/-- A held record that a conclusion puts out again is of the winning rank. -/
theorem rank_eq_of_reissued {d : Diagnosis} {kind : WriteKind} {m : FieldValue} {held : Cell}
    (h : held.Reissued kind m) (hscore : m.score = d.score + 1)
    (hkind : kind = if d.insert then .insert else .delete) : held.rank = d.rank := by
  have hs : held.score = d.score := by
    have hnext := h.score
    omega
  have hl : held.live = d.insert := by
    rw [h.kind] at hkind
    cases hheld : held.live <;> cases hwins : d.insert <;> simp [hheld, hwins] at hkind ⊢
  rw [Cell.rank, Diagnosis.rank, hs, hl]

/-- What is decided is concluded from what an inquiry finds, with the value fetched
from the winners where one is needed. -/
theorem decideItem_eq (site : Site σ) (fleet : Fleet σ) (shuffle : List Host → List Host)
    (item : Suspect) :
    ∃ value, (site.decideItem fleet shuffle item).1
        = (conclude (site.investigate fleet shuffle item).1.diagnosis value).map
          (fun decision => (decision, (site.investigate fleet shuffle item).1.faults)) ∧
      ((site.investigate fleet shuffle item).1.diagnosis.needsValue = true →
        value = ((site.investigate fleet shuffle item).2.fetchValue fleet item.key item.field
          (site.investigate fleet shuffle item).1.winners (noServer item.key item.field)).1) := by
  unfold decideItem
  dsimp only
  split_ifs with hneeds
  · exact ⟨_, rfl, fun _ => rfl⟩
  · exact ⟨_, rfl, fun h => absurd h hneeds⟩

/-- Where a value is needed, a healthy winner serves it. -/
theorem fetchValue_healthy (healthy : fleet.Healthy stores) (hsound : site.registry.Sound)
    (hshuffle : ∀ hosts, (shuffle hosts).Perm hosts)
    (hneeds : (site.investigate fleet shuffle item).1.diagnosis.needsValue = true) :
    ∃ value, ((site.investigate fleet shuffle item).2.fetchValue fleet item.key item.field
      (site.investigate fleet shuffle item).1.winners (noServer item.key item.field)).1
        = .ok value := by
  have hinquiry := investigate_spec healthy.honest hsound hshuffle item
  obtain ⟨-, -, hwinners⟩ := investigate_healthy healthy hsound hshuffle item
  simp only [Diagnosis.needsValue, Bool.and_eq_true, Bool.not_eq_true'] at hneeds
  refine fetchValue_eq_ok healthy _ (hwinners hneeds.1.1) (fun host hm => ?_) _
  obtain ⟨-, held, hheld, hrank⟩ := hinquiry.winner host hm
  rw [hinquiry.stores_eq]
  exact ⟨held, hheld, (Diagnosis.eq_of_rank_eq hrank).2.trans hneeds.2⟩

/-- Among healthy replicas an item is repaired exactly when enough of them hold a
record, and then with one of the strongest. -/
theorem decideItem_healthy (healthy : fleet.Healthy stores) (hsound : site.registry.Sound)
    (hshuffle : ∀ hosts, (shuffle hosts).Perm hosts)
    (hbelow : ∀ c ∈ site.recordsOf stores item, c.score < maxScore) :
    ∃ decision, (site.decideItem fleet shuffle item).1 = .ok (decision, []) ∧
      (∀ fault, decision ≠ .lost fault) ∧
      (decision.write?.isSome = Quorum.consensus.met site.registry.nodes.length
        (site.recordsOf stores item).length) ∧
      ∀ kind m, decision.write? = some (kind, m) →
        m.field = item.field ∧ Tops (site.recordsOf stores item) kind m := by
  have hinquiry := investigate_spec healthy.honest hsound hshuffle item
  obtain ⟨hclean, hexact, -⟩ := investigate_healthy healthy hsound hshuffle item
  have hbacked := (decideItem_spec healthy.honest hsound hshuffle item).2.2
  obtain ⟨value, hdecided, hfetched⟩ := decideItem_eq site fleet shuffle item
  rw [hclean] at hdecided
  have hscore : (site.investigate fleet shuffle item).1.diagnosis.ignore = false →
      (site.investigate fleet shuffle item).1.diagnosis.score < maxScore := by
    intro hcounts
    obtain ⟨c, hc, hrank⟩ := hexact.attained hcounts
    exact (Diagnosis.eq_of_rank_eq hrank).1 ▸ hbelow c hc
  have hvalue : (site.investigate fleet shuffle item).1.diagnosis.needsValue = true →
      ∃ v, value = .ok v := fun hneeds =>
    hfetched hneeds ▸ fetchValue_healthy healthy hsound hshuffle hneeds
  obtain ⟨decision, hconcluded, hhad, hwrites⟩ := conclude_eq_ok hscore hvalue
  rw [hconcluded] at hdecided
  refine ⟨decision, hdecided, hhad, hwrites.trans hexact.acts, fun kind m hwrite => ?_⟩
  obtain ⟨hcounts, -, hfield, hnext, hkind, -⟩ := conclude_write hconcluded hwrite
  obtain ⟨host, hnode, held, hheld, hreissued, -⟩ := hbacked decision _ kind m hdecided hwrite
  rw [hinquiry.field_eq] at hfield
  rw [hfield] at hheld
  refine ⟨hfield, held, mem_records.2 ⟨host, hnode, hheld⟩, hreissued, ?_⟩
  rw [rank_eq_of_reissued hreissued hnext hkind]
  exact hexact.above hcounts

/-! ## The plan of a pass -/

/-- What a plan says after some items, of stores that did not change meanwhile. -/
structure Plan.Exact (held : Host → Store) (nodes : List Host) (items : List Suspect)
    (plan : Plan) : Prop where
  /-- Nothing went wrong. -/
  clean : plan.faults = []
  /-- Whatever is written is for an item that enough nodes hold, and one of the
  strongest of its records. -/
  entry : ∀ key kind, ∀ m ∈ plan.entries key kind,
    (∃ item ∈ items, item.key = key ∧ item.field = m.field) ∧
      Quorum.consensus.met nodes.length (records held nodes key m.field).length = true ∧
      Tops (records held nodes key m.field) kind m
  /-- Something is written for every item that enough nodes hold. -/
  listed : ∀ item ∈ items,
    Quorum.consensus.met nodes.length (records held nodes item.key item.field).length = true →
      ∃ kind, ∃ m ∈ plan.entries item.key kind, m.field = item.field

theorem Plan.exact_empty (held : Host → Store) (nodes : List Host) :
    Plan.empty.Exact held nodes [] where
  clean := rfl
  entry key kind m hm := by
    rw [entries_empty] at hm
    cases hm
  listed item hm := by cases hm

/-- A plan takes in what was decided about one more item. -/
theorem Plan.Exact.take {held : Host → Store} {nodes : List Host} {items : List Suspect}
    {plan : Plan} (h : plan.Exact held nodes items) {item : Suspect} {decision : Decision}
    (hhad : ∀ fault, decision ≠ .lost fault)
    (hwrites : decision.write?.isSome = Quorum.consensus.met nodes.length
      (records held nodes item.key item.field).length)
    (htops : ∀ kind m, decision.write? = some (kind, m) →
      m.field = item.field ∧ Tops (records held nodes item.key item.field) kind m) :
    (plan.take item.key decision []).Exact held nodes (items ++ [item]) where
  clean := by
    cases decision with
    | lost fault => exact absurd rfl (hhad fault)
    | _ => exact (List.append_nil _).trans h.clean
  entry key kind m hm := by
    rcases (mem_entries_take []).1 hm with hold | ⟨rfl, hwrite⟩
    · obtain ⟨⟨other, hother, hkey⟩, hmet, htop⟩ := h.entry key kind m hold
      exact ⟨⟨other, List.mem_append_left _ hother, hkey⟩, hmet, htop⟩
    · obtain ⟨hfield, htop⟩ := htops kind m hwrite
      rw [hwrite, Option.isSome_some] at hwrites
      rw [hfield]
      exact ⟨⟨item, List.mem_append_right _ (List.mem_singleton.2 rfl), rfl, rfl⟩,
        hwrites.symm, htop⟩
  listed other hother hmet := by
    rcases List.mem_append.1 hother with hold | hnew
    · obtain ⟨kind, m, hm, hfield⟩ := h.listed other hold hmet
      exact ⟨kind, m, (mem_entries_take []).2 (Or.inl hm), hfield⟩
    · rw [List.mem_singleton.1 hnew] at hmet ⊢
      rw [← hwrites] at hmet
      obtain ⟨⟨kind, m⟩, hwrite⟩ := Option.isSome_iff_exists.1 hmet
      exact ⟨kind, m, (mem_entries_take []).2 (Or.inr ⟨rfl, hwrite⟩), (htops kind m hwrite).1⟩

/-- Among healthy replicas all items are decided, and the plan says what to write. -/
theorem decideAll_healthy (healthy : fleet.Healthy stores) (fair : shuffles.Fair)
    (items : List Suspect) (site : Site σ) (hsound : site.registry.Sound)
    (hbelow : ∀ item ∈ items, ∀ c ∈ site.recordsOf stores item, c.score < maxScore)
    {taken : List Suspect} {plan : Plan}
    (hplan : plan.Exact (stores site.world) site.registry.nodes taken) :
    ∃ done, (site.decideAll fleet shuffles plan items).1 = .ok done ∧
      done.Exact (stores site.world) site.registry.nodes (taken ++ items) := by
  induction items generalizing site taken plan shuffles with
  | nil => exact ⟨plan, rfl, by rwa [List.append_nil]⟩
  | cons item rest ih =>
    obtain ⟨hstores, hregistry, -⟩ := decideItem_spec healthy.honest hsound (fair 0) item
    obtain ⟨decision, hdecided, hhad, hwrites, htops⟩ :=
      decideItem_healthy healthy hsound (fair 0) (hbelow item List.mem_cons_self)
    have htaken := hplan.take hhad hwrites htops
    rw [decideAll]
    rcases hdecide : site.decideItem fleet (shuffles 0) item with ⟨result, site'⟩
    rw [hdecide] at hstores hregistry hdecided
    dsimp only at hstores hregistry hdecided
    subst hdecided
    have hrecords (other : Suspect) :
        site'.recordsOf stores other = site.recordsOf stores other := by
      rw [recordsOf, recordsOf, hstores, hregistry]
    rw [← hstores, ← hregistry] at htaken ⊢
    rw [List.append_cons]
    refine ih (fair.after 1) site' (hregistry ▸ hsound) (fun other hm => ?_) htaken
    rw [hrecords]
    exact hbelow other (List.mem_cons_of_mem item hm)

/-! ## What a pass leaves behind -/

/-- The records that a plan brings to a field are those of its entries. -/
theorem Plan.mem_at_writes {plan : Plan} {key : Key} {field : Field} {c : Cell} :
    c ∈ Mutation.at key field (Batch.log (plan.writes.map Correction.batch)) ↔
      ∃ kind, ∃ m ∈ plan.entries key kind, m.field = field ∧ kind.cell m = c := by
  rw [Mutation.mem_at, Batch.log, List.flatMap_map, List.mem_flatMap]
  constructor
  · rintro ⟨w, hw, hbrought⟩
    obtain ⟨m, hm, heq⟩ := List.mem_map.1 hbrought
    rw [Mutation.mk.injEq] at heq
    obtain ⟨rfl, rfl, rfl⟩ := heq
    exact ⟨w.kind, m, (mem_writes_iff.1 hw).1 ▸ hm, rfl, rfl⟩
  · rintro ⟨kind, m, hm, rfl, rfl⟩
    exact ⟨⟨kind, key, plan.entries key kind⟩, mem_writes_iff.2 ⟨rfl, List.ne_nil_of_mem hm⟩,
      List.mem_map.2 ⟨m, hm, rfl⟩⟩

/-- The writes of a plan leave a field alone that is not listed, or that too few nodes
hold. -/
theorem Plan.Exact.cell?_run_of_spared {held : Host → Store} {nodes : List Host}
    {items : List Suspect} {plan : Plan} (h : plan.Exact held nodes items) {key : Key}
    {field : Field}
    (hspared : ¬ (∃ item ∈ items, item.key = key ∧ item.field = field) ∨
      Quorum.consensus.met nodes.length (records held nodes key field).length = false)
    (store : Store) :
    (store.run (plan.writes.map Correction.batch)).cell? key field = store.cell? key field := by
  have hnone : Mutation.at key field (Batch.log (plan.writes.map Correction.batch)) = [] := by
    refine List.eq_nil_iff_forall_not_mem.2 fun c hc => ?_
    obtain ⟨kind, m, hm, rfl, -⟩ := mem_at_writes.1 hc
    obtain ⟨hitem, hmet, -⟩ := h.entry key kind m hm
    rcases hspared with hout | hunmet
    · exact hout hitem
    · rw [hmet] at hunmet
      cases hunmet
  rw [Store.cell?_run, hnone, List.foldl_nil]

/-- The writes of a plan bring one record to every node for a field that is listed and
that enough of them hold. -/
theorem Plan.Exact.cell?_run_of_listed {held : Host → Store} {nodes : List Host}
    {items : List Suspect} {plan : Plan} (h : plan.Exact held nodes items) {item : Suspect}
    (hitem : item ∈ items)
    (hmet : Quorum.consensus.met nodes.length
      (records held nodes item.key item.field).length = true) :
    ∃ record : Cell, record.Restores (records held nodes item.key item.field) ∧
      ∀ host ∈ nodes, ((held host).run (plan.writes.map Correction.batch)).cell? item.key item.field
        = some record := by
  obtain ⟨kind, m, hm, hfield⟩ := h.listed item hitem hmet
  have hcell := mem_at_writes.2 ⟨kind, m, hm, hfield, rfl⟩
  have htops (c : Cell) (hc : c ∈ Mutation.at item.key item.field
      (Batch.log (plan.writes.map Correction.batch))) :
      ∃ kind n, Tops (records held nodes item.key item.field) kind n ∧ kind.cell n = c := by
    obtain ⟨kind, n, hn, hsame, rfl⟩ := mem_at_writes.1 hc
    exact ⟨kind, n, hsame ▸ (h.entry item.key kind n hn).2.2, rfl⟩
  cases hlog : Mutation.at item.key item.field
      (Batch.log (plan.writes.map Correction.batch)) with
  | nil =>
    rw [hlog] at hcell
    cases hcell
  | cons first rest =>
    -- the first write of the field stands above what any node holds, and the others level with it
    rw [hlog] at htops
    obtain ⟨kind, n, htop, rfl⟩ := htops first List.mem_cons_self
    refine ⟨kind.cell n, htop.restores, fun host hhost => ?_⟩
    rw [Store.cell?_run, hlog]
    refine Cell.foldl_supersede_level (fun d hd => ?_) fun c hc => ?_
    · exact htop.rank_lt (mem_records.2 ⟨host, hhost, hd⟩)
    · obtain ⟨kind', n', htop', rfl⟩ := htops c (List.mem_cons_of_mem _ hc)
      exact htop'.rank_eq htop

/-- Repair brings replicas together. A registry that its steps led to has nodes that
are all healthy, in whatever state; a pass is run over any list of items whose
records have scores with a successor. Then the pass succeeds, and afterwards, for
each listed field: if so many nodes hold a record that they meet a consensus of all,
every node holds one and the same record, which restores those that were held; and if
not, every host holds what it held. No other record changes. Nothing is said of the
order in which replies arrive, which may be another one at every call. -/
theorem repair_converges (healthy : fleet.Healthy stores) (hreached : site.registry.Reached)
    (fair : shuffles.Fair) (items : List Suspect)
    (hbelow : ∀ item ∈ items, ∀ c ∈ site.recordsOf stores item, c.score < maxScore) :
    (∃ counts, (site.repair fleet shuffles items).1 = .ok (.ok counts)) ∧
    (∀ item ∈ items,
      if Quorum.consensus.met site.registry.nodes.length (site.recordsOf stores item).length then
        ∃ record : Cell, record.Restores (site.recordsOf stores item) ∧
          ∀ host ∈ site.registry.nodes,
            (stores (site.repair fleet shuffles items).2.world host).cell? item.key item.field
              = some record
      else ∀ host,
        (stores (site.repair fleet shuffles items).2.world host).cell? item.key item.field
          = (stores site.world host).cell? item.key item.field) ∧
    ∀ key field, ¬ (∃ item ∈ items, item.key = key ∧ item.field = field) → ∀ host,
      (stores (site.repair fleet shuffles items).2.world host).cell? key field
        = (stores site.world host).cell? key field := by
  have hsound := hreached.sound
  obtain ⟨plan, hdone, hexact⟩ := decideAll_healthy healthy fair items site hsound hbelow
    (Plan.exact_empty (stores site.world) site.registry.nodes)
  rw [List.nil_append] at hexact
  have hrepair := repair_of_decided healthy fair hsound hdone hexact.clean
  have hkept (key : Key) (field : Field)
      (hspared : ¬ (∃ item ∈ items, item.key = key ∧ item.field = field) ∨
        Quorum.consensus.met site.registry.nodes.length (records (stores site.world)
          site.registry.nodes key field).length = false) (host : Host) :
      (stores (site.repair fleet shuffles items).2.world host).cell? key field
        = (stores site.world host).cell? key field := by
    rw [hrepair.2]
    split_ifs
    · exact hexact.cell?_run_of_spared hspared _
    · rfl
  refine ⟨⟨_, hrepair.1⟩, fun item hitem => ?_, fun key field hout => hkept key field (.inl hout)⟩
  split_ifs with hmet
  · obtain ⟨record, hrestores, hheld⟩ := hexact.cell?_run_of_listed hitem hmet
    refine ⟨record, hrestores, fun host hhost => ?_⟩
    rw [hrepair.2, if_pos hhost]
    exact hheld host hhost
  · exact hkept item.key item.field (.inr (Bool.eq_false_of_not_eq_true hmet))

/-- Three replicas that differ on one field at one score, by value and by deletion. One
of them holds another field alone. -/
def tied : Site (Host → Store) :=
  ⟨Registry.trio, fun host => (Store.empty 1 Nat.one_pos).run <|
    if host = "a" then [⟨.insert, "k", [⟨"f", [1], 2⟩, ⟨"g", [7], 4⟩]⟩]
    else if host = "b" then [⟨.insert, "k", [⟨"f", [2], 2⟩]⟩]
    else [⟨.delete, "k", [⟨"f", [], 2⟩]⟩]⟩

/-- The field is listed twice, and between the field that a single replica holds. One
of the two values is on all replicas afterwards, at the next score. -/
theorem repair_converges_of_tied :
    (∀ item ∈ [⟨"k", "f", []⟩, ⟨"k", "g", []⟩, ⟨"k", "f", []⟩],
      ∀ c ∈ tied.recordsOf (fun s => s) item, c.score < maxScore) ∧
    (tied.recordsOf (fun s => s) ⟨"k", "f", []⟩).Perm
      [⟨[1], 2, true⟩, ⟨[2], 2, true⟩, ⟨[], 2, false⟩] ∧
    ∃ record : Cell, record.Restores (tied.recordsOf (fun s => s) ⟨"k", "f", []⟩) ∧
      ∀ host ∈ Registry.trio.nodes,
        ((tied.repair (.direct fun _ _ => false) (fun _ => id)
          [⟨"k", "f", []⟩, ⟨"k", "g", []⟩, ⟨"k", "f", []⟩]).2.world host).cell? "k" "f"
          = some record := by
  have hbelow : ∀ item ∈ [⟨"k", "f", []⟩, ⟨"k", "g", []⟩, ⟨"k", "f", []⟩],
      ∀ c ∈ tied.recordsOf (fun s => s) item, c.score < maxScore := by decide +kernel
  have hconverges := (repair_converges Fleet.healthy_direct Registry.reached_trio
    (fun _ _ => List.Perm.refl _) _ hbelow).2.1 ⟨"k", "f", []⟩ List.mem_cons_self
  rw [if_pos (by decide +kernel)] at hconverges
  exact ⟨hbelow, by decide +kernel, hconverges⟩

end Site

end QuorumStore
