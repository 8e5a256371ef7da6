import QuorumStore.Proofs.Restored

/-!
# The greatest score in a repair pass

A pass writes the winning record of a field again, at the score after it. The greatest
score has none, so a pass is cut short where enough replicas know a field, one of them
at that score, and the record would have to be written. Nothing else cuts it short,
and what it writes stands above every score that it was told of the field.
-/

namespace QuorumStore

/-! ## Diagnoses and conclusions -/

namespace Diagnosis

variable {item : Suspect} {asked : Nat} {replies : List Presence}

theorem field_ofPresences : (ofPresences item asked replies).field = item.field := by
  unfold ofPresences
  dsimp only
  split <;> rfl

/-- A field is repaired when so many replicas know it that they meet a consensus. -/
theorem acts_iff :
    (ofPresences item asked replies).ignore = false ∧
        (ofPresences item asked replies).quorum = true ↔
      Quorum.consensus.met asked (replies.filter (·.present)).length = true := by
  cases hignore : (ofPresences item asked replies).ignore with
  | true =>
    rw [filter_eq_nil_of_ignore hignore, List.length_nil, Quorum.met_consensus_none]
    simp
  | false =>
    obtain ⟨score, -, heq⟩ := eq_of_not_ignore hignore
    rw [heq]
    simp

/-- No replica that knows the field stands at a greater score than the winner. -/
theorem score_le (h : (ofPresences item asked replies).ignore = false) {p : Presence}
    (hp : p ∈ replies.filter (·.present)) : p.score ≤ (ofPresences item asked replies).score := by
  obtain ⟨score, htop, heq⟩ := eq_of_not_ignore h
  rw [heq]
  exact (topScore?_eq_some_iff.1 htop).2 _ (List.mem_map_of_mem hp)

/-- One of them stands at that score. -/
theorem exists_score_eq (h : (ofPresences item asked replies).ignore = false) :
    ∃ p ∈ replies.filter (·.present), p.score = (ofPresences item asked replies).score := by
  obtain ⟨score, htop, heq⟩ := eq_of_not_ignore h
  rw [heq]
  exact List.mem_map.1 (topScore?_eq_some_iff.1 htop).1

/-- A record that does not stand above the winner has no greater score. -/
theorem score_le_of_rank_le {d : Diagnosis} {c : Cell} (h : c.rank ≤ d.rank) :
    c.score ≤ d.score := by
  rcases Prod.Lex.toLex_le_toLex.1 h with hlt | ⟨heq, -⟩
  · exact hlt.le
  · exact heq.le

/-- The winner has no successor when some replica knows the field at the greatest
score. -/
theorem le_score_iff (h : (ofPresences item asked replies).ignore = false) :
    maxScore ≤ (ofPresences item asked replies).score ↔
      ∃ p ∈ replies.filter (·.present), maxScore ≤ p.score := by
  constructor
  · intro htop
    obtain ⟨p, hp, hscore⟩ := exists_score_eq h
    exact ⟨p, hp, hscore ▸ htop⟩
  · rintro ⟨p, hp, htop⟩
    exact htop.trans (score_le h hp)

end Diagnosis

namespace Site

/-- A diagnosis that calls for a write has no conclusion when its score has no
successor. A value that could not be had comes first. -/
theorem conclude_eq_error_iff {d : Diagnosis} {value : Except Fault Bytes} {abort : Abort} :
    conclude d value = .error abort ↔
      abort = .scoreOverflow ∧ (d.ignore = false ∧ d.quorum = true) ∧ maxScore ≤ d.score ∧
        (d.insert = true → ∃ v, value = .ok v) := by
  have hnext : nextScore? d.score = if d.score < maxScore then some (d.score + 1) else none := rfl
  unfold conclude
  rw [hnext]
  cases hignore : d.ignore with
  | true => simp
  | false =>
    cases hquorum : d.quorum with
    | false => simp
    | true =>
      by_cases hroom : d.score < maxScore
      · cases d.insert <;> cases value <;> simp [hroom, not_le.2 hroom]
      · cases d.insert <;> cases value <;> simp [hroom, not_lt.1 hroom, eq_comm]

/-! ## Passes over any replicas -/

variable {σ : Type} {fleet : Fleet σ} {shuffle : List Host → List Host} {shuffles : Shuffles}
  {site : Site σ} {item : Suspect}

/-- The snapshots that come back when every node is asked, and that know the field. -/
def reports (site : Site σ) (fleet : Fleet σ) (shuffle : List Host → List Host)
    (item : Suspect) : List Presence :=
  ((site.snapshots fleet shuffle item).map Prod.snd).filter (·.present)

/-- A field is repaired when enough of the nodes that are asked know it. -/
theorem acts_iff_known (site : Site σ) (fleet : Fleet σ) (shuffle : List Host → List Host)
    (item : Suspect) :
    (site.investigate fleet shuffle item).1.diagnosis.ignore = false ∧
        (site.investigate fleet shuffle item).1.diagnosis.quorum = true ↔
      Quorum.consensus.met (shuffle site.registry.nodes).length
        (site.reports fleet shuffle item).length = true :=
  Diagnosis.acts_iff

/-- An item has used up the scores. -/
structure Exhausts (site : Site σ) (fleet : Fleet σ) (shuffle : List Host → List Host)
    (item : Suspect) : Prop where
  /-- Enough of the nodes that are asked know the field. -/
  known : Quorum.consensus.met (shuffle site.registry.nodes).length
    (site.reports fleet shuffle item).length = true
  /-- One of them knows it at the greatest score. -/
  top : ∃ p ∈ site.reports fleet shuffle item, maxScore ≤ p.score
  /-- If the winner is a value, it is served. -/
  served : (site.investigate fleet shuffle item).1.diagnosis.insert = true →
    ∃ value, ((site.investigate fleet shuffle item).2.fetchValue fleet item.key item.field
      (site.investigate fleet shuffle item).1.winners (noServer item.key item.field)).1 = .ok value

/-- An item cannot be decided exactly when it has used up the scores. -/
theorem decideItem_eq_error_iff {abort : Abort} :
    (site.decideItem fleet shuffle item).1 = .error abort ↔
      abort = .scoreOverflow ∧ site.Exhausts fleet shuffle item := by
  obtain ⟨value, hdecided, hfetched⟩ := decideItem_eq site fleet shuffle item
  have hacts := site.acts_iff_known fleet shuffle item
  have hmap {d : Except Abort Decision} {faults : List RepairFault} :
      d.map (fun decision => (decision, faults)) = .error abort ↔ d = .error abort := by
    cases d <;> simp [Except.map]
  rw [hdecided, hmap, conclude_eq_error_iff]
  refine and_congr_right fun _ => ⟨?_, fun h => ?_⟩
  · rintro ⟨hcounts, htop, hserved⟩
    refine ⟨hacts.1 hcounts, (Diagnosis.le_score_iff hcounts.1).1 htop, fun hinsert => ?_⟩
    rw [← hfetched (by simp [Diagnosis.needsValue, hcounts, hinsert])]
    exact hserved hinsert
  · have hcounts := hacts.2 h.known
    refine ⟨hcounts, (Diagnosis.le_score_iff hcounts.1).2 h.top, fun hinsert => ?_⟩
    rw [hfetched (by
      rw [Diagnosis.needsValue, hinsert, Bool.and_true, Bool.and_eq_true, Bool.not_eq_true']
      exact hcounts)]
    exact h.served hinsert

/-- What is written for an item stands above every score that it was told. -/
theorem decideItem_write {decision : Decision} {faults : List RepairFault}
    (h : (site.decideItem fleet shuffle item).1 = .ok (decision, faults)) {kind : WriteKind}
    {m : FieldValue} (hwrite : decision.write? = some (kind, m)) :
    item.field = m.field ∧ ∀ p ∈ site.reports fleet shuffle item, p.score < m.score := by
  obtain ⟨value, hdecided, -⟩ := decideItem_eq site fleet shuffle item
  rw [hdecided] at h
  obtain ⟨hcounts, -, hfield, hscore, -⟩ := conclude_write (conclude_of_decided h) hwrite
  refine ⟨(hfield.trans Diagnosis.field_ofPresences).symm, fun p hp => ?_⟩
  have hle : p.score ≤ (site.investigate fleet shuffle item).1.diagnosis.score :=
    Diagnosis.score_le hcounts hp
  omega

/-- An item when its turn comes in a pass. -/
structure Asked (σ : Type) where
  /-- The site as it is then. -/
  site : Site σ
  /-- How the hosts are shuffled for it. -/
  shuffle : List Host → List Host
  /-- The item. -/
  item : Suspect

/-- The item has used up the scores. -/
def Asked.Exhausts (asked : Asked σ) (fleet : Fleet σ) : Prop :=
  asked.site.Exhausts fleet asked.shuffle asked.item

/-- The snapshots that come back and that know its field. -/
def Asked.reports (asked : Asked σ) (fleet : Fleet σ) : List Presence :=
  asked.site.reports fleet asked.shuffle asked.item

/-- The items of a pass, each as it is when its turn comes. -/
def course (site : Site σ) (fleet : Fleet σ) (shuffles : Shuffles) :
    List Suspect → List (Asked σ)
  | [] => []
  | item :: rest =>
    ⟨site, shuffles 0, item⟩ ::
      (site.decideItem fleet (shuffles 0) item).2.course fleet (shuffles.after 1) rest

/-- Items are all decided when none of them has used up the scores. -/
theorem decideAll_eq_ok_iff (items : List Suspect) (site : Site σ) (plan : Plan) :
    (∃ done, (site.decideAll fleet shuffles plan items).1 = .ok done) ↔
      ∀ asked ∈ site.course fleet shuffles items, ¬ asked.Exhausts fleet := by
  induction items generalizing site plan shuffles with
  | nil => simp [decideAll, course]
  | cons item rest ih =>
    rw [decideAll, course, List.forall_mem_cons, Asked.Exhausts]
    rcases hdecide : site.decideItem fleet (shuffles 0) item with ⟨result, site'⟩
    have hexhausts (abort : Abort) :
        (site.decideItem fleet (shuffles 0) item).1 = .error abort ↔ _ :=
      decideItem_eq_error_iff
    rw [hdecide] at hexhausts
    cases result with
    | error abort => simp [((hexhausts abort).1 rfl).2]
    | ok decided =>
      have hroom : ¬ site.Exhausts fleet (shuffles 0) item := fun h => by
        cases (hexhausts .scoreOverflow).2 ⟨rfl, h⟩
      simp [hroom, ih site']

/-- Whatever a plan writes in the end, it wrote before or an item called for it. -/
theorem entries_decideAll (items : List Suspect) (site : Site σ) {plan done : Plan}
    (h : (site.decideAll fleet shuffles plan items).1 = .ok done) {key : Key} {kind : WriteKind}
    {m : FieldValue} (hm : m ∈ done.entries key kind) :
    m ∈ plan.entries key kind ∨ ∃ asked ∈ site.course fleet shuffles items,
      asked.item.key = key ∧ asked.item.field = m.field ∧
        ∀ p ∈ asked.reports fleet, p.score < m.score := by
  induction items generalizing site plan shuffles with
  | nil =>
    cases h
    exact Or.inl hm
  | cons item rest ih =>
    rw [decideAll] at h
    rw [course]
    rcases hdecide : site.decideItem fleet (shuffles 0) item with ⟨result, site'⟩
    rw [hdecide] at h
    rcases result with abort | ⟨decision, faults⟩
    · cases h
    · rcases ih site' h with htaken | ⟨asked, hasked, hall⟩
      · rcases (Plan.mem_entries_take faults).1 htaken with hold | ⟨hkey, hwrite⟩
        · exact Or.inl hold
        · exact Or.inr ⟨_, List.mem_cons_self, hkey,
            decideItem_write (congrArg Prod.fst hdecide) hwrite⟩
      · exact Or.inr ⟨asked, List.mem_cons_of_mem _ hasked, hall⟩

/-- A pass comes to its end exactly when no item, at its turn, has used up the scores. -/
theorem repair_eq_ok_iff {items : List Suspect} :
    (∃ result, (site.repair fleet shuffles items).1 = .ok result) ↔
      ∀ asked ∈ site.course fleet shuffles items, ¬ asked.Exhausts fleet := by
  rw [← decideAll_eq_ok_iff items site .empty, repair]
  rcases site.decideAll fleet shuffles .empty items with ⟨result, site'⟩
  cases result <;> simp

/-- Whatever a pass writes, it writes for an item, above every score that it was told
then. -/
theorem score_lt_of_mem_rewrites {items : List Suspect} {c : Correction}
    (hc : c ∈ site.rewrites fleet shuffles items) {m : FieldValue} (hm : m ∈ c.members) :
    ∃ asked ∈ site.course fleet shuffles items, asked.item.key = c.key ∧
      asked.item.field = m.field ∧ ∀ p ∈ asked.reports fleet, p.score < m.score := by
  unfold rewrites at hc
  split at hc
  · next plan hdone =>
    rw [(Plan.mem_writes_iff.1 hc).1] at hm
    rcases entries_decideAll items site hdone hm with hempty | hasked
    · rw [Plan.entries_empty] at hempty
      cases hempty
    · exact hasked
  · cases hc

/-! ## Passes over healthy replicas -/

variable {stores : σ → Host → Store}

/-- Honest replicas hold the same throughout the course of a pass. -/
theorem mem_course (honest : fleet.Honest stores) (fair : shuffles.Fair) (items : List Suspect)
    (site : Site σ) (hsound : site.registry.Sound) :
    (site.course fleet shuffles items).map Asked.item = items ∧
      ∀ asked ∈ site.course fleet shuffles items,
        stores asked.site.world = stores site.world ∧ asked.site.registry = site.registry ∧
          ∀ hosts, (asked.shuffle hosts).Perm hosts := by
  induction items generalizing site shuffles with
  | nil => simp [course]
  | cons item rest ih =>
    obtain ⟨hstores, hregistry, -⟩ := decideItem_spec honest hsound (fair 0) item
    obtain ⟨hitems, hsame⟩ :=
      ih (fair.after 1) (site.decideItem fleet (shuffles 0) item).2 (hregistry ▸ hsound)
    rw [course, List.forall_mem_cons]
    refine ⟨congrArg (item :: ·) hitems, ⟨rfl, rfl, fair 0⟩, fun asked hasked => ?_⟩
    obtain ⟨hworld, hkept, hperm⟩ := hsame asked hasked
    exact ⟨hworld.trans hstores, hkept.trans hregistry, hperm⟩

/-- Among healthy replicas an item has used up the scores exactly when enough of them
hold a record of the field, one with the greatest score. -/
theorem exhausts_healthy_iff (healthy : fleet.Healthy stores) (hsound : site.registry.Sound)
    (hshuffle : ∀ hosts, (shuffle hosts).Perm hosts) :
    site.Exhausts fleet shuffle item ↔
      Quorum.consensus.met site.registry.nodes.length (site.recordsOf stores item).length = true ∧
        ∃ c ∈ site.recordsOf stores item, maxScore ≤ c.score := by
  obtain ⟨-, hexact, -⟩ := investigate_healthy healthy hsound hshuffle item
  have hacts := site.acts_iff_known fleet shuffle item
  have hknown : Quorum.consensus.met site.registry.nodes.length
        (site.recordsOf stores item).length = true ↔
      (site.investigate fleet shuffle item).1.diagnosis.ignore = false ∧
        (site.investigate fleet shuffle item).1.diagnosis.quorum = true := by
    rw [← hexact.acts, Bool.and_eq_true, Bool.not_eq_true']
  have hscore (hcounts : (site.investigate fleet shuffle item).1.diagnosis.ignore = false) :
      maxScore ≤ (site.investigate fleet shuffle item).1.diagnosis.score ↔
        ∃ c ∈ site.recordsOf stores item, maxScore ≤ c.score := by
    constructor
    · intro htop
      obtain ⟨c, hc, hrank⟩ := hexact.attained hcounts
      exact ⟨c, hc, (Diagnosis.eq_of_rank_eq hrank).1 ▸ htop⟩
    · rintro ⟨c, hc, htop⟩
      exact htop.trans (Diagnosis.score_le_of_rank_le (hexact.above hcounts c hc))
  rw [hknown]
  constructor
  · intro h
    have hcounts := hacts.2 h.known
    exact ⟨hcounts, (hscore hcounts.1).1 ((Diagnosis.le_score_iff hcounts.1).2 h.top)⟩
  · rintro ⟨hcounts, htop⟩
    refine ⟨hacts.1 hcounts, (Diagnosis.le_score_iff hcounts.1).1 ((hscore hcounts.1).2 htop),
      fun hinsert => fetchValue_healthy healthy hsound hshuffle ?_⟩
    rw [Diagnosis.needsValue, hinsert, Bool.and_true, Bool.and_eq_true, Bool.not_eq_true']
    exact hcounts

/-- Among healthy replicas a pass comes to its end exactly when no field that is listed
and that enough of them hold has a record with the greatest score. -/
theorem repair_healthy_eq_ok_iff (healthy : fleet.Healthy stores) (hsound : site.registry.Sound)
    (fair : shuffles.Fair) {items : List Suspect} :
    (∃ result, (site.repair fleet shuffles items).1 = .ok result) ↔
      ∀ item ∈ items,
        Quorum.consensus.met site.registry.nodes.length (site.recordsOf stores item).length = true →
          ∀ c ∈ site.recordsOf stores item, c.score < maxScore := by
  obtain ⟨hitems, hsame⟩ := mem_course healthy.honest fair items site hsound
  have hexhausts (asked : Asked σ) (hasked : asked ∈ site.course fleet shuffles items) :
      asked.Exhausts fleet ↔
        Quorum.consensus.met site.registry.nodes.length
            (site.recordsOf stores asked.item).length = true ∧
          ∃ c ∈ site.recordsOf stores asked.item, maxScore ≤ c.score := by
    obtain ⟨hworld, hregistry, hperm⟩ := hsame asked hasked
    rw [Asked.Exhausts, exhausts_healthy_iff healthy (hregistry ▸ hsound) hperm, recordsOf,
      recordsOf, hworld, hregistry]
  have hlisted (item : Suspect) :
      item ∈ items ↔ ∃ asked ∈ site.course fleet shuffles items, asked.item = item := by
    have hm : item ∈ (site.course fleet shuffles items).map Asked.item ↔ _ := List.mem_map
    rwa [hitems] at hm
  rw [repair_eq_ok_iff]
  constructor
  · intro h item hitem hmet c hc
    obtain ⟨asked, hasked, rfl⟩ := (hlisted item).1 hitem
    by_contra htop
    exact h asked hasked ((hexhausts asked hasked).2 ⟨hmet, c, hc, not_lt.1 htop⟩)
  · intro h asked hasked hover
    obtain ⟨hmet, c, hc, htop⟩ := (hexhausts asked hasked).1 hover
    exact absurd (h asked.item ((hlisted asked.item).2 ⟨asked, hasked, rfl⟩) hmet c hc)
      htop.not_gt

end Site

end QuorumStore
