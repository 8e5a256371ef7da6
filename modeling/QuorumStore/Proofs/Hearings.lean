import QuorumStore.Proofs.Recorded
import QuorumStore.Proofs.ScoreLimit

/-!
# Hearings

For one item a pass asks every node what it knows about the field, and, where a value is to be
written, the winners for the value, one after another until one serves it. This is the hearing
of the item, and all that the pass decides about the item is decided by it: whether the pass is
cut short, what is written, and whether anything went wrong. It takes that every node sends one
reply to each call, whatever the reply.
-/

namespace QuorumStore

/-! ## Single replies -/

/-- Every host sends one reply to every call. -/
def Fleet.AnswersOnce {σ : Type} (fleet : Fleet σ) : Prop :=
  ∀ host call s, ∃ reply, (fleet.answer host call s).1 = [reply]

theorem Reply.presence?_eq_some_iff {reply : Reply} {p : Presence} :
    reply.presence? = some p ↔ reply = .presence p := by
  cases reply <;> simp [presence?]

/-- The answers that arrive are those of the hosts. -/
theorem RepairFault.sort_fst_perm {α : Type} {want : Reply → Option α} {stage : String}
    {replies : List Tagged} {said : List (Host × Reply)}
    (h : replies.Perm (said.map fun t => (Registry.digest t.1, t.2))) :
    (RepairFault.sort want stage replies).1.Perm
      (said.filterMap fun t => (want t.2).map fun value => (Registry.digest t.1, value)) := by
  rw [RepairFault.sort_fst]
  refine (h.filterMap _).trans ?_
  rw [List.filterMap_map]
  exact .refl _

/-- Nothing went wrong if every host sends an answer. -/
theorem RepairFault.sort_snd_eq_nil_iff_said {α : Type} {want : Reply → Option α}
    {stage : String} {replies : List Tagged} {said : List (Host × Reply)}
    (h : replies.Perm (said.map fun t => (Registry.digest t.1, t.2))) :
    (RepairFault.sort want stage replies).2 = [] ↔ ∀ t ∈ said, (want t.2).isSome = true := by
  rw [RepairFault.sort_snd_eq_nil_iff]
  simp only [h.mem_iff, List.forall_mem_map]

/-- Where no other host has its digest, a host is found under it. -/
theorem find?_digest {hosts : List Host} {host : Host} (hin : host ∈ hosts)
    (h : ∀ other ∈ hosts, Registry.digest other = Registry.digest host → other = host) :
    hosts.find? (fun other => Registry.digest other = Registry.digest host) = some host := by
  have hfound : (hosts.find? fun other => Registry.digest other = Registry.digest host).isSome
      = true := List.find?_isSome.2 ⟨host, hin, decide_eq_true rfl⟩
  obtain ⟨other, hother⟩ := Option.isSome_iff_exists.1 hfound
  have hdigest : Registry.digest other = Registry.digest host := by
    simpa using List.find?_some hother
  rw [hother, h other (List.mem_of_find?_eq_some hother) hdigest]

/-- The hosts that are found under the digests of snapshots are those that sent them. -/
theorem mem_senders_iff {hosts : List Host} {said : List (Host × Reply)} {replies : List Tagged}
    {stage : String} (hhosts : said.map Prod.fst = hosts)
    (hreplies : replies.Perm (said.map fun t => (Registry.digest t.1, t.2)))
    (hinj : ∀ a ∈ hosts, ∀ b ∈ hosts, Registry.digest a = Registry.digest b → a = b)
    {shows : Presence → Bool} {host : Host} :
    host ∈ (RepairFault.sort Reply.presence? stage replies).1.filterMap (fun (node, p) =>
        if shows p then hosts.find? fun host => Registry.digest host = node else none) ↔
      ∃ p, (host, .presence p) ∈ said ∧ shows p = true := by
  have hanswers : (RepairFault.sort Reply.presence? stage replies).1.Perm _ :=
    RepairFault.sort_fst_perm hreplies
  have hfind : ∀ sender reply, (sender, reply) ∈ said →
      hosts.find? (fun host => Registry.digest host = Registry.digest sender) = some sender := by
    intro sender reply hm
    have hin : sender ∈ hosts := hhosts ▸ List.mem_map_of_mem hm
    exact find?_digest hin fun other ho => hinj other ho sender hin
  rw [List.mem_filterMap]
  constructor
  · rintro ⟨⟨node, p⟩, hm, hfound⟩
    obtain ⟨⟨sender, reply⟩, hsaid, hmap⟩ := List.mem_filterMap.1 (hanswers.mem_iff.1 hm)
    obtain ⟨q, hq, heq⟩ := Option.map_eq_some_iff.1 hmap
    cases heq
    cases Reply.presence?_eq_some_iff.1 hq
    dsimp only at hfound
    split_ifs at hfound with hshows
    cases (hfind sender _ hsaid).symm.trans hfound
    exact ⟨p, hsaid, hshows⟩
  · rintro ⟨p, hsaid, hshows⟩
    refine ⟨(Registry.digest host, p),
      hanswers.mem_iff.2 (List.mem_filterMap.2 ⟨_, hsaid, rfl⟩), ?_⟩
    exact (if_pos hshows).trans (hfind host _ hsaid)

/-- What several hosts said to a call, on record. -/
def Exchange.of (call : Call) (said : List (Host × Reply)) : List Exchange :=
  said.map fun (host, reply) => ⟨host, call, [reply]⟩

section

variable {σ : Type} {fleet : Fleet σ} {s : σ × List Exchange}

/-- Each of several hosts says one thing to a call, and this is put on record. -/
theorem Fleet.AnswersOnce.contact (h : fleet.AnswersOnce) (call : Call) (hosts : List Host)
    (s : σ × List Exchange) :
    ∃ said : List (Host × Reply), said.map Prod.fst = hosts ∧
      (fleet.recorded.contact call hosts s).1 = said.map (fun t => (t.1, [t.2])) ∧
      (fleet.recorded.contact call hosts s).2.2 = s.2 ++ Exchange.of call said := by
  induction hosts generalizing s with
  | nil => exact ⟨[], rfl, rfl, (List.append_nil _).symm⟩
  | cons host rest ih =>
    obtain ⟨reply, hreply⟩ := h host call s.1
    obtain ⟨said, hhosts, hstreams, hlog⟩ := ih (fleet.recorded.answer host call s).2
    refine ⟨(host, reply) :: said, congrArg (host :: ·) hhosts, ?_, ?_⟩
    · rw [List.map_cons, ← hstreams, ← hreply]
      rfl
    · refine hlog.trans ?_
      change (s.2 ++ [⟨host, call, (fleet.answer host call s.1).1⟩]) ++ _ = _
      rw [hreply, List.append_assoc]
      rfl

/-- What arrives is what the hosts said. -/
theorem Fleet.AnswersOnce.scatter (h : fleet.AnswersOnce) (hdelivers : fleet.Delivers)
    (call : Call) (hosts : List Host) (s : σ × List Exchange) :
    ∃ said : List (Host × Reply), said.map Prod.fst = hosts ∧
      (fleet.recorded.scatter hosts call s).1.Perm
        (said.map fun t => (Registry.digest t.1, t.2)) ∧
      (fleet.recorded.scatter hosts call s).2.2 = s.2 ++ Exchange.of call said := by
  obtain ⟨said, hhosts, hstreams, hlog⟩ := h.contact call hosts s
  refine ⟨said, hhosts, ?_, hlog⟩
  have harrives : (fleet.recorded.scatter hosts call s).1.Perm _ := hdelivers _ _
  rwa [hstreams, marked_map] at harrives

end

/-! ## What a hearing says -/

/-- The top score of a list does not depend on its order. -/
theorem Diagnosis.topScore?_perm {scores scores' : List Int} (h : scores.Perm scores') :
    topScore? scores = topScore? scores' := by
  refine Option.ext fun score => ?_
  rw [topScore?_eq_some_iff, topScore?_eq_some_iff]
  simp only [h.mem_iff]

/-- Neither does the diagnosis on the order of the snapshots. -/
theorem Diagnosis.ofPresences_perm (item : Suspect) (asked : Nat) {replies replies' : List Presence}
    (h : replies.Perm replies') : ofPresences item asked replies = ofPresences item asked replies' := by
  have hknown := h.filter (·.present)
  unfold ofPresences
  dsimp only
  simp only [topScore?_perm (hknown.map _), hknown.length_eq, hknown.any_eq]

namespace Site

/-- What a pass hears about one item. -/
structure Hearing where
  /-- The item. -/
  item : Suspect
  /-- What each node says of the field. -/
  snapshots : List (Host × Reply)
  /-- What the winners say that are asked for the value, in turn. -/
  offers : List (Host × Reply)

namespace Hearing

/-- The calls that the pass makes for the item. -/
def exchanges (h : Hearing) : List Exchange :=
  Exchange.of (.score h.item.key h.item.field) h.snapshots ++
    Exchange.of (.select h.item.key h.item.field) h.offers

/-- The diagnosis from the snapshots. -/
def diagnosis (h : Hearing) : Diagnosis :=
  .ofPresences h.item h.snapshots.length (h.snapshots.filterMap fun t => t.2.presence?)

/-- The item has used up the scores: the winning record is to be written, it can be, and its
score has no successor. -/
structure Exhausts (h : Hearing) : Prop where
  /-- Some node knows the field. -/
  known : h.diagnosis.ignore = false
  /-- Enough of them do. -/
  quorum : h.diagnosis.quorum = true
  /-- The winning score is the greatest. -/
  top : maxScore ≤ h.diagnosis.score
  /-- If the winner is a value, it is served. -/
  served : h.diagnosis.insert = true → ∃ t ∈ h.offers, t.2.record?.isSome = true

/-- A write that the hearing calls for. -/
structure Calls (h : Hearing) (kind : WriteKind) (m : FieldValue) : Prop where
  /-- Some node knows the field. -/
  known : h.diagnosis.ignore = false
  /-- Enough of them do. -/
  quorum : h.diagnosis.quorum = true
  /-- The field is that of the item. -/
  field : m.field = h.item.field
  /-- The score is the one after that of the winner. -/
  score : m.score = h.diagnosis.score + 1
  /-- A value is written if the winner is one, as a host serves it that shows the winning
  state. -/
  insert : kind = .insert → h.diagnosis.insert = true ∧ ∃ host p r,
    (host, .presence p) ∈ h.snapshots ∧ h.diagnosis.isWinner p = true ∧
      (host, .record r) ∈ h.offers ∧ m.value = r.value
  /-- A deletion is written if it is none, and carries no value. -/
  delete : kind = .delete → h.diagnosis.insert = false ∧ m.value = []

/-- Something went wrong: a node sent no snapshot, or winners were asked for the value and none
of them served it. -/
def Fails (h : Hearing) : Prop :=
  (∃ t ∈ h.snapshots, t.2.presence? = none) ∨
    h.offers ≠ [] ∧ ∀ t ∈ h.offers, t.2.record? = none

/-- A decision about the item, with what went wrong when the nodes were asked. -/
structure Leads (h : Hearing) (decision : Decision) (faults : List RepairFault) : Prop where
  /-- The item is ignored if no node knows the field. -/
  ignore_iff : decision = .ignore ↔ h.diagnosis.ignore = true
  /-- It is left alone if too few do. -/
  belowQuorum_iff : decision = .belowQuorum ↔
    h.diagnosis.ignore = false ∧ h.diagnosis.quorum = false
  /-- What is written is called for. -/
  calls : ∀ kind m, decision.write? = some (kind, m) → h.Calls kind m
  /-- Nothing is reported if nothing went wrong. -/
  clean_iff : faults = [] ∧ (∀ fault, decision ≠ .lost fault) ↔ ¬ h.Fails

end Hearing

/-! ## Asking the nodes -/

variable {σ : Type} {fleet : Fleet σ} {shuffle : List Host → List Host}
  {site : Site (σ × List Exchange)} {item : Suspect}

/-- What an inquiry finds, by what each node said. -/
structure Found (item : Suspect) (said : List (Host × Reply)) (finding : Finding) : Prop where
  /-- The diagnosis is that of the snapshots. -/
  diagnosis : finding.diagnosis
    = .ofPresences item said.length (said.filterMap fun t => t.2.presence?)
  /-- Nothing went wrong if every node sent one. -/
  clean_iff : finding.faults = [] ↔ ∀ t ∈ said, t.2.presence?.isSome = true
  /-- The winners are the hosts that show the winning state. -/
  mem_winners : ∀ host, host ∈ finding.winners ↔
    ∃ p, (host, .presence p) ∈ said ∧ finding.diagnosis.isWinner p = true

/-- There is a winner unless the item is ignored. -/
theorem Found.winners_ne_nil {said : List (Host × Reply)} {finding : Finding}
    (h : Found item said finding) (hknown : finding.diagnosis.ignore = false) :
    finding.winners ≠ [] := by
  have hheeded := hknown
  rw [h.diagnosis] at hheeded
  obtain ⟨p, hp, hpresent, hrank⟩ := Diagnosis.exists_winner hheeded
  obtain ⟨⟨host, reply⟩, hm, hreply⟩ := List.mem_filterMap.1 hp
  cases Reply.presence?_eq_some_iff.1 hreply
  refine List.ne_nil_of_mem ((h.mem_winners host).2 ⟨p, hm, ?_⟩)
  rw [h.diagnosis]
  exact Diagnosis.isWinner_iff.2 ⟨hpresent, hrank⟩

/-- An inquiry asks every node once, and finds what they say. -/
theorem investigate_heard (hone : fleet.AnswersOnce) (hdelivers : fleet.Delivers)
    (hsound : site.registry.Sound) (hshuffle : ∀ hosts, (shuffle hosts).Perm hosts)
    (item : Suspect) :
    ∃ said : List (Host × Reply), (said.map Prod.fst).Perm site.registry.nodes ∧
      (site.investigate fleet.recorded shuffle item).2.registry = site.registry ∧
      (site.investigate fleet.recorded shuffle item).2.world.2
        = site.world.2 ++ Exchange.of (.score item.key item.field) said ∧
      Found item said (site.investigate fleet.recorded shuffle item).1 := by
  obtain ⟨said, hhosts, hreplies, hlog⟩ := hone.scatter hdelivers (.score item.key item.field)
    (shuffle site.registry.nodes) site.world
  have hnodes : (said.map Prod.fst).Perm site.registry.nodes := hhosts ▸ hshuffle _
  refine ⟨said, hnodes, rfl, hlog, ?_, RepairFault.sort_snd_eq_nil_iff_said hreplies,
    fun host => ?_⟩
  · have hanswers : (RepairFault.sort Reply.presence? "score" _).1.Perm _ :=
      RepairFault.sort_fst_perm hreplies
    have hpresences := hanswers.map Prod.snd
    rw [List.map_filterMap] at hpresences
    have hlength : (shuffle site.registry.nodes).length = said.length := by
      rw [← hhosts, List.length_map]
    change Diagnosis.ofPresences item (shuffle site.registry.nodes).length _ = _
    rw [hlength]
    refine Diagnosis.ofPresences_perm item said.length (hpresences.trans (List.Perm.of_eq ?_))
    simp only [Option.map_map, Function.comp_def, Option.map_id']
  · exact mem_senders_iff hhosts hreplies (hsound.digest_inj_read hshuffle item.key .strong)

/-! ## Asking for the value -/

/-- A reply serves the value of its record. -/
theorem exists_record_of_served {reply : Reply} {value : Bytes} (h : served reply = .ok value) :
    ∃ r, reply = .record r ∧ r.value = value := by
  cases reply with
  | record r => exact ⟨r, rfl, Except.ok.inj h⟩
  | _ => cases h

/-- A reply that serves none is no record. -/
theorem record?_of_served {reply : Reply} {fault : Fault} (h : served reply = .error fault) :
    reply.record? = none := by
  cases reply with
  | record r => cases h
  | _ => rfl

/-- What comes of asking winners for the value. -/
structure Fetched (winners : List Host) (offers : List (Host × Reply))
    (value : Except Fault Bytes) : Prop where
  /-- Only winners are asked. -/
  mem : ∀ t ∈ offers, t.1 ∈ winners
  /-- If there is a winner, somebody is asked. -/
  ne_nil : winners ≠ [] → offers ≠ []
  /-- The value is what somebody serves. -/
  ok : ∀ v, value = .ok v → ∃ host r, (host, .record r) ∈ offers ∧ r.value = v
  /-- There is none if nobody serves one. -/
  error : ∀ fault, value = .error fault → ∀ t ∈ offers, t.2.record? = none

/-- Winners are asked in turn, and each says one thing. -/
theorem fetchValue_heard (hone : fleet.AnswersOnce) (key : Key) (field : Field)
    (winners : List Host) (site : Site (σ × List Exchange)) (last : Fault) :
    ∃ offers : List (Host × Reply),
      (site.fetchValue fleet.recorded key field winners last).2.registry = site.registry ∧
      (site.fetchValue fleet.recorded key field winners last).2.world.2
        = site.world.2 ++ Exchange.of (.select key field) offers ∧
      Fetched winners offers (site.fetchValue fleet.recorded key field winners last).1 := by
  induction winners generalizing site last with
  | nil =>
    refine ⟨[], rfl, (List.append_nil _).symm, fun t ht => absurd ht List.not_mem_nil,
      fun h => absurd rfl h, fun v hv => ?_, fun fault _ t ht => absurd ht List.not_mem_nil⟩
    cases hv
  | cons host rest ih =>
    obtain ⟨reply, hreply⟩ := hone host (.select key field) site.world.1
    have hasked : site.askWinner fleet.recorded key field host = (served reply,
        ⟨site.registry, ((fleet.answer host (.select key field) site.world.1).2,
          site.world.2 ++ Exchange.of (.select key field) [(host, reply)])⟩) := by
      change (served (Fleet.firstReply (fleet.answer host (.select key field) site.world.1).1),
        (⟨site.registry, ((fleet.answer host (.select key field) site.world.1).2,
          site.world.2 ++ [⟨host, .select key field,
            (fleet.answer host (.select key field) site.world.1).1⟩])⟩ : Site _)) = _
      rw [hreply]
      rfl
    rw [fetchValue, hasked]
    cases hserved : served reply with
    | ok value =>
      obtain ⟨r, rfl, hvalue⟩ := exists_record_of_served hserved
      refine ⟨[(host, .record r)], rfl, rfl, ?_, fun _ => List.cons_ne_nil _ _, fun v hv => ?_, ?_⟩
      · simp
      · cases hv
        exact ⟨host, r, List.mem_cons_self, hvalue⟩
      · intro fault hfault
        cases hfault
    | error fault =>
      dsimp only
      obtain ⟨offers, hregistry, hlog, hfetched⟩ := ih _ fault
      refine ⟨(host, reply) :: offers, hregistry, hlog.trans ?_, ?_, fun _ => List.cons_ne_nil _ _,
        fun v hv => ?_, fun other ho => ?_⟩
      · rw [List.append_assoc]
        rfl
      · rw [List.forall_mem_cons]
        exact ⟨List.mem_cons_self, fun t ht => List.mem_cons_of_mem _ (hfetched.mem t ht)⟩
      · obtain ⟨winner, r, hm, hvalue⟩ := hfetched.ok v hv
        exact ⟨winner, r, List.mem_cons_of_mem _ hm, hvalue⟩
      · rw [List.forall_mem_cons]
        exact ⟨record?_of_served hserved, hfetched.error other ho⟩

/-! ## Deciding -/

theorem needsValue_iff {d : Diagnosis} :
    d.needsValue = true ↔ d.ignore = false ∧ d.quorum = true ∧ d.insert = true := by
  rw [Diagnosis.needsValue, Bool.and_eq_true, Bool.and_eq_true, Bool.not_eq_true', and_assoc]

/-- What kind of decision a conclusion is. -/
theorem conclude_kind {d : Diagnosis} {value : Except Fault Bytes} {decision : Decision}
    (h : conclude d value = .ok decision) :
    (decision = .ignore ↔ d.ignore = true) ∧
      (decision = .belowQuorum ↔ d.ignore = false ∧ d.quorum = false) ∧
      ((∃ fault, decision = .lost fault) ↔ d.needsValue = true ∧ ∃ fault, value = .error fault) := by
  unfold conclude at h
  rw [needsValue_iff]
  cases hignore : d.ignore with
  | true =>
    simp only [hignore, if_true, Except.ok.injEq] at h
    simp [← h]
  | false =>
    cases hquorum : d.quorum with
    | false =>
      simp only [hignore, hquorum, Bool.false_eq_true, if_false, Bool.not_false, if_true,
        Except.ok.injEq] at h
      simp [← h]
    | true =>
      simp only [hignore, hquorum, Bool.false_eq_true, if_false, Bool.not_true] at h
      cases hinsert : d.insert <;> cases value <;> cases hnext : nextScore? d.score <;>
        simp [hinsert, hnext] at h <;> simp [← h]

/-- A deletion carries no value. -/
theorem value_of_deletion {d : Diagnosis} {value : Except Fault Bytes} {decision : Decision}
    (h : conclude d value = .ok decision) {m : FieldValue}
    (hwrite : decision.write? = some (.delete, m)) : m.value = [] := by
  have hdeletes : decision = .delete m := by
    cases decision <;> cases hwrite
    rfl
  subst hdeletes
  unfold conclude at h
  split_ifs at h
  · cases h
  · cases h
  · split at h <;> cases h
  · split at h <;> cases h
    rfl

/-- A hearing brought a value to light, where one was needed, or that none is served. -/
structure Hearing.Yields (h : Hearing) (value : Except Fault Bytes) : Prop where
  /-- Winners are asked for the value where it is needed. -/
  asked_iff : h.offers ≠ [] ↔ h.diagnosis.needsValue = true
  /-- It is what one of them serves. -/
  ok : h.diagnosis.needsValue = true → ∀ v, value = .ok v → ∃ host p r,
    (host, .presence p) ∈ h.snapshots ∧ h.diagnosis.isWinner p = true ∧
      (host, .record r) ∈ h.offers ∧ v = r.value
  /-- There is none if nobody serves one. -/
  error : h.diagnosis.needsValue = true → ∀ fault, value = .error fault →
    ∀ t ∈ h.offers, t.2.record? = none

/-- What comes of an item, by its hearing. -/
structure Hearing.Decides (h : Hearing) (result : Except Abort (Decision × List RepairFault)) :
    Prop where
  /-- The pass is cut short if the item has used up the scores. -/
  cut_iff : (∃ abort, result = .error abort) ↔ h.Exhausts
  /-- Else there is a decision that the hearing leads to. -/
  leads : ∀ decision faults, result = .ok (decision, faults) → h.Leads decision faults

namespace Hearing.Yields

variable {h : Hearing} {value : Except Fault Bytes}

/-- A value that is needed is served, or it is not. -/
theorem served_iff (hyields : h.Yields value) (hneeds : h.diagnosis.needsValue = true) :
    (∃ v, value = .ok v) ↔ ∃ t ∈ h.offers, t.2.record?.isSome = true := by
  constructor
  · rintro ⟨v, hv⟩
    obtain ⟨host, -, r, -, -, hm, -⟩ := hyields.ok hneeds v hv
    exact ⟨_, hm, rfl⟩
  · rintro ⟨t, ht, hserves⟩
    cases value with
    | ok v => exact ⟨v, rfl⟩
    | error fault =>
      rw [hyields.error hneeds fault rfl t ht] at hserves
      cases hserves

/-- Winners were asked and none served the value exactly where one was needed and not had. -/
theorem unserved_iff (hyields : h.Yields value) :
    (h.offers ≠ [] ∧ ∀ t ∈ h.offers, t.2.record? = none) ↔
      h.diagnosis.needsValue = true ∧ ∃ fault, value = .error fault := by
  constructor
  · rintro ⟨hasked, hnone⟩
    have hneeds := hyields.asked_iff.1 hasked
    refine ⟨hneeds, ?_⟩
    cases value with
    | ok v =>
      obtain ⟨t, ht, hserves⟩ := (hyields.served_iff hneeds).1 ⟨v, rfl⟩
      rw [hnone t ht] at hserves
      cases hserves
    | error fault => exact ⟨fault, rfl⟩
  · rintro ⟨hneeds, fault, hfault⟩
    exact ⟨hyields.asked_iff.2 hneeds, hyields.error hneeds fault hfault⟩

/-- There is no conclusion exactly where the scores are used up. -/
theorem exhausts_iff (hyields : h.Yields value) :
    (∃ abort, conclude h.diagnosis value = .error abort) ↔ h.Exhausts := by
  constructor
  · rintro ⟨abort, hcut⟩
    obtain ⟨-, ⟨hknown, hquorum⟩, htop, hserved⟩ := conclude_eq_error_iff.1 hcut
    refine ⟨hknown, hquorum, htop, fun hinsert => ?_⟩
    exact (hyields.served_iff (needsValue_iff.2 ⟨hknown, hquorum, hinsert⟩)).1 (hserved hinsert)
  · intro hover
    refine ⟨.scoreOverflow, conclude_eq_error_iff.2
      ⟨rfl, ⟨hover.known, hover.quorum⟩, hover.top, fun hinsert => ?_⟩⟩
    exact (hyields.served_iff (needsValue_iff.2 ⟨hover.known, hover.quorum, hinsert⟩)).2
      (hover.served hinsert)

/-- A conclusion is what the hearing leads to. -/
theorem leads (hyields : h.Yields value) {decision : Decision} {faults : List RepairFault}
    (hconcluded : conclude h.diagnosis value = .ok decision)
    (hclean : faults = [] ↔ ∀ t ∈ h.snapshots, t.2.presence?.isSome = true) :
    h.Leads decision faults := by
  obtain ⟨hignore, hbelow, hlost⟩ := conclude_kind hconcluded
  refine ⟨hignore, hbelow, fun kind m hwrite => ?_, ?_⟩
  · obtain ⟨hknown, hquorum, hfield, hscore, hkind, hvalue⟩ := conclude_write hconcluded hwrite
    refine ⟨hknown, hquorum, hfield.trans Diagnosis.field_ofPresences, hscore, ?_, ?_⟩
    · rintro rfl
      have hinsert : h.diagnosis.insert = true := by
        by_contra hnot
        rw [if_neg hnot] at hkind
        cases hkind
      exact ⟨hinsert, hyields.ok (needsValue_iff.2 ⟨hknown, hquorum, hinsert⟩) _ (hvalue hinsert)⟩
    · rintro rfl
      have hinsert : h.diagnosis.insert = false := by
        refine Bool.eq_false_of_not_eq_true fun hlive => ?_
        rw [if_pos hlive] at hkind
        cases hkind
      exact ⟨hinsert, value_of_deletion hconcluded hwrite⟩
  · have hkept : (∀ fault, decision ≠ .lost fault) ↔
        ¬ (h.offers ≠ [] ∧ ∀ t ∈ h.offers, t.2.record? = none) := by
      rw [hyields.unserved_iff, ← hlost, not_exists]
    have hsent : (∀ t ∈ h.snapshots, t.2.presence?.isSome = true) ↔
        ¬ ∃ t ∈ h.snapshots, t.2.presence? = none := by
      simp only [not_exists, not_and, Option.isSome_iff_ne_none, ne_eq]
    rw [hclean, hkept, hsent, Hearing.Fails, not_or]

/-- What is decided is what the hearing leads to. -/
theorem decides (hyields : h.Yields value) {faults : List RepairFault}
    (hclean : faults = [] ↔ ∀ t ∈ h.snapshots, t.2.presence?.isSome = true) :
    h.Decides ((conclude h.diagnosis value).map fun decision => (decision, faults)) := by
  have hcut := hyields.exhausts_iff
  cases hconcluded : conclude h.diagnosis value with
  | error abort =>
    rw [hconcluded] at hcut
    exact ⟨iff_of_true ⟨abort, rfl⟩ (hcut.1 ⟨abort, rfl⟩), fun decision faults h' => by cases h'⟩
  | ok decision =>
    refine ⟨?_, fun decision' faults' h' => ?_⟩
    · rw [← hcut, hconcluded]
      simp [Except.map]
    · cases h'
      exact hyields.leads hconcluded hclean

end Hearing.Yields

/-- Whatever a pass does about an item, its hearing leads to it. -/
theorem decideItem_heard (hone : fleet.AnswersOnce) (hdelivers : fleet.Delivers)
    (hsound : site.registry.Sound) (hshuffle : ∀ hosts, (shuffle hosts).Perm hosts)
    (item : Suspect) :
    ∃ h : Hearing, h.item = item ∧ (h.snapshots.map Prod.fst).Perm site.registry.nodes ∧
      (site.decideItem fleet.recorded shuffle item).2.registry = site.registry ∧
      (site.decideItem fleet.recorded shuffle item).2.world.2 = site.world.2 ++ h.exchanges ∧
      h.Decides (site.decideItem fleet.recorded shuffle item).1 := by
  obtain ⟨said, hnodes, hregistry, hlog, hfound⟩ :=
    investigate_heard hone hdelivers hsound hshuffle item
  unfold decideItem
  rcases hask : site.investigate fleet.recorded shuffle item with ⟨finding, site'⟩
  rw [hask] at hregistry hlog hfound
  dsimp only at hregistry hlog hfound ⊢
  cases hneeds : finding.diagnosis.needsValue with
  | true =>
    rw [if_pos rfl]
    obtain ⟨offers, hregistry', hlog', hfetched⟩ := fetchValue_heard hone item.key item.field
      finding.winners site' (noServer item.key item.field)
    have hdiagnosis : finding.diagnosis = Hearing.diagnosis ⟨item, said, offers⟩ := hfound.diagnosis
    refine ⟨⟨item, said, offers⟩, rfl, hnodes, hregistry'.trans hregistry, ?_, ?_⟩
    · rw [hlog', hlog, List.append_assoc]
      rfl
    · rw [hdiagnosis] at hneeds ⊢
      refine Hearing.Yields.decides ⟨iff_of_true ?_ hneeds, fun _ v hv => ?_, fun _ => hfetched.error⟩
        hfound.clean_iff
      · refine hfetched.ne_nil (hfound.winners_ne_nil ?_)
        rw [hdiagnosis]
        exact (needsValue_iff.1 hneeds).1
      · obtain ⟨host, r, hserves, hvalue⟩ := hfetched.ok v hv
        obtain ⟨p, hshows, hwins⟩ := (hfound.mem_winners host).1 (hfetched.mem _ hserves)
        rw [hdiagnosis] at hwins
        exact ⟨host, p, r, hshows, hwins, hserves, hvalue.symm⟩
  | false =>
    rw [if_neg Bool.false_ne_true]
    have hdiagnosis : finding.diagnosis = Hearing.diagnosis ⟨item, said, []⟩ := hfound.diagnosis
    refine ⟨⟨item, said, []⟩, rfl, hnodes, hregistry, ?_, ?_⟩
    · rw [hlog]
      exact congrArg (site.world.2 ++ ·) (List.append_nil _).symm
    · rw [hdiagnosis] at hneeds ⊢
      have hneedless : ¬ (Hearing.diagnosis ⟨item, said, []⟩).needsValue = true := by
        rw [hneeds]
        exact Bool.false_ne_true
      exact Hearing.Yields.decides ⟨iff_of_false (fun h => h rfl) hneedless,
        fun h => absurd h hneedless, fun h => absurd h hneedless⟩ hfound.clean_iff

end Site

end QuorumStore
