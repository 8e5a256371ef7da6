import QuorumStore.Proofs.ConflictRules
import QuorumStore.Proofs.ReadOutcomes

/-!
# Surveys

Keys, counts, fields and snapshots are asked of every node, and every node has to answer. If
all do, the answers are merged: names are united, of counts the greatest is told, and of
snapshots the strongest that knows the field. If some node does not answer, nothing is found
where all such nodes say so, and else the quorum is unmet; a survey is never degraded. A field
that some of the nodes that answer list and others do not is to be repaired, whatever the
caller is told.
-/

namespace QuorumStore

namespace Fleet

/-- Every host of a list sends one reply to a call. -/
def SaysOnce {σ : Type} (fleet : Fleet σ) (call : Call) (hosts : List Host) (s : σ)
    (said : Host → Reply) : Prop :=
  (fleet.contact call hosts s).1 = hosts.map fun host => (host, [said host])

/-- Replicas each of which has one reply to every call. -/
def fixed (said : Call → Host → Reply) : Fleet Unit :=
  prompt fun host call s => ([said call host], s)

theorem saysOnce_fixed (said : Call → Host → Reply) (call : Call) (hosts : List Host) (s : Unit) :
    (fixed said).SaysOnce call hosts s (said call) := by
  induction hosts with
  | nil => rfl
  | cons host rest ih => exact congrArg ((host, [said call host]) :: ·) ih

end Fleet

/-- What hosts answer, of the replies of a wanted kind. -/
def answersOf {α : Type} (want : Reply → Option α) (hosts : List Host) (said : Host → Reply) :
    List α :=
  hosts.filterMap fun host => want (said host)

section

variable {α : Type} {want : Reply → Option α} {hosts : List Host} {said : Host → Reply}
  {replies : List Tagged} {op : String}

/-- The answers that arrive are those of the hosts. -/
theorem OneEach.answers_perm (h : OneEach hosts said replies) :
    ((Gathered.ofReplies want op replies).values.map Prod.snd).Perm (answersOf want hosts said) := by
  rw [Gathered.map_snd_values]
  refine (List.Perm.filterMap _ h).trans ?_
  rw [List.filterMap_map]
  exact .refl _

/-- There are as many answers as hosts if every host answers. -/
theorem length_answersOf_iff :
    (answersOf want hosts said).length = hosts.length ↔
      ∀ host ∈ hosts, (want (said host)).isSome = true := by
  rw [answersOf, List.length_filterMap_eq_countP, List.countP_eq_length]

/-- What a survey tells its caller, by what each host said. -/
structure Surveyed (want : Reply → Option α) (merges : List α → α → Prop) (hosts : List Host)
    (said : Host → Reply) (outcome : Outcome α) : Prop where
  /-- It is done if somebody was asked and everybody answers. -/
  done_iff : outcome.kind = .done ↔
    hosts ≠ [] ∧ ∀ host ∈ hosts, (want (said host)).isSome = true
  /-- It is never degraded. -/
  not_degraded : outcome.kind ≠ .degraded
  /-- Nothing is found if nobody was asked, or somebody does not answer and everybody who does
  not says that there is nothing. -/
  notFound_iff : outcome.kind = .notFound ↔
    hosts = [] ∨ (∃ host ∈ hosts, want (said host) = none) ∧
      ∀ host ∈ hosts, want (said host) = none → (said host).isAbsence = true
  /-- Else the quorum is unmet. -/
  unmet_iff : outcome.kind = .unmet ↔
    ∃ host ∈ hosts, want (said host) = none ∧ (said host).isAbsence = false
  /-- The value is what the answers merge to. -/
  merged : ∀ value, outcome.value? = some value → merges (answersOf want hosts said) value

/-- A survey of nobody finds nothing. -/
theorem surveyed_nobody (merges : List α → α → Prop) (said : Host → Reply) :
    Surveyed want merges [] said .notFound where
  done_iff := by simp [Outcome.kind]
  not_degraded := by simp [Outcome.kind]
  notFound_iff := by simp [Outcome.kind]
  unmet_iff := by simp [Outcome.kind]
  merged _ h := by cases h

/-- A survey that everybody answers is done. -/
theorem surveyed_of_answered (hsome : hosts ≠ [])
    (hall : ∀ host ∈ hosts, (want (said host)).isSome = true) {merges : List α → α → Prop}
    {value : α} (hmerges : merges (answersOf want hosts said) value) :
    Surveyed want merges hosts said (.done value) := by
  have hanswers : ∀ host ∈ hosts, want (said host) ≠ none := fun host hm =>
    Option.isSome_iff_ne_none.1 (hall host hm)
  refine ⟨iff_of_true rfl ⟨hsome, hall⟩, (fun hkind => by cases hkind),
    iff_of_false (fun hkind => by cases hkind) ?_, iff_of_false (fun hkind => by cases hkind) ?_,
    fun _ hvalue => ?_⟩
  · rintro (hnobody | ⟨⟨host, hm, hwant⟩, -⟩)
    · exact hsome hnobody
    · exact hanswers host hm hwant
  · rintro ⟨host, hm, hwant, -⟩
    exact hanswers host hm hwant
  · cases hvalue
    exact hmerges

/-- A survey that somebody does not answer tells no value, and that nothing is found where all
who do not answer say so. -/
theorem surveyed_of_unanswered (hfails : ∃ host ∈ hosts, want (said host) = none)
    {outcome : Outcome α} (hvalue : outcome.value? = none)
    (hnotFound : outcome.kind = .notFound ↔
      ∀ host ∈ hosts, want (said host) = none → (said host).isAbsence = true)
    (merges : List α → α → Prop) : Surveyed want merges hosts said outcome := by
  obtain ⟨silent, hm, hwant⟩ := hfails
  have hkinds := Outcome.value?_eq_none_iff.1 hvalue
  have hunmet : outcome.kind = .unmet ↔ ¬ outcome.kind = .notFound := by
    rcases hkinds with h | h <;> simp [h]
  refine ⟨iff_of_false (fun hkind => ?_) fun hdone => ?_, fun hkind => ?_, ?_, ?_, fun v hv => ?_⟩
  · rcases hkinds with h | h <;> cases hkind.symm.trans h
  · exact Option.isSome_iff_ne_none.1 (hdone.2 silent hm) hwant
  · rcases hkinds with h | h <;> cases hkind.symm.trans h
  · rw [hnotFound, or_iff_right (List.ne_nil_of_mem hm), and_iff_right ⟨silent, hm, hwant⟩]
  · rw [hunmet, hnotFound]
    simp only [not_forall, exists_prop, Bool.not_eq_true]
  · cases hvalue.symm.trans hv

/-- The outcome of a survey that needs every answer, given what the answers merge to. -/
theorem OneEach.surveyed (h : OneEach hosts said replies) (hsome : hosts ≠ [])
    {merges : List α → α → Prop} {value : α}
    (hmerges : answersOf want hosts said ≠ [] → merges (answersOf want hosts said) value) :
    Surveyed want merges hosts said (.settle .strong hosts.length
      (Gathered.ofReplies want op replies).values.length (Gathered.ofReplies want op replies).faults
      value) := by
  have hlength : (Gathered.ofReplies want op replies).values.length
      = (answersOf want hosts said).length := by
    rw [← List.length_map Prod.snd, h.answers_perm.length_eq]
  have hclean : (Gathered.ofReplies want op replies).faults = [] ↔
      ∀ host ∈ hosts, (want (said host)).isSome = true :=
    (Gathered.faults_eq_nil_iff op).trans (h.forall_iff (p := fun reply => (want reply).isSome = true))
  by_cases hall : ∀ host ∈ hosts, (want (said host)).isSome = true
  · have hdone : Outcome.settle .strong hosts.length
        (Gathered.ofReplies want op replies).values.length
        (Gathered.ofReplies want op replies).faults value = .done value := by
      rw [hlength, length_answersOf_iff.2 hall, hclean.2 hall, Outcome.settle, Quorum.met,
        decide_eq_true rfl]
      rfl
    rw [hdone]
    refine surveyed_of_answered hsome hall (hmerges fun hnone => hsome ?_)
    rw [← List.length_eq_zero_iff, ← length_answersOf_iff.2 hall, hnone, List.length_nil]
  · have hshort : Outcome.settle .strong hosts.length
        (Gathered.ofReplies want op replies).values.length
        (Gathered.ofReplies want op replies).faults value
        = .short hosts.length (Gathered.ofReplies want op replies).values.length
          (Gathered.ofReplies want op replies).faults := by
      refine if_neg fun hmet => hall ?_
      rw [Quorum.met, decide_eq_true_eq, hlength] at hmet
      exact length_answersOf_iff.1 hmet
    have hfails : ∃ host ∈ hosts, want (said host) = none := by
      simpa only [not_forall, Option.not_isSome_iff_eq_none, exists_prop] using hall
    rw [hshort]
    refine surveyed_of_unanswered hfails (Outcome.value?_short ..) ?_ merges
    rw [Outcome.kind_short_eq_notFound_iff, Gathered.all_isNotFound_faults, ne_eq, hclean,
      and_iff_right hall, h.forall_iff (p := fun reply => want reply = none → reply.isAbsence = true)]

end

/-! ## What the answers merge to -/

/-- The names of several lists, sorted and without repeats. -/
structure Unites (lists : List (List String)) (names : List String) : Prop where
  /-- Every name is below the next. -/
  rising : names.Pairwise (compare · · = .lt)
  /-- They are the names of the lists. -/
  mem_iff : ∀ name, name ∈ names ↔ ∃ list ∈ lists, name ∈ list

/-- The greatest of several counts. -/
structure Greatest (counts : List Int) (count : Int) : Prop where
  /-- It is one of them. -/
  mem : count ∈ counts
  /-- None is greater. -/
  le : ∀ other ∈ counts, other ≤ count

/-- The strongest of several snapshots: one that wins, or any of them where none knows the
field. -/
def Presence.Strongest (snapshots : List Presence) (p : Presence) : Prop :=
  p.Winner snapshots ∨ p ∈ snapshots ∧ ∀ q ∈ snapshots, q.present = false

theorem unites_sortedNames {arrived lists : List (List String)} (h : arrived.Perm lists) :
    Unites lists (sortedNames arrived.flatten) where
  rising := sortedNames_pairwise _
  mem_iff name := by
    rw [mem_sortedNames, h.flatten.mem_iff, List.mem_flatten]

theorem greatest_topScore? {arrived counts : List Int} (h : arrived.Perm counts)
    (hsome : counts ≠ []) : Greatest counts ((topScore? arrived).getD 0) := by
  have harrived : arrived ≠ [] := fun hnil => hsome (List.nil_perm.1 (hnil ▸ h))
  obtain ⟨count, htop⟩ : ∃ count, topScore? arrived = some count := by
    cases arrived with
    | nil => exact absurd rfl harrived
    | cons first rest => exact ⟨_, rfl⟩
  obtain ⟨hmem, hle⟩ := Diagnosis.topScore?_eq_some_iff.1 htop
  rw [htop]
  exact ⟨h.mem_iff.1 hmem, fun other ho => hle other (h.mem_iff.2 ho)⟩

theorem strongest_strongest {arrived snapshots : List Presence} (h : arrived.Perm snapshots)
    (hsome : snapshots ≠ []) : Presence.Strongest snapshots (Verdict.strongest arrived) := by
  by_cases hheld : ∃ p ∈ arrived, p.present = true
  · exact .inl ((Verdict.winner_strongest hheld).perm h)
  · have hnone : ∀ q ∈ arrived, q.present = false := by
      simpa only [not_exists, not_and, Bool.not_eq_true] using hheld
    refine .inr ⟨?_, fun q hq => hnone q (h.mem_iff.2 hq)⟩
    have hunknown : arrived.filter (·.present) = [] :=
      List.filter_eq_nil_iff.2 fun q hq => by rw [hnone q hq]; exact Bool.false_ne_true
    rw [← h.mem_iff, Verdict.strongest, hunknown]
    cases arrived with
    | nil => exact absurd (List.nil_perm.1 h) hsome
    | cons first rest => exact List.mem_cons_self

/-! ## What is to be repaired -/

/-- What listings send to repair: the fields that some of them name and others do not. -/
structure Uneven (key : Key) (lists : List (List Field)) (repairs : List Suspect) : Prop where
  /-- Each field is to be repaired once. -/
  once : (repairs.map (·.field)).Nodup
  /-- It is one that some listing names and another does not, and no value is known of it. -/
  mem_iff : ∀ item, item ∈ repairs ↔ item.key = key ∧ item.value = [] ∧
    (∃ list ∈ lists, item.field ∈ list) ∧ ∃ list ∈ lists, item.field ∉ list
  /-- The fields are queued as one job, where there is a worker and room. -/
  queued : ∀ queue : RepairBacklog, (queue.offer repairs).1 =
    if repairs ≠ [] ∧ 0 < queue.workers ∧ 0 < queue.remaining
    then { queue with waiting := queue.waiting ++ [repairs] } else queue

theorem uneven_nobody (key : Key) : Uneven key [] [] where
  once := .nil
  mem_iff item := by simp
  queued queue := queue.fst_offer _

/-- The fields of listings that not all of them name. -/
theorem uneven_sortedNames (key : Key) {arrived lists : List (List Field)}
    (h : arrived.Perm lists) :
    Uneven key lists (((sortedNames arrived.flatten).filter fun f =>
      !arrived.all (·.contains f)).map fun f => ⟨key, f, []⟩) where
  once := by
    rw [List.map_map]
    refine List.Nodup.map (fun _ _ heq => heq) ?_
    exact (nodup_of_rising (sortedNames_pairwise _)).filter _
  mem_iff item := by
    have hnamed (f : Field) : f ∈ (sortedNames arrived.flatten).filter
        (fun f => !arrived.all (·.contains f)) ↔
          (∃ list ∈ lists, f ∈ list) ∧ ∃ list ∈ lists, f ∉ list := by
      rw [List.mem_filter, (unites_sortedNames h).mem_iff, h.all_eq, Bool.not_eq_true']
      simp
    simp only [List.mem_map, hnamed]
    constructor
    · rintro ⟨f, hf, rfl⟩
      exact ⟨rfl, rfl, hf⟩
    · rintro ⟨rfl, hvalue, hf⟩
      exact ⟨item.field, hf, by rw [← hvalue]⟩
  queued queue := queue.fst_offer _

/-! ## The four surveys -/

namespace OneEach

variable {hosts : List Host} {said : Host → Reply} {replies : List Tagged}

/-- The keys that are told are those of all hosts. -/
theorem ofKeys_surveyed (h : OneEach hosts said replies) :
    Surveyed Reply.keys? Unites hosts said (Verdict.ofKeys hosts.length replies).outcome := by
  by_cases hsome : hosts = []
  · subst hsome
    exact surveyed_nobody Unites said
  · rw [Verdict.ofKeys, if_neg (List.length_eq_zero_iff.not.2 hsome)]
    dsimp only
    rw [List.flatMap_def]
    exact h.surveyed hsome fun _ => unites_sortedNames h.answers_perm

/-- The count that is told is the greatest. -/
theorem ofSize_surveyed (h : OneEach hosts said replies) :
    Surveyed Reply.count? Greatest hosts said (Verdict.ofSize hosts.length replies).outcome := by
  by_cases hsome : hosts = []
  · subst hsome
    exact surveyed_nobody Greatest said
  · rw [Verdict.ofSize, if_neg (List.length_eq_zero_iff.not.2 hsome)]
    exact h.surveyed hsome fun hanswers => greatest_topScore? h.answers_perm hanswers

/-- The fields that are told are those of all hosts, and those that not all of the hosts that
answer list are to be repaired. -/
theorem ofMembers_surveyed (h : OneEach hosts said replies) (key : Key) :
    Surveyed Reply.fields? Unites hosts said (Verdict.ofMembers key hosts.length replies).outcome ∧
      Uneven key (answersOf Reply.fields? hosts said)
        (Verdict.ofMembers key hosts.length replies).repairs := by
  by_cases hsome : hosts = []
  · subst hsome
    exact ⟨surveyed_nobody Unites said, uneven_nobody key⟩
  · rw [Verdict.ofMembers, if_neg (List.length_eq_zero_iff.not.2 hsome)]
    exact ⟨h.surveyed hsome fun _ => unites_sortedNames h.answers_perm,
      uneven_sortedNames key h.answers_perm⟩

/-- The snapshot that is told is the strongest. -/
theorem ofScore_surveyed (h : OneEach hosts said replies) :
    Surveyed Reply.presence? Presence.Strongest hosts said
      (Verdict.ofScore hosts.length replies).outcome := by
  by_cases hsome : hosts = []
  · subst hsome
    exact surveyed_nobody Presence.Strongest said
  · rw [Verdict.ofScore, if_neg (List.length_eq_zero_iff.not.2 hsome)]
    exact h.surveyed hsome fun hanswers => strongest_strongest h.answers_perm hanswers

end OneEach

namespace Site

variable {σ : Type} {fleet : Fleet σ} {site : Site σ} {shuffle : List Host → List Host}

/-- Where every host sends one reply to a survey, what is told and what is to be repaired come
of these replies alone, in whatever order they arrive. -/
theorem surveys_merged (hdelivers : fleet.Delivers) (key : Key) (field : Field) :
    let hosts := shuffle site.registry.nodes
    (∀ said, fleet.SaysOnce .keys hosts site.world said →
      Surveyed Reply.keys? Unites hosts said
        (site.survey fleet shuffle .keys Verdict.ofKeys).1.outcome) ∧
    (∀ said, fleet.SaysOnce (.size key) hosts site.world said →
      Surveyed Reply.count? Greatest hosts said
        (site.survey fleet shuffle (.size key) Verdict.ofSize).1.outcome) ∧
    (∀ said, fleet.SaysOnce (.members key) hosts site.world said →
      let v := (site.survey fleet shuffle (.members key) (Verdict.ofMembers key)).1
      Surveyed Reply.fields? Unites hosts said v.outcome ∧
        Uneven key (answersOf Reply.fields? hosts said) v.repairs) ∧
    ∀ said, fleet.SaysOnce (.score key field) hosts site.world said →
      Surveyed Reply.presence? Presence.Strongest hosts said
        (site.survey fleet shuffle (.score key field) Verdict.ofScore).1.outcome := by
  intro hosts
  have heach {call : Call} {said : Host → Reply} (h : fleet.SaysOnce call hosts site.world said) :
      OneEach hosts said (fleet.scatter hosts call site.world).1 :=
    hdelivers.scatter_of_single h
  exact ⟨fun _ h => (heach h).ofKeys_surveyed, fun _ h => (heach h).ofSize_surveyed,
    fun _ h => (heach h).ofMembers_surveyed key, fun _ h => (heach h).ofScore_surveyed⟩

/-- Of three hosts one lists a field that another does not, and the third is down: the quorum is
unmet, and the field is to be repaired all the same. -/
theorem surveys_merged_of_uneven :
    let said : Call → Host → Reply := fun call host =>
      if host = "c" then .fault (.node "down")
      else match call with
        | .keys => .keys ["k"]
        | .size _ => .count 2
        | .members _ => .fields (if host = "a" then ["g", "f", "g"] else ["f"])
        | _ => .presence ⟨true, true, 3⟩
    let fleet := Fleet.fixed said
    let site : Site Unit := ⟨.trio, ()⟩
    let v := (site.survey fleet id (.members "k") (Verdict.ofMembers "k")).1
    fleet.Delivers ∧ site.registry.nodes = ["a", "b", "c"] ∧
      v.outcome = .unmet 3 2 [.node "down"] ∧ v.repairs = [⟨"k", "g", []⟩] ∧
      Surveyed Reply.fields? Unites ["a", "b", "c"] (said (.members "k")) v.outcome ∧
      Uneven "k" (answersOf Reply.fields? ["a", "b", "c"] (said (.members "k"))) v.repairs := by
  intro said fleet site v
  have hdelivers : fleet.Delivers := Fleet.delivers_prompt _
  have hnodes : site.registry.nodes = ["a", "b", "c"] := by decide +kernel
  have hmerged := (@surveys_merged Unit fleet site id hdelivers "k" "f").2.2.1
    (said (.members "k")) (Fleet.saysOnce_fixed said _ _ _)
  rw [id, hnodes] at hmerged
  exact ⟨hdelivers, hnodes, by decide +kernel, by decide +kernel, hmerged⟩

end Site

end QuorumStore
