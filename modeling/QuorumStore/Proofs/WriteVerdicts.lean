import QuorumStore.Coordinator.Verdict
import QuorumStore.Proofs.Answers
import QuorumStore.Proofs.Unanimity

/-!
# Verdicts on writes

What the coordinator concludes from the replies to a write. Where it went to nobody it is
not found. Else it depends on three things: whether the change sets meet the quorum, whether
anything speaks against the write, and without a quorum whether all that was sent besides
change sets are absences.
-/

namespace QuorumStore

/-- The change sets among replies, in the order of arrival. -/
def changeSets (replies : List Tagged) : List ChangeSet := replies.filterMap fun t => t.2.changes?

namespace Verdict

variable {kind : WriteKind} {key : Key} {members : List FieldValue} {quorum : Quorum}
  {total : Nat} {replies : List Tagged}

/-- Nothing speaks against a write: every reply is a change set, and they are unanimous. -/
def Undisputed (replies : List Tagged) : Prop :=
  (∀ t ∈ replies, t.2.changes?.isSome = true) ∧ ChangeSet.Unanimous (changeSets replies)

/-- What speaks against a write is another reply, or two change sets that differ. -/
theorem not_undisputed_iff :
    ¬ Undisputed replies ↔ (∃ t ∈ replies, t.2.changes? = none) ∨
      ∃ c ∈ changeSets replies, ∃ d ∈ changeSets replies, ¬ c.SameFields d := by
  simp only [Undisputed, ChangeSet.Unanimous, Classical.not_and_iff_not_or_not, Classical.not_forall,
    Bool.not_eq_true, Option.isSome_eq_false_iff, Option.isNone_iff_eq_none, exists_prop]

/-- Some replies are no change sets, and all of these are absences. -/
def Absent (replies : List Tagged) : Prop :=
  (∃ t ∈ replies, t.2.changes? = none) ∧
    ∀ t ∈ replies, t.2.changes? = none → t.2.isAbsence = true

/-- Else all replies are change sets, or some reply is neither a change set nor an absence. -/
theorem not_absent_iff :
    ¬ Absent replies ↔ (∀ t ∈ replies, t.2.changes?.isSome = true) ∨
      ∃ t ∈ replies, t.2.changes? = none ∧ t.2.isAbsence = false := by
  rw [Absent, Classical.not_and_iff_not_or_not]
  simp only [not_exists, not_and, Classical.not_forall, Option.isSome_iff_ne_none,
    Bool.not_eq_true, exists_prop, ne_eq]

/-- The written fields as items to repair. -/
def suspects (key : Key) (members : List FieldValue) : List Suspect :=
  members.map fun m => ⟨key, m.field, m.value⟩

/-- The three ways that a write to somebody can go. -/
theorem ofWrite_cases (kind : WriteKind) (key : Key) (members : List FieldValue)
    (quorum : Quorum) (hsome : total ≠ 0) (replies : List Tagged) :
    let gathered := Gathered.ofReplies Reply.changes? kind.name replies
    let confirmed := gathered.values.map Prod.fst
    let value := (Agreement.ofList (changeSets replies)).value
    let returned := (changeSets replies).length
    (quorum.met total returned = true ∧ Undisputed replies ∧
      ofWrite kind key members quorum total replies = ⟨.done value, confirmed, []⟩) ∨
    (quorum.met total returned = true ∧ ¬ Undisputed replies ∧ ∃ faults,
      ofWrite kind key members quorum total replies
        = ⟨.degraded value total returned faults, confirmed, suspects key members⟩) ∨
    (quorum.met total returned = false ∧
      ofWrite kind key members quorum total replies
        = ⟨.short total returned gathered.faults, [], []⟩) := by
  intro gathered confirmed value returned
  have hanswers : gathered.values.map Prod.snd = changeSets replies :=
    Gathered.map_snd_values _ _ _
  have hreturned : confirmed.length = returned := by
    rw [List.length_map, ← List.length_map Prod.snd, hanswers]
  have hclean : (gathered.faults ++ (Agreement.ofList (changeSets replies)).fault?.toList).isEmpty
      = true ↔ Undisputed replies := by
    rw [List.isEmpty_iff, List.append_eq_nil_iff, Gathered.faults_eq_nil_iff,
      Option.toList_eq_nil_iff, Agreement.fault?_ofList_eq_none_iff]
    exact Iff.rfl
  have hverdict : ofWrite kind key members quorum total replies
      = if quorum.met total returned then
          if (gathered.faults ++ (Agreement.ofList (changeSets replies)).fault?.toList).isEmpty then
            ⟨.done value, confirmed, []⟩
          else
            ⟨.degraded value total returned
              (gathered.faults ++ (Agreement.ofList (changeSets replies)).fault?.toList),
              confirmed, suspects key members⟩
        else ⟨.short total returned gathered.faults, [], []⟩ := by
    unfold ofWrite
    rw [if_neg hsome]
    dsimp only
    rw [Gathered.map_snd_values, hreturned]
    rfl
  rw [hverdict]
  cases hmet : quorum.met total returned with
  | true =>
    by_cases hundisputed : Undisputed replies
    · rw [if_pos rfl, if_pos (hclean.2 hundisputed)]
      exact .inl ⟨rfl, hundisputed, rfl⟩
    · rw [if_pos rfl, if_neg fun h => hundisputed (hclean.1 h)]
      exact .inr (.inl ⟨rfl, hundisputed, _, rfl⟩)
  | false =>
    rw [if_neg Bool.false_ne_true]
    exact .inr (.inr ⟨rfl, rfl⟩)

/-- Without a quorum the kind of the outcome says whether all failures are absences. -/
theorem kind_short_changes (total returned : Nat) (op : String) :
    (Outcome.short total returned (Gathered.ofReplies Reply.changes? op replies).faults
        : Outcome ChangeSet).kind = .notFound ↔ Absent replies := by
  have hfaults : (Gathered.ofReplies Reply.changes? op replies).faults ≠ [] ↔
      ∃ t ∈ replies, t.2.changes? = none := by
    rw [ne_eq, Gathered.faults_eq_nil_iff]
    simp only [Classical.not_forall, Bool.not_eq_true, Option.isSome_eq_false_iff,
      Option.isNone_iff_eq_none, exists_prop]
  rw [Outcome.kind_short_eq_notFound_iff, Gathered.all_isNotFound_faults, hfaults]
  exact Iff.rfl

/-- The kind of the outcome of a write. -/
theorem kind_ofWrite (kind : WriteKind) (key : Key) (members : List FieldValue)
    (quorum : Quorum) (total : Nat) (replies : List Tagged) :
    let said := (ofWrite kind key members quorum total replies).outcome.kind
    let enough := quorum.met total (changeSets replies).length
    (said = .done ↔ total ≠ 0 ∧ enough = true ∧ Undisputed replies) ∧
    (said = .degraded ↔ total ≠ 0 ∧ enough = true ∧ ¬ Undisputed replies) ∧
    (said = .notFound ↔ total = 0 ∨ enough = false ∧ Absent replies) ∧
    (said = .unmet ↔ total ≠ 0 ∧ enough = false ∧ ¬ Absent replies) := by
  intro said enough
  by_cases hsome : total = 0
  · have hsaid : said = .notFound := by
      change (ofWrite kind key members quorum total replies).outcome.kind = _
      rw [ofWrite, if_pos hsome]
      rfl
    simp [hsaid, hsome]
  · obtain ⟨hmet, hclean, hv⟩ | ⟨hmet, hclean, faults, hv⟩ | ⟨hmet, hv⟩ :=
      ofWrite_cases kind key members quorum hsome replies
    · have hsaid : said = .done := congrArg (fun v => v.outcome.kind) hv
      simp [hsaid, hsome, hclean, show enough = true from hmet]
    · have hsaid : said = .degraded := congrArg (fun v => v.outcome.kind) hv
      simp [hsaid, hsome, hclean, show enough = true from hmet]
    · have hsaid : said = (Outcome.short total (changeSets replies).length
          (Gathered.ofReplies Reply.changes? kind.name replies).faults : Outcome ChangeSet).kind :=
        congrArg (fun v => v.outcome.kind) hv
      have habsent : said = .notFound ↔ Absent replies := hsaid ▸ kind_short_changes _ _ _
      have hshort : said = .notFound ∨ said = .unmet := hsaid ▸ Outcome.kind_short _ _ _
      rcases hshort with h | h
      · simp [h, hsome, habsent.1 h, show enough = false from hmet]
      · have hpresent : ¬ Absent replies := fun hall => by cases h.symm.trans (habsent.2 hall)
        simp [h, hsome, hpresent, show enough = false from hmet]

/-- The nodes that confirm a write are those that sent a change set, if it met its quorum. -/
theorem mem_confirmed_ofWrite {peer : UInt32} :
    let v := ofWrite kind key members quorum total replies
    peer ∈ v.confirmed ↔ (v.outcome.kind = .done ∨ v.outcome.kind = .degraded) ∧
      ∃ t ∈ replies, t.1 = peer ∧ t.2.changes?.isSome = true := by
  intro v
  by_cases hsome : total = 0
  · have hv : v = nobody := if_pos hsome
    simp [hv, nobody, Outcome.kind]
  · rw [← Gathered.mem_map_fst_values kind.name]
    obtain ⟨-, -, hv⟩ | ⟨-, -, faults, hv⟩ | ⟨-, hv⟩ :=
      ofWrite_cases kind key members quorum hsome replies
    · simp [show v = _ from hv, Outcome.kind]
    · simp [show v = _ from hv, Outcome.kind]
    · have hkind : v.outcome.kind = .notFound ∨ v.outcome.kind = .unmet :=
        congrArg (fun v => v.outcome.kind) hv ▸ Outcome.kind_short _ _ _
      have hnobody : v.confirmed = [] := congrArg confirmed hv
      rcases hkind with h | h <;> simp [h, hnobody]

/-- The written fields are to be repaired exactly if the write is degraded. -/
theorem repairs_ofWrite :
    let v := ofWrite kind key members quorum total replies
    v.repairs = if v.outcome.kind = .degraded then suspects key members else [] := by
  intro v
  by_cases hsome : total = 0
  · have hv : v = nobody := if_pos hsome
    rw [hv]
    rfl
  · obtain ⟨-, -, hv⟩ | ⟨-, -, faults, hv⟩ | ⟨-, hv⟩ :=
      ofWrite_cases kind key members quorum hsome replies
    · rw [show v = _ from hv]
      rfl
    · rw [show v = _ from hv]
      rfl
    · have hkind : v.outcome.kind = .notFound ∨ v.outcome.kind = .unmet :=
        congrArg (fun v => v.outcome.kind) hv ▸ Outcome.kind_short _ _ _
      have hnothing : v.repairs = [] := congrArg repairs hv
      rcases hkind with h | h <;> simp [h, hnothing]

/-- A caller who is told of counts is told how many nodes were asked and how many sent a
change set. -/
theorem counts?_ofWrite :
    let v := ofWrite kind key members quorum total replies
    v.outcome.counts? = if v.outcome.kind = .degraded ∨ v.outcome.kind = .unmet
      then some (total, (changeSets replies).length) else none := by
  intro v
  by_cases hsome : total = 0
  · rw [show v = nobody from if_pos hsome]
    rfl
  · obtain ⟨-, -, hv⟩ | ⟨-, -, faults, hv⟩ | ⟨-, hv⟩ :=
      ofWrite_cases kind key members quorum hsome replies
    · rw [show v = _ from hv]
      rfl
    · rw [show v = _ from hv]
      rfl
    · rw [show v = _ from hv]
      exact Outcome.counts?_short _ _ _

/-- A write that is done went to somebody and is undisputed, and it yields the first change
set, if there is any. -/
theorem undisputed_of_done {c : ChangeSet}
    (h : (ofWrite kind key members quorum total replies).outcome = .done c) :
    total ≠ 0 ∧ Undisputed replies ∧ (Agreement.ofList (changeSets replies)).value = c := by
  by_cases hsome : total = 0
  · rw [ofWrite, if_pos hsome] at h
    cases h
  · obtain ⟨-, hclean, hv⟩ | ⟨-, -, faults, hv⟩ | ⟨-, hv⟩ :=
      ofWrite_cases kind key members quorum hsome replies
    · rw [hv] at h
      exact ⟨hsome, hclean, Outcome.done.inj h⟩
    · rw [hv] at h
      cases h
    · have hvalue := congrArg Outcome.value? h
      rw [hv, Outcome.value?_short] at hvalue
      cases hvalue

/-- A write that yields a value has so many answers that they meet the quorum. -/
theorem met_of_ofWrite
    (h : (ofWrite kind key members quorum total replies).outcome.value?.isSome = true) :
    quorum.met total (replies.countP fun tagged => tagged.2.changes?.isSome) = true := by
  rw [← List.length_filterMap_eq_countP, ← changeSets]
  by_cases hsome : total = 0
  · rw [ofWrite, if_pos hsome] at h
    cases h
  · obtain ⟨hmet, -⟩ | ⟨hmet, -⟩ | ⟨-, hv⟩ :=
      ofWrite_cases kind key members quorum hsome replies
    · exact hmet
    · exact hmet
    · rw [hv, Outcome.value?_short] at h
      cases h

end Verdict

end QuorumStore
