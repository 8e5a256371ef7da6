import QuorumStore.Coordinator.Outcome

/-!
# Answers and failures

The replies to a call are sorted into answers and failures, each kept in the order
of arrival. A failure is a fault that a node reports, or a reply of the wrong kind.
Without a quorum the failures decide what the caller is told: that nothing was found,
if each of them says so.
-/

namespace QuorumStore

namespace Reply

/-- What a reply that is no answer to the named operation amounts to. -/
def failure (op : String) (node : UInt32) : Reply → Fault
  | fault f => f
  | reply => reply.unexpected op node

/-- Whether a reply is an explicit absence. -/
def isAbsence : Reply → Bool
  | fault f => f.isNotFound
  | _ => false

/-- A reply of the wrong kind is no absence. -/
@[simp] theorem isNotFound_failure (op : String) (node : UInt32) (reply : Reply) :
    (reply.failure op node).isNotFound = reply.isAbsence := by
  cases reply <;> rfl

end Reply

namespace Gathered

variable {α : Type} {want : Reply → Option α} {op : String} {replies replies' : List Tagged}

/-- The answers are the replies of the wanted kind. -/
theorem values_eq (want : Reply → Option α) (op : String) (replies : List Tagged) :
    (ofReplies want op replies).values
      = replies.filterMap fun t => (want t.2).map fun value => (t.1, value) := by
  induction replies with
  | nil => rfl
  | cons first rest ih =>
    obtain ⟨node, reply⟩ := first
    cases hwant : want reply with
    | some value =>
      rw [List.filterMap_cons_some (b := (node, value)) (by rw [hwant]; rfl), ← ih]
      simp only [ofReplies, hwant]
    | none =>
      rw [List.filterMap_cons_none (by rw [hwant]; rfl), ← ih]
      cases reply <;> simp only [ofReplies, hwant]

/-- The failures are the other replies. -/
theorem faults_eq (want : Reply → Option α) (op : String) (replies : List Tagged) :
    (ofReplies want op replies).faults
      = (replies.filter fun t => (want t.2).isNone).map fun t => t.2.failure op t.1 := by
  induction replies with
  | nil => rfl
  | cons first rest ih =>
    obtain ⟨node, reply⟩ := first
    cases hwant : want reply with
    | some value =>
      rw [List.filter_cons_of_neg (by simp [hwant]), ← ih]
      simp only [ofReplies, hwant]
    | none =>
      rw [List.filter_cons_of_pos (by simp [hwant]), List.map_cons, ← ih]
      cases reply <;> simp only [ofReplies, hwant, Reply.failure]

/-- What the nodes answer, without the nodes. -/
theorem map_snd_values (want : Reply → Option α) (op : String) (replies : List Tagged) :
    (ofReplies want op replies).values.map Prod.snd = replies.filterMap fun t => want t.2 := by
  rw [values_eq, List.map_filterMap]
  refine congrArg (replies.filterMap ·) (funext fun t => ?_)
  cases want t.2 <;> rfl

/-- A node is among those that answer exactly if it sent an answer. -/
theorem mem_map_fst_values (op : String) {node : UInt32} :
    node ∈ (ofReplies want op replies).values.map Prod.fst ↔
      ∃ t ∈ replies, t.1 = node ∧ (want t.2).isSome = true := by
  simp only [values_eq, List.mem_map, List.mem_filterMap]
  constructor
  · rintro ⟨answer, ⟨t, ht, hwant⟩, rfl⟩
    obtain ⟨value, hvalue, rfl⟩ := Option.map_eq_some_iff.1 hwant
    exact ⟨t, ht, rfl, Option.isSome_of_eq_some hvalue⟩
  · rintro ⟨t, ht, rfl, hsome⟩
    obtain ⟨value, hvalue⟩ := Option.isSome_iff_exists.1 hsome
    exact ⟨(t.1, value), ⟨t, ht, by rw [hvalue]; rfl⟩, rfl⟩

/-- There is no failure exactly if every reply is of the wanted kind. -/
theorem faults_eq_nil_iff (op : String) :
    (ofReplies want op replies).faults = [] ↔ ∀ t ∈ replies, (want t.2).isSome = true := by
  rw [faults_eq, List.map_eq_nil_iff, List.filter_eq_nil_iff]
  simp only [Option.isNone_iff_eq_none, Option.isSome_iff_ne_none, ne_eq]

/-- Every failure is an absence exactly if every reply of another kind is one. -/
theorem all_isNotFound_faults :
    (ofReplies want op replies).faults.all Fault.isNotFound = true ↔
      ∀ t ∈ replies, want t.2 = none → t.2.isAbsence = true := by
  rw [faults_eq, List.all_map, List.all_eq_true]
  simp only [List.mem_filter, Option.isNone_iff_eq_none, Function.comp_apply,
    Reply.isNotFound_failure, and_imp]

/-- The failures of replies in another order. -/
theorem faults_perm (h : replies.Perm replies') :
    (ofReplies want op replies).faults.Perm (ofReplies want op replies').faults := by
  rw [faults_eq, faults_eq]
  exact (h.filter _).map _

end Gathered

namespace Outcome

/-- The kinds of outcome. -/
inductive Kind where
  /-- The value, without any failure. -/
  | done
  /-- The value, in spite of failures. -/
  | degraded
  /-- Nobody holds what was asked for. -/
  | notFound
  /-- The quorum was not met. -/
  | unmet
  deriving DecidableEq, Repr

variable {α : Type}

/-- The kind of an outcome. -/
def kind : Outcome α → Kind
  | done _ => .done
  | degraded .. => .degraded
  | notFound => .notFound
  | unmet .. => .unmet

/-- The failures that the caller is told of. -/
def faults : Outcome α → List Fault
  | done _ => []
  | degraded _ _ _ faults => faults
  | notFound => []
  | unmet _ _ faults => faults

/-- The numbers of nodes asked and of answers, where the caller is told of them. -/
def counts? : Outcome α → Option (Nat × Nat)
  | done _ => none
  | degraded _ total returned _ => some (total, returned)
  | notFound => none
  | unmet total returned _ => some (total, returned)

/-- There is a value exactly in an outcome that is done or degraded. -/
theorem isSome_value?_iff {o : Outcome α} :
    o.value?.isSome = true ↔ o.kind = .done ∨ o.kind = .degraded := by
  cases o <;> simp [value?, kind]

/-- There is none exactly in the others. -/
theorem value?_eq_none_iff {o : Outcome α} :
    o.value? = none ↔ o.kind = .notFound ∨ o.kind = .unmet := by
  cases o <;> simp [value?, kind]

/-- Without a quorum there is no value. -/
@[simp] theorem value?_short (total returned : Nat) (faults : List Fault) :
    (short total returned faults : Outcome α).value? = none := by
  unfold short
  split <;> rfl

/-- Without a quorum nothing is found exactly if somebody failed and all failures are
absences. -/
theorem kind_short_eq_notFound_iff {total returned : Nat} {faults : List Fault} :
    (short total returned faults : Outcome α).kind = .notFound ↔
      faults ≠ [] ∧ faults.all Fault.isNotFound = true := by
  have hiff : (!faults.isEmpty && faults.all Fault.isNotFound) = true ↔
      faults ≠ [] ∧ faults.all Fault.isNotFound = true := by
    rw [Bool.and_eq_true, Bool.not_eq_true', List.isEmpty_eq_false_iff]
  simp only [short, hiff]
  split
  · next h => exact ⟨fun _ => h, fun _ => rfl⟩
  · next h => exact ⟨fun hkind => (by cases hkind), fun hall => absurd hall h⟩

/-- Without a quorum nothing is found, or the caller is told that the quorum is unmet. -/
theorem kind_short (total returned : Nat) (faults : List Fault) :
    (short total returned faults : Outcome α).kind = .notFound ∨
      (short total returned faults : Outcome α).kind = .unmet :=
  value?_eq_none_iff.1 (value?_short total returned faults)

/-- The counts that the caller is told of without a quorum. -/
theorem counts?_short (total returned : Nat) (faults : List Fault) :
    (short total returned faults : Outcome α).counts?
      = if (short total returned faults : Outcome α).kind = .degraded ∨
          (short total returned faults : Outcome α).kind = .unmet
        then some (total, returned) else none := by
  unfold short
  split <;> rfl

/-- An outcome without a quorum does not depend on the order of the failures, but for the
order in which it tells of them. -/
theorem short_perm (total returned : Nat) {faults faults' : List Fault}
    (h : faults'.Perm faults) :
    (short total returned faults' : Outcome α).kind
        = (short total returned faults : Outcome α).kind ∧
      (short total returned faults' : Outcome α).faults.Perm
        (short total returned faults : Outcome α).faults := by
  have hempty : faults'.isEmpty = faults.isEmpty := by
    rw [Bool.eq_iff_iff, List.isEmpty_iff, List.isEmpty_iff]
    exact ⟨fun he => (he ▸ h).nil_eq.symm, fun he => (he ▸ h).eq_nil⟩
  unfold short
  rw [hempty, h.all_eq]
  split
  · exact ⟨rfl, .refl _⟩
  · exact ⟨rfl, h⟩

end Outcome

end QuorumStore
