import QuorumStore.Coordinator.Agreement
import QuorumStore.Proofs.Convergence

/-!
# Unanimity

Change sets agree when they report the same fields as written and the same fields as
refused, so agreement is an equivalence. The answers to a write are compared with the
first of them alone, and that is enough: there is a dissent exactly if some two answers
differ, whichever came first.
-/

namespace QuorumStore

/-- Sorted names are the same exactly if the names are. -/
theorem sortedNames_eq_iff {names others : List String} :
    sortedNames names = sortedNames others ↔ ∀ name, name ∈ names ↔ name ∈ others := by
  constructor
  · intro h name
    rw [← mem_sortedNames, h, mem_sortedNames]
  · intro h
    refine eq_of_pairwise_of_mem_iff (sortedNames_pairwise _) (sortedNames_pairwise _) fun name => ?_
    rw [mem_sortedNames, mem_sortedNames]
    exact h name

namespace ChangeSet

variable {c d e : ChangeSet}

/-- Two change sets report the same outcome for every field. -/
structure SameFields (c d : ChangeSet) : Prop where
  /-- The same fields were written. -/
  success : ∀ field, field ∈ c.success ↔ field ∈ d.success
  /-- The same fields were refused. -/
  failure : ∀ field, field ∈ c.failure ↔ field ∈ d.failure

theorem SameFields.refl (c : ChangeSet) : c.SameFields c := ⟨fun _ => Iff.rfl, fun _ => Iff.rfl⟩

theorem SameFields.symm (h : c.SameFields d) : d.SameFields c :=
  ⟨fun field => (h.success field).symm, fun field => (h.failure field).symm⟩

theorem SameFields.trans (h : c.SameFields d) (h' : d.SameFields e) : c.SameFields e :=
  ⟨fun field => (h.success field).trans (h'.success field),
    fun field => (h.failure field).trans (h'.failure field)⟩

/-- Change sets agree exactly if they report the same outcome for every field. -/
theorem agrees_iff : c.agrees d = true ↔ c.SameFields d := by
  rw [agrees, decide_eq_true_eq, normalized, normalized, ChangeSet.mk.injEq, sortedNames_eq_iff,
    sortedNames_eq_iff]
  exact ⟨fun h => ⟨h.1, h.2⟩, fun h => ⟨h.success, h.failure⟩⟩

/-- Change sets of which every two report the same outcome for every field. -/
def Unanimous (answers : List ChangeSet) : Prop := ∀ c ∈ answers, ∀ d ∈ answers, c.SameFields d

/-- Unanimity does not depend on the order. -/
theorem unanimous_perm {answers answers' : List ChangeSet} (h : answers.Perm answers') :
    Unanimous answers ↔ Unanimous answers' := by
  unfold Unanimous
  simp only [h.mem_iff]

/-- To agree with one of them is enough. -/
theorem unanimous_cons_iff {first : ChangeSet} {rest : List ChangeSet} :
    Unanimous (first :: rest) ↔ ∀ c ∈ rest, first.SameFields c := by
  constructor
  · intro h c hc
    exact h first List.mem_cons_self c (List.mem_cons_of_mem first hc)
  · intro h
    have hfirst : ∀ c ∈ first :: rest, first.SameFields c := by
      intro c hc
      rcases List.mem_cons.1 hc with rfl | hlater
      · exact .refl _
      · exact h c hlater
    intro c hc d hd
    exact (hfirst c hc).symm.trans (hfirst d hd)

end ChangeSet

namespace Agreement

/-- Once there is a reference, every answer that does not agree with it is a dissent. -/
theorem foldl_add (answers : List ChangeSet) {a : Agreement} {reference : ChangeSet}
    (h : a.reference = some reference) :
    answers.foldl add a = ⟨some reference, a.count + answers.length,
      a.dissent ++ answers.filter fun c => !reference.agrees c⟩ := by
  induction answers generalizing a with
  | nil =>
    obtain ⟨_, count, dissent⟩ := a
    cases h
    rw [List.filter_nil, List.append_nil]
    rfl
  | cons c rest ih =>
    have hadd : a.add c = ⟨some reference, a.count + 1,
        a.dissent ++ if reference.agrees c then [] else [c]⟩ := by
      unfold add
      rw [h]
      dsimp only
      split
      · rw [List.append_nil]
      · rfl
    rw [List.foldl_cons, hadd, ih rfl, List.length_cons, List.filter_cons, List.append_assoc]
    congr 1
    · rw [Nat.add_right_comm]
      rfl
    · cases reference.agrees c <;> rfl

/-- The first of the answers is the reference. -/
theorem ofList_cons (first : ChangeSet) (rest : List ChangeSet) :
    ofList (first :: rest) = ⟨some first, rest.length + 1,
      rest.filter fun c => !first.agrees c⟩ := by
  have hfirst : empty.add first = ⟨some first, 1, []⟩ := rfl
  rw [ofList, List.foldl_cons, hfirst, foldl_add rest rfl, Nat.add_comm 1, List.nil_append]

/-- Answers are without a fault exactly if they are unanimous. -/
theorem fault?_ofList_eq_none_iff {answers : List ChangeSet} :
    (ofList answers).fault? = none ↔ ChangeSet.Unanimous answers := by
  cases answers with
  | nil => exact ⟨fun _ c hc => (by cases hc), fun _ => rfl⟩
  | cons first rest =>
    have hfault : (ofList (first :: rest)).fault? = none ↔
        (rest.filter fun c => !first.agrees c) = [] := by
      rw [ofList_cons, fault?]
      dsimp only
      split
      · next hnone => exact ⟨fun _ => List.isEmpty_iff.1 hnone, fun _ => rfl⟩
      · next hsome =>
        exact ⟨fun hnone => (by cases hnone), fun hnone => absurd (List.isEmpty_iff.2 hnone) hsome⟩
    rw [hfault, List.filter_eq_nil_iff, ChangeSet.unanimous_cons_iff]
    refine forall₂_congr fun c _ => ?_
    rw [← ChangeSet.agrees_iff, Bool.not_eq_true', Bool.not_eq_false]

/-- The answer that stands for all is one of them. -/
theorem value_ofList_mem {answers : List ChangeSet} (h : answers ≠ []) :
    (ofList answers).value ∈ answers := by
  cases answers with
  | nil => exact absurd rfl h
  | cons first rest =>
    rw [ofList_cons]
    exact List.mem_cons_self

/-- Whether there is a fault does not depend on the order of the answers. -/
theorem isSome_fault?_perm {answers answers' : List ChangeSet} (h : answers.Perm answers') :
    (ofList answers).fault?.isSome = (ofList answers').fault?.isSome := by
  rw [Bool.eq_iff_iff, Option.isSome_iff_ne_none, Option.isSome_iff_ne_none]
  exact not_congr (fault?_ofList_eq_none_iff.trans
    ((ChangeSet.unanimous_perm h).trans fault?_ofList_eq_none_iff.symm))

end Agreement

end QuorumStore
