import QuorumStore.Proofs.Reissue

/-!
# What a repair plan says

A plan is a table of what to write by key, values and deletions apart. It says
exactly what the decisions said that it took in, and its writes say the same again,
key by key.
-/

namespace QuorumStore

/-- What is written under a key in one way. -/
def Corrections.ofKind (c : Corrections) : WriteKind → List FieldValue
  | .insert => c.inserts
  | .delete => c.deletes

namespace Site

variable {plan : Plan} {key other : Key} {kind : WriteKind} {m : FieldValue}

/-- What a plan says about a key after a change under one key. -/
theorem Plan.corrections_alter (plan : Plan) (key other : Key) (f : Corrections → Corrections) :
    (plan.alter key f).corrections[other]?
      = if key = other then some (f ((plan.corrections[key]?).getD ⟨[], []⟩))
        else plan.corrections[other]? := by
  rw [Plan.alter, Std.TreeMap.getElem?_insert]
  simp only [Std.LawfulEqCmp.compare_eq_iff_eq]

/-- What a plan writes under a key in one way. -/
def Plan.entries (plan : Plan) (key : Key) (kind : WriteKind) : List FieldValue :=
  ((plan.corrections[key]?).getD ⟨[], []⟩).ofKind kind

@[simp] theorem Plan.entries_empty (key : Key) (kind : WriteKind) :
    Plan.empty.entries key kind = [] := by
  rw [entries, Plan.empty, Std.TreeMap.getElem?_emptyc]
  cases kind <;> rfl

theorem Plan.entries_of_some {c : Corrections} (h : plan.corrections[key]? = some c)
    (kind : WriteKind) : plan.entries key kind = c.ofKind kind := by
  rw [entries, h, Option.getD_some]

/-- What a plan writes under a key after a change under one key. -/
theorem Plan.entries_alter (plan : Plan) (key other : Key) (f : Corrections → Corrections)
    (kind : WriteKind) :
    (plan.alter key f).entries other kind
      = if key = other then (f ((plan.corrections[key]?).getD ⟨[], []⟩)).ofKind kind
        else plan.entries other kind := by
  rw [entries, corrections_alter]
  split_ifs <;> rfl

/-- A plan that took in a decision writes what it wrote before and what the decision
says. -/
theorem Plan.mem_entries_take {decision : Decision} (faults : List RepairFault) :
    m ∈ (plan.take key decision faults).entries other kind ↔
      m ∈ plan.entries other kind ∨ (key = other ∧ decision.write? = some (kind, m)) := by
  cases decision with
  | ignore => simp [take, Decision.write?, entries]
  | belowQuorum => simp [take, Decision.write?, entries]
  | lost fault => simp [take, Decision.write?, entries]
  | insert n =>
    rw [take, entries_alter]
    split_ifs with hkey
    · subst hkey
      cases kind <;> simp [Decision.write?, entries, Corrections.ofKind, eq_comm]
    · simp [hkey, entries]
  | delete n =>
    rw [take, entries_alter]
    split_ifs with hkey
    · subst hkey
      cases kind <;> simp [Decision.write?, entries, Corrections.ofKind, eq_comm]
    · simp [hkey, entries]

/-- The writes of a plan carry what it says, under its key and in its way. -/
theorem Plan.mem_writes_iff {c : Correction} :
    c ∈ plan.writes ↔ c.members = plan.entries c.key c.kind ∧ c.members ≠ [] := by
  obtain ⟨kind, key, members⟩ := c
  simp only [writes, List.mem_filter, List.mem_flatMap, Prod.exists,
    Std.TreeMap.mem_toList_iff_getElem?_eq_some, List.mem_pair, Correction.mk.injEq,
    Bool.not_eq_true', List.isEmpty_eq_false_iff]
  refine and_congr_left fun hne => ⟨?_, fun hmembers => ?_⟩
  · rintro ⟨k, both, hboth, ⟨rfl, rfl, rfl⟩ | ⟨rfl, rfl, rfl⟩⟩
    · rw [entries_of_some hboth, Corrections.ofKind]
    · rw [entries_of_some hboth, Corrections.ofKind]
  · cases hboth : plan.corrections[key]? with
    | none =>
      rw [entries, hboth] at hmembers
      cases kind <;> exact absurd hmembers hne
    | some both =>
      refine ⟨key, both, hboth, ?_⟩
      rw [entries_of_some hboth] at hmembers
      cases kind with
      | insert => exact Or.inl ⟨rfl, rfl, hmembers⟩
      | delete => exact Or.inr ⟨rfl, rfl, hmembers⟩

end Site

end QuorumStore
