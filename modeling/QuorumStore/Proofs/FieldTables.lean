import Mathlib.Data.List.Forall2
import QuorumStore.Proofs.ServedRecord

/-!
# What field tables say

The table of an answer holds, for each field that has a value, the best value of that field:
the highest score, and of equals the value met first. The union of several tables is made the
same way of what the tables hold, of every field that some table holds and that enough of
them do. A field is to be repaired if it is in the union and some table lacks it. So the
fields and scores of both come of the values alone, in whatever order these are met; only
which value is taken among equals depends on the order.
-/

namespace QuorumStore

namespace FieldTable

variable {tables tables' : List FieldTable} {quorum : Quorum} {expected : Nat} {field : Field}

/-! ## The best of rows -/

/-- The best of rows that were counted leads them. -/
theorem Tally.best_addAll_eq_some_iff {rows : List Scored} {row : Scored} :
    (Tally.addAll none rows).map Tally.best = some row ↔ Leads Scored.score row rows := by
  obtain ⟨rfl, htally⟩ | ⟨best, htally, hleads⟩ := Tally.addAll_none rows
  · rw [htally]
    exact iff_of_false (fun h => by cases h) fun h => absurd h.mem List.not_mem_nil
  · rw [htally, Option.map_some, Option.some.injEq]
    exact ⟨fun h => h ▸ hleads, fun h => hleads.unique h⟩

/-! ## Tables of answers -/

/-- The rows that values of a field bring, in their order. -/
def rowsIn (field : Field) (members : List FieldValue) : List Scored :=
  (members.filter (FieldValue.holds field)).map fun m => ⟨m.score, m.value⟩

/-- To record a value that holds a field counts its row, and any other value leaves the row
of the field as it is. -/
theorem getElem?_insert {table : FieldTable} {tally : Option Tally}
    (h : table.rows[field]? = tally.map Tally.best) (m : FieldValue) :
    (table.insert m).rows[field]?
      = (Tally.addAll tally (rowsIn field [m])).map Tally.best := by
  by_cases hneg : m.score < 0
  · have hout : ¬ m.holds field = true := fun hm => by
      rw [FieldValue.holds_iff] at hm
      omega
    rw [insert, if_pos hneg, rowsIn, List.filter_cons_of_neg hout, h]
    rfl
  · rw [insert, if_neg hneg]
    by_cases hfield : m.field = field
    · subst hfield
      have hin : m.holds m.field = true := FieldValue.holds_iff.2 ⟨rfl, Int.not_lt.1 hneg⟩
      rw [rowsIn, List.filter_cons_of_pos hin, h]
      cases tally with
      | none => exact Std.TreeMap.getElem?_insert_self
      | some t =>
        dsimp only [Option.map_some]
        by_cases hle : m.score ≤ t.best.score
        · rw [if_pos hle, h]
          exact congrArg some (if_neg (Int.not_lt.2 hle)).symm
        · rw [if_neg hle, Std.TreeMap.getElem?_insert_self]
          exact congrArg some (if_pos (Int.not_le.1 hle)).symm
    · have hout : ¬ m.holds field = true := fun hm => hfield (FieldValue.holds_iff.1 hm).1
      have hother (row : Scored) : (table.rows.insert m.field row)[field]? = table.rows[field]? := by
        rw [Std.TreeMap.getElem?_insert, if_neg]
        rwa [Std.LawfulEqCmp.compare_eq_iff_eq]
      rw [rowsIn, List.filter_cons_of_neg hout]
      refine Eq.trans ?_ h
      split
      · split
        · rfl
        · exact hother _
      · exact hother _

/-- To record values one after another counts their rows. -/
theorem getElem?_foldl_insert (members : List FieldValue) {table : FieldTable}
    {tally : Option Tally} (h : table.rows[field]? = tally.map Tally.best) :
    (members.foldl insert table).rows[field]?
      = (Tally.addAll tally (rowsIn field members)).map Tally.best := by
  induction members generalizing table tally with
  | nil => exact h
  | cons m rest ih =>
    have hrows : rowsIn field (m :: rest) = rowsIn field [m] ++ rowsIn field rest := by
      rw [rowsIn, ← List.singleton_append, List.filter_append, List.map_append]
      rfl
    rw [List.foldl_cons, ih (getElem?_insert h m), hrows, Tally.addAll, Tally.addAll, Tally.addAll,
      List.foldl_append]

/-- The row that a table of values has of a field is the best of those that the values bring. -/
theorem getElem?_ofMembers (members : List FieldValue) (field : Field) :
    (ofMembers members).rows[field]?
      = (Tally.addAll none (rowsIn field members)).map Tally.best :=
  getElem?_foldl_insert members Std.TreeMap.getElem?_emptyc

/-! ## Unions and differences -/

/-- A field is selected by the number of tables that hold it, with the best of their rows. -/
theorem getElem?_select (enough : Nat → Bool) (tables : List FieldTable) (field : Field) :
    (select (fun t => enough t.count) tables).rows[field]?
      = if enough (rowsOf tables field).length
        then (Tally.addAll none (rowsOf tables field)).map Tally.best else none := by
  rw [select, Std.TreeMap.getElem?_map, Std.TreeMap.getElem?_filter', getElem?_tally]
  obtain ⟨-, htally⟩ | ⟨best, htally, -⟩ := Tally.addAll_none (rowsOf tables field)
  · rw [htally]
    split <;> rfl
  · rw [htally, Option.filter_some]
    split <;> rfl

/-! ## Rows as values -/

/-- A row as a value of a field. -/
def rowValue (field : Field) (row : Scored) : FieldValue := ⟨field, row.value, row.score⟩

/-- What the tables hold of a field, in their order. -/
def holdings (tables : List FieldTable) (field : Field) : List FieldValue :=
  tables.filterMap fun table => table.get? field

theorem holdings_eq (tables : List FieldTable) (field : Field) :
    holdings tables field = (rowsOf tables field).map (rowValue field) :=
  (List.map_filterMap ..).symm

/-- The values of a field among several are its rows. -/
theorem filter_holds_eq (field : Field) (members : List FieldValue) :
    members.filter (FieldValue.holds field) = (rowsIn field members).map (rowValue field) := by
  rw [rowsIn, List.map_map]
  refine (List.map_id _).symm.trans (List.map_congr_left fun m hm => ?_)
  obtain ⟨rfl, -⟩ := FieldValue.holds_iff.1 (List.mem_filter.1 hm).2
  rfl

/-- The value of a field in a table whose row is the best of some rows. -/
theorem get?_eq_some_iff {table : FieldTable} {rows : List Scored}
    (h : table.rows[field]? = (Tally.addAll none rows).map Tally.best) {w : FieldValue} :
    table.get? field = some w ↔ Leads FieldValue.score w (rows.map (rowValue field)) := by
  have hget : table.get? field = some w ↔
      ∃ row, table.rows[field]? = some row ∧ rowValue field row = w := Option.map_eq_some_iff
  simp only [hget, h, Tally.best_addAll_eq_some_iff]
  constructor
  · rintro ⟨row, hleads, rfl⟩
    have hscored : Leads (FieldValue.score ∘ rowValue field) row rows := hleads
    exact hscored.map
  · intro hleads
    obtain ⟨row, hw, hrow⟩ := hleads.of_map
    exact ⟨row, hrow, hw⟩

/-- The score of a field in such a table is the greatest of theirs. -/
theorem score?_eq_max? {table : FieldTable} {rows : List Scored}
    (h : table.rows[field]? = (Tally.addAll none rows).map Tally.best) :
    table.score? field = (rows.map Scored.score).max? := by
  rw [score?, h]
  obtain ⟨rfl, htally⟩ | ⟨best, htally, hleads⟩ := Tally.addAll_none rows
  · rw [htally]
    rfl
  · rw [htally]
    refine (List.max?_eq_some_iff.2 ⟨List.mem_map_of_mem hleads.mem, fun s hs => ?_⟩).symm
    obtain ⟨row, hrow, rfl⟩ := List.mem_map.1 hs
    exact hleads.le row hrow

/-- A table holds of a field what leads among the values of the field that it was made of. -/
theorem get?_ofMembers_eq_some_iff {members : List FieldValue} {w : FieldValue} :
    (ofMembers members).get? field = some w ↔
      Leads FieldValue.score w (members.filter (FieldValue.holds field)) := by
  rw [filter_holds_eq]
  exact get?_eq_some_iff (getElem?_ofMembers members field)

/-- A field is selected with what leads among all that the tables hold of it. -/
theorem get?_select_eq_some_iff (enough : Nat → Bool) {w : FieldValue} :
    (select (fun t => enough t.count) tables).get? field = some w ↔
      enough (holdings tables field).length = true ∧
        Leads FieldValue.score w (holdings tables field) := by
  have hrow := getElem?_select enough tables field
  rw [holdings_eq, List.length_map]
  split_ifs at hrow with henough
  · rw [get?_eq_some_iff hrow, and_iff_right henough]
  · rw [get?, hrow]
    exact iff_of_false (fun h => by cases h) fun h => henough h.1

/-- It is selected with the greatest score that a table has of it. -/
theorem score?_select (enough : Nat → Bool) (tables : List FieldTable) (field : Field) :
    (select (fun t => enough t.count) tables).score? field
      = if enough (tables.filterMap (·.score? field)).length
        then (tables.filterMap (·.score? field)).max? else none := by
  have hrow := getElem?_select enough tables field
  have hscores : tables.filterMap (·.score? field) = (rowsOf tables field).map Scored.score :=
    (List.map_filterMap ..).symm
  rw [hscores, List.length_map]
  split_ifs at hrow ⊢ with henough
  · exact score?_eq_max? hrow
  · rw [score?, hrow]
    rfl

/-! ## Order -/

/-- The fields of a table with their scores, in field order. -/
def scores (table : FieldTable) : List (Field × Int) := table.members.map fun m => (m.field, m.score)

/-- Tables that have the same score of every field have the same fields and scores. -/
theorem scores_eq {table table' : FieldTable}
    (h : ∀ field, table'.score? field = table.score? field) : table'.scores = table.scores := by
  have hscores (t : FieldTable) : t.scores = (t.rows.map fun _ row => row.score).toList := by
    rw [scores, members, List.map_map, Std.TreeMap.toList_map]
    rfl
  rw [hscores, hscores]
  refine (Std.TreeMap.Equiv.of_forall_constGet?_eq fun field => ?_).toList_eq
  rw [Std.TreeMap.getElem?_map, Std.TreeMap.getElem?_map]
  exact h field

/-- The greatest of some scores does not depend on their order. -/
theorem max?_perm {xs ys : List Int} (h : xs.Perm ys) : xs.max? = ys.max? := by
  refine Option.ext fun s => ?_
  rw [List.max?_eq_some_iff, List.max?_eq_some_iff]
  simp only [h.mem_iff]

/-- The same answers, and in each the same values, in any order. -/
def SameAnswers (answers answers' : List (List FieldValue)) : Prop :=
  ∃ middle, answers.Perm middle ∧ List.Forall₂ List.Perm middle answers'

/-- The score that a table of values has of a field does not depend on their order. -/
theorem score?_ofMembers_perm {members members' : List FieldValue} (h : members.Perm members')
    (field : Field) : (ofMembers members).score? field = (ofMembers members').score? field := by
  rw [score?_eq_max? (getElem?_ofMembers members field),
    score?_eq_max? (getElem?_ofMembers members' field)]
  exact max?_perm (((h.filter _).map _).map _)

/-- From the same answers the tables have the same scores of a field, in some order. -/
theorem SameAnswers.scores_perm {answers answers' : List (List FieldValue)}
    (h : SameAnswers answers answers') (field : Field) :
    ((answers.map ofMembers).filterMap (·.score? field)).Perm
      ((answers'.map ofMembers).filterMap (·.score? field)) := by
  obtain ⟨middle, hperm, heach⟩ := h
  refine ((hperm.map _).filterMap _).trans (List.Perm.of_eq ?_)
  clear hperm
  induction heach with
  | nil => rfl
  | cons hmembers _ ih =>
    rw [List.map_cons, List.map_cons, List.filterMap_cons, List.filterMap_cons, ih,
      score?_ofMembers_perm hmembers]

/-- From the same answers the same fields are selected, with the same scores. -/
theorem SameAnswers.scores_select {answers answers' : List (List FieldValue)}
    (h : SameAnswers answers answers') (enough : Nat → Bool) :
    (select (fun t => enough t.count) (answers'.map ofMembers)).scores
      = (select (fun t => enough t.count) (answers.map ofMembers)).scores := by
  refine scores_eq fun field => ?_
  have hperm := h.scores_perm field
  rw [score?_select, score?_select, hperm.length_eq, max?_perm hperm]

/-! ## What answers come to -/

/-- The number of tables that hold a field. -/
def holders (tables : List FieldTable) (field : Field) : Nat :=
  tables.countP fun table => (table.get? field).isSome

theorem length_holdings (tables : List FieldTable) (field : Field) :
    (holdings tables field).length = holders tables field :=
  List.length_filterMap_eq_countP

/-- The tables of several answers, their union and their difference, by what was answered. -/
structure Reconciled (answers : List (List FieldValue)) (quorum : Quorum) (expected : Nat) :
    Prop where
  /-- A table holds of each field the first of the values with the highest score that is not
  negative, and nothing else. -/
  table : ∀ members ∈ answers, ∀ field w, (ofMembers members).get? field = some w ↔
    Leads FieldValue.score w (members.filter (FieldValue.holds field))
  /-- The union holds a field if some table does, and so many do that the quorum is met. -/
  union_iff : ∀ field, ((union (answers.map ofMembers) quorum expected).get? field).isSome = true ↔
    0 < holders (answers.map ofMembers) field ∧
      quorum.met expected (holders (answers.map ofMembers) field) = true
  /-- It holds the value of the first table that has the highest score. -/
  union_value : ∀ field w, (union (answers.map ofMembers) quorum expected).get? field = some w →
    Leads FieldValue.score w (holdings (answers.map ofMembers) field)
  /-- The difference is the union without the fields that all tables hold. -/
  difference_eq : ∀ field, (difference (answers.map ofMembers) quorum expected).get? field
    = if holders (answers.map ofMembers) field < answers.length
      then (union (answers.map ofMembers) quorum expected).get? field else none
  /-- In another order the answers come to the same fields and scores. -/
  order : ∀ answers', SameAnswers answers answers' →
    (union (answers'.map ofMembers) quorum expected).scores
        = (union (answers.map ofMembers) quorum expected).scores ∧
      (difference (answers'.map ofMembers) quorum expected).scores
        = (difference (answers.map ofMembers) quorum expected).scores

/-- The union as a selection by number. -/
theorem union_eq (tables : List FieldTable) (quorum : Quorum) (expected : Nat) :
    union tables quorum expected = select (fun t => quorum.met expected t.count) tables := rfl

/-- The union holds what leads among all that the tables hold, if these are enough. -/
theorem get?_union_eq_some_iff {w : FieldValue} :
    (union tables quorum expected).get? field = some w ↔
      quorum.met expected (holders tables field) = true ∧
        Leads FieldValue.score w (holdings tables field) := by
  rw [← length_holdings]
  exact get?_select_eq_some_iff (quorum.met expected)

/-- The difference holds what the union does, unless every table holds the field. -/
theorem get?_difference (tables : List FieldTable) (quorum : Quorum) (expected : Nat)
    (field : Field) :
    (difference tables quorum expected).get? field
      = if holders tables field < tables.length
        then (union tables quorum expected).get? field else none := by
  refine Option.ext fun w => ?_
  have hselected : (difference tables quorum expected).get? field = some w ↔ _ :=
    get?_select_eq_some_iff fun count =>
      decide (count < tables.length) && quorum.met expected count
  rw [hselected, Bool.and_eq_true, decide_eq_true_eq, length_holdings]
  split_ifs with hlacks
  · rw [get?_union_eq_some_iff, and_iff_right hlacks]
  · exact iff_of_false (fun h => hlacks h.1.1) fun h => by cases h

/-- The union holds a field if some table does, and these are enough. -/
theorem isSome_get?_union_iff :
    ((union tables quorum expected).get? field).isSome = true ↔
      0 < holders tables field ∧ quorum.met expected (holders tables field) = true := by
  have hrows : holders tables field = (rowsOf tables field).length := by
    rw [← length_holdings, holdings_eq, List.length_map]
  rw [get?, Option.isSome_map, union_eq, getElem?_select, hrows]
  obtain ⟨hnone, htally⟩ | ⟨best, htally, hleads⟩ := Tally.addAll_none (rowsOf tables field)
  · rw [htally, hnone]
    simp
  · have hsome : 0 < (rowsOf tables field).length := List.length_pos_of_mem hleads.mem
    rw [htally, and_iff_right hsome]
    split_ifs with hmet
    · exact iff_of_true rfl hmet
    · exact iff_of_false (fun h => by cases h) hmet

/-- Whatever was answered, its tables, their union and their difference are what the values
come to, whichever way they are ordered. -/
theorem answers_reconciled (answers : List (List FieldValue)) (quorum : Quorum) (expected : Nat) :
    Reconciled answers quorum expected where
  table _ _ _ _ := get?_ofMembers_eq_some_iff
  union_iff _ := isSome_get?_union_iff
  union_value _ _ h := (get?_union_eq_some_iff.1 h).2
  difference_eq field := by
    rw [get?_difference, List.length_map]
  order answers' h := by
    refine ⟨h.scores_select (quorum.met expected), ?_⟩
    have hlength : (answers'.map ofMembers).length = (answers.map ofMembers).length := by
      obtain ⟨middle, hperm, heach⟩ := h
      rw [List.length_map, List.length_map, hperm.length_eq, heach.length_eq]
    rw [difference, difference, hlength]
    exact h.scores_select fun count =>
      decide (count < (answers.map ofMembers).length) && quorum.met expected count

/-- All of no replicas is a quorum, and no table holds the field, but the union does not hold
it either: it has only what some table holds. -/
theorem union_lacks_met :
    let tables := [ofMembers [⟨"f", [1], -1⟩]]
    holders tables "f" = 0 ∧
      ¬ (((union tables .strong 0).get? "f").isSome = true ↔
        Quorum.strong.met 0 (holders tables "f") = true) := by
  decide +kernel

end FieldTable

end QuorumStore
