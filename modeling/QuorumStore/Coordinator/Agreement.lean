import QuorumStore.Fault
import QuorumStore.Record
import QuorumStore.Text.Quoted

/-!
# Agreement about a write

Nodes in step answer a write alike. The first answer is the reference, and each
later answer that does not agree with it is kept as a dissent. The order of the
fields within an answer does not count.
-/

namespace QuorumStore

/-- The fields of a change set as a diagnostic shows them. -/
def ChangeSet.fieldsText (fields : List Field) : String :=
  "[" ++ String.intercalate ", " (fields.map fun f => "Field(" ++ Text.quote f ++ ")") ++ "]"

/-- A change set as a diagnostic shows it. -/
def ChangeSet.text (c : ChangeSet) : String :=
  "ChangeSet \x7b success: " ++ fieldsText c.success ++ ", failure: " ++ fieldsText c.failure
    ++ " \x7d"

/-- The answers to one write so far. -/
structure Agreement where
  /-- The first answer. -/
  reference : Option ChangeSet
  /-- The number of answers. -/
  count : Nat
  /-- The answers that do not agree with the first, in order. -/
  dissent : List ChangeSet
  deriving Repr

namespace Agreement

/-- No answer yet. -/
def empty : Agreement := ⟨none, 0, []⟩

/-- Take one more answer. -/
def add (a : Agreement) (changes : ChangeSet) : Agreement :=
  match a.reference with
  | none => ⟨some changes, a.count + 1, a.dissent⟩
  | some reference =>
    if reference.agrees changes then ⟨some reference, a.count + 1, a.dissent⟩
    else ⟨some reference, a.count + 1, a.dissent ++ [changes]⟩

/-- Take all answers of a list. -/
def ofList (answers : List ChangeSet) : Agreement := answers.foldl add empty

/-- The first answer; that of a write without answers names no field. -/
def value (a : Agreement) : ChangeSet := a.reference.getD .empty

/-- The fault of a write with a dissent. -/
def fault? (a : Agreement) : Option Fault :=
  if a.dissent.isEmpty then none
  else
    let reference := a.value.normalized.text
    some (.variance (String.intercalate "; "
      (a.dissent.map fun c => reference ++ " != " ++ c.normalized.text)))

@[simp] theorem count_add (a : Agreement) (c : ChangeSet) : (a.add c).count = a.count + 1 := by
  unfold add
  split
  · rfl
  · split <;> rfl

end Agreement

end QuorumStore
