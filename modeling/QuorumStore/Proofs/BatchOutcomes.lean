import Mathlib.Order.WithBot
import QuorumStore.Proofs.LastWrite

/-!
# The outcomes of a batch

A store tells of every member of a batch whether its field was written. A field was
written exactly when the rank that is stored for it rose. A batch may name a field more
than once, and then an earlier member can make a later one lose, so the field may be told
both as written and as refused; the rank rises all the same. Whatever was not written is
as it was, and no field is left below a member that names it.
-/

namespace QuorumStore

/-- Ranks are compared in their linear order. -/
instance : Preorder Rank := (inferInstance : LinearOrder Rank).toPreorder

namespace Cell

/-- The rank of what is stored, below all others where nothing is. -/
def standing (stored : Option Cell) : WithBot Rank := stored.map rank

/-- A write raises what is stored to its own rank at least. -/
theorem standing_supersede (stored : Option Cell) (c : Cell) :
    standing (supersede stored c) = max (standing stored) c.rank := by
  cases stored with
  | none => exact (max_eq_right bot_le).symm
  | some d =>
    by_cases hlt : d.rank < c.rank
    · have hraised : supersede (some d) c = some c := if_pos hlt
      rw [hraised]
      exact (max_eq_right (WithBot.coe_le_coe.2 hlt.le)).symm
    · have hkept : supersede (some d) c = some d := if_neg hlt
      rw [hkept]
      exact (max_eq_left (WithBot.coe_le_coe.2 (not_lt.1 hlt))).symm

/-- Writes never lower what is stored. -/
theorem standing_le_foldl (writes : List Cell) (stored : Option Cell) :
    standing stored ≤ standing (writes.foldl supersede stored) := by
  induction writes generalizing stored with
  | nil => exact le_refl _
  | cons c rest ih =>
    calc standing stored ≤ standing (supersede stored c) := by
          rw [standing_supersede]
          exact le_max_left _ _
      _ ≤ standing (rest.foldl supersede (supersede stored c)) := ih _

/-- What a record reaches is how high what is stored stands. -/
theorem reaches_iff_le_standing {stored : Option Cell} {rank : Rank} :
    Reaches stored rank ↔ rank ≤ standing stored := by
  cases stored with
  | none => exact iff_of_false (fun ⟨_, h, _⟩ => by cases h) (WithBot.not_coe_le_bot rank)
  | some d =>
    refine Iff.trans ?_ WithBot.coe_le_coe.symm
    exact ⟨fun ⟨_, h, hle⟩ => Option.some.inj h ▸ hle, fun hle => ⟨d, rfl, hle⟩⟩

end Cell

/-- A member wins exactly if its rank is above what is stored. -/
theorem WriteKind.wins_iff_standing_lt (kind : WriteKind) (stored : Option Cell)
    (m : FieldValue) :
    kind.wins stored m.score = true ↔ Cell.standing stored < (kind.cell m).rank := by
  rw [kind.wins_iff]
  cases stored with
  | none => exact iff_of_true (fun _ h => by cases h) (WithBot.bot_lt_coe _)
  | some d =>
    simp only [Option.some.injEq, forall_eq']
    exact WithBot.coe_lt_coe.symm

/-- Every member of a batch is told of, in the order of the batch, as written or as
refused. -/
structure ChangeSet.TellsOf (changes : ChangeSet) (members : List FieldValue) : Prop where
  /-- The fields written are in the order of the batch. -/
  success : changes.success.Sublist (members.map FieldValue.field)
  /-- So are those refused. -/
  failure : changes.failure.Sublist (members.map FieldValue.field)
  /-- Together they are the fields of all members, as often as these name them. -/
  all : (changes.success ++ changes.failure).Perm (members.map FieldValue.field)

namespace Cells

variable {kind : WriteKind} {cells : Cells} {members : List FieldValue} {field : Field}

theorem tellsOf_write (kind : WriteKind) (cells : Cells) (members : List FieldValue) :
    (cells.write kind members).2.TellsOf members := by
  induction members generalizing cells with
  | nil => exact ⟨.slnil, .slnil, .nil⟩
  | cons m rest ih =>
    cases hwins : kind.wins cells[m.field]? m.score with
    | true =>
      rw [(write_of_wins hwins rest).2]
      obtain ⟨hsuccess, hfailure, hall⟩ := ih (cells.insert m.field (kind.cell m))
      exact ⟨hsuccess.cons_cons _, hfailure.cons _, hall.cons _⟩
    | false =>
      rw [(write_of_loses hwins rest).2]
      obtain ⟨hsuccess, hfailure, hall⟩ := ih cells
      exact ⟨hsuccess.cons _, hfailure.cons_cons _, List.perm_middle.trans (hall.cons _)⟩

/-- A batch never lowers what is stored of a field. -/
theorem standing_le_write (kind : WriteKind) (cells : Cells) (members : List FieldValue)
    (field : Field) :
    Cell.standing cells[field]? ≤ Cell.standing (cells.write kind members).1[field]? := by
  rw [getElem?_write]
  exact Cell.standing_le_foldl _ _

/-- What a member that wins leaves of its field, and of the others. -/
theorem getElem?_insert_cell (kind : WriteKind) (cells : Cells) (m : FieldValue) (field : Field) :
    (cells.insert m.field (kind.cell m))[field]?
      = if m.field = field then some (kind.cell m) else cells[field]? := by
  rw [Std.TreeMap.getElem?_insert]
  simp only [Std.LawfulEqCmp.compare_eq_iff_eq]

/-- What is stored of a field that was written has risen. -/
theorem standing_lt_of_success (h : field ∈ (cells.write kind members).2.success) :
    Cell.standing cells[field]? < Cell.standing (cells.write kind members).1[field]? := by
  induction members generalizing cells with
  | nil => cases h
  | cons m rest ih =>
    cases hwins : kind.wins cells[m.field]? m.score with
    | true =>
      obtain ⟨hcells, hchanges⟩ := write_of_wins hwins rest
      have hlater := standing_le_write kind (cells.insert m.field (kind.cell m)) rest field
      have hstored := getElem?_insert_cell kind cells m field
      rw [hchanges] at h
      rw [hcells]
      by_cases hfield : m.field = field
      · subst hfield
        rw [hstored, if_pos rfl] at hlater
        exact ((kind.wins_iff_standing_lt _ m).1 hwins).trans_le hlater
      · rw [if_neg hfield] at hstored
        rw [← hstored]
        exact ih ((List.mem_cons.1 h).resolve_left (Ne.symm hfield))
    | false =>
      obtain ⟨hcells, hchanges⟩ := write_of_loses hwins rest
      rw [hchanges] at h
      rw [hcells]
      exact ih h

/-- What is stored of a field that was not written is as it was. -/
theorem getElem?_write_of_not_success (h : field ∉ (cells.write kind members).2.success) :
    (cells.write kind members).1[field]? = cells[field]? := by
  induction members generalizing cells with
  | nil => rfl
  | cons m rest ih =>
    cases hwins : kind.wins cells[m.field]? m.score with
    | true =>
      obtain ⟨hcells, hchanges⟩ := write_of_wins hwins rest
      rw [hchanges, List.mem_cons, not_or] at h
      obtain ⟨hfield, hlater⟩ := h
      rw [hcells, ih hlater, getElem?_insert_cell, if_neg (Ne.symm hfield)]
    | false =>
      obtain ⟨hcells, hchanges⟩ := write_of_loses hwins rest
      rw [hchanges] at h
      rw [hcells, ih h]

end Cells

/-- What a store has done with a batch, by the outcomes that it tells. -/
structure Store.Accounted (before : Store) (kind : WriteKind) (key : Key)
    (members : List FieldValue) (after : Store) (changes : ChangeSet) : Prop where
  /-- Every member is told of. -/
  told : changes.TellsOf members
  /-- A field was written exactly if what is stored of it has risen. -/
  risen : ∀ field, field ∈ changes.success ↔
    Cell.standing (before.cell? key field) < Cell.standing (after.cell? key field)
  /-- What is stored of a field is not below any member that names it. -/
  reached : ∀ m ∈ members, (kind.cell m).rank ≤ Cell.standing (after.cell? key m.field)
  /-- A field that was not written is as it was. -/
  kept : ∀ field, field ∉ changes.success → after.cell? key field = before.cell? key field
  /-- So is all that is stored under other keys. -/
  others : ∀ other, other ≠ key → after.cells other = before.cells other

/-- The outcomes that a store tells of a batch account for every member of it, and for all
that has changed. -/
theorem Store.accounted_write (store : Store) (kind : WriteKind) (key : Key)
    (members : List FieldValue) :
    store.Accounted kind key members (store.write kind key members).1
      (store.write kind key members).2 := by
  have hchanges : (store.write kind key members).2 = ((store.cells key).write kind members).2 := rfl
  have hcell (field : Field) : (store.write kind key members).1.cell? key field
      = ((store.cells key).write kind members).1[field]? := by
    rw [cell?, cells_write_self]
  rw [hchanges]
  refine ⟨Cells.tellsOf_write _ _ _, fun field => ⟨fun h => ?_, fun h => ?_⟩, fun m hm => ?_,
    fun field h => ?_, fun other h => ?_⟩
  · rw [hcell]
    exact Cells.standing_lt_of_success h
  · by_contra hnot
    rw [hcell, Cells.getElem?_write_of_not_success hnot] at h
    exact lt_irrefl _ h
  · exact Cell.reaches_iff_le_standing.1 (reaches_apply (b := ⟨kind, key, members⟩) hm)
  · rw [hcell]
    exact Cells.getElem?_write_of_not_success h
  · exact cells_write_other store kind members h

/-- A batch that names a field three times: the second member loses against the first, and
the third wins again. -/
example : ((Store.empty 1 Nat.one_pos).write .insert "k"
    [⟨"f", [1], 2⟩, ⟨"f", [2], 1⟩, ⟨"f", [3], 3⟩]).2 = ⟨["f", "f"], ["f"]⟩ := by
  decide +kernel

end QuorumStore
