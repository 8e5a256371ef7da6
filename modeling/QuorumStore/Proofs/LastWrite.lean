import Mathlib.Data.Prod.Lex
import Mathlib.Data.Bool.Basic
import QuorumStore.Store.Frame

/-!
# The last write of a field

Writes to one field are ranked by their scores, and at equal scores an insertion
stands above a deletion. Both kinds of write follow one rule: a write replaces
what is stored exactly when its rank is higher. So the fields of a store can be
followed one by one, each through the writes that name it.
-/

namespace QuorumStore

/-- A score, and whether it belongs to a live value; scores count first. -/
abbrev Rank := Int ×ₗ Bool

namespace Cell

/-- The rank of a stored record. -/
def rank (c : Cell) : Rank := toLex (c.score, c.live)

theorem rank_lt_iff {c d : Cell} :
    c.rank < d.rank ↔ c.score < d.score ∨ (c.score = d.score ∧ c.live < d.live) :=
  Prod.Lex.toLex_lt_toLex

/-- Records of the same rank have the same score and are live alike. -/
theorem rank_eq_iff {c d : Cell} : c.rank = d.rank ↔ c.score = d.score ∧ c.live = d.live := by
  simp [rank]

/-- What is stored after a write: the write where its rank is higher. -/
def supersede (stored : Option Cell) (c : Cell) : Option Cell :=
  match stored with
  | none => some c
  | some d => if d.rank < c.rank then some c else some d

/-- A record of at least the given rank is stored. -/
def Reaches (stored : Option Cell) (rank : Rank) : Prop := ∃ c, stored = some c ∧ rank ≤ c.rank

theorem Reaches.trans {stored : Option Cell} {r s : Rank} (h : Reaches stored s) (hr : r ≤ s) :
    Reaches stored r := by
  obtain ⟨c, hc, hs⟩ := h
  exact ⟨c, hc, hr.trans hs⟩

/-- A write never lowers the rank that is stored. -/
theorem Reaches.supersede {stored : Option Cell} {r : Rank} (h : Reaches stored r) (c : Cell) :
    Reaches (supersede stored c) r := by
  obtain ⟨d, rfl, hr⟩ := h
  by_cases hlt : d.rank < c.rank
  · exact ⟨c, if_pos hlt, hr.trans hlt.le⟩
  · exact ⟨d, if_neg hlt, hr⟩

/-- After a write its own rank is reached. -/
theorem reaches_supersede (stored : Option Cell) (c : Cell) :
    Reaches (supersede stored c) c.rank := by
  cases stored with
  | none => exact ⟨c, rfl, le_refl _⟩
  | some d =>
    by_cases hlt : d.rank < c.rank
    · exact ⟨c, if_pos hlt, le_refl _⟩
    · exact ⟨d, if_neg hlt, not_lt.1 hlt⟩

/-- A write leaves what was stored or itself. -/
theorem supersede_eq (stored : Option Cell) (c : Cell) :
    supersede stored c = stored ∨ supersede stored c = some c := by
  cases stored with
  | none => exact Or.inr rfl
  | some d =>
    by_cases hlt : d.rank < c.rank
    · exact Or.inr (if_pos hlt)
    · exact Or.inl (if_neg hlt)

/-- A sequence of writes never lowers the rank that is stored. -/
theorem Reaches.foldl {stored : Option Cell} {r : Rank} (h : Reaches stored r)
    (writes : List Cell) : Reaches (writes.foldl Cell.supersede stored) r := by
  induction writes generalizing stored with
  | nil => exact h
  | cons c rest ih => exact ih (h.supersede c)

/-- After a sequence of writes the rank of each is reached. -/
theorem reaches_foldl_of_mem {writes : List Cell} {c : Cell} (h : c ∈ writes)
    (stored : Option Cell) : Reaches (writes.foldl supersede stored) c.rank := by
  induction writes generalizing stored with
  | nil => cases h
  | cons d rest ih =>
    rcases List.mem_cons.1 h with rfl | hrest
    · exact (reaches_supersede stored c).foldl rest
    · exact ih hrest (supersede stored d)

/-- A sequence of writes leaves what was stored or one of them. -/
theorem foldl_supersede_eq (writes : List Cell) (stored : Option Cell) :
    writes.foldl supersede stored = stored ∨
      ∃ c ∈ writes, writes.foldl supersede stored = some c := by
  induction writes generalizing stored with
  | nil => exact Or.inl rfl
  | cons d rest ih =>
    rcases ih (supersede stored d) with hkept | ⟨c, hc, he⟩
    · rcases supersede_eq stored d with hs | hs
      · exact Or.inl (hkept.trans hs)
      · exact Or.inr ⟨d, List.mem_cons_self, hkept.trans hs⟩
    · exact Or.inr ⟨c, List.mem_cons_of_mem d hc, he⟩

end Cell

/-! ## Writes to a store -/

/-- A write replaces what is stored exactly when its rank is higher. -/
theorem WriteKind.wins_iff (kind : WriteKind) (stored : Option Cell) (m : FieldValue) :
    kind.wins stored m.score = true ↔ ∀ d, stored = some d → d.rank < (kind.cell m).rank := by
  cases stored with
  | none => cases kind <;> simp [wins, Cell.yieldsToInsert, Cell.yieldsToDelete]
  | some d =>
    cases kind with
    | insert => simp [wins, Cell.yieldsToInsert, cell, Cell.rank_lt_iff, Bool.lt_iff]
    | delete => simp [wins, Cell.yieldsToDelete, cell, Cell.rank_lt_iff, Bool.lt_iff]

/-- What a write stores for its field, told by the test that the store makes. -/
theorem Cell.supersede_write (kind : WriteKind) (stored : Option Cell) (m : FieldValue) :
    supersede stored (kind.cell m)
      = if kind.wins stored m.score then some (kind.cell m) else stored := by
  cases stored with
  | none => simp [supersede, (kind.wins_iff none m).2 (by simp)]
  | some d =>
    have hw := kind.wins_iff (some d) m
    simp only [Option.some.injEq, forall_eq'] at hw
    by_cases hlt : d.rank < (kind.cell m).rank
    · rw [if_pos (hw.2 hlt), supersede, if_pos hlt]
    · rw [if_neg (fun h => hlt (hw.1 h)), supersede, if_neg hlt]

/-- A member that wins is stored, and its field is told as written before those that
follow. -/
theorem Cells.write_of_wins {kind : WriteKind} {cells : Cells} {m : FieldValue}
    (h : kind.wins cells[m.field]? m.score = true) (rest : List FieldValue) :
    let later := Cells.write kind (cells.insert m.field (kind.cell m)) rest
    (cells.write kind (m :: rest)).1 = later.1 ∧
      (cells.write kind (m :: rest)).2 = ⟨m.field :: later.2.success, later.2.failure⟩ := by
  rw [write, if_pos h]
  exact ⟨rfl, rfl⟩

/-- A member that does not win changes nothing, and its field is told as refused. -/
theorem Cells.write_of_loses {kind : WriteKind} {cells : Cells} {m : FieldValue}
    (h : kind.wins cells[m.field]? m.score = false) (rest : List FieldValue) :
    let later := Cells.write kind cells rest
    (cells.write kind (m :: rest)).1 = later.1 ∧
      (cells.write kind (m :: rest)).2 = ⟨later.2.success, m.field :: later.2.failure⟩ := by
  rw [write, if_neg (Bool.not_eq_true _ ▸ h)]
  exact ⟨rfl, rfl⟩

/-- A batch touches a field through the members that name it, in order. -/
theorem Cells.getElem?_write (kind : WriteKind) (cells : Cells) (members : List FieldValue)
    (field : Field) :
    (cells.write kind members).1[field]?
      = ((members.filter (·.field = field)).map kind.cell).foldl Cell.supersede
          cells[field]? := by
  induction members generalizing cells with
  | nil => rfl
  | cons m rest ih =>
    have hstep : (cells.write kind (m :: rest)).1
        = (Cells.write kind (if kind.wins cells[m.field]? m.score then
            cells.insert m.field (kind.cell m) else cells) rest).1 := by
      simp only [Cells.write]
      split <;> rfl
    rw [hstep, ih]
    by_cases hf : m.field = field
    · subst hf
      rw [List.filter_cons_of_pos (by simp), List.map_cons, List.foldl_cons,
        Cell.supersede_write]
      split <;> simp
    · rw [List.filter_cons_of_neg (by simpa using hf)]
      have hne : compare m.field field ≠ .eq := fun he => hf (Std.LawfulEqOrd.eq_of_compare he)
      split
      · rw [Std.TreeMap.getElem?_insert, if_neg hne]
      · rfl

/-- One call that writes to a store. -/
structure Batch where
  /-- Whether values or deletions are written. -/
  kind : WriteKind
  /-- The key. -/
  key : Key
  /-- What is written under it. -/
  members : List FieldValue
  deriving DecidableEq, Repr

/-- One write to one field, told by the record that it brings: an insertion
brings its value and score, a deletion its score. -/
structure Mutation where
  /-- The key. -/
  key : Key
  /-- The field. -/
  field : Field
  /-- The record. -/
  cell : Cell
  deriving DecidableEq, Repr

/-- The record that a member brings when it is inserted or deleted. -/
def FieldValue.written (m : FieldValue) : WriteKind → Cell
  | .insert => ⟨m.value, m.score, true⟩
  | .delete => ⟨[], m.score, false⟩

/-- It has the score that was given. -/
theorem FieldValue.score_written (m : FieldValue) (kind : WriteKind) :
    (m.written kind).score = m.score := by
  cases kind <;> rfl

/-- What a write leaves behind where it wins is the record that it brings. -/
theorem WriteKind.cell_eq (kind : WriteKind) (m : FieldValue) : kind.cell m = m.written kind := by
  cases kind <;> rfl

/-- The writes of a batch, in order. -/
def Batch.mutations (b : Batch) : List Mutation :=
  b.members.map fun m => ⟨b.key, m.field, m.written b.kind⟩

theorem Batch.mutations_eq (b : Batch) :
    b.mutations = b.members.map fun m => ⟨b.key, m.field, b.kind.cell m⟩ := by
  simp only [mutations, WriteKind.cell_eq]

/-- The writes of several batches, in order. -/
def Batch.log (batches : List Batch) : List Mutation := batches.flatMap mutations

/-- The records that a log brings to one field, in order. -/
def Mutation.at (key : Key) (field : Field) (log : List Mutation) : List Cell :=
  (log.filter fun w => w.key = key ∧ w.field = field).map Mutation.cell

theorem Mutation.mem_at {key : Key} {field : Field} {log : List Mutation} {c : Cell} :
    c ∈ Mutation.at key field log ↔ (⟨key, field, c⟩ : Mutation) ∈ log := by
  simp only [Mutation.at, List.mem_map, List.mem_filter, decide_eq_true_eq]
  constructor
  · rintro ⟨⟨k, f, d⟩, ⟨hw, rfl, rfl⟩, rfl⟩
    exact hw
  · intro h
    exact ⟨_, ⟨h, rfl, rfl⟩, rfl⟩

namespace Store

/-- The store after one batch. -/
def apply (store : Store) (b : Batch) : Store := (store.write b.kind b.key b.members).1

/-- The store after several batches. -/
def run (store : Store) (batches : List Batch) : Store := batches.foldl apply store

@[simp] theorem run_nil (store : Store) : store.run [] = store := by
  rw [run, List.foldl_nil]

@[simp] theorem run_cons (store : Store) (b : Batch) (rest : List Batch) :
    store.run (b :: rest) = (store.apply b).run rest := by
  rw [run, List.foldl_cons, run]

/-- A batch changes the cells of its key as its members say. -/
theorem cells_apply_self (store : Store) (b : Batch) :
    (store.apply b).cells b.key = (Cells.write b.kind (store.cells b.key) b.members).1 := by
  rw [apply, cells_write_self]

/-- A batch leaves the cells of every other key alone. -/
theorem cells_apply_other (store : Store) (b : Batch) {key : Key} (h : key ≠ b.key) :
    (store.apply b).cells key = store.cells key := by
  rw [apply, cells_write_other _ _ _ h]

/-- A batch brings its records to the fields that it names, and to no other. -/
theorem cell?_apply (store : Store) (b : Batch) (key : Key) (field : Field) :
    (store.apply b).cell? key field
      = (Mutation.at key field b.mutations).foldl Cell.supersede (store.cell? key field) := by
  by_cases hk : b.key = key
  · subst hk
    have hat : Mutation.at b.key field b.mutations
        = (b.members.filter (·.field = field)).map b.kind.cell := by
      simp [Mutation.at, Batch.mutations_eq, List.filter_map, Function.comp_def]
    rw [hat, cell?, cell?, cells_apply_self, Cells.getElem?_write]
  · have hat : Mutation.at key field b.mutations = [] := by
      simp [Mutation.at, Batch.mutations, hk]
    rw [hat, List.foldl_nil, cell?, cell?, cells_apply_other store b (Ne.symm hk)]

/-- After a batch every record that it brings is reached. -/
theorem reaches_apply {store : Store} {b : Batch} {m : FieldValue} (hm : m ∈ b.members) :
    Cell.Reaches ((store.apply b).cell? b.key m.field) (b.kind.cell m).rank := by
  rw [cell?_apply]
  refine Cell.reaches_foldl_of_mem (Mutation.mem_at.2 ?_) _
  exact List.mem_map.2 ⟨m, hm, rfl⟩

/-- A run of batches brings the records of its log to a field one by one. -/
theorem cell?_run (store : Store) (batches : List Batch) (key : Key) (field : Field) :
    (store.run batches).cell? key field
      = (Mutation.at key field (Batch.log batches)).foldl Cell.supersede
          (store.cell? key field) := by
  induction batches generalizing store with
  | nil =>
    have hlog : Mutation.at key field (Batch.log []) = [] := by simp [Mutation.at, Batch.log]
    rw [run_nil, hlog, List.foldl_nil]
  | cons b rest ih =>
    have hlog : Mutation.at key field (Batch.log (b :: rest))
        = Mutation.at key field b.mutations ++ Mutation.at key field (Batch.log rest) := by
      simp [Mutation.at, Batch.log]
    rw [run_cons, ih, cell?_apply, hlog, List.foldl_append]

/-- What a run of batches leaves in a field was there or is in its log. -/
theorem cell?_run_cases {store : Store} {batches : List Batch} {key : Key} {field : Field}
    {c : Cell} (hc : (store.run batches).cell? key field = some c) :
    store.cell? key field = some c ∨ (⟨key, field, c⟩ : Mutation) ∈ Batch.log batches := by
  rw [cell?_run] at hc
  rcases Cell.foldl_supersede_eq (Mutation.at key field (Batch.log batches))
    (store.cell? key field) with hkept | ⟨d, hd, hlast⟩
  · exact Or.inl (hkept ▸ hc)
  · rw [hlast] at hc
    cases hc
    exact Or.inr (Mutation.mem_at.1 hd)

/-- What a batch leaves in a field was there or is one of its writes. -/
theorem cell?_apply_cases {store : Store} {b : Batch} {key : Key} {field : Field}
    {c : Cell} (hc : (store.apply b).cell? key field = some c) :
    store.cell? key field = some c ∨ (⟨key, field, c⟩ : Mutation) ∈ b.mutations := by
  have hrun : store.apply b = store.run [b] := rfl
  rw [hrun] at hc
  simpa [Batch.log] using cell?_run_cases hc

/-- A run of batches never lowers the rank of a field. -/
theorem reaches_run {store : Store} {key : Key} {field : Field} {r : Rank}
    (h : Cell.Reaches (store.cell? key field) r) (batches : List Batch) :
    Cell.Reaches ((store.run batches).cell? key field) r := by
  rw [cell?_run]
  exact h.foldl _

end Store

end QuorumStore
