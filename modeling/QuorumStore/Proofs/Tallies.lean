import Mathlib.Data.List.Nodup
import Mathlib.Tactic.SplitIfs
import QuorumStore.Coordinator.FieldTable

/-!
# Tallies of field tables

The tables of several replicas are tallied field by field. The tally of a field counts the
tables that hold it, and keeps the row with the highest score among theirs, the first of
equals. So a field is served exactly when so many tables meet the quorum.
-/

namespace QuorumStore

/-- What has the highest score of a list, and is the first there that has it. -/
structure Leads {α : Type} (score : α → Int) (best : α) (all : List α) : Prop where
  /-- No score is higher. -/
  le : ∀ a ∈ all, score a ≤ score best
  /-- Nothing before it has the same score. -/
  first : all.find? (fun a => decide (score a = score best)) = some best

namespace Leads

variable {α β : Type} {score : α → Int} {best other : α} {all : List α}

theorem mem (h : Leads score best all) : best ∈ all := List.mem_of_find?_eq_some h.first

/-- Nothing else leads. -/
theorem unique (h : Leads score best all) (h' : Leads score other all) : best = other := by
  have hscore : score best = score other := Int.le_antisymm (h'.le best h.mem) (h.le other h'.mem)
  have hfirst := h.first
  rw [hscore, h'.first] at hfirst
  exact (Option.some.inj hfirst).symm

/-- What leads among images is the image of what leads. -/
theorem of_map {f : β → α} {all : List β} (h : Leads score best (all.map f)) :
    ∃ b, f b = best ∧ Leads (score ∘ f) b all := by
  have hfirst := h.first
  rw [List.find?_map, Option.map_eq_some_iff] at hfirst
  obtain ⟨b, hb, rfl⟩ := hfirst
  exact ⟨b, rfl, fun c hc => h.le (f c) (List.mem_map_of_mem hc), hb⟩

/-- The image of what leads leads among the images. -/
theorem map {f : β → α} {b : β} {all : List β} (h : Leads (score ∘ f) b all) :
    Leads score (f b) (all.map f) where
  le a ha := by
    obtain ⟨c, hc, rfl⟩ := List.mem_map.1 ha
    exact h.le c hc
  first := by
    rw [List.find?_map, Option.map_eq_some_iff]
    exact ⟨b, h.first, rfl⟩

end Leads

namespace FieldTable

/-! ## What rows come to -/

/-- Rows counted one after another, on top of those counted before. -/
def Tally.addAll (tally : Option Tally) (rows : List Scored) : Option Tally :=
  rows.foldl (fun tally row => some (.add tally row)) tally

/-- A row counted after the best so far becomes the best only with a higher score. -/
theorem Tally.leads_cons {t : Tally} {row best : Scored} {rows : List Scored}
    (h : Leads Scored.score best ((Tally.add (some t) row).best :: rows)) :
    Leads Scored.score best (t.best :: row :: rows) := by
  obtain ⟨hle, hfirst⟩ := h
  have hrest : ∀ r ∈ rows, r.score ≤ best.score := fun r hr => hle r (List.mem_cons_of_mem _ hr)
  have hkept := hle _ List.mem_cons_self
  by_cases hlt : t.best.score < row.score
  · have hbest : (Tally.add (some t) row).best = row := if_pos hlt
    rw [hbest] at hfirst hkept
    refine ⟨?_, ?_⟩
    · simp only [List.forall_mem_cons]
      exact ⟨by omega, hkept, hrest⟩
    · rw [List.find?_cons_of_neg (by rw [decide_eq_true_eq]; omega)]
      exact hfirst
  · have hbest : (Tally.add (some t) row).best = t.best := if_neg hlt
    rw [hbest] at hfirst hkept
    refine ⟨?_, ?_⟩
    · simp only [List.forall_mem_cons]
      exact ⟨hkept, by omega, hrest⟩
    · by_cases htop : t.best.score = best.score
      · rw [List.find?_cons_of_pos (by rwa [decide_eq_true_eq])] at hfirst ⊢
        exact hfirst
      · rw [List.find?_cons_of_neg (by rwa [decide_eq_true_eq])] at hfirst ⊢
        rw [List.find?_cons_of_neg (by rw [decide_eq_true_eq]; omega)]
        exact hfirst

/-- Rows counted on top of a tally are as many more, and one of them is the best, or what
was the best before. -/
theorem Tally.addAll_some (t : Tally) (rows : List Scored) :
    ∃ best, Tally.addAll (some t) rows = some ⟨t.count + rows.length, best⟩ ∧
      Leads Scored.score best (t.best :: rows) := by
  induction rows generalizing t with
  | nil =>
    refine ⟨t.best, rfl, ?_, ?_⟩
    · simp only [List.mem_singleton, forall_eq, Int.le_refl]
    · exact List.find?_cons_of_pos (decide_eq_true rfl)
  | cons row rest ih =>
    obtain ⟨best, htally, hleads⟩ := ih (.add (some t) row)
    refine ⟨best, ?_, Tally.leads_cons hleads⟩
    have hcount : (Tally.add (some t) row).count + rest.length
        = t.count + (row :: rest).length := by
      rw [List.length_cons, Nat.add_comm rest.length, ← Nat.add_assoc]
      rfl
    rw [← hcount]
    exact htally

/-- There is a tally of rows as soon as there is a row: it has their number, and the first
of those with the highest score. -/
theorem Tally.addAll_none (rows : List Scored) :
    (rows = [] ∧ Tally.addAll none rows = none) ∨
      ∃ best, Tally.addAll none rows = some ⟨rows.length, best⟩ ∧
        Leads Scored.score best rows := by
  cases rows with
  | nil => exact .inl ⟨rfl, rfl⟩
  | cons row rest =>
    obtain ⟨best, htally, hleads⟩ := Tally.addAll_some (.add none row) rest
    refine .inr ⟨best, ?_, hleads⟩
    rw [List.length_cons, Nat.add_comm rest.length]
    exact htally

/-! ## The rows of a field -/

/-- The rows of a field, one of each table that holds it. -/
def rowsOf (tables : List FieldTable) (field : Field) : List Scored :=
  tables.filterMap fun table => table.rows[field]?

/-- To count the rows of a list changes the tally of a field by those of the field. -/
theorem getElem?_foldl_rows (rows : List (Field × Scored)) (tallies : Std.TreeMap Field Tally)
    (field : Field) :
    (rows.foldl (fun tallies (f, row) => tallies.insert f (.add tallies[f]? row)) tallies)[field]?
      = Tally.addAll tallies[field]?
          ((rows.filter fun row => decide (row.1 = field)).map Prod.snd) := by
  induction rows generalizing tallies with
  | nil => rfl
  | cons first rest ih =>
    rw [List.foldl_cons, ih, Std.TreeMap.getElem?_insert]
    simp only [Std.LawfulEqCmp.compare_eq_iff_eq]
    by_cases he : first.1 = field
    · rw [if_pos he, List.filter_cons_of_pos (by rwa [decide_eq_true_eq]), he]
      rfl
    · rw [if_neg he, List.filter_cons_of_neg (by rwa [decide_eq_true_eq])]

/-- A table has one row of a field, if it holds it. -/
theorem filter_toList {α : Type} (rows : Std.TreeMap Field α) (field : Field) :
    (rows.toList.filter fun row => decide (row.1 = field)).map Prod.snd = rows[field]?.toList := by
  have hcount : (rows.toList.filter fun row => decide (row.1 = field)).length
      = if rows.contains field then 1 else 0 := by
    have hkeys : (rows.toList.filter fun row => decide (row.1 = field)).length
        = (rows.toList.map Prod.fst).count field := by
      rw [← List.countP_eq_length_filter, List.count, List.countP_map]
      exact List.countP_congr fun row _ => by simp
    rw [hkeys, Std.TreeMap.map_fst_toList_eq_keys]
    split_ifs with h
    · exact List.count_eq_one_of_mem Std.TreeMap.nodup_keys (Std.TreeMap.mem_keys.2 h)
    · exact List.count_eq_zero_of_not_mem fun hm => h (Std.TreeMap.mem_keys.1 hm)
  cases hrow : rows[field]? with
  | none =>
    rw [Std.TreeMap.contains_eq_isSome_getElem?, hrow] at hcount
    rw [List.eq_nil_of_length_eq_zero hcount]
    rfl
  | some row =>
    rw [Std.TreeMap.contains_eq_isSome_getElem?, hrow] at hcount
    have hall : rows.toList.filter (fun row => decide (row.1 = field)) = [(field, row)] := by
      refine List.eq_replicate_iff.2 ⟨hcount, fun other hm => ?_⟩
      obtain ⟨hin, hfield⟩ := List.mem_filter.1 hm
      have hother : other.1 = field := of_decide_eq_true hfield
      have hrow' : rows[other.1]? = some other.2 :=
        Std.TreeMap.mem_toList_iff_getElem?_eq_some.1 hin
      rw [hother, hrow, Option.some.injEq] at hrow'
      exact Prod.ext hother hrow'.symm
    rw [hall]
    rfl

/-- The tally of a field is that of its rows, in the order of the tables. -/
theorem getElem?_tally (tables : List FieldTable) (field : Field) :
    (tally tables)[field]? = Tally.addAll none (rowsOf tables field) := by
  have hall (tallies : Std.TreeMap Field Tally) :
      (tables.foldl (fun tallies table =>
        table.rows.toList.foldl (fun tallies (f, row) => tallies.insert f (.add tallies[f]? row))
          tallies) tallies)[field]?
        = Tally.addAll tallies[field]? (rowsOf tables field) := by
    induction tables generalizing tallies with
    | nil => rfl
    | cons table rest ih =>
      rw [List.foldl_cons, ih, getElem?_foldl_rows, filter_toList, rowsOf, rowsOf,
        List.filterMap_cons]
      cases table.rows[field]? <;> rfl
  rw [tally, hall, Std.TreeMap.getElem?_emptyc]

/-! ## What is served -/

/-- A field is served from its tally, if the quorum is met. -/
theorem get?_union (tables : List FieldTable) (quorum : Quorum) (expected : Nat) (field : Field) :
    (union tables quorum expected).get? field
      = ((Tally.addAll none (rowsOf tables field)).filter fun t =>
          quorum.met expected t.count).map fun t => ⟨field, t.best.value, t.best.score⟩ := by
  rw [get?, union, select, Std.TreeMap.getElem?_map, Std.TreeMap.getElem?_filter', getElem?_tally,
    Option.map_map]
  rfl

/-- Nothing differs exactly if every table holds every field that is held by enough of them
to be served. -/
theorem isEmpty_difference_iff {tables : List FieldTable} {quorum : Quorum} {expected : Nat} :
    (difference tables quorum expected).isEmpty = true ↔ ∀ field, rowsOf tables field ≠ [] →
      quorum.met expected (rowsOf tables field).length = true →
      tables.length ≤ (rowsOf tables field).length := by
  rw [isEmpty, Std.TreeMap.isEmpty_iff_forall_contains]
  refine forall_congr' fun field => ?_
  rw [Std.TreeMap.contains_eq_isSome_getElem?, difference, select, Std.TreeMap.getElem?_map,
    Option.isSome_map, Std.TreeMap.getElem?_filter', getElem?_tally]
  obtain ⟨hnone, htally⟩ | ⟨best, htally, hleads⟩ := Tally.addAll_none (rowsOf tables field)
  · rw [htally]
    exact iff_of_true rfl fun hsome => absurd hnone hsome
  · have hsome : rowsOf tables field ≠ [] := List.ne_nil_of_mem hleads.mem
    rw [htally, Option.filter_some, Option.isSome_eq_false_iff, Option.isNone_iff_eq_none,
      ite_eq_right_iff, Bool.and_eq_true, decide_eq_true_eq]
    constructor
    · intro h _ hmet
      by_contra hless
      cases h ⟨Nat.lt_of_not_le hless, hmet⟩
    · rintro h ⟨hless, hmet⟩
      exact absurd (h hsome hmet) (Nat.not_le.2 hless)

end FieldTable

end QuorumStore
