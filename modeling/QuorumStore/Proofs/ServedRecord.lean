import QuorumStore.Coordinator.Verdict
import QuorumStore.Proofs.Answers
import QuorumStore.Proofs.StrictMajority
import QuorumStore.Proofs.Tallies

/-!
# The record that a read serves

A reply holds the field of a read if it is a record of that field whose score is not
negative. A read serves one of the records that hold the field, if these meet the quorum:
the one with the highest score, the first of equals. Nothing is to be repaired then exactly
if every reply holds the field and no node sent a lower score last.
-/

namespace QuorumStore

/-! ## Records that hold a field -/

theorem Reply.record?_eq_some_iff {reply : Reply} {r : FieldValue} :
    reply.record? = some r ↔ reply = .record r := by
  cases reply <;> simp [record?]

/-- The records among replies, in the order of arrival. -/
def sentRecords (replies : List Tagged) : List FieldValue := replies.filterMap fun t => t.2.record?

/-- Whether a record is a value of a field. With a negative score it is none. -/
def FieldValue.holds (field : Field) (r : FieldValue) : Bool :=
  decide (r.field = field ∧ 0 ≤ r.score)

theorem FieldValue.holds_iff {field : Field} {r : FieldValue} :
    r.holds field = true ↔ r.field = field ∧ 0 ≤ r.score :=
  decide_eq_true_iff

/-- The records that hold a field, in the order of arrival. -/
def held (field : Field) (replies : List Tagged) : List FieldValue :=
  (sentRecords replies).filter (FieldValue.holds field)

/-- A record is held if some reply is that record, and it holds the field. -/
theorem mem_held {field : Field} {replies : List Tagged} {r : FieldValue} :
    r ∈ held field replies ↔
      (∃ t ∈ replies, t.2.record? = some r) ∧ r.field = field ∧ 0 ≤ r.score := by
  rw [held, List.mem_filter, sentRecords, List.mem_filterMap, FieldValue.holds_iff]

/-- The rows of a record alone. -/
theorem FieldTable.getElem?_singleton (r : FieldValue) (field : Field) :
    (ofMembers [r]).rows[field]? = if r.holds field then some ⟨r.score, r.value⟩ else none := by
  have hmembers : ofMembers [r] = empty.insert r := rfl
  rw [hmembers, insert, FieldValue.holds]
  by_cases hneg : r.score < 0
  · rw [if_pos hneg, empty, Std.TreeMap.getElem?_emptyc, if_neg]
    rw [decide_eq_true_eq]
    omega
  · have hnew : (empty.rows)[r.field]? = none := Std.TreeMap.getElem?_emptyc
    rw [if_neg hneg, hnew]
    dsimp only
    rw [Std.TreeMap.getElem?_insert, empty, Std.TreeMap.getElem?_emptyc]
    simp only [Std.LawfulEqCmp.compare_eq_iff_eq, decide_eq_true_eq, Int.not_lt.1 hneg, and_true]

namespace Verdict

variable {key : Key} {field : Field} {quorum : Quorum} {total : Nat} {replies : List Tagged}

/-- The absences among replies to a read. -/
def absences (replies : List Tagged) : List Fault :=
  (Gathered.ofReplies Reply.record? "select" replies).faults.filter Fault.isNotFound

/-- The other failures among replies to a read. -/
def failures (replies : List Tagged) : List Fault :=
  (Gathered.ofReplies Reply.record? "select" replies).faults.filter fun f => !f.isNotFound

/-- What the replies to a read say of the replicas: a record holds its field, and an absence
holds nothing. -/
def tables (replies : List Tagged) : List FieldTable :=
  (sentRecords replies).map (fun r => .ofMembers [r]) ++ (absences replies).map fun _ => .empty

/-- The rows of a field are those of the records that hold it. -/
theorem rowsOf_tables (field : Field) (replies : List Tagged) :
    FieldTable.rowsOf (tables replies) field
      = (held field replies).map fun r => ⟨r.score, r.value⟩ := by
  rw [FieldTable.rowsOf, tables, List.filterMap_append, List.filterMap_map, List.filterMap_map]
  have habsent : (absences replies).filterMap
      ((fun table : FieldTable => table.rows[field]?) ∘ fun _ => FieldTable.empty) = [] :=
    List.filterMap_eq_nil_iff.2 fun _ _ => Std.TreeMap.getElem?_emptyc
  rw [habsent, List.append_nil, held]
  induction sentRecords replies with
  | nil => rfl
  | cons r rest ih =>
    rw [List.filterMap_cons, Function.comp_apply, FieldTable.getElem?_singleton, List.filter_cons]
    split_ifs
    · rw [List.map_cons, ih]
    · exact ih

/-- A field is served if the records that hold it meet the quorum: the first of those with
the highest score. -/
theorem get?_union_tables (field : Field) (quorum : Quorum) (hsome : total ≠ 0)
    (replies : List Tagged) :
    let served := (FieldTable.union (tables replies) quorum total).get? field
    (quorum.met total (held field replies).length = true ∧ ∃ w, served = some w ∧
      Leads FieldValue.score w (held field replies)) ∨
    (quorum.met total (held field replies).length = false ∧ served = none) := by
  intro served
  have hserved : served = _ := FieldTable.get?_union (tables replies) quorum total field
  rw [rowsOf_tables] at hserved
  obtain ⟨hnobody, htally⟩ | ⟨best, htally, hleads⟩ := FieldTable.Tally.addAll_none
    ((held field replies).map fun r => (⟨r.score, r.value⟩ : Scored))
  · rw [htally] at hserved
    rw [List.map_eq_nil_iff.1 hnobody]
    exact .inr ⟨quorum.met_none hsome, hserved⟩
  · rw [htally, List.length_map] at hserved
    cases hmet : quorum.met total (held field replies).length with
    | false =>
      refine .inr ⟨rfl, ?_⟩
      rw [hserved, Option.filter_some, if_neg (by rw [hmet]; exact Bool.false_ne_true)]
      rfl
    | true =>
      obtain ⟨w, rfl, hw⟩ := hleads.of_map
      refine .inl ⟨rfl, w, ?_, hw⟩
      obtain ⟨-, rfl, -⟩ := mem_held.1 hw.mem
      rw [hserved, Option.filter_some, if_pos hmet]
      rfl

/-! ## Nodes that lag -/

/-- In a map from the entries of a list every key has its last value there. -/
theorem getElem?_ofList (entries : List (UInt32 × Int)) (node : UInt32) :
    (Std.TreeMap.ofList entries)[node]? = entries.reverse.lookup node := by
  have hall (m : Std.TreeMap UInt32 Int) :
      (m.insertMany entries)[node]? = (entries.reverse.lookup node).or m[node]? := by
    induction entries generalizing m with
    | nil => rfl
    | cons first rest ih =>
      rw [Std.TreeMap.insertMany_cons, ih, List.reverse_cons, List.lookup_append, Option.or_assoc,
        Std.TreeMap.getElem?_insert, List.lookup_cons]
      simp only [Std.LawfulEqCmp.compare_eq_iff_eq, List.lookup_nil]
      by_cases he : node = first.1
      · rw [if_pos he.symm, beq_iff_eq.2 he]
        rfl
      · rw [if_neg (Ne.symm he), beq_false_of_ne he]
        rfl
  rw [Std.TreeMap.ofList_eq_insertMany_empty, hall, Std.TreeMap.getElem?_emptyc, Option.or_none]

/-- No node lags if the last score of each is high enough. -/
theorem isEmpty_lagging {entries : List (UInt32 × Int)} {winner : Int} :
    (lagging entries winner).isEmpty = true ↔
      ∀ node score, entries.reverse.lookup node = some score → winner ≤ score := by
  rw [lagging, Std.TreeMap.isEmpty_keys, Std.TreeMap.isEmpty_iff_forall_contains]
  refine forall_congr' fun node => ?_
  rw [Std.TreeMap.contains_eq_isSome_getElem?, Std.TreeMap.getElem?_filter', getElem?_ofList,
    Option.isSome_eq_false_iff, Option.isNone_iff_eq_none, Option.filter_eq_none_iff]
  simp only [decide_eq_true_eq, Int.not_lt]

/-- The scores that were sent, with the nodes that sent them, in the order of arrival. -/
def reports (replies : List Tagged) : List (UInt32 × Int) :=
  replies.filterMap fun t => t.2.record?.map fun r => (t.1, r.score)

/-- What was sent with its node. -/
theorem mem_reports {node : UInt32} {score : Int} :
    (node, score) ∈ reports replies ↔
      ∃ t ∈ replies, ∃ r, t.2.record? = some r ∧ t.1 = node ∧ r.score = score := by
  simp only [reports, List.mem_filterMap, Option.map_eq_some_iff, Prod.mk.injEq]

/-- The last score of a node is one that it sent. -/
theorem mem_of_last {entries : List (UInt32 × Int)} {node : UInt32} {last : Int}
    (h : entries.reverse.lookup node = some last) : (node, last) ∈ entries := by
  obtain ⟨before, after, hsplit, -⟩ := List.lookup_eq_some_iff.1 h
  refine List.mem_reverse.1 ?_
  rw [hsplit]
  exact List.mem_append_right _ List.mem_cons_self

/-- A node that sent a score has a last one. -/
theorem exists_last {entries : List (UInt32 × Int)} {node : UInt32} {score : Int}
    (h : (node, score) ∈ entries) : ∃ last, entries.reverse.lookup node = some last := by
  rw [← Option.ne_none_iff_exists']
  intro hnone
  have hnever := List.lookup_eq_none_iff.1 hnone (node, score) (List.mem_reverse.2 h)
  rw [bne_self_eq_false] at hnever
  cases hnever

/-! ## What is to be repaired -/

/-- Nothing is to be repaired after a read that serves a winner. -/
structure Quiet (field : Field) (winner : Int) (replies : List Tagged) : Prop where
  /-- Every reply holds the field. -/
  holds : ∀ t ∈ replies, ∃ r, t.2.record? = some r ∧ r.holds field = true
  /-- No node sent a score below that of the winner last. -/
  level : ∀ node score, (reports replies).reverse.lookup node = some score → winner ≤ score

/-- Then every record that was sent holds the field. -/
theorem Quiet.mem_held {winner : Int} (h : Quiet field winner replies) {t : Tagged}
    (ht : t ∈ replies) {r : FieldValue} (hr : t.2.record? = some r) :
    r ∈ held field replies := by
  obtain ⟨r', hr', hholds⟩ := h.holds t ht
  cases hr.symm.trans hr'
  exact QuorumStore.mem_held.2 ⟨⟨t, ht, hr⟩, FieldValue.holds_iff.1 hholds⟩

/-- Then every node that replied sent a score as high as that of the winner. -/
theorem Quiet.exists_high {winner : Int} (h : Quiet field winner replies) {t : Tagged}
    (ht : t ∈ replies) :
    ∃ t' ∈ replies, t'.1 = t.1 ∧ ∃ r, t'.2.record? = some r ∧ winner ≤ r.score := by
  obtain ⟨r, hr, -⟩ := h.holds t ht
  obtain ⟨last, hlast⟩ := exists_last (mem_reports.2 ⟨t, ht, r, hr, rfl, rfl⟩)
  obtain ⟨t', ht', r', hr', hnode, rfl⟩ := mem_reports.1 (mem_of_last hlast)
  exact ⟨t', ht', hnode, r', hr', h.level _ _ hlast⟩

/-- No table lacks a field that is served exactly if every record holds the field and no
reply is an absence. -/
theorem isEmpty_difference (hsome : total ≠ 0)
    (hmet : quorum.met total (held field replies).length = true) :
    (FieldTable.difference (tables replies) quorum total).isEmpty = true ↔
      (∀ r ∈ sentRecords replies, r.holds field = true) ∧ absences replies = [] := by
  have hlength : (tables replies).length
      = (sentRecords replies).length + (absences replies).length := by
    rw [tables, List.length_append, List.length_map, List.length_map]
  have hrows (f : Field) : (FieldTable.rowsOf (tables replies) f).length
      = (held f replies).length := by
    rw [rowsOf_tables, List.length_map]
  have hheld (f : Field) : (held f replies).length ≤ (sentRecords replies).length :=
    List.length_filter_le _ _
  rw [FieldTable.isEmpty_difference_iff]
  constructor
  · intro h
    have hall := h field (by
      intro hnobody
      rw [← hrows, hnobody, List.length_nil, quorum.met_none hsome] at hmet
      cases hmet) (by rw [hrows]; exact hmet)
    rw [hlength, hrows] at hall
    have hle := hheld field
    have hholds : (held field replies).length = (sentRecords replies).length := by omega
    exact ⟨List.length_filter_eq_length_iff.1 hholds, List.eq_nil_of_length_eq_zero (by omega)⟩
  · rintro ⟨hall, hnone⟩ f hsomewhere -
    rw [rowsOf_tables, ne_eq, List.map_eq_nil_iff] at hsomewhere
    obtain ⟨r, hr⟩ := List.exists_mem_of_ne_nil _ hsomewhere
    -- a record that holds both fields has one field, so the two are the same
    obtain ⟨hin, hf⟩ := List.mem_filter.1 hr
    have hfield := hall r hin
    rw [FieldValue.holds_iff] at hf hfield
    obtain rfl : field = f := hfield.1.symm.trans hf.1
    rw [hlength, hrows, hnone, held, List.length_filter_eq_length_iff.2 hall]
    exact Nat.le_refl _

/-- Nothing is to be repaired if nothing was missing, nobody failed and nobody lags. -/
theorem quiet_iff (hsome : total ≠ 0)
    (hmet : quorum.met total (held field replies).length = true) (winner : Int) :
    ((lagging (reports replies) winner).isEmpty &&
      (FieldTable.difference (tables replies) quorum total).isEmpty &&
      (failures replies).isEmpty) = true ↔ Quiet field winner replies := by
  have hfaults : absences replies = [] ∧ failures replies = [] ↔
      ∀ t ∈ replies, t.2.record?.isSome = true := by
    rw [← Gathered.faults_eq_nil_iff "select", absences, failures, List.filter_eq_nil_iff,
      List.filter_eq_nil_iff, List.eq_nil_iff_forall_not_mem]
    constructor
    · rintro ⟨habsent, hfailed⟩ f hf
      exact hfailed f hf (by rw [Bool.not_eq_true', ← Bool.not_eq_true]; exact habsent f hf)
    · exact fun h => ⟨fun f hf => absurd hf (h f), fun f hf => absurd hf (h f)⟩
  have hall : ((∀ r ∈ sentRecords replies, r.holds field = true) ∧ absences replies = []) ∧
      failures replies = [] ↔
      ∀ t ∈ replies, ∃ r, t.2.record? = some r ∧ r.holds field = true := by
    rw [and_assoc, hfaults]
    constructor
    · rintro ⟨hholds, hsomething⟩ t ht
      obtain ⟨r, hr⟩ := Option.isSome_iff_exists.1 (hsomething t ht)
      exact ⟨r, hr, hholds r (List.mem_filterMap.2 ⟨t, ht, hr⟩)⟩
    · intro h
      refine ⟨fun r hr => ?_, fun t ht => ?_⟩
      · obtain ⟨t, ht, hrecord⟩ := List.mem_filterMap.1 hr
        obtain ⟨r', hr', hholds⟩ := h t ht
        cases hrecord.symm.trans hr'
        exact hholds
      · obtain ⟨r, hr, -⟩ := h t ht
        exact Option.isSome_of_eq_some hr
  rw [Bool.and_eq_true, Bool.and_eq_true, isEmpty_lagging, isEmpty_difference hsome hmet,
    List.isEmpty_iff, and_assoc, hall]
  exact ⟨fun h => ⟨h.2, h.1⟩, fun h => ⟨h.level, h.holds⟩⟩

/-- What the caller is told of when a record is served. -/
def served (total : Nat) (replies : List Tagged) (w : FieldValue) : Outcome FieldValue :=
  if (failures replies).isEmpty then .done w
  else .degraded w total (sentRecords replies).length (failures replies)

@[simp] theorem value?_served (total : Nat) (replies : List Tagged) (w : FieldValue) :
    (served total replies w).value? = some w := by
  unfold served
  split <;> rfl

@[simp] theorem faults_served (total : Nat) (replies : List Tagged) (w : FieldValue) :
    (served total replies w).faults = failures replies := by
  unfold served
  split
  · next hnone => exact (List.isEmpty_iff.1 hnone).symm
  · rfl

/-- The verdict on a read, by what the tables of its replies have to serve. -/
def ofServed (key : Key) (field : Field) (quorum : Quorum) (total : Nat) (replies : List Tagged) :
    Option FieldValue → Verdict FieldValue
  | none =>
    ⟨.short total (sentRecords replies).length (failures replies ++ absences replies), [],
      if 0 < (sentRecords replies).length then [⟨key, field, []⟩] else []⟩
  | some w =>
    ⟨served total replies w, [],
      if (lagging (reports replies) w.score).isEmpty &&
          (FieldTable.difference (tables replies) quorum total).isEmpty &&
          (failures replies).isEmpty
        then [] else [⟨key, field, w.value⟩]⟩

theorem ofSelect_eq (key : Key) (field : Field) (quorum : Quorum) (hsome : total ≠ 0)
    (replies : List Tagged) :
    ofSelect key field quorum total replies = ofServed key field quorum total replies
      ((FieldTable.union (tables replies) quorum total).get? field) := by
  have hrecords : (Gathered.ofReplies Reply.record? "select" replies).values.map Prod.snd
      = sentRecords replies := Gathered.map_snd_values _ _ _
  have htables : (Gathered.ofReplies Reply.record? "select" replies).values.map
        (fun answer => FieldTable.ofMembers [answer.2])
      ++ ((Gathered.ofReplies Reply.record? "select" replies).faults.filter Fault.isNotFound).map
        (fun _ => FieldTable.empty) = tables replies := by
    rw [tables, ← hrecords, List.map_map]
    rfl
  have hreturned : (Gathered.ofReplies Reply.record? "select" replies).values.length
      = (sentRecords replies).length := by
    rw [← hrecords, List.length_map]
  have hreports : (Gathered.ofReplies Reply.record? "select" replies).values.map
      (fun answer => (answer.1, answer.2.score)) = reports replies := by
    rw [Gathered.values_eq, List.map_filterMap]
    refine congrArg (replies.filterMap ·) (funext fun t => ?_)
    rw [Option.map_map]
    rfl
  unfold ofSelect
  rw [if_neg hsome]
  dsimp only
  rw [htables, hreturned, hreports]
  cases (FieldTable.union (tables replies) quorum total).get? field with
  | none => rfl
  | some w =>
    dsimp only
    rw [ofServed, served, failures]
    split <;> rfl

/-- A read whose quorum is met serves what leads, and wants it repaired unless it is quiet. -/
theorem ofSelect_of_met (key : Key) (hsome : total ≠ 0)
    (hmet : quorum.met total (held field replies).length = true) :
    ∃ w quiet, Leads FieldValue.score w (held field replies) ∧
      (quiet = true ↔ Quiet field w.score replies) ∧
      ofSelect key field quorum total replies
        = ⟨served total replies w, [], if quiet then [] else [⟨key, field, w.value⟩]⟩ := by
  obtain ⟨-, w, hserved, hleads⟩ | ⟨hunmet, -⟩ := get?_union_tables field quorum hsome replies
  · rw [ofSelect_eq key field quorum hsome, hserved]
    exact ⟨w, _, hleads, quiet_iff hsome hmet w.score, rfl⟩
  · cases hmet.symm.trans hunmet

/-- A read whose quorum is not met serves nothing, and wants the field repaired if there is
any record. -/
theorem ofSelect_of_unmet (key : Key) (hsome : total ≠ 0)
    (hunmet : quorum.met total (held field replies).length = false) :
    ofSelect key field quorum total replies
      = ⟨.short total (sentRecords replies).length (failures replies ++ absences replies), [],
        if 0 < (sentRecords replies).length then [⟨key, field, []⟩] else []⟩ := by
  obtain ⟨hmet, -⟩ | ⟨-, hserved⟩ := get?_union_tables field quorum hsome replies
  · cases hmet.symm.trans hunmet
  · rw [ofSelect_eq key field quorum hsome, hserved]
    rfl

/-- A read that is done without a repair serves what leads, and is quiet. -/
theorem quiet_of_done {w : FieldValue}
    (hdone : (ofSelect key field quorum total replies).outcome = .done w)
    (hnone : (ofSelect key field quorum total replies).repairs = []) :
    Leads FieldValue.score w (held field replies) ∧ Quiet field w.score replies := by
  by_cases hsome : total = 0
  · rw [ofSelect, if_pos hsome] at hdone
    cases hdone
  · cases hmet : quorum.met total (held field replies).length with
    | true =>
      obtain ⟨w', quiet, hleads, hquiet, hv⟩ := ofSelect_of_met key hsome hmet
      rw [hv] at hdone hnone
      have hw := congrArg Outcome.value? hdone
      rw [value?_served] at hw
      obtain rfl : w' = w := Option.some.inj hw
      cases quiet with
      | true => exact ⟨hleads, hquiet.1 rfl⟩
      | false => cases hnone
    | false =>
      have hvalue := congrArg Outcome.value? hdone
      rw [ofSelect_of_unmet key hsome hmet, Outcome.value?_short] at hvalue
      cases hvalue

end Verdict

end QuorumStore
