import Mathlib.Data.List.Basic
import QuorumStore.Proofs.JsonText
import QuorumStore.Rpc.Server

/-!
# What is written on the wire is read back

Each form in which members write a value down is one that survives as text, and is read
back as the value that was written, as long as its scores and counts are integers of 64
bits. So is a request with the parameters of a call, and a response with the payload of
a reply. The server finds in a request the call that was written into it.
-/

namespace QuorumStore

open Json (Plain)

namespace Wire

/-- A score or a count that 64 bits hold. -/
def InRange (n : Int) : Prop := minScore ≤ n ∧ n ≤ maxScore

instance (n : Int) : Decidable (InRange n) := inferInstanceAs (Decidable (_ ∧ _))

theorem InRange.plain {depth : Nat} {n : Int} (h : InRange n) : Plain depth (.int n) := by
  obtain ⟨hleast, hmost⟩ := h
  unfold minScore at hleast
  unfold maxScore at hmost
  exact .int hleast (by omega)

theorem score?_int {n : Int} (h : InRange n) : score? (.int n) = some n := if_pos h

/-! ## Lists and objects -/

/-- A list is read back when each of its items is. -/
theorem mapM_written {α : Type} {write : α → Json} {read? : Json → Option α} {xs : List α}
    (h : ∀ x ∈ xs, read? (write x) = some x) : (xs.map write).mapM read? = some xs := by
  induction xs with
  | nil => rfl
  | cons x xs ih =>
    obtain ⟨hx, hxs⟩ := List.forall_mem_cons.1 h
    rw [List.map_cons, List.mapM_cons, hx, Option.bind_eq_bind, Option.bind_some, ih hxs]
    rfl

theorem plain_array {α : Type} {depth : Nat} {write : α → Json} {xs : List α}
    (h : ∀ x ∈ xs, Plain depth (write x)) : Plain (depth + 1) (.array (xs.map write)) :=
  .array (List.forall_mem_map.2 h)

theorem plain_object {depth : Nat} {fields : List (String × Json)}
    (names : (fields.map Prod.fst).Nodup) (h : fields.Forall fun f => Plain depth f.2) :
    Plain (depth + 1) (.object fields) :=
  .object names (List.forall_iff_forall_mem.1 h)

@[simp] theorem names?_texts (names : List String) : names? (.texts names) = some names :=
  mapM_written fun _ _ => rfl

theorem plain_texts {depth : Nat} (names : List String) : Plain (depth + 1) (.texts names) :=
  plain_array fun _ _ => .text _

@[simp] theorem octet?_nat (o : UInt8) : octet? (.nat o.toNat) = some o := by
  have hsmall : o.toNat < 256 := o.toNat_lt
  have hrange : (0 : Int) ≤ Int.ofNat o.toNat ∧ Int.ofNat o.toNat ≤ 255 := by
    simp only [Int.ofNat_eq_natCast]
    omega
  simp only [octet?, Json.nat, integer?, if_pos hrange, Option.map_some]
  simp

@[simp] theorem bytes?_bytes (b : Bytes) : bytes? (bytes b) = some b :=
  mapM_written fun o _ => octet?_nat o

theorem plain_bytes {depth : Nat} (b : Bytes) : Plain (depth + 1) (bytes b) := by
  refine plain_array fun o _ => .int ?_ ?_
  · simp only [Int.ofNat_eq_natCast]
    omega
  · have hsmall : o.toNat < 256 := o.toNat_lt
    simp only [Int.ofNat_eq_natCast]
    omega

/-! ## Records -/

theorem fieldValue?_fieldValue {v : FieldValue} (h : InRange v.score) :
    fieldValue? (fieldValue v) = some v := by
  simp [fieldValue?, fieldValue, struct?, fieldOnce, Json.fieldValues, Json.text?, score?_int h]

theorem plain_fieldValue {depth : Nat} {v : FieldValue} (h : InRange v.score) :
    Plain (depth + 2) (fieldValue v) :=
  plain_object (by simp) ⟨.text _, plain_bytes _, h.plain⟩

theorem fieldValues?_map {vs : List FieldValue} (h : ∀ v ∈ vs, InRange v.score) :
    fieldValues? (.array (vs.map fieldValue)) = some vs :=
  mapM_written fun v hv => fieldValue?_fieldValue (h v hv)

@[simp] theorem changeSet?_changeSet (c : ChangeSet) : changeSet? (changeSet c) = some c := by
  simp [changeSet?, changeSet, struct?, fieldOnce, Json.fieldValues]

theorem plain_changeSet {depth : Nat} (c : ChangeSet) : Plain (depth + 2) (changeSet c) :=
  plain_object (by simp) ⟨plain_texts _, plain_texts _⟩

theorem presence?_presence {p : Presence} (h : InRange p.score) :
    presence? (presence p) = some p := by
  simp [presence?, presence, struct?, fieldOnce, Json.fieldValues, Json.bool?, score?_int h]

theorem plain_presence {depth : Nat} {p : Presence} (h : InRange p.score) :
    Plain (depth + 1) (presence p) :=
  plain_object (by simp) ⟨.bool _, .bool _, h.plain⟩

/-! ## Repeated fields -/

theorem settleItems_eq {items : List Json} (h : ∀ item ∈ items, settleFields item = item) :
    settleFields.settleItems items = items := by
  induction items with
  | nil => rfl
  | cons item items ih =>
    obtain ⟨hitem, hothers⟩ := List.forall_mem_cons.1 h
    rw [settleFields.settleItems, hitem, ih hothers]

theorem settleObject_eq {fields : List (String × Json)} (names : (fields.map Prod.fst).Nodup)
    (h : ∀ f ∈ fields, settleFields f.2 = f.2) : settleFields.settleObject fields = fields := by
  induction fields with
  | nil => rfl
  | cons f fields ih =>
    obtain ⟨name, value⟩ := f
    obtain ⟨hfield, hothers⟩ := List.forall_mem_cons.1 h
    obtain ⟨hnew, hnodup⟩ := List.nodup_cons.1 names
    have hunseen : ¬fields.any (·.1 == name) := by
      rintro hany
      obtain ⟨f, hf, hname⟩ := List.any_eq_true.1 hany
      exact hnew (List.mem_map.2 ⟨f, hf, eq_of_beq hname⟩)
    rw [settleFields.settleObject, ih hnodup hothers, hfield]
    exact if_neg hunseen

/-- Where no object repeats a field, there is nothing to settle. -/
theorem settleFields_eq {depth : Nat} {j : Json} (h : Plain depth j) : settleFields j = j := by
  induction h with
  | null | bool | int | text => rfl
  | array _ ih => rw [settleFields, settleItems_eq ih]
  | object names _ ih => rw [settleFields, settleObject_eq names ih]

/-! ## Parameters -/

@[simp] theorem keyParams?_keyParams (key : Key) : keyParams? (keyParams key) = some key := by
  simp [keyParams?, keyParams, struct?, fieldOnce, Json.fieldValues, Json.text?]

@[simp] theorem fieldParams?_fieldParams (key : Key) (field : Field) :
    fieldParams? (fieldParams key field) = some (key, field) := by
  simp [fieldParams?, fieldParams, struct?, fieldOnce, Json.fieldValues, Json.text?]

theorem writeParams?_writeParams (key : Key) {members : List FieldValue}
    (h : ∀ m ∈ members, InRange m.score) :
    writeParams? (writeParams key members) = some (key, members) := by
  simp [writeParams?, writeParams, struct?, fieldOnce, Json.fieldValues, Json.text?,
    fieldValues?_map h]

theorem plain_writeParams {depth : Nat} (key : Key) {members : List FieldValue}
    (h : ∀ m ∈ members, InRange m.score) : Plain (depth + 4) (writeParams key members) :=
  plain_object (by simp) ⟨.text _, plain_array fun m hm => plain_fieldValue (h m hm)⟩

theorem plain_fieldParams {depth : Nat} (key : Key) (field : Field) :
    Plain (depth + 1) (fieldParams key field) :=
  plain_object (by simp) ⟨.text _, .text _⟩

theorem plain_keyParams {depth : Nat} (key : Key) : Plain (depth + 1) (keyParams key) :=
  plain_object (by simp) (.text _)

end Wire

/-! ## Calls -/

/-- The scores that a call writes are in range. -/
def Call.InRange : Call → Prop
  | .insert _ written | .delete _ written => ∀ m ∈ written, Wire.InRange m.score
  | _ => True

theorem Wire.plain_callParams {call : Call} (h : call.InRange) :
    Plain 4 (Wire.callParams call).2 := by
  cases call with
  | insert key members | delete key members => exact Wire.plain_writeParams key h
  | select key field | score key field => exact Wire.plain_fieldParams key field
  | keys => exact .object .nil (by simp)
  | size key | members key => exact Wire.plain_keyParams key

/-- The method and the parameters that carry a call are routed to the store, and read
there as the call. -/
theorem Method.ofName?_callParams {call : Call} (h : call.InRange) :
    ∃ read?, Method.ofName? (Wire.callParams call).1 = some (.node read?) ∧
      read? (Wire.callParams call).2 = some call := by
  cases call with
  | insert key members | delete key members =>
    refine ⟨_, rfl, ?_⟩
    rw [Wire.callParams, Wire.writeParams?_writeParams key h]
    rfl
  | select key field | score key field =>
    refine ⟨_, rfl, ?_⟩
    rw [Wire.callParams, Wire.fieldParams?_fieldParams]
    rfl
  | keys => exact ⟨_, rfl, rfl⟩
  | size key | members key =>
    refine ⟨_, rfl, ?_⟩
    rw [Wire.callParams, Wire.keyParams?_keyParams]
    rfl

/-! ## Requests and responses -/

/-- A request is read back from its octets. -/
theorem Request.ofBytes?_toJson {r : Request} {depth : Nat} (h : Plain depth r.params)
    (hdepth : depth + 1 < Json.depthLimit) :
    (Json.ofBytes? (Bytes.ofText r.toJson.print)).bind Request.ofJson? = some r := by
  have hplain : Plain (depth + 1) r.toJson :=
    Wire.plain_object (by simp) ⟨.text _, h⟩
  rw [Json.ofBytes?_print hplain hdepth, Option.bind_some]
  simp [Request.ofJson?, Request.toJson, Wire.struct?, Wire.fieldOnce, Json.fieldValues,
    Json.text?, Wire.settleFields_eq h]

theorem Envelope.present?_of_ne {j : Json} (h : j ≠ .null) :
    Envelope.present? (some j) = some j := by
  cases j <;> first | rfl | exact absurd rfl h

/-- A response is read back from its octets; what it carries is not nothing. -/
theorem Envelope.ofBytes?_toJson {e : Envelope} {depth : Nat}
    (h : ∀ j ∈ e.result, Plain depth j ∧ j ≠ .null) (hdepth : depth + 1 < Json.depthLimit) :
    (Json.ofBytes? (Bytes.ofText e.toJson.print)).bind Envelope.ofJson? = some e := by
  obtain ⟨success, result, error, notFound, degraded⟩ := e
  have herror : Plain depth (error.elim .null .text) := by
    cases error
    · exact .null
    · exact .text _
  have hresult : Plain depth (result.getD .null) := by
    cases result with
    | none => exact .null
    | some j => exact (h j rfl).1
  have hplain :
      Plain (depth + 1) (Envelope.toJson ⟨success, result, error, notFound, degraded⟩) :=
    Wire.plain_object (by simp) ⟨.bool _, hresult, herror, .bool _, .bool _⟩
  have hpresent :
      (Envelope.present? (some (result.getD .null))).map Wire.settleFields = result := by
    cases result with
    | none => rfl
    | some j =>
      obtain ⟨hj, hnull⟩ := h j rfl
      rw [Option.getD_some, Envelope.present?_of_ne hnull, Option.map_some,
        Wire.settleFields_eq hj]
  have hmessage : Envelope.message? (some (error.elim .null .text)) = some error := by
    cases error <;> rfl
  rw [Json.ofBytes?_print hplain hdepth, Option.bind_some]
  simp [Envelope.ofJson?, Envelope.toJson, Wire.struct?, Wire.fieldOnce, Json.fieldValues,
    Json.bool?, Envelope.flag?, hpresent, hmessage]

end QuorumStore
