import QuorumStore.Proofs.LastWrite
import QuorumStore.Proofs.WireForms
import QuorumStore.Rpc.Member

/-!
# A node behind a server answers like one's own

A call to a node behind another member's server is written as a request, routed by its
method, answered from the store, and the answer is written, sent back and read. All of
this together is the same as asking the store: the same reply comes out, an absence with
the same text included, and the same store is left. What 64 bits have to hold are the
scores written and stored, and the counts of fields.
-/

namespace QuorumStore

open Json (Plain)

/-- A write adds no more fields to a key than it has members. -/
theorem Cells.size_write_le (kind : WriteKind) (cells : Cells) (members : List FieldValue) :
    (cells.write kind members).1.size ≤ cells.size + members.length := by
  induction members generalizing cells with
  | nil => exact Nat.le_refl _
  | cons m rest ih =>
    rw [Cells.write, List.length_cons]
    split_ifs
    · have hrest := ih (cells.insert m.field (kind.cell m))
      have hfirst : (cells.insert m.field (kind.cell m)).size ≤ cells.size + 1 :=
        Std.TreeMap.size_insert_le
      dsimp only
      omega
    · have hrest := ih cells
      dsimp only
      omega

/-! ## What the wire can carry of a store -/

/-- The scores that a store holds and the counts of its fields are integers of 64 bits. -/
structure Store.InRange (store : Store) : Prop where
  /-- Every score is in range. -/
  scores : ∀ key field c, store.cell? key field = some c → Wire.InRange c.score
  /-- Every count is in range. -/
  sizes : ∀ key, Wire.InRange (Int.ofNat (store.size key))

namespace Store

variable {store : Store}

/-- A field that can be read has a score in range. -/
theorem InRange.select (h : store.InRange) {key : Key} {field : Field} {record : FieldValue}
    (hread : store.select key field = .ok record) : Wire.InRange record.score := by
  unfold Store.select at hread
  split at hread
  · next c hcell =>
    split_ifs at hread
    cases hread
    exact h.scores key field c hcell
  · cases hread

/-- A field that cannot be read is reported as absent. -/
theorem absent_of_select {key : Key} {field : Field} {fault : Fault}
    (hread : store.select key field = .error fault) : fault = .notFound (key ++ "/" ++ field) := by
  unfold Store.select at hread
  split at hread
  · split_ifs at hread
    cases hread
    rfl
  · cases hread
    rfl

/-- What a store knows about a field has a score in range. -/
theorem InRange.presence (h : store.InRange) (key : Key) (field : Field) :
    Wire.InRange (store.score key field).score := by
  unfold Store.score
  split
  · next c hcell => exact h.scores key field c hcell
  · decide

theorem inRange_empty (buckets : Nat) (h : 0 < buckets) : (empty buckets h).InRange where
  scores key field c hc := by
    rw [cell?, cells_empty] at hc
    cases hc
  sizes key := by
    rw [size, members, cells_empty]
    decide

/-- A key counts no more fields than were ever written under it. -/
theorem size_le (store : Store) (key : Key) : store.size key ≤ (store.cells key).size := by
  rw [size, members, Cells.liveFields, ← Std.TreeMap.length_toList]
  exact List.length_filterMap_le _ _

/-- A batch of scores in range leaves a store in range, as long as there is room for the
fields that it adds. -/
theorem InRange.apply (h : store.InRange) {b : Batch}
    (hscores : ∀ m ∈ b.members, Wire.InRange m.score)
    (hroom : ∀ key, Int.ofNat ((store.cells key).size + b.members.length) ≤ maxScore) :
    (store.apply b).InRange where
  scores key field c hc := by
    rcases cell?_apply_cases hc with hkept | hwritten
    · exact h.scores key field c hkept
    · obtain ⟨m, hm, hcell⟩ := List.mem_map.1 hwritten
      cases hcell
      rw [FieldValue.score_written]
      exact hscores m hm
  sizes key := by
    have hcells : ((store.apply b).cells key).size
        ≤ (store.cells key).size + b.members.length := by
      by_cases hk : key = b.key
      · rw [hk, cells_apply_self]
        exact Cells.size_write_le ..
      · rw [cells_apply_other store b hk]
        exact Nat.le_add_right ..
    have hcount := (store.apply b).size_le key
    have hmost := hroom key
    unfold Wire.InRange minScore
    simp only [Int.ofNat_eq_natCast] at hmost ⊢
    omega

end Store

/-! ## The way back -/

namespace Posted

variable {α : Type} (host : Host) (method : String) {read? : Json → Option α}

/-- A response with a result gives what is read from the result. -/
theorem openWith_ok {j : Json} {value : α} (hplain : Plain 2 j) (hread : read? j = some value)
    (hsome : j ≠ .null) :
    (answered Server.okStatus (Bytes.ofText (Envelope.ok j).toJson.print)).openWith host
      method read? = .ok value := by
  have hcarried : ∀ i ∈ (Envelope.ok j).result, Plain 2 i ∧ i ≠ .null := by
    intro i hi
    cases hi
    exact ⟨hplain, hsome⟩
  rw [openWith, if_pos (by decide), Envelope.ofBytes?_toJson hcarried (by decide)]
  simp [Envelope.openWith, Envelope.ok, hread]

/-- A response without a result, for want of what was asked for, gives the absence. -/
theorem openWith_absence (what : String) :
    (answered Server.okStatus (Bytes.ofText (Envelope.absence what).toJson.print)).openWith host
      method read? = .error (.notFound what) := by
  have hcarried : ∀ i ∈ (Envelope.absence what).result, Plain 0 i ∧ i ≠ .null := nofun
  rw [openWith, if_pos (by decide), Envelope.ofBytes?_toJson hcarried (by decide)]
  rfl

/-- The answer of a store arrives: as a fault if it is one, else as the reply. -/
theorem openWith_answer {store : Store} (h : store.InRange) (call : Call) :
    let reply := (store.answer call).1
    let arrived := (answered Server.okStatus
      (Bytes.ofText (Envelope.ofReply reply).toJson.print)).openWith host method (Wire.reply? call)
    (∃ f, reply = .fault f ∧ arrived = .error f) ∨ arrived = .ok reply := by
  cases call with
  | insert key members | delete key members =>
    refine .inr (openWith_ok host method (Wire.plain_changeSet _) ?_ nofun)
    exact congrArg (Option.map Reply.changes) (Wire.changeSet?_changeSet _)
  | select key field =>
    cases hread : store.select key field with
    | ok record =>
      have hrecord := h.select hread
      simp only [Store.answer, hread]
      refine .inr (openWith_ok host method (Wire.plain_fieldValue hrecord) ?_ nofun)
      exact congrArg (Option.map Reply.record) (Wire.fieldValue?_fieldValue hrecord)
    | error fault =>
      obtain rfl := Store.absent_of_select hread
      simp only [Store.answer, hread]
      exact .inl ⟨_, rfl, openWith_absence host method _⟩
  | keys =>
    refine .inr (openWith_ok host method (Wire.plain_texts _) ?_ nofun)
    exact congrArg (Option.map Reply.keys) (Wire.names?_texts _)
  | size key =>
    refine .inr (openWith_ok host method (h.sizes key).plain ?_ nofun)
    exact congrArg (Option.map Reply.count) (Wire.score?_int (h.sizes key))
  | members key =>
    refine .inr (openWith_ok host method (Wire.plain_texts _) ?_ nofun)
    exact congrArg (Option.map Reply.fields) (Wire.names?_texts _)
  | score key field =>
    have hpresence := h.presence key field
    refine .inr (openWith_ok host method (Wire.plain_presence hpresence) ?_ nofun)
    exact congrArg (Option.map Reply.presence) (Wire.presence?_presence hpresence)

end Posted

/-! ## The way there -/

/-- A request that carries a call is answered from the store. -/
theorem Member.post_call {m : Member} {store : Store} (hstore : m.store = some store) {call : Call}
    (hcall : call.InRange) :
    m.server.post
        (Bytes.ofText (Request.mk (Wire.callParams call).1 (Wire.callParams call).2).toJson.print) m
      = (.ofReply (store.answer call).1, { m with store := some (store.answer call).2 }) := by
  obtain ⟨read?, hmethod, hread⟩ := Method.ofName?_callParams hcall
  have hrequest := Request.ofBytes?_toJson
    (r := ⟨(Wire.callParams call).1, (Wire.callParams call).2⟩) (Wire.plain_callParams hcall)
    (by decide)
  have hnode : m.server.node = some callStore := by
    rw [server, hstore]
    rfl
  rw [Server.post, hrequest]
  simp only [Server.dispatch, hmethod, hnode, hread, callStore, hstore]

/-- A call to a node behind a server gives the reply that the store gives, and leaves the
store that the call leaves. -/
theorem Loopback.callNode_eq_answer {m : Member} {store : Store} (hstore : m.store = some store)
    (hrange : store.InRange) {call : Call} (hcall : call.InRange) (host : Host) :
    Loopback.up.callNode host (some m.server) call m
      = ((store.answer call).1, { m with store := some (store.answer call).2 }) := by
  have hback := Posted.openWith_answer host (Wire.callParams call).1 hrange call
  simp only [callNode, post, Member.post_call hstore hcall]
  rcases hback with ⟨f, hfault, harrived⟩ | harrived
  · rw [harrived, hfault]
  · rw [harrived]

/-- A store with one record. -/
def Store.noted : Store := (Store.empty 2 Nat.two_pos).apply ⟨.insert, "k", [⟨"f", [1], 7⟩]⟩

/-- A member that holds one record. -/
def Member.keeper : Member := ⟨"a", .store, some .noted, none, none, none⟩

/-- Over the wire, a field that is not held is absent, and a field that is written is added
to what the member holds. -/
theorem Loopback.callNode_keeper :
    let written : List FieldValue := [⟨"g", [2], 8⟩]
    Member.keeper.store = some .noted ∧ Store.noted.InRange ∧
    Loopback.up.callNode "a" (some Member.keeper.server) (.select "k" "g") Member.keeper
      = (.fault (.notFound "k/g"), Member.keeper) ∧
    Loopback.up.callNode "a" (some Member.keeper.server) (.insert "k" written) Member.keeper
      = (.changes ⟨["g"], []⟩,
        { Member.keeper with store := some (Store.noted.apply ⟨.insert, "k", written⟩) }) := by
  intro written
  have hrange : Store.noted.InRange := by
    refine (Store.inRange_empty 2 Nat.two_pos).apply (by decide) fun key => ?_
    rw [Store.cells_empty]
    decide
  have hwritten : (Call.insert "k" written).InRange := by
    change ∀ m ∈ written, Wire.InRange m.score
    decide
  have habsent : Store.noted.select "k" "g" = .error (.notFound "k/g") := by
    decide +kernel
  have hchanges : (Store.noted.write .insert "k" written).2 = ⟨["g"], []⟩ := by decide +kernel
  refine ⟨rfl, hrange, ?_, ?_⟩
  · have hcall : (Call.select "k" "g").InRange := trivial
    rw [Loopback.callNode_eq_answer (m := .keeper) rfl hrange hcall "a", Store.answer, habsent]
    rfl
  · rw [Loopback.callNode_eq_answer (m := .keeper) rfl hrange hwritten "a"]
    have hstore (store : Store) :
        (store.answer (.insert "k" written)).2 = store.apply ⟨.insert, "k", written⟩ := rfl
    rw [hstore]
    exact Prod.ext (congrArg Reply.changes hchanges) rfl

end QuorumStore
