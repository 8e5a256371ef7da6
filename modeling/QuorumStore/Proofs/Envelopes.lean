import QuorumStore.Proofs.Deliveries
import QuorumStore.Proofs.Dispatching
import QuorumStore.Proofs.RemoteNodes
import QuorumStore.Proofs.Surveys

/-!
# What a caller is told

What came of an operation of a coordinator survives on the way to the caller: opening the
envelope gives the value if there is one, degraded or not, an absence if nobody holds what was
asked for, and a fault of the node if the quorum was not met. This takes that the value is of
the kind that the operation yields, and that 64 bits hold its numbers; both hold as long as
64 bits hold the numbers that the replicas send.
-/

namespace QuorumStore

/-! ## Replies that can be read back -/

/-- The numbers of a reply are integers of 64 bits. -/
def Reply.InRange : Reply → Prop
  | .record r => Wire.InRange r.score
  | .count n => Wire.InRange n
  | .presence p => Wire.InRange p.score
  | _ => True

namespace Reply.InRange

variable {reply : Reply} (h : reply.InRange)
include h

theorem record {r : FieldValue} (hr : reply.record? = some r) : Wire.InRange r.score := by
  cases reply <;> cases hr
  exact h

theorem count {n : Int} (hn : reply.count? = some n) : Wire.InRange n := by
  cases reply <;> cases hn
  exact h

theorem presence {p : Presence} (hp : reply.presence? = some p) : Wire.InRange p.score := by
  cases reply <;> cases hp
  exact h

end Reply.InRange

namespace Wire

/-- What an answer to a call carries is read back as the answer. -/
theorem reply?_payload {call : Call} {reply : Reply} (hkind : call.answeredBy reply = true)
    (hrange : reply.InRange) : reply? call (payload reply) = some reply := by
  cases reply with
  | fault f => cases call <;> cases hkind
  | changes c =>
    cases call with
    | insert | delete => exact congrArg (Option.map Reply.changes) (changeSet?_changeSet c)
    | _ => cases hkind
  | record r =>
    cases call with
    | select => exact congrArg (Option.map Reply.record) (fieldValue?_fieldValue hrange)
    | _ => cases hkind
  | keys keys =>
    cases call with
    | keys => exact congrArg (Option.map Reply.keys) (names?_texts keys)
    | _ => cases hkind
  | fields fields =>
    cases call with
    | members key => exact congrArg (Option.map Reply.fields) (names?_texts fields)
    | _ => cases hkind
  | count n =>
    cases call with
    | size => exact congrArg (Option.map Reply.count) (score?_int hrange)
    | _ => cases hkind
  | presence p =>
    cases call with
    | score => exact congrArg (Option.map Reply.presence) (presence?_presence hrange)
    | _ => cases hkind

/-- What an answer to a call carries survives as text, and is something. -/
theorem plain_payload {call : Call} {reply : Reply} (hkind : call.answeredBy reply = true)
    (hrange : reply.InRange) : Json.Plain 2 (payload reply) ∧ payload reply ≠ .null := by
  cases reply with
  | fault f => cases call <;> cases hkind
  | changes c => exact ⟨plain_changeSet c, nofun⟩
  | record r => exact ⟨plain_fieldValue hrange, nofun⟩
  | keys keys => exact ⟨plain_texts keys, nofun⟩
  | fields fields => exact ⟨plain_texts fields, nofun⟩
  | count n => exact ⟨InRange.plain hrange, nofun⟩
  | presence p => exact ⟨plain_presence hrange, nofun⟩

end Wire

/-! ## What operations yield -/

/-- The call that an operation makes to the replicas; its answers are of the kind that the
operation yields. -/
def Operation.call : Operation → Call
  | .write kind key written _ => kind.call key written
  | .select key field _ => .select key field
  | .keys => .keys
  | .size key => .size key
  | .members key => .members key
  | .score key field => .score key field

namespace Outcome

variable {α β : Type}

/-- Where an outcome was given another value, it had a value. -/
theorem of_value?_map {f : α → β} {o : Outcome α} {value : β} (h : (o.map f).value? = some value) :
    ∃ x, o.value? = some x ∧ f x = value := by
  cases o with
  | done x => exact ⟨x, rfl, Option.some_inj.1 h⟩
  | degraded x => exact ⟨x, rfl, Option.some_inj.1 h⟩
  | notFound | unmet => cases h

/-- A value that is settled on is the one that was offered. -/
theorem eq_of_value?_settle {quorum : Quorum} {total returned : Nat} {faults : List Fault}
    {offered value : α} (h : (settle quorum total returned faults offered).value? = some value) :
    value = offered := by
  unfold settle at h
  split_ifs at h
  · exact (Option.some_inj.1 h).symm
  · exact (Option.some_inj.1 h).symm
  · rw [value?_short] at h
    cases h

end Outcome

namespace Verdict

variable {replies : List Tagged} {total : Nat}

/-- A record that is served was sent. -/
theorem sent_of_ofSelect {key : Key} {field : Field} {quorum : Quorum} {w : FieldValue}
    (h : (ofSelect key field quorum total replies).outcome.value? = some w) :
    ∃ t ∈ replies, t.2.record? = some w := by
  by_cases hsome : total = 0
  · rw [ofSelect, if_pos hsome] at h
    cases h
  · cases hmet : quorum.met total (held field replies).length with
    | true =>
      obtain ⟨best, quiet, hleads, -, hv⟩ := ofSelect_of_met key hsome hmet
      rw [hv, value?_served, Option.some_inj] at h
      obtain ⟨⟨t, ht, hrecord⟩, -, -⟩ := mem_held.1 hleads.mem
      exact ⟨t, ht, h ▸ hrecord⟩
    | false =>
      rw [ofSelect_of_unmet key hsome hmet, Outcome.value?_short] at h
      cases h

/-- A size that is told was sent, or is nothing. -/
theorem sent_of_ofSize {n : Int} (h : (ofSize total replies).outcome.value? = some n) :
    n = 0 ∨ ∃ t ∈ replies, t.2.count? = some n := by
  by_cases hsome : total = 0
  · rw [ofSize, if_pos hsome] at h
    cases h
  · rw [ofSize, if_neg hsome] at h
    have hn := Outcome.eq_of_value?_settle h
    rw [Gathered.map_snd_values] at hn
    cases htop : topScore? (replies.filterMap fun t => t.2.count?) with
    | none =>
      rw [htop] at hn
      exact .inl hn
    | some top =>
      rw [htop] at hn
      cases hn
      exact .inr (List.mem_filterMap.1 (Diagnosis.topScore?_eq_some_iff.1 htop).1)

/-- A snapshot that is told was sent, or knows nothing. -/
theorem sent_of_ofScore {p : Presence} (h : (ofScore total replies).outcome.value? = some p) :
    p = .absent ∨ ∃ t ∈ replies, t.2.presence? = some p := by
  by_cases hsome : total = 0
  · rw [ofScore, if_pos hsome] at h
    cases h
  · rw [ofScore, if_neg hsome] at h
    have hp := Outcome.eq_of_value?_settle h
    rw [Gathered.map_snd_values] at hp
    by_cases hnone : (replies.filterMap fun t => t.2.presence?) = []
    · rw [hnone] at hp
      exact .inl hp
    · refine .inr (List.mem_filterMap.1 ?_)
      rw [hp]
      rcases strongest_strongest (List.Perm.refl _) hnone with hwins | ⟨hsent, -⟩
      · exact hwins.mem
      · exact hsent

end Verdict

namespace Site

variable {σ : Type} {site : Site σ} {fleet : Fleet σ}

/-- The numbers that the replicas send back to a call are integers of 64 bits. -/
def InRange (site : Site σ) (fleet : Fleet σ) : Prop :=
  ∀ hosts call, ∀ t ∈ (fleet.scatter hosts call site.world).1, t.2.InRange

/-- The value of an operation is of the kind that it yields, and its numbers are integers of
64 bits if those of the replies are. -/
theorem value_run (hrange : site.InRange fleet) (shuffle : List Host → List Host)
    (op : Operation) {value : Reply}
    (h : (site.run fleet shuffle op).1.outcome.value? = some value) :
    op.call.answeredBy value = true ∧ value.InRange := by
  cases op with
  | write kind key members quorum =>
    obtain ⟨c, -, rfl⟩ := Outcome.of_value?_map (f := Reply.changes)
      (o := (site.write fleet shuffle kind key members quorum).1.outcome) h
    cases kind with
    | insert => exact ⟨rfl, trivial⟩
    | delete => exact ⟨rfl, trivial⟩
  | select key field quorum =>
    obtain ⟨w, hw, rfl⟩ := Outcome.of_value?_map (f := Reply.record)
      (o := (site.select fleet shuffle key field quorum).1.outcome) h
    obtain ⟨t, ht, hsent⟩ := Verdict.sent_of_ofSelect hw
    exact ⟨rfl, (hrange _ _ t ht).record hsent⟩
  | keys =>
    obtain ⟨keys, -, rfl⟩ := Outcome.of_value?_map (f := Reply.keys)
      (o := (site.survey fleet shuffle .keys Verdict.ofKeys).1.outcome) h
    exact ⟨rfl, trivial⟩
  | size key =>
    obtain ⟨n, hn, rfl⟩ := Outcome.of_value?_map (f := Reply.count)
      (o := (site.survey fleet shuffle (.size key) Verdict.ofSize).1.outcome) h
    refine ⟨rfl, ?_⟩
    rcases Verdict.sent_of_ofSize hn with rfl | ⟨t, ht, hsent⟩
    · exact ⟨by decide, by decide⟩
    · exact (hrange _ _ t ht).count hsent
  | members key =>
    obtain ⟨fields, -, rfl⟩ := Outcome.of_value?_map (f := Reply.fields)
      (o := (site.survey fleet shuffle (.members key) (Verdict.ofMembers key)).1.outcome) h
    exact ⟨rfl, trivial⟩
  | score key field =>
    obtain ⟨p, hp, rfl⟩ := Outcome.of_value?_map (f := Reply.presence)
      (o := (site.survey fleet shuffle (.score key field) Verdict.ofScore).1.outcome) h
    refine ⟨rfl, ?_⟩
    rcases Verdict.sent_of_ofScore hp with rfl | ⟨t, ht, hsent⟩
    · exact ⟨by decide, by decide⟩
    · exact (hrange _ _ t ht).presence hsent

end Site

/-! ## What a caller is told -/

/-- What a caller is told of an outcome by the member at a host. -/
def Outcome.toldBy (host : Host) (outcome : Outcome Reply) : Except Fault Reply :=
  match outcome with
  | .done value => .ok value
  | .degraded value .. => .ok value
  | .notFound => .error (.notFound "no replica holds it")
  | .unmet .. => .error (.node (host ++ ": " ++ outcome.message?.getD ""))

namespace Envelope

variable {e : Envelope} {host : Host} {op : Operation} {outcome : Outcome Reply}

/-- An envelope tells a caller what came of an operation. -/
structure Tells (e : Envelope) (host : Host) (op : Operation) (outcome : Outcome Reply) : Prop where
  /-- There is a value exactly if the outcome has it, degraded or not. -/
  value_iff : ∀ value,
    e.openWith host (Wire.reply? op.call) = .ok value ↔ outcome.value? = some value
  /-- There is an absence exactly if nobody holds what was asked for. -/
  absent_iff : (∃ what, e.openWith host (Wire.reply? op.call) = .error (.notFound what)) ↔
    outcome.kind = .notFound
  /-- There is a fault of the node exactly if the quorum was not met. -/
  unmet_iff : (∃ detail, e.openWith host (Wire.reply? op.call) = .error (.node detail)) ↔
    outcome.kind = .unmet
  /-- The value is marked as degraded exactly if it came in spite of failures. -/
  degraded_iff : e.degraded = true ↔ outcome.kind = .degraded
  /-- It is the same when the envelope is sent as text. -/
  posted_eq : ∀ method,
    (Posted.answered Server.okStatus (Bytes.ofText e.toJson.print)).openWith host method
      (Wire.reply? op.call) = e.openWith host (Wire.reply? op.call)

/-- An envelope whose result survives as text is opened from the text like the envelope. -/
theorem openWith_posted {α : Type} {read? : Json → Option α}
    (h : ∀ j ∈ e.result, Json.Plain 2 j ∧ j ≠ .null) (host : Host) (method : String) :
    (Posted.answered Server.okStatus (Bytes.ofText e.toJson.print)).openWith host method read?
      = e.openWith host read? := by
  rw [Posted.openWith, if_pos (by decide), ofBytes?_toJson h (by decide)]

/-- An outcome whose value is of the kind that the operation yields is opened as such. -/
theorem openWith_ofOutcome (host : Host) (hvalue : ∀ value, outcome.value? = some value →
    op.call.answeredBy value = true ∧ value.InRange) :
    (ofOutcome outcome).openWith host (Wire.reply? op.call) = outcome.toldBy host := by
  cases outcome with
  | done value =>
    obtain ⟨hkind, hrange⟩ := hvalue value rfl
    simp [openWith, ofOutcome, ok, Wire.reply?_payload hkind hrange, Outcome.toldBy]
  | degraded value total returned faults =>
    obtain ⟨hkind, hrange⟩ := hvalue value rfl
    simp [openWith, ofOutcome, partially, Wire.reply?_payload hkind hrange, Outcome.toldBy]
  | notFound | unmet => rfl

/-- Such an outcome is told. -/
theorem tells_ofOutcome (host : Host) (hvalue : ∀ value, outcome.value? = some value →
    op.call.answeredBy value = true ∧ value.InRange) :
    (ofOutcome outcome).Tells host op outcome := by
  have hcarried : ∀ j ∈ (ofOutcome outcome).result, Json.Plain 2 j ∧ j ≠ .null := by
    intro j hj
    cases outcome with
    | done value | degraded value =>
      cases hj
      obtain ⟨hkind, hrange⟩ := hvalue value rfl
      exact Wire.plain_payload hkind hrange
    | notFound | unmet => cases hj
  have hopened := openWith_ofOutcome host hvalue
  refine ⟨fun value => ?_, ?_, ?_, ?_, openWith_posted hcarried host⟩
  · rw [hopened]
    cases outcome <;> simp [Outcome.toldBy, Outcome.value?]
  · rw [hopened]
    cases outcome <;> simp [Outcome.toldBy, Outcome.kind]
  · rw [hopened]
    cases outcome <;> simp [Outcome.toldBy, Outcome.kind]
  · cases outcome <;> simp [ofOutcome, ok, partially, absence, failure, Outcome.kind]

end Envelope

/-- What can come of an operation of a coordinator. -/
inductive Operation.Ran (op : Operation) : Outcome Reply → Prop where
  /-- It was carried out, over replicas whose numbers are integers of 64 bits. -/
  | through {σ : Type} {site : Site σ} {fleet : Fleet σ} (hrange : site.InRange fleet)
      (shuffle : List Host → List Host) : Ran op (site.run fleet shuffle op).1.outcome
  /-- There was nothing to carry it out over. -/
  | nowhere : Ran op .notFound

theorem Operation.Ran.value {op : Operation} {outcome : Outcome Reply} (h : op.Ran outcome)
    {value : Reply} (hvalue : outcome.value? = some value) :
    op.call.answeredBy value = true ∧ value.InRange := by
  cases h with
  | through hrange shuffle => exact Site.value_run hrange shuffle op hvalue
  | nowhere => cases hvalue

/-! ## Members of a cluster in one process -/

/-- What a store answers is in range where the store is. -/
theorem Store.InRange.answer {store : Store} (h : store.InRange) (call : Call) :
    (store.answer call).1.InRange := by
  cases call with
  | insert | delete | keys | members => trivial
  | select key field =>
    rw [Store.answer]
    cases hread : store.select key field with
    | ok record => exact h.select hread
    | error fault => trivial
  | size key => exact h.sizes key
  | score key field => exact h.presence key field

/-- The numbers that a replica stores and those of its script are integers of 64 bits. -/
structure Replica.InRange (r : Replica) : Prop where
  /-- Those that it stores. -/
  store : r.store.InRange
  /-- Those of its script. -/
  script : ∀ entry ∈ r.script, ∀ reply ∈ entry.2, reply.InRange

/-- So are the numbers of all replicas of a cluster. -/
def Replicas.InRange (rs : Replicas) : Prop := ∀ r ∈ rs.strays ++ rs.listed, r.InRange

/-- What a replica sends back to a call has numbers of 64 bits. -/
def Replica.Sends (r : Replica) (call : Call) : Prop :=
  ∀ reply ∈ (r.answer call).1, reply.InRange

/-- What a script has for a call stands in it. -/
theorem Script.mem_of_replies? {script : Script} {call : Call} {replies : List Reply}
    (h : script.replies? call = some replies) : ∃ entry ∈ script, entry.2 = replies := by
  have hfound {name : String} (hname : script.lookup name = some replies) :
      ∃ entry ∈ script, entry.2 = replies := by
    obtain ⟨before, after, hsplit, -⟩ := List.lookup_eq_some_iff.1 hname
    exact ⟨(name, replies), hsplit ▸ List.mem_append_right _ List.mem_cons_self, rfl⟩
  rw [Script.replies?, Option.or_eq_some_iff] at h
  rcases h with hname | ⟨-, hname⟩
  · exact hfound hname
  · exact hfound hname

namespace Replica

variable {r : Replica} {call : Call}

theorem inRange_fresh (host : Host) : (fresh host).InRange :=
  ⟨Store.inRange_empty 4 (by decide), nofun⟩

theorem InRange.sends (h : r.InRange) (call : Call) : r.Sends call := by
  intro reply hreply
  rw [answer] at hreply
  cases hscript : r.script.replies? call with
  | some replies =>
    rw [hscript] at hreply
    obtain ⟨entry, hentry, rfl⟩ := Script.mem_of_replies? hscript
    exact h.script entry hentry reply hreply
  | none =>
    rw [hscript] at hreply
    obtain rfl := List.mem_singleton.1 hreply
    exact h.store.answer call

/-- A replica that is asked once more sends numbers of 64 bits again: a write is answered
without numbers, and anything else leaves the store as it is. -/
theorem Sends.again (h : r.Sends call) : (r.answer call).2.Sends call := by
  cases hscript : r.script.replies? call with
  | some replies =>
    have hsame : (r.answer call).2 = r := by
      rw [answer, hscript]
    rw [hsame]
    exact h
  | none =>
    have hstore : r.answer call
        = ([(r.store.answer call).1], { r with store := (r.store.answer call).2 }) := by
      rw [answer, hscript]
    intro reply hreply
    rw [hstore, answer] at hreply
    dsimp only at hreply
    rw [hscript] at hreply
    obtain rfl := List.mem_singleton.1 hreply
    rw [Sends, hstore] at h
    have hfirst := h _ List.mem_cons_self
    cases call with
    | insert | delete => trivial
    | keys | size | members | score => exact hfirst
    | select key field =>
      rw [Store.answer] at hfirst ⊢
      cases hread : r.store.select key field <;> simpa only [Store.answer, hread] using hfirst

end Replica

namespace Replicas

variable {rs : Replicas} {call : Call}

theorem mem_put {r s : Replica} {listed : List Replica} (h : s ∈ put r listed) :
    s = r ∨ s ∈ listed := by
  induction listed with
  | nil => cases h
  | cons first rest ih =>
    rw [put] at h
    split_ifs at h
    · rcases List.mem_cons.1 h with rfl | hrest
      · exact .inl rfl
      · exact .inr (List.mem_cons_of_mem _ hrest)
    · rcases List.mem_cons.1 h with rfl | hrest
      · exact .inr List.mem_cons_self
      · exact (ih hrest).imp_right (List.mem_cons_of_mem _)

/-- A host that is asked sends numbers of 64 bits, and so does every host after that. -/
theorem sends_answer (h : ∀ r ∈ rs.strays ++ rs.listed, r.Sends call) (host : Host) :
    (∀ reply ∈ (rs.answer host call).1, reply.InRange) ∧
      ∀ r ∈ (rs.answer host call).2.strays ++ (rs.answer host call).2.listed, r.Sends call := by
  rw [answer]
  cases hfind : rs.find? host with
  | none =>
    have hfresh := (Replica.inRange_fresh host).sends call
    refine ⟨hfresh, fun r hr => ?_⟩
    dsimp only at hr
    rw [List.append_assoc, List.mem_append, List.mem_append, List.mem_singleton] at hr
    rcases hr with hstray | rfl | hlisted
    · exact h r (List.mem_append_left _ hstray)
    · exact hfresh.again
    · exact h r (List.mem_append_right _ hlisted)
  | some asked =>
    have hasked := h asked (List.mem_of_find?_eq_some hfind)
    refine ⟨hasked, fun r hr => ?_⟩
    rcases List.mem_append.1 hr with hstray | hlisted
    · rcases mem_put hstray with rfl | hold
      · exact hasked.again
      · exact h r (List.mem_append_left _ hold)
    · rcases mem_put hlisted with rfl | hold
      · exact hasked.again
      · exact h r (List.mem_append_right _ hold)

theorem sends_contact (h : ∀ r ∈ rs.strays ++ rs.listed, r.Sends call) (hosts : List Host) :
    ∀ stream ∈ (fleet.contact call hosts rs).1, ∀ reply ∈ stream.2, reply.InRange := by
  induction hosts generalizing rs with
  | nil => exact nofun
  | cons host rest ih =>
    obtain ⟨hreplies, hafter⟩ := sends_answer h host
    intro stream hstream
    rcases List.mem_cons.1 hstream with rfl | hrest
    · exact hreplies
    · exact ih hafter stream hrest

/-- Replicas in range send numbers of 64 bits to whoever asks them. -/
theorem InRange.site (h : rs.InRange) (registry : Registry) :
    Site.InRange ⟨registry, rs⟩ fleet := by
  intro hosts call t ht
  obtain ⟨stream, hstream, -, hreply⟩ := delivers.mem_scatter.1 ht
  exact sends_contact (fun r hr => (h r hr).sends call) hosts stream hstream t.2 hreply

end Replicas

/-- A cluster whose replicas are in range carries operations out over them. -/
theorem Cluster.ran_run {c : Cluster} (h : c.replicas.InRange) (op : Operation) :
    op.Ran (c.run op).1 := by
  rw [run, site?]
  cases c.network.registry? coordinator with
  | none => exact .nowhere
  | some registry => exact .through (h.site registry) id

/-- A cluster starts with the replicas that it is given. -/
theorem Cluster.replicas_start {config : ClusterParams} {replicas : List Replica}
    {capacity workers : Nat} {c : Cluster} (started : start config replicas capacity workers = .ok c) :
    c.replicas = ⟨[], replicas⟩ := by
  simp only [start, bind, Except.bind] at started
  split at started
  · cases started
  · split at started
    · cases started
    · split at started
      · cases started
      · cases started
        rfl

namespace Server

variable {σ : Type}

/-- In a state, the member's coordinator carries operations out over replicas whose numbers
are integers of 64 bits. -/
def Runs (server : Server σ) (s : σ) : Prop :=
  ∀ coordinate, server.coordinator = some coordinate →
    ∀ op : Operation, op.Ran (coordinate op s).1

/-- So does the coordinator of a member, over the replicas of its cluster. -/
theorem runs_of_inRange {m : Member}
    (h : ∀ cluster, m.cluster = some cluster → cluster.replicas.InRange) : m.server.Runs m := by
  intro coordinate has op
  cases hcluster : m.cluster with
  | none =>
    rw [Member.server, hcluster] at has
    cases has
  | some cluster =>
    rw [Member.server, hcluster] at has
    cases has
    have hran := Cluster.ran_run (h cluster hcluster) op
    simp only [Member.coordinate, hcluster]
    exact hran

/-- Whatever a member has and whatever it is asked, the parts of its envelope fit together,
and a request that cannot be read changes nothing. What came of an operation of its
coordinator is what a caller is told who opens the envelope. -/
theorem dispatch_tells (server : Server σ) (request : Request) (s : σ) (host : Host) :
    (server.dispatch request s).1.WellFormed ∧
      (request.readable = false → (server.dispatch request s).2 = s) ∧
      (server.Runs s → ∀ coordinate op, server.coordinator = some coordinate →
        request.operation? = some op →
        (server.dispatch request s).1.Tells host op (coordinate op s).1) := by
  refine ⟨server.wellFormed_dispatch request s, fun h => (dispatch_of_unreadable h).2, ?_⟩
  intro hruns coordinate op has asks
  rw [dispatch_of_operation has asks]
  exact Envelope.tells_ofOutcome host fun _ => (hruns coordinate has op).value

end Server

/-- A member that coordinates two replicas. -/
def Member.desk : Member :=
  ⟨"d", .client, none, (Cluster.start ⟨8, 64, 3⟩ [.fresh "a", .fresh "b"] 4 1).toOption, none, none⟩

/-- A request to write a value. -/
def Request.writing : Request :=
  ⟨"farm/insert", Wire.quorumWrite "k" [⟨"f", [1], 7⟩] .strong⟩

/-- A write to two replicas is told as done, and a request without the parameters of its
method changes nothing. -/
theorem Server.dispatch_tells_desk :
    Member.desk.server.Runs .desk ∧
      (Member.desk.handle .writing).1.openWith "d" (Wire.reply? (.insert "k" [⟨"f", [1], 7⟩]))
        = .ok (.changes ⟨["f"], []⟩) ∧
      (Request.mk "farm/size" .null).readable = false ∧
      (Member.desk.handle ⟨"farm/size", .null⟩).2 = .desk := by
  have hruns : Member.desk.server.Runs .desk := by
    refine Server.runs_of_inRange fun cluster hcluster => ?_
    cases hstart : Cluster.start ⟨8, 64, 3⟩ [.fresh "a", .fresh "b"] 4 1 with
    | error abort =>
      rw [Member.desk, hstart] at hcluster
      cases hcluster
    | ok c =>
      rw [Member.desk, hstart] at hcluster
      cases hcluster
      rw [Cluster.replicas_start hstart]
      intro r hr
      rcases List.mem_cons.1 hr with rfl | hr
      · exact Replica.inRange_fresh "a"
      · obtain rfl := List.mem_singleton.1 hr
        exact Replica.inRange_fresh "b"
  have hfarm : Member.desk.server.coordinator = some Member.coordinate := by
    obtain ⟨cluster, hcluster⟩ : ∃ cluster, Member.desk.cluster = some cluster :=
      Option.isSome_iff_exists.1 (by decide +kernel)
    rw [Member.server, hcluster]
    rfl
  have hunreadable : (Request.mk "farm/size" .null).readable = false := by decide +kernel
  refine ⟨hruns, ?_, hunreadable, ?_⟩
  · have htells := (Server.dispatch_tells Member.desk.server .writing .desk "d").2.2 hruns
      Member.coordinate (.write .insert "k" [⟨"f", [1], 7⟩] .strong) hfarm (by decide +kernel)
    exact (htells.value_iff _).2 (by decide +kernel)
  · exact (Server.dispatch_tells Member.desk.server ⟨"farm/size", .null⟩ .desk "d").2.1 hunreadable

end QuorumStore
