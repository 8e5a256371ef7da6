import QuorumStore.Proofs.Contacted
import QuorumStore.Proofs.Honest
import QuorumStore.Proofs.ServedRecord

/-!
# One reply of each host

Where every host that a read goes to sends one reply, the verdict depends on what each of
them says, and not on the order in which it arrives. The records that arrive are those of
the hosts, the failures and absences as well. And as the digests tell the hosts apart, no
host lags exactly if none has sent less than the winner.
-/

namespace QuorumStore

/-- Whether a reply is a record that counts: one whose score is not negative. -/
def Reply.counts (reply : Reply) : Bool := reply.record?.any fun r => decide (0 ≤ r.score)

/-- Whether a reply is a failure: neither a record nor an absence. -/
def Reply.fails (reply : Reply) : Bool := reply.record?.isNone && !reply.isAbsence

/-- Whether a reply falls short of a score: it is no record, or one with a lower score. -/
def Reply.trails (winner : Int) (reply : Reply) : Bool :=
  reply.record?.all fun r => decide (r.score < winner)

/-- A reply is no failure if it is an absence unless it is a record. -/
theorem Reply.fails_eq_false_iff {reply : Reply} :
    reply.fails = false ↔ (reply.record? = none → reply.isAbsence = true) := by
  rw [fails]
  cases reply.record? <;> simp

/-- A reply does not fall short if it is a record that is as good. -/
theorem Reply.trails_eq_false_iff {winner : Int} {reply : Reply} :
    reply.trails winner = false ↔ ∃ r, reply.record? = some r ∧ winner ≤ r.score := by
  rw [trails]
  cases reply.record? <;> simp

namespace Verdict

/-- Nothing failed if every reply is a record or an absence. -/
theorem failures_eq_nil_iff {replies : List Tagged} :
    failures replies = [] ↔ ∀ t ∈ replies, t.2.fails = false := by
  have hall : (Gathered.ofReplies Reply.record? "select" replies).faults.all Fault.isNotFound = true
      ↔ ∀ t ∈ replies, t.2.record? = none → t.2.isAbsence = true := Gathered.all_isNotFound_faults
  simp only [Reply.fails_eq_false_iff]
  rw [failures, List.filter_eq_nil_iff, ← hall, List.all_eq_true]
  simp only [Bool.not_eq_true', Bool.not_eq_false]

/-- Where nothing failed, nothing is absent if every reply is a record. -/
theorem absences_eq_nil_iff {replies : List Tagged} (h : failures replies = []) :
    absences replies = [] ↔ ∀ t ∈ replies, t.2.record?.isSome = true := by
  rw [← Gathered.faults_eq_nil_iff "select", absences, List.filter_eq_self.2 fun f hf => ?_]
  have hfailed := List.filter_eq_nil_iff.1 h f hf
  rwa [Bool.not_eq_true', Bool.not_eq_false] at hfailed

end Verdict

/-- Replies that are what each of several hosts said, in some order. -/
def OneEach (hosts : List Host) (said : Host → Reply) (replies : List Tagged) : Prop :=
  replies.Perm (hosts.map fun host => (Registry.digest host, said host))

namespace OneEach

variable {hosts : List Host} {said : Host → Reply} {replies : List Tagged} {field : Field}

theorem mem_iff (h : OneEach hosts said replies) {t : Tagged} :
    t ∈ replies ↔ ∃ host ∈ hosts, (Registry.digest host, said host) = t := by
  rw [List.Perm.mem_iff h, List.mem_map]

/-- Of all replies something holds if it holds of what each host said. -/
theorem forall_iff (h : OneEach hosts said replies) {p : Reply → Prop} :
    (∀ t ∈ replies, p t.2) ↔ ∀ host ∈ hosts, p (said host) := by
  constructor
  · intro hall host hm
    exact hall _ (h.mem_iff.2 ⟨host, hm, rfl⟩)
  · intro hall t ht
    obtain ⟨host, hm, rfl⟩ := h.mem_iff.1 ht
    exact hall host hm

/-- Of some reply something holds if it holds of what some host says. -/
theorem exists_iff (h : OneEach hosts said replies) {p : Reply → Prop} :
    (∃ t ∈ replies, p t.2) ↔ ∃ host ∈ hosts, p (said host) := by
  have hnone := h.forall_iff (p := fun reply => ¬ p reply)
  rw [← not_iff_not]
  simpa only [not_exists, not_and] using hnone

/-- The records that arrive are those of the hosts. -/
theorem sentRecords_perm (h : OneEach hosts said replies) :
    (sentRecords replies).Perm (hosts.filterMap fun host => (said host).record?) := by
  refine (List.Perm.filterMap _ h).trans ?_
  rw [List.filterMap_map]
  exact .refl _

theorem mem_sentRecords (h : OneEach hosts said replies) {r : FieldValue} :
    r ∈ sentRecords replies ↔ ∃ host ∈ hosts, said host = .record r := by
  rw [h.sentRecords_perm.mem_iff, List.mem_filterMap]
  simp only [Reply.record?_eq_some_iff]

/-- There is a record if some host sent one. -/
theorem length_sentRecords_pos_iff (h : OneEach hosts said replies) :
    0 < (sentRecords replies).length ↔ ∃ host ∈ hosts, (said host).record?.isSome = true := by
  rw [h.sentRecords_perm.length_eq, List.length_filterMap_eq_countP, List.countP_pos_iff]

/-- Where all records are of the field, it is held by those that count. -/
theorem length_held (h : OneEach hosts said replies)
    (habout : ∀ host ∈ hosts, ∀ r, said host = .record r → r.field = field) :
    (held field replies).length = hosts.countP fun host => (said host).counts := by
  rw [held, ← List.countP_eq_length_filter, h.sentRecords_perm.countP_eq, List.countP_filterMap]
  refine List.countP_congr fun host hm => ?_
  rw [Reply.counts]
  cases hr : (said host).record? with
  | none => simp
  | some r =>
    have hfield := habout host hm r (Reply.record?_eq_some_iff.1 hr)
    simp [FieldValue.holds, hfield]

/-- No record has a higher score than what leads among those that hold the field. -/
theorem score_le_of_leads (h : OneEach hosts said replies)
    (habout : ∀ host ∈ hosts, ∀ r, said host = .record r → r.field = field) {w : FieldValue}
    (hleads : Leads FieldValue.score w (held field replies)) :
    (∃ host ∈ hosts, said host = .record w) ∧
      ∀ host ∈ hosts, ∀ r, said host = .record r → r.score ≤ w.score := by
  have hsent {r : FieldValue} : (∃ t ∈ replies, t.2.record? = some r) ↔
      ∃ host ∈ hosts, said host = .record r := by
    rw [← h.mem_sentRecords, sentRecords, List.mem_filterMap]
  obtain ⟨hw, -, hpositive⟩ := mem_held.1 hleads.mem
  refine ⟨hsent.1 hw, fun host hm r hr => ?_⟩
  by_cases hlive : 0 ≤ r.score
  · exact hleads.le r (mem_held.2 ⟨hsent.2 ⟨host, hm, hr⟩, habout host hm r hr, hlive⟩)
  · omega

/-- Nothing is to be repaired exactly if every host has sent a record of the field that is as
good as the winner. -/
theorem quiet_iff (h : OneEach hosts said replies)
    (hdigest : ∀ a ∈ hosts, ∀ b ∈ hosts, Registry.digest a = Registry.digest b → a = b)
    {winner : Int} :
    Verdict.Quiet field winner replies ↔ ∀ host ∈ hosts, ∃ r,
      (said host).record? = some r ∧ r.holds field = true ∧ winner ≤ r.score := by
  constructor
  · intro hquiet host hm
    have ht := h.mem_iff.2 ⟨host, hm, rfl⟩
    obtain ⟨r, hr, hholds⟩ := hquiet.holds _ ht
    obtain ⟨t, ht', hnode, high, hhigh, hle⟩ := hquiet.exists_high ht
    obtain ⟨other, hm', rfl⟩ := h.mem_iff.1 ht'
    obtain rfl := hdigest other hm' host hm hnode
    obtain rfl := Option.some.inj (hr.symm.trans hhigh)
    exact ⟨r, hr, hholds, hle⟩
  · intro hall
    refine ⟨fun t ht => ?_, fun node score hlast => ?_⟩
    · obtain ⟨host, hm, rfl⟩ := h.mem_iff.1 ht
      obtain ⟨r, hr, hholds, -⟩ := hall host hm
      exact ⟨r, hr, hholds⟩
    · obtain ⟨t, ht, r, hr, -, rfl⟩ := Verdict.mem_reports.1 (Verdict.mem_of_last hlast)
      obtain ⟨host, hm, rfl⟩ := h.mem_iff.1 ht
      obtain ⟨r', hr', -, hle⟩ := hall host hm
      obtain rfl := Option.some.inj (hr.symm.trans hr')
      exact hle

/-- Where all records are of the field and the winner counts, this is so exactly if no host
falls short of it. -/
theorem quiet_iff_of_about (h : OneEach hosts said replies)
    (hdigest : ∀ a ∈ hosts, ∀ b ∈ hosts, Registry.digest a = Registry.digest b → a = b)
    (habout : ∀ host ∈ hosts, ∀ r, said host = .record r → r.field = field)
    {winner : Int} (hcounts : 0 ≤ winner) :
    Verdict.Quiet field winner replies ↔ ∀ host ∈ hosts, (said host).trails winner = false := by
  rw [h.quiet_iff hdigest]
  refine forall₂_congr fun host hm => ?_
  rw [Reply.trails_eq_false_iff]
  refine exists_congr fun r => and_congr_right fun hr => and_iff_right_of_imp fun hle => ?_
  have hfield := habout host hm r (Reply.record?_eq_some_iff.1 hr)
  exact FieldValue.holds_iff.2 ⟨hfield, Int.le_trans hcounts hle⟩

end OneEach

end QuorumStore
