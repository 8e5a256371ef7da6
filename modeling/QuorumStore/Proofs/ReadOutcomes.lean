import QuorumStore.Proofs.Ballots
import QuorumStore.Proofs.SingleReplies
import QuorumStore.Proofs.WriteOutcomes

/-!
# What comes of a read

A read goes to hosts each of which sends one reply: a record of the field, an absence or a
failure. A record is served if the records that count meet the quorum, and it is one with
the highest score of all that were sent. Who failed decides whether the caller is warned, and
without a record whether it is told that nothing was found. The field is to be repaired if
some host falls short of what is served, or if nothing is served although a record was sent.
A read that goes to nobody finds nothing, even where a quorum of nobody counts as met.
-/

namespace QuorumStore

namespace Verdict

variable {key : Key} {field : Field} {quorum : Quorum} {hosts : List Host} {said : Host → Reply}
  {replies : List Tagged}

/-- Whoever is served a record is not warned if nobody failed. -/
theorem kind_served_eq_done_iff {total : Nat} {w : FieldValue} :
    (served total replies w).kind = .done ↔ ∀ t ∈ replies, t.2.fails = false := by
  rw [← failures_eq_nil_iff, served]
  simp only [List.isEmpty_iff]
  split
  · next h => exact iff_of_true rfl h
  · next h => exact iff_of_false (fun hkind => by cases hkind) h

/-- Else it is warned. -/
theorem kind_served_eq_degraded_iff {total : Nat} {w : FieldValue} :
    (served total replies w).kind = .degraded ↔ ∃ t ∈ replies, t.2.fails = true := by
  have hfailed : (∃ t ∈ replies, t.2.fails = true) ↔ failures replies ≠ [] := by
    rw [ne_eq, failures_eq_nil_iff]
    simp only [not_forall, exists_prop, Bool.not_eq_false]
  rw [hfailed, served]
  simp only [List.isEmpty_iff]
  split
  · next h => exact iff_of_false (fun hkind => by cases hkind) (not_not.2 h)
  · next h => exact iff_of_true rfl h

/-- Without a quorum nothing is found exactly if some reply is no record, and all such
replies are absences. -/
theorem kind_short_eq_notFound_iff {total returned : Nat} :
    (Outcome.short total returned (failures replies ++ absences replies) :
        Outcome FieldValue).kind = .notFound ↔
      (∃ t ∈ replies, t.2.record? = none) ∧ ∀ t ∈ replies, t.2.fails = false := by
  have hperm : (failures replies ++ absences replies).Perm
      (Gathered.ofReplies Reply.record? "select" replies).faults :=
    List.perm_append_comm.trans (List.filter_append_perm Fault.isNotFound _)
  have hsome : (Gathered.ofReplies Reply.record? "select" replies).faults ≠ [] ↔
      ∃ t ∈ replies, t.2.record? = none := by
    rw [ne_eq, Gathered.faults_eq_nil_iff]
    simp only [not_forall, Option.not_isSome_iff_eq_none, exists_prop]
  rw [(Outcome.short_perm total returned hperm).1, Outcome.kind_short_eq_notFound_iff, hsome,
    Gathered.all_isNotFound_faults]
  simp only [Reply.fails_eq_false_iff]

/-- What a read tells its caller and what it wants repaired, by what each host said. -/
structure Decides (key : Key) (field : Field) (quorum : Quorum) (hosts : List Host)
    (said : Host → Reply) (v : Verdict FieldValue) : Prop where
  /-- A record is served if somebody was asked, and the records that count meet the quorum. -/
  served_iff : v.outcome.value?.isSome = true ↔
    hosts ≠ [] ∧ quorum.met hosts.length (hosts.countP fun host => (said host).counts) = true
  /-- It is one of those sent, and no record that was sent has a higher score. -/
  highest : ∀ w, v.outcome.value? = some w →
    (∃ host ∈ hosts, said host = .record w) ∧
      ∀ host ∈ hosts, ∀ r, said host = .record r → r.score ≤ w.score
  /-- The read is done if a record is served and nobody failed. -/
  done_iff : v.outcome.kind = .done ↔
    v.outcome.value?.isSome = true ∧ ∀ host ∈ hosts, (said host).fails = false
  /-- It is degraded if a record is served and somebody failed. -/
  degraded_iff : v.outcome.kind = .degraded ↔
    v.outcome.value?.isSome = true ∧ ∃ host ∈ hosts, (said host).fails = true
  /-- Nothing is found if no record is served, and nobody was asked or somebody sent no record
  and nobody failed. -/
  notFound_iff : v.outcome.kind = .notFound ↔ v.outcome.value? = none ∧
    (hosts = [] ∨ (∃ host ∈ hosts, (said host).record? = none) ∧
      ∀ host ∈ hosts, (said host).fails = false)
  /-- Else, if no record is served, the quorum is unmet. -/
  unmet_iff : v.outcome.kind = .unmet ↔ v.outcome.value? = none ∧
    ¬ (hosts = [] ∨ (∃ host ∈ hosts, (said host).record? = none) ∧
      ∀ host ∈ hosts, (said host).fails = false)
  /-- With a record served, the field is to be repaired, towards its value, if some host falls
  short of its score. -/
  repairs_of_served : ∀ w, v.outcome.value? = some w → v.repairs =
    if ∃ host ∈ hosts, (said host).trails w.score = true then [⟨key, field, w.value⟩] else []
  /-- With none served, it is to be repaired if some host sent a record. -/
  repairs_of_none : v.outcome.value? = none → v.repairs =
    if ∃ host ∈ hosts, (said host).record?.isSome = true then [⟨key, field, []⟩] else []
  /-- What is to be repaired is queued as one job, where there is a worker and room. -/
  queued : ∀ queue : RepairBacklog, (queue.offer v.repairs).1 =
    if v.repairs ≠ [] ∧ 0 < queue.workers ∧ 0 < queue.remaining
    then { queue with waiting := queue.waiting ++ [v.repairs] } else queue

/-- A read that goes to nobody finds nothing. -/
theorem decides_nobody (key : Key) (field : Field) (quorum : Quorum) (said : Host → Reply) :
    Decides key field quorum [] said nobody where
  served_iff := by simp [nobody, Outcome.value?]
  highest w hw := by cases hw
  done_iff := by simp [nobody, Outcome.value?, Outcome.kind]
  degraded_iff := by simp [nobody, Outcome.value?, Outcome.kind]
  notFound_iff := by simp [nobody, Outcome.value?, Outcome.kind]
  unmet_iff := by simp [nobody, Outcome.value?, Outcome.kind]
  repairs_of_served w hw := by cases hw
  repairs_of_none _ := rfl
  queued queue := queue.fst_offer _

/-- With a quorum of records that count, one of those with the highest score is served. -/
theorem decides_of_met (h : OneEach hosts said replies) (hsome : hosts ≠ [])
    (hdigest : ∀ a ∈ hosts, ∀ b ∈ hosts, Registry.digest a = Registry.digest b → a = b)
    (habout : ∀ host ∈ hosts, ∀ r, said host = .record r → r.field = field)
    (hmet : quorum.met hosts.length (hosts.countP fun host => (said host).counts) = true) :
    Decides key field quorum hosts said
      (ofSelect key field quorum hosts.length replies) := by
  have hheld := h.length_held habout
  obtain ⟨w, quiet, hleads, hquiet, hv⟩ := ofSelect_of_met key
    (List.length_eq_zero_iff.not.2 hsome) (hheld ▸ hmet)
  rw [h.quiet_iff_of_about hdigest habout (mem_held.1 hleads.mem).2.2] at hquiet
  rw [hv]
  have hvalue : (served hosts.length replies w).value? = some w := value?_served _ _ w
  have hserved : (served hosts.length replies w).value?.isSome = true := by rw [hvalue]; rfl
  have hnone : (served hosts.length replies w).value? ≠ none := by
    rw [hvalue]
    exact Option.some_ne_none w
  refine ⟨iff_of_true hserved ⟨hsome, hmet⟩, ?_, ?_, ?_, ?_, ?_, ?_, fun h' => absurd h' hnone,
    fun queue => queue.fst_offer _⟩
  · intro w' hw'
    obtain rfl := Option.some.inj (hvalue.symm.trans hw')
    exact h.score_le_of_leads habout hleads
  · rw [kind_served_eq_done_iff, h.forall_iff (p := fun reply => reply.fails = false),
      and_iff_right hserved]
  · rw [kind_served_eq_degraded_iff, h.exists_iff (p := fun reply => reply.fails = true),
      and_iff_right hserved]
  · exact iff_of_false (fun hkind => hnone (Outcome.value?_eq_none_iff.2 (.inl hkind)))
      fun hfound => hnone hfound.1
  · exact iff_of_false (fun hkind => hnone (Outcome.value?_eq_none_iff.2 (.inr hkind)))
      fun hunmet => hnone hunmet.1
  · intro w' hw'
    obtain rfl := Option.some.inj (hvalue.symm.trans hw')
    have hloud : ¬ quiet = true ↔ ∃ host ∈ hosts, (said host).trails w.score = true := by
      rw [hquiet]
      simp only [not_forall, exists_prop, Bool.not_eq_false]
    rw [← if_congr hloud rfl rfl, ite_not]

/-- Without one nothing is served. -/
theorem decides_of_unmet (h : OneEach hosts said replies) (hsome : hosts ≠ [])
    (habout : ∀ host ∈ hosts, ∀ r, said host = .record r → r.field = field)
    (hunmet : quorum.met hosts.length (hosts.countP fun host => (said host).counts) = false) :
    Decides key field quorum hosts said
      (ofSelect key field quorum hosts.length replies) := by
  have hheld := h.length_held habout
  rw [ofSelect_of_unmet key (List.length_eq_zero_iff.not.2 hsome) (hheld ▸ hunmet)]
  set outcome : Outcome FieldValue := .short hosts.length (sentRecords replies).length
    (failures replies ++ absences replies)
  have hvalue : outcome.value? = none := Outcome.value?_short _ _ _
  have hserved : ¬ outcome.value?.isSome = true := by
    rw [hvalue]
    exact Bool.false_ne_true
  have hfound : outcome.kind = .notFound ↔ hosts = [] ∨
      (∃ host ∈ hosts, (said host).record? = none) ∧
        ∀ host ∈ hosts, (said host).fails = false := by
    rw [kind_short_eq_notFound_iff, h.forall_iff (p := fun reply => reply.fails = false),
      h.exists_iff (p := fun reply => reply.record? = none), or_iff_right hsome]
  refine ⟨iff_of_false hserved fun hmet => ?_, ?_, ?_, ?_, ?_, ?_, ?_, ?_,
    fun queue => queue.fst_offer _⟩
  · cases hunmet.symm.trans hmet.2
  · intro w hw
    cases hvalue.symm.trans hw
  · exact iff_of_false (fun hkind => hserved (Outcome.isSome_value?_iff.2 (.inl hkind)))
      fun hdone => hserved hdone.1
  · exact iff_of_false (fun hkind => hserved (Outcome.isSome_value?_iff.2 (.inr hkind)))
      fun hdegraded => hserved hdegraded.1
  · rw [hfound, and_iff_right hvalue]
  · rw [← hfound, and_iff_right hvalue]
    rcases Outcome.value?_eq_none_iff.1 hvalue with hkind | hkind <;> simp [hkind]
  · intro w hw
    cases hvalue.symm.trans hw
  · exact fun _ => if_congr h.length_sentRecords_pos_iff rfl rfl

end Verdict

namespace Site

variable {σ : Type} {fleet : Fleet σ} {site : Site σ} {shuffle : List Host → List Host}

/-- Where each host that a read goes to sends one reply, a record of the field, an absence or
a failure, what the read comes to is decided by what they say, in whatever order it arrives. -/
theorem select_decides (hdelivers : fleet.Delivers) (hreached : site.registry.Reached)
    (hshuffle : ∀ hosts, (shuffle hosts).Perm hosts) {key : Key} {field : Field}
    {quorum : Quorum} {said : Host → Reply}
    (hsaid : (fleet.contact (.select key field) (site.registry.read shuffle key quorum)
        site.world).1
      = (site.registry.read shuffle key quorum).map fun host => (host, [said host]))
    (habout : ∀ host ∈ site.registry.read shuffle key quorum, ∀ r, said host = .record r →
      r.field = field) :
    Verdict.Decides key field quorum (site.registry.read shuffle key quorum) said
      (site.select fleet shuffle key field quorum).1 := by
  have heach : OneEach (site.registry.read shuffle key quorum) said
      (fleet.scatter (site.registry.read shuffle key quorum) (.select key field) site.world).1 :=
    hdelivers.scatter_of_single hsaid
  have hdigest := hreached.sound.digest_inj_read hshuffle key quorum
  change Verdict.Decides key field quorum _ said (Verdict.ofSelect key field quorum
    (site.registry.read shuffle key quorum).length _)
  generalize site.registry.read shuffle key quorum = hosts at *
  by_cases hsome : hosts = []
  · subst hsome
    exact Verdict.decides_nobody key field quorum said
  · cases hmet : quorum.met hosts.length (hosts.countP fun host => (said host).counts) with
    | true => exact Verdict.decides_of_met heach hsome hdigest habout hmet
    | false => exact Verdict.decides_of_unmet heach hsome habout hmet

/-- Of three hosts one is behind: the read is done with what the others sent, and the field is
to be repaired. -/
theorem select_decides_of_lagging :
    let said : Host → Reply := fun host =>
      if host = "b" then .record ⟨"f", [2], 1⟩ else .record ⟨"f", [1], 5⟩
    let fleet := Fleet.scripted fun host => [said host]
    let site : Site Unit := ⟨.trio, ()⟩
    let v := (site.select fleet id "k" "f" .strong).1
    v.outcome = .done ⟨"f", [1], 5⟩ ∧ v.repairs = [⟨"k", "f", [1]⟩] ∧
      fleet.Delivers ∧ site.registry.Reached ∧ (∀ hosts, (id hosts : List Host).Perm hosts) ∧
      site.registry.read id "k" .strong = ["a", "b", "c"] ∧
      (fleet.contact (.select "k" "f") ["a", "b", "c"] ()).1
        = ["a", "b", "c"].map (fun host => (host, [said host])) ∧
      (∀ host ∈ ["a", "b", "c"], ∀ r, said host = .record r → r.field = "f") ∧
      Verdict.Decides "k" "f" .strong ["a", "b", "c"] said v := by
  intro said fleet site v
  have hhosts : site.registry.read id "k" .strong = ["a", "b", "c"] := by decide +kernel
  have hdelivers : fleet.Delivers := Fleet.delivers_prompt _
  have hreached : site.registry.Reached := Registry.reached_trio
  have hshuffle : ∀ hosts, (id hosts : List Host).Perm hosts := fun hosts => .refl hosts
  have hsaid : (fleet.contact (.select "k" "f") ["a", "b", "c"] ()).1
      = ["a", "b", "c"].map fun host => (host, [said host]) := by decide +kernel
  have habout : ∀ host ∈ ["a", "b", "c"], ∀ r, said host = .record r → r.field = "f" := by
    intro host _ r hr
    by_cases hb : host = "b"
    · cases (if_pos hb).symm.trans hr
      rfl
    · cases (if_neg hb).symm.trans hr
      rfl
  have hdecides := select_decides hdelivers hreached hshuffle (hhosts ▸ hsaid) (hhosts ▸ habout)
  rw [hhosts] at hdecides
  exact ⟨by decide +kernel, by decide +kernel, hdelivers, hreached, hshuffle, hhosts, hsaid, habout,
    hdecides⟩

/-- Where nobody is a member a strong read goes to nobody. All of nobody is a quorum, but
nothing is served. -/
theorem nothing_served_by_nobody :
    let said : Host → Reply := fun _ => .keys []
    let fleet := Fleet.scripted fun host => [said host]
    let site : Site Unit := ⟨.fresh, ()⟩
    let hosts := site.registry.read id "k" .strong
    let v := (site.select fleet id "k" "f" .strong).1
    fleet.Delivers ∧ site.registry.Reached ∧ (∀ hosts, (id hosts : List Host).Perm hosts) ∧
      hosts = [] ∧ v.outcome = .notFound ∧
      ¬ (v.outcome.value?.isSome = true ↔
        Quorum.strong.met hosts.length (hosts.countP fun host => (said host).counts) = true) := by
  intro said fleet site hosts v
  have hmade : Registry.new ⟨2, 64, 1⟩ "w" = .ok Registry.fresh := rfl
  exact ⟨Fleet.delivers_prompt _, .new hmade, fun hosts => .refl hosts, by decide +kernel,
    by decide +kernel, by decide +kernel⟩

end Site

end QuorumStore
