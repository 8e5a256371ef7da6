import QuorumStore.Proofs.Healthy
import QuorumStore.Proofs.SingleReplies

/-!
# Reads from healthy replicas

A healthy replica answers a read with the live record that its store has for the
field, or says that it has none. So what a read comes to depends on the stores
alone: the records that are live and have no negative score are counted, and if
they meet the quorum one with the highest score is served. Else the field is not
found, unless every store sent a record; then all were discarded for their scores.
-/

namespace QuorumStore

/-- A result is kept exactly if there is one. -/
theorem toOption_eq_some_iff {α : Type} {result : Except Fault α} {value : α} :
    result.toOption = some value ↔ result = .ok value := by
  cases result <;> simp [Except.toOption]

namespace Store

/-- A store without a live record of a field says so. -/
theorem select_eq_error {store : Store} {key : Key} {field : Field}
    (h : ∀ c, store.cell? key field = some c → c.live = false) :
    store.select key field = .error (.notFound (key ++ "/" ++ field)) := by
  unfold select
  cases hc : store.cell? key field with
  | none => rfl
  | some c =>
    dsimp only
    rw [if_neg (Bool.not_eq_true _ ▸ h c hc)]

/-- A store with a live record of a field serves it. -/
theorem select_eq_ok {store : Store} {key : Key} {field : Field} {c : Cell}
    (h : store.cell? key field = some c) (hlive : c.live = true) :
    store.select key field = .ok ⟨field, c.value, c.score⟩ := by
  rw [select, h]
  exact if_pos hlive

/-- What a store sends to a read is a record if the read succeeds. -/
theorem record?_answer (store : Store) (key : Key) (field : Field) :
    (store.answer (.select key field)).1.record? = (store.select key field).toOption := by
  rw [answer]
  cases store.select key field <;> rfl

/-- It is an absence otherwise. -/
theorem isAbsence_answer {store : Store} {key : Key} {field : Field}
    (h : (store.select key field).toOption = none) :
    (store.answer (.select key field)).1.isAbsence = true := by
  by_cases hlive : ∃ c, store.cell? key field = some c ∧ c.live = true
  · obtain ⟨c, hc, hl⟩ := hlive
    rw [select_eq_ok hc hl] at h
    cases h
  · have hdead : ∀ c, store.cell? key field = some c → c.live = false := fun c hc =>
      Bool.eq_false_of_not_eq_true fun hl => hlive ⟨c, hc, hl⟩
    rw [answer, select_eq_error hdead]
    rfl

end Store

/-- The live records of a field that some hosts have. -/
def liveRecords (held : Host → Store) (hosts : List Host) (key : Key) (field : Field) :
    List FieldValue :=
  hosts.filterMap fun host => ((held host).select key field).toOption

/-- Those among them that a read counts: the ones without a negative score. -/
def liveValues (held : Host → Store) (hosts : List Host) (key : Key) (field : Field) :
    List FieldValue :=
  (liveRecords held hosts key field).filter (FieldValue.holds field)

theorem mem_liveRecords {held : Host → Store} {hosts : List Host} {key : Key} {field : Field}
    {r : FieldValue} : r ∈ liveRecords held hosts key field ↔
      ∃ host ∈ hosts, (held host).select key field = .ok r := by
  simp only [liveRecords, List.mem_filterMap, toOption_eq_some_iff]

/-- There are as many records as hosts exactly if every host has one. -/
theorem length_liveRecords_iff {held : Host → Store} {hosts : List Host} {key : Key}
    {field : Field} : (liveRecords held hosts key field).length = hosts.length ↔
      ∀ host ∈ hosts, ∃ r, (held host).select key field = .ok r := by
  simp only [liveRecords, List.length_filterMap_eq_countP, List.countP_eq_length,
    Option.isSome_iff_exists, toOption_eq_some_iff]

namespace Fleet.Healthy

variable {σ : Type} {fleet : Fleet σ} {stores : σ → Host → Store} {hosts : List Host}
  {quorum : Quorum} (healthy : fleet.Healthy stores) (hnodup : hosts.Nodup) (key : Key)
  (field : Field) (s : σ)

include healthy hnodup

/-- Healthy hosts each answer a read, and the answers arrive in some order. -/
theorem oneEach :
    OneEach hosts (fun host => ((stores s host).answer (.select key field)).1)
      (fleet.scatter hosts (.select key field) s).1 :=
  (healthy.scatter (.select key field) hnodup s).1

/-- The records among the replies are the live ones. -/
theorem sentRecords_perm :
    (sentRecords (fleet.scatter hosts (.select key field) s).1).Perm
      (liveRecords (stores s) hosts key field) := by
  refine (healthy.oneEach hnodup key field s).sentRecords_perm.trans ?_
  refine List.Perm.of_eq (congrArg (hosts.filterMap ·) (funext fun host => ?_))
  exact Store.record?_answer (stores s host) key field

/-- The records that hold the field are those that a read counts. -/
theorem held_perm :
    (held field (fleet.scatter hosts (.select key field) s).1).Perm
      (liveValues (stores s) hosts key field) :=
  (healthy.sentRecords_perm hnodup key field s).filter _

/-- Every failure is an absence. -/
theorem failures_eq_nil :
    Verdict.failures (fleet.scatter hosts (.select key field) s).1 = [] := by
  rw [Verdict.failures_eq_nil_iff,
    (healthy.oneEach hnodup key field s).forall_iff (p := fun reply => reply.fails = false)]
  intro host _
  rw [Reply.fails_eq_false_iff, Store.record?_answer]
  exact Store.isAbsence_answer

/-- There is an absence unless every host has a live record. -/
theorem absences_eq_nil_iff :
    Verdict.absences (fleet.scatter hosts (.select key field) s).1 = [] ↔
      ∀ host ∈ hosts, ∃ r, (stores s host).select key field = .ok r := by
  rw [Verdict.absences_eq_nil_iff (healthy.failures_eq_nil hnodup key field s),
    (healthy.oneEach hnodup key field s).forall_iff (p := fun reply => reply.record?.isSome = true)]
  simp only [Store.record?_answer, Option.isSome_iff_exists, toOption_eq_some_iff]

/-- Nothing is to be repaired exactly if every host has a live record that is as good as
the one served. -/
theorem quiet_iff
    (hdigest : ∀ a ∈ hosts, ∀ b ∈ hosts, Registry.digest a = Registry.digest b → a = b)
    {winner : Int} :
    Verdict.Quiet field winner (fleet.scatter hosts (.select key field) s).1 ↔
      ∀ host ∈ hosts, ∃ r, (stores s host).select key field = .ok r ∧ r.holds field = true ∧
        winner ≤ r.score := by
  rw [(healthy.oneEach hnodup key field s).quiet_iff hdigest]
  simp only [Store.record?_answer, toOption_eq_some_iff]

/-- A read whose quorum is met serves a record with the highest score, and asks for a
repair unless every host has one as good. -/
theorem ofSelect_of_met
    (hdigest : ∀ a ∈ hosts, ∀ b ∈ hosts, Registry.digest a = Registry.digest b → a = b)
    (hsome : hosts ≠ [])
    (hmet : quorum.met hosts.length (liveValues (stores s) hosts key field).length = true) :
    ∃ w ∈ liveValues (stores s) hosts key field, ∃ quiet : Bool,
      (∀ r ∈ liveValues (stores s) hosts key field, r.score ≤ w.score) ∧
      (quiet = true ↔ ∀ host ∈ hosts, ∃ r, (stores s host).select key field = .ok r ∧
        r.holds field = true ∧ w.score ≤ r.score) ∧
      Verdict.ofSelect key field quorum hosts.length
          (fleet.scatter hosts (.select key field) s).1
        = ⟨.done w, [], if quiet then [] else [⟨key, field, w.value⟩]⟩ := by
  have hheld := healthy.held_perm hnodup key field s
  rw [← hheld.length_eq] at hmet
  obtain ⟨w, quiet, hleads, hquiet, hv⟩ := Verdict.ofSelect_of_met key
    (List.length_eq_zero_iff.not.2 hsome) hmet
  refine ⟨w, hheld.mem_iff.1 hleads.mem, quiet, fun r hr => hleads.le r (hheld.mem_iff.2 hr),
    hquiet.trans (healthy.quiet_iff hnodup key field s hdigest), ?_⟩
  rw [hv, Verdict.served, healthy.failures_eq_nil hnodup key field s]
  rfl

/-- A read whose quorum is not met does not find the field, unless every host sent a
record. -/
theorem ofSelect_of_unmet
    (hsome : hosts ≠ [])
    (hunmet : quorum.met hosts.length (liveValues (stores s) hosts key field).length = false) :
    Verdict.ofSelect key field quorum hosts.length (fleet.scatter hosts (.select key field) s).1
      = ⟨if (liveRecords (stores s) hosts key field).length = hosts.length
          then .unmet hosts.length hosts.length [] else .notFound, [],
        if 0 < (liveRecords (stores s) hosts key field).length
          then [⟨key, field, []⟩] else []⟩ := by
  have hheld := healthy.held_perm hnodup key field s
  have hsent := healthy.sentRecords_perm hnodup key field s
  rw [← hheld.length_eq] at hunmet
  rw [Verdict.ofSelect_of_unmet key (List.length_eq_zero_iff.not.2 hsome) hunmet,
    healthy.failures_eq_nil hnodup key field s, List.nil_append, hsent.length_eq]
  have habsent : (Verdict.absences (fleet.scatter hosts (.select key field) s).1).all
      Fault.isNotFound = true :=
    List.all_eq_true.2 fun f hf => (List.mem_filter.1 hf).2
  rw [Outcome.short, habsent, Bool.and_true]
  congr 1
  by_cases hall : (liveRecords (stores s) hosts key field).length = hosts.length
  · have hnone := (healthy.absences_eq_nil_iff hnodup key field s).2 (length_liveRecords_iff.1 hall)
    rw [hnone, if_pos hall, hall]
    rfl
  · have hmissing : Verdict.absences (fleet.scatter hosts (.select key field) s).1 ≠ [] :=
      fun hnone => hall (length_liveRecords_iff.2
        ((healthy.absences_eq_nil_iff hnodup key field s).1 hnone))
    rw [if_neg hall, List.isEmpty_eq_false_iff.2 hmissing]
    rfl

/-- Where a host has no live record, a read whose quorum is met asks for a repair of the
field, and otherwise it does not find the field. -/
theorem ofSelect_of_missing
    (hdigest : ∀ a ∈ hosts, ∀ b ∈ hosts, Registry.digest a = Registry.digest b → a = b)
    {gone : Host} (hgone : gone ∈ hosts)
    (hmissing : ∀ r, (stores s gone).select key field ≠ .ok r) :
    let values := liveValues (stores s) hosts key field
    let v := Verdict.ofSelect key field quorum hosts.length
      (fleet.scatter hosts (.select key field) s).1
    if quorum.met hosts.length values.length = true then
      ∃ w ∈ values, (∀ r ∈ values, r.score ≤ w.score) ∧
        v.outcome = .done w ∧ v.repairs = [⟨key, field, w.value⟩]
    else v.outcome = .notFound := by
  intro values v
  have hsome : hosts ≠ [] := List.ne_nil_of_mem hgone
  split
  · next hmet =>
    obtain ⟨w, hw, quiet, hmax, hquiet, hv⟩ :=
      healthy.ofSelect_of_met hnodup key field s hdigest hsome hmet
    have hv' : v = ⟨.done w, [], if quiet then [] else [⟨key, field, w.value⟩]⟩ := hv
    have hloud : quiet = false := Bool.eq_false_of_not_eq_true fun htrue => by
      obtain ⟨r, hr, -⟩ := hquiet.1 htrue gone hgone
      exact hmissing r hr
    rw [hv', hloud]
    exact ⟨w, hw, hmax, rfl, rfl⟩
  · next hmet =>
    have hfewer : (liveRecords (stores s) hosts key field).length ≠ hosts.length := fun hall => by
      obtain ⟨r, hr⟩ := length_liveRecords_iff.1 hall gone hgone
      exact hmissing r hr
    have hv := healthy.ofSelect_of_unmet hnodup key field s hsome
      (Bool.eq_false_of_not_eq_true hmet)
    rw [if_neg hfewer] at hv
    exact congrArg Verdict.outcome hv

/-- A read serves the record that every host has, without a repair, unless its score is
negative. Then it counts nowhere, and the quorum is unmet. -/
theorem ofSelect_of_alike (quorum : Quorum) {m : FieldValue} (hfield : m.field = field)
    (hdigest : ∀ a ∈ hosts, ∀ b ∈ hosts, Registry.digest a = Registry.digest b → a = b)
    (hsome : hosts ≠ [])
    (hall : ∀ host ∈ hosts, (stores s host).select key field = .ok m) :
    Verdict.ofSelect key field quorum hosts.length (fleet.scatter hosts (.select key field) s).1
      = if 0 ≤ m.score then ⟨.done m, [], []⟩
        else ⟨.unmet hosts.length hosts.length [], [], [⟨key, field, []⟩]⟩ := by
  have htotal : hosts.length ≠ 0 := List.length_eq_zero_iff.not.2 hsome
  have hfull : (liveRecords (stores s) hosts key field).length = hosts.length :=
    length_liveRecords_iff.2 fun host hm => ⟨m, hall host hm⟩
  have honly : ∀ r ∈ liveRecords (stores s) hosts key field, r = m := by
    intro r hr
    obtain ⟨host, hm, hserves⟩ := mem_liveRecords.1 hr
    exact Except.ok.inj (hserves.symm.trans (hall host hm))
  split
  · next hpositive =>
    have hholds : m.holds field = true := FieldValue.holds_iff.2 ⟨hfield, hpositive⟩
    have hvalues : liveValues (stores s) hosts key field
        = liveRecords (stores s) hosts key field :=
      List.filter_eq_self.2 fun r hr => honly r hr ▸ hholds
    obtain ⟨w, hw, quiet, -, hquiet, hv⟩ := healthy.ofSelect_of_met hnodup key field s hdigest
      hsome (by rw [hvalues, hfull, quorum.met_all htotal])
    obtain rfl := honly w (hvalues ▸ hw)
    rw [hv, hquiet.2 fun host hm => ⟨w, hall host hm, hholds, Int.le_refl _⟩]
    rfl
  · next hnegative =>
    have hvalues : liveValues (stores s) hosts key field = [] :=
      List.filter_eq_nil_iff.2 fun r hr hholds =>
        hnegative (honly r hr ▸ (FieldValue.holds_iff.1 hholds).2)
    rw [healthy.ofSelect_of_unmet hnodup key field s hsome
      (by rw [hvalues, List.length_nil, quorum.met_none htotal]), if_pos hfull, hfull,
      if_pos (Nat.pos_of_ne_zero htotal)]

end Fleet.Healthy

end QuorumStore
