import QuorumStore.Proofs.Ballots

/-!
# The order of the replies to a read

The replies to a read may arrive in any order. What kind of outcome the caller is told of
does not depend on it, nor does the score of the record that is served. The value does
where two have the highest score, since the first of them is served. And whether there is a
repair does where a node sends both the highest score and a lower one, since its last score
counts: then it does so if nothing else would bring a repair about.
-/

namespace QuorumStore

/-! ## What has the highest score -/

/-- A record that holds the field, such that none does with a higher score. -/
def Topmost (field : Field) (replies : List Tagged) (r : FieldValue) : Prop :=
  r ∈ held field replies ∧ ∀ other ∈ held field replies, other.score ≤ r.score

section Orders

variable {field : Field} {replies replies' : List Tagged} {r r' : FieldValue}

theorem sentRecords_perm (h : replies'.Perm replies) :
    (sentRecords replies').Perm (sentRecords replies) :=
  h.filterMap _

theorem held_perm (h : replies'.Perm replies) :
    (held field replies').Perm (held field replies) :=
  (sentRecords_perm h).filter _

/-- The quorum is met in every order or in none. -/
theorem met_held_perm {quorum : Quorum} {total : Nat} {met : Bool} (h : replies'.Perm replies)
    (hmet : quorum.met total (held field replies).length = met) :
    quorum.met total (held field replies').length = met := by
  rw [(held_perm h).length_eq, hmet]

/-- What is topmost is so in every order. -/
theorem topmost_perm (h : replies'.Perm replies) :
    Topmost field replies' r ↔ Topmost field replies r := by
  unfold Topmost
  simp only [(held_perm h).mem_iff]

/-- Topmost records have one score. -/
theorem Topmost.score_eq (h : Topmost field replies r) (h' : Topmost field replies r') :
    r.score = r'.score :=
  Int.le_antisymm (h'.2 r h.1) (h.2 r' h'.1)

/-- What leads is topmost. -/
theorem Leads.topmost (h : Leads FieldValue.score r (held field replies)) :
    Topmost field replies r :=
  ⟨h.mem, h.le⟩

/-- A topmost record leads when it arrives first. -/
theorem Topmost.leads_cons {t : Tagged} (ht : t.2.record? = some r)
    (h : Topmost field (t :: replies) r) :
    Leads FieldValue.score r (held field (t :: replies)) := by
  have hholds : r.holds field = true := (List.mem_filter.1 h.1).2
  have hfirst : held field (t :: replies) = r :: held field replies := by
    have hrecords : sentRecords (t :: replies) = r :: sentRecords replies :=
      List.filterMap_cons_some ht
    rw [held, hrecords, List.filter_cons_of_pos hholds]
    rfl
  refine ⟨h.2, ?_⟩
  rw [hfirst, List.find?_cons_of_pos (by rw [decide_eq_true_eq])]

end Orders

namespace Verdict

variable {key : Key} {field : Field} {quorum : Quorum} {total : Nat}
  {replies replies' : List Tagged}

/-! ## What no order changes -/

/-- Two verdicts on a read tell the caller the same, apart from the value served and the
order of the failures. -/
structure Akin (v v' : Verdict FieldValue) : Prop where
  /-- The outcomes are of one kind. -/
  kind : v'.outcome.kind = v.outcome.kind
  /-- They tell of the same number of nodes asked, and of answers. -/
  counts : v'.outcome.counts? = v.outcome.counts?
  /-- They tell of the same failures. -/
  faults : v'.outcome.faults.Perm v.outcome.faults
  /-- They serve a record of the same field with the same score, or both none. -/
  served : v'.outcome.value?.map (fun w => (w.field, w.score))
    = v.outcome.value?.map fun w => (w.field, w.score)

theorem failures_perm (h : replies'.Perm replies) :
    (failures replies').Perm (failures replies) :=
  (Gathered.faults_perm h).filter _

theorem absences_perm (h : replies'.Perm replies) :
    (absences replies').Perm (absences replies) :=
  (Gathered.faults_perm h).filter _

/-- A record is served in the same way in every order, whichever record it is. -/
theorem served_perm (h : replies'.Perm replies) (w w' : FieldValue) :
    (served total replies' w').kind = (served total replies w).kind ∧
      (served total replies' w').counts? = (served total replies w).counts? := by
  unfold served
  rw [(failures_perm h).isEmpty_eq, (sentRecords_perm h).length_eq]
  split <;> exact ⟨rfl, rfl⟩

/-- The verdicts on replies in two orders. -/
theorem ofSelect_perm (h : replies'.Perm replies) :
    Akin (ofSelect key field quorum total replies) (ofSelect key field quorum total replies') := by
  by_cases hsome : total = 0
  · rw [ofSelect, ofSelect, if_pos hsome, if_pos hsome]
    exact ⟨rfl, rfl, .refl _, rfl⟩
  · cases hmet : quorum.met total (held field replies).length with
    | true =>
      obtain ⟨w, quiet, hleads, -, hv⟩ := ofSelect_of_met key hsome hmet
      obtain ⟨w', quiet', hleads', -, hv'⟩ := ofSelect_of_met key hsome (met_held_perm h hmet)
      have htop' := (topmost_perm h).1 hleads'.topmost
      have hfield : w'.field = w.field :=
        (mem_held.1 htop'.1).2.1.trans (mem_held.1 hleads.mem).2.1.symm
      rw [hv, hv']
      refine ⟨(served_perm h w w').1, (served_perm h w w').2, ?_, ?_⟩
      · rw [faults_served, faults_served]
        exact failures_perm h
      · rw [value?_served, value?_served, Option.map_some, Option.map_some, hfield,
          htop'.score_eq hleads.topmost]
    | false =>
      obtain ⟨hkind, hfaults⟩ := Outcome.short_perm (α := FieldValue) total
        (sentRecords replies).length ((failures_perm h).append (absences_perm h))
      rw [ofSelect_of_unmet key hsome hmet, ofSelect_of_unmet key hsome (met_held_perm h hmet),
        (sentRecords_perm h).length_eq]
      refine ⟨hkind, ?_, hfaults, ?_⟩
      · rw [Outcome.counts?_short, Outcome.counts?_short, hkind]
      · rw [Outcome.value?_short, Outcome.value?_short]

/-! ## What an order may change -/

/-- What keeps a read that serves a record free of the order of its replies: all topmost
records have one value, and where all replies hold the field and every node sent a topmost
record, none sent another as well. -/
structure OrderFree (field : Field) (replies : List Tagged) : Prop where
  /-- All topmost records have one value. -/
  untied : ∀ r r', Topmost field replies r → Topmost field replies r' → r.value = r'.value
  /-- If all replies hold the field, and every node sent a topmost record, there are none
  that are not topmost. -/
  steady : (∀ t ∈ replies, ∃ r, t.2.record? = some r ∧ r.holds field = true) →
    (∀ t ∈ replies, ∃ t' ∈ replies, t'.1 = t.1 ∧
      ∃ r, t'.2.record? = some r ∧ Topmost field replies r) →
    ∀ r ∈ held field replies, Topmost field replies r

/-- Being free of the order does not depend on the order. -/
theorem OrderFree.perm (hfree : OrderFree field replies) (h : replies'.Perm replies) :
    OrderFree field replies' := by
  refine ⟨fun r r' hr hr' => ?_, ?_⟩
  · exact hfree.untied r r' ((topmost_perm h).1 hr) ((topmost_perm h).1 hr')
  simp only [h.mem_iff, (held_perm h).mem_iff, topmost_perm h]
  exact hfree.steady

/-- If nothing is to be repaired in one order, nothing is in the other. -/
theorem OrderFree.quiet (hfree : OrderFree field replies) (h : replies'.Perm replies)
    {w : FieldValue} (htop : Topmost field replies w) (hquiet : Quiet field w.score replies) :
    Quiet field w.score replies' := by
  have hall : ∀ r ∈ held field replies, Topmost field replies r := by
    refine hfree.steady hquiet.holds fun t ht => ?_
    obtain ⟨t', ht', hnode, r, hr, hhigh⟩ := hquiet.exists_high ht
    exact ⟨t', ht', hnode, r, hr, hquiet.mem_held ht' hr,
      fun other hother => Int.le_trans (htop.2 other hother) hhigh⟩
  refine ⟨fun t ht => hquiet.holds t (h.mem_iff.1 ht), fun node score hlast => ?_⟩
  obtain ⟨t, ht, r, hr, -, rfl⟩ := mem_reports.1 (mem_of_last hlast)
  exact (hall r (hquiet.mem_held (h.mem_iff.1 ht) hr)).2 w htop.1

/-- The same value is served and the same is repaired, in whatever order the replies arrive. -/
def SameInEveryOrder (key : Key) (field : Field) (quorum : Quorum) (total : Nat)
    (replies : List Tagged) : Prop :=
  ∀ replies' : List Tagged, replies'.Perm replies →
    (ofSelect key field quorum total replies').outcome.value?
        = (ofSelect key field quorum total replies).outcome.value? ∧
      (ofSelect key field quorum total replies').repairs
        = (ofSelect key field quorum total replies).repairs

/-- What is free of the order is the same in every order. -/
theorem OrderFree.sameInEveryOrder (hsome : total ≠ 0)
    (hmet : quorum.met total (held field replies).length = true)
    (hfree : OrderFree field replies) : SameInEveryOrder key field quorum total replies := by
  intro replies' h
  obtain ⟨w, quiet, hleads, hquiet, hv⟩ := ofSelect_of_met key hsome hmet
  obtain ⟨w', quiet', hleads', hquiet', hv'⟩ := ofSelect_of_met key hsome (met_held_perm h hmet)
  have htop' := (topmost_perm h).1 hleads'.topmost
  obtain rfl : w' = w := by
    have hfield := (mem_held.1 htop'.1).2.1.trans (mem_held.1 hleads.mem).2.1.symm
    have hvalue := hfree.untied w' w htop' hleads.topmost
    have hscore := htop'.score_eq hleads.topmost
    rw [show w' = ⟨w'.field, w'.value, w'.score⟩ from rfl, hfield, hvalue, hscore]
  have hsame : quiet' = quiet := by
    rw [Bool.eq_iff_iff, hquiet, hquiet']
    exact ⟨(hfree.perm h).quiet h.symm hleads'.topmost, hfree.quiet h hleads.topmost⟩
  rw [hv, hv', hsame, value?_served, value?_served]
  exact ⟨rfl, rfl⟩

/-- So is a read that serves nothing. -/
theorem sameInEveryOrder_of_unmet
    (hunmet : total = 0 ∨ quorum.met total (held field replies).length = false) :
    SameInEveryOrder key field quorum total replies := by
  intro replies' h
  by_cases hsome : total = 0
  · rw [ofSelect, ofSelect, if_pos hsome, if_pos hsome]
    exact ⟨rfl, rfl⟩
  · have hfew : quorum.met total (held field replies).length = false :=
      hunmet.resolve_left hsome
    rw [ofSelect_of_unmet key hsome hfew, ofSelect_of_unmet key hsome (met_held_perm h hfew),
      Outcome.value?_short, Outcome.value?_short, (sentRecords_perm h).length_eq]
    exact ⟨rfl, rfl⟩

/-- If the served value is the same in every order, no two topmost records differ: each of
them is served when it arrives first. -/
theorem SameInEveryOrder.untied (h : SameInEveryOrder key field quorum total replies)
    (hsome : total ≠ 0) (hmet : quorum.met total (held field replies).length = true)
    {r r' : FieldValue} (hr : Topmost field replies r) (hr' : Topmost field replies r') :
    r = r' := by
  have hserves : ∀ r, Topmost field replies r →
      (ofSelect key field quorum total replies).outcome.value? = some r := by
    intro r htop
    obtain ⟨⟨t, ht, hrecord⟩, -⟩ := mem_held.1 htop.1
    have hperm : (t :: replies.erase t).Perm replies := (List.perm_cons_erase ht).symm
    have hleads := Topmost.leads_cons hrecord ((topmost_perm hperm).2 htop)
    rw [← (h _ hperm).1]
    obtain ⟨w, quiet, hleads', -, hv⟩ := ofSelect_of_met key hsome (met_held_perm hperm hmet)
    rw [hv, value?_served, hleads'.unique hleads]
  exact Option.some.inj ((hserves r hr).symm.trans (hserves r' hr'))

/-- Whether a read that serves a record is quiet is the same in every order. -/
theorem SameInEveryOrder.quiet_iff (h : SameInEveryOrder key field quorum total replies)
    (hsome : total ≠ 0) (hmet : quorum.met total (held field replies).length = true)
    {w : FieldValue} (htop : Topmost field replies w) (hperm : replies'.Perm replies) :
    Quiet field w.score replies' ↔ (ofSelect key field quorum total replies).repairs = [] := by
  rw [← (h _ hperm).2]
  obtain ⟨w', quiet, hleads, hquiet, hv⟩ := ofSelect_of_met key hsome (met_held_perm hperm hmet)
  rw [htop.score_eq ((topmost_perm hperm).1 hleads.topmost), ← hquiet, hv]
  cases quiet <;> simp

/-- A low score that arrives last is not quiet. -/
theorem not_quiet_append {winner : Int} {t : Tagged} {r : FieldValue}
    (ht : t.2.record? = some r) (hlow : r.score < winner) :
    ¬ Quiet field winner (replies ++ [t]) := by
  intro hquiet
  have hreports : (reports (replies ++ [t])).reverse
      = (t.1, r.score) :: (reports replies).reverse := by
    rw [reports, List.filterMap_append, List.reverse_append,
      List.filterMap_cons_some (by rw [ht]; rfl)]
    rfl
  have hlevel := hquiet.level t.1 r.score (by rw [hreports, List.lookup_cons_self])
  omega

/-- It is quiet if the high scores arrive last, one at least from each node. -/
theorem quiet_append {winner : Int} {lows tops : List Tagged}
    (hheld : ∀ t ∈ lows ++ tops, ∃ r, t.2.record? = some r ∧ r.holds field = true)
    (hhigh : ∀ t ∈ tops, ∀ r, t.2.record? = some r → winner ≤ r.score)
    (hall : ∀ t ∈ lows ++ tops, ∃ t' ∈ tops, t'.1 = t.1) :
    Quiet field winner (lows ++ tops) := by
  refine ⟨hheld, fun node score hlast => ?_⟩
  obtain ⟨t, ht, r, hr, rfl, -⟩ := mem_reports.1 (mem_of_last hlast)
  obtain ⟨t', ht', hnode⟩ := hall t ht
  obtain ⟨r', hr', -⟩ := hheld t' (List.mem_append_right _ ht')
  obtain ⟨last, htops⟩ := exists_last (mem_reports.2 ⟨t', ht', r', hr', hnode, rfl⟩)
  rw [reports, List.filterMap_append, List.reverse_append, List.lookup_append] at hlast
  change ((reports tops).reverse.lookup t.1).or _ = _ at hlast
  rw [htops, Option.some_or, Option.some.injEq] at hlast
  subst hlast
  obtain ⟨t'', ht'', r'', hr'', -, rfl⟩ := mem_reports.1 (mem_of_last htops)
  exact hhigh t'' ht'' r'' hr''

/-- If the repair is the same in every order, all replies hold the field and every node
sent a topmost record, then nothing else was sent. -/
theorem SameInEveryOrder.steady (h : SameInEveryOrder key field quorum total replies)
    (hsome : total ≠ 0) (hmet : quorum.met total (held field replies).length = true)
    (hheld : ∀ t ∈ replies, ∃ r, t.2.record? = some r ∧ r.holds field = true)
    (hall : ∀ t ∈ replies, ∃ t' ∈ replies, t'.1 = t.1 ∧
      ∃ r, t'.2.record? = some r ∧ Topmost field replies r)
    {r : FieldValue} (hr : r ∈ held field replies) : Topmost field replies r := by
  obtain ⟨⟨t, ht, hrecord⟩, -⟩ := mem_held.1 hr
  obtain ⟨_, -, -, w, -, hw⟩ := hall t ht
  by_contra hlower
  have hlow : r.score < w.score := by
    by_contra hle
    exact hlower ⟨hr, fun other hother => Int.le_trans (hw.2 other hother) (Int.not_lt.1 hle)⟩
  -- in one order the topmost records come last, in the other the lower one
  let isTop : Tagged → Bool := fun t => t.2.record?.any fun r => decide (w.score ≤ r.score)
  have hperm : (replies.filter (fun t => !isTop t) ++ replies.filter isTop).Perm replies :=
    List.perm_append_comm.trans (List.filter_append_perm isTop replies)
  have hquiet : Quiet field w.score
      (replies.filter (fun t => !isTop t) ++ replies.filter isTop) := by
    refine quiet_append (fun t ht => hheld t (hperm.mem_iff.1 ht)) ?_ fun t ht => ?_
    · intro t ht r hr
      have htop := (List.mem_filter.1 ht).2
      simp only [isTop, hr, Option.any_some, decide_eq_true_eq] at htop
      exact htop
    · obtain ⟨t', ht', hnode, top, htop, hmost⟩ := hall t (hperm.mem_iff.1 ht)
      refine ⟨t', List.mem_filter.2 ⟨ht', ?_⟩, hnode⟩
      simp only [isTop, htop, Option.any_some, decide_eq_true_eq]
      exact hmost.2 w hw.1
  have hperm' : (replies.erase t ++ [t]).Perm replies :=
    List.perm_append_comm.trans (List.perm_cons_erase ht).symm
  exact not_quiet_append hrecord hlow ((h.quiet_iff hsome hmet hw hperm').2
    ((h.quiet_iff hsome hmet hw hperm).1 hquiet))

/-- The value served and the repair are the same in every order exactly if the replies are
free of the order, or no record is served. -/
theorem sameInEveryOrder_iff (key : Key) :
    SameInEveryOrder key field quorum total replies ↔
      (total ≠ 0 → quorum.met total (held field replies).length = true →
        OrderFree field replies) := by
  constructor
  · intro h hsome hmet
    refine ⟨fun r r' hr hr' => ?_, fun hheld hall r hr => h.steady hsome hmet hheld hall hr⟩
    rw [h.untied hsome hmet hr hr']
  · intro hfree
    by_cases hsome : total = 0
    · exact sameInEveryOrder_of_unmet (.inl hsome)
    · cases hmet : quorum.met total (held field replies).length with
      | true => exact (hfree hsome hmet).sameInEveryOrder hsome hmet
      | false => exact sameInEveryOrder_of_unmet (.inr hmet)

/-- A node sends two scores. A repair is wanted if the higher one comes first. -/
example :
    let low : Tagged := (7, .record ⟨"f", [1], 1⟩)
    let high : Tagged := (7, .record ⟨"f", [2], 2⟩)
    (ofSelect "k" "f" .strong 2 [low, high]).repairs = [] ∧
      (ofSelect "k" "f" .strong 2 [high, low]).repairs = [⟨"k", "f", [2]⟩] := by
  decide +kernel

end Verdict

/-! ## The read -/

namespace Site

variable {σ : Type}

/-- What arrives may be rearranged into any other order. -/
theorem exists_reorders (fleet : Fleet σ) (hosts : List Host) (call : Call) (s : σ)
    {replies' : List Tagged} (h : replies'.Perm (fleet.scatter hosts call s).1) :
    ∃ fleet' : Fleet σ, fleet.Reorders fleet' ∧ (fleet'.scatter hosts call s).1 = replies' := by
  let arrange : List Tagged → List Tagged := fun replies =>
    if replies = (fleet.scatter hosts call s).1 then replies' else replies
  have hreorders : fleet.Reorders (fleet.rearranged arrange) := by
    refine fleet.reorders_rearranged fun replies => ?_
    by_cases he : replies = (fleet.scatter hosts call s).1
    · rw [show arrange replies = replies' from if_pos he, he]
      exact h
    · rw [show arrange replies = replies from if_neg he]
  refine ⟨_, hreorders, ?_⟩
  rw [Fleet.scatter, hreorders.contact]
  exact if_pos rfl

/-- Whatever the nodes send to a read, the order in which it arrives does not change the
kind of the outcome, the counts, the failures, nor the field and the score that are served.
It does not change the value served and the repair either exactly if no record is served,
or the topmost records have one value and no node that sent one sent a lower score as well
where this alone could bring a repair about. -/
theorem select_order (site : Site σ) (fleet : Fleet σ) (shuffle : List Host → List Host)
    (key : Key) (field : Field) (quorum : Quorum) :
    let hosts := site.registry.read shuffle key quorum
    let replies := (fleet.scatter hosts (.select key field) site.world).1
    let v := (site.select fleet shuffle key field quorum).1
    (∀ fleet' : Fleet σ, fleet.Reorders fleet' →
      v.Akin (site.select fleet' shuffle key field quorum).1) ∧
    ((∀ fleet' : Fleet σ, fleet.Reorders fleet' →
        let v' := (site.select fleet' shuffle key field quorum).1
        v'.outcome.value? = v.outcome.value? ∧ v'.repairs = v.repairs) ↔
      (hosts.length ≠ 0 → quorum.met hosts.length (held field replies).length = true →
        Verdict.OrderFree field replies)) := by
  intro hosts replies v
  refine ⟨fun fleet' h => ?_, ?_⟩
  · exact Verdict.ofSelect_perm (h.scatter (.select key field) hosts site.world)
  rw [← Verdict.sameInEveryOrder_iff key]
  constructor
  · intro h replies' hperm
    obtain ⟨fleet', hreorders, rfl⟩ :=
      exists_reorders fleet hosts (.select key field) site.world hperm
    exact h fleet' hreorders
  · intro h fleet' hreorders
    exact h _ (hreorders.scatter (.select key field) hosts site.world)

/-- Two hosts hold different values with the same score. The one that is heard first is
served. -/
theorem select_order_of_rivals :
    let fleet := Fleet.scripted fun host =>
      if host = "a" then [.record ⟨"f", [1], 1⟩] else [.record ⟨"f", [2], 1⟩]
    let backwards := fleet.rearranged List.reverse
    let site : Site Unit := ⟨.duo, ()⟩
    fleet.Reorders backwards ∧
      (site.select fleet id "k" "f" .strong).1.outcome = .done ⟨"f", [1], 1⟩ ∧
      (site.select backwards id "k" "f" .strong).1.outcome = .done ⟨"f", [2], 1⟩ :=
  ⟨Fleet.reorders_rearranged _ List.reverse_perm, by decide +kernel, by decide +kernel⟩

end Site

end QuorumStore
