import QuorumStore.Proofs.Ballots

/-!
# Reads that ask for no repair

A read that is done and asks for no repair has found no difference between the nodes that
it went to. That does not mean that there is none. Differences are found by presence and by
score alone: a node that says nothing is not missed, of a node that contradicts itself only
the last score counts, and two values with the same score pass for one. Where none of the
three happens, every node has sent the record that is served.
-/

namespace QuorumStore

/-- What was sent to a read of a field that served a record and asked for no repair, by
host. -/
structure Unsuspected (field : Field) (w : FieldValue) (streams : List (Host × List Reply)) :
    Prop where
  /-- The record served was sent. -/
  sent : ∃ stream ∈ streams, .record w ∈ stream.2
  /-- Nothing was sent but records of the field, none with a higher score. -/
  records : ∀ stream ∈ streams, ∀ reply ∈ stream.2,
    ∃ r, reply = .record r ∧ r.field = field ∧ 0 ≤ r.score ∧ r.score ≤ w.score
  /-- Every host that sent something sent the score that is served. -/
  level : ∀ stream ∈ streams, stream.2 ≠ [] → ∃ r, .record r ∈ stream.2 ∧ r.score = w.score

variable {field : Field} {w : FieldValue} {streams : List (Host × List Reply)}

/-- Every host sent the record served, and nothing else, exactly if no host was silent, none
contradicted itself about the score, and there were no two values with the same score. -/
theorem Unsuspected.exact_iff (h : Unsuspected field w streams) :
    (∀ stream ∈ streams, stream.2 ≠ [] ∧ ∀ reply ∈ stream.2, reply = .record w) ↔
      (∀ stream ∈ streams, stream.2 ≠ []) ∧
      (∀ stream ∈ streams, ∀ r r', .record r ∈ stream.2 → .record r' ∈ stream.2 →
        r.score = r'.score) ∧
      ∀ stream ∈ streams, ∀ stream' ∈ streams, ∀ r r', .record r ∈ stream.2 →
        .record r' ∈ stream'.2 → r.score = r'.score → r.value = r'.value := by
  constructor
  · intro hall
    have hsame : ∀ stream ∈ streams, ∀ r, .record r ∈ stream.2 → r = w := by
      intro stream hstream r hr
      exact Reply.record.inj ((hall stream hstream).2 _ hr)
    refine ⟨fun stream hstream => (hall stream hstream).1, ?_, ?_⟩
    · intro stream hstream r r' hr hr'
      rw [hsame stream hstream r hr, hsame stream hstream r' hr']
    · intro stream hstream stream' hstream' r r' hr hr' _
      rw [hsame stream hstream r hr, hsame stream' hstream' r' hr']
  · rintro ⟨hspoke, hsteady, huntied⟩ stream hstream
    refine ⟨hspoke stream hstream, fun reply hreply => ?_⟩
    obtain ⟨r, rfl, hfield, -, -⟩ := h.records stream hstream reply hreply
    obtain ⟨top, htop, hlevel⟩ := h.level stream hstream (hspoke stream hstream)
    obtain ⟨served, hserved, hw⟩ := h.sent
    obtain ⟨_, hrecord, hfield', -, -⟩ := h.records served hserved _ hw
    cases hrecord
    have hscore : r.score = w.score := (hsteady stream hstream r top hreply htop).trans hlevel
    have hvalue := huntied stream hstream served hserved r w hreply hw hscore
    have hr : r = ⟨w.field, w.value, w.score⟩ := by
      rw [hfield', ← hfield, ← hvalue, ← hscore]
    rw [hr]

namespace Site

variable {σ : Type} {fleet : Fleet σ} {site : Site σ} {shuffle : List Host → List Host}

/-- Where a read was done and asks for no repair, nothing that was sent was suspect. -/
theorem unsuspected_of_done (hdelivers : fleet.Delivers) (hreached : site.registry.Reached)
    (hshuffle : ∀ hosts, (shuffle hosts).Perm hosts) {key : Key} {field : Field}
    {quorum : Quorum} {w : FieldValue}
    (hdone : (site.select fleet shuffle key field quorum).1.outcome = .done w)
    (hnone : (site.select fleet shuffle key field quorum).1.repairs = []) :
    Unsuspected field w (fleet.contact (.select key field)
      (site.registry.read shuffle key quorum) site.world).1 := by
  set hosts := site.registry.read shuffle key quorum
  set streams := (fleet.contact (.select key field) hosts site.world).1
  obtain ⟨hleads, hquiet⟩ : Leads FieldValue.score w _ ∧ Verdict.Quiet field w.score
      (fleet.scatter hosts (.select key field) site.world).1 := Verdict.quiet_of_done hdone hnone
  have harrives {stream : Host × List Reply} (hstream : stream ∈ streams) {reply : Reply}
      (hreply : reply ∈ stream.2) : (Murmur.textDigest stream.1, reply)
        ∈ (fleet.scatter hosts (.select key field) site.world).1 :=
    hdelivers.mem_scatter.2 ⟨stream, hstream, rfl, hreply⟩
  have hhosts : streams.map Prod.fst = hosts := fleet.contact_hosts _ hosts site.world
  have hin {stream : Host × List Reply} (hstream : stream ∈ streams) :
      stream.1 ∈ site.registry.ring.members :=
    hreached.sound.mem_read hshuffle (hhosts ▸ List.mem_map_of_mem hstream)
  have hnodup : (streams.map Prod.fst).Nodup :=
    hhosts ▸ hreached.sound.nodup_read hshuffle key quorum
  refine ⟨?_, ?_, ?_⟩
  · obtain ⟨⟨t, ht, hw⟩, -⟩ := mem_held.1 hleads.mem
    obtain ⟨stream, hstream, -, hreply⟩ := hdelivers.mem_scatter.1 ht
    exact ⟨stream, hstream, Reply.record?_eq_some_iff.1 hw ▸ hreply⟩
  · intro stream hstream reply hreply
    obtain ⟨r, hr, -⟩ := hquiet.holds _ (harrives hstream hreply)
    have hheld := hquiet.mem_held (harrives hstream hreply) hr
    obtain ⟨-, hfield, hlive⟩ := mem_held.1 hheld
    exact ⟨r, Reply.record?_eq_some_iff.1 hr, hfield, hlive, hleads.le r hheld⟩
  · intro stream hstream hspoke
    obtain ⟨reply, hreply⟩ := List.exists_mem_of_ne_nil _ hspoke
    obtain ⟨t, ht, hnode, r, hr, hhigh⟩ := hquiet.exists_high (harrives hstream hreply)
    obtain ⟨stream', hstream', hdigest, hreply'⟩ := hdelivers.mem_scatter.1 ht
    -- digests tell hosts of the ring apart, and each host was asked once
    have hhost : stream'.1 = stream.1 :=
      hreached.sound.digest_inj (hin hstream') (hin hstream) (hdigest.trans hnode)
    obtain rfl : stream' = stream := List.inj_on_of_nodup_map hnodup hstream' hstream hhost
    rw [Reply.record?_eq_some_iff.1 hr] at hreply'
    exact ⟨r, hreply', Int.le_antisymm (hleads.le r (hquiet.mem_held ht hr)) hhigh⟩

/-- A read that is done and asks for no repair has found nothing to suspect. Its hosts have
all sent exactly the record served under three conditions, and only then: no host was
silent, none contradicted itself about the score, and no two values had the same score. -/
theorem exact_iff_of_done (hdelivers : fleet.Delivers) (hreached : site.registry.Reached)
    (hshuffle : ∀ hosts, (shuffle hosts).Perm hosts) {key : Key} {field : Field}
    {quorum : Quorum} {w : FieldValue}
    (hdone : (site.select fleet shuffle key field quorum).1.outcome = .done w)
    (hnone : (site.select fleet shuffle key field quorum).1.repairs = []) :
    let hosts := site.registry.read shuffle key quorum
    let streams := (fleet.contact (.select key field) hosts site.world).1
    Unsuspected field w streams ∧
      ((∀ stream ∈ streams, stream.2 ≠ [] ∧ ∀ reply ∈ stream.2, reply = .record w) ↔
        (∀ stream ∈ streams, stream.2 ≠ []) ∧
        (∀ stream ∈ streams, ∀ r r', .record r ∈ stream.2 → .record r' ∈ stream.2 →
          r.score = r'.score) ∧
        ∀ stream ∈ streams, ∀ stream' ∈ streams, ∀ r r', .record r ∈ stream.2 →
          .record r' ∈ stream'.2 → r.score = r'.score → r.value = r'.value) := by
  intro hosts streams
  have h := unsuspected_of_done hdelivers hreached hshuffle hdone hnone
  exact ⟨h, h.exact_iff⟩

/-- Two hosts that hold the same record. -/
theorem exact_of_twins :
    let fleet := Fleet.scripted fun _ => [.record ⟨"f", [1], 1⟩]
    let site : Site Unit := ⟨.duo, ()⟩
    let streams := (fleet.contact (.select "k" "f") ["a", "b"] ()).1
    fleet.Delivers ∧ site.registry.Reached ∧ (∀ hosts, (id hosts : List Host).Perm hosts) ∧
      (site.select fleet id "k" "f" .strong).1.outcome = .done ⟨"f", [1], 1⟩ ∧
      (site.select fleet id "k" "f" .strong).1.repairs = [] ∧
      ∀ stream ∈ streams, stream.2 ≠ [] ∧ ∀ reply ∈ stream.2, reply = .record ⟨"f", [1], 1⟩ := by
  intro fleet site streams
  have hdone : (site.select fleet id "k" "f" .strong).1.outcome = .done ⟨"f", [1], 1⟩ := by
    decide +kernel
  have hnone : (site.select fleet id "k" "f" .strong).1.repairs = [] := by decide +kernel
  have hshuffle : ∀ hosts, (id hosts : List Host).Perm hosts := fun hosts => .refl hosts
  have hhosts : site.registry.read id "k" .strong = ["a", "b"] := by decide +kernel
  have hexact := (exact_iff_of_done (Fleet.delivers_prompt _) Registry.reached_duo hshuffle hdone
    hnone).2
  rw [hhosts] at hexact
  have honly : ∀ stream ∈ streams, ∀ r, .record r ∈ stream.2 → r = ⟨"f", [1], 1⟩ := by
    have hall : ∀ stream ∈ streams, stream.2 = [.record ⟨"f", [1], 1⟩] := by decide +kernel
    intro stream hstream r hr
    rw [hall stream hstream, List.mem_singleton] at hr
    exact Reply.record.inj hr
  refine ⟨Fleet.delivers_prompt _, Registry.reached_duo, hshuffle, hdone, hnone,
    hexact.2 ⟨by decide +kernel, ?_, ?_⟩⟩
  · intro stream hstream r r' hr hr'
    rw [honly stream hstream r hr, honly stream hstream r' hr']
  · intro stream hstream stream' hstream' r r' hr hr' _
    rw [honly stream hstream r hr, honly stream' hstream' r' hr']

/-- Two hosts hold different values with the same score. A read of both is done with the
value of one, and asks for no repair. -/
theorem quiet_of_rivals :
    let fleet := Fleet.scripted fun host =>
      if host = "a" then [.record ⟨"f", [1], 1⟩] else [.record ⟨"f", [2], 1⟩]
    let site : Site Unit := ⟨.duo, ()⟩
    let v := (site.select fleet id "k" "f" .strong).1
    fleet.Delivers ∧ site.registry.Reached ∧
      v.outcome = .done ⟨"f", [1], 1⟩ ∧ v.repairs = [] ∧
      ¬ ∀ stream ∈ (fleet.contact (.select "k" "f") (site.registry.read id "k" .strong) ()).1,
        stream.2 ≠ [] ∧ ∀ reply ∈ stream.2, reply = .record ⟨"f", [1], 1⟩ :=
  ⟨Fleet.delivers_prompt _, Registry.reached_duo, by decide +kernel, by decide +kernel,
    by decide +kernel⟩

end Site

end QuorumStore
