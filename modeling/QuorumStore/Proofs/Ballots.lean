import Mathlib.Algebra.GroupWithZero.Nat
import Mathlib.Data.List.Dedup
import QuorumStore.Proofs.Acknowledged
import QuorumStore.Proofs.Answers
import QuorumStore.Proofs.ServedRecord

/-!
# One node, one vote

A verdict counts the answers that arrive. Its quorum is one of nodes, so the count
is right as long as no node answers twice: then there is one answer from each node
that answered at all. A node that answers twice makes up for one that says nothing,
and a write that asks for every node succeeds without it. Only where one answer is
enough does this not matter.
-/

namespace QuorumStore

/-- Whether a reply is of the kind that answers a call. -/
def Call.answeredBy : Call → Reply → Bool
  | .insert .., reply => reply.changes?.isSome
  | .delete .., reply => reply.changes?.isSome
  | .select .., reply => reply.record?.isSome
  | .keys, reply => reply.keys?.isSome
  | .size .., reply => reply.count?.isSome
  | .members .., reply => reply.fields?.isSome
  | .score .., reply => reply.presence?.isSome

namespace Fleet

variable {σ : Type} {fleet : Fleet σ} {call : Call} {hosts : List Host} {s : σ}
  {streams : List (Host × List Reply)}

/-- The hosts that sent an answer, with all that they sent. -/
def answering (call : Call) (streams : List (Host × List Reply)) : List (Host × List Reply) :=
  streams.filter fun (_, replies) => replies.any call.answeredBy

/-- The different hosts that sent an answer. -/
def voters (call : Call) (streams : List (Host × List Reply)) : List Host :=
  ((answering call streams).map Prod.fst).dedup

/-- A voter is a host that sent an answer. -/
theorem mem_voters {host : Host} :
    host ∈ voters call streams ↔ ∃ stream ∈ streams, stream.1 = host ∧
      ∃ reply ∈ stream.2, call.answeredBy reply = true := by
  simp only [voters, answering, List.mem_dedup, List.mem_map, List.mem_filter, List.any_eq_true]
  exact exists_congr fun stream => by tauto

/-- The hosts that are sent a call are those asked. -/
theorem contact_hosts (fleet : Fleet σ) (call : Call) (hosts : List Host) (s : σ) :
    (fleet.contact call hosts s).1.map Prod.fst = hosts := by
  induction hosts generalizing s with
  | nil => rfl
  | cons host rest ih => exact congrArg (host :: ·) (ih (fleet.answer host call s).2)

/-- The hosts that answer are some of those asked, in their order. -/
theorem answering_sublist (fleet : Fleet σ) (call : Call) (hosts : List Host) (s : σ) :
    ((answering call (fleet.contact call hosts s).1).map Prod.fst).Sublist hosts := by
  have hsome : (answering call (fleet.contact call hosts s).1).Sublist
      (fleet.contact call hosts s).1 := List.filter_sublist
  have hhosts := hsome.map Prod.fst
  rwa [contact_hosts] at hhosts

/-- The voters are among the hosts asked. -/
theorem voters_subset (fleet : Fleet σ) (call : Call) (hosts : List Host) (s : σ) :
    voters call (fleet.contact call hosts s).1 ⊆ hosts :=
  fun _ hm => (answering_sublist fleet call hosts s).subset (List.mem_dedup.1 hm)

/-- A digest under which an answer arrives is that of a voter. -/
theorem Delivers.exists_voter_iff (h : fleet.Delivers) {peer : UInt32} :
    (∃ t ∈ (fleet.scatter hosts call s).1, t.1 = peer ∧ call.answeredBy t.2 = true) ↔
      ∃ host ∈ voters call (fleet.contact call hosts s).1, Murmur.textDigest host = peer := by
  simp only [h.mem_scatter, mem_voters]
  constructor
  · rintro ⟨t, ⟨stream, hstream, hdigest, hreply⟩, rfl, hanswer⟩
    exact ⟨stream.1, ⟨stream, hstream, rfl, t.2, hreply, hanswer⟩, hdigest⟩
  · rintro ⟨_, ⟨stream, hstream, rfl, reply, hreply, hanswer⟩, rfl⟩
    exact ⟨(_, reply), ⟨stream, hstream, rfl, hreply⟩, rfl, hanswer⟩

/-- There are no more voters than hosts asked. -/
theorem length_voters_le (fleet : Fleet σ) (call : Call) (hosts : List Host) (s : σ) :
    (voters call (fleet.contact call hosts s).1).length ≤ hosts.length :=
  ((List.dedup_sublist _).trans (answering_sublist fleet call hosts s)).length_le

/-- The answers that arrive are those that were sent. -/
theorem Delivers.countP_scatter (h : fleet.Delivers) (call : Call) (hosts : List Host) (s : σ) :
    (fleet.scatter hosts call s).1.countP (fun tagged => call.answeredBy tagged.2)
      = ((fleet.contact call hosts s).1.map fun stream =>
          stream.2.countP call.answeredBy).sum := by
  rw [(h.scatter call hosts s).countP_eq, marked, List.countP_flatMap]
  refine congrArg List.sum (List.map_congr_left fun stream _ => ?_)
  exact List.countP_map

/-- Where no host sends two answers, each host that answers sends one. -/
theorem sum_answers_le (hone : ∀ stream ∈ streams, stream.2.countP call.answeredBy ≤ 1) :
    (streams.map fun stream => stream.2.countP call.answeredBy).sum
      ≤ (answering call streams).length := by
  induction streams with
  | nil => exact Nat.le_refl 0
  | cons stream rest ih =>
    have hfirst := hone stream List.mem_cons_self
    have hrest := ih fun other hm => hone other (List.mem_cons_of_mem _ hm)
    rw [List.map_cons, List.sum_cons, answering, List.filter_cons, ← answering]
    split_ifs with hany
    · rw [List.length_cons]
      omega
    · have hnone : stream.2.countP call.answeredBy = 0 :=
        List.countP_eq_zero.2 fun reply hm hanswer => hany (List.any_eq_true.2 ⟨reply, hm, hanswer⟩)
      omega

/-- Where no host sends two answers, there are no more answers than voters. -/
theorem Delivers.countP_le_voters (h : fleet.Delivers) (hnodup : hosts.Nodup)
    (hone : ∀ stream ∈ (fleet.contact call hosts s).1, stream.2.countP call.answeredBy ≤ 1) :
    (fleet.scatter hosts call s).1.countP (fun tagged => call.answeredBy tagged.2)
      ≤ (voters call (fleet.contact call hosts s).1).length := by
  have hvoters : ((answering call (fleet.contact call hosts s).1).map Prod.fst).Nodup :=
    hnodup.sublist (answering_sublist fleet call hosts s)
  rw [h.countP_scatter, voters, hvoters.dedup, List.length_map]
  exact sum_answers_le hone

/-- Where an answer arrives, somebody has sent it. -/
theorem Delivers.voters_pos (h : fleet.Delivers)
    (hpos : 0 < (fleet.scatter hosts call s).1.countP fun tagged => call.answeredBy tagged.2) :
    0 < (voters call (fleet.contact call hosts s).1).length := by
  rw [h.countP_scatter, List.sum_pos_iff_exists_pos_nat] at hpos
  obtain ⟨count, hcount, hsome⟩ := hpos
  obtain ⟨stream, hm, rfl⟩ := List.mem_map.1 hcount
  obtain ⟨reply, hreply, hanswer⟩ := List.countP_pos_iff.1 hsome
  have hvotes : stream.2.any call.answeredBy = true := List.any_eq_true.2 ⟨reply, hreply, hanswer⟩
  exact List.length_pos_of_mem
    (List.mem_dedup.2 (List.mem_map.2 ⟨stream, List.mem_filter.2 ⟨hm, hvotes⟩, rfl⟩))

end Fleet

/-! ## What a verdict counts -/

/-- A read that yields a value is met by the records that hold its field, and there
are no more of these than answers. -/
theorem Verdict.met_of_ofSelect {key : Key} {field : Field} {quorum : Quorum} {total : Nat}
    {replies : List Tagged}
    (h : (ofSelect key field quorum total replies).outcome.value?.isSome = true) :
    ∃ holding, quorum.met total holding = true ∧
      holding ≤ replies.countP fun tagged => tagged.2.record?.isSome := by
  by_cases hsome : total = 0
  · rw [ofSelect, if_pos hsome] at h
    cases h
  · cases hmet : quorum.met total (held field replies).length with
    | true =>
      refine ⟨_, hmet, Nat.le_trans (List.length_filter_le _ _) (Nat.le_of_eq ?_)⟩
      exact List.length_filterMap_eq_countP
    | false =>
      rw [ofSelect_of_unmet key hsome hmet, Outcome.value?_short] at h
      cases h

/-! ## Votes -/

namespace Site

variable {σ : Type} {fleet : Fleet σ} {site : Site σ} {quorum : Quorum} {most : Nat}

/-- If no host sends more than `most` answers to a call, and the operation yields a
value, then the hosts that answered meet the quorum. -/
def Vouched (site : Site σ) (fleet : Fleet σ) (quorum : Quorum) (most : Nat) (hosts : List Host)
    (call : Call) (yields : Bool) : Prop :=
  (∀ stream ∈ (fleet.contact call hosts site.world).1,
    stream.2.countP call.answeredBy ≤ most) →
  yields = true →
  quorum.met hosts.length (Fleet.voters call (fleet.contact call hosts site.world).1).length = true

/-- Answers that meet a quorum are vouched for if one answer is enough, or no host
sends more than one. -/
theorem vouched_of_met (hdelivers : fleet.Delivers) {hosts : List Host} (hnodup : hosts.Nodup)
    {call : Call} {yields : Bool} (hfew : quorum = .one ∨ most ≤ 1)
    (hmet : yields = true → ∃ holding, quorum.met hosts.length holding = true ∧
      holding ≤ (fleet.scatter hosts call site.world).1.countP
        fun tagged => call.answeredBy tagged.2) :
    site.Vouched fleet quorum most hosts call yields := by
  intro hmost hyields
  obtain ⟨holding, hholding, hle⟩ := hmet hyields
  rcases hfew with rfl | hone
  · have hpos : 0 < holding := of_decide_eq_true hholding
    exact decide_eq_true (hdelivers.voters_pos (Nat.lt_of_lt_of_le hpos hle))
  · have hvoters := hdelivers.countP_le_voters hnodup fun stream hm =>
      Nat.le_trans (hmost stream hm) hone
    exact Quorum.met_mono hholding (Nat.le_trans hle hvoters)
      (fleet.length_voters_le call hosts site.world)

end Site

/-- On a quorum, where no host sends more than `most` answers to a call, every write
and every read that yields a value is vouched for. -/
def OneVote (quorum : Quorum) (most : Nat) : Prop :=
  ∀ (σ : Type) (fleet : Fleet σ) (site : Site σ) (shuffle : List Host → List Host),
    fleet.Delivers → site.registry.Reached → (∀ hosts, (shuffle hosts).Perm hosts) →
    (∀ kind key members, site.Vouched fleet quorum most (site.registry.write shuffle key quorum)
      (kind.call key members)
      (site.write fleet shuffle kind key members quorum).1.outcome.value?.isSome) ∧
    ∀ key field, site.Vouched fleet quorum most (site.registry.read shuffle key quorum)
      (.select key field) (site.select fleet shuffle key field quorum).1.outcome.value?.isSome

/-- A registry of two hosts. -/
def Registry.duo : Registry := (fresh.update ["a", "b"]).2

theorem Registry.reached_duo : duo.Reached := by
  have hjoined : (fresh.update ["a", "b"]).1 = .ok ⟨2, 0⟩ := by decide +kernel
  exact reached_of_fresh hjoined

/-- Of these hosts one, `a`, answers every call twice as if it were a write, and the
others say nothing. -/
def Fleet.chatty : Fleet Unit :=
  scripted fun host => if host = "a" then [.changes ⟨["f"], []⟩, .changes ⟨["f"], []⟩] else []

/-- No host of these sends more than two answers. -/
theorem Fleet.countP_chatty_le (call : Call) (hosts : List Host) (s : Unit) :
    ∀ stream ∈ (chatty.contact call hosts s).1, stream.2.countP call.answeredBy ≤ 2 := by
  induction hosts generalizing s with
  | nil =>
    intro stream hm
    cases hm
  | cons host rest ih =>
    intro stream hm
    rcases List.mem_cons.1 hm with rfl | hlater
    · refine Nat.le_trans List.countP_le_length ?_
      change (if host = "a" then _ else _ : List Reply).length ≤ 2
      split <;> simp
    · exact ih _ stream hlater

/-- Two answers of one host do for both where more than one answer is needed. -/
theorem Site.duo_outvoted {quorum : Quorum} (hquorum : quorum ≠ .one) :
    ((⟨Registry.duo, ()⟩ : Site Unit).write .chatty id .insert "k" [⟨"f", [1], 1⟩]
        quorum).1.outcome.value?.isSome = true ∧
      quorum.met (Registry.duo.write id "k" quorum).length
        (Fleet.voters (.insert "k" [⟨"f", [1], 1⟩])
          (Fleet.chatty.contact (.insert "k" [⟨"f", [1], 1⟩])
            (Registry.duo.write id "k" quorum) ()).1).length = false := by
  cases quorum with
  | one => exact absurd rfl hquorum
  | strong => decide +kernel
  | consensus => decide +kernel

/-- One node has one vote exactly where one answer is enough or no node sends two:
then the nodes that answered meet the quorum of every write and every read that
yields a value, whatever the nodes say and in whatever order it arrives. -/
theorem oneVote_iff {quorum : Quorum} {most : Nat} :
    OneVote quorum most ↔ quorum = .one ∨ most ≤ 1 := by
  constructor
  · intro h
    by_contra hmany
    rw [not_or, Nat.not_le] at hmany
    obtain ⟨hyields, hunmet⟩ := Site.duo_outvoted hmany.1
    have hmost := Fleet.countP_chatty_le (.insert "k" [⟨"f", [1], 1⟩])
      (Registry.duo.write id "k" quorum) ()
    have hmet := (h Unit .chatty ⟨Registry.duo, ()⟩ id (Fleet.delivers_prompt _)
      Registry.reached_duo fun _ => List.Perm.refl _).1 .insert "k" [⟨"f", [1], 1⟩]
      (fun stream hm => Nat.le_trans (hmost stream hm) hmany.2) hyields
    exact absurd hmet (Bool.not_eq_true _ ▸ hunmet)
  · intro hfew σ fleet site shuffle hdelivers hreached hshuffle
    refine ⟨fun kind key members => ?_, fun key field => ?_⟩
    · refine Site.vouched_of_met hdelivers
        (hreached.sound.nodup_write hshuffle key quorum) hfew fun hyields => ?_
      refine ⟨_, Verdict.met_of_ofWrite hyields, Nat.le_of_eq ?_⟩
      cases kind <;> rfl
    · exact Site.vouched_of_met hdelivers (hreached.sound.nodup_read hshuffle key quorum) hfew
        Verdict.met_of_ofSelect

/-- A write that asks for every node is done although one of two nodes is silent, as
the other answers twice. -/
theorem Site.done_without_silent :
    Fleet.chatty.Delivers ∧ Registry.duo.Reached ∧
    ((⟨Registry.duo, ()⟩ : Site Unit).write .chatty id .insert "k" [⟨"f", [1], 1⟩]
        .strong).1.outcome = .done ⟨["f"], []⟩ ∧
    Registry.duo.write id "k" .strong = ["a", "b"] ∧
    Fleet.voters (.insert "k" [⟨"f", [1], 1⟩])
      (Fleet.chatty.contact (.insert "k" [⟨"f", [1], 1⟩]) ["a", "b"] ()).1 = ["a"] ∧
    Quorum.strong.met 2 1 = false :=
  ⟨Fleet.delivers_prompt _, Registry.reached_duo, by decide +kernel, by decide +kernel,
    by decide +kernel, by decide⟩

end QuorumStore
