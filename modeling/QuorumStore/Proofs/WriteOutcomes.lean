import QuorumStore.Proofs.Ballots
import QuorumStore.Proofs.ReadAfterWrite
import QuorumStore.Proofs.WriteVerdicts
import QuorumStore.Repair.Backlog

/-!
# What comes of a write

A write is done if a quorum of the nodes asked sent change sets, nothing else was sent and
the change sets are unanimous. If a quorum did, but something else was sent or two change
sets differ, the write is degraded. Without a quorum nothing is found where every other
reply is an absence, and else the quorum is unmet. With a quorum the key goes into the
hints of exactly the nodes that sent change sets; without one nothing is recorded. The
written fields are to be repaired exactly if the write is degraded.
-/

namespace QuorumStore

/-! ## The hints -/

/-- The peer once it is known to hold a key: unless its hint held the key already, the
hint gains it and the clock ticks. -/
def Peer.learn (key : Key) (p : Peer) : Peer :=
  if p.hint.contains (Bytes.ofText key) then p
  else { p with hint := p.hint.add (Bytes.ofText key), clock := p.clock + 1 }

/-- What is learnt is known. -/
theorem Peer.contains_learn (key : Key) (p : Peer) :
    (p.learn key).hint.contains (Bytes.ofText key) = true := by
  unfold learn
  split
  · assumption
  · exact Hint.contains_add _ _

/-- To learn a key again changes nothing. -/
theorem Peer.learn_learn (key : Key) (p : Peer) : (p.learn key).learn key = p.learn key :=
  if_pos (p.contains_learn key)

/-- A commit lets the peers named learn the key, and no others. -/
theorem Registry.getElem?_commit (r : Registry) (key : Key) (peers : List UInt32)
    (peer : UInt32) :
    (r.commit key peers).1.peers[peer]?
      = r.peers[peer]?.map fun p => if peer ∈ peers then p.learn key else p := by
  induction peers generalizing r with
  | nil => simp [commit]
  | cons first rest ih =>
    by_cases hadds : (r.peers.contains first && !r.hinted first key) = true
    · -- the first peer lacks the key and learns it here
      rw [commit, if_pos hadds, ih, getElem?_modifyPeer]
      by_cases hpeer : first = peer
      · subst hpeer
        rw [if_pos rfl, Option.map_map]
        refine Option.map_congr fun p hp => ?_
        rw [Bool.and_eq_true, Bool.not_eq_true', hinted, Option.mem_def.1 hp] at hadds
        have hlearnt : p.learn key = { p with
            hint := p.hint.add (Bytes.ofText key), clock := p.clock + 1 } :=
          if_neg (Bool.not_eq_true _ ▸ hadds.2)
        rw [Function.comp_apply, if_pos List.mem_cons_self, ← hlearnt, Peer.learn_learn, ite_self]
      · simp only [if_neg hpeer, List.mem_cons, Ne.symm hpeer, false_or]
    · -- the first peer is not known, or holds the key already
      rw [commit, if_neg hadds, ih]
      refine Option.map_congr fun p hp => ?_
      by_cases hpeer : peer = first
      · subst hpeer
        rw [Std.TreeMap.contains_eq_isSome_getElem?, hinted, Option.mem_def.1 hp,
          Option.isSome_some, Bool.true_and, Bool.not_eq_true', Bool.not_eq_false] at hadds
        have hheld : p.learn key = p := if_pos hadds
        rw [if_pos List.mem_cons_self, hheld, ite_self]
      · simp only [List.mem_cons, hpeer, false_or]

/-! ## The write -/

/-- A job with items is queued where there is a worker and room. -/
theorem RepairBacklog.fst_offer (q : RepairBacklog) (job : RepairJob) :
    (q.offer job).1 = if job ≠ [] ∧ 0 < q.workers ∧ 0 < q.remaining
      then { q with waiting := q.waiting ++ [job] } else q := by
  unfold offer
  cases job with
  | nil => rfl
  | cons item rest =>
    by_cases hroom : 0 < q.workers ∧ 0 < q.remaining <;> simp [hroom]

namespace Site

variable {σ : Type} {fleet : Fleet σ} {site after : Site σ} {shuffle : List Host → List Host}

/-- What a write says to its caller, what it records and what it wants repaired, by the
replies that arrived and the hosts that sent change sets. -/
structure Settled (site after : Site σ) (key : Key) (members : List FieldValue)
    (quorum : Quorum) (total : Nat) (replies : List Tagged) (voters : List Host)
    (v : Verdict ChangeSet) : Prop where
  /-- It is done if it went to somebody, a quorum sent change sets, nothing else was sent
  and all change sets report the same outcome for every field. -/
  done_iff : v.outcome.kind = .done ↔
    total ≠ 0 ∧ quorum.met total (changeSets replies).length = true ∧
      (∀ t ∈ replies, t.2.changes?.isSome = true) ∧
      ∀ c ∈ changeSets replies, ∀ d ∈ changeSets replies, c.SameFields d
  /-- It is degraded if a quorum sent change sets, and something else was sent or two
  change sets differ. -/
  degraded_iff : v.outcome.kind = .degraded ↔
    quorum.met total (changeSets replies).length = true ∧
      ((∃ t ∈ replies, t.2.changes? = none) ∨
        ∃ c ∈ changeSets replies, ∃ d ∈ changeSets replies, ¬ c.SameFields d)
  /-- Nothing is found if it went to nobody, or there is no quorum, something else was sent
  and all that was are absences. -/
  notFound_iff : v.outcome.kind = .notFound ↔
    total = 0 ∨ (quorum.met total (changeSets replies).length = false ∧
      (∃ t ∈ replies, t.2.changes? = none) ∧
      ∀ t ∈ replies, t.2.changes? = none → t.2.isAbsence = true)
  /-- Else the quorum is unmet. -/
  unmet_iff : v.outcome.kind = .unmet ↔
    total ≠ 0 ∧ quorum.met total (changeSets replies).length = false ∧
      ((∀ t ∈ replies, t.2.changes?.isSome = true) ∨
        ∃ t ∈ replies, t.2.changes? = none ∧ t.2.isAbsence = false)
  /-- With a quorum exactly the hosts that sent change sets are recorded as holding the key. -/
  learnt : v.outcome.kind = .done ∨ v.outcome.kind = .degraded → ∀ peer : UInt32,
    after.registry.peers[peer]?
      = site.registry.peers[peer]?.map fun p => if p.host ∈ voters then p.learn key else p
  /-- Without a quorum nothing is recorded. -/
  kept : v.outcome.kind = .notFound ∨ v.outcome.kind = .unmet → after.registry = site.registry
  /-- The written fields are to be repaired if the write is degraded, and else none. -/
  repairs : v.repairs = if v.outcome.kind = .degraded
    then members.map fun m => ⟨key, m.field, m.value⟩ else []
  /-- So a repair job is queued, where there is room, if the write is degraded and had
  members, and else none. -/
  queued : ∀ queue : RepairBacklog, (queue.offer v.repairs).1 =
    if v.outcome.kind = .degraded ∧ members ≠ [] ∧ 0 < queue.workers ∧ 0 < queue.remaining
    then { queue with waiting := queue.waiting ++ [v.repairs] } else queue

/-- A host of the ring is a voter exactly if an answer arrives under the digest that it is
filed under. -/
theorem exists_answer_iff (hdelivers : fleet.Delivers) (hsound : site.registry.Sound)
    {hosts : List Host} (hhosts : ∀ host ∈ hosts, host ∈ site.registry.ring.members)
    (call : Call) {peer : UInt32} {p : Peer} (hp : site.registry.peers[peer]? = some p) :
    (∃ t ∈ (fleet.scatter hosts call site.world).1, t.1 = peer ∧ call.answeredBy t.2 = true) ↔
      p.host ∈ Fleet.voters call (fleet.contact call hosts site.world).1 := by
  have hfiled := hsound.host_of_peer hp
  rw [hdelivers.exists_voter_iff]
  constructor
  · rintro ⟨host, hvoter, hdigest⟩
    have hin := hhosts host (Fleet.voters_subset fleet call hosts site.world hvoter)
    exact hsound.digest_inj hin hfiled.2 (hdigest.trans hfiled.1.symm) ▸ hvoter
  · intro hvoter
    exact ⟨p.host, hvoter, hfiled.1⟩

/-- A verdict and the commit of its confirmations fit together, given that a write to nobody
is not answered and that the hosts of the answers are the voters. -/
theorem settled_of_commit (kind : WriteKind) (key : Key) (members : List FieldValue)
    (quorum : Quorum) {total : Nat} {replies : List Tagged} {voters : List Host}
    (hnobody : total = 0 → replies = [])
    (hvoter : ∀ (peer : UInt32) (p : Peer), site.registry.peers[peer]? = some p →
      ((∃ t ∈ replies, t.1 = peer ∧ t.2.changes?.isSome = true) ↔ p.host ∈ voters)) :
    let v := Verdict.ofWrite kind key members quorum total replies
    after.registry = (site.registry.commit key v.confirmed).1 →
      site.Settled after key members quorum total replies voters v := by
  intro v hafter
  have hrepairs : v.repairs = if v.outcome.kind = .degraded then Verdict.suspects key members
      else [] := Verdict.repairs_ofWrite
  obtain ⟨hdone, hdegraded, hnotFound, hunmet⟩ :=
    Verdict.kind_ofWrite kind key members quorum total replies
  rw [Verdict.not_undisputed_iff] at hdegraded
  rw [Verdict.not_absent_iff] at hunmet
  refine ⟨hdone, ?_, hnotFound, hunmet, ?_, ?_, hrepairs, ?_⟩
  · refine hdegraded.trans ⟨fun h => h.2, fun h => ⟨fun hnone => ?_, h⟩⟩
    have hdisputed := h.2
    rw [hnobody hnone] at hdisputed
    simp [changeSets] at hdisputed
  · intro hkind peer
    rw [hafter, Registry.getElem?_commit]
    refine Option.map_congr fun p hp => ?_
    have hlearns : peer ∈ v.confirmed ↔ p.host ∈ voters :=
      (Verdict.mem_confirmed_ofWrite.trans (and_iff_right hkind)).trans
        (hvoter peer p (Option.mem_def.1 hp))
    simp only [hlearns]
  · intro hkind
    have hnone : v.confirmed = [] := by
      refine List.eq_nil_iff_forall_not_mem.2 fun peer hm => ?_
      obtain ⟨hmet, -⟩ := Verdict.mem_confirmed_ofWrite.1 hm
      rcases hkind with h | h <;> rcases hmet with h' | h' <;> cases h.symm.trans h'
    rw [hafter, hnone]
    rfl
  · intro queue
    rw [RepairBacklog.fst_offer, hrepairs]
    by_cases hkind : v.outcome.kind = .degraded <;> simp [hkind, Verdict.suspects]

/-- Whatever the nodes send and in whatever order it arrives, what a write says to its
caller, what it records and what it wants repaired fit together. -/
theorem write_settled (hdelivers : fleet.Delivers) (hreached : site.registry.Reached)
    (hshuffle : ∀ hosts, (shuffle hosts).Perm hosts) (kind : WriteKind) (key : Key)
    (members : List FieldValue) (quorum : Quorum) :
    let hosts := site.registry.write shuffle key quorum
    let call := kind.call key members
    let (v, after) := site.write fleet shuffle kind key members quorum
    site.Settled after key members quorum hosts.length (fleet.scatter hosts call site.world).1
      (Fleet.voters call (fleet.contact call hosts site.world).1) v := by
  intro hosts call
  have hhosts : ∀ host ∈ hosts, host ∈ site.registry.ring.members :=
    fun host hm => hreached.sound.mem_write hshuffle hm
  refine settled_of_commit kind key members quorum ?_ ?_ rfl
  · intro hnone
    rw [List.length_eq_zero_iff.1 hnone]
    exact (hdelivers.scatter call [] site.world).eq_nil
  · intro peer p hp
    have hanswer := exists_answer_iff hdelivers hreached.sound hhosts call hp
    cases kind <;> exact hanswer

/-- Of three hosts two are written to, and one of these refuses the field that the other
accepts: the write is degraded, both learn the key, and the field is to be repaired. -/
theorem write_settled_of_split :
    let fleet := Fleet.scripted fun host =>
      if host = "b" then [.changes ⟨["f"], []⟩] else [.changes ⟨[], ["f"]⟩]
    let site : Site Unit := ⟨.trio, ()⟩
    let call := WriteKind.insert.call "k" [⟨"f", [1], 1⟩]
    let (v, after) := site.write fleet id .insert "k" [⟨"f", [1], 1⟩] .consensus
    v.outcome.kind = .degraded ∧ v.repairs = [⟨"k", "f", [1]⟩] ∧
      (after.registry.hinted (Registry.digest "a") "k",
        after.registry.hinted (Registry.digest "b") "k",
        after.registry.hinted (Registry.digest "c") "k") = (false, true, true) ∧
      fleet.Delivers ∧ site.registry.Reached ∧ (∀ hosts, (id hosts : List Host).Perm hosts) ∧
      site.Settled after "k" [⟨"f", [1], 1⟩] .consensus 2 (fleet.scatter ["b", "c"] call ()).1
        (Fleet.voters call (fleet.contact call ["b", "c"] ()).1) v := by
  intro fleet site call
  have hhosts : site.registry.write id "k" .consensus = ["b", "c"] := by decide +kernel
  have hdelivers : fleet.Delivers := Fleet.delivers_prompt _
  have hreached : site.registry.Reached := Registry.reached_trio
  have hshuffle : ∀ hosts, (id hosts : List Host).Perm hosts := fun hosts => .refl hosts
  have hsettled := write_settled hdelivers hreached hshuffle .insert "k" [⟨"f", [1], 1⟩] .consensus
  rw [hhosts] at hsettled
  exact ⟨by decide +kernel, by decide +kernel, by decide +kernel, hdelivers, hreached, hshuffle,
    hsettled⟩

end Site

end QuorumStore
