import Mathlib.Data.Finset.Card
import QuorumStore.Membership.Network
import QuorumStore.Proofs.Acknowledged
import QuorumStore.Proofs.Following

/-!
# Reconciliation

A reconciliation with a list lets go the hosts of the ring that are not listed, and lets
in those that are, unless the digest of one is taken by another host. It does not matter
in which order the list is visited, nor how often a host stands in it. Who stays keeps
what is known of it, except that every hint has to be sent again once anybody has joined;
who joins starts with an empty hint. To reconcile again with the same hosts changes
nothing.
-/

namespace QuorumStore.Registry

variable {r r' : Registry} {host : Host} {listed : List Host}

/-! ## Hosts that stay while others come and go -/

/-- Dropping hosts of other digests leaves a peer alone. -/
theorem peer_foldl_drop {gone : List Host} {peer : UInt32} (r : Registry)
    (hother : ∀ other ∈ gone, digest other ≠ peer) :
    (gone.foldl drop r).peers[peer]? = r.peers[peer]? := by
  induction gone generalizing r with
  | nil => rfl
  | cons other rest ih =>
    rw [List.foldl_cons, ih _ fun o hm => hother o (List.mem_cons_of_mem other hm), drop,
      Std.TreeMap.getElem?_erase, if_neg]
    rw [Std.LawfulEqCmp.compare_eq_iff_eq]
    exact hother other List.mem_cons_self

/-- A listed host of the ring keeps its peer when those that are not listed go. -/
theorem Sound.peer_dropMissing (h : r.Sound) (hin : host ∈ r.ring.members)
    (hlisted : host ∈ listed) :
    (r.dropMissing listed).peers[digest host]? = r.peers[digest host]? := by
  refine peer_foldl_drop r fun other hm heq => ?_
  rw [departed, List.mem_filter, Placement.Ring.mem_hosts_iff, Bool.not_eq_true',
    List.contains_eq_mem, decide_eq_false_iff_not] at hm
  have hsame : other = host := h.digest_inj hm.1 hin heq
  exact hm.2 (hsame ▸ hlisted)

/-- Hosts that join take no place that is taken. -/
theorem peer_enrolAll (blank : Hint) (listed : List Host) {peer : UInt32} {p : Peer}
    (hp : r.peers[peer]? = some p) :
    (r.enrolAll blank listed).1.peers[peer]? = some p := by
  induction listed generalizing r with
  | nil => exact hp
  | cons first rest ih =>
    rw [enrolAll]
    split_ifs with hnew
    · refine ih ?_
      rw [accepts, Bool.and_eq_true, Bool.not_eq_true', Bool.not_eq_true'] at hnew
      rw [enrol, Std.TreeMap.getElem?_insert, if_neg]
      · exact hp
      · rw [Std.LawfulEqCmp.compare_eq_iff_eq]
        rintro rfl
        rw [Std.TreeMap.contains_eq_isSome_getElem?, hp] at hnew
        cases hnew.2
    · exact ih hp

/-! ## Letting hosts in -/

/-- A registry that the hosts of a list have joined, as far as they could. -/
structure LetsIn (listed : List Host) (joined : Nat) (r r' : Registry) : Prop where
  /-- Nobody leaves. -/
  stay : ∀ host ∈ r.ring.members, host ∈ r'.ring.members
  /-- Only hosts of the list join. -/
  on_list : ∀ host ∈ r'.ring.members, host ∈ r.ring.members ∨ host ∈ listed
  /-- The hosts that joined are counted. -/
  count : r'.ring.size = r.ring.size + joined
  /-- What was known is still known. -/
  held : ∀ (peer : UInt32) (p : Peer), r.peers[peer]? = some p → r'.peers[peer]? = some p
  /-- Who has joined comes with the hint of a host of which nothing is known. -/
  fresh : ∀ host ∈ r'.ring.members, host ∉ r.ring.members →
    ∃ blank, Hint.new r.config.capacity r.config.recursions = .ok blank ∧
      r'.peers[digest host]? = some ⟨host, blank, 0, 0⟩
  /-- No host of the list would join any more. -/
  full : ∀ host ∈ listed, r'.accepts host = false

/-- Where nobody would join, nobody has to be let in. -/
theorem letsIn_self (h : ∀ host ∈ listed, r.accepts host = false) : LetsIn listed 0 r r where
  stay _ hin := hin
  on_list _ hin := Or.inl hin
  count := rfl
  held _ _ hp := hp
  fresh _ hin hout := absurd hin hout
  full := h

/-- A host that joins makes the ring one larger. -/
theorem size_enrol (blank : Hint) (hnew : r.accepts host = true) :
    (r.enrol blank host).ring.size = r.ring.size + 1 := by
  rw [accepts, Bool.and_eq_true, Bool.not_eq_true', Bool.not_eq_true'] at hnew
  have hout : ¬ r.ring.members.contains host = true := by
    rw [Bool.not_eq_true]
    exact hnew.1
  have hring : (r.enrol blank host).ring.members = r.ring.members.insert host := by
    rw [enrol, Placement.Ring.add, if_neg (by rw [hnew.1]; exact Bool.false_ne_true)]
  rw [Placement.Ring.size, hring, Std.TreeSet.size_insert]
  exact if_neg hout

/-- Hosts that join one after the other are let in. -/
theorem letsIn_enrolAll {blank : Hint}
    (hnew : Hint.new r.config.capacity r.config.recursions = .ok blank) (listed : List Host) :
    LetsIn listed (r.enrolAll blank listed).2 r (r.enrolAll blank listed).1 := by
  have hframe (r : Registry) (listed : List Host) :
      (∀ host ∈ r.ring.members, host ∈ (r.enrolAll blank listed).1.ring.members) ∧
        (r.enrolAll blank listed).1.ring.size = r.ring.size + (r.enrolAll blank listed).2 ∧
        ∀ host ∈ (r.enrolAll blank listed).1.ring.members, host ∉ r.ring.members →
          (r.enrolAll blank listed).1.peers[digest host]? = some ⟨host, blank, 0, 0⟩ := by
    induction listed generalizing r with
    | nil => exact ⟨fun _ hin => hin, rfl, fun _ hin hout => absurd hin hout⟩
    | cons first rest ih =>
      rw [enrolAll]
      split_ifs with hjoins
      · obtain ⟨hstay, hsize, hfresh⟩ := ih (r.enrol blank first)
        refine ⟨fun host hin => hstay host (mem_members_enrol.2 (Or.inr hin)), ?_,
          fun host hin hout => ?_⟩
        · rw [size_enrol blank hjoins] at hsize
          dsimp only
          omega
        · by_cases hfirst : host = first
          · -- nobody who joins later takes the place of the one who has just joined
            refine peer_enrolAll blank rest ?_
            rw [hfirst, enrol, Std.TreeMap.getElem?_insert_self]
          · refine hfresh host hin fun hon => ?_
            exact (mem_members_enrol.1 hon).elim hfirst hout
      · exact ih r
  obtain ⟨hstay, hcount, hfresh⟩ := hframe r listed
  exact ⟨hstay, fun _ hin => mem_members_enrolAll hin, hcount,
    fun _ _ hp => peer_enrolAll blank listed hp,
    fun host hin hout => ⟨blank, hnew, hfresh host hin hout⟩, fun _ hm => accepts_of_enrolAll hm⟩

/-- A reconciliation that returns has dropped who is not listed, has let in who is, and
has queued the hints again if anybody joined. -/
theorem letsIn_of_update {churn : Churn} (done : r.update listed = (.ok churn, r')) :
    churn.left = (r.departed listed).length ∧
      ∃ after, LetsIn listed churn.joined (r.dropMissing listed) after ∧
        r'.ring = after.ring ∧
        ∀ peer : UInt32, r'.peers[peer]? = after.peers[peer]?.map fun p =>
          { p with shared := if churn.joined = 0 then p.shared else 0 } := by
  unfold update at done
  cases hnew : Hint.new r.config.capacity r.config.recursions with
  | ok blank =>
    rw [hnew] at done
    cases done
    rw [← (dropMissing_frame r listed).2] at hnew
    refine ⟨rfl, _, letsIn_enrolAll hnew listed, ?_, fun peer => ?_⟩
    · split_ifs <;> rfl
    · by_cases hjoined : 0 < ((r.dropMissing listed).enrolAll blank listed).2
      · rw [if_pos hjoined, getElem?_unshareAll]
        simp only [Nat.ne_of_gt hjoined, if_false]
      · have hnobody := Nat.eq_zero_of_not_pos hjoined
        rw [if_neg hjoined]
        simp only [hnobody, if_true, Option.map_id']
  | error abort =>
    rw [hnew] at done
    dsimp only at done
    cases hfirst : listed.find? (r.dropMissing listed).accepts with
    | some first =>
      rw [hfirst] at done
      cases done
    | none =>
      rw [hfirst] at done
      cases done
      refine ⟨rfl, _, letsIn_self fun host hm => ?_, rfl, fun peer => ?_⟩
      · rw [← Bool.not_eq_true]
        exact List.find?_eq_none.1 hfirst host hm
      · simp only [if_true, Option.map_id']

/-- A host that is on the ring after a reconciliation was listed. -/
theorem listed_of_update {churn : Churn} (done : r.update listed = (.ok churn, r'))
    (hin : host ∈ r'.ring.members) : host ∈ listed := by
  obtain ⟨-, after, hafter, hring, -⟩ := letsIn_of_update done
  rw [hring] at hin
  rcases hafter.on_list host hin with hkept | hlisted
  · exact (mem_members_dropMissing.1 hkept).2
  · exact hlisted

/-! ## Following a list -/

/-- What holds of a registry that was reconciled with a list of hosts. -/
structure Reconciled (r : Registry) (listed : List Host) (churn : Churn) (r' : Registry) :
    Prop where
  /-- A listed host of the ring stays. -/
  stay : ∀ host ∈ r.ring.hosts, host ∈ listed → host ∈ r'.ring.hosts
  /-- The hosts of the ring are listed. -/
  on_list : ∀ host ∈ r'.ring.hosts, host ∈ listed
  /-- A listed host that is not on the ring has the digest of one that is. -/
  passed_over : ∀ host ∈ listed, host ∉ r'.ring.hosts →
    ∃ other ∈ r'.ring.hosts, digest other = digest host
  /-- The hosts that are new on the ring are counted. -/
  joined : churn.joined = (r'.ring.hosts.toFinset \ r.ring.hosts.toFinset).card
  /-- So are the hosts of the old ring that are not listed. -/
  left : churn.left = (r.ring.hosts.toFinset \ listed.toFinset).card
  /-- Who stays keeps host, hint and clock, and what was shared as long as nobody joins. -/
  survivor : ∀ (peer : UInt32) (p : Peer), r.peers[peer]? = some p → p.host ∈ listed →
    r'.peers[peer]? = some { p with shared := if churn.joined = 0 then p.shared else 0 }
  /-- Who is new has an empty hint of the configured parameters, and clocks at zero. -/
  newcomer : ∀ (peer : UInt32) (p : Peer), r'.peers[peer]? = some p → p.host ∉ r.ring.hosts →
    Hint.new r.config.capacity r.config.recursions = .ok p.hint ∧
      (∀ i, Hint.bit p.hint.words i = false) ∧ p.clock = 0 ∧ p.shared = 0
  /-- Ring and peers match again. -/
  matched : r'.Sound
  /-- The registry's own host and its configuration stay. -/
  frame : r'.host = r.host ∧ r'.config = r.config
  /-- A second reconciliation with the same hosts, in any order, changes nothing. -/
  again : ∀ visited : List Host, (∀ host, host ∈ visited ↔ host ∈ listed) →
    r'.update visited = (.ok ⟨0, 0⟩, r')

/-- The hosts that are let in are the difference of the rings. -/
theorem LetsIn.joined_eq {joined : Nat} (h : LetsIn listed joined r r') :
    joined = (r'.ring.hosts.toFinset \ r.ring.hosts.toFinset).card := by
  have hsub : r.ring.hosts.toFinset ⊆ r'.ring.hosts.toFinset := fun host hin => by
    rw [List.mem_toFinset, Placement.Ring.mem_hosts_iff] at hin ⊢
    exact h.stay host hin
  rw [Finset.card_sdiff_of_subset hsub, List.toFinset_card_of_nodup r'.ring.nodup_hosts,
    List.toFinset_card_of_nodup r.ring.nodup_hosts, Placement.Ring.length_hosts,
    Placement.Ring.length_hosts, h.count, Nat.add_sub_cancel_left]

/-- The hosts that depart are the difference of the ring and the list. -/
theorem length_departed (r : Registry) (listed : List Host) :
    (r.departed listed).length = (r.ring.hosts.toFinset \ listed.toFinset).card := by
  rw [departed, ← List.toFinset_card_of_nodup (r.ring.nodup_hosts.filter _)]
  congr 1
  ext host
  rw [List.mem_toFinset, List.mem_filter, Finset.mem_sdiff, List.mem_toFinset, List.mem_toFinset,
    Bool.not_eq_true', List.contains_eq_mem, decide_eq_false_iff_not]

/-- Where a host would not join, some host of the ring has its digest. -/
theorem Sound.exists_same_digest (h : r.Sound) (hnot : r.accepts host = false) :
    ∃ other ∈ r.ring.hosts, digest other = digest host := by
  rcases accepts_eq_false_iff.1 hnot with hin | hknows
  · exact ⟨host, Placement.Ring.mem_hosts_iff.2 hin, rfl⟩
  · obtain ⟨p, hp⟩ := Option.isSome_iff_exists.1 hknows
    obtain ⟨hdigest, hin⟩ := h.host_of_peer hp
    exact ⟨p.host, Placement.Ring.mem_hosts_iff.2 hin, hdigest⟩

/-- Every reconciliation that returns follows the list as it should. -/
theorem Sound.reconciled (h : r.Sound) {churn : Churn}
    (done : r.update listed = (.ok churn, r')) : r.Reconciled listed churn r' := by
  have hsound : r'.Sound := h.update done
  obtain ⟨hleft, after, hin, hring, hpeers⟩ := letsIn_of_update done
  have hfull (host : Host) (hm : host ∈ listed) : r'.accepts host = false := by
    rw [accepts_congr hring fun peer => by rw [knows, knows, hpeers, Option.isSome_map]]
    exact hin.full host hm
  have hlisted (host : Host) (hm : host ∈ r'.ring.members) : host ∈ listed :=
    listed_of_update done hm
  -- who is new on the ring was let in, since nobody on the list was dropped
  have hnew (host : Host) (hlist : host ∈ listed) :
      host ∈ (r.dropMissing listed).ring.members ↔ host ∈ r.ring.members :=
    mem_members_dropMissing.trans (and_iff_left hlist)
  have hframe : r'.host = r.host ∧ r'.config = r.config := by
    have hupdate := update_frame r listed
    rwa [done] at hupdate
  constructor
  case stay =>
    intro host hm hlist
    rw [Placement.Ring.mem_hosts_iff] at hm ⊢
    rw [hring]
    exact hin.stay host ((hnew host hlist).2 hm)
  case on_list => exact fun host hm => hlisted host (Placement.Ring.mem_hosts_iff.1 hm)
  case passed_over => exact fun host hm _ => hsound.exists_same_digest (hfull host hm)
  case joined =>
    rw [hin.joined_eq, hring]
    congr 1
    ext host
    rw [Finset.mem_sdiff, Finset.mem_sdiff, List.mem_toFinset, List.mem_toFinset,
      List.mem_toFinset, Placement.Ring.mem_hosts_iff, Placement.Ring.mem_hosts_iff,
      Placement.Ring.mem_hosts_iff]
    exact and_congr_right fun hm => not_congr (hnew host (hlisted host (hring ▸ hm)))
  case left => rw [hleft, length_departed]
  case survivor =>
    intro peer p hp hlist
    obtain ⟨rfl, hm⟩ := h.host_of_peer hp
    have hkept : (r.dropMissing listed).peers[digest p.host]? = some p := by
      rw [h.peer_dropMissing hm hlist, hp]
    rw [hpeers, hin.held _ p hkept]
    rfl
  case newcomer =>
    intro peer q hq hout
    obtain ⟨rfl, hm⟩ := hsound.host_of_peer hq
    have hunknown : q.host ∉ (r.dropMissing listed).ring.members := fun hold =>
      hout (Placement.Ring.mem_hosts_iff.2 ((hnew q.host (hlisted q.host hm)).1 hold))
    obtain ⟨blank, hblank, hfresh⟩ := hin.fresh q.host (hring ▸ hm) hunknown
    rw [hpeers, hfresh, Option.map_some, Option.some_inj] at hq
    rw [(dropMissing_frame r listed).2] at hblank
    have hhint : q.hint = blank := by rw [← hq]
    refine ⟨hhint ▸ hblank, hhint ▸ (blank_of_new hblank).2.2, by rw [← hq], ?_⟩
    rw [← hq]
    exact ite_self 0
  case matched => exact hsound
  case frame => exact hframe
  case again =>
    have hfollows : r'.Follows listed := ⟨hlisted, hfull⟩
    exact fun visited hsame => (hfollows.congr_list hsame).update_eq

/-- In every state in which ring and peers match: a list that could not be had changes
nothing. With a list, in whatever order it is visited, the reconciliation returns unless a
host would join while the parameters admit no hint; and when it returns, listed hosts of
the ring have stayed, unlisted ones have left, the other listed ones have joined except
where a digest was taken, both changes are counted, no peer that stays has lost anything,
and to reconcile again with the same hosts changes nothing. -/
theorem reconciles_exactly (h : r.Sound) :
    (∀ (n : Network) (host : Host) (visit : Arrangement Host) (fault : Fault),
      n.registry? host = some r → n.current host .store = .error fault →
      n.update host visit = (.ok (.error fault), n)) ∧
    (∀ (n : Network) (host : Host) (visit : Arrangement Host) (listed : List Host),
      n.registry? host = some r → n.current host .store = .ok listed →
      n.update host visit = ((r.update (visit.order listed)).1.map .ok,
        n.putRegistry (r.update (visit.order listed)).2)) ∧
    ∀ listed : List Host,
      ((∃ churn, (r.update listed).1 = .ok churn) ↔
        (0 < r.config.capacity ∧ 0 < r.config.recursions) ∨
          ∀ host ∈ listed, (r.dropMissing listed).accepts host = false) ∧
      ∀ churn r', r.update listed = (.ok churn, r') → r.Reconciled listed churn r' := by
  refine ⟨fun n host visit fault hr hrefused => ?_, fun n host visit listed hr hlisted => ?_,
    fun listed => ⟨update_returns_iff r listed, fun churn r' done => h.reconciled done⟩⟩
  · rw [Network.update, hr, hrefused]
  · rw [Network.update, hr, hlisted]

/-- Two hosts, of which one has a key recorded, once its hint has been sent. -/
def sharing : Registry :=
  (((fresh.update ["a", "n40665"]).2.commit "k" [digest "n40665"]).1.broadcast
    (fun _ world => (.ok (), world)) .listed ()).2.1

theorem sound_sharing : sharing.Sound := by
  have hjoined : (fresh.update ["a", "n40665"]).1 = .ok ⟨2, 0⟩ := by decide +kernel
  exact (((reached_of_fresh hjoined).commit "k" _).broadcast (fun _ world => (.ok (), world))
    .listed ()).sound

/-- A network whose only registry cannot list the members. -/
def unlisting : Network :=
  { Network.empty with
    registries := Std.TreeMap.empty.insert 0 sharing
    acting := Std.TreeMap.empty.insert "w" 0
    failing := Std.TreeMap.empty.insert "w" ⟨true, false⟩ }

/-- One host leaves and one joins, while a third one is passed over, since its digest is
that of the host that stays; the hint of that host is due again. -/
theorem reconciles_exactly_of_sharing :
    unlisting.update "w" .reversed = (.ok (.error (.network "membership unavailable")), unlisting) ∧
      digest "n93112" = digest "n40665" ∧
      (sharing.update ["n93112", "d", "n40665"]).2.ring.hosts = ["d", "n40665"] ∧
      sharing.pending (digest "n40665") = false ∧
      (sharing.update ["n93112", "d", "n40665"]).2.pending (digest "n40665") = true ∧
      sharing.Reconciled ["n93112", "d", "n40665"] ⟨1, 1⟩
        (sharing.update ["n93112", "d", "n40665"]).2 := by
  have hdone : (sharing.update ["n93112", "d", "n40665"]).1 = .ok ⟨1, 1⟩ := by decide +kernel
  obtain ⟨hrefused, -, hlist⟩ := reconciles_exactly sound_sharing
  refine ⟨hrefused unlisting "w" .reversed _ rfl rfl, by decide +kernel, by decide +kernel,
    by decide +kernel, by decide +kernel, ?_⟩
  exact (hlist _).2 _ _ (Prod.ext hdone rfl)

end QuorumStore.Registry
