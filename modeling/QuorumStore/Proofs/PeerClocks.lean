import Mathlib.Logic.Relation
import QuorumStore.Proofs.Acknowledged
import QuorumStore.Proofs.HintCount
import QuorumStore.Proofs.HintFlow

/-!
# Peers, hints and clocks

Whatever a registry goes through, its peers are the hosts of its ring, and their
hints have the parameters that it was made with. The clock of a hint never runs
ahead of its bits, because each tick sets a bit that was clear, and it stands at
zero exactly while the hint is empty. So to reset what was shared to zero makes
the hints due that are not empty, and no others.
-/

namespace QuorumStore

/-- What every step of a registry keeps true of a peer. -/
structure Peer.Kept (config : ClusterParams) (p : Peer) : Prop where
  /-- The hint has the configured capacity and recursions. -/
  shape : Registry.HasShape config p.hint
  /-- The hint was not shared beyond its clock. -/
  shared_le : p.shared ≤ p.clock
  /-- The clock has ticked no more often than there are bits set. -/
  clock_le : p.clock ≤ p.hint.ones
  /-- The clock stands at zero exactly while the hint is empty. -/
  clock_eq_zero_iff : p.clock = 0 ↔ p.hint.ones = 0

namespace Peer

variable {config : ClusterParams} {p : Peer}

/-- A tick that sets a bit keeps the clock behind the bits. -/
theorem Kept.tick (h : p.Kept config) (hint : Hint) (hshape : Registry.HasShape config hint)
    (hmore : p.hint.ones < hint.ones) {shared : Nat} (hshared : shared ≤ p.clock + 1) :
    Kept config { p with hint := hint, clock := p.clock + 1, shared := shared } where
  shape := hshape
  shared_le := hshared
  clock_le := Nat.succ_le_of_lt (Nat.lt_of_le_of_lt h.clock_le hmore)
  clock_eq_zero_iff := by
    have hsome : hint.ones ≠ 0 := Nat.ne_zero_of_lt hmore
    exact ⟨fun hzero => absurd hzero (Nat.succ_ne_zero _), fun hzero => absurd hzero hsome⟩

/-- To record a key that the hint lacks keeps its clock behind its bits. -/
theorem Kept.add (h : p.Kept config) {item : Bytes} (hnew : p.hint.contains item = false) :
    Kept config { p with hint := p.hint.add item, clock := p.clock + 1 } :=
  h.tick (p.hint.add item) h.shape (Hint.ones_lt_add hnew) (Nat.le_succ_of_le h.shared_le)

/-- Whatever hint arrives, the clock stays behind the bits. -/
theorem Kept.merge (h : p.Kept config) (incoming : Hint) : (p.merge incoming).Kept config := by
  unfold Peer.merge
  split
  · next hint hunion =>
    obtain ⟨hsame, hmore⟩ := Hint.ones_lt_union hunion
    refine h.tick hint ⟨hsame.1.trans h.shape.1, hsame.2.trans h.shape.2⟩ hmore ?_
    split_ifs
    · exact Nat.le_succ_of_le h.shared_le
    · exact Nat.le_refl _
  · exact h

/-- Another value for what was shared, up to the clock, keeps the rest. -/
theorem Kept.share (h : p.Kept config) {shared : Nat} (hle : shared ≤ p.clock) :
    Kept config { p with shared := shared } :=
  ⟨h.shape, hle, h.clock_le, h.clock_eq_zero_iff⟩

/-- The peer of a host that has just joined. -/
theorem kept_blank {blank : Hint} (hnew : Hint.new config.capacity config.recursions = .ok blank)
    (host : Host) : Kept config ⟨host, blank, 0, 0⟩ := by
  obtain ⟨hcap, hrec, hempty⟩ := Registry.blank_of_new hnew
  have hones : blank.ones = 0 := (Hint.ones_eq_zero_iff blank).2 hempty
  exact ⟨⟨hcap, hrec⟩, Nat.le_refl 0, Nat.zero_le _, ⟨fun _ => hones, fun _ => rfl⟩⟩

end Peer

namespace Registry

variable {config : ClusterParams} {r r' : Registry}

/-- The registry has a configuration, and its peers are kept to it. -/
structure Clocked (config : ClusterParams) (r : Registry) : Prop where
  /-- The registry has the configuration. -/
  config_eq : r.config = config
  /-- What every step keeps true holds of each peer. -/
  peers : ∀ (peer : UInt32) (p : Peer), r.peers[peer]? = some p → p.Kept config

/-! ## Steps -/

theorem clocked_new {host : Host} (made : Registry.new config host = .ok r) :
    r.Clocked config := by
  unfold Registry.new at made
  split_ifs at made
  cases made
  refine ⟨rfl, fun peer p hp => ?_⟩
  rw [Std.TreeMap.getElem?_emptyc] at hp
  cases hp

/-- A step keeps a registry clocked when it keeps the peers that it leaves. -/
theorem Clocked.modifyPeer (h : r.Clocked config) {peer : UInt32} {f : Peer → Peer}
    (hf : ∀ p, r.peers[peer]? = some p → p.Kept config → (f p).Kept config) :
    (r.modifyPeer peer f).Clocked config := by
  refine ⟨h.config_eq, fun other q hq => ?_⟩
  rw [getElem?_modifyPeer] at hq
  split_ifs at hq with he
  · obtain ⟨p, hp, rfl⟩ := Option.map_eq_some_iff.1 hq
    subst he
    exact hf p hp (h.peers peer p hp)
  · exact h.peers other q hq

theorem Clocked.commit (h : r.Clocked config) (key : Key) (peers : List UInt32) :
    (r.commit key peers).1.Clocked config := by
  induction peers generalizing r with
  | nil => exact h
  | cons peer rest ih =>
    rw [Registry.commit]
    split_ifs with hadds
    · rw [Bool.and_eq_true, Bool.not_eq_true'] at hadds
      refine ih (h.modifyPeer fun p hp hkept => hkept.add ?_)
      rw [hinted, hp] at hadds
      exact hadds.2
    · exact ih h

theorem Clocked.receive (h : r.Clocked config) (e : HintEvent) :
    (r.receive e).Clocked config := by
  unfold Registry.receive
  split_ifs
  · exact h
  · split
    · exact h
    · exact h.modifyPeer fun p _ hkept => hkept.merge _

/-- A broadcast marks hints as shared at clocks that they have reached. -/
theorem Clocked.ship {σ : Type} (dispatch : HintEvent → σ → Except Fault Unit × σ)
    {shipments : List Shipment} (h : r.Clocked config)
    (hreached : ∀ s ∈ shipments, ∀ p, r.peers[s.peer]? = some p → s.clock ≤ p.clock) (world : σ) :
    (ship dispatch shipments r world).2.1.Clocked config := by
  rw [ship_eq]
  refine ⟨(foldl_markSent_frame _ r).2.2.1.trans h.config_eq, fun peer q hq => ?_⟩
  rw [getElem?_foldl_markSent] at hq
  obtain ⟨p, hp, rfl⟩ := Option.map_eq_some_iff.1 hq
  have hkept := h.peers peer p hp
  refine hkept.share (Nat.max_le.2 ⟨hkept.shared_le, latest_le fun s hs he => ?_⟩)
  exact hreached s ((delivered_sublist dispatch shipments r world).subset hs) p (he ▸ hp)

theorem Clocked.broadcast {σ : Type} (h : r.Clocked config)
    (dispatch : HintEvent → σ → Except Fault Unit × σ) (sending : Arrangement Shipment)
    (world : σ) : (r.broadcast dispatch sending world).2.1.Clocked config := by
  refine h.ship dispatch (fun s hm p hp => ?_) world
  obtain ⟨q, hq, -, hclock, -⟩ := mem_shipments.1 (Arrangement.mem_order.1 hm)
  rw [hp] at hq
  cases hq
  exact Nat.le_of_eq hclock

theorem Clocked.unshareAll (h : r.Clocked config) : r.unshareAll.Clocked config := by
  refine ⟨h.config_eq, fun peer q hq => ?_⟩
  rw [getElem?_unshareAll] at hq
  obtain ⟨p, hp, rfl⟩ := Option.map_eq_some_iff.1 hq
  exact (h.peers peer p hp).share (Nat.zero_le _)

theorem Clocked.drop (h : r.Clocked config) (host : Host) : (r.drop host).Clocked config := by
  refine ⟨h.config_eq, fun peer p hp => ?_⟩
  rw [Registry.drop, Std.TreeMap.getElem?_erase] at hp
  split_ifs at hp
  exact h.peers peer p hp

theorem Clocked.dropMissing (h : r.Clocked config) (listed : List Host) :
    (r.dropMissing listed).Clocked config := by
  have hall (gone : List Host) (r : Registry) (h : r.Clocked config) :
      (gone.foldl Registry.drop r).Clocked config := by
    induction gone generalizing r with
    | nil => exact h
    | cons host rest ih => exact ih _ (h.drop host)
  exact hall _ r h

theorem Clocked.enrolAll (h : r.Clocked config) {blank : Hint}
    (hnew : Hint.new config.capacity config.recursions = .ok blank) (listed : List Host) :
    (r.enrolAll blank listed).1.Clocked config := by
  induction listed generalizing r with
  | nil => exact h
  | cons host rest ih =>
    rw [Registry.enrolAll]
    split_ifs
    · refine ih ⟨h.config_eq, fun peer p hp => ?_⟩
      rw [Registry.enrol, Std.TreeMap.getElem?_insert] at hp
      split_ifs at hp
      · cases hp
        exact Peer.kept_blank hnew host
      · exact h.peers peer p hp
    · exact ih h

/-- A reconciliation keeps a registry clocked, also where it stops the program. -/
theorem Clocked.update (h : r.Clocked config) (listed : List Host) :
    (r.update listed).2.Clocked config := by
  have hkept := h.dropMissing listed
  unfold Registry.update
  split
  · next blank hnew =>
    rw [h.config_eq] at hnew
    have hjoined := hkept.enrolAll hnew listed
    unfold Registry.reconcile
    dsimp only
    split_ifs
    · exact hjoined.unshareAll
    · exact hjoined
  · dsimp only
    split
    · exact ⟨hkept.config_eq, hkept.peers⟩
    · exact hkept

/-! ## Runs -/

/-- One step of a registry that does not stop the program. A list of members that
could not be had is no step, since it changes nothing. -/
inductive Move : Registry → Registry → Prop where
  /-- The registry listens, or it stops listening. -/
  | listen (r : Registry) (listener : Option Nat) : Move r { r with listener := listener }
  /-- Membership was reconciled. -/
  | update {r r' : Registry} {listed : List Host} {churn : Churn}
      (done : r.update listed = (.ok churn, r')) : Move r r'
  /-- Peers were recorded as holding a key. -/
  | commit (r : Registry) (key : Key) (peers : List UInt32) : Move r (r.commit key peers).1
  /-- A hint has arrived. -/
  | receive (r : Registry) (e : HintEvent) : Move r (r.receive e)
  /-- Hints were sent, in any order and with any outcome. -/
  | broadcast (r : Registry) {σ : Type} (dispatch : HintEvent → σ → Except Fault Unit × σ)
      (sending : Arrangement Shipment) (world : σ) :
      Move r (r.broadcast dispatch sending world).2.1

theorem Move.reached (h : r.Reached) (m : Move r r') : r'.Reached := by
  cases m with
  | listen listener => exact h.listen listener
  | update done => exact h.update done
  | commit key peers => exact h.commit key peers
  | receive e => exact h.receive e
  | broadcast dispatch sending world => exact h.broadcast dispatch sending world

theorem Move.clocked (h : r.Clocked config) (m : Move r r') : r'.Clocked config := by
  cases m with
  | listen listener => exact ⟨h.config_eq, h.peers⟩
  | @update _ listed _ done =>
    have hupdate := h.update listed
    rwa [done] at hupdate
  | commit key peers => exact h.commit key peers
  | receive e => exact h.receive e
  | broadcast dispatch sending world => exact h.broadcast dispatch sending world

/-- What holds of a registry after every run that starts with a new one. -/
structure WellKept (config : ClusterParams) (r : Registry) : Prop where
  /-- Every peer is a host of the ring, filed under its digest. -/
  filed : ∀ (peer : UInt32) (p : Peer), r.peers[peer]? = some p →
    p.host ∈ r.ring.hosts ∧ digest p.host = peer
  /-- Every host of the ring has a peer under its digest. -/
  found : ∀ host ∈ r.ring.hosts, ∃ p, r.peers[digest host]? = some p ∧ p.host = host
  /-- The hosts of the ring have different digests. -/
  digests : (r.ring.hosts.map digest).Nodup
  /-- The hints have the configured parameters, and their clocks count their bits. -/
  clocks : ∀ (peer : UInt32) (p : Peer), r.peers[peer]? = some p →
    p.hint.capacity = config.capacity ∧ p.hint.recursions = config.recursions ∧
      p.shared ≤ p.clock ∧ p.clock ≤ p.hint.ones ∧ (p.clock = 0 ↔ p.hint.ones = 0)
  /-- When every hint has to be sent again, those that are not empty are due. -/
  requeued : ∀ (peer : UInt32) (p : Peer), r.unshareAll.peers[peer]? = some p →
    (p.due = true ↔ p.hint.ones ≠ 0)
  /-- With positive parameters a reconciliation never stops the program. -/
  updates : 0 < config.capacity → 0 < config.recursions → ∀ listed,
    ∃ churn, (r.update listed).1 = .ok churn

/-- Where ring and peers match, and the clocks are kept, all is well kept. -/
theorem wellKept_of_clocked (hsound : r.Sound) (h : r.Clocked config) : r.WellKept config where
  filed peer p hp := by
    obtain ⟨hdigest, hin⟩ := hsound.host_of_peer hp
    exact ⟨Placement.Ring.mem_hosts_iff.2 hin, hdigest⟩
  found _ hm := hsound.exists_peer (Placement.Ring.mem_hosts_iff.1 hm)
  digests := (hsound.nodes_perm.map digest).nodup_iff.1 hsound.nodup_digests
  clocks peer p hp := by
    have hkept := h.peers peer p hp
    exact ⟨hkept.shape.1, hkept.shape.2, hkept.shared_le, hkept.clock_le, hkept.clock_eq_zero_iff⟩
  requeued peer q hq := by
    have hkept := h.unshareAll.peers peer q hq
    rw [getElem?_unshareAll] at hq
    obtain ⟨p, hp, rfl⟩ := Option.map_eq_some_iff.1 hq
    rw [Peer.due, decide_eq_true_eq, Nat.pos_iff_ne_zero, ne_eq, hkept.clock_eq_zero_iff]
  updates hcap hrec listed :=
    (update_returns_iff r listed).2 (Or.inl (h.config_eq ▸ ⟨hcap, hrec⟩))

/-- However a new registry is moved on, its peers are the hosts of its ring, each
under its own digest; their hints keep the parameters that it was made with; and
the clocks count the bits: what was shared is no later than the clock, the clock is
no more than the number of bits set, and it is zero exactly when none is. -/
theorem wellKept_of_moves {host : Host} {made : Registry}
    (hmade : Registry.new config host = .ok made) (run : Relation.ReflTransGen Move made r) :
    r.WellKept config := by
  have hall : r.Reached ∧ r.Clocked config := by
    induction run with
    | refl => exact ⟨.new hmade, clocked_new hmade⟩
    | tail _ move ih => exact ⟨move.reached ih.1, move.clocked ih.2⟩
  exact wellKept_of_clocked hall.1.sound hall.2

/-- Three hosts join a new registry, and a key is recorded for one of them, whose
clock then stands at one. -/
theorem wellKept_of_one_commit :
    (trio.commit "k" [digest "a"]).1.clock? (digest "a") = some 1 ∧
      (trio.commit "k" [digest "a"]).1.WellKept ⟨2, 64, 1⟩ := by
  have hmade : Registry.new ⟨2, 64, 1⟩ "w" = .ok fresh := rfl
  have hjoined : (fresh.update ["a", "b", "c"]).1 = .ok ⟨3, 0⟩ := by decide +kernel
  have hdone : fresh.update ["a", "b", "c"] = (.ok ⟨3, 0⟩, trio) := Prod.ext hjoined rfl
  exact ⟨by decide +kernel, wellKept_of_moves hmade
    ((Relation.ReflTransGen.single (.update hdone)).tail (.commit trio "k" [digest "a"]))⟩

end Registry

end QuorumStore
