import QuorumStore.Proofs.Attempts
import QuorumStore.Proofs.Owners
import QuorumStore.Registry.Selection

/-!
# Peers and ring hosts

Whatever a registry goes through, its peers are the hosts of its ring, each filed
under its own digest. So no two hosts of a ring share a digest, and the nodes of
a registry are its ring hosts in another order.
-/

namespace QuorumStore.Registry

variable {r : Registry} {host : Host}

/-- The host filed under a digest. -/
def hostAt (r : Registry) (peer : UInt32) : Option Host := r.peers[peer]?.map Peer.host

/-- What every step of a registry keeps true. -/
structure Sound (r : Registry) : Prop where
  /-- The ring has only entries of its hosts. -/
  ring : r.ring.Sound
  /-- The hosts of the ring are filed under their digests, and no other host is. -/
  filed : ∀ peer host, r.hostAt peer = some host ↔ digest host = peer ∧ host ∈ r.ring.members

/-- The registries that the steps of a program lead to. A step that stops the
program leads nowhere. -/
inductive Reached : Registry → Prop where
  /-- A registry that was just made. -/
  | new {config : ClusterParams} {host : Host} {r : Registry}
      (made : Registry.new config host = .ok r) : Reached r
  /-- The registry listens, or it stops listening. -/
  | listen {r : Registry} (h : Reached r) (listener : Option Nat) :
      Reached { r with listener := listener }
  /-- Membership was reconciled. -/
  | update {r r' : Registry} (h : Reached r) {listed : List Host} {churn : Churn}
      (done : r.update listed = (.ok churn, r')) : Reached r'
  /-- Peers were recorded as holding a key. -/
  | commit {r : Registry} (h : Reached r) (key : Key) (peers : List UInt32) :
      Reached (r.commit key peers).1
  /-- A hint has arrived. -/
  | receive {r : Registry} (h : Reached r) (e : HintEvent) : Reached (r.receive e)
  /-- Hints were sent. -/
  | broadcast {r : Registry} (h : Reached r) {σ : Type}
      (dispatch : HintEvent → σ → Except Fault Unit × σ) (sending : Arrangement Shipment)
      (world : σ) : Reached (r.broadcast dispatch sending world).2.1

/-! ## Steps that change no host -/

theorem sound_new {config : ClusterParams} (made : Registry.new config host = .ok r) :
    r.Sound := by
  unfold Registry.new at made
  split_ifs at made with hpos
  cases made
  constructor
  · exact Placement.Ring.sound_empty config.factor hpos
  · intro peer host
    simp [hostAt, Placement.Ring.empty]

/-- A step that leaves the ring and the filed hosts alone keeps them matched. -/
theorem Sound.congr (h : r.Sound) {r' : Registry} (hring : r'.ring = r.ring)
    (hfiled : ∀ peer, r'.hostAt peer = r.hostAt peer) : r'.Sound := by
  constructor
  · rw [hring]
    exact h.ring
  · intro peer host
    rw [hfiled, hring]
    exact h.filed peer host

/-- Changing what is known about a peer files no host elsewhere. -/
theorem hostAt_modifyPeer (r : Registry) (peer other : UInt32) {f : Peer → Peer}
    (hf : ∀ p, (f p).host = p.host) : (r.modifyPeer peer f).hostAt other = r.hostAt other := by
  rw [hostAt, hostAt, getElem?_modifyPeer]
  split_ifs with he
  · rw [Option.map_map]
    exact congrArg (Option.map · _) (funext hf)
  · rfl

@[simp] theorem host_merge (p : Peer) (incoming : Hint) : (p.merge incoming).host = p.host := by
  unfold Peer.merge
  split <;> rfl

theorem Sound.modifyPeer (h : r.Sound) (peer : UInt32) {f : Peer → Peer}
    (hf : ∀ p, (f p).host = p.host) : (r.modifyPeer peer f).Sound :=
  h.congr rfl fun other => hostAt_modifyPeer r peer other hf

theorem Sound.commit (h : r.Sound) (key : Key) (peers : List UInt32) :
    (r.commit key peers).1.Sound := by
  induction peers generalizing r with
  | nil => exact h
  | cons peer rest ih =>
    rw [Registry.commit]
    split_ifs
    · exact ih (h.modifyPeer peer fun _ => rfl)
    · exact ih h

theorem Sound.receive (h : r.Sound) (e : HintEvent) : (r.receive e).Sound := by
  unfold Registry.receive
  split_ifs
  · exact h
  · split
    · exact h
    · exact h.modifyPeer e.peer fun p => host_merge p _

theorem Sound.ship {σ : Type} (dispatch : HintEvent → σ → Except Fault Unit × σ)
    (shipments : List Shipment) (h : r.Sound) (world : σ) :
    (ship dispatch shipments r world).2.1.Sound := by
  rw [ship_eq]
  refine h.congr (foldl_markSent_frame _ r).2.1 fun peer => ?_
  rw [hostAt, hostAt, getElem?_foldl_markSent, Option.map_map]
  rfl

theorem Sound.unshareAll (h : r.Sound) : r.unshareAll.Sound := by
  refine h.congr rfl fun peer => ?_
  rw [hostAt, hostAt, Registry.unshareAll, Std.TreeMap.getElem?_map, Option.map_map]
  rfl

/-! ## Hosts that come and go -/

theorem hostAt_drop (r : Registry) (host : Host) (peer : UInt32) :
    (r.drop host).hostAt peer = if digest host = peer then none else r.hostAt peer := by
  simp only [hostAt, Registry.drop, Std.TreeMap.getElem?_erase,
    Std.LawfulEqCmp.compare_eq_iff_eq]
  split_ifs <;> rfl

theorem hostAt_enrol (blank : Hint) (r : Registry) (host : Host) (peer : UInt32) :
    (r.enrol blank host).hostAt peer
      = if digest host = peer then some host else r.hostAt peer := by
  simp only [hostAt, Registry.enrol, Std.TreeMap.getElem?_insert,
    Std.LawfulEqCmp.compare_eq_iff_eq]
  split_ifs <;> rfl

/-- Two hosts of the ring never share a digest. -/
theorem Sound.digest_inj (h : r.Sound) {a b : Host} (ha : a ∈ r.ring.members)
    (hb : b ∈ r.ring.members) (heq : digest a = digest b) : a = b := by
  have hfa := (h.filed (digest a) a).2 ⟨rfl, ha⟩
  have hfb := (h.filed (digest a) b).2 ⟨heq.symm, hb⟩
  rw [hfa] at hfb
  exact Option.some.inj hfb

/-- The host of a peer is on the ring, and is filed under its digest. -/
theorem Sound.host_of_peer (h : r.Sound) {peer : UInt32} {p : Peer}
    (hp : r.peers[peer]? = some p) : digest p.host = peer ∧ p.host ∈ r.ring.members := by
  refine (h.filed peer p.host).1 ?_
  rw [hostAt, hp]
  rfl

/-- A host of the ring has its peer. -/
theorem Sound.exists_peer (h : r.Sound) (hin : host ∈ r.ring.members) :
    ∃ p, r.peers[digest host]? = some p ∧ p.host = host := by
  have hfiled := (h.filed (digest host) host).2 ⟨rfl, hin⟩
  rwa [hostAt, Option.map_eq_some_iff] at hfiled

theorem Sound.contains_peer (h : r.Sound) (hin : host ∈ r.ring.members) :
    r.peers.contains (digest host) = true := by
  obtain ⟨p, hp, -⟩ := h.exists_peer hin
  rw [Std.TreeMap.contains_eq_isSome_getElem?, hp]
  rfl

/-- A host of the ring is forgotten with its peer. -/
theorem Sound.drop (h : r.Sound) (hin : host ∈ r.ring.members) : (r.drop host).Sound := by
  have hring : (r.drop host).ring = (r.ring.remove host).1 := rfl
  constructor
  · rw [hring]
    exact h.ring.remove host
  · intro peer other
    rw [hostAt_drop, hring, Placement.Ring.mem_members_remove]
    split_ifs with hpeer
    · constructor
      · intro hnone
        cases hnone
      · rintro ⟨hd, hne, hother⟩
        exact absurd (h.digest_inj hother hin (hd.trans hpeer.symm)) hne
    · rw [h.filed]
      constructor
      · rintro ⟨hd, hother⟩
        exact ⟨hd, fun he => hpeer (he ▸ hd), hother⟩
      · rintro ⟨hd, -, hother⟩
        exact ⟨hd, hother⟩

/-- Dropping hosts that are all on the ring, each named once. -/
theorem Sound.foldl_drop {gone : List Host} (h : r.Sound) (hnodup : gone.Nodup)
    (hin : ∀ host ∈ gone, host ∈ r.ring.members) : (gone.foldl Registry.drop r).Sound := by
  induction gone generalizing r with
  | nil => exact h
  | cons host rest ih =>
    obtain ⟨hfresh, hrest⟩ := List.nodup_cons.1 hnodup
    have hring : (r.drop host).ring = (r.ring.remove host).1 := rfl
    refine ih (h.drop (hin host List.mem_cons_self)) hrest fun other hm => ?_
    rw [hring, Placement.Ring.mem_members_remove]
    exact ⟨fun he => hfresh (he ▸ hm), hin other (List.mem_cons_of_mem host hm)⟩

theorem Sound.dropMissing (h : r.Sound) (listed : List Host) : (r.dropMissing listed).Sound := by
  refine h.foldl_drop (r.ring.nodup_hosts.filter _) fun host hm => ?_
  exact Placement.Ring.mem_hosts_iff.1 (List.mem_of_mem_filter hm)

/-- A host joins under a digest that is free. -/
theorem Sound.enrol (h : r.Sound) (blank : Hint) (hnew : r.accepts host = true) :
    (r.enrol blank host).Sound := by
  rw [accepts, Bool.and_eq_true, Bool.not_eq_true', Bool.not_eq_true'] at hnew
  have hring : (r.enrol blank host).ring = (r.ring.add host).1 := rfl
  have hfree : r.hostAt (digest host) = none := by
    rw [hostAt, Std.TreeMap.getElem?_eq_none_of_contains_eq_false hnew.2]
    rfl
  constructor
  · rw [hring]
    exact h.ring.add host
  · intro peer other
    rw [hostAt_enrol, hring, Placement.Ring.mem_members_add]
    split_ifs with hpeer
    · have hnone : ∀ other, r.hostAt peer ≠ some other := by
        intro other ho
        rw [← hpeer, hfree] at ho
        cases ho
      rw [Option.some.injEq]
      constructor
      · rintro rfl
        exact ⟨hpeer, Or.inl rfl⟩
      · rintro ⟨hd, rfl | ho⟩
        · rfl
        · exact absurd ((h.filed peer other).2 ⟨hd, ho⟩) (hnone other)
    · rw [h.filed]
      constructor
      · rintro ⟨hd, ho⟩
        exact ⟨hd, Or.inr ho⟩
      · rintro ⟨hd, rfl | ho⟩
        · exact absurd hd hpeer
        · exact ⟨hd, ho⟩

theorem Sound.enrolAll (h : r.Sound) (blank : Hint) (listed : List Host) :
    (r.enrolAll blank listed).1.Sound := by
  induction listed generalizing r with
  | nil => exact h
  | cons host rest ih =>
    rw [Registry.enrolAll]
    split_ifs with hnew
    · exact ih (h.enrol blank hnew)
    · exact ih h

theorem Sound.reconcile (h : r.Sound) (blank : Hint) (listed : List Host) :
    (r.reconcile blank listed).1.Sound := by
  have hkept := (h.dropMissing listed).enrolAll blank listed
  unfold Registry.reconcile
  dsimp only
  split_ifs
  · exact hkept.unshareAll
  · exact hkept

theorem Sound.update (h : r.Sound) {r' : Registry} {listed : List Host} {churn : Churn}
    (done : r.update listed = (.ok churn, r')) : r'.Sound := by
  unfold Registry.update at done
  split at done
  · cases done
    exact h.reconcile _ listed
  · dsimp only at done
    split at done
    · cases done
    · cases done
      exact h.dropMissing listed

/-- The peers of a registry always match the hosts of its ring. -/
theorem Reached.sound (h : r.Reached) : r.Sound := by
  induction h with
  | new made => exact sound_new made
  | listen _ listener ih => exact ih.congr rfl fun _ => rfl
  | update _ done ih => exact ih.update done
  | commit _ key peers ih => exact ih.commit key peers
  | receive _ e ih => exact ih.receive e
  | broadcast _ dispatch sending world ih => exact ih.ship dispatch _ world

/-! ## The nodes -/

/-- The values of a table, in the order of its keys. -/
theorem values_eq_map_snd {α β : Type} {cmp : α → α → Ordering} (t : Std.TreeMap α β cmp) :
    t.values = t.toList.map Prod.snd := by
  have hfold : t.values = t.foldr (fun _ value rest => value :: rest) [] := rfl
  rw [hfold, Std.TreeMap.foldr_eq_foldr_toList, ← List.map_eq_foldr]

/-- The nodes are the hosts of the peers, in the order of their digests. -/
theorem nodes_eq (r : Registry) : r.nodes = r.peers.toList.map fun (_, p) => p.host := by
  rw [nodes, values_eq_map_snd, List.map_map]
  rfl

/-- The nodes are the hosts of the ring. -/
theorem Sound.mem_nodes (h : r.Sound) : host ∈ r.nodes ↔ host ∈ r.ring.members := by
  rw [nodes_eq, List.mem_map]
  constructor
  · rintro ⟨⟨peer, p⟩, hm, rfl⟩
    exact (h.host_of_peer (Std.TreeMap.mem_toList_iff_getElem?_eq_some.1 hm)).2
  · intro hin
    obtain ⟨p, hget, hhost⟩ := h.exists_peer hin
    exact ⟨(digest host, p), Std.TreeMap.mem_toList_iff_getElem?_eq_some.2 hget, hhost⟩

/-- The nodes have different digests: those under which they are filed. -/
theorem Sound.nodup_digests (h : r.Sound) : (r.nodes.map digest).Nodup := by
  have hkeys : r.nodes.map digest = r.peers.keys := by
    rw [nodes_eq, ← Std.TreeMap.map_fst_toList_eq_keys, List.map_map]
    refine List.map_congr_left fun ⟨peer, p⟩ hm => ?_
    exact (h.host_of_peer (Std.TreeMap.mem_toList_iff_getElem?_eq_some.1 hm)).1
  rw [hkeys]
  exact Std.TreeMap.nodup_keys

theorem Sound.nodup_nodes (h : r.Sound) : r.nodes.Nodup := h.nodup_digests.of_map

/-- The nodes are the ring hosts in another order. -/
theorem Sound.nodes_perm (h : r.Sound) : r.nodes.Perm r.ring.hosts := by
  refine (List.perm_ext_iff_of_nodup h.nodup_nodes r.ring.nodup_hosts).2 fun host => ?_
  rw [h.mem_nodes, Placement.Ring.mem_hosts_iff]

/-- Hosts of the ring are known under their own names. -/
theorem Sound.known_eq (h : r.Sound) {hosts : List Host}
    (hin : ∀ host ∈ hosts, host ∈ r.ring.members) : r.known hosts = hosts := by
  induction hosts with
  | nil => rfl
  | cons host rest ih =>
    have hfiled := (h.filed (digest host) host).2 ⟨rfl, hin host List.mem_cons_self⟩
    have hrest := ih fun other hm => hin other (List.mem_cons_of_mem host hm)
    rw [known] at hrest ⊢
    rw [hostAt] at hfiled
    rw [List.filterMap_cons, hfiled, hrest]

end QuorumStore.Registry
