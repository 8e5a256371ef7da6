import QuorumStore.Proofs.PeerClocks
import QuorumStore.Proofs.ReadAfterWrite
import QuorumStore.Proofs.Reconciling

/-!
# A recorded key stays findable

Once a commit has recorded a key for a host of the ring, the hint of the host holds
the key as long as the host stays on the ring, whatever else joins, leaves, arrives,
is recorded or is sent: a hint only gains bits, and nobody takes the place of a host
that stays. So a read on one node finds a node, and a read on consensus finds one at
least, in whatever order chance puts the nodes.
-/

namespace QuorumStore

/-- A hint that arrives takes no item away. -/
theorem Peer.contains_merge (p : Peer) (incoming : Hint) {item : Bytes}
    (h : p.hint.contains item = true) : (p.merge incoming).hint.contains item = true := by
  unfold Peer.merge
  split
  · next hint hunion =>
    obtain ⟨-, hsame, hbits⟩ := Hint.of_union hunion
    refine Hint.contains_mono hsame.symm (fun i hb => ?_) h
    rw [hbits, hb, Bool.true_or]
  · exact h

namespace Registry

variable {config : ClusterParams} {r r' : Registry} {host : Host} {listed : List Host}

/-! ## Steps that leave the peers where they are -/

/-- Changing a peer so that it loses no key loses none. -/
theorem hinted_modifyPeer {peer other : UInt32} {f : Peer → Peer} {key : Key}
    (hf : ∀ p : Peer, p.hint.contains (Bytes.ofText key) = true →
      (f p).hint.contains (Bytes.ofText key) = true)
    (h : r.hinted other key = true) : (r.modifyPeer peer f).hinted other key = true := by
  unfold hinted at h ⊢
  rw [getElem?_modifyPeer]
  split_ifs
  · cases hp : r.peers[other]? with
    | none =>
      rw [hp] at h
      cases h
    | some p =>
      rw [hp] at h
      exact hf p h
  · exact h

/-- Recording another key takes none away. -/
theorem hinted_commit_of_hinted (key' : Key) (peers : List UInt32) {peer : UInt32} {key : Key}
    (h : r.hinted peer key = true) : (r.commit key' peers).1.hinted peer key = true := by
  induction peers generalizing r with
  | nil => exact h
  | cons first rest ih =>
    rw [commit]
    split_ifs
    · exact ih (hinted_modifyPeer (fun p hp => p.hint.contains_add_of_contains _ hp) h)
    · exact ih h

/-- A hint that arrives, whatever its octets, takes no key away. -/
theorem hinted_receive (e : HintEvent) {peer : UInt32} {key : Key}
    (h : r.hinted peer key = true) : (r.receive e).hinted peer key = true := by
  unfold receive
  split_ifs
  · exact h
  · split
    · exact h
    · exact hinted_modifyPeer (fun p hp => p.contains_merge _ hp) h

/-- Sending hints takes no key away. -/
theorem hinted_ship {σ : Type} (dispatch : HintEvent → σ → Except Fault Unit × σ)
    (shipments : List Shipment) (world : σ) {peer : UInt32} {key : Key}
    (h : r.hinted peer key = true) :
    (ship dispatch shipments r world).2.1.hinted peer key = true := by
  unfold hinted at h ⊢
  rw [ship_eq, getElem?_foldl_markSent]
  cases hp : r.peers[peer]? with
  | none =>
    rw [hp] at h
    cases h
  | some p =>
    rw [hp] at h
    exact h

/-- A host that stays on the ring keeps its hint through a reconciliation. -/
theorem Sound.hinted_update (h : r.Sound) {churn : Churn}
    (done : r.update listed = (.ok churn, r')) (hin : host ∈ r.ring.members)
    (hlisted : host ∈ listed) (key : Key) :
    r'.hinted (digest host) key = r.hinted (digest host) key := by
  obtain ⟨p, hp, rfl⟩ := h.exists_peer hin
  -- what counts as shared may start again, which the keys do not show
  rw [hinted, hinted, (h.reconciled done).survivor _ p hp hlisted, hp]

/-! ## Runs -/

/-- However a new registry is moved on, its peers match its ring, and its clocks its hints. -/
theorem reached_of_moves {own : Host} {made : Registry} (hmade : Registry.new config own = .ok made)
    (run : Relation.ReflTransGen Move made r) : r.Reached ∧ r.Clocked config := by
  induction run with
  | refl => exact ⟨.new hmade, clocked_new hmade⟩
  | tail _ move ih => exact ⟨move.reached ih.1, move.clocked ih.2⟩

/-- A step after which a host is on the ring. -/
def Sparing (host : Host) (r r' : Registry) : Prop := Move r r' ∧ host ∈ r'.ring.hosts

/-- No step takes a key from the hint of a host that stays. -/
theorem Move.hinted (m : Move r r') (h : r.Sound) (hin : host ∈ r.ring.members)
    (hstays : host ∈ r'.ring.members) {key : Key} (hheld : r.hinted (digest host) key = true) :
    r'.hinted (digest host) key = true := by
  cases m with
  | listen listener => exact hheld
  | update done =>
    rw [h.hinted_update done hin (listed_of_update done hstays)]
    exact hheld
  | commit key' peers => exact hinted_commit_of_hinted key' peers hheld
  | receive e => exact hinted_receive e hheld
  | broadcast dispatch sending world => exact hinted_ship dispatch _ world hheld

/-- Where a host of the ring is believed to hold a key, every read finds holders of it. -/
theorem Sound.read_ne_nil (h : r.Sound) {key : Key} (hin : host ∈ r.ring.members)
    (hheld : r.holds key host = true) {shuffle : List Host → List Host}
    (hshuffle : ∀ hosts, (shuffle hosts).Perm hosts) :
    (∃ found ∈ r.holders key, r.read shuffle key .one = [found]) ∧
      r.read shuffle key .consensus ≠ [] := by
  have hholder : host ∈ r.holders key := mem_holders.2 ⟨hin, hheld⟩
  constructor
  · have hnode : host ∈ shuffle r.nodes := (hshuffle r.nodes).mem_iff.2 (h.mem_nodes.2 hin)
    obtain ⟨found, hfound⟩ :=
      Option.isSome_iff_exists.1 (List.find?_isSome.2 ⟨host, hnode, hheld⟩)
    have hm := (hshuffle r.nodes).mem_iff.1 (List.mem_of_find?_eq_some hfound)
    refine ⟨found, mem_holders.2 ⟨h.mem_nodes.1 hm, List.find?_some hfound⟩, ?_⟩
    rw [read, hfound]
    rfl
  · have hlen := h.length_read_consensus hshuffle key
    have hpos := List.length_pos_of_mem hholder
    have hmajority : 0 < majority r.ring.size := Nat.succ_pos _
    refine List.ne_nil_of_length_pos ?_
    omega

/-- So a read of the key asks some host, whatever its quorum is. -/
theorem Sound.read_asks (h : r.Sound) {key : Key} (hin : host ∈ r.ring.members)
    (hheld : r.holds key host = true) {shuffle : List Host → List Host}
    (hshuffle : ∀ hosts, (shuffle hosts).Perm hosts) (quorum : Quorum) :
    r.read shuffle key quorum ≠ [] := by
  obtain ⟨⟨found, -, hone⟩, hconsensus⟩ := h.read_ne_nil hin hheld hshuffle
  cases quorum with
  | one =>
    rw [hone]
    exact List.cons_ne_nil _ _
  | strong => exact List.ne_nil_of_mem ((hshuffle _).mem_iff.2 (h.mem_nodes.2 hin))
  | consensus => exact hconsensus

/-- Once a commit has recorded a key for a host of the ring, then as long as the host
stays there its hint holds the key, a read on one node goes to exactly one node, a read
on consensus goes to one at least, and all of them are believed to hold the key. No
reconciliation stops the program meanwhile. -/
theorem findable_of_commit {own : Host} {made s : Registry}
    (hmade : Registry.new config own = .ok made) (before : Relation.ReflTransGen Move made r)
    (hin : host ∈ r.ring.hosts) {peers : List UInt32} (hnamed : digest host ∈ peers) (key : Key)
    (after : Relation.ReflTransGen (Sparing host) (r.commit key peers).1 s) :
    s.hinted (digest host) key = true ∧
      (∀ shuffle : List Host → List Host, (∀ hosts, (shuffle hosts).Perm hosts) →
        (∃ found ∈ s.holders key, s.read shuffle key .one = [found]) ∧
        s.read shuffle key .consensus ≠ [] ∧
        ∀ found ∈ s.read shuffle key .consensus, found ∈ s.holders key) ∧
      ∀ listed, ∃ churn, (s.update listed).1 = .ok churn := by
  obtain ⟨hreached, hclocked⟩ := reached_of_moves hmade before
  have hfound := (wellKept_of_clocked hreached.sound hclocked).found host hin
  -- what every later step keeps: the host stays, and so does the key in its hint
  have hkept : s.Reached ∧ s.Clocked config ∧ host ∈ s.ring.hosts ∧
      s.hinted (digest host) key = true := by
    induction after with
    | refl =>
      obtain ⟨p, hp, -⟩ := hfound
      refine ⟨hreached.commit key peers, hclocked.commit key peers, ?_, ?_⟩
      · rw [ring_commit]
        exact hin
      · refine (hinted_commit r key peers _).2 (Or.inr ⟨hnamed, ?_⟩)
        rw [Std.TreeMap.contains_eq_isSome_getElem?, hp]
        rfl
    | tail _ step ih =>
      obtain ⟨hr, hc, hon, hheld⟩ := ih
      exact ⟨step.1.reached hr, step.1.clocked hc, step.2,
        step.1.hinted hr.sound (Placement.Ring.mem_hosts_iff.1 hon)
          (Placement.Ring.mem_hosts_iff.1 step.2) hheld⟩
  obtain ⟨hlater, hclocks, hon, hheld⟩ := hkept
  refine ⟨hheld, fun shuffle hshuffle => ?_, ?_⟩
  · obtain ⟨hone, hsome⟩ :=
      hlater.sound.read_ne_nil (Placement.Ring.mem_hosts_iff.1 hon) hheld hshuffle
    exact ⟨hone, hsome, fun found hm => hlater.sound.mem_holders_of_read hshuffle hm⟩
  · have hkept := wellKept_of_clocked hlater.sound hclocks
    -- a hint that is there has positive parameters, which are the configured ones
    obtain ⟨p, hp, -⟩ := hkept.found host hon
    obtain ⟨hcapacity, hrecursions, -⟩ := hkept.clocks (digest host) p hp
    exact hkept.updates (hcapacity ▸ p.hint.capacity_pos) (hrecursions ▸ p.hint.recursions_pos)

/-- Octets that are no hint, sent for one. -/
def garbled : HintEvent := ⟨"x", digest "a", [1, 2, 3]⟩

/-- A hint for one host that has two bits set. -/
def foreign : HintEvent := ⟨"x", digest "a", Bytes.ofNat 8 64 ++ Bytes.ofNat 8 1 ++ Bytes.ofNat 8 5⟩

/-- Three hosts, one of which has a key recorded, once both have arrived. -/
def visited : Registry := ((trio.commit "k" [digest "a"]).1.receive garbled).receive foreign

/-- Then two hosts leave, and another one joins. -/
def churned : Registry := (visited.update ["d", "a"]).2

/-- The key is found all the same. -/
theorem findable_of_churned :
    churned.ring.hosts = ["a", "d"] ∧
      churned.hinted (digest "a") "k" = true ∧
      (∀ shuffle : List Host → List Host, (∀ hosts, (shuffle hosts).Perm hosts) →
        (∃ found ∈ churned.holders "k", churned.read shuffle "k" .one = [found]) ∧
        churned.read shuffle "k" .consensus ≠ [] ∧
        ∀ found ∈ churned.read shuffle "k" .consensus, found ∈ churned.holders "k") ∧
      ∀ listed, ∃ churn, (churned.update listed).1 = .ok churn := by
  have hmade : Registry.new ⟨2, 64, 1⟩ "w" = .ok fresh := rfl
  have hjoined : (fresh.update ["a", "b", "c"]).1 = .ok ⟨3, 0⟩ := by decide +kernel
  have hchurn : (visited.update ["d", "a"]).1 = .ok ⟨1, 2⟩ := by decide +kernel
  have before : Relation.ReflTransGen Move fresh trio :=
    .single (.update (Prod.ext hjoined rfl))
  have received : Relation.ReflTransGen (Sparing "a") (trio.commit "k" [digest "a"]).1 visited :=
    (Relation.ReflTransGen.single ⟨.receive _ garbled, by decide +kernel⟩).tail
      ⟨.receive _ foreign, by decide +kernel⟩
  have after : Relation.ReflTransGen (Sparing "a") (trio.commit "k" [digest "a"]).1 churned :=
    received.tail ⟨.update (Prod.ext hchurn rfl), by decide +kernel⟩
  exact ⟨by decide +kernel,
    findable_of_commit hmade before (by decide +kernel) List.mem_cons_self "k" after⟩

end Registry

end QuorumStore
