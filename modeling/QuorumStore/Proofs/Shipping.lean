import QuorumStore.Proofs.HintCount
import QuorumStore.Proofs.SharingLoops

/-!
# What a broadcast owes

A hint that is due is sent once by a broadcast, and once it was delivered it is due no
longer. A hint becomes due only by a commit that changes it or by a reconciliation
that lets a host join; one that arrives leaves that as it is. So each delivery is paid
for by a change of the registry's own.
-/

namespace QuorumStore

/-- A hint that arrives leaves a hint due or not due. -/
theorem Peer.due_merge (p : Peer) (incoming : Hint) : (p.merge incoming).due = p.due := by
  unfold Peer.merge
  split
  · cases hdue : p.due with
    | true =>
      have hlt : p.shared < p.clock := of_decide_eq_true hdue
      exact decide_eq_true (Nat.lt_succ_of_lt hlt)
    | false => exact decide_eq_false (Nat.lt_irrefl _)
  · rfl

/-- A hint that was sent as it stood at a clock value is due if it has moved on since. -/
theorem Peer.due_sentAt (p : Peer) (clock : Nat) :
    (p.sentAt clock).due = (p.due && decide (clock < p.clock)) := by
  rw [due, due, ← Bool.decide_and]
  exact decide_eq_decide.2 Nat.max_lt

namespace Registry

variable {r : Registry} {σ : Type}

/-! ## Delivered shipments -/

variable (dispatch : HintEvent → σ → Except Fault Unit × σ) (sending : Arrangement Shipment)

/-- A broadcast leaves the host, the ring, the configuration and who is known. -/
theorem broadcast_frame (r : Registry) (world : σ) :
    (r.broadcast dispatch sending world).2.1.host = r.host ∧
      (r.broadcast dispatch sending world).2.1.ring = r.ring ∧
      (r.broadcast dispatch sending world).2.1.config = r.config ∧
      ∀ peer, (r.broadcast dispatch sending world).2.1.knows peer = r.knows peer := by
  rw [broadcast, ship_eq]
  obtain ⟨hhost, hring, hconfig, -⟩ :=
    foldl_markSent_frame (delivered dispatch (sending.order r.shipments) r world) r
  refine ⟨hhost, hring, hconfig, fun peer => ?_⟩
  rw [knows, knows, getElem?_foldl_markSent, Option.isSome_map]

/-- Where nothing is to be shipped nothing is due. -/
theorem pending_of_no_shipments (h : r.shipments = []) (peer : UInt32) :
    r.pending peer = false := by
  by_contra hdue
  rw [Bool.not_eq_false] at hdue
  obtain ⟨p, hp, hpdue⟩ := (Option.any_eq_true _ _).1 hdue
  have hm : (⟨peer, p.clock, p.hint.toBytes⟩ : Shipment) ∈ r.shipments :=
    mem_shipments.2 ⟨p, hp, hpdue, rfl, rfl⟩
  rw [h] at hm
  cases hm

/-- Only what is among the shipments has a latest clock. -/
theorem exists_of_latest_pos {shipments : List Shipment} {peer : UInt32}
    (h : 0 < latest shipments peer) : ∃ s ∈ shipments, s.peer = peer := by
  by_contra hnone
  refine Nat.not_le.2 h (latest_le fun s hs he => ?_)
  exact absurd ⟨s, hs, he⟩ hnone

/-- Each hint is shipped once, in whatever order. -/
theorem nodup_shipments (r : Registry) :
    ((sending.order r.shipments).map Shipment.peer).Nodup := by
  refine ((sending.perm r.shipments).map Shipment.peer).nodup_iff.2 (List.pairwise_map.2 ?_)
  refine List.Pairwise.filterMap _ (fun a b hne s hs t ht he => hne ?_)
    Std.TreeMap.distinct_keys_toList
  rw [Std.LawfulEqCmp.compare_eq_iff_eq]
  dsimp only at hs ht
  split_ifs at hs ht
  cases hs
  cases ht
  exact he

/-! ## What makes a hint due -/

/-- A hint that arrives makes none due, and none cease to be. -/
theorem pending_receive (r : Registry) (e : HintEvent) (peer : UInt32) :
    (r.receive e).pending peer = r.pending peer := by
  unfold receive
  split_ifs
  · rfl
  · split
    · rfl
    · rw [pending, pending, getElem?_modifyPeer]
      split_ifs
      · rw [Option.any_map]
        exact congrArg (Option.any · _) (funext fun p => p.due_merge _)
      · rfl

/-- The words of the hint of a digest. -/
def words? (r : Registry) (peer : UInt32) : Option (Array UInt64) :=
  r.peers[peer]?.map fun p => p.hint.words

/-- A commit leaves a peer alone, or its hint has more bits. -/
theorem entry_commit_ones (r : Registry) (key : Key) (peers : List UInt32) {peer : UInt32}
    {q : Peer} (h : (r.commit key peers).1.peers[peer]? = some q) :
    ∃ p, r.peers[peer]? = some p ∧ (q = p ∨ p.hint.ones < q.hint.ones) := by
  induction peers generalizing r with
  | nil => exact ⟨q, h, Or.inl rfl⟩
  | cons first rest ih =>
    rw [commit] at h
    split_ifs at h with hadds
    · obtain ⟨p, hp, hq⟩ := ih _ h
      rw [getElem?_modifyPeer] at hp
      split_ifs at hp with hfirst
      · obtain ⟨p', hp', rfl⟩ := Option.map_eq_some_iff.1 hp
        have hnew : p'.hint.contains (Bytes.ofText key) = false := by
          rw [Bool.and_eq_true, Bool.not_eq_true', hfirst, hinted, hp'] at hadds
          exact hadds.2
        refine ⟨p', hp', Or.inr ?_⟩
        have hadd := Hint.ones_lt_add hnew
        rcases hq with rfl | hmore
        · exact hadd
        · exact Nat.lt_trans hadd hmore
      · exact ⟨p, hp, hq⟩
    · exact ih r h

/-- A commit makes a hint due only by changing it. -/
theorem pending_commit {key : Key} {peers : List UInt32} {peer : UInt32}
    (h : (r.commit key peers).1.pending peer = true) :
    r.pending peer = true ∨ (r.commit key peers).1.words? peer ≠ r.words? peer := by
  obtain ⟨q, hq, hdue⟩ := (Option.any_eq_true _ _).1 h
  obtain ⟨p, hp, rfl | hmore⟩ := entry_commit_ones r key peers hq
  · exact Or.inl ((Option.any_eq_true _ _).2 ⟨q, hp, hdue⟩)
  · refine Or.inr fun hsame => Nat.ne_of_lt hmore ?_
    rw [words?, words?, hq, hp, Option.map_some, Option.map_some, Option.some_inj] at hsame
    rw [Hint.ones, Hint.ones, hsame]

/-- A reconciliation makes a hint due only by letting a host join. -/
theorem pending_update {listed : List Host} {peer : UInt32}
    (h : (r.update listed).2.pending peer = true) :
    r.pending peer = true ∨ 0 < Loops.joined (r.update listed).1 := by
  obtain ⟨q, hq, hdue⟩ := (Option.any_eq_true _ _).1 h
  rw [Peer.due, decide_eq_true_eq] at hdue
  rcases Loops.entry_update r listed hq with ⟨hclock, hshared, -⟩ | ⟨p, hp, -, hclock, hshared⟩
  · omega
  · split_ifs at hshared with hjoined
    · exact Or.inr hjoined
    · refine Or.inl ((Option.any_eq_true _ _).2 ⟨p, hp, decide_eq_true ?_⟩)
      omega

/-- What is due after a broadcast was due before it. -/
theorem pending_broadcast (r : Registry) (world : σ) (peer : UInt32) :
    (r.broadcast dispatch sending world).2.1.pending peer = (r.peers[peer]?).any fun p =>
      p.due && decide (latest (delivered dispatch (sending.order r.shipments) r world) peer
        < p.clock) := by
  rw [pending, broadcast, ship_eq, getElem?_foldl_markSent, Option.any_map]
  exact congrArg (Option.any · _) (funext fun p => p.due_sentAt _)

/-- Each hint that a broadcast delivers was due before it and is not due after it. -/
theorem pending_of_delivered {r : Registry} {world : σ} {s : Shipment}
    (hs : s ∈ delivered dispatch (sending.order r.shipments) r world) :
    r.pending s.peer = true ∧
      (r.broadcast dispatch sending world).2.1.pending s.peer = false := by
  obtain ⟨p, hp, hdue, hclock, -⟩ :=
    mem_shipments.1 (sending.mem_order.1 ((delivered_sublist dispatch _ r world).subset hs))
  have hlatest := le_latest hs
  refine ⟨(Option.any_eq_true _ _).2 ⟨p, hp, hdue⟩, ?_⟩
  rw [pending_broadcast, hp, Option.any_some, decide_eq_false (by omega), Bool.and_false]

/-- A broadcast delivers a hint as often at most as it makes it cease to be due. -/
theorem count_delivered_add_pending (r : Registry) (world : σ) (peer : UInt32) :
    ((delivered dispatch (sending.order r.shipments) r world).map Shipment.peer).count peer
        + ((r.broadcast dispatch sending world).2.1.pending peer).toNat
      ≤ (r.pending peer).toNat := by
  by_cases hm : peer ∈ (delivered dispatch (sending.order r.shipments) r world).map Shipment.peer
  · obtain ⟨s, hs, rfl⟩ := List.mem_map.1 hm
    obtain ⟨hbefore, hafter⟩ := pending_of_delivered dispatch sending hs
    have hsub := (delivered_sublist dispatch (sending.order r.shipments) r world).map Shipment.peer
    have honce := List.nodup_iff_count_le_one.1 (nodup_shipments sending r) s.peer
    rw [hbefore, hafter]
    exact (hsub.count_le s.peer).trans honce
  · rw [List.count_eq_zero.2 hm, Nat.zero_add]
    refine Bool.toNat_le_toNat fun hafter => ?_
    rw [pending_broadcast] at hafter
    obtain ⟨p, hp, hdue⟩ := (Option.any_eq_true _ _).1 hafter
    exact (Option.any_eq_true _ _).2 ⟨p, hp, (Bool.and_eq_true_iff.1 hdue).1⟩

end Registry

end QuorumStore
