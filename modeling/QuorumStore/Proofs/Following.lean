import QuorumStore.Proofs.SharingLoops

/-!
# Following a list of hosts

After a reconciliation the hosts of the ring are listed, and no listed host would join
that has not joined. So a registry that follows the same list again lets nobody in.
-/

namespace QuorumStore.Registry

variable {r r' : Registry} {host : Host} {listed : List Host}

/-! ## What a step leaves as it is -/

theorem knows_of_peer {peer : UInt32} {p : Peer} (hp : r.peers[peer]? = some p) :
    r.knows peer = true := by
  rw [knows, hp]
  rfl

theorem knows_modifyPeer (r : Registry) (peer other : UInt32) (f : Peer → Peer) :
    (r.modifyPeer peer f).knows other = r.knows other := by
  rw [knows, knows, getElem?_modifyPeer]
  split_ifs
  · exact Option.isSome_map
  · rfl

theorem config_receive (r : Registry) (e : HintEvent) : (r.receive e).config = r.config := by
  unfold receive
  split_ifs
  · rfl
  · split <;> rfl

/-- Dropping hosts leaves the registry's own host and the configuration. -/
theorem dropMissing_frame (r : Registry) (listed : List Host) :
    (r.dropMissing listed).host = r.host ∧ (r.dropMissing listed).config = r.config := by
  have hdrop (gone : List Host) (r : Registry) :
      (gone.foldl drop r).host = r.host ∧ (gone.foldl drop r).config = r.config := by
    induction gone generalizing r with
    | nil => exact ⟨rfl, rfl⟩
    | cons first rest ih => exact ih (r.drop first)
  exact hdrop (r.departed listed) r

/-- A reconciliation leaves the host and the configuration. -/
theorem update_frame (r : Registry) (listed : List Host) :
    (r.update listed).2.host = r.host ∧ (r.update listed).2.config = r.config := by
  have henrol (blank : Hint) (listed : List Host) (r : Registry) :
      (r.enrolAll blank listed).1.host = r.host ∧
        (r.enrolAll blank listed).1.config = r.config := by
    induction listed generalizing r with
    | nil => exact ⟨rfl, rfl⟩
    | cons first rest ih =>
      rw [enrolAll]
      split_ifs
      · exact ih (r.enrol blank first)
      · exact ih r
  obtain ⟨hhost, hconfig⟩ := dropMissing_frame r listed
  cases hnew : Hint.new r.config.capacity r.config.recursions with
  | ok blank =>
    obtain ⟨hhost', hconfig'⟩ := henrol blank listed (r.dropMissing listed)
    rw [(Loops.update_of_ok listed hnew).2]
    split_ifs <;> exact ⟨hhost'.trans hhost, hconfig'.trans hconfig⟩
  | error abort =>
    rw [update, hnew]
    dsimp only
    split <;> exact ⟨hhost, hconfig⟩

/-- A commit leaves the host, the configuration, the ring and who is known. -/
theorem commit_frame (r : Registry) (key : Key) (peers : List UInt32) :
    (r.commit key peers).1.host = r.host ∧ (r.commit key peers).1.config = r.config ∧
      (r.commit key peers).1.ring = r.ring ∧
      ∀ peer, (r.commit key peers).1.knows peer = r.knows peer := by
  induction peers generalizing r with
  | nil => exact ⟨rfl, rfl, rfl, fun _ => rfl⟩
  | cons first rest ih =>
    rw [commit]
    split_ifs
    · obtain ⟨hhost, hconfig, hring, hknows⟩ := ih _
      exact ⟨hhost, hconfig, hring,
        fun peer => (hknows peer).trans (knows_modifyPeer r first peer _)⟩
    · exact ih r

/-! ## Who is on the ring -/

/-- The hosts on the ring after some were dropped. -/
theorem mem_members_foldl_drop (gone : List Host) (r : Registry) :
    host ∈ (gone.foldl drop r).ring.members ↔ host ∈ r.ring.members ∧ host ∉ gone := by
  induction gone generalizing r with
  | nil => simp
  | cons other rest ih =>
    have hring : (r.drop other).ring = (r.ring.remove other).1 := rfl
    rw [List.foldl_cons, ih, hring, Placement.Ring.mem_members_remove, List.mem_cons, not_or,
      and_assoc, and_left_comm]

/-- The hosts that stay are those that are listed. -/
theorem mem_members_dropMissing :
    host ∈ (r.dropMissing listed).ring.members ↔ host ∈ r.ring.members ∧ host ∈ listed := by
  rw [dropMissing, mem_members_foldl_drop, departed, List.mem_filter,
    Placement.Ring.mem_hosts_iff, Bool.not_eq_true', List.contains_eq_mem,
    decide_eq_false_iff_not, not_and, not_not]
  exact and_congr_right fun hin => forall_prop_of_true hin

/-! ## Who would join -/

/-- A host does not join if it is on the ring or its digest is taken. -/
theorem accepts_eq_false_iff :
    r.accepts host = false ↔ host ∈ r.ring.members ∨ r.knows (digest host) = true := by
  rw [accepts, Bool.and_eq_false_iff, Bool.not_eq_false', Bool.not_eq_false',
    Placement.Ring.contains_iff, Std.TreeMap.contains_eq_isSome_getElem?, knows]

/-- A registry with more hosts and more peers lets in no others. -/
theorem accepts_mono (hring : ∀ host ∈ r.ring.members, host ∈ r'.ring.members)
    (hknows : ∀ peer, r.knows peer = true → r'.knows peer = true) (h : r.accepts host = false) :
    r'.accepts host = false :=
  accepts_eq_false_iff.2 ((accepts_eq_false_iff.1 h).imp (hring host) (hknows (digest host)))

/-- A registry with the same hosts and peers lets in the same. -/
theorem accepts_congr (hring : r'.ring = r.ring) (hknows : ∀ peer, r'.knows peer = r.knows peer) :
    r'.accepts host = r.accepts host := by
  rw [Bool.eq_iff_iff, ← not_iff_not, Bool.not_eq_true, Bool.not_eq_true, accepts_eq_false_iff,
    accepts_eq_false_iff, hring, hknows]

/-- Whoever would join after others were dropped would join before, or was dropped. -/
theorem accepts_dropMissing (h : r.accepts host = true) :
    (r.dropMissing listed).accepts host = true := by
  by_contra hnot
  rw [Bool.not_eq_true] at hnot
  refine Bool.false_ne_true ((accepts_mono (fun _ hin => ?_) (fun peer hk => ?_) hnot).symm.trans h)
  · exact (mem_members_dropMissing.1 hin).1
  · obtain ⟨p, hp⟩ := Option.isSome_iff_exists.1 hk
    rw [knows, Loops.entry_dropMissing r listed hp]
    rfl

/-- A host that has joined does not join again. -/
theorem accepts_enrol (blank : Hint) (host : Host) :
    (r.enrol blank host).accepts host = false :=
  accepts_eq_false_iff.2 (Or.inl (mem_members_enrol.2 (Or.inl rfl)))

/-- Whoever would not join does not want to after others have joined. -/
theorem accepts_enrolAll {blank : Hint} (h : r.accepts host = false) :
    (r.enrolAll blank listed).1.accepts host = false := by
  induction listed generalizing r with
  | nil => exact h
  | cons first rest ih =>
    rw [enrolAll]
    split_ifs
    · refine ih (accepts_mono (fun other hin => ?_) (fun peer hk => ?_) h)
      · exact mem_members_enrol.2 (Or.inr hin)
      · rw [knows, enrol, Std.TreeMap.getElem?_insert]
        split_ifs
        · rfl
        · exact hk
    · exact ih h

/-- After the hosts of a list have joined, none of them would join. -/
theorem accepts_of_enrolAll {blank : Hint} (hlisted : host ∈ listed) :
    (r.enrolAll blank listed).1.accepts host = false := by
  induction listed generalizing r with
  | nil => cases hlisted
  | cons first rest ih =>
    rw [enrolAll]
    split_ifs with hnew
    · rcases List.mem_cons.1 hlisted with rfl | hrest
      · exact accepts_enrolAll (accepts_enrol blank host)
      · exact ih hrest
    · rcases List.mem_cons.1 hlisted with rfl | hrest
      · rw [Bool.not_eq_true] at hnew
        exact accepts_enrolAll hnew
      · exact ih hrest

/-- Where nobody on the list would join, nobody does. -/
theorem enrolAll_eq_self {blank : Hint} (h : ∀ host ∈ listed, r.accepts host = false) :
    r.enrolAll blank listed = (r, 0) := by
  induction listed with
  | nil => rfl
  | cons first rest ih =>
    obtain ⟨hfirst, hrest⟩ := List.forall_mem_cons.1 h
    rw [enrolAll, if_neg (by rw [hfirst]; exact Bool.false_ne_true), ih hrest]

/-- Somebody joins exactly when somebody on the list would. -/
theorem enrolAll_eq_zero_iff {blank : Hint} :
    (r.enrolAll blank listed).2 = 0 ↔ ∀ host ∈ listed, r.accepts host = false := by
  induction listed generalizing r with
  | nil => exact ⟨fun _ host hm => absurd hm List.not_mem_nil, fun _ => rfl⟩
  | cons first rest ih =>
    rw [List.forall_mem_cons]
    cases hnew : r.accepts first with
    | true =>
      rw [enrolAll, if_pos hnew]
      exact iff_of_false (Nat.succ_ne_zero _) fun h => Bool.false_ne_true h.1.symm
    | false =>
      rw [enrolAll, if_neg (by rw [hnew]; exact Bool.false_ne_true), ih, and_iff_right rfl]

/-! ## Following the same list again -/

/-- A registry whose ring hosts are listed and that no listed host would join. -/
structure Follows (listed : List Host) (r : Registry) : Prop where
  /-- The hosts of the ring are listed. -/
  on_list : ∀ host ∈ r.ring.members, host ∈ listed
  /-- No listed host would join. -/
  no_newcomer : ∀ host ∈ listed, r.accepts host = false

/-- What a registry follows does not depend on what it knows of its peers. -/
theorem Follows.congr (h : r.Follows listed) (hring : r'.ring = r.ring)
    (hknows : ∀ peer, r'.knows peer = r.knows peer) : r'.Follows listed where
  on_list host hin := h.on_list host (hring ▸ hin)
  no_newcomer host hm := (accepts_congr hring hknows).trans (h.no_newcomer host hm)

/-- Nor does it depend on how the list is arranged. -/
theorem Follows.congr_list {list : List Host} (h : r.Follows listed)
    (hlist : ∀ host, host ∈ list ↔ host ∈ listed) : r.Follows list where
  on_list host hin := (hlist host).2 (h.on_list host hin)
  no_newcomer host hm := h.no_newcomer host ((hlist host).1 hm)

theorem knows_unshareAll (r : Registry) (peer : UInt32) :
    r.unshareAll.knows peer = r.knows peer := by
  rw [knows, knows, getElem?_unshareAll, Option.isSome_map]

/-- A registry follows the list that it was reconciled with, if hosts can join at all. -/
theorem follows_update {blank : Hint}
    (hnew : Hint.new r.config.capacity r.config.recursions = .ok blank) (listed : List Host) :
    (r.update listed).2.Follows listed := by
  have hafter : ((r.dropMissing listed).enrolAll blank listed).1.Follows listed := by
    refine ⟨fun host hin => ?_, fun host hm => accepts_of_enrolAll hm⟩
    rcases mem_members_enrolAll hin with hkept | hlisted
    · exact (mem_members_dropMissing.1 hkept).2
    · exact hlisted
  rw [(Loops.update_of_ok listed hnew).2]
  split_ifs
  · exact hafter.congr rfl (knows_unshareAll _)
  · exact hafter

/-- A registry that follows the list already is left as it is. -/
theorem Follows.update_eq (h : r.Follows listed) : r.update listed = (.ok ⟨0, 0⟩, r) := by
  have hall (host : Host) (hm : host ∈ r.ring.hosts) : host ∈ listed :=
    h.on_list host (Placement.Ring.mem_hosts_iff.1 hm)
  unfold Registry.update
  cases hnew : Hint.new r.config.capacity r.config.recursions with
  | ok blank =>
    dsimp only
    rw [reconcile, dropMissing_eq hall, departed_eq_nil hall, enrolAll_eq_self h.no_newcomer]
    rfl
  | error abort =>
    have hnobody : listed.find? r.accepts = none :=
      List.find?_eq_none.2 fun host hm => by
        rw [h.no_newcomer host hm]
        exact Bool.false_ne_true
    dsimp only
    rw [dropMissing_eq hall, departed_eq_nil hall, hnobody]
    rfl

/-- Nobody joins a registry that follows the list already. -/
theorem Follows.joined_update (h : r.Follows listed) :
    Loops.joined (r.update listed).1 = 0 := by
  rw [h.update_eq]
  rfl

/-- A registry that follows a list goes on following it. -/
theorem Follows.update (h : r.Follows listed) : (r.update listed).2.Follows listed := by
  rw [h.update_eq]
  exact h

end QuorumStore.Registry
