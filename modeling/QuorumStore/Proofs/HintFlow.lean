import QuorumStore.Proofs.Attempts
import QuorumStore.Proofs.HintUnion
import QuorumStore.Proofs.Owners

/-!
# How hints change

What a registry believes about its peers only grows as long as none of them
leaves. A bit that is new comes from a commit, and then the hint is due to be
sent, or it comes from a hint that arrived. Nothing but a broadcast makes a hint
that is due cease to be so.
-/

namespace QuorumStore

/-- Whether the hint that an event carries has a bit set. -/
def HintEvent.bit (e : HintEvent) (i : Nat) : Bool :=
  match Hint.ofBytes e.payload with
  | .ok hint => Hint.bit hint.words i
  | .error _ => false

namespace Registry

variable {config : ClusterParams} {r s t : Registry}

/-- Whether the hint of a peer has a bit set; unknown peers have none. -/
def hintBit (r : Registry) (peer : UInt32) (i : Nat) : Bool :=
  (r.peers[peer]?).any fun p => Hint.bit p.hint.words i

/-- Whether the hint of a peer is due to be sent. -/
def pending (r : Registry) (peer : UInt32) : Bool := (r.peers[peer]?).any Peer.due

/-- Whether a peer is known. -/
def knows (r : Registry) (peer : UInt32) : Bool := (r.peers[peer]?).isSome

/-- Only the hints of known peers have bits. -/
theorem knows_of_hintBit {peer : UInt32} {i : Nat} (h : r.hintBit peer i = true) :
    r.knows peer = true := by
  obtain ⟨p, hp, -⟩ := (Option.any_eq_true _ _).1 h
  rw [knows, hp]
  rfl

/-- A hint has the parameters of a configuration. -/
def HasShape (config : ClusterParams) (hint : Hint) : Prop :=
  hint.capacity = config.capacity ∧ hint.recursions = config.recursions

/-- The hints have the shape that the configuration gives, and none was shared
beyond its clock. -/
structure Shaped (config : ClusterParams) (r : Registry) : Prop where
  /-- The registry has the configuration. -/
  config_eq : r.config = config
  /-- Every hint has the configured shape. -/
  shape : ∀ (peer : UInt32) (p : Peer), r.peers[peer]? = some p → HasShape config p.hint
  /-- No hint was shared beyond its clock. -/
  shared_le : ∀ (peer : UInt32) (p : Peer), r.peers[peer]? = some p → p.shared ≤ p.clock

/-- A registry after a step that loses nothing: bits and peers stay, what is due
stays due, and a bit that is new came from outside or is due. -/
structure Grown (arrived : UInt32 → Nat → Prop) (r s : Registry) : Prop where
  /-- The registry is that of the same member. -/
  host_eq : s.host = r.host
  /-- Peers stay known. -/
  knows : ∀ peer, r.knows peer = true → s.knows peer = true
  /-- Bits stay set. -/
  kept : ∀ peer i, r.hintBit peer i = true → s.hintBit peer i = true
  /-- What is due stays due. -/
  due : ∀ peer, r.pending peer = true → s.pending peer = true
  /-- A new bit arrived, or its hint is due. -/
  fresh : ∀ peer i, s.hintBit peer i = true →
    r.hintBit peer i = true ∨ arrived peer i ∨ s.pending peer = true

variable {arrived : UInt32 → Nat → Prop}

theorem Grown.refl (r : Registry) : Grown arrived r r :=
  ⟨rfl, fun _ h => h, fun _ _ h => h, fun _ h => h, fun _ _ h => Or.inl h⟩

theorem Grown.trans (h : Grown arrived r s) (h' : Grown arrived s t) : Grown arrived r t where
  host_eq := h'.host_eq.trans h.host_eq
  knows peer hk := h'.knows peer (h.knows peer hk)
  kept peer i hb := h'.kept peer i (h.kept peer i hb)
  due peer hd := h'.due peer (h.due peer hd)
  fresh peer i hb := by
    rcases h'.fresh peer i hb with hs | ha | hd
    · rcases h.fresh peer i hs with hr | ha | hd
      · exact Or.inl hr
      · exact Or.inr (Or.inl ha)
      · exact Or.inr (Or.inr (h'.due peer hd))
    · exact Or.inr (Or.inl ha)
    · exact Or.inr (Or.inr hd)

/-- More may have arrived than is told. -/
theorem Grown.mono {more : UInt32 → Nat → Prop} (h : Grown arrived r s)
    (hmore : ∀ peer i, arrived peer i → more peer i) : Grown more r s where
  host_eq := h.host_eq
  knows := h.knows
  kept := h.kept
  due := h.due
  fresh peer i hb := by
    rcases h.fresh peer i hb with hr | ha | hd
    · exact Or.inl hr
    · exact Or.inr (Or.inl (hmore peer i ha))
    · exact Or.inr (Or.inr hd)

/-! ## Changing one peer -/

/-- What a change of one peer does to what is known about it. -/
structure PeerGrown (arrived : Nat → Prop) (p q : Peer) : Prop where
  /-- Bits stay set. -/
  kept : ∀ i, Hint.bit p.hint.words i = true → Hint.bit q.hint.words i = true
  /-- What is due stays due. -/
  due : p.due = true → q.due = true
  /-- A new bit arrived, or the hint is due. -/
  fresh : ∀ i, Hint.bit q.hint.words i = true →
    Hint.bit p.hint.words i = true ∨ arrived i ∨ q.due = true

/-- Changing one peer so that nothing is lost loses nothing of the registry. -/
theorem Grown.modifyPeer {peer : UInt32} {f : Peer → Peer}
    (h : ∀ p, r.peers[peer]? = some p → PeerGrown (arrived peer) p (f p)) :
    Grown arrived r (r.modifyPeer peer f) := by
  have hget (other : UInt32) := getElem?_modifyPeer r peer other f
  constructor
  · rfl
  · intro other hk
    rw [Registry.knows] at hk ⊢
    rw [hget]
    split_ifs
    · rw [Option.isSome_map]
      exact hk
    · exact hk
  · intro other i hb
    rw [hintBit] at hb ⊢
    rw [hget]
    split_ifs with he
    · subst he
      obtain ⟨p, hp, hbit⟩ := (Option.any_eq_true _ _).1 hb
      rw [hp]
      exact (h p hp).kept i hbit
    · exact hb
  · intro other hd
    rw [pending] at hd ⊢
    rw [hget]
    split_ifs with he
    · subst he
      obtain ⟨p, hp, hdue⟩ := (Option.any_eq_true _ _).1 hd
      rw [hp]
      exact (h p hp).due hdue
    · exact hd
  · intro other i hb
    rw [hintBit, hget] at hb
    rw [hintBit, pending, hget]
    split_ifs at hb ⊢ with he
    · subst he
      obtain ⟨q, hq, hbit⟩ := (Option.any_eq_true _ _).1 hb
      obtain ⟨p, hp, rfl⟩ := Option.map_eq_some_iff.1 hq
      rw [hp]
      exact (h p hp).fresh i hbit
    · exact Or.inl hb

/-- Changing one peer keeps the shape of the registry when it keeps that of the peer. -/
theorem Shaped.modifyPeer (h : r.Shaped config) {peer : UInt32} {f : Peer → Peer}
    (hf : ∀ p, HasShape config p.hint → p.shared ≤ p.clock →
      HasShape config (f p).hint ∧ (f p).shared ≤ (f p).clock) :
    (r.modifyPeer peer f).Shaped config := by
  have hboth (other : UInt32) (q : Peer) (hq : (r.modifyPeer peer f).peers[other]? = some q) :
      HasShape config q.hint ∧ q.shared ≤ q.clock := by
    rw [getElem?_modifyPeer] at hq
    split_ifs at hq with he
    · obtain ⟨p, hp, rfl⟩ := Option.map_eq_some_iff.1 hq
      exact hf p (h.shape other p hp) (h.shared_le other p hp)
    · exact ⟨h.shape other q hq, h.shared_le other q hq⟩
  exact ⟨h.config_eq, fun other q hq => (hboth other q hq).1,
    fun other q hq => (hboth other q hq).2⟩

/-! ## Commits -/

/-- Recording a key loses nothing, and makes the hint due. -/
theorem peerGrown_add {outside : Nat → Prop} {p : Peer} (h : p.shared ≤ p.clock) (item : Bytes) :
    PeerGrown outside p { p with hint := p.hint.add item, clock := p.clock + 1 } := by
  have hdue : Peer.due { p with hint := p.hint.add item, clock := p.clock + 1 } = true :=
    decide_eq_true (Nat.lt_succ_of_le h)
  exact ⟨fun _ hb => Hint.bit_add p.hint item hb, fun _ => hdue, fun _ _ => Or.inr (Or.inr hdue)⟩

theorem Shaped.commit (h : r.Shaped config) (key : Key) (peers : List UInt32) :
    (r.commit key peers).1.Shaped config := by
  induction peers generalizing r with
  | nil => exact h
  | cons peer rest ih =>
    rw [Registry.commit]
    split_ifs
    · exact ih (h.modifyPeer fun p hs hle => ⟨hs, Nat.le_succ_of_le hle⟩)
    · exact ih h

/-- A commit loses nothing, and what it adds is due. -/
theorem Shaped.grown_commit (h : r.Shaped config) (key : Key) (peers : List UInt32) :
    Grown arrived r (r.commit key peers).1 := by
  induction peers generalizing r with
  | nil => exact Grown.refl r
  | cons peer rest ih =>
    rw [Registry.commit]
    split_ifs
    · have hstep : Grown arrived r (r.modifyPeer peer fun p =>
          { p with hint := p.hint.add (Bytes.ofText key), clock := p.clock + 1 }) :=
        Grown.modifyPeer fun p hp => peerGrown_add (h.shared_le peer p hp) _
      have hshaped : (r.modifyPeer peer fun p =>
          { p with hint := p.hint.add (Bytes.ofText key), clock := p.clock + 1 }).Shaped config :=
        h.modifyPeer fun p hs hle => ⟨hs, Nat.le_succ_of_le hle⟩
      exact hstep.trans (ih hshaped)
    · exact ih h

@[simp] theorem ring_commit (r : Registry) (key : Key) (peers : List UInt32) :
    (r.commit key peers).1.ring = r.ring := by
  induction peers generalizing r with
  | nil => rfl
  | cons peer rest ih =>
    rw [commit]
    split_ifs
    · exact (ih _).trans rfl
    · exact ih r

/-! ## Hints that arrive -/

/-- Uniting with a hint of the same shape keeps all bits of both, and is due only
where it was due before. -/
theorem merge_spec {p : Peer} {incoming : Hint} (hp : HasShape config p.hint)
    (hi : HasShape config incoming) :
    PeerGrown (fun i => Hint.bit incoming.words i = true) p (p.merge incoming) ∧
      ∀ i, Hint.bit incoming.words i = true →
        Hint.bit (p.merge incoming).hint.words i = true := by
  have hsame : p.hint.SameShape incoming := ⟨hp.1.trans hi.1.symm, hp.2.trans hi.2.symm⟩
  obtain ⟨c, changed, hunion, -, hbits, hunchanged⟩ := Hint.union_of_sameShape hsame
  cases changed with
  | false =>
    have hmerge : p.merge incoming = p := by
      rw [Peer.merge, hunion]
    rw [hmerge]
    rw [hunchanged rfl] at hbits
    refine ⟨⟨fun _ h => h, fun h => h, fun _ h => Or.inl h⟩, fun i h => ?_⟩
    rw [hbits, h, Bool.or_true]
  | true =>
    have hmerge : p.merge incoming = { p with
        hint := c
        clock := p.clock + 1
        shared := if p.due then p.shared else p.clock + 1 } := by
      rw [Peer.merge, hunion]
    rw [hmerge]
    refine ⟨⟨fun i h => ?_, fun hdue => ?_, fun i h => ?_⟩, fun i h => ?_⟩
    · rw [hbits, h, Bool.true_or]
    · have hlt : p.shared < p.clock := of_decide_eq_true hdue
      rw [Peer.due, if_pos hdue]
      exact decide_eq_true (Nat.lt_succ_of_lt hlt)
    · rw [hbits, Bool.or_eq_true] at h
      rcases h with h | h
      · exact Or.inl h
      · exact Or.inr (Or.inl h)
    · rw [hbits, h, Bool.or_true]

/-- Uniting keeps the shape of a hint, whatever arrives. -/
theorem hasShape_merge {p : Peer} (hp : HasShape config p.hint) (hle : p.shared ≤ p.clock)
    (incoming : Hint) :
    HasShape config (p.merge incoming).hint ∧
      (p.merge incoming).shared ≤ (p.merge incoming).clock := by
  unfold Peer.merge
  split
  · next hint hunion =>
    obtain ⟨-, hshape, -⟩ := Hint.of_union hunion
    refine ⟨⟨hshape.1.trans hp.1, hshape.2.trans hp.2⟩, ?_⟩
    dsimp only
    split_ifs
    · exact Nat.le_succ_of_le hle
    · exact Nat.le_refl _
  · exact ⟨hp, hle⟩

theorem Shaped.receive (h : r.Shaped config) (e : HintEvent) : (r.receive e).Shaped config := by
  unfold Registry.receive
  split_ifs
  · exact h
  · split
    · exact h
    · exact h.modifyPeer fun p hp hle => hasShape_merge hp hle _

@[simp] theorem host_receive (r : Registry) (e : HintEvent) : (r.receive e).host = r.host := by
  unfold receive
  split_ifs
  · rfl
  · split <;> rfl

@[simp] theorem ring_receive (r : Registry) (e : HintEvent) : (r.receive e).ring = r.ring := by
  unfold receive
  split_ifs
  · rfl
  · split <;> rfl

@[simp] theorem knows_receive (r : Registry) (e : HintEvent) (peer : UInt32) :
    (r.receive e).knows peer = r.knows peer := by
  unfold receive
  split_ifs
  · rfl
  · split
    · rfl
    · rw [knows, knows, getElem?_modifyPeer]
      split_ifs
      · exact Option.isSome_map
      · rfl

/-- An event that carries a hint of the configured shape. -/
def Carries (config : ClusterParams) (e : HintEvent) : Prop :=
  ∃ hint, Hint.ofBytes e.payload = .ok hint ∧ HasShape config hint

/-- What an event brings to a registry. -/
def Brings (e : HintEvent) (peer : UInt32) (i : Nat) : Prop := e.peer = peer ∧ e.bit i = true

/-- A hint that arrives loses nothing, and brings no more than its bits. -/
theorem Shaped.grown_receive (h : r.Shaped config) {e : HintEvent} (he : Carries config e) :
    Grown (Brings e) r (r.receive e) := by
  obtain ⟨hint, hbytes, hshape⟩ := he
  unfold Registry.receive
  split_ifs
  · exact Grown.refl r
  · rw [hbytes]
    refine Grown.modifyPeer fun p hp => ?_
    obtain ⟨hgrown, -⟩ := merge_spec (h.shape e.peer p hp) hshape
    refine ⟨hgrown.kept, hgrown.due, fun i hb => ?_⟩
    rcases hgrown.fresh i hb with hold | hnew | hdue
    · exact Or.inl hold
    · refine Or.inr (Or.inl ⟨rfl, ?_⟩)
      rw [HintEvent.bit, hbytes]
      exact hnew
    · exact Or.inr (Or.inr hdue)

/-- A hint about a known peer that arrives from another member is taken in. -/
theorem Shaped.taken_receive (h : r.Shaped config) {e : HintEvent} (he : Carries config e)
    (hsender : e.sender ≠ r.host) (hknows : r.knows e.peer = true) {i : Nat}
    (hb : e.bit i = true) : (r.receive e).hintBit e.peer i = true := by
  obtain ⟨hint, hbytes, hshape⟩ := he
  obtain ⟨p, hp⟩ := Option.isSome_iff_exists.1 hknows
  rw [HintEvent.bit, hbytes] at hb
  rw [Registry.receive, if_neg hsender, hbytes, hintBit, getElem?_modifyPeer, if_pos rfl, hp]
  exact (merge_spec (h.shape e.peer p hp) hshape).2 i hb

/-! ## Sending -/

/-- A hint is shipped exactly when it is due, as it stands. -/
theorem mem_shipments {shipment : Shipment} :
    shipment ∈ r.shipments ↔ ∃ p, r.peers[shipment.peer]? = some p ∧ p.due = true ∧
      shipment.clock = p.clock ∧ shipment.payload = p.hint.toBytes := by
  unfold shipments
  rw [List.mem_filterMap]
  constructor
  · rintro ⟨⟨peer, p⟩, hm, hship⟩
    have hp := Std.TreeMap.mem_toList_iff_getElem?_eq_some.1 hm
    dsimp only at hship
    split_ifs at hship with hdue
    cases hship
    exact ⟨p, hp, hdue, rfl, rfl⟩
  · rintro ⟨p, hp, hdue, hclock, hpayload⟩
    refine ⟨(shipment.peer, p), Std.TreeMap.mem_toList_iff_getElem?_eq_some.2 hp, ?_⟩
    dsimp only
    rw [if_pos hdue, ← hclock, ← hpayload]

/-- What is shipped carries the bits that the sender holds. -/
theorem Shaped.carries_event (h : r.Shaped config) {shipment : Shipment}
    (hm : shipment ∈ r.shipments) :
    Carries config (r.event shipment) ∧
      ∀ i, (r.event shipment).bit i = r.hintBit shipment.peer i := by
  obtain ⟨p, hp, -, -, hpayload⟩ := mem_shipments.1 hm
  have hread : Hint.ofBytes (r.event shipment).payload = .ok p.hint := by
    rw [event, hpayload, Hint.ofBytes_toBytes]
  refine ⟨⟨p.hint, hread, h.shape _ p hp⟩, fun i => ?_⟩
  rw [HintEvent.bit, hread, hintBit, hp]
  rfl

/-- The registry once every hint that was due has been sent. -/
def shipped (r : Registry) (sending : Arrangement Shipment) : Registry :=
  (sending.order r.shipments).foldl markSent r

variable (sending : Arrangement Shipment)

theorem shipped_frame (r : Registry) :
    (r.shipped sending).host = r.host ∧ (r.shipped sending).ring = r.ring ∧
      (r.shipped sending).config = r.config := by
  obtain ⟨hhost, hring, hconfig, -⟩ := foldl_markSent_frame (sending.order r.shipments) r
  exact ⟨hhost, hring, hconfig⟩

/-- Sending all that is due changes no bit. -/
theorem hintBit_shipped (r : Registry) (peer : UInt32) (i : Nat) :
    (r.shipped sending).hintBit peer i = r.hintBit peer i := by
  rw [hintBit, hintBit, shipped, getElem?_foldl_markSent, Option.any_map]
  rfl

/-- Sending all that is due keeps the shape, and leaves nothing due. -/
theorem Shaped.shipped (h : r.Shaped config) :
    (r.shipped sending).Shaped config ∧ ∀ peer, (r.shipped sending).pending peer = false := by
  have hpeer (peer : UInt32) (q : Peer) (hq : (r.shipped sending).peers[peer]? = some q) :
      HasShape config q.hint ∧ q.shared ≤ q.clock ∧ q.due = false := by
    rw [Registry.shipped, getElem?_foldl_markSent] at hq
    obtain ⟨p, hp, rfl⟩ := Option.map_eq_some_iff.1 hq
    have hle := h.shared_le peer p hp
    have hlatest : latest (sending.order r.shipments) peer ≤ p.clock := by
      refine latest_le fun shipment hm he => ?_
      obtain ⟨p', hp', -, hclock, -⟩ := mem_shipments.1 (Arrangement.mem_order.1 hm)
      rw [he, hp] at hp'
      cases hp'
      exact Nat.le_of_eq hclock
    refine ⟨h.shape peer p hp, Nat.max_le.2 ⟨hle, hlatest⟩, ?_⟩
    -- What is due was shipped at its clock, so its clock is what it was sent at.
    refine decide_eq_false (Nat.not_lt.2 ?_)
    by_cases hdue : p.due = true
    · have hm : (⟨peer, p.clock, p.hint.toBytes⟩ : Shipment) ∈ sending.order r.shipments :=
        Arrangement.mem_order.2 (mem_shipments.2 ⟨p, hp, hdue, rfl, rfl⟩)
      exact Nat.le_trans (le_latest hm) (Nat.le_max_right _ _)
    · have hnot : ¬ p.shared < p.clock := fun hlt => hdue (decide_eq_true hlt)
      exact Nat.le_trans (Nat.not_lt.1 hnot) (Nat.le_max_left _ _)
  refine ⟨⟨?_, fun peer q hq => (hpeer peer q hq).1, fun peer q hq => (hpeer peer q hq).2.1⟩, ?_⟩
  · rw [(shipped_frame sending r).2.2]
    exact h.config_eq
  · intro peer
    rw [pending]
    cases hq : (r.shipped sending).peers[peer]? with
    | none => rfl
    | some q => exact (hpeer peer q hq).2.2

/-! ## Membership that only grows -/

/-- A blank hint of the configured parameters. -/
theorem blank_of_new {capacity recursions : UInt64} {blank : Hint}
    (h : Hint.new capacity recursions = .ok blank) :
    blank.capacity = capacity ∧ blank.recursions = recursions ∧
      ∀ i, Hint.bit blank.words i = false := by
  unfold Hint.new at h
  split_ifs at h with hc hr
  cases h
  exact ⟨rfl, rfl, Hint.bit_blank hc hr⟩

/-- A hint can be made of positive parameters, and of no others. -/
theorem exists_new_iff {capacity recursions : UInt64} :
    (∃ blank, Hint.new capacity recursions = .ok blank) ↔ 0 < capacity ∧ 0 < recursions := by
  unfold Hint.new
  split_ifs with hc hr
  · exact iff_of_true ⟨_, rfl⟩ ⟨hc, hr⟩
  · exact iff_of_false (by rintro ⟨_, h⟩; cases h) fun h => hr h.2
  · exact iff_of_false (by rintro ⟨_, h⟩; cases h) fun h => hc h.1

/-- A host that joins comes with an empty hint and changes no other. -/
theorem Grown.enrol {blank : Hint} (hblank : ∀ i, Hint.bit blank.words i = false) {host : Host}
    (hnew : r.accepts host = true) : Grown arrived r (r.enrol blank host) := by
  rw [accepts, Bool.and_eq_true, Bool.not_eq_true', Bool.not_eq_true'] at hnew
  have hnone : r.peers[digest host]? = none :=
    Std.TreeMap.getElem?_eq_none_of_contains_eq_false hnew.2
  have hget (peer : UInt32) : (r.enrol blank host).peers[peer]?
      = if digest host = peer then some ⟨host, blank, 0, 0⟩ else r.peers[peer]? := by
    rw [Registry.enrol, Std.TreeMap.getElem?_insert]
    simp only [Std.LawfulEqCmp.compare_eq_iff_eq]
  constructor
  · rfl
  · intro peer hk
    rw [Registry.knows] at hk ⊢
    rw [hget]
    split_ifs
    · rfl
    · exact hk
  · intro peer i hb
    rw [hintBit] at hb ⊢
    rw [hget]
    split_ifs with he
    · rw [← he, hnone] at hb
      cases hb
    · exact hb
  · intro peer hd
    rw [pending] at hd ⊢
    rw [hget]
    split_ifs with he
    · rw [← he, hnone] at hd
      cases hd
    · exact hd
  · intro peer i hb
    rw [hintBit, hget] at hb
    split_ifs at hb with he
    · rw [Option.any_some, hblank] at hb
      cases hb
    · exact Or.inl hb

theorem Shaped.enrol (h : r.Shaped config) {blank : Hint} (hblank : HasShape config blank)
    (host : Host) : (r.enrol blank host).Shaped config := by
  have hboth (peer : UInt32) (p : Peer) (hp : (r.enrol blank host).peers[peer]? = some p) :
      HasShape config p.hint ∧ p.shared ≤ p.clock := by
    rw [Registry.enrol, Std.TreeMap.getElem?_insert] at hp
    split_ifs at hp
    · cases hp
      exact ⟨hblank, Nat.le_refl 0⟩
    · exact ⟨h.shape peer p hp, h.shared_le peer p hp⟩
  exact ⟨h.config_eq, fun peer p hp => (hboth peer p hp).1, fun peer p hp => (hboth peer p hp).2⟩

/-- Hosts that join change nothing that is known. -/
theorem Grown.enrolAll {blank : Hint} (hblank : ∀ i, Hint.bit blank.words i = false)
    (listed : List Host) : Grown arrived r (r.enrolAll blank listed).1 := by
  induction listed generalizing r with
  | nil => exact Grown.refl r
  | cons first rest ih =>
    rw [Registry.enrolAll]
    split_ifs with hnew
    · exact (Grown.enrol hblank hnew).trans ih
    · exact ih

/-- The hosts on the ring after one has joined. -/
theorem mem_members_enrol {blank : Hint} {host first : Host} :
    host ∈ (r.enrol blank first).ring.members ↔ host = first ∨ host ∈ r.ring.members :=
  Placement.Ring.mem_members_add

/-- Only hosts of the list join. -/
theorem mem_members_enrolAll {blank : Hint} {host : Host} {listed : List Host}
    (hin : host ∈ (r.enrolAll blank listed).1.ring.members) :
    host ∈ r.ring.members ∨ host ∈ listed := by
  induction listed generalizing r with
  | nil => exact Or.inl hin
  | cons first rest ih =>
    rw [enrolAll] at hin
    split_ifs at hin
    · rcases ih hin with hold | hrest
      · rcases mem_members_enrol.1 hold with rfl | hold
        · exact Or.inr List.mem_cons_self
        · exact Or.inl hold
      · exact Or.inr (List.mem_cons_of_mem first hrest)
    · exact (ih hin).imp_right (List.mem_cons_of_mem first)

/-- Hosts that join have hints of the configured shape. -/
theorem Shaped.enrolAll (h : r.Shaped config) {blank : Hint} (hblank : HasShape config blank)
    (listed : List Host) : (r.enrolAll blank listed).1.Shaped config := by
  induction listed generalizing r with
  | nil => exact h
  | cons first rest ih =>
    rw [Registry.enrolAll]
    split_ifs
    · exact ih (h.enrol hblank first)
    · exact ih h

theorem getElem?_unshareAll (r : Registry) (peer : UInt32) :
    r.unshareAll.peers[peer]? = r.peers[peer]?.map fun p => { p with shared := 0 } := by
  rw [unshareAll, Std.TreeMap.getElem?_map]

/-- To send every hint again loses nothing. -/
theorem Grown.unshareAll (r : Registry) : Grown arrived r r.unshareAll := by
  constructor
  · rfl
  · intro peer hk
    rw [Registry.knows] at hk ⊢
    rw [getElem?_unshareAll, Option.isSome_map]
    exact hk
  · intro peer i hb
    rw [hintBit] at hb ⊢
    rw [getElem?_unshareAll, Option.any_map]
    exact hb
  · intro peer hd
    rw [pending] at hd ⊢
    obtain ⟨p, hp, hdue⟩ := (Option.any_eq_true _ _).1 hd
    have hlt : p.shared < p.clock := of_decide_eq_true hdue
    rw [getElem?_unshareAll, hp]
    exact decide_eq_true (Nat.zero_lt_of_lt hlt)
  · intro peer i hb
    rw [hintBit, getElem?_unshareAll, Option.any_map] at hb
    exact Or.inl hb

theorem Shaped.unshareAll (h : r.Shaped config) : r.unshareAll.Shaped config := by
  have hboth (peer : UInt32) (q : Peer) (hq : r.unshareAll.peers[peer]? = some q) :
      HasShape config q.hint ∧ q.shared ≤ q.clock := by
    rw [getElem?_unshareAll] at hq
    obtain ⟨p, hp, rfl⟩ := Option.map_eq_some_iff.1 hq
    exact ⟨h.shape peer p hp, Nat.zero_le _⟩
  exact ⟨h.config_eq, fun peer q hq => (hboth peer q hq).1, fun peer q hq => (hboth peer q hq).2⟩

/-- Nobody departs while every ring host is listed. -/
theorem departed_eq_nil {listed : List Host} (h : ∀ host ∈ r.ring.hosts, host ∈ listed) :
    r.departed listed = [] :=
  List.filter_eq_nil_iff.2 fun host hm => by simpa using h host hm

/-- So nobody is dropped then. -/
theorem dropMissing_eq {listed : List Host} (h : ∀ host ∈ r.ring.hosts, host ∈ listed) :
    r.dropMissing listed = r := by
  rw [dropMissing, departed_eq_nil h]
  rfl

/-- A reconciliation returns, except where a host would join and no hint can be made for it. -/
theorem update_returns_iff (r : Registry) (listed : List Host) :
    (∃ churn, (r.update listed).1 = .ok churn) ↔
      (0 < r.config.capacity ∧ 0 < r.config.recursions) ∨
        ∀ host ∈ listed, (r.dropMissing listed).accepts host = false := by
  rw [← exists_new_iff]
  unfold update
  cases Hint.new r.config.capacity r.config.recursions with
  | ok blank => exact iff_of_true ⟨_, rfl⟩ (Or.inl ⟨blank, rfl⟩)
  | error abort =>
    have hnone : ¬ ∃ blank, (Except.error abort : Except Abort Hint) = .ok blank := by
      rintro ⟨_, h⟩
      cases h
    rw [or_iff_right hnone]
    simp only [← Bool.not_eq_true]
    rw [← List.find?_eq_none]
    cases listed.find? (r.dropMissing listed).accepts with
    | none => exact iff_of_true ⟨_, rfl⟩ rfl
    | some first =>
      refine iff_of_false ?_ (Option.some_ne_none first)
      rintro ⟨_, h⟩
      cases h

/-- Reconciling with a list that holds every ring host loses nothing, and lets in
hosts of the list only, also where it stops the program. -/
theorem Shaped.update (h : r.Shaped config) {listed : List Host}
    (hall : ∀ host ∈ r.ring.hosts, host ∈ listed) :
    (r.update listed).2.Shaped config ∧ Grown arrived r (r.update listed).2 ∧
      ∀ host ∈ (r.update listed).2.ring.hosts, host ∈ listed := by
  have hkept := dropMissing_eq hall
  unfold Registry.update
  cases hnew : Hint.new r.config.capacity r.config.recursions with
  | ok blank =>
    obtain ⟨hcap, hrec, hempty⟩ := blank_of_new hnew
    rw [h.config_eq] at hcap hrec
    have hshaped := h.enrolAll ⟨hcap, hrec⟩ listed
    have hgrown : Grown arrived r (r.enrolAll blank listed).1 := Grown.enrolAll hempty listed
    have hin (host : Host) (hm : host ∈ (r.enrolAll blank listed).1.ring.hosts) :
        host ∈ listed := by
      rcases mem_members_enrolAll (Placement.Ring.mem_hosts_iff.1 hm) with hold | hlisted
      · exact hall host (Placement.Ring.mem_hosts_iff.2 hold)
      · exact hlisted
    unfold Registry.reconcile
    rw [hkept]
    dsimp only
    split_ifs
    · exact ⟨hshaped.unshareAll, hgrown.trans (Grown.unshareAll _), hin⟩
    · exact ⟨hshaped, hgrown, hin⟩
  | error abort =>
    dsimp only
    rw [hkept]
    cases hfind : listed.find? r.accepts with
    | none => exact ⟨h, Grown.refl r, hall⟩
    | some first =>
      refine ⟨⟨h.config_eq, h.shape, h.shared_le⟩, ?_, fun host hm => ?_⟩
      · exact ⟨rfl, fun _ hk => hk, fun _ _ hb => hb, fun _ hd => hd, fun _ _ hb => Or.inl hb⟩
      · have hm' := Placement.Ring.mem_hosts_iff.1 hm
        rw [Placement.Ring.mem_members_add] at hm'
        rcases hm' with rfl | hold
        · exact List.mem_of_find?_eq_some hfind
        · exact hall host (Placement.Ring.mem_hosts_iff.2 hold)

end Registry

end QuorumStore
