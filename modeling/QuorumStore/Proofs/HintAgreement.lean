import QuorumStore.Proofs.BusRuns

/-!
# When registries agree

Registries are opened and started on one bus, follow its members, record keys and
broadcast, in any order; nobody leaves and nothing is refused. Once nothing is due
any more, a registry believes exactly what the broadcasts that got into it carried.
So all agree if and only if every key that was broadcast got into every registry,
at the first attempt or later on.

A broadcast does not get into a registry that does not know the peer yet. Only a
host that joins makes the hints due again, and the registry that sees it join may
send them before the others have learnt of the peer: then they miss the keys for good.
-/

namespace QuorumStore

/-- An event that was broadcast, with the hosts whose registries it got into. -/
structure Posting where
  /-- The event. -/
  event : HintEvent
  /-- The hosts whose registries it got into, that of the sender among them. -/
  reached : List Host
  deriving DecidableEq, Repr

namespace Network

variable {config : ClusterParams} {log : List Posting} {n n' : Network} {host : Host}
  {r s : Registry}

/-- What a broadcast of the registry of a host sends, and where it gets in. -/
def postings (n : Network) (host : Host) (sending : Arrangement Shipment := .listed) :
    List Posting :=
  match n.registry? host with
  | none => []
  | some r =>
    ((sending.order r.shipments).map r.event).map fun e =>
      ⟨e, n.acting.keys.filter (n.reaches e)⟩

/-- The networks that steps of the members lead to, with everything that was
broadcast on the way. Hosts only join, and no host that holds data ceases to. The
order in which hosts are visited and hints are sent is any. -/
inductive Run (config : ClusterParams) : List Posting → Network → Prop
  /-- Nobody is there. -/
  | empty : Run config [] .empty
  /-- A host joins the bus. -/
  | join {log : List Posting} {n : Network} (host : Host) (role : Role)
      (before : Run config log n)
      (stays : n.bus.members[host]? = some .store → role = .store) :
      Run config log (n.join host role)
  /-- A host gets its registry. -/
  | opened {log : List Posting} {n n' : Network} (host : Host) (before : Run config log n)
      (first : n.acting[host]? = none) (made : n.openRegistry host config = .ok n') :
      Run config log n'
  /-- A registry starts to listen. -/
  | start {log : List Posting} {n : Network} (host : Host) (before : Run config log n) :
      Run config log (n.start host)
  /-- A registry follows the members that hold data. -/
  | update {log : List Posting} {n : Network} (host : Host) (visit : Arrangement Host)
      (before : Run config log n) : Run config log (n.update host visit).2
  /-- A registry records that peers hold a key. -/
  | commit {log : List Posting} {n : Network} (host : Host) (key : Key) (peers : List UInt32)
      (before : Run config log n) : Run config log (n.commit host key peers).2
  /-- A registry sends every hint that is due. -/
  | broadcast {log : List Posting} {n : Network} (host : Host) (sending : Arrangement Shipment)
      (before : Run config log n) :
      Run config (log ++ n.postings host sending) (n.broadcast host sending).2

/-- The registries that act for some host. -/
def running (n : Network) : List Registry := n.acting.keys.filterMap n.registry?

/-- No registry has a hint that changed since it was last shared. -/
def Quiet (n : Network) : Prop := ∀ r ∈ n.running, ∀ known ∈ r.peers.toList, known.2.due = false

/-- Every ring has the members that hold data, and no other hosts. -/
def Settled (n : Network) : Prop := ∀ r ∈ n.running, r.ring.hosts = n.bus.current .store

/-- The registries have the same hints, bit for bit. -/
def Agree (n : Network) : Prop :=
  ∀ r ∈ n.running, ∀ s ∈ n.running, ∀ peer i, r.hintBit peer i = s.hintBit peer i

/-- A broadcast carried a bit for a peer into the registry of a host. -/
def Told (log : List Posting) (host : Host) (peer : UInt32) (i : Nat) : Prop :=
  ∃ p ∈ log, p.event.peer = peer ∧ p.event.bit i = true ∧ host ∈ p.reached

instance (n : Network) : Decidable n.Quiet :=
  inferInstanceAs (Decidable (∀ r ∈ n.running, ∀ known ∈ r.peers.toList, known.2.due = false))

instance (n : Network) : Decidable n.Settled :=
  inferInstanceAs (Decidable (∀ r ∈ n.running, r.ring.hosts = n.bus.current .store))

theorem mem_running_iff :
    r ∈ n.running ↔ ∃ host, n.registry? host = some r := by
  rw [running, List.mem_filterMap]
  constructor
  · rintro ⟨host, -, hr⟩
    exact ⟨host, hr⟩
  · rintro ⟨host, hr⟩
    refine ⟨host, ?_, hr⟩
    obtain ⟨serial, ha, -⟩ := registry?_eq_some_iff.1 hr
    rw [Std.TreeMap.mem_keys, Std.TreeMap.mem_iff_isSome_getElem?, ha]
    rfl

theorem Told.append (more : List Posting) {peer : UInt32} {i : Nat}
    (h : Told log host peer i) : Told (log ++ more) host peer i := by
  obtain ⟨p, hp, hrest⟩ := h
  exact ⟨p, List.mem_append_left more hp, hrest⟩

/-! ## The invariant -/

/-- What is known of a network once the postings of a log were made. -/
structure Tracked (config : ClusterParams) (log : List Posting) (n : Network) : Prop where
  /-- The registries are wired to the bus. -/
  wired : n.Wired config
  /-- A bit that a registry holds is due there, or a posting brought it. -/
  accounted : ∀ host r peer i, n.registry? host = some r → r.hintBit peer i = true →
    r.pending peer = true ∨ Told log host peer i
  /-- A registry that a posting got into holds what it carried. -/
  held : ∀ p ∈ log, ∀ host ∈ p.reached, ∃ r, n.registry? host = some r ∧
    ∀ i, p.event.bit i = true → r.hintBit p.event.peer i = true
  /-- A posting is held by its sender. -/
  sent : ∀ p ∈ log, p.event.sender ∈ p.reached

/-- No event arrived. -/
def Nothing (_ : UInt32) (_ : Nat) : Prop := False

/-- Steps that lose nothing and bring nothing from outside keep the invariant. -/
theorem Tracked.of_grown (t : n.Tracked config log) (w : n'.Wired config)
    (hforth : ∀ host r, n.registry? host = some r →
      ∃ s, n'.registry? host = some s ∧ Registry.Grown Nothing r s)
    (hback : ∀ host s, n'.registry? host = some s →
      (n.registry? host).isSome = true ∨ ∀ peer i, s.hintBit peer i = false) :
    n'.Tracked config log := by
  refine ⟨w, fun host s peer i hs hb => ?_, fun p hp host hm => ?_, t.sent⟩
  · rcases hback host s hs with hold | hnew
    · obtain ⟨r, hr⟩ := Option.isSome_iff_exists.1 hold
      obtain ⟨s', hs', hgrown⟩ := hforth host r hr
      rw [hs] at hs'
      cases hs'
      rcases hgrown.fresh peer i hb with hbit | hnothing | hdue
      · rcases t.accounted host r peer i hr hbit with hdue | htold
        · exact Or.inl (hgrown.due peer hdue)
        · exact Or.inr htold
      · exact hnothing.elim
      · exact Or.inl hdue
    · rw [hnew] at hb
      cases hb
  · obtain ⟨r, hr, hbits⟩ := t.held p hp host hm
    obtain ⟨s, hs, hgrown⟩ := hforth host r hr
    exact ⟨s, hs, fun i hb => hgrown.kept p.event.peer i (hbits i hb)⟩

/-- Replacing a registry by one that grew out of it keeps the invariant. -/
theorem Tracked.putRegistry (t : n.Tracked config log) (h : n.registry? host = some r)
    (hshaped : s.Shaped config) (hgrown : Registry.Grown Nothing r s)
    (hstores : ∀ h ∈ s.ring.hosts, n.bus.members[h]? = some .store) :
    (n.putRegistry s).Tracked config log := by
  have hhost : s.host = host := hgrown.host_eq.trans (t.wired.host_eq h)
  have hr : n.registry? s.host = some r := by
    rw [hhost]
    exact h
  have hget := t.wired.registry?_putRegistry hr
  refine t.of_grown (t.wired.putRegistry hr hshaped hstores) (fun other r' hr' => ?_)
    fun other s' hs' => ?_
  · rw [hget]
    split_ifs with ho
    · subst ho
      rw [hr] at hr'
      cases hr'
      exact ⟨s, rfl, hgrown⟩
    · exact ⟨r', hr', Registry.Grown.refl r'⟩
  · rw [hget] at hs'
    split_ifs at hs' with ho
    · subst ho
      rw [hr]
      exact Or.inl rfl
    · rw [hs']
      exact Or.inl rfl

/-- A network whose registries are the same keeps the invariant. -/
theorem Tracked.of_same (t : n.Tracked config log) (w : n'.Wired config)
    (h : ∀ host, n'.registry? host = n.registry? host) : n'.Tracked config log := by
  refine t.of_grown w (fun host r hr => ⟨r, ?_, Registry.Grown.refl r⟩) fun host s hs => ?_
  · rw [h]
    exact hr
  · rw [h] at hs
    rw [hs]
    exact Or.inl rfl

/-! ## Each step keeps it -/

theorem Tracked.empty : Network.empty.Tracked config [] := by
  have hregistry (host : Host) : registry? Network.empty host = none := by
    unfold registry?
    rw [Network.empty, Std.TreeMap.getElem?_emptyc]
    rfl
  have hacting (host : Host) : Network.empty.acting[host]? = none := Std.TreeMap.getElem?_emptyc
  have hof (host : Host) : Network.empty.bus.of host = ∅ := by
    rw [Bus.of, Network.empty, Bus.empty, Std.TreeMap.getElem?_emptyc]
    rfl
  refine ⟨⟨?_, ?_, ?_, ?_, ?_, rfl⟩, ?_, ?_, ?_⟩
  · intro host serial ha
    rw [hacting] at ha
    cases ha
  · intro serial _
    exact Std.TreeMap.getElem?_emptyc
  · intro host number l hl
    rw [hof, Std.TreeMap.getElem?_emptyc] at hl
    cases hl
  · intro host r hr
    rw [hregistry] at hr
    cases hr
  · intro host r hr
    rw [hregistry] at hr
    cases hr
  · intro host r peer i hr
    rw [hregistry] at hr
    cases hr
  · intro p hp
    cases hp
  · intro p hp
    cases hp

theorem Tracked.join (t : n.Tracked config log) {role : Role}
    (stays : n.bus.members[host]? = some .store → role = .store) :
    (n.join host role).Tracked config log :=
  t.of_same (t.wired.join stays) fun _ => rfl

theorem Tracked.opened (t : n.Tracked config log) (first : n.acting[host]? = none)
    (made : n.openRegistry host config = .ok n') : n'.Tracked config log := by
  obtain ⟨r, hnew, hn⟩ := openRegistry_eq made
  obtain ⟨-, -, -, hpeers⟩ := new_spec hnew
  have hget := t.wired.registry?_openRegistry hn
  refine t.of_grown (t.wired.openRegistry first made) (fun other r' hr' => ?_) fun other s hs => ?_
  · have hne : other ≠ host := by
      rintro rfl
      obtain ⟨serial, ha, -⟩ := registry?_eq_some_iff.1 hr'
      rw [first] at ha
      cases ha
    refine ⟨r', ?_, Registry.Grown.refl r'⟩
    rw [hget, if_neg hne]
    exact hr'
  · rw [hget] at hs
    split_ifs at hs
    · cases hs
      refine Or.inr fun peer i => ?_
      rw [Registry.hintBit, hpeers]
      rfl
    · rw [hs]
      exact Or.inl rfl

theorem Tracked.start (t : n.Tracked config log) (host : Host) :
    (n.start host).Tracked config log := by
  unfold Network.start
  split
  · next serial r ha hr =>
    split_ifs
    · exact t
    · have hsame :
          Tracked config log { n with bus := (n.bus.register host (.registry serial)).1 } :=
        t.of_same (t.wired.register ha) fun _ => rfl
      have hshaped := t.wired.shaped host r hr
      refine hsame.putRegistry hr ⟨hshaped.config_eq, hshaped.shape, hshaped.shared_le⟩ ?_ ?_
      · exact ⟨rfl, fun _ hk => hk, fun _ _ hb => hb, fun _ hd => hd, fun _ _ hb => Or.inl hb⟩
      · exact t.wired.stores host r hr
  · exact t

/-- The members that hold data are the listed ones. -/
theorem mem_current_store {bus : Bus} :
    host ∈ bus.current .store ↔ bus.members[host]? = some .store := by
  unfold Bus.current
  rw [List.mem_filterMap]
  constructor
  · rintro ⟨⟨other, role⟩, hm, hrole⟩
    dsimp only at hrole
    split_ifs at hrole with hs
    cases hrole
    rw [← hs]
    exact Std.TreeMap.mem_toList_iff_getElem?_eq_some.1 hm
  · intro h
    exact ⟨(host, .store), Std.TreeMap.mem_toList_iff_getElem?_eq_some.2 h, if_pos rfl⟩

theorem Tracked.update (t : n.Tracked config log) (host : Host) (visit : Arrangement Host) :
    (n.update host visit).2.Tracked config log := by
  have hlisted : n.current host .store = .ok (n.bus.current .store) := by
    rw [Network.current, refusesCurrent, t.wired.willing, Std.TreeMap.getElem?_emptyc]
    rfl
  unfold Network.update
  rw [hlisted]
  cases hr : n.registry? host with
  | none => exact t
  | some r =>
    have hall (h : Host) (hm : h ∈ r.ring.hosts) : h ∈ visit.order (n.bus.current .store) :=
      Arrangement.mem_order.2 (mem_current_store.2 (t.wired.stores host r hr h hm))
    obtain ⟨hshaped, hgrown, hin⟩ := (t.wired.shaped host r hr).update hall
    exact t.putRegistry hr hshaped hgrown fun h hm =>
      mem_current_store.1 (Arrangement.mem_order.1 (hin h hm))

theorem Tracked.commit (t : n.Tracked config log) (host : Host) (key : Key)
    (peers : List UInt32) : (n.commit host key peers).2.Tracked config log := by
  unfold Network.commit
  cases hr : n.registry? host with
  | none => exact t
  | some r =>
    have hshaped := t.wired.shaped host r hr
    refine t.putRegistry hr (hshaped.commit key peers) (hshaped.grown_commit key peers) ?_
    rw [Registry.ring_commit]
    exact t.wired.stores host r hr

/-- What a posting of a broadcast is. -/
theorem mem_postings (hr : n.registry? host = some r) (sending : Arrangement Shipment)
    {p : Posting} :
    p ∈ n.postings host sending ↔ ∃ shipment ∈ r.shipments,
      p = ⟨r.event shipment, n.acting.keys.filter (n.reaches (r.event shipment))⟩ := by
  rw [postings, hr]
  dsimp only
  rw [List.map_map, List.mem_map]
  constructor
  · rintro ⟨shipment, hm, rfl⟩
    exact ⟨shipment, Arrangement.mem_order.1 hm, rfl⟩
  · rintro ⟨shipment, hm, rfl⟩
    exact ⟨shipment, Arrangement.mem_order.2 hm, rfl⟩

theorem mem_reached {e : HintEvent} (hr : n.registry? host = some r) :
    host ∈ n.acting.keys.filter (n.reaches e) ↔ n.reaches e host = true := by
  obtain ⟨serial, ha, -⟩ := registry?_eq_some_iff.1 hr
  have hkey : host ∈ n.acting.keys := by
    rw [Std.TreeMap.mem_keys, Std.TreeMap.mem_iff_isSome_getElem?, ha]
    rfl
  rw [List.mem_filter]
  exact ⟨fun h => h.2, fun h => ⟨hkey, h⟩⟩

variable (sending : Arrangement Shipment)

/-- What is due when a broadcast begins is told to the sender by it. -/
theorem Tracked.told_of_pending (t : n.Tracked config log) (hr : n.registry? host = some r)
    {peer : UInt32} {i : Nat} (hdue : r.pending peer = true) (hb : r.hintBit peer i = true) :
    Told (log ++ n.postings host sending) host peer i := by
  obtain ⟨p, hp, hpdue⟩ := (Option.any_eq_true _ _).1 hdue
  have hm : (⟨peer, p.clock, p.hint.toBytes⟩ : Shipment) ∈ r.shipments :=
    Registry.mem_shipments.2 ⟨p, hp, hpdue, rfl, rfl⟩
  have hbits := ((t.wired.shaped host r hr).carries_event hm).2 i
  refine ⟨_, List.mem_append_right log ((mem_postings hr sending).2 ⟨_, hm, rfl⟩), rfl, ?_, ?_⟩
  · exact hbits.trans hb
  · refine (mem_reached hr).2 ?_
    rw [reaches, Registry.event, t.wired.host_eq hr, decide_eq_true rfl, Bool.true_or]

/-- After a broadcast, a registry is that of the sender or has reacted to the postings. -/
theorem Wired.registry?_broadcast (w : n.Wired config) (hr : n.registry? host = some r)
    {other : Host} (hs : registry? (n.broadcast host sending).2 other = some s) :
    (other = host ∧ s = r.shipped sending) ∨ ∃ r', other ≠ host ∧ n.registry? other = some r' ∧
      n.Reacts ((sending.order r.shipments).map r.event) other r' s := by
  obtain ⟨-, hacting, hown, hothers⟩ := w.broadcast hr sending
  by_cases ho : other = host
  · subst ho
    rw [hown] at hs
    cases hs
    exact Or.inl ⟨rfl, rfl⟩
  · obtain ⟨serial, ha, -⟩ := registry?_eq_some_iff.1 hs
    rw [hacting] at ha
    obtain ⟨r', hr'⟩ := w.exists_registry ha
    obtain ⟨s', hs', hreacts⟩ := hothers other r' ho hr'
    rw [hs] at hs'
    cases hs'
    exact Or.inr ⟨r', ho, hr', hreacts⟩

/-- After a broadcast, a bit that a registry holds is due or was told to it. -/
theorem Tracked.accounted_broadcast (t : n.Tracked config log) (hr : n.registry? host = some r)
    {other : Host} (hs : registry? (n.broadcast host sending).2 other = some s) {peer : UInt32}
    {i : Nat} (hb : s.hintBit peer i = true) :
    s.pending peer = true ∨ Told (log ++ n.postings host sending) other peer i := by
  rcases t.wired.registry?_broadcast sending hr hs with ⟨rfl, rfl⟩ | ⟨r', -, hr', hreacts⟩
  · rw [Registry.hintBit_shipped] at hb
    rcases t.accounted other r peer i hr hb with hdue | htold
    · exact Or.inr (t.told_of_pending sending hr hdue hb)
    · exact Or.inr (htold.append _)
  · rcases hreacts.grown.fresh peer i hb with hold | harrived | hdue
    · rcases t.accounted other r' peer i hr' hold with hdue | htold
      · exact Or.inl (hreacts.grown.due peer hdue)
      · exact Or.inr (htold.append _)
    · obtain ⟨e, he, hbrings, hreaches⟩ := harrived
      obtain ⟨shipment, hship, rfl⟩ := List.mem_map.1 he
      have hp := (mem_postings hr sending).2 ⟨shipment, Arrangement.mem_order.1 hship, rfl⟩
      exact Or.inr ⟨_, List.mem_append_right log hp, hbrings.1, hbrings.2,
        (mem_reached hr').2 hreaches⟩
    · exact Or.inl hdue

/-- A broadcast takes no bits from a registry. -/
theorem Wired.kept_broadcast (w : n.Wired config) (hr : n.registry? host = some r) {other : Host}
    (hs : n.registry? other = some s) :
    ∃ s', registry? (n.broadcast host sending).2 other = some s' ∧
      ∀ peer i, s.hintBit peer i = true → s'.hintBit peer i = true := by
  obtain ⟨-, -, hown, hothers⟩ := w.broadcast hr sending
  by_cases ho : other = host
  · subst ho
    rw [hr] at hs
    cases hs
    refine ⟨r.shipped sending, hown, fun peer i hb => ?_⟩
    rw [Registry.hintBit_shipped]
    exact hb
  · obtain ⟨s', hs', hreacts⟩ := hothers other s ho hs
    exact ⟨s', hs', hreacts.grown.kept⟩

/-- A registry that a posting of a broadcast got into holds what it carried. -/
theorem Wired.held_broadcast (w : n.Wired config) (hr : n.registry? host = some r)
    {shipment : Shipment} (hship : shipment ∈ r.shipments) {other : Host}
    (hm : other ∈ n.acting.keys.filter (n.reaches (r.event shipment))) :
    ∃ s, registry? (n.broadcast host sending).2 other = some s ∧
      ∀ i, (r.event shipment).bit i = true → s.hintBit shipment.peer i = true := by
  obtain ⟨-, -, hown, hothers⟩ := w.broadcast hr sending
  obtain ⟨hkey, hreaches⟩ := List.mem_filter.1 hm
  by_cases ho : other = host
  · subst ho
    have hbits := ((w.shaped other r hr).carries_event hship).2
    refine ⟨r.shipped sending, hown, fun i hb => ?_⟩
    rw [Registry.hintBit_shipped, ← hb]
    exact (hbits i).symm
  · rw [Std.TreeMap.mem_keys, Std.TreeMap.mem_iff_isSome_getElem?] at hkey
    obtain ⟨serial, ha⟩ := Option.isSome_iff_exists.1 hkey
    obtain ⟨r', hr'⟩ := w.exists_registry ha
    obtain ⟨s, hs, hreacts⟩ := hothers other r' ho hr'
    have hsender : other ≠ (r.event shipment).sender := by
      rw [Registry.event, w.host_eq hr]
      exact ho
    have hsent := List.mem_map_of_mem (f := r.event) (sending.mem_order.2 hship)
    exact ⟨s, hs, hreacts.taken _ hsent hsender hreaches⟩

/-- A broadcast keeps the invariant, with its postings in the log. -/
theorem Tracked.broadcast (t : n.Tracked config log) (host : Host) :
    (n.broadcast host sending).2.Tracked config (log ++ n.postings host sending) := by
  cases hr : n.registry? host with
  | none =>
    have hnone : n.postings host sending = [] := by
      rw [postings, hr]
    have hsame : (n.broadcast host sending).2 = n := by
      rw [Network.broadcast, hr]
    rw [hnone, hsame, List.append_nil]
    exact t
  | some r =>
    refine ⟨(t.wired.broadcast hr sending).1,
      fun other s peer i hs hb => t.accounted_broadcast sending hr hs hb,
      fun p hp other hm => ?_, fun p hp => ?_⟩
    · rcases List.mem_append.1 hp with hold | hnew
      · obtain ⟨s, hs, hbits⟩ := t.held p hold other hm
        obtain ⟨s', hs', hkept⟩ := t.wired.kept_broadcast sending hr hs
        exact ⟨s', hs', fun i hb => hkept p.event.peer i (hbits i hb)⟩
      · obtain ⟨shipment, hship, rfl⟩ := (mem_postings hr sending).1 hnew
        exact t.wired.held_broadcast sending hr hship hm
    · rcases List.mem_append.1 hp with hold | hnew
      · exact t.sent p hold
      · obtain ⟨shipment, hship, rfl⟩ := (mem_postings hr sending).1 hnew
        dsimp only
        rw [Registry.event, t.wired.host_eq hr]
        refine (mem_reached hr).2 ?_
        rw [reaches, decide_eq_true rfl, Bool.true_or]

/-- Every network that steps lead to is tracked by what was broadcast. -/
theorem Run.tracked (run : Run config log n) : n.Tracked config log := by
  induction run with
  | empty => exact Tracked.empty
  | join host role _ stays ih => exact ih.join stays
  | opened host _ first made ih => exact ih.opened first made
  | start host _ ih => exact ih.start host
  | update host visit _ ih => exact ih.update host visit
  | commit host key peers _ ih => exact ih.commit host key peers
  | broadcast host sending _ ih => exact ih.broadcast sending host

/-! ## Agreement -/

theorem Quiet.pending (quiet : n.Quiet) (hr : n.registry? host = some r) (peer : UInt32) :
    r.pending peer = false := by
  rw [Registry.pending]
  cases hp : r.peers[peer]? with
  | none => rfl
  | some p =>
    have hm := Std.TreeMap.mem_toList_iff_getElem?_eq_some.2 hp
    exact quiet r (mem_running_iff.2 ⟨host, hr⟩) (peer, p) hm

/-- Once nothing is due, a registry holds exactly what broadcasts carried into it. -/
theorem Run.hintBit_iff_told (run : Run config log n) (quiet : n.Quiet)
    (hr : n.registry? host = some r) (peer : UInt32) (i : Nat) :
    r.hintBit peer i = true ↔ Told log host peer i := by
  have t := run.tracked
  constructor
  · intro hb
    rcases t.accounted host r peer i hr hb with hdue | htold
    · rw [quiet.pending hr] at hdue
      cases hdue
    · exact htold
  · rintro ⟨p, hp, rfl, hb, hm⟩
    obtain ⟨r', hr', hbits⟩ := t.held p hp host hm
    rw [hr] at hr'
    cases hr'
    exact hbits i hb

/-- Once nothing is due, the registries agree if and only if each of them was told,
by some broadcast that got into it, everything that was ever broadcast. -/
theorem Run.agree_iff (run : Run config log n) (quiet : n.Quiet) :
    n.Agree ↔ ∀ p ∈ log, ∀ host, (n.registry? host).isSome = true →
      ∀ i, p.event.bit i = true → Told log host p.event.peer i := by
  constructor
  · intro agree p hp host hsome i hb
    obtain ⟨r, hr⟩ := Option.isSome_iff_exists.1 hsome
    have hsent := run.tracked.sent p hp
    obtain ⟨s, hs, hbits⟩ := run.tracked.held p hp p.event.sender hsent
    refine (run.hintBit_iff_told quiet hr p.event.peer i).1 ?_
    rw [agree r (mem_running_iff.2 ⟨host, hr⟩) s (mem_running_iff.2 ⟨_, hs⟩)]
    exact hbits i hb
  · intro told
    have hle (r s : Registry) (hr : r ∈ n.running) (hs : s ∈ n.running) (peer : UInt32) (i : Nat)
        (hb : r.hintBit peer i = true) : s.hintBit peer i = true := by
      obtain ⟨host, hr⟩ := mem_running_iff.1 hr
      obtain ⟨other, hs⟩ := mem_running_iff.1 hs
      obtain ⟨p, hp, rfl, hbit, -⟩ := (run.hintBit_iff_told quiet hr peer i).1 hb
      have hsome : (n.registry? other).isSome = true := by
        rw [hs]
        rfl
      exact (run.hintBit_iff_told quiet hs _ i).2 (told p hp other hsome i hbit)
    intro r hr s hs peer i
    rw [Bool.eq_iff_iff]
    exact ⟨hle r s hr hs peer i, hle s r hs hr peer i⟩

/-! ## A newcomer

A member has broadcast a key when another one joins. It sees the other one join and
broadcasts again. It matters whether the newcomer follows the membership before the
second broadcast or after it.
-/

/-- The network with a registry for a host, where one can be made. -/
def opened (n : Network) (host : Host) (config : ClusterParams) : Network :=
  ((n.openRegistry host config).toOption).getD n

theorem Run.opened_or_same (run : Run config log n) (host : Host)
    (first : n.acting[host]? = none) :
    Run config log (n.opened host config) := by
  unfold Network.opened
  cases made : n.openRegistry host config with
  | error _ => exact run
  | ok _ => exact run.opened host first made

/-- Small hints on a small ring. -/
def smallParams : ClusterParams := ⟨8, 4096, 3⟩

/-- One member that has recorded a key. -/
def recorded : Network :=
  (((((empty.join "a" .store).opened "a" smallParams).start "a").update "a").2.commit "a" "k"
    [Registry.digest "a"]).2

/-- It has broadcast the key, and then another member joins and listens. -/
def newcomer : Network :=
  (((recorded.broadcast "a").2.join "c" .store).opened "c" smallParams).start "c"

/-- Both follow the membership before the second broadcast. -/
def earlycomer : Network := ((newcomer.update "c").2.update "a").2

/-- The newcomer follows the membership only after the second broadcast. -/
def latecomer : Network := (((newcomer.update "a").2.broadcast "a").2.update "c").2

theorem newcomer_run : Run smallParams (recorded.postings "a") newcomer := by
  have joined : Run smallParams [] (empty.join "a" .store) :=
    Run.empty.join "a" .store fun _ => rfl
  have made := joined.opened_or_same "a" (by decide +kernel)
  have committed : Run smallParams [] recorded :=
    ((made.start "a").update "a" .listed).commit "a" "k" [Registry.digest "a"]
  have other := (committed.broadcast "a" .listed).join "c" .store fun _ => rfl
  have listening := (other.opened_or_same "c" (by decide +kernel)).start "c"
  exact listening

/-- A newcomer that knows the peers when their keys are broadcast again gets them. -/
theorem Run.agree_of_earlycomer :
    Run smallParams (recorded.postings "a" ++ earlycomer.postings "a")
        (earlycomer.broadcast "a").2 ∧
      (earlycomer.broadcast "a").2.Quiet ∧ (earlycomer.broadcast "a").2.Agree := by
  have run : Run smallParams (recorded.postings "a" ++ earlycomer.postings "a")
      (earlycomer.broadcast "a").2 :=
    ((newcomer_run.update "c" .listed).update "a" .listed).broadcast "a" .listed
  have quiet : (earlycomer.broadcast "a").2.Quiet := by decide +kernel
  -- Each event got into every registry, at the first attempt or at the second one.
  have hall : ∀ p ∈ recorded.postings "a" ++ earlycomer.postings "a",
      ∀ host ∈ (earlycomer.broadcast "a").2.acting.keys,
        ∃ q ∈ recorded.postings "a" ++ earlycomer.postings "a",
          q.event = p.event ∧ host ∈ q.reached := by decide +kernel
  refine ⟨run, quiet, (Run.agree_iff run quiet).2 fun p hp host hsome i hb => ?_⟩
  obtain ⟨r, hr⟩ := Option.isSome_iff_exists.1 hsome
  obtain ⟨serial, ha, -⟩ := registry?_eq_some_iff.1 hr
  have hkey : host ∈ (earlycomer.broadcast "a").2.acting.keys := by
    rw [Std.TreeMap.mem_keys, Std.TreeMap.mem_iff_isSome_getElem?, ha]
    rfl
  obtain ⟨q, hq, hevent, hreached⟩ := hall p hp host hkey
  rw [← hevent] at hb ⊢
  exact ⟨q, hq, rfl, hb, hreached⟩

/-- A newcomer that learns of a peer only after its keys were broadcast again never
gets them, although every ring is up to date and nothing is left to send. -/
theorem latecomer_disagrees :
    ∃ log, Run smallParams log latecomer ∧ latecomer.Settled ∧ latecomer.Quiet ∧
      ¬ latecomer.Agree := by
  have run := ((newcomer_run.update "a" .listed).broadcast "a" .listed).update "c" .listed
  refine ⟨_, run, by decide +kernel, by decide +kernel, fun agree => ?_⟩
  -- one bit of the key that the newcomer has missed is enough
  have hheld : (latecomer.registry? "a").any (·.hintBit (Registry.digest "a") 573) = true := by
    decide +kernel
  have hmissed : (latecomer.registry? "c").any (!·.hintBit (Registry.digest "a") 573) = true := by
    decide +kernel
  obtain ⟨r, hr, hbit⟩ := (Option.any_eq_true _ _).1 hheld
  obtain ⟨s, hs, hnone⟩ := (Option.any_eq_true _ _).1 hmissed
  have hsame := agree r (mem_running_iff.2 ⟨"a", hr⟩) s (mem_running_iff.2 ⟨"c", hs⟩)
    (Registry.digest "a") 573
  rw [← hsame, hbit] at hnone
  cases hnone

end Network

end QuorumStore
