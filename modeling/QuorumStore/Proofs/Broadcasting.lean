import QuorumStore.Proofs.PeerClocks
import QuorumStore.Proofs.Traffic

/-!
# Broadcasts with failures

A broadcast dispatches each hint that is due once, whatever becomes of the others, and a
hint stays due exactly when its own dispatch has failed. To see what is dispatched, a log
is kept beside the dispatch; it does not change what the broadcast does. On a bus nothing
fails, and every registry of another member that listens, has the same configuration and
knows the peer takes in all that is sent.
-/

namespace QuorumStore

namespace Registry

variable {config : ClusterParams} {r : Registry} {σ : Type}

/-! ## The log of a broadcast -/

/-- Dispatch that writes down each event, and what comes of it. -/
def logging (dispatch : HintEvent → σ → Except Fault Unit × σ) (e : HintEvent)
    (world : List Dispatched × σ) : Except Fault Unit × List Dispatched × σ :=
  ((dispatch e world.2).1, world.1 ++ [⟨e, (dispatch e world.2).1⟩], (dispatch e world.2).2)

variable (dispatch : HintEvent → σ → Except Fault Unit × σ) (sending : Arrangement Shipment)

/-- To keep a log changes nothing that comes of an attempt. -/
theorem attempts_logging (event : Shipment → HintEvent) (shipments : List Shipment)
    (before : List Dispatched) (world : σ) :
    attempts (logging dispatch) event shipments (before, world)
      = attempts dispatch event shipments world := by
  induction shipments generalizing before world with
  | nil => rfl
  | cons s rest ih => exact congrArg (_ :: ·) (ih _ _)

theorem worldAfter_logging (event : Shipment → HintEvent) (shipments : List Shipment)
    (before : List Dispatched) (world : σ) :
    worldAfter (logging dispatch) (shipments.map event) (before, world)
      = (before ++ log dispatch event shipments world,
        worldAfter dispatch (shipments.map event) world) := by
  induction shipments generalizing before world with
  | nil => exact congrArg (·, world) (List.append_nil before).symm
  | cons s rest ih =>
    rw [log, attempts, List.map_cons, List.map_cons, List.append_cons]
    exact ih _ _

/-- To keep a log changes nothing else. -/
theorem ship_logging (shipments : List Shipment) (r : Registry) (world : σ)
    (before : List Dispatched) :
    ship (logging dispatch) shipments r (before, world)
      = ((ship dispatch shipments r world).1, (ship dispatch shipments r world).2.1,
        before ++ log dispatch r.event shipments world,
        (ship dispatch shipments r world).2.2) := by
  simp only [ship_eq, worldAfter_logging, delivered, log, attempts_logging]

/-- Every shipment is dispatched, in turn. -/
theorem map_event_log (event : Shipment → HintEvent) (shipments : List Shipment) (world : σ) :
    (log dispatch event shipments world).map Dispatched.event = shipments.map event := by
  have hattempts := map_shipment_attempts dispatch event shipments world
  calc (log dispatch event shipments world).map Dispatched.event
      = ((attempts dispatch event shipments world).map Attempt.shipment).map event := by
        rw [log, List.map_map, List.map_map]
        rfl
    _ = shipments.map event := by rw [hattempts]

/-- Those are delivered whose dispatch has succeeded. -/
theorem map_peer_delivered (shipments : List Shipment) (r : Registry) (world : σ) :
    (delivered dispatch shipments r world).map Shipment.peer
      = ((log dispatch r.event shipments world).filter (·.outcome.isOk)).map (·.event.peer) := by
  rw [log, List.filter_map, List.map_map, delivered, List.map_map]
  rfl

/-! ## Exactly what is due -/

/-- What holds of a broadcast by what was dispatched. -/
structure BroadcastsExactly (r : Registry) (log : List Dispatched) (b : Broadcast)
    (r' : Registry) : Prop where
  /-- The hints that are due are dispatched. -/
  dispatched : ∀ peer, peer ∈ log.map (·.event.peer) ↔ r.pending peer = true
  /-- Each of them is dispatched once. -/
  once : (log.map (·.event.peer)).Nodup
  /-- The octets sent are read as the hint. -/
  readable : ∀ d ∈ log, d.event.sender = r.host ∧
    ∃ p, r.peers[d.event.peer]? = some p ∧ Hint.ofBytes d.event.payload = .ok p.hint
  /-- The host, the ring and the configuration stay. -/
  frame : r'.host = r.host ∧ r'.ring = r.ring ∧ r'.config = r.config
  /-- So do the hosts, the hints and the clocks of the peers. -/
  kept : ∀ peer : UInt32, (r'.peers[peer]?.map fun p => (p.host, p.hint, p.clock))
    = r.peers[peer]?.map fun p => (p.host, p.hint, p.clock)
  /-- A hint is due after it exactly if it was due and its own dispatch has failed. -/
  pending : ∀ peer, r'.pending peer = true ↔
    r.pending peer = true ∧ ∃ d ∈ log, d.event.peer = peer ∧ d.outcome.isOk = false
  /-- Where none has failed the hints are counted. -/
  counted : (∀ d ∈ log, d.outcome.isOk = true) → b.result = .ok log.length
  /-- Where any has failed the failures are told. -/
  failed : (∃ d ∈ log, d.outcome.isOk = false) →
    b.result = .error (Undelivered.joined (log.filterMap Dispatched.undelivered))

/-- What is sent is about the peers whose hints are due. -/
theorem mem_map_peer_shipments {peer : UInt32} :
    peer ∈ (sending.order r.shipments).map Shipment.peer ↔ r.pending peer = true := by
  rw [((sending.perm r.shipments).map Shipment.peer).mem_iff, List.mem_map, pending,
    Option.any_eq_true]
  constructor
  · rintro ⟨s, hs, rfl⟩
    obtain ⟨p, hp, hdue, -⟩ := mem_shipments.1 hs
    exact ⟨p, hp, hdue⟩
  · rintro ⟨p, hp, hdue⟩
    exact ⟨⟨peer, p.clock, p.hint.toBytes⟩, mem_shipments.2 ⟨p, hp, hdue, rfl, rfl⟩, rfl⟩

/-- A hint is due after a broadcast if it was due before and was not delivered. -/
theorem pending_broadcast_iff (r : Registry) (world : σ) (peer : UInt32) :
    (r.broadcast dispatch sending world).2.1.pending peer = true ↔ r.pending peer = true ∧
      peer ∉ (delivered dispatch (sending.order r.shipments) r world).map Shipment.peer := by
  constructor
  · intro hafter
    have hbefore := hafter
    rw [pending_broadcast, Option.any_eq_true] at hbefore
    obtain ⟨p, hp, hdue⟩ := hbefore
    refine ⟨(Option.any_eq_true _ _).2 ⟨p, hp, (Bool.and_eq_true_iff.1 hdue).1⟩, fun hm => ?_⟩
    obtain ⟨s, hs, rfl⟩ := List.mem_map.1 hm
    rw [(pending_of_delivered dispatch sending hs).2] at hafter
    cases hafter
  · rintro ⟨hdue, hnot⟩
    obtain ⟨p, hp, hpdue⟩ := (Option.any_eq_true _ _).1 hdue
    have hclock : p.shared < p.clock := of_decide_eq_true hpdue
    have hlatest : latest (delivered dispatch (sending.order r.shipments) r world) peer = 0 := by
      by_contra hne
      obtain ⟨s, hs, he⟩ := exists_of_latest_pos (Nat.pos_of_ne_zero hne)
      exact hnot (List.mem_map.2 ⟨s, hs, he⟩)
    rw [pending_broadcast, hp, Option.any_some, hpdue, hlatest, Bool.true_and]
    exact decide_eq_true (Nat.zero_lt_of_lt hclock)

/-- Where each peer is logged once, what was not delivered has failed. -/
theorem not_mem_succeeded_iff {entries : List Dispatched} {peer : UInt32}
    (hnodup : (entries.map (·.event.peer)).Nodup) (hm : peer ∈ entries.map (·.event.peer)) :
    peer ∉ (entries.filter (·.outcome.isOk)).map (·.event.peer) ↔
      ∃ d ∈ entries, d.event.peer = peer ∧ d.outcome.isOk = false := by
  constructor
  · intro hnot
    obtain ⟨d, hd, he⟩ := List.mem_map.1 hm
    refine ⟨d, hd, he, ?_⟩
    by_contra hok
    rw [Bool.not_eq_false] at hok
    exact hnot (List.mem_map.2 ⟨d, List.mem_filter.2 ⟨hd, hok⟩, he⟩)
  · rintro ⟨d, hd, he, hfailed⟩ hsome
    obtain ⟨other, hother, he'⟩ := List.mem_map.1 hsome
    obtain ⟨hin, hok⟩ := List.mem_filter.1 hother
    have hsame : d = other := List.inj_on_of_nodup_map hnodup hd hin (he.trans he'.symm)
    rw [hsame, hok] at hfailed
    cases hfailed

/-- Whatever becomes of the single dispatches, a broadcast is exact. -/
theorem broadcastsExactly (r : Registry) (world : σ) :
    r.BroadcastsExactly (log dispatch r.event (sending.order r.shipments) world)
      (r.broadcast dispatch sending world).1 (r.broadcast dispatch sending world).2.1 := by
  have hevents := map_event_log dispatch r.event (sending.order r.shipments) world
  have hpeers : (log dispatch r.event (sending.order r.shipments) world).map (·.event.peer)
      = (sending.order r.shipments).map Shipment.peer := by
    have hmap := congrArg (List.map HintEvent.peer) hevents
    rwa [List.map_map, List.map_map] at hmap
  have hdelivered := map_peer_delivered dispatch (sending.order r.shipments) r world
  have hfailures : (ship dispatch (sending.order r.shipments) r world).1.failures
      = (log dispatch r.event (sending.order r.shipments) world).filterMap
        Dispatched.undelivered := by
    rw [ship_eq]
  have hframe := broadcast_frame dispatch sending r world
  generalize log dispatch r.event (sending.order r.shipments) world = entries at *
  have honce : (entries.map (·.event.peer)).Nodup := hpeers ▸ nodup_shipments sending r
  have hresult : (r.broadcast dispatch sending world).1.result
      = if (entries.filterMap Dispatched.undelivered).isEmpty then
          .ok (delivered dispatch (sending.order r.shipments) r world).length
        else .error (Undelivered.joined (entries.filterMap Dispatched.undelivered)) := by
    rw [Broadcast.result, broadcast, hfailures, ship_eq]
  constructor
  case dispatched =>
    intro peer
    rw [hpeers, mem_map_peer_shipments]
  case once => exact honce
  case readable =>
    intro d hd
    have hshipped : d.event ∈ (sending.order r.shipments).map r.event :=
      hevents ▸ List.mem_map_of_mem hd
    obtain ⟨s, hs, he⟩ := List.mem_map.1 hshipped
    obtain ⟨p, hp, -, -, hpayload⟩ := mem_shipments.1 (sending.mem_order.1 hs)
    rw [← he]
    refine ⟨rfl, p, hp, ?_⟩
    rw [event, hpayload, Hint.ofBytes_toBytes]
  case frame => exact ⟨hframe.1, hframe.2.1, hframe.2.2.1⟩
  case kept =>
    intro peer
    rw [broadcast, ship_eq, getElem?_foldl_markSent, Option.map_map]
    rfl
  case pending =>
    intro peer
    rw [pending_broadcast_iff, hdelivered]
    refine and_congr_right fun hdue => not_mem_succeeded_iff honce ?_
    rw [hpeers, mem_map_peer_shipments]
    exact hdue
  case counted =>
    intro hall
    have hnone : entries.filterMap Dispatched.undelivered = [] :=
      List.filterMap_eq_nil_iff.2 fun d hd => Dispatched.undelivered_eq_none_iff.2 (hall d hd)
    have hcount := congrArg List.length hdelivered
    rw [List.length_map, List.length_map, List.filter_eq_self.2 hall] at hcount
    rw [hresult, hnone, hcount]
    rfl
  case failed =>
    rintro ⟨d, hd, hfailed⟩
    rw [hresult, if_neg]
    rw [List.isEmpty_iff, List.filterMap_eq_nil_iff]
    intro hall
    rw [Dispatched.undelivered_eq_none_iff.1 (hall d hd)] at hfailed
    cases hfailed

/-- Clocks that are kept say that the hints have the configured shape. -/
theorem Clocked.shaped (h : r.Clocked config) : r.Shaped config where
  config_eq := h.config_eq
  shape peer p hp := (h.peers peer p hp).shape
  shared_le peer p hp := (h.peers peer p hp).shared_le

end Registry

namespace Network

variable {config : ClusterParams} {n n' : Network} {r s : Registry} {host : Host} {serial : Nat}

/-! ## Over a bus -/

/-- Events that a host delivers in turn are heard by every registry, each as often as it
listens elsewhere. -/
theorem getElem?_foldl_deliver (events : List HintEvent) (n : Network) (host : Host)
    (serial : Nat) :
    (events.foldl (fun n e => n.deliver host e) n).registries[serial]?
      = n.registries[serial]?.map fun s =>
        events.foldl (fun s e => hear e (copies (n.bus.audience host) serial) s) s := by
  induction events generalizing n with
  | nil => exact Option.map_id'.symm
  | cons e rest ih =>
    have hbus : (n.deliver host e).bus = n.bus := (foldl_hand_frame e (n.bus.audience host) n).1
    rw [List.foldl_cons, ih, hbus, deliver, getElem?_foldl_hand, Option.map_map]
    rfl

theorem acting_foldl_deliver (events : List HintEvent) (n : Network) (host : Host) :
    (events.foldl (fun n e => n.deliver host e) n).acting = n.acting := by
  induction events generalizing n with
  | nil => rfl
  | cons e rest ih =>
    exact (ih (n.deliver host e)).trans (foldl_hand_frame e (n.bus.audience host) n).2.1

theorem knows_foldl_hear (events : List HintEvent) (count : Nat) (s : Registry) (peer : UInt32) :
    (events.foldl (fun s e => hear e count s) s).knows peer = s.knows peer := by
  induction events generalizing s with
  | nil => rfl
  | cons e rest ih => exact (ih (hear e count s)).trans (knows_hear e count s peer)

/-- What is known is not lost by what is heard. -/
theorem kept_foldl_hear (h : s.Shaped config) {events : List HintEvent}
    (hevents : ∀ e ∈ events, Registry.Carries config e) (count : Nat) {peer : UInt32} {i : Nat}
    (hb : s.hintBit peer i = true) :
    (events.foldl (fun s e => hear e count s) s).hintBit peer i = true := by
  induction events generalizing s with
  | nil => exact hb
  | cons e rest ih =>
    obtain ⟨hcarries, hrest⟩ := List.forall_mem_cons.1 hevents
    exact ih (shaped_hear h e count) hrest ((grown_hear h hcarries count).kept peer i hb)

/-- A registry that hears hints of others about peers that it knows takes in the bits of
each. -/
theorem taken_foldl_hear (h : s.Shaped config) {events : List HintEvent}
    (hevents : ∀ e ∈ events, Registry.Carries config e) (hothers : ∀ e ∈ events, e.sender ≠ s.host)
    {count : Nat} (hcount : 0 < count) {e : HintEvent} (hm : e ∈ events)
    (hknows : s.knows e.peer = true) {i : Nat} (hb : e.bit i = true) :
    (events.foldl (fun s e => hear e count s) s).hintBit e.peer i = true := by
  induction events generalizing s with
  | nil => cases hm
  | cons first rest ih =>
    obtain ⟨hcarries, hrest⟩ := List.forall_mem_cons.1 hevents
    obtain ⟨hother, hothers⟩ := List.forall_mem_cons.1 hothers
    have hshaped := shaped_hear h first count
    rcases List.mem_cons.1 hm with rfl | hm
    · exact kept_foldl_hear hshaped hrest count
        (taken_hear h hcarries hother hknows hcount hb)
    · refine ih hshaped hrest (fun later hlater => ?_) hm ?_
      · rw [(hear_frame first count s).1]
        exact hothers later hlater
      · rw [knows_hear]
        exact hknows

/-- A registry that listens under its host. -/
structure Listening (n : Network) (serial : Nat) (s : Registry) : Prop where
  /-- It is the registry of the serial number. -/
  registry_eq : n.registries[serial]? = some s
  /-- It is among the listeners of its host. -/
  listener : ∃ number : Nat, (n.bus.of s.host)[number]? = some (.registry serial)

/-- A registry that listens is handed what others send. -/
theorem Listening.copies_pos (h : n.Listening serial s) (hother : s.host ≠ host) :
    0 < copies (n.bus.audience host) serial := by
  obtain ⟨number, hlistener⟩ := h.listener
  rw [copies, List.countP_pos_iff]
  exact ⟨(number, .registry serial), mem_audience.2 ⟨s.host, hother, hlistener⟩,
    decide_eq_true rfl⟩

/-- Whoever listens elsewhere, has the same configuration and knows the peer takes in the
hint that is sent about it. -/
theorem taken_broadcast (hr : n.registry? host = some r) (hhost : r.host = host)
    (hwilling : n.refusesDispatch host = false) (hclocked : r.Clocked config)
    (hs : n.Listening serial s) (hclocked' : s.Clocked config) (hother : s.host ≠ host)
    {peer : UInt32} (hdue : r.pending peer = true) (hknows : s.knows peer = true)
    (sending : Arrangement Shipment) :
    ∃ s', (n.broadcast host sending).2.registries[serial]? = some s' ∧ s'.knows peer = true ∧
      ∀ i, r.hintBit peer i = true → s'.hintBit peer i = true := by
  obtain ⟨own, hacting, hown⟩ := registry?_eq_some_iff.1 hr
  have hne : ¬ own = serial := by
    rintro rfl
    have hsame : r = s := Option.some_inj.1 (hown.symm.trans hs.registry_eq)
    exact hother (hsame ▸ hhost)
  have hcarries (e : HintEvent) (hm : e ∈ (sending.order r.shipments).map r.event) :
      Registry.Carries config e := by
    obtain ⟨shipment, hship, rfl⟩ := List.mem_map.1 hm
    exact (hclocked.shaped.carries_event (sending.mem_order.1 hship)).1
  have hothers (e : HintEvent) (hm : e ∈ (sending.order r.shipments).map r.event) :
      e.sender ≠ s.host := by
    obtain ⟨shipment, -, rfl⟩ := List.mem_map.1 hm
    exact fun hsender => hother (hsender.symm.trans hhost)
  obtain ⟨shipment, hship, rfl⟩ := List.mem_map.1 ((Registry.mem_map_peer_shipments sending).2 hdue)
  have hsent : r.event shipment ∈ (sending.order r.shipments).map r.event :=
    List.mem_map_of_mem hship
  -- the sender is put back under its own serial number, which is another one
  have hget : (n.broadcast host sending).2.registries[serial]?
      = (((sending.order r.shipments).map r.event).foldl (fun n e => n.deliver host e)
          n).registries[serial]? := by
    rw [broadcast_eq hr hwilling sending, putRegistry, acting_foldl_deliver,
      (r.shipped_frame sending).1, hhost, hacting]
    dsimp only
    rw [Std.TreeMap.getElem?_insert, if_neg]
    rw [Std.LawfulEqCmp.compare_eq_iff_eq]
    exact hne
  rw [hget, getElem?_foldl_deliver, hs.registry_eq]
  refine ⟨_, rfl, (knows_foldl_hear _ _ s shipment.peer).trans hknows, fun i hb => ?_⟩
  rw [← (hclocked.shaped.carries_event (sending.mem_order.1 hship)).2] at hb
  exact taken_foldl_hear hclocked'.shaped hcarries hothers (hs.copies_pos hother) hsent hknows hb

/-! ## Every registry of a run is kept to its configuration -/

/-- Every registry is kept to a configuration. -/
def Clocked (n : Network) : Prop :=
  ∀ (serial : Nat) (r : Registry), n.registries[serial]? = some r → ∃ config, r.Clocked config

theorem clocked_foldl_receive (h : r.Clocked config) (events : List HintEvent) :
    (events.foldl Registry.receive r).Clocked config := by
  induction events generalizing r with
  | nil => exact h
  | cons e rest ih => exact ih (h.receive e)

/-- Registries that have taken events in are kept as before. -/
theorem Clocked.taken (h : n.Clocked) {events : List HintEvent}
    (htaken : n'.registries[serial]?
      = n.registries[serial]?.map fun r => events.foldl Registry.receive r)
    (hs : n'.registries[serial]? = some s) : ∃ config, s.Clocked config := by
  rw [htaken] at hs
  obtain ⟨r, hr, rfl⟩ := Option.map_eq_some_iff.1 hs
  obtain ⟨config, hclocked⟩ := h serial r hr
  exact ⟨config, clocked_foldl_receive hclocked events⟩

theorem Turn.clocked {a : Action} (t : n.Turn host r a s) (h : r.Clocked config) :
    s.Clocked config := by
  cases t with
  | start listener => exact ⟨h.config_eq, h.peers⟩
  | stop listener => exact ⟨h.config_eq, h.peers⟩
  | update visit willing => exact h.update _
  | commit key peers => exact h.commit key peers
  | broadcast sending => exact h.broadcast (dispatch host) sending n

/-- Every step keeps the registries to their configurations. -/
theorem Clocked.step (h : n.Clocked) (o : n.Owned) (a : Action) : (n.step a).Clocked := by
  intro serial s hs
  cases hactor : a.actor with
  | some host =>
    rcases o.acts_or_idle hactor with ⟨hidle, -⟩ | ⟨own, r, s', -, hr, t, hacts⟩
    · rw [hidle] at hs
      exact h serial s hs
    · by_cases hown : serial = own
      · rw [hown, hacts.own, Option.some_inj] at hs
        obtain ⟨config, hclocked⟩ := h own r hr
        exact ⟨config, hs ▸ t.clocked hclocked⟩
      · obtain ⟨events, hevents⟩ := hacts.others serial hown
        exact h.taken hevents hs
  | none =>
    cases a with
    | start | stop | update | commit | broadcast => cases hactor
    | join | leave | fail => exact h serial s hs
    | opened host config =>
      rw [Network.step] at hs
      cases hmade : n.openRegistry host config with
      | error abort =>
        rw [hmade] at hs
        exact h serial s hs
      | ok opened =>
        rw [hmade] at hs
        obtain ⟨r, hr, rfl⟩ := openRegistry_eq hmade
        dsimp only at hs
        rw [Std.TreeMap.getElem?_insert] at hs
        split_ifs at hs
        · cases hs
          exact ⟨config, Registry.clocked_new hr⟩
        · exact h serial s hs
    | adopt host serial' =>
      rw [Network.step] at hs
      split_ifs at hs <;> exact h serial s hs
    | hand e listener =>
      obtain ⟨events, hevents⟩ := (heard_hand n e listener).taken serial
      exact h.taken hevents hs

theorem clocked_after (actions : ℕ → Action) (k : ℕ) : (after actions k).Clocked := by
  induction k with
  | zero =>
    intro serial r hr
    rw [after, empty, Std.TreeMap.getElem?_emptyc] at hr
    cases hr
  | succ k ih => exact ih.step (owned_after actions k) (actions k)

/-- In every state of a registry, in whatever order the hints are sent and whatever comes of
the single dispatches: the hints that are due are dispatched once each, in octets that are
read as the hint; hints, clocks and ring stay, and a hint is due afterwards exactly if it was
due and its own dispatch failed; the broadcast counts the hints if none failed, and else it
fails. In every run of members of a bus, a registry of another member that listens, has the
same configuration and knows the peer has every bit of the hint afterwards. -/
theorem broadcasts_exactly :
    (∀ (r : Registry) {σ : Type} (dispatch : HintEvent → σ → Except Fault Unit × σ)
      (sending : Arrangement Shipment) (world : σ),
      ∃ (b : Registry.Broadcast) (r' : Registry) (world' : σ) (entries : List Dispatched),
        r.broadcast dispatch sending world = (b, r', world') ∧
        r.broadcast (Registry.logging dispatch) sending ([], world) = (b, r', entries, world') ∧
        r.BroadcastsExactly entries b r') ∧
    ∀ (actions : ℕ → Action) (k : ℕ) (host : Host) (r : Registry) (sending : Arrangement Shipment),
      registry? (after actions k) host = some r →
      (after actions k).refusesDispatch host = false →
      ((after actions k).broadcast host sending).1.result = .ok r.shipments.length ∧
      ∀ (peer : UInt32) (serial : Nat) (s : Registry), r.pending peer = true →
        (after actions k).Listening serial s → s.host ≠ host → s.config = r.config →
        s.knows peer = true →
        ∃ s', ((after actions k).broadcast host sending).2.registries[serial]? = some s' ∧
          s'.knows peer = true ∧ ∀ i, r.hintBit peer i = true → s'.hintBit peer i = true := by
  refine ⟨fun r σ dispatch sending world => ?_,
    fun actions k host r sending hr hwilling => ⟨?_, ?_⟩⟩
  · refine ⟨_, _, _, _, rfl, ?_, Registry.broadcastsExactly dispatch sending r world⟩
    exact Registry.ship_logging dispatch (sending.order r.shipments) r world []
  · rw [broadcast_eq hr hwilling, Registry.Broadcast.result, (sending.perm r.shipments).length_eq]
    rfl
  · intro peer serial s hdue hs hother hconfig hknows
    obtain ⟨own, -, hown⟩ := registry?_eq_some_iff.1 hr
    obtain ⟨config, hclocked⟩ := clocked_after actions k own r hown
    obtain ⟨config', hclocked'⟩ := clocked_after actions k serial s hs.registry_eq
    have hsame : config' = config := by
      rw [← hclocked.config_eq, ← hclocked'.config_eq, hconfig]
    exact taken_broadcast hr ((owned_after actions k).host_eq hr) hwilling hclocked hs
      (hsame ▸ hclocked') hother hdue hknows sending

/-- Dispatch that loses the hint of one host and counts the others. -/
def lossy (e : HintEvent) (count : Nat) : Except Fault Unit × Nat :=
  if e.peer = Registry.digest "a" then (.error (.network "lost"), count) else (.ok (), count + 1)

/-- A registry to which three hosts belong, two of which have a key recorded. -/
def doubled : Registry := (Registry.trio.commit "k" [Registry.digest "a", Registry.digest "b"]).1

/-- Where one of two hints is lost, the other one is delivered and the first stays due. Of
two members that have met, the one takes in what the other sends. -/
theorem broadcasts_exactly_of_loss :
    (doubled.broadcast lossy .reversed 0).1 = ⟨1, [⟨Registry.digest "a", .network "lost"⟩]⟩ ∧
      (doubled.broadcast lossy .reversed 0).2.1.pending (Registry.digest "a") = true ∧
      (doubled.broadcast lossy .reversed 0).2.1.pending (Registry.digest "b") = false ∧
      (∃ entries, doubled.BroadcastsExactly entries (doubled.broadcast lossy .reversed 0).1
        (doubled.broadcast lossy .reversed 0).2.1) ∧
      ((after echoing 9).registries[1]?).any (·.hinted (Registry.digest "a") "k") = false ∧
      (((after echoing 9).broadcast "a" .reversed).2.registries[1]?).any
        (·.hinted (Registry.digest "a") "k") = true ∧
      ∃ r s s', registry? (after echoing 9) "a" = some r ∧ (after echoing 9).Listening 1 s ∧
        ((after echoing 9).broadcast "a" .reversed).2.registries[1]? = some s' ∧
        s'.knows (Registry.digest "a") = true ∧
        ∀ i, r.hintBit (Registry.digest "a") i = true →
          s'.hintBit (Registry.digest "a") i = true := by
  obtain ⟨hany, hbus⟩ := broadcasts_exactly
  refine ⟨by decide +kernel, by decide +kernel, by decide +kernel, ?_, by decide +kernel,
    by decide +kernel, ?_⟩
  · obtain ⟨b, r', world', entries, hbroadcast, -, hexact⟩ := hany doubled lossy .reversed 0
    rw [hbroadcast]
    exact ⟨entries, hexact⟩
  · obtain ⟨r, hr⟩ : ∃ r, registry? (after echoing 9) "a" = some r :=
      Option.isSome_iff_exists.1 (by decide +kernel)
    obtain ⟨s, hs⟩ : ∃ s, (after echoing 9).registries[1]? = some s :=
      Option.isSome_iff_exists.1 (by decide +kernel)
    have hsender : ∀ r ∈ registry? (after echoing 9) "a",
        r.config = ⟨1, 64, 1⟩ ∧ r.pending (Registry.digest "a") = true := by decide +kernel
    have hreceiver : ∀ s ∈ (after echoing 9).registries[1]?, s.host = "b" ∧
        s.config = ⟨1, 64, 1⟩ ∧ s.knows (Registry.digest "a") = true := by decide +kernel
    have hlistener : ((after echoing 9).bus.of "b")[2]? = some (.registry 1) := by decide +kernel
    obtain ⟨hconfig, hdue⟩ := hsender r hr
    obtain ⟨hhost, hconfig', hknows⟩ := hreceiver s hs
    have hlistens : (after echoing 9).Listening 1 s := ⟨hs, 2, hhost ▸ hlistener⟩
    obtain ⟨-, htaken⟩ := hbus echoing 9 "a" r .reversed hr (by decide +kernel)
    have hother : s.host ≠ "a" := by
      rw [hhost]
      decide
    obtain ⟨s', hs', hknown, hbits⟩ :=
      htaken _ 1 s hdue hlistens hother (hconfig'.trans hconfig.symm) hknows
    exact ⟨r, s, s', hr, hlistens, hs', hknown, hbits⟩

end Network

end QuorumStore
