import Mathlib.Algebra.BigOperators.Group.Finset.Basic
import Mathlib.Algebra.Order.BigOperators.Group.Finset
import Mathlib.Data.Set.Finite.Lattice
import Mathlib.Order.Interval.Finset.Nat
import QuorumStore.Proofs.BusRuns
import QuorumStore.Proofs.Following
import QuorumStore.Proofs.Shipping

/-!
# Gossip comes to rest

Any number of registries on a bus, some of which may share a host, reconcile, record
keys, broadcast and take events in, in any order and for ever. A registry delivers the
hint of a peer no more often than commits of its own have changed it and hosts have
joined it: what it owes is raised by these alone, and each delivery lowers it. Hints that
arrive are not sent on. So once nobody comes or goes and nothing is recorded any more,
only finitely many hints are still sent.
-/

namespace QuorumStore.Network

variable {n n' m : Network} {r s : Registry} {host : Host} {serial : Nat} {peer : UInt32}

/-! ## What may happen -/

/-- A step of the members of a bus. -/
inductive Action where
  /-- A host joins the bus. -/
  | join (host : Host) (role : Role)
  /-- A host leaves the bus. -/
  | leave (host : Host)
  /-- The source of membership of a host fails as told. -/
  | fail (host : Host) (failing : Failing)
  /-- A registry is made for a host. -/
  | opened (host : Host) (config : ClusterParams)
  /-- Another registry of a host acts for it. -/
  | adopt (host : Host) (serial : Nat)
  /-- The registry of a host starts to listen. -/
  | start (host : Host)
  /-- The registry of a host stops listening. -/
  | stop (host : Host)
  /-- The registry of a host follows the members that hold data, visited in an order. -/
  | update (host : Host) (visit : Arrangement Host)
  /-- The registry of a host records that peers hold a key. -/
  | commit (host : Host) (key : Key) (peers : List UInt32)
  /-- The registry of a host sends every hint that is due, in an order. -/
  | broadcast (host : Host) (sending : Arrangement Shipment)
  /-- An event is handed to a listener, whoever sent it. -/
  | hand (e : HintEvent) (listener : Nat × Listener)

/-- The network after a step. -/
def step (n : Network) : Action → Network
  | .join host role => n.join host role
  | .leave host => (n.leave host).1
  | .fail host failing => n.fail host failing
  | .opened host config =>
    match n.openRegistry host config with
    | .ok opened => opened
    | .error _ => n
  | .adopt host serial =>
    if n.registries[serial]?.map Registry.host = some host then
      { n with acting := n.acting.insert host serial }
    else n
  | .start host => n.start host
  | .stop host => n.stop host
  | .update host visit => (n.update host visit).2
  | .commit host key peers => (n.commit host key peers).2
  | .broadcast host sending => (n.broadcast host sending).2
  | .hand e listener => n.hand e listener

/-- The network after the first steps of a sequence. -/
def after (actions : ℕ → Action) : ℕ → Network
  | 0 => .empty
  | k + 1 => (after actions k).step (actions k)

/-- The hints that the registry of a host delivers when it broadcasts. -/
def delivered (n : Network) (host : Host) (sending : Arrangement Shipment) : List Shipment :=
  match n.registry? host with
  | none => []
  | some r => Registry.delivered (dispatch host) (sending.order r.shipments) r n

/-- How often a step delivers the hint of a peer for the registry of a serial number. -/
def sends (n : Network) (a : Action) (serial : Nat) (peer : UInt32) : ℕ :=
  match a with
  | .broadcast host sending =>
    if n.acting[host]? = some serial then
      ((n.delivered host sending).map Shipment.peer).count peer
    else 0
  | _ => 0

/-- The words of the hint that a registry has for a peer. -/
def words? (n : Network) (serial : Nat) (peer : UInt32) : Option (Array UInt64) :=
  n.registries[serial]?.bind (·.words? peer)

/-- One if a step is a commit of the registry that changes its hint for the peer. -/
def changes (n : Network) (a : Action) (serial : Nat) (peer : UInt32) : ℕ :=
  match a with
  | .commit host _ _ =>
    if n.acting[host]? = some serial ∧ (n.step a).words? serial peer ≠ n.words? serial peer
    then 1 else 0
  | _ => 0

/-- Whether a reconciliation reports that a host has joined. -/
def reportsJoin : Except Abort (Except Fault Registry.Churn) → Bool
  | .ok (.ok churn) => decide (0 < churn.joined)
  | _ => false

/-- One if a step is a reconciliation of the registry that lets a host join. -/
def joins (n : Network) (a : Action) (serial : Nat) : ℕ :=
  match a with
  | .update host visit =>
    if n.acting[host]? = some serial ∧ reportsJoin (n.update host visit).1 = true then 1 else 0
  | _ => 0

/-- Whether a registry owes the others the hint of a peer. -/
def owes (n : Network) (serial : Nat) (peer : UInt32) : Bool :=
  (n.registries[serial]?).any (·.pending peer)

/-! ## Networks whose registries have taken events in -/

/-- A network whose registries have taken events in. -/
structure Heard (n n' : Network) : Prop where
  /-- The same registries act. -/
  acting_eq : n'.acting = n.acting
  /-- The members of the bus are the same. -/
  members_eq : n'.bus.members = n.bus.members
  /-- There are as many registries. -/
  size_eq : n'.registries.size = n.registries.size
  /-- Each registry has taken in events. -/
  taken : ∀ serial : Nat, ∃ events : List HintEvent, n'.registries[serial]?
    = n.registries[serial]?.map fun r => events.foldl Registry.receive r

theorem Heard.refl (n : Network) : Heard n n :=
  ⟨rfl, rfl, rfl, fun _ => ⟨[], Option.map_id'.symm⟩⟩

theorem Heard.trans (h : Heard n m) (h' : Heard m n') : Heard n n' where
  acting_eq := h'.acting_eq.trans h.acting_eq
  members_eq := h'.members_eq.trans h.members_eq
  size_eq := h'.size_eq.trans h.size_eq
  taken serial := by
    obtain ⟨events, hevents⟩ := h.taken serial
    obtain ⟨more, hmore⟩ := h'.taken serial
    refine ⟨events ++ more, ?_⟩
    rw [hmore, hevents, Option.map_map]
    exact congrArg (Option.map · _) (funext fun r => List.foldl_append.symm)

theorem heard_hand (n : Network) (e : HintEvent) (listener : Nat × Listener) :
    Heard n (n.hand e listener) := by
  obtain ⟨number, kind⟩ := listener
  cases kind with
  | recorder => exact ⟨rfl, rfl, rfl, (Heard.refl n).taken⟩
  | registry named =>
    refine ⟨rfl, rfl, Std.TreeMap.size_modify, fun serial => ?_⟩
    by_cases he : named = serial
    · exact ⟨[e], by simp [hand, he]⟩
    · exact ⟨[], by simp [hand, Std.TreeMap.getElem?_modify, he]⟩

theorem heard_deliver (n : Network) (sender : Host) (e : HintEvent) :
    Heard n (n.deliver sender e) := by
  have hfold (audience : List (Nat × Listener)) (n : Network) :
      Heard n (audience.foldl (fun n listener => n.hand e listener) n) := by
    induction audience generalizing n with
    | nil => exact Heard.refl n
    | cons listener rest ih => exact (heard_hand n e listener).trans (ih _)
  exact hfold (n.bus.audience sender) n

/-- Sending hints hands events round and leaves the bus as it is. -/
theorem heard_ship (sender : Host) (shipments : List Shipment) (r : Registry) (n : Network) :
    Heard n (Registry.ship (dispatch sender) shipments r n).2.2 ∧
      (Registry.ship (dispatch sender) shipments r n).2.2.bus = n.bus := by
  rw [Registry.ship_eq, Registry.worldAfter]
  induction shipments.map r.event generalizing n with
  | nil => exact ⟨Heard.refl n, rfl⟩
  | cons e rest ih =>
    obtain ⟨hheard, hbus⟩ := ih (dispatch sender e n).2
    rw [List.foldl_cons]
    unfold dispatch at hheard hbus ⊢
    split_ifs at hheard hbus ⊢
    · exact ⟨hheard, hbus⟩
    · have hsame := (foldl_hand_frame e (n.bus.audience sender) n).1
      exact ⟨(heard_deliver n sender e).trans hheard, hbus.trans hsame⟩

/-- Events that arrive leave the host, the ring and the peers of a registry, and what it
is due to send. -/
theorem foldl_receive_frame (events : List HintEvent) (r : Registry) :
    (events.foldl Registry.receive r).host = r.host ∧
      (events.foldl Registry.receive r).ring = r.ring ∧
      ∀ peer, (events.foldl Registry.receive r).knows peer = r.knows peer ∧
        (events.foldl Registry.receive r).pending peer = r.pending peer := by
  induction events generalizing r with
  | nil => exact ⟨rfl, rfl, fun _ => ⟨rfl, rfl⟩⟩
  | cons e rest ih =>
    obtain ⟨hhost, hring, hpeers⟩ := ih (r.receive e)
    refine ⟨hhost.trans (Registry.host_receive r e), hring.trans (Registry.ring_receive r e),
      fun peer => ⟨(hpeers peer).1.trans (Registry.knows_receive r e peer), ?_⟩⟩
    exact (hpeers peer).2.trans (Registry.pending_receive r e peer)

/-! ## Each registry acts for its own host -/

/-- The registry that acts for a host is found under its serial number. -/
theorem getElem?_of_acting (hacting : n.acting[host]? = some serial)
    (hr : n.registry? host = some r) : n.registries[serial]? = some r := by
  obtain ⟨other, hother, hserial⟩ := registry?_eq_some_iff.1 hr
  rw [hacting, Option.some_inj] at hother
  rw [hother, hserial]

/-- A registry acts for its own host only, and the next serial number is free. -/
structure Owned (n : Network) : Prop where
  /-- A registry acts for its own host. -/
  owner : ∀ (host : Host) (serial : Nat), n.acting[host]? = some serial →
    n.registries[serial]?.map Registry.host = some host
  /-- The next serial number is free. -/
  fresh : ∀ serial : Nat, n.registries.size ≤ serial → n.registries[serial]? = none

theorem Owned.host_eq (o : n.Owned) (hr : n.registry? host = some r) : r.host = host := by
  obtain ⟨serial, hacting, hserial⟩ := registry?_eq_some_iff.1 hr
  have howner := o.owner host serial hacting
  rw [hserial, Option.map_some, Option.some_inj] at howner
  exact howner

/-- A network in which a registry has acted, and others have taken events in. -/
structure Acts (n : Network) (serial : Nat) (s : Registry) (n' : Network) : Prop where
  /-- The same registries act. -/
  acting_eq : n'.acting = n.acting
  /-- The members of the bus are the same. -/
  members_eq : n'.bus.members = n.bus.members
  /-- There are as many registries. -/
  size_eq : n'.registries.size = n.registries.size
  /-- What has become of the registry that acted. -/
  own : n'.registries[serial]? = some s
  /-- The others have taken in events. -/
  others : ∀ other : Nat, other ≠ serial → ∃ events : List HintEvent, n'.registries[other]?
    = n.registries[other]?.map fun r => events.foldl Registry.receive r

/-- The registry that acts for a host is put back after others have taken events in. -/
theorem acts_putRegistry (h : Heard n m) (hacting : n.acting[s.host]? = some serial)
    (hr : n.registries[serial]? = some r) : n.Acts serial s (m.putRegistry s) := by
  have hput : m.putRegistry s = { m with registries := m.registries.insert serial s } := by
    rw [putRegistry, h.acting_eq, hacting]
  have hmem : m.registries.contains serial = true := by
    obtain ⟨events, hevents⟩ := h.taken serial
    rw [Std.TreeMap.contains_eq_isSome_getElem?, hevents, hr]
    rfl
  rw [hput]
  refine ⟨h.acting_eq, h.members_eq, ?_, Std.TreeMap.getElem?_insert_self, fun other hne => ?_⟩
  · dsimp only
    rw [Std.TreeMap.size_insert, if_pos hmem, h.size_eq]
  · dsimp only
    rw [Std.TreeMap.getElem?_insert, if_neg]
    · exact h.taken other
    · rw [Std.LawfulEqCmp.compare_eq_iff_eq]
      exact Ne.symm hne

/-! ## Steps of a registry -/

/-- The host whose registry takes a step. -/
def Action.actor : Action → Option Host
  | .start host | .stop host | .update host _ | .commit host _ _ | .broadcast host _ => some host
  | _ => none

/-- What a step makes of the registry that takes it. -/
inductive Turn (n : Network) (host : Host) (r : Registry) : Action → Registry → Prop where
  | start (listener : Option Nat) : Turn n host r (.start host) { r with listener := listener }
  | stop (listener : Option Nat) : Turn n host r (.stop host) { r with listener := listener }
  | update (visit : Arrangement Host)
      (willing : n.current host .store = .ok (n.bus.current .store)) :
      Turn n host r (.update host visit) (r.update (visit.order (n.bus.current .store))).2
  | commit (key : Key) (peers : List UInt32) :
      Turn n host r (.commit host key peers) (r.commit key peers).1
  | broadcast (sending : Arrangement Shipment) :
      Turn n host r (.broadcast host sending) (r.broadcast (dispatch host) sending n).2.1

variable {a : Action}

theorem Turn.host_eq (t : n.Turn host r a s) : s.host = r.host := by
  cases t with
  | start listener => rfl
  | stop listener => rfl
  | update visit willing => exact (Registry.update_frame r _).1
  | commit key peers => exact (Registry.commit_frame r key peers).1
  | broadcast sending => exact (Registry.broadcast_frame (dispatch host) sending r n).1

/-- Where no registry acts for a host, its steps do nothing. -/
theorem step_of_no_registry (hactor : a.actor = some host) (hr : n.registry? host = none) :
    n.step a = n ∧ ∀ serial peer, n.sends a serial peer = 0 := by
  cases a with
  | join | leave | fail | opened | adopt | hand => cases hactor
  | start =>
    cases hactor
    refine ⟨?_, fun _ _ => rfl⟩
    rw [step, start, hr]
    cases n.acting[host]? <;> rfl
  | stop =>
    cases hactor
    exact ⟨by rw [step, stop, hr], fun _ _ => rfl⟩
  | update =>
    cases hactor
    exact ⟨by rw [step, update, hr], fun _ _ => rfl⟩
  | commit =>
    cases hactor
    exact ⟨by rw [step, commit, hr], fun _ _ => rfl⟩
  | broadcast =>
    cases hactor
    refine ⟨by rw [step, broadcast, hr], fun serial peer => ?_⟩
    rw [sends, delivered, hr]
    exact ite_self 0

/-- A registry takes its step and the others take events in, or nothing happens. -/
theorem Owned.acts_or_idle (o : n.Owned) (hactor : a.actor = some host) :
    (n.step a = n ∧ ∀ serial peer, n.sends a serial peer = 0) ∨
      ∃ serial r s, n.acting[host]? = some serial ∧ n.registries[serial]? = some r ∧
        n.Turn host r a s ∧ n.Acts serial s (n.step a) := by
  cases hr : n.registry? host with
  | none => exact Or.inl (step_of_no_registry hactor hr)
  | some r =>
    obtain ⟨serial, hacting, hserial⟩ := registry?_eq_some_iff.1 hr
    have hacts {s : Registry} {m : Network} (t : n.Turn host r a s) (h : Heard n m)
        (hstep : n.step a = m.putRegistry s) :
        ∃ serial r s, n.acting[host]? = some serial ∧ n.registries[serial]? = some r ∧
          n.Turn host r a s ∧ n.Acts serial s (n.step a) := by
      have hhost : s.host = host := t.host_eq.trans (o.host_eq hr)
      rw [hstep]
      exact ⟨serial, r, s, hacting, hserial, t,
        acts_putRegistry h (by rw [hhost]; exact hacting) hserial⟩
    cases a with
    | join | leave | fail | opened | adopt | hand => cases hactor
    | start =>
      cases hactor
      cases hlistener : r.listener with
      | some number => exact Or.inl ⟨start_of_some hr hlistener, fun _ _ => rfl⟩
      | none =>
        exact Or.inr (hacts (.start (some (n.bus.lastNumber + 1)))
          (m := { n with bus := (n.bus.register host (.registry serial)).1 })
          ⟨rfl, rfl, rfl, (Heard.refl n).taken⟩ (start_of_none hacting hr hlistener))
    | stop =>
      cases hactor
      cases hlistener : r.listener with
      | none => exact Or.inl ⟨stop_of_none hr hlistener, fun _ _ => rfl⟩
      | some number =>
        have hmembers : (n.bus.deregister host number).1.members = n.bus.members := by
          rw [Bus.deregister]
          split_ifs <;> rfl
        exact Or.inr (hacts (.stop none)
          (m := { n with bus := (n.bus.deregister host number).1 })
          ⟨rfl, hmembers, rfl, (Heard.refl n).taken⟩ (stop_of_some hr hlistener))
    | update other visit =>
      cases hactor
      by_cases hrefuses : n.refusesCurrent host = true
      · refine Or.inl ⟨?_, fun _ _ => rfl⟩
        rw [step, update, hr, current, if_pos hrefuses]
      · have hlisted : n.current host .store = .ok (n.bus.current .store) := by
          rw [current, if_neg hrefuses]
        refine Or.inr (hacts (.update visit hlisted) (Heard.refl n) ?_)
        rw [step, update, hr, hlisted]
    | commit =>
      cases hactor
      refine Or.inr (hacts (.commit _ _) (Heard.refl n) ?_)
      rw [step, commit, hr]
    | broadcast other sending =>
      cases hactor
      have hheard := (heard_ship host (sending.order r.shipments) r n).1
      refine Or.inr (hacts (.broadcast sending) hheard ?_)
      rw [step, broadcast, hr]
      rfl

/-- The owners stay where the registries keep their hosts. -/
theorem Owned.congr (o : n.Owned) (hacting : n'.acting = n.acting)
    (hsize : n'.registries.size = n.registries.size)
    (hhost : ∀ serial : Nat,
      n'.registries[serial]?.map Registry.host = n.registries[serial]?.map Registry.host) :
    n'.Owned where
  owner host serial ha := by
    rw [hacting] at ha
    rw [hhost]
    exact o.owner host serial ha
  fresh serial hge := by
    rw [hsize] at hge
    have hnone := hhost serial
    rw [o.fresh serial hge, Option.map_none, Option.map_eq_none_iff] at hnone
    exact hnone

theorem map_host_taken {events : List HintEvent}
    (h : n'.registries[serial]? = n.registries[serial]?.map fun r => events.foldl Registry.receive r) :
    n'.registries[serial]?.map Registry.host = n.registries[serial]?.map Registry.host := by
  rw [h, Option.map_map]
  exact congrArg (Option.map · _) (funext fun r => (foldl_receive_frame events r).1)

/-- A registry that was made takes the next serial number. -/
theorem Owned.opened (o : n.Owned) {config : ClusterParams}
    (made : n.openRegistry host config = .ok n') : n'.Owned := by
  obtain ⟨r, hr, rfl⟩ := openRegistry_eq made
  have hfree := o.fresh n.registries.size (Nat.le_refl _)
  have hsize : ¬ n.registries.contains n.registries.size = true := by
    rw [Std.TreeMap.contains_eq_isSome_getElem?, hfree]
    exact Bool.false_ne_true
  constructor
  · intro other serial ha
    dsimp only at ha ⊢
    rw [Std.TreeMap.getElem?_insert] at ha ⊢
    split_ifs at ha with he
    · rw [Std.LawfulEqCmp.compare_eq_iff_eq] at he
      cases ha
      rw [if_pos Std.ReflCmp.compare_self, Option.map_some, (new_spec hr).1, he]
    · have howner := o.owner other serial ha
      rw [if_neg]
      · exact howner
      · rw [Std.LawfulEqCmp.compare_eq_iff_eq]
        rintro rfl
        rw [hfree] at howner
        cases howner
  · intro serial hge
    dsimp only at hge ⊢
    rw [Std.TreeMap.size_insert, if_neg hsize] at hge
    rw [Std.TreeMap.getElem?_insert, if_neg]
    · exact o.fresh serial (by omega)
    · rw [Std.LawfulEqCmp.compare_eq_iff_eq]
      omega

/-- Another registry of the same host may act for it. -/
theorem Owned.adopt (o : n.Owned) (host : Host) (serial : Nat) :
    (n.step (.adopt host serial)).Owned := by
  rw [Network.step]
  split_ifs with howner
  · refine ⟨fun other serial' ha => ?_, o.fresh⟩
    dsimp only at ha
    rw [Std.TreeMap.getElem?_insert] at ha
    split_ifs at ha with he
    · rw [Std.LawfulEqCmp.compare_eq_iff_eq] at he
      cases ha
      exact he ▸ howner
    · exact o.owner other serial' ha
  · exact o

/-- Every step keeps the owners. -/
theorem Owned.step (o : n.Owned) (a : Action) : (n.step a).Owned := by
  cases hactor : a.actor with
  | some host =>
    rcases o.acts_or_idle hactor with ⟨hidle, -⟩ | ⟨serial, r, s, -, hr, t, h⟩
    · rw [hidle]
      exact o
    · refine o.congr h.acting_eq h.size_eq fun other => ?_
      by_cases hown : other = serial
      · rw [hown, h.own, hr, Option.map_some, Option.map_some, t.host_eq]
      · obtain ⟨events, hevents⟩ := h.others other hown
        exact map_host_taken hevents
  | none =>
    cases a with
    | start | stop | update | commit | broadcast => cases hactor
    | join | leave | fail => exact ⟨o.owner, o.fresh⟩
    | opened host config =>
      rw [Network.step]
      cases hmade : n.openRegistry host config with
      | ok n' => exact o.opened hmade
      | error _ => exact o
    | adopt host serial => exact o.adopt host serial
    | hand e listener =>
      have h := heard_hand n e listener
      refine o.congr h.acting_eq h.size_eq fun other => ?_
      obtain ⟨events, hevents⟩ := h.taken other
      exact map_host_taken hevents

theorem owned_empty : Network.empty.Owned := by
  have hnobody (host : Host) : Network.empty.acting[host]? = none := Std.TreeMap.getElem?_emptyc
  have hnothing (serial : Nat) : Network.empty.registries[serial]? = none :=
    Std.TreeMap.getElem?_emptyc
  refine ⟨fun host serial ha => ?_, fun serial _ => hnothing serial⟩
  rw [hnobody] at ha
  cases ha

theorem owned_after (actions : ℕ → Action) (k : ℕ) : (after actions k).Owned := by
  induction k with
  | zero => exact owned_empty
  | succ k ih => exact ih.step (actions k)

/-! ## What a step pays -/

/-- A registry that has taken events in owes what it owed. -/
theorem owes_taken {events : List HintEvent}
    (h : n'.registries[serial]? = n.registries[serial]?.map fun r => events.foldl Registry.receive r)
    (peer : UInt32) : n'.owes serial peer = n.owes serial peer := by
  rw [owes, owes, h, Option.any_map]
  exact congrArg (Option.any · _) (funext fun r => ((foldl_receive_frame events r).2.2 peer).2)

/-- A registry that was just made owes nothing. -/
theorem Owned.owes_opened (o : n.Owned) {config : ClusterParams}
    (made : n.openRegistry host config = .ok n') (serial : Nat) (peer : UInt32) :
    n'.owes serial peer = n.owes serial peer := by
  obtain ⟨r, hr, rfl⟩ := openRegistry_eq made
  rw [owes, owes]
  dsimp only
  rw [Std.TreeMap.getElem?_insert]
  split_ifs with he
  · rw [Std.LawfulEqCmp.compare_eq_iff_eq] at he
    rw [← he, o.fresh _ (Nat.le_refl _), Option.any_some, Registry.pending, (new_spec hr).2.2.2]
    rfl
  · rfl

/-- A debt that was there before or is paid for. -/
theorem toNat_le_add {after before : Bool} {paid : ℕ}
    (h : after = true → before = true ∨ 0 < paid) : after.toNat ≤ before.toNat + paid := by
  cases after with
  | false => exact Nat.zero_le _
  | true =>
    rcases h rfl with hbefore | hpaid
    · rw [hbefore]
      exact Nat.le_add_right _ _
    · exact Nat.le_trans hpaid (Nat.le_add_left _ _)

/-- A reconciliation that is not refused reports whether a host has joined. -/
theorem reportsJoin_update (hr : n.registry? host = some r) (visit : Arrangement Host)
    (willing : n.current host .store = .ok (n.bus.current .store)) :
    reportsJoin (n.update host visit).1
      = decide (0 < Loops.joined (r.update (visit.order (n.bus.current .store))).1) := by
  rw [update, hr, willing]
  dsimp only
  cases (r.update (visit.order (n.bus.current .store))).1 <;> rfl

/-- What a registry owes after its step, and what the step delivers, it owed before or
has come to owe by a change of its own. -/
theorem Turn.sends_add_pending (t : n.Turn host r a s) (hacting : n.acting[host]? = some serial)
    (hr : n.registries[serial]? = some r) (h : n.Acts serial s (n.step a)) (peer : UInt32) :
    n.sends a serial peer + (s.pending peer).toNat
      ≤ (r.pending peer).toNat + (n.changes a serial peer + n.joins a serial) := by
  have hregistry : n.registry? host = some r := registry?_eq_some_iff.2 ⟨serial, hacting, hr⟩
  cases t with
  | start listener => exact Nat.le_of_eq (Nat.zero_add _)
  | stop listener => exact Nat.le_of_eq (Nat.zero_add _)
  | update visit willing =>
    refine (Nat.le_of_eq (Nat.zero_add _)).trans (toNat_le_add fun hafter => ?_)
    refine (Registry.pending_update hafter).imp_right fun hjoined => ?_
    have hreport : reportsJoin (n.update host visit).1 = true := by
      rw [reportsJoin_update hregistry visit willing]
      exact decide_eq_true hjoined
    rw [joins, if_pos ⟨hacting, hreport⟩]
    exact Nat.add_pos_right _ Nat.one_pos
  | commit key peers =>
    refine (Nat.le_of_eq (Nat.zero_add _)).trans (toNat_le_add fun hafter => ?_)
    refine (Registry.pending_commit hafter).imp_right fun hchanged => ?_
    have hwords : (n.step (.commit host key peers)).words? serial peer ≠ n.words? serial peer := by
      rw [words?, words?, h.own, hr]
      exact hchanged
    rw [changes, if_pos ⟨hacting, hwords⟩]
    exact Nat.add_pos_left Nat.one_pos _
  | broadcast sending =>
    have hsends : n.sends (.broadcast host sending) serial peer
        = ((Registry.delivered (dispatch host) (sending.order r.shipments) r n).map
          Shipment.peer).count peer := by
      rw [sends, if_pos hacting, Network.delivered, hregistry]
    rw [hsends]
    exact Registry.count_delivered_add_pending (dispatch host) sending r n peer

/-- A step of another registry delivers nothing for this one. -/
theorem sends_of_ne (hactor : a.actor = some host) {acting : Nat}
    (hacting : n.acting[host]? = some acting) (hne : serial ≠ acting) (peer : UInt32) :
    n.sends a serial peer = 0 := by
  cases a with
  | broadcast =>
    cases hactor
    rw [sends, if_neg]
    rw [hacting, Option.some_inj]
    exact Ne.symm hne
  | _ => rfl

/-- What a registry owes after a step, and what the step delivers for it, it owed before
or has come to owe by a change of its own. -/
theorem Owned.sends_add_owes (o : n.Owned) (a : Action) (serial : Nat) (peer : UInt32) :
    n.sends a serial peer + ((n.step a).owes serial peer).toNat
      ≤ (n.owes serial peer).toNat + (n.changes a serial peer + n.joins a serial) := by
  have hsame (hsends : n.sends a serial peer = 0)
      (howes : (n.step a).owes serial peer = n.owes serial peer) :
      n.sends a serial peer + ((n.step a).owes serial peer).toNat
        ≤ (n.owes serial peer).toNat + (n.changes a serial peer + n.joins a serial) := by
    rw [hsends, howes, Nat.zero_add]
    exact Nat.le_add_right _ _
  cases hactor : a.actor with
  | some host =>
    rcases o.acts_or_idle hactor with ⟨hidle, hsends⟩ | ⟨acting, r, s, hacting, hr, t, h⟩
    · exact hsame (hsends serial peer) (by rw [hidle])
    · by_cases hown : serial = acting
      · subst hown
        rw [owes, owes, h.own, hr]
        exact t.sends_add_pending hacting hr h peer
      · obtain ⟨events, hevents⟩ := h.others serial hown
        exact hsame (sends_of_ne hactor hacting hown peer) (owes_taken hevents peer)
  | none =>
    cases a with
    | start | stop | update | commit | broadcast => cases hactor
    | join | leave | fail => exact hsame rfl rfl
    | opened host config =>
      refine hsame rfl ?_
      rw [Network.step]
      cases hmade : n.openRegistry host config with
      | ok n' => exact o.owes_opened hmade serial peer
      | error _ => rfl
    | adopt host serial' =>
      refine hsame rfl ?_
      rw [Network.step]
      split_ifs <;> rfl
    | hand e listener =>
      obtain ⟨events, hevents⟩ := (heard_hand n e listener).taken serial
      exact hsame rfl (owes_taken hevents peer)

/-- What a registry delivers in a run, and what it owes at the end, is paid for. -/
theorem sum_sends_add_owes (actions : ℕ → Action) (serial : Nat) (peer : UInt32) (m : ℕ) :
    ∑ k ∈ Finset.range m, (after actions k).sends (actions k) serial peer
        + ((after actions m).owes serial peer).toNat
      ≤ ∑ k ∈ Finset.range m, ((after actions k).changes (actions k) serial peer
        + (after actions k).joins (actions k) serial) := by
  induction m with
  | zero =>
    have hnothing : Network.empty.registries[serial]? = none := Std.TreeMap.getElem?_emptyc
    rw [after, owes, hnothing]
    exact Nat.le_refl _
  | succ m ih =>
    have hstep := (owned_after actions m).sends_add_owes (actions m) serial peer
    rw [Finset.sum_range_succ, Finset.sum_range_succ, after]
    omega

/-! ## Once the members and the keys are settled -/

/-- A step by which nobody comes or goes and nothing is recorded. -/
def Action.steady : Action → Bool
  | .join _ _ | .leave _ | .opened _ _ | .commit _ _ _ => false
  | _ => true

/-- A registry follows the members of the bus. -/
def Follows (n : Network) (serial : Nat) : Prop :=
  ∀ r, n.registries[serial]? = some r → r.Follows (n.bus.current .store)

theorem current_congr (h : n'.bus.members = n.bus.members) (role : Role) :
    n'.bus.current role = n.bus.current role := by
  rw [Bus.current, Bus.current, h]

theorem Turn.follows (t : n.Turn host r a s) (hsteady : a.steady = true)
    (h : r.Follows (n.bus.current .store)) : s.Follows (n.bus.current .store) := by
  cases t with
  | start listener => exact h.congr rfl fun _ => rfl
  | stop listener => exact h.congr rfl fun _ => rfl
  | update visit willing =>
    have hvisited := (h.congr_list fun _ => visit.mem_order).update
    exact hvisited.congr_list fun _ => visit.mem_order.symm
  | commit key peers => cases hsteady
  | broadcast sending =>
    obtain ⟨-, hring, -, hknows⟩ := Registry.broadcast_frame (dispatch host) sending r n
    exact h.congr hring hknows

/-- A registry that has taken events in follows whom it followed. -/
theorem Follows.taken (h : n.Follows serial) (hmembers : n'.bus.members = n.bus.members)
    {events : List HintEvent}
    (htaken : n'.registries[serial]?
      = n.registries[serial]?.map fun r => events.foldl Registry.receive r) :
    n'.Follows serial := by
  intro s hs
  rw [htaken] at hs
  obtain ⟨r, hr, rfl⟩ := Option.map_eq_some_iff.1 hs
  obtain ⟨-, hring, hpeers⟩ := foldl_receive_frame events r
  rw [current_congr hmembers]
  exact (h r hr).congr hring fun peer => (hpeers peer).1

/-- A steady step leaves the members and the number of registries as they are, and whoever
follows the members. -/
theorem Owned.step_steady (o : n.Owned) (hsteady : a.steady = true) :
    (n.step a).bus.members = n.bus.members ∧
      (n.step a).registries.size = n.registries.size ∧
      ∀ serial, n.Follows serial → (n.step a).Follows serial := by
  cases hactor : a.actor with
  | some host =>
    rcases o.acts_or_idle hactor with ⟨hidle, -⟩ | ⟨acting, r, s, hacting, hr, t, h⟩
    · rw [hidle]
      exact ⟨rfl, rfl, fun _ h => h⟩
    · refine ⟨h.members_eq, h.size_eq, fun serial hfollows => ?_⟩
      by_cases hown : serial = acting
      · intro s' hs'
        rw [hown, h.own, Option.some_inj] at hs'
        rw [← hs', current_congr h.members_eq]
        exact t.follows hsteady (hfollows r (hown ▸ hr))
      · obtain ⟨events, hevents⟩ := h.others serial hown
        exact hfollows.taken h.members_eq hevents
  | none =>
    cases a with
    | start | stop | update | broadcast => cases hactor
    | join | leave | opened | commit => cases hsteady
    | fail => exact ⟨rfl, rfl, fun _ h => h⟩
    | adopt host serial' =>
      rw [Network.step]
      split_ifs <;> exact ⟨rfl, rfl, fun _ h => h⟩
    | hand e listener =>
      have h := heard_hand n e listener
      refine ⟨h.members_eq, h.size_eq, fun serial hfollows => ?_⟩
      obtain ⟨events, hevents⟩ := h.taken serial
      exact hfollows.taken h.members_eq hevents

/-- A step that counts as one by which a host joins lets a host join. -/
theorem of_joins_pos (h : 0 < n.joins a serial) :
    ∃ host visit r, a = .update host visit ∧ n.acting[host]? = some serial ∧
      n.registry? host = some r ∧ n.current host .store = .ok (n.bus.current .store) ∧
      0 < Loops.joined (r.update (visit.order (n.bus.current .store))).1 := by
  cases a with
  | update host visit =>
    have hjoins : n.acting[host]? = some serial ∧ reportsJoin (n.update host visit).1 = true := by
      by_contra hnot
      rw [joins, if_neg hnot] at h
      cases h
    obtain ⟨hacting, hreport⟩ := hjoins
    cases hr : n.registry? host with
    | none =>
      rw [update, hr] at hreport
      dsimp only at hreport
      exact absurd hreport (by decide)
    | some r =>
      have hwilling : n.current host .store = .ok (n.bus.current .store) := by
        rw [current, if_neg]
        intro hrefuses
        rw [update, hr, current, if_pos hrefuses] at hreport
        cases hreport
      rw [reportsJoin_update hr visit hwilling] at hreport
      exact ⟨host, visit, r, rfl, hacting, hr, hwilling, of_decide_eq_true hreport⟩
  | _ => exact absurd h (Nat.lt_irrefl 0)

/-- A registry that a host joins follows the members then. -/
theorem Owned.follows_of_joins (o : n.Owned) (h : 0 < n.joins a serial) :
    (n.step a).Follows serial := by
  obtain ⟨host, visit, r, rfl, hacting, hr, hwilling, hjoined⟩ := of_joins_pos h
  have hserial := getElem?_of_acting hacting hr
  have hstep : n.step (.update host visit)
      = n.putRegistry (r.update (visit.order (n.bus.current .store))).2 := by
    rw [Network.step, update, hr, hwilling]
  have hhost : (r.update (visit.order (n.bus.current .store))).2.host = host :=
    (Registry.update_frame r _).1.trans (o.host_eq hr)
  have hacts := acts_putRegistry (Heard.refl n) (by rw [hhost]; exact hacting) hserial
  intro s hs
  rw [hstep, hacts.own, Option.some_inj] at hs
  rw [hstep, ← hs, current_congr hacts.members_eq]
  cases hnew : Hint.new r.config.capacity r.config.recursions with
  | ok blank => exact (Registry.follows_update hnew _).congr_list fun _ => visit.mem_order.symm
  | error abort =>
    rw [(Loops.update_of_error _ hnew).1] at hjoined
    cases hjoined

/-- Nobody joins a registry that follows the members. -/
theorem Follows.joins_eq_zero (h : n.Follows serial) (a : Action) : n.joins a serial = 0 := by
  by_contra hne
  obtain ⟨host, visit, r, -, hacting, hr, -, hjoined⟩ := of_joins_pos (Nat.pos_of_ne_zero hne)
  have hfollows := (h r (getElem?_of_acting hacting hr)).congr_list fun _ => visit.mem_order
  rw [hfollows.joined_update] at hjoined
  cases hjoined

/-! ## Only finitely many hints are sent -/

variable {actions : ℕ → Action} {N : ℕ}

/-- Once steps are steady, hosts join a registry one more time at most. -/
theorem finite_joins (hsteady : ∀ k, N ≤ k → (actions k).steady = true) (serial : Nat) :
    {k | 0 < (after actions k).joins (actions k) serial}.Finite := by
  by_cases hlast : ∃ k, N ≤ k ∧ 0 < (after actions k).joins (actions k) serial
  · obtain ⟨first, hfirst, hjoins⟩ := hlast
    have hfollows (k : ℕ) (hk : first + 1 ≤ k) : (after actions k).Follows serial := by
      induction k, hk using Nat.le_induction with
      | base => exact (owned_after actions first).follows_of_joins hjoins
      | succ k hk ih =>
        exact ((owned_after actions k).step_steady (hsteady k (by omega))).2.2 serial ih
    refine (Set.finite_Iic first).subset fun k hk => ?_
    by_contra hlater
    rw [Set.mem_Iic] at hlater
    exact Nat.ne_of_gt hk ((hfollows k (by omega)).joins_eq_zero _)
  · refine (Set.finite_Iio N).subset fun k hk => ?_
    by_contra hlater
    rw [Set.mem_Iio] at hlater
    exact hlast ⟨k, by omega, hk⟩

/-- Once steps are steady, no hint is changed by a commit. -/
theorem finite_changes (hsteady : ∀ k, N ≤ k → (actions k).steady = true) (serial : Nat)
    (peer : UInt32) : {k | 0 < (after actions k).changes (actions k) serial peer}.Finite := by
  refine (Set.finite_Iio N).subset fun k hk => ?_
  by_contra hlater
  have hquiet := hsteady k (by rw [Set.mem_Iio] at hlater; omega)
  have hchanges : 0 < (after actions k).changes (actions k) serial peer := hk
  cases haction : actions k with
  | commit =>
    rw [haction] at hquiet
    cases hquiet
  | _ =>
    rw [haction] at hchanges
    cases hchanges

/-- Where the sums over the first steps are bounded, only finitely many steps count. -/
theorem finite_of_sum_le {f : ℕ → ℕ} {bound : ℕ}
    (h : ∀ m, ∑ k ∈ Finset.range m, f k ≤ bound) : {k | 0 < f k}.Finite := by
  by_contra hinfinite
  obtain ⟨t, ht, hcard⟩ := Set.Infinite.exists_subset_card_eq hinfinite (bound + 1)
  have hrange : t ⊆ Finset.range (t.sup id + 1) := fun k hk =>
    Finset.mem_range.2 (Nat.lt_succ_of_le (Finset.le_sup (f := id) hk))
  have hcount : bound + 1 ≤ ∑ k ∈ t, f k := by
    rw [← hcard, Finset.card_eq_sum_ones]
    exact Finset.sum_le_sum fun k hk => ht hk
  have hsum := (Finset.sum_le_sum_of_subset hrange).trans (h (t.sup id + 1))
  omega

/-- Once steps are steady, a registry sends the hint of a peer finitely often. -/
theorem finite_sends (hsteady : ∀ k, N ≤ k → (actions k).steady = true) (serial : Nat)
    (peer : UInt32) : {k | 0 < (after actions k).sends (actions k) serial peer}.Finite := by
  have hpaid : {k | 0 < (after actions k).changes (actions k) serial peer
      + (after actions k).joins (actions k) serial}.Finite := by
    refine ((finite_changes hsteady serial peer).union (finite_joins hsteady serial)).subset ?_
    exact fun k hk => Nat.add_pos_iff_pos_or_pos.1 hk
  have hbound (m : ℕ) : ∑ k ∈ Finset.range m, (after actions k).sends (actions k) serial peer
      ≤ ∑ k ∈ hpaid.toFinset, ((after actions k).changes (actions k) serial peer
        + (after actions k).joins (actions k) serial) := by
    refine (Nat.le_add_right _ _).trans ((sum_sends_add_owes actions serial peer m).trans ?_)
    refine Finset.sum_le_sum_of_ne_zero fun k _ hk => ?_
    rw [Set.Finite.mem_toFinset]
    exact Nat.pos_of_ne_zero hk
  exact finite_of_sum_le hbound

/-- A broadcast counts the hints that it delivers. -/
theorem sent_broadcast (n : Network) (host : Host) (sending : Arrangement Shipment) :
    (n.broadcast host sending).1.sent = (n.delivered host sending).length := by
  rw [broadcast, delivered]
  cases n.registry? host with
  | none => rfl
  | some r =>
    dsimp only
    rw [Registry.broadcast, Registry.ship_eq]

/-- A broadcast that delivers something delivers the hint of a peer for a registry. -/
theorem exists_sends_pos {sending : Arrangement Shipment}
    (h : 0 < (n.broadcast host sending).1.sent) :
    ∃ serial peer, n.acting[host]? = some serial ∧ (∃ r, n.registries[serial]? = some r) ∧
      0 < n.sends (.broadcast host sending) serial peer := by
  rw [sent_broadcast] at h
  obtain ⟨s, hs⟩ := List.exists_mem_of_length_pos h
  cases hr : n.registry? host with
  | none =>
    rw [delivered, hr] at hs
    cases hs
  | some r =>
    obtain ⟨serial, hacting, hserial⟩ := registry?_eq_some_iff.1 hr
    refine ⟨serial, s.peer, hacting, ⟨r, hserial⟩, ?_⟩
    rw [sends, if_pos hacting]
    exact List.count_pos_iff.2 (List.mem_map_of_mem hs)

instance : Finite UInt32 := .of_injective UInt32.toFin fun _ _ h => UInt32.toFin_inj.1 h

/-- However registries on a bus reconcile, record keys, broadcast and take events in: a
registry delivers the hint of a peer at most as often as commits of its own have changed
that hint and reconciliations of its own have let hosts join. And once nobody comes or
goes and nothing is recorded any more, only finitely many broadcasts deliver anything. -/
theorem traffic_is_paid_for (actions : ℕ → Action) :
    (∀ serial peer m, ∑ k ∈ Finset.range m, (after actions k).sends (actions k) serial peer
      ≤ ∑ k ∈ Finset.range m, (after actions k).changes (actions k) serial peer
        + ∑ k ∈ Finset.range m, (after actions k).joins (actions k) serial) ∧
    ∀ N, (∀ k, N ≤ k → (actions k).steady = true) →
      {k | ∃ host sending, actions k = .broadcast host sending ∧
        0 < ((after actions k).broadcast host sending).1.sent}.Finite := by
  refine ⟨fun serial peer m => ?_, fun N hsteady => ?_⟩
  · rw [← Finset.sum_add_distrib]
    exact (Nat.le_add_right _ _).trans (sum_sends_add_owes actions serial peer m)
  · -- from step `N` on there are no more registries than there were then
    have hsize (k : ℕ) (hk : N ≤ k) :
        (after actions k).registries.size = (after actions N).registries.size := by
      induction k, hk using Nat.le_induction with
      | base => rfl
      | succ k hk ih => exact ((owned_after actions k).step_steady (hsteady k hk)).2.1.trans ih
    have hfinite : (Set.Iio N ∪ ⋃ serial ∈ Set.Iio (after actions N).registries.size,
        ⋃ peer : UInt32, {k | 0 < (after actions k).sends (actions k) serial peer}).Finite :=
      (Set.finite_Iio N).union ((Set.finite_Iio _).biUnion fun serial _ =>
        Set.finite_iUnion fun peer => finite_sends hsteady serial peer)
    refine hfinite.subset ?_
    rintro k ⟨host, sending, haction, hsent⟩
    obtain ⟨serial, peer, -, ⟨r, hr⟩, hsends⟩ := exists_sends_pos hsent
    by_cases hk : k < N
    · exact Or.inl hk
    · have hserial : serial < (after actions N).registries.size := by
        rw [← hsize k (by omega)]
        by_contra hge
        rw [(owned_after actions k).fresh serial (by omega)] at hr
        cases hr
      rw [← haction] at hsends
      exact Or.inr (Set.mem_biUnion hserial (Set.mem_iUnion.2 ⟨peer, hsends⟩))

/-- Two members come to know each other, and one of them records a key. -/
def meeting : List Action :=
  [.join "a" .store, .join "b" .store, .opened "a" ⟨1, 64, 1⟩, .opened "b" ⟨1, 64, 1⟩,
    .start "a", .start "b", .update "a" .listed, .update "b" .reversed,
    .commit "a" "k" [Registry.digest "a"]]

/-- They meet, and then broadcast in turn for ever. -/
def echoing (k : ℕ) : Action :=
  meeting.getD k (.broadcast (if k % 2 = 1 then "a" else "b") .reversed)

/-- The hint is sent once, by the member that recorded the key, and never comes back. -/
theorem traffic_of_echoing :
    ((after echoing 9).broadcast "a").1.sent = 1 ∧
      ((after echoing 10).broadcast "b").1.sent = 0 ∧
      (∀ serial peer m, ∑ k ∈ Finset.range m, (after echoing k).sends (echoing k) serial peer
        ≤ ∑ k ∈ Finset.range m, (after echoing k).changes (echoing k) serial peer
          + ∑ k ∈ Finset.range m, (after echoing k).joins (echoing k) serial) ∧
      {k | ∃ host sending, echoing k = .broadcast host sending ∧
        0 < ((after echoing k).broadcast host sending).1.sent}.Finite := by
  have hsteady (k : ℕ) (hk : 9 ≤ k) : (echoing k).steady = true := by
    rw [echoing, List.getD_eq_getElem?_getD, List.getElem?_eq_none hk]
    rfl
  obtain ⟨hpaid, hfinite⟩ := traffic_is_paid_for echoing
  exact ⟨by decide +kernel, by decide +kernel, hpaid, hfinite 9 hsteady⟩

end QuorumStore.Network
