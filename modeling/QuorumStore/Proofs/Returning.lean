import QuorumStore.Proofs.Following
import QuorumStore.Proofs.Posting
import QuorumStore.Proofs.Shipping

/-!
# Peers that come back

A member shares its hints with the peers that are alive. A peer that cannot be reached
counts as dead, and the hints that it misses count as shared once a later broadcast has
reached all others. When it is heard of again it has to be sent what it missed, and the
registry does so when a reconciliation sees a host join. So a peer misses nothing as long
as, whenever it comes back with something missing, the next reconciliation lets it in,
whatever becomes of the other peers. A peer that comes back before a reconciliation has
dropped it is not let in: it misses what was shared meanwhile, although nothing is due.
-/

namespace QuorumStore

/-- A member with its registry, and what peers have acknowledged. -/
structure Station where
  /-- What the member knows of the others. -/
  directory : Directory
  /-- Its registry. -/
  registry : Registry
  /-- The gossip posts that peers have acknowledged. -/
  receipts : Directory.Receipts
  /-- The bits that commits have added to hints that are still there. -/
  added : UInt32 → Nat → Bool

/-- What happens to a member. -/
inductive Happening where
  /-- A peer announces itself. -/
  | announced (url : Host) (role : Role)
  /-- A peer answers an announcement of the member. -/
  | answered (url : Host) (answer : Except Fault Wire.Acknowledgement)
  /-- Peers are recorded as holding a key. -/
  | commit (key : Key) (peers : List UInt32)
  /-- A hint arrives. -/
  | receive (e : HintEvent)
  /-- The registry follows the directory, whose hosts are visited in any order. -/
  | update (visit : Arrangement Host)
  /-- The registry sends every hint that is due, in any order; peers answer posts as told. -/
  | broadcast (sending : Arrangement Shipment) (answer : HintEvent → Host → Except Fault Unit)

/-- The peer that a happening has heard from, and the role that it told. -/
def Happening.told : Happening → Option (Host × Role)
  | .announced url role => some (url, role)
  | .answered url (.ok ack) => some (url, ack.role)
  | _ => none

namespace Station

variable {config : ClusterParams} {m m' : Station} {url : Host} {role : Role} {a : Happening}

/-- A member that was just started. -/
def start (self : Host) (role : Role) (seeds : List Host) (r : Registry) : Station :=
  ⟨.new self role seeds, r, [], fun _ _ => false⟩

/-- A dispatch as the registry sees it. -/
def dispatch (answer : HintEvent → Host → Except Fault Unit) (e : HintEvent)
    (world : Directory × Directory.Receipts) :
    Except Fault Unit × Directory × Directory.Receipts :=
  let (failures, directory, receipts) := world.1.dispatch (Directory.post answer e) world.2
  (if failures.isEmpty then .ok () else .error (Directory.unreached failures),
    directory, receipts)

/-- The member after something has happened. -/
def step (m : Station) : Happening → Station
  | .announced url role => { m with directory := (m.directory.discover url role).1 }
  | .answered url answer => { m with directory := m.directory.heard url answer }
  | .commit key peers =>
    let r := (m.registry.commit key peers).1
    { m with
      registry := r
      added := fun peer i =>
        m.added peer i || (r.hintBit peer i && !m.registry.hintBit peer i) }
  | .receive e => { m with registry := m.registry.receive e }
  | .update visit =>
    let r := (m.registry.update (visit.order (m.directory.current .store))).2
    { m with
      registry := r
      added := fun peer i => m.added peer i && r.hintBit peer i }
  | .broadcast sending answer =>
    let (_, r, directory, receipts) :=
      m.registry.broadcast (dispatch answer) sending (m.directory, m.receipts)
    { m with directory := directory, registry := r, receipts := receipts }

/-- A peer has acknowledged a bit of a hint. -/
def Acknowledged (m : Station) (url : Host) (peer : UInt32) (i : Nat) : Prop :=
  ∃ e, (url, e) ∈ m.receipts ∧ e.peer = peer ∧ e.bit i = true

/-- When nothing is due, a peer that is alive has acknowledged all that commits added. -/
def Served (m : Station) (url : Host) : Prop :=
  (∀ peer, m.registry.pending peer = false) → url ∈ m.directory.live →
    ∀ peer i, m.added peer i = true → m.Acknowledged url peer i

/-- A peer has acknowledged all that commits added to hints that are not due. -/
def CaughtUp (m : Station) (url : Host) : Prop :=
  ∀ (peer : UInt32) (p : Peer), m.registry.peers[peer]? = some p → p.due = false →
    ∀ i, m.added peer i = true → m.Acknowledged url peer i

/-- If the peer is heard from, it has missed nothing, or it is a host that would join the
ring. -/
def Noticed (m : Station) (url : Host) (a : Happening) : Prop :=
  ∀ role, a.told = some (url, role) → url ∈ (m.step a).directory.live →
    m.CaughtUp url ∨ (role = .store ∧ m.registry.accepts url = true)

/-- The members that are reached as long as a peer does not come back unnoticed. -/
inductive Reached (config : ClusterParams) (url : Host) : Station → Prop
  /-- A member is started. -/
  | start {self : Host} {r : Registry} (role : Role) (seeds : List Host)
      (made : Registry.new config self = .ok r) : Reached config url (start self role seeds r)
  /-- Something happens. -/
  | step {m : Station} (a : Happening) (before : Reached config url m)
      (noticed : m.Noticed url a) : Reached config url (m.step a)

/-! ## Broadcasts -/

/-- A dispatch wakes nobody and loses no receipt, and where it succeeds there is one of
everybody who was alive. -/
theorem dispatch_spec (answer : HintEvent → Host → Except Fault Unit) (e : HintEvent)
    (d : Directory) (receipts : Directory.Receipts) :
    Directory.Dimmed d (dispatch answer e (d, receipts)).2.1 ∧
      (∀ receipt ∈ receipts, receipt ∈ (dispatch answer e (d, receipts)).2.2) ∧
      ((dispatch answer e (d, receipts)).1 = .ok () →
        ∀ url ∈ d.live, (url, e) ∈ (dispatch answer e (d, receipts)).2.2) := by
  obtain ⟨hkept, hall⟩ := Directory.receipts_postAll answer e d.live d receipts
  refine ⟨Directory.dimmed_postAll _ d.live d receipts, hkept, fun hok => hall ?_⟩
  have hresult : (dispatch answer e (d, receipts)).1
      = if (Directory.postAll (Directory.post answer e) d.live d receipts).1.isEmpty then .ok ()
        else .error (Directory.unreached
          (Directory.postAll (Directory.post answer e) d.live d receipts).1) := rfl
  rw [hresult] at hok
  split_ifs at hok with hnone
  exact List.isEmpty_iff.1 hnone

/-- A broadcast wakes nobody and loses no receipt, and whoever is alive after it has
acknowledged all that it delivered. -/
theorem ship_spec (answer : HintEvent → Host → Except Fault Unit) (shipments : List Shipment)
    (r : Registry) (d : Directory) (receipts : Directory.Receipts) :
    let after := Registry.worldAfter (dispatch answer) (shipments.map r.event) (d, receipts)
    Directory.Dimmed d after.1 ∧ (∀ receipt ∈ receipts, receipt ∈ after.2) ∧
      ∀ s ∈ Registry.delivered (dispatch answer) shipments r (d, receipts),
        ∀ url ∈ after.1.live, (url, r.event s) ∈ after.2 := by
  induction shipments generalizing d receipts with
  | nil => exact ⟨Directory.Dimmed.refl d, fun _ hm => hm, fun s hs => by cases hs⟩
  | cons first rest ih =>
    obtain ⟨hdimmed, hkept, hall⟩ := dispatch_spec answer (r.event first) d receipts
    rw [List.map_cons, Registry.worldAfter, List.foldl_cons]
    rcases hsent : dispatch answer (r.event first) (d, receipts) with ⟨outcome, d', receipts'⟩
    rw [hsent] at hdimmed hkept hall
    obtain ⟨hdimmed', hkept', hlater⟩ := ih d' receipts'
    refine ⟨hdimmed.trans hdimmed', fun _ hm => hkept' _ (hkept _ hm), fun s hs url hlive => ?_⟩
    rw [Registry.delivered_cons hsent] at hs
    cases outcome with
    | error fault => exact hlater s hs url hlive
    | ok _ =>
      rcases List.mem_cons.1 hs with rfl | hs
      · exact hkept' _ (hall rfl url (hdimmed.mem_live (hdimmed'.mem_live hlive)))
      · exact hlater s hs url hlive

/-! ## What is kept -/

/-- A peer that the next reconciliation lets in: it told that it holds data, and neither it
nor its digest is on the ring. -/
def Awaited (m : Station) (url : Host) : Prop :=
  (∀ p, m.directory.peers[url]? = some p → p.role = some .store) ∧ m.registry.accepts url = true

/-- What holds as long as a peer does not come back unnoticed. -/
structure Tended (url : Host) (m : Station) : Prop where
  /-- No hint is shared beyond its clock. -/
  shared_le : ∀ (peer : UInt32) (p : Peer), m.registry.peers[peer]? = some p →
    p.shared ≤ p.clock
  /-- There are hints only where the parameters allow for them. -/
  stocked : ∀ peer, m.registry.knows peer = true →
    ∃ blank, Hint.new m.registry.config.capacity m.registry.config.recursions = .ok blank
  /-- What commits added is held, and has moved the clock. -/
  held : ∀ peer i, m.added peer i = true →
    ∃ p, m.registry.peers[peer]? = some p ∧ Hint.bit p.hint.words i = true ∧ 0 < p.clock
  /-- While it is alive it has missed nothing, or the next reconciliation lets it in. -/
  told : url ∈ m.directory.live → m.CaughtUp url ∨ m.Awaited url

/-- A peer is caught up after a step that loses no receipt if each hint that is not due
was not due before, with the same bits, or was acknowledged. -/
theorem CaughtUp.of_entries (h : m.CaughtUp url)
    (hreceipts : ∀ receipt ∈ m.receipts, receipt ∈ m'.receipts)
    (hentry : ∀ (peer : UInt32) (q : Peer), m'.registry.peers[peer]? = some q → q.due = false →
      ∀ i, m'.added peer i = true → m'.Acknowledged url peer i ∨
        ∃ p, m.registry.peers[peer]? = some p ∧ p.due = false ∧ m.added peer i = true) :
    m'.CaughtUp url := by
  intro peer q hq hdue i hadded
  rcases hentry peer q hq hdue i hadded with hack | ⟨p, hp, hdue', hadded'⟩
  · exact hack
  · obtain ⟨e, hm, hpeer, hbit⟩ := h peer p hp hdue' i hadded'
    exact ⟨e, hreceipts _ hm, hpeer, hbit⟩

/-- What is held stays so while every peer stays, with its bits and a clock that only moves on. -/
theorem Tended.held_of_entries (h : m.Tended url) {r : Registry}
    (hknows : ∀ peer, r.knows peer = m.registry.knows peer)
    (hentry : ∀ (peer : UInt32) (q : Peer), r.peers[peer]? = some q →
      ∃ p, m.registry.peers[peer]? = some p ∧ p.clock ≤ q.clock ∧
        ∀ i, Hint.bit p.hint.words i = true → Hint.bit q.hint.words i = true)
    {peer : UInt32} {i : Nat} (hadded : m.added peer i = true) :
    ∃ q, r.peers[peer]? = some q ∧ Hint.bit q.hint.words i = true ∧ 0 < q.clock := by
  obtain ⟨p, hp, hbit, hclock⟩ := h.held peer i hadded
  have hknown : r.knows peer = true := by
    rw [hknows, Registry.knows, hp]
    rfl
  obtain ⟨q, hq⟩ := Option.isSome_iff_exists.1 hknown
  obtain ⟨p', hp', hle, hbits⟩ := hentry peer q hq
  rw [hp] at hp'
  cases hp'
  exact ⟨q, hq, hbits i hbit, Nat.lt_of_lt_of_le hclock hle⟩

/-- Where nobody is woken, a peer that is alive goes on to be caught up or awaited. -/
theorem Tended.told_of_dimmed (h : m.Tended url)
    (hdimmed : Directory.Dimmed m.directory m'.directory)
    (haccepts : m'.registry.accepts url = m.registry.accepts url)
    (hcaught : url ∈ m'.directory.live → m.CaughtUp url → m'.CaughtUp url)
    (hlive : url ∈ m'.directory.live) : m'.CaughtUp url ∨ m'.Awaited url := by
  refine (h.told (hdimmed.mem_live hlive)).imp (hcaught hlive) fun hawaited => ?_
  refine ⟨fun p' hp' => ?_, haccepts.trans hawaited.2⟩
  obtain ⟨p, hp, hrole, -⟩ := hdimmed url p' hp'
  exact hrole.trans (hawaited.1 p hp)

theorem tended_start {self : Host} {r : Registry} (role : Role) (seeds : List Host)
    (made : Registry.new config self = .ok r) : (start self role seeds r).Tended url := by
  have hpeers (peer : UInt32) : (start self role seeds r).registry.peers[peer]? = none := by
    unfold Registry.new at made
    split_ifs at made
    cases made
    exact Std.TreeMap.getElem?_emptyc
  refine ⟨fun peer p hp => ?_, fun peer hknows => ?_, fun peer i hadded => ?_,
    fun _ => Or.inl fun peer p hp => ?_⟩
  · rw [hpeers] at hp
    cases hp
  · rw [Registry.knows, hpeers] at hknows
    cases hknows
  · cases hadded
  · rw [hpeers] at hp
    cases hp

/-- A commit makes the hints due that it changes. -/
theorem Tended.commit (h : m.Tended url) (key : Key) (peers : List UInt32) :
    (m.step (.commit key peers)).Tended url := by
  obtain ⟨-, hconfig, hring, hknows⟩ := Registry.commit_frame m.registry key peers
  have hstep : (m.step (.commit key peers)).registry = (m.registry.commit key peers).1 := rfl
  have hentry (peer : UInt32) (q : Peer)
      (hq : (m.registry.commit key peers).1.peers[peer]? = some q) :=
    Loops.entry_commit m.registry key peers hq
  refine ⟨fun peer q hq => ?_, fun peer hknown => ?_, fun peer i hadded => ?_, ?_⟩
  · obtain ⟨p, hp, rfl | ⟨hclock, hshared, -⟩⟩ := hentry peer q hq
    · exact h.shared_le peer q hp
    · have hle := h.shared_le peer p hp
      omega
  · rw [hstep, hknows] at hknown
    rw [hstep, hconfig]
    exact h.stocked peer hknown
  · rcases Bool.or_eq_true_iff.1 hadded with hold | hnew
    · refine h.held_of_entries hknows (fun peer q hq => ?_) hold
      obtain ⟨p, hp, rfl | ⟨hclock, -, hbits⟩⟩ := hentry peer q hq
      · exact ⟨q, hp, Nat.le_refl _, fun _ hb => hb⟩
      · exact ⟨p, hp, Nat.le_of_lt hclock, hbits⟩
    · rw [Bool.and_eq_true, Bool.not_eq_true'] at hnew
      obtain ⟨q, hq, hbit⟩ := (Option.any_eq_true _ _).1 hnew.1
      obtain ⟨p, hp, rfl | ⟨hclock, -, -⟩⟩ := hentry peer q hq
      · have hclear := hnew.2
        rw [Registry.hintBit, hp, Option.any_some, hbit] at hclear
        cases hclear
      · exact ⟨q, hq, hbit, Nat.zero_lt_of_lt hclock⟩
  · refine h.told_of_dimmed (Directory.Dimmed.refl _) (Registry.accepts_congr hring hknows)
      fun _ hcaught => ?_
    refine hcaught.of_entries (fun _ hm => hm) fun peer q hq hdue i hadded => Or.inr ?_
    obtain ⟨p, hp, rfl | ⟨hclock, hshared, -⟩⟩ := hentry peer q hq
    · rw [hstep] at hq
      refine ⟨q, hp, hdue, ?_⟩
      simp only [step, Registry.hintBit, hq, hp] at hadded
      simpa using hadded
    · have hle := h.shared_le peer p hp
      have hnot : ¬ q.shared < q.clock := of_decide_eq_false hdue
      omega

/-- A hint that arrives makes none due, and commits have added nothing by it. -/
theorem Tended.receive (h : m.Tended url) (e : HintEvent) : (m.step (.receive e)).Tended url := by
  have hstep : (m.step (.receive e)).registry = m.registry.receive e := rfl
  have hentry (peer : UInt32) (q : Peer) (hq : (m.registry.receive e).peers[peer]? = some q) :=
    Loops.entry_receive m.registry e hq
  refine ⟨fun peer q hq => ?_, fun peer hknown => ?_, fun peer i hadded => ?_, ?_⟩
  · obtain ⟨p, hp, rfl | ⟨-, -, hle, -⟩⟩ := hentry peer q hq
    · exact h.shared_le peer q hp
    · exact hle (h.shared_le peer p hp)
  · rw [hstep, Registry.knows_receive] at hknown
    rw [hstep, Registry.config_receive]
    exact h.stocked peer hknown
  · refine h.held_of_entries (Registry.knows_receive m.registry e) (fun peer q hq => ?_) hadded
    obtain ⟨p, hp, rfl | ⟨hclock, -, -, hbits⟩⟩ := hentry peer q hq
    · exact ⟨q, hp, Nat.le_refl _, fun _ hb => hb⟩
    · exact ⟨p, hp, Nat.le_of_lt hclock, hbits⟩
  · refine h.told_of_dimmed (Directory.Dimmed.refl _)
      (Registry.accepts_congr (Registry.ring_receive m.registry e)
        (Registry.knows_receive m.registry e)) fun _ hcaught => ?_
    refine hcaught.of_entries (fun _ hm => hm) fun peer q hq hdue i hadded => Or.inr ?_
    obtain ⟨p, hp, rfl | ⟨-, hback, -, -⟩⟩ := hentry peer q hq
    · exact ⟨q, hp, hdue, hadded⟩
    · exact ⟨p, hp, hback hdue, hadded⟩

/-- A hint that was sent carries the bits that it had. -/
theorem bit_event {r : Registry} {s : Shipment} (hs : s ∈ r.shipments) {p : Peer}
    (hp : r.peers[s.peer]? = some p) (i : Nat) :
    (r.event s).bit i = Hint.bit p.hint.words i := by
  obtain ⟨p', hp', -, -, hpayload⟩ := Registry.mem_shipments.1 hs
  rw [hp] at hp'
  cases hp'
  rw [HintEvent.bit, Registry.event, hpayload, Hint.ofBytes_toBytes]

/-- A hint that a broadcast makes cease to be due was acknowledged by whoever is alive. -/
theorem Tended.broadcast (h : m.Tended url) (sending : Arrangement Shipment)
    (answer : HintEvent → Host → Except Fault Unit) :
    (m.step (.broadcast sending answer)).Tended url := by
  let world := (m.directory, m.receipts)
  let shipments := sending.order m.registry.shipments
  let sent := Registry.delivered (dispatch answer) shipments m.registry world
  obtain ⟨-, hring, hconfig, hknows⟩ :=
    Registry.broadcast_frame (dispatch answer) sending m.registry world
  have hworld : Registry.worldAfter (dispatch answer) (shipments.map m.registry.event) world
      = ((m.step (.broadcast sending answer)).directory,
        (m.step (.broadcast sending answer)).receipts) := by
    rw [step, Registry.broadcast, Registry.ship_eq]
  have hspec := ship_spec answer shipments m.registry m.directory m.receipts
  rw [hworld] at hspec
  obtain ⟨hdimmed, hkept, hdelivered⟩ := hspec
  have hstep : (m.step (.broadcast sending answer)).registry
      = (m.registry.broadcast (dispatch answer) sending world).2.1 := rfl
  have hentry (peer : UInt32) (q : Peer)
      (hq : (m.step (.broadcast sending answer)).registry.peers[peer]? = some q) :
      ∃ p, m.registry.peers[peer]? = some p ∧ q = p.sentAt (Registry.latest sent peer) := by
    rw [hstep, Registry.broadcast, Registry.ship_eq, Registry.getElem?_foldl_markSent] at hq
    obtain ⟨p, hp, rfl⟩ := Option.map_eq_some_iff.1 hq
    exact ⟨p, hp, rfl⟩
  have hsent (s : Shipment) (hs : s ∈ sent) : s ∈ m.registry.shipments :=
    sending.mem_order.1
      ((Registry.delivered_sublist (dispatch answer) shipments m.registry world).subset hs)
  refine ⟨fun peer q hq => ?_, fun peer hknown => ?_, fun peer i hadded => ?_, ?_⟩
  · obtain ⟨p, hp, rfl⟩ := hentry peer q hq
    refine Nat.max_le.2 ⟨h.shared_le peer p hp, Registry.latest_le fun s hs he => ?_⟩
    obtain ⟨p', hp', -, hclock, -⟩ := Registry.mem_shipments.1 (hsent s hs)
    rw [he, hp] at hp'
    cases hp'
    exact Nat.le_of_eq hclock
  · rw [hstep, hknows] at hknown
    rw [hstep, hconfig]
    exact h.stocked peer hknown
  · refine h.held_of_entries hknows (fun peer q hq => ?_) hadded
    obtain ⟨p, hp, rfl⟩ := hentry peer q hq
    exact ⟨p, hp, Nat.le_refl _, fun _ hb => hb⟩
  · refine h.told_of_dimmed hdimmed (Registry.accepts_congr hring hknows)
      fun hlive hcaught => hcaught.of_entries hkept fun peer q hq hdue i hadded => ?_
    obtain ⟨p, hp, rfl⟩ := hentry peer q hq
    rw [Peer.due_sentAt, Bool.and_eq_false_iff] at hdue
    rcases hdue with hbefore | hclock
    · exact Or.inr ⟨p, hp, hbefore, hadded⟩
    · -- the hint was delivered at its clock, with all that commits have added
      obtain ⟨p', hp', hbit, hpos⟩ := h.held peer i hadded
      rw [hp] at hp'
      cases hp'
      have hlatest : p.clock ≤ Registry.latest sent peer :=
        Nat.not_lt.1 (of_decide_eq_false hclock)
      obtain ⟨s, hs, rfl⟩ := Registry.exists_of_latest_pos (Nat.lt_of_lt_of_le hpos hlatest)
      refine Or.inl ⟨m.registry.event s, hdelivered s hs url hlive, rfl, ?_⟩
      rw [bit_event (hsent s hs) hp]
      exact hbit

/-- If it is alive and awaited, the next reconciliation lets it in, or somebody in its place. -/
theorem Tended.joined_of_awaited (h : m.Tended url) (hlive : url ∈ m.directory.live)
    (hawaited : m.Awaited url) {peer : UInt32} {p : Peer} (hp : m.registry.peers[peer]? = some p)
    (visit : Arrangement Host) :
    0 < Loops.joined (m.registry.update (visit.order (m.directory.current .store))).1 := by
  obtain ⟨status, hstatus, halive⟩ := Directory.mem_live.1 hlive
  have hlisted : url ∈ visit.order (m.directory.current .store) :=
    visit.mem_order.2 (Directory.mem_current hstatus halive (hawaited.1 status hstatus))
  obtain ⟨blank, hnew⟩ := h.stocked peer (Registry.knows_of_peer hp)
  rw [(Loops.update_of_ok _ hnew).1]
  refine Nat.pos_of_ne_zero fun hnobody => ?_
  have hrefused := Registry.enrolAll_eq_zero_iff.1 hnobody url hlisted
  rw [Registry.accepts_dropMissing hawaited.2] at hrefused
  cases hrefused

/-- After a reconciliation a peer that is alive is caught up: where it was not, it was let in,
and every hint is due. -/
theorem Tended.update (h : m.Tended url) (visit : Arrangement Host) :
    (m.step (.update visit)).Tended url ∧
      (url ∈ m.directory.live → (m.step (.update visit)).CaughtUp url) := by
  let listed := visit.order (m.directory.current .store)
  have hstep : (m.step (.update visit)).registry = (m.registry.update listed).2 := rfl
  have hentry (peer : UInt32) (q : Peer)
      (hq : (m.step (.update visit)).registry.peers[peer]? = some q) :=
    Loops.entry_update m.registry listed hq
  -- a bit that counts as added is there, so the peer is not a new one
  have hold (peer : UInt32) (i : Nat) (hadded : (m.step (.update visit)).added peer i = true) :
      ∃ p q, m.registry.peers[peer]? = some p ∧ m.added peer i = true ∧ 0 < p.clock ∧
        (m.step (.update visit)).registry.peers[peer]? = some q ∧ Hint.bit q.hint.words i = true ∧
        q.clock = p.clock ∧
        q.shared = if 0 < Loops.joined (m.registry.update listed).1 then 0 else p.shared := by
    rw [step, Bool.and_eq_true] at hadded
    obtain ⟨q, hq, hbit⟩ := (Option.any_eq_true _ _).1 hadded.2
    rcases hentry peer q hq with hblank | ⟨p, hp, -, hclock, hshared⟩
    · rw [hblank.2.2] at hbit
      cases hbit
    · obtain ⟨p', hp', -, hpos⟩ := h.held peer i hadded.1
      rw [hp] at hp'
      cases hp'
      exact ⟨p, q, hp, hadded.1, hpos, hq, hbit, hclock, hshared⟩
  have hcaught (hlive : url ∈ m.directory.live) : (m.step (.update visit)).CaughtUp url := by
    intro peer q' hq' hdue i hadded
    obtain ⟨p, q, hp, hadded', hpos, hq, -, hclock, hshared⟩ := hold peer i hadded
    rw [hq, Option.some_inj] at hq'
    subst hq'
    have hnot : ¬ q.shared < q.clock := of_decide_eq_false hdue
    split_ifs at hshared with hjoined
    · omega
    · rcases h.told hlive with hcaught | hawaited
      · exact hcaught peer p hp (decide_eq_false (by omega)) i hadded'
      · exact absurd (h.joined_of_awaited hlive hawaited hp visit) hjoined
  refine ⟨⟨fun peer q hq => ?_, fun peer hknown => ?_, fun peer i hadded => ?_,
    fun hlive => Or.inl (hcaught hlive)⟩, hcaught⟩
  · rcases hentry peer q hq with hblank | ⟨p, hp, -, hclock, hshared⟩
    · exact Nat.le_of_eq (hblank.2.1.trans hblank.1.symm)
    · have hle := h.shared_le peer p hp
      rw [hclock, hshared]
      split_ifs
      · exact Nat.zero_le _
      · exact hle
  · rw [hstep, (Registry.update_frame m.registry listed).2]
    cases hnew : Hint.new m.registry.config.capacity m.registry.config.recursions with
    | ok blank => exact ⟨blank, rfl⟩
    | error abort =>
      obtain ⟨q, hq⟩ := Option.isSome_iff_exists.1 hknown
      rw [hstep, (Loops.update_of_error listed hnew).2] at hq
      obtain ⟨blank, hblank⟩ :=
        h.stocked peer (Registry.knows_of_peer (Loops.entry_dropMissing m.registry listed hq))
      rw [hnew] at hblank
      cases hblank
  · obtain ⟨p, q, -, -, hpos, hq, hbit, hclock, -⟩ := hold peer i hadded
    exact ⟨q, hq, hbit, hclock ▸ hpos⟩

/-- Another directory, in which some peer has been heard from. -/
theorem Tended.woken (h : m.Tended url) {d : Directory} {other : Host}
    (hothers : ∀ url, url ≠ other → d.peers[url]? = m.directory.peers[url]?)
    (hrole : ∀ p, d.peers[other]? = some p → p.role = some role)
    (noticed : url = other → url ∈ d.live →
      m.CaughtUp url ∨ (role = .store ∧ m.registry.accepts url = true)) :
    Tended url { m with directory := d } := by
  refine ⟨h.shared_le, h.stocked, h.held, fun hlive => ?_⟩
  by_cases he : url = other
  · refine (noticed he hlive).imp id fun ⟨hstore, haccepts⟩ => ⟨fun p hp => ?_, haccepts⟩
    rw [hrole p (he ▸ hp), hstore]
  · have hsame := hothers url he
    have hlive' : url ∈ m.directory.live := by
      rw [Directory.mem_live] at hlive ⊢
      rw [← hsame]
      exact hlive
    refine (h.told hlive').imp id fun ⟨hstore, haccepts⟩ => ⟨fun p hp => ?_, haccepts⟩
    exact hstore p (hsame ▸ hp)

/-- As long as the peer does not come back unnoticed, whatever happens keeps this. -/
theorem Tended.step (h : m.Tended url) (a : Happening) (noticed : m.Noticed url a) :
    (m.step a).Tended url := by
  cases a with
  | announced other role =>
    have hstep : m.step (.announced other role)
        = { m with directory := (m.directory.discover other role).1 } := rfl
    by_cases hself : other = m.directory.self
    · rw [hstep, Directory.discover, if_pos hself]
      exact h
    · have hget (url : Host) : (m.directory.discover other role).1.peers[url]?
          = if other = url then some ⟨some role, true⟩ else m.directory.peers[url]? := by
        rw [Directory.discover, if_neg hself]
        dsimp only
        rw [Std.TreeMap.getElem?_insert]
        simp only [Std.LawfulEqCmp.compare_eq_iff_eq]
      refine h.woken (fun url hne => ?_) (fun p hp => ?_) fun he => noticed role (he ▸ rfl)
      · rw [hget, if_neg (Ne.symm hne)]
      · rw [hget, if_pos rfl, Option.some_inj] at hp
        rw [← hp]
  | answered other answer =>
    cases answer with
    | ok ack =>
      have hget (url : Host) :=
        Directory.getElem?_mark m.directory other url true (some ack.role)
      refine h.woken (fun url hne => ?_) (fun p hp => ?_) fun he => noticed ack.role (he ▸ rfl)
      · exact (hget url).trans (if_neg (Ne.symm hne))
      · rw [Directory.heard, hget, if_pos rfl] at hp
        obtain ⟨_, -, rfl⟩ := Option.map_eq_some_iff.1 hp
        rfl
    | error fault =>
      have hdimmed : Directory.Dimmed m.directory
          (m.step (.answered other (.error fault))).directory :=
        Directory.dimmed_mark m.directory other
      exact ⟨h.shared_le, h.stocked, h.held,
        h.told_of_dimmed hdimmed rfl fun _ hcaught => hcaught⟩
  | commit key peers => exact h.commit key peers
  | receive e => exact h.receive e
  | update visit => exact (h.update visit).1
  | broadcast sending answer => exact h.broadcast sending answer

theorem Reached.tended (h : Reached config url m) : m.Tended url := by
  induction h with
  | start role seeds made => exact tended_start role seeds made
  | step a _ noticed ih => exact ih.step a noticed

/-- A peer that does not come back unnoticed, whatever becomes of the others: right after a
reconciliation, if nothing is due and the peer is alive, it has acknowledged all that
commits added to the hints on the ring. -/
theorem Reached.served_of_update (h : Reached config url m) (visit : Arrangement Host) :
    (m.step (.update visit)).Served url := by
  intro quiet hlive peer i hadded
  obtain ⟨htended, hcaught⟩ := h.tended.update visit
  obtain ⟨p, hp, -, -⟩ := htended.held peer i hadded
  have hdue : p.due = false := by
    have hpending := quiet peer
    rw [Registry.pending, hp] at hpending
    exact hpending
  exact hcaught hlive peer p hp hdue i hadded

/-- What hears from nobody wakes nobody. -/
theorem noticed_of_untold (h : a.told = none) : m.Noticed url a := by
  intro role htold
  rw [h] at htold
  cases htold

/-- A host that would join may be heard from. -/
theorem noticed_of_accepts (haccepts : m.registry.accepts url = true) :
    m.Noticed url (.announced url .store) := by
  intro role htold _
  cases htold
  exact Or.inr ⟨rfl, haccepts⟩

/-- No peer can be reached. -/
def unreachable (_ : HintEvent) (_ : Host) : Except Fault Unit := .error (.network "refused")

/-- Every peer acknowledges what is posted. -/
def reachable (_ : HintEvent) (_ : Host) : Except Fault Unit := .ok ()

/-- A peer is let in and cannot be reached when a key is shared, nor when it is shared again. -/
def missing : List Happening :=
  [.announced "b" .store, .update .listed, .commit "k" [Registry.digest "a"],
    .broadcast .listed unreachable, .broadcast .reversed unreachable]

/-- The peer is dropped, and then it comes back and is let in and sent what it missed. -/
def noticed : List Happening :=
  missing ++
    [.update .listed, .announced "b" .store, .update .reversed, .broadcast .listed reachable]

/-- The peer comes back before it was dropped. -/
def unnoticed : List Happening := missing ++ [.announced "b" .store]

theorem served_of_noticed :
    let m := noticed.foldl step (start "a" .store [] Loops.lone)
    (m.step (.update .reversed)).registry.shipments = [] ∧
      (m.step (.update .reversed)).directory.live = ["b"] ∧
      ((List.range 64).any ((m.step (.update .reversed)).added (Registry.digest "a"))) = true ∧
      Reached ⟨1, 64, 1⟩ "b" m ∧ (m.step (.update .reversed)).Served "b" := by
  have hmade : Registry.new ⟨1, 64, 1⟩ "a" = .ok Loops.lone := rfl
  have started : Reached ⟨1, 64, 1⟩ "b" (start "a" .store [] Loops.lone) :=
    .start .store [] hmade
  have joined := (started.step (.announced "b" .store)
    (noticed_of_accepts (by decide +kernel))).step (.update .listed) (noticed_of_untold rfl)
  have shared := ((joined.step (.commit "k" [Registry.digest "a"]) (noticed_of_untold rfl)).step
    (.broadcast .listed unreachable) (noticed_of_untold rfl)).step
    (.broadcast .reversed unreachable) (noticed_of_untold rfl)
  have back := (shared.step (.update .listed) (noticed_of_untold rfl)).step (.announced "b" .store)
    (noticed_of_accepts (by decide +kernel))
  have reached : Reached ⟨1, 64, 1⟩ "b" (noticed.foldl step (start "a" .store [] Loops.lone)) :=
    (back.step (.update .reversed) (noticed_of_untold rfl)).step
      (.broadcast .listed reachable) (noticed_of_untold rfl)
  exact ⟨by decide +kernel, by decide +kernel, by decide +kernel, reached,
    reached.served_of_update .reversed⟩

/-- The peer that came back too early has missed the key, although nothing is due. -/
theorem unnoticed_misses :
    ¬ ((unnoticed.foldl step (start "a" .store [] Loops.lone)).step
      (.update .listed)).Served "b" := by
  intro served
  have hquiet : ((unnoticed.foldl step (start "a" .store [] Loops.lone)).step
      (.update .listed)).registry.shipments = [] := by decide +kernel
  have hlive : "b" ∈ ((unnoticed.foldl step (start "a" .store [] Loops.lone)).step
      (.update .listed)).directory.live := by decide +kernel
  have hadded : (List.range 64).any (((unnoticed.foldl step (start "a" .store [] Loops.lone)).step
      (.update .listed)).added (Registry.digest "a")) = true := by decide +kernel
  have hnone : ((unnoticed.foldl step (start "a" .store [] Loops.lone)).step
      (.update .listed)).receipts = [] := by decide +kernel
  obtain ⟨i, -, hi⟩ := List.any_eq_true.1 hadded
  obtain ⟨e, he, -⟩ := served (Registry.pending_of_no_shipments hquiet) hlive _ i hi
  rw [hnone] at he
  cases he

end Station

end QuorumStore
