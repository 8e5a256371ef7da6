import QuorumStore.Proofs.HintFlow

/-!
# Two loops on one registry

One loop of a member reconciles its registry with the membership, another one
broadcasts. Both let go of the registry between their atomic parts: a broadcast
after it took down what is due, and again between sending a hint and marking it
sent; a reconciliation between reading the membership and following it. Commits and
hints from other members fall in between.

No update of a hint is lost as long as no host joins between the sending of a hint
and its mark, and no peer comes back with a new hint while an old one of it is still
to be marked. Where either happens, the mark hides an update that nobody received.
-/

namespace QuorumStore

/-- Whether the hint that a shipment carries has a bit set. -/
def Shipment.bit (s : Shipment) (i : Nat) : Bool :=
  match Hint.ofBytes s.payload with
  | .ok hint => Hint.bit hint.words i
  | .error _ => false

/-- A registry with what its loops have in hand, and two records of the past. -/
structure Loops where
  /-- The registry. -/
  registry : Registry
  /-- What the broadcast under way has yet to send. -/
  queue : List Shipment
  /-- What it has sent but not yet marked. -/
  sent : Option Shipment
  /-- The membership that the reconciliation under way has read. -/
  listed : Option (List Host)
  /-- What was sent since a reconciliation last let a host join. -/
  delivered : List Shipment
  /-- The bits that commits have added to the hints of the present peers. -/
  added : UInt32 → Nat → Bool

/-- An atomic part of a loop, or what comes in between. -/
inductive LoopStep where
  /-- A broadcast takes down what is due, in the order in which it will send it. -/
  | begin (sending : Arrangement Shipment)
  /-- It sends the next hint, or fails to. -/
  | send (ok : Bool)
  /-- It marks the hint as sent. -/
  | mark
  /-- A reconciliation reads the membership. -/
  | look (listed : List Host)
  /-- It makes the registry follow. -/
  | reconcile
  /-- A commit records that peers hold a key. -/
  | commit (key : Key) (peers : List UInt32)
  /-- A hint arrives. -/
  | receive (e : HintEvent)

namespace Loops

variable {config : ClusterParams} {l : Loops} {r : Registry}

/-- A registry before its loops have begun. -/
def start (r : Registry) : Loops := ⟨r, [], none, none, [], fun _ _ => false⟩

/-- How many hosts joined, as far as was told. -/
def joined : Except Abort Registry.Churn → Nat
  | .ok churn => churn.joined
  | .error _ => 0

/-- One step; a step that is not due changes nothing. -/
def step (l : Loops) : LoopStep → Loops
  | .begin sending =>
    if l.queue = [] ∧ l.sent = none then { l with queue := sending.order l.registry.shipments }
    else l
  | .send ok =>
    match l.sent, l.queue with
    | none, s :: rest =>
      if ok then { l with queue := rest, sent := some s, delivered := s :: l.delivered }
      else { l with queue := rest }
    | _, _ => l
  | .mark =>
    match l.sent with
    | some s => { l with registry := l.registry.markSent s, sent := none }
    | none => l
  | .look listed => { l with listed := some listed }
  | .reconcile =>
    match l.listed with
    | none => l
    | some listed =>
      let r := (l.registry.update listed).2
      { l with
        registry := r
        listed := none
        delivered := if 0 < joined (l.registry.update listed).1 then [] else l.delivered
        added := fun peer i => l.added peer i && r.hintBit peer i }
  | .commit key peers =>
    let r := (l.registry.commit key peers).1
    { l with
      registry := r
      added := fun peer i => l.added peer i || (r.hintBit peer i && !l.registry.hintBit peer i) }
  | .receive e => { l with registry := l.registry.receive e }

/-- No hint is shared beyond its clock, and where one is not due, everything that
commits added to it was sent since a host last joined. -/
def Kept (l : Loops) : Prop :=
  ∀ (peer : UInt32) (p : Peer), l.registry.peers[peer]? = some p → p.shared ≤ p.clock ∧
    (p.due = false → ∀ i, l.added peer i = true →
      ∃ s ∈ l.delivered, s.peer = peer ∧ s.bit i = true)

/-- What a broadcast has in hand. -/
def UnderWay (l : Loops) (s : Shipment) : Prop := s ∈ l.queue ∨ l.sent = some s

/-- A step does not cut in on a broadcast: when a host joins, nothing waits to be
marked, and no peer whose hint is under way starts again with a new one. -/
def Safe (l : Loops) : LoopStep → Prop
  | .reconcile => ∀ listed, l.listed = some listed →
    (0 < joined (l.registry.update listed).1 → l.sent = none) ∧
      ∀ s, l.UnderWay s → ∀ p : Peer, (l.registry.update listed).2.peers[s.peer]? = some p →
        s.clock ≤ p.clock
  | _ => True

/-- What safe steps lead to. -/
inductive Reached (config : ClusterParams) : Loops → Prop
  /-- A new registry. -/
  | fresh {r : Registry} {host : Host} (made : Registry.new config host = .ok r) :
      Reached config (start r)
  /-- A safe step. -/
  | step {l : Loops} (a : LoopStep) (before : Reached config l) (safe : l.Safe a) :
      Reached config (l.step a)

/-! ## A broadcast in steps -/

/-- The steps that send a number of hints, by whether each gets through. -/
def sends (outcomes : List Bool) : List LoopStep :=
  outcomes.flatMap fun ok => if ok then [.send true, .mark] else [.send false]

/-- A broadcast that nothing cuts in on does what its steps do in turn. -/
theorem ship_eq_steps {σ : Type} (dispatch : HintEvent → σ → Except Fault Unit × σ)
    (shipments : List Shipment) (l : Loops) (world : σ) (hsent : l.sent = none)
    (hqueue : l.queue = shipments) :
    ∃ outcomes, ((sends outcomes).foldl step l).registry
        = (Registry.ship dispatch shipments l.registry world).2.1 ∧
      ((sends outcomes).foldl step l).queue = [] ∧ ((sends outcomes).foldl step l).sent = none := by
  induction shipments generalizing l world with
  | nil => exact ⟨[], rfl, hqueue, hsent⟩
  | cons s rest ih =>
    rw [Registry.ship]
    cases hdispatch : dispatch (l.registry.event s) world with
    | mk outcome world' =>
      cases outcome with
      | ok _ =>
        have hstep : step (step l (.send true)) .mark
            = { l with
              registry := l.registry.markSent s
              queue := rest
              sent := none
              delivered := s :: l.delivered } := by
          simp only [step, hsent, hqueue, if_true]
        obtain ⟨outcomes, hreg, hq, hs⟩ := ih (step (step l (.send true)) .mark) world'
          (by rw [hstep]) (by rw [hstep])
        refine ⟨true :: outcomes, ?_, hq, hs⟩
        have hregistry : (step (step l (.send true)) .mark).registry = l.registry.markSent s := by
          rw [hstep]
        rw [hregistry] at hreg
        exact hreg
      | error fault =>
        have hstep : step l (.send false) = { l with queue := rest } := by
          simp only [step, hsent, hqueue, Bool.false_eq_true, if_false]
        obtain ⟨outcomes, hreg, hq, hs⟩ := ih (step l (.send false)) world'
          (by rw [hstep]; exact hsent) (by rw [hstep])
        refine ⟨false :: outcomes, ?_, hq, hs⟩
        have hregistry : (step l (.send false)).registry = l.registry := by
          rw [hstep]
        rw [hregistry] at hreg
        exact hreg

/-- The steps of a broadcast, with nothing in between, are the broadcast. -/
theorem broadcast_eq_steps {σ : Type} (dispatch : HintEvent → σ → Except Fault Unit × σ)
    (sending : Arrangement Shipment) (l : Loops) (world : σ) (hsent : l.sent = none)
    (hqueue : l.queue = []) :
    ∃ outcomes, ((.begin sending :: sends outcomes).foldl step l).registry
      = (l.registry.broadcast dispatch sending world).2.1 := by
  have hbegin : step l (.begin sending)
      = { l with queue := sending.order l.registry.shipments } := if_pos ⟨hqueue, hsent⟩
  obtain ⟨outcomes, hreg, -⟩ := ship_eq_steps dispatch (sending.order l.registry.shipments)
    (step l (.begin sending)) world (by rw [hbegin]; exact hsent) (by rw [hbegin])
  refine ⟨outcomes, ?_⟩
  rw [List.foldl_cons, hreg, hbegin]
  rfl

/-! ## What a step leaves of a peer -/

/-- A commit leaves a peer alone, or its clock moves on, and bits stay. -/
theorem entry_commit (r : Registry) (key : Key) (peers : List UInt32) {peer : UInt32} {q : Peer}
    (h : (r.commit key peers).1.peers[peer]? = some q) :
    ∃ p, r.peers[peer]? = some p ∧ (q = p ∨ (p.clock < q.clock ∧ q.shared = p.shared ∧
      ∀ i, Hint.bit p.hint.words i = true → Hint.bit q.hint.words i = true)) := by
  induction peers generalizing r with
  | nil => exact ⟨q, h, Or.inl rfl⟩
  | cons first rest ih =>
    rw [Registry.commit] at h
    split_ifs at h with hadds
    · obtain ⟨p, hp, hq⟩ := ih _ h
      rw [Registry.getElem?_modifyPeer] at hp
      split_ifs at hp
      · obtain ⟨p', hp', rfl⟩ := Option.map_eq_some_iff.1 hp
        refine ⟨p', hp', Or.inr ?_⟩
        have hadd (i : Nat) (hb : Hint.bit p'.hint.words i = true) :=
          Hint.bit_add p'.hint (Bytes.ofText key) hb
        rcases hq with rfl | ⟨hclock, hshared, hbits⟩
        · exact ⟨Nat.lt_succ_self _, rfl, hadd⟩
        · exact ⟨Nat.lt_of_succ_lt hclock, hshared, fun i hb => hbits i (hadd i hb)⟩
      · exact ⟨p, hp, hq⟩
    · exact ih r h

/-- A hint that arrives leaves a peer alone, or its clock moves on, its bits stay,
and it is due if it was before. -/
theorem entry_merge (p : Peer) (incoming : Hint) :
    p.merge incoming = p ∨ (p.clock < (p.merge incoming).clock ∧
      ((p.merge incoming).due = false → p.due = false) ∧
      (p.shared ≤ p.clock → (p.merge incoming).shared ≤ (p.merge incoming).clock) ∧
      ∀ i, Hint.bit p.hint.words i = true → Hint.bit (p.merge incoming).hint.words i = true) := by
  unfold Peer.merge
  split
  · next hint hunion =>
    refine Or.inr ⟨Nat.lt_succ_self _, ?_, ?_, fun i hb => ?_⟩
    · intro hnot
      by_contra hdue
      rw [Bool.not_eq_false] at hdue
      have hlt : p.shared < p.clock := of_decide_eq_true hdue
      rw [Peer.due, if_pos hdue] at hnot
      exact of_decide_eq_false hnot (Nat.lt_succ_of_lt hlt)
    · intro hle
      dsimp only
      split_ifs
      · exact Nat.le_succ_of_le hle
      · exact Nat.le_refl _
    · obtain ⟨-, -, hbits⟩ := Hint.of_union hunion
      rw [hbits, hb, Bool.true_or]
  · exact Or.inl rfl

theorem entry_receive (r : Registry) (e : HintEvent) {peer : UInt32} {q : Peer}
    (h : (r.receive e).peers[peer]? = some q) :
    ∃ p, r.peers[peer]? = some p ∧ (q = p ∨ (p.clock < q.clock ∧
      (q.due = false → p.due = false) ∧ (p.shared ≤ p.clock → q.shared ≤ q.clock) ∧
      ∀ i, Hint.bit p.hint.words i = true → Hint.bit q.hint.words i = true)) := by
  unfold Registry.receive at h
  split_ifs at h
  · exact ⟨q, h, Or.inl rfl⟩
  · split at h
    · exact ⟨q, h, Or.inl rfl⟩
    · rw [Registry.getElem?_modifyPeer] at h
      split_ifs at h
      · obtain ⟨p, hp, rfl⟩ := Option.map_eq_some_iff.1 h
        exact ⟨p, hp, entry_merge p _⟩
      · exact ⟨q, h, Or.inl rfl⟩

/-- A peer that is new: nothing is known of its keys. -/
def Blank (q : Peer) : Prop := q.clock = 0 ∧ q.shared = 0 ∧ ∀ i, Hint.bit q.hint.words i = false

theorem entry_dropMissing (r : Registry) (listed : List Host) {peer : UInt32} {q : Peer}
    (h : (r.dropMissing listed).peers[peer]? = some q) : r.peers[peer]? = some q := by
  have hfold (gone : List Host) (r : Registry)
      (h : (gone.foldl Registry.drop r).peers[peer]? = some q) : r.peers[peer]? = some q := by
    induction gone generalizing r with
    | nil => exact h
    | cons first rest ih =>
      have hdropped := ih (r.drop first) h
      rw [Registry.drop, Std.TreeMap.getElem?_erase] at hdropped
      split_ifs at hdropped
      exact hdropped
  exact hfold (r.departed listed) r h

theorem entry_enrolAll (r : Registry) {blank : Hint} (hblank : ∀ i, Hint.bit blank.words i = false)
    (listed : List Host) {peer : UInt32} {q : Peer}
    (h : (r.enrolAll blank listed).1.peers[peer]? = some q) :
    r.peers[peer]? = some q ∨ Blank q := by
  induction listed generalizing r with
  | nil => exact Or.inl h
  | cons first rest ih =>
    rw [Registry.enrolAll] at h
    split_ifs at h
    · rcases ih (r.enrol blank first) h with hold | hnew
      · rw [Registry.enrol, Std.TreeMap.getElem?_insert] at hold
        split_ifs at hold
        · cases hold
          exact Or.inr ⟨rfl, rfl, hblank⟩
        · exact Or.inl hold
      · exact Or.inr hnew
    · exact ih r h

theorem update_of_ok (listed : List Host) {blank : Hint}
    (h : Hint.new r.config.capacity r.config.recursions = .ok blank) :
    joined (r.update listed).1 = ((r.dropMissing listed).enrolAll blank listed).2 ∧
      (r.update listed).2
        = if 0 < ((r.dropMissing listed).enrolAll blank listed).2 then
            ((r.dropMissing listed).enrolAll blank listed).1.unshareAll
          else ((r.dropMissing listed).enrolAll blank listed).1 := by
  unfold Registry.update
  rw [h]
  exact ⟨rfl, rfl⟩

/-- Without hints of the configured parameters nobody joins. -/
theorem update_of_error (listed : List Host) {abort : Abort}
    (h : Hint.new r.config.capacity r.config.recursions = .error abort) :
    joined (r.update listed).1 = 0 ∧
      (r.update listed).2.peers = (r.dropMissing listed).peers := by
  unfold Registry.update
  rw [h]
  dsimp only
  split <;> exact ⟨rfl, rfl⟩

/-- A reconciliation leaves a peer's hint alone or the peer is new, and what is
shared of it starts again exactly when a host joined. -/
theorem entry_update (r : Registry) (listed : List Host) {peer : UInt32} {q : Peer}
    (h : (r.update listed).2.peers[peer]? = some q) :
    Blank q ∨ ∃ p, r.peers[peer]? = some p ∧ q.hint = p.hint ∧ q.clock = p.clock ∧
      q.shared = if 0 < joined (r.update listed).1 then 0 else p.shared := by
  cases hnew : Hint.new r.config.capacity r.config.recursions with
  | ok blank =>
    obtain ⟨hcount, hresult⟩ := update_of_ok listed hnew
    rw [hresult] at h
    rw [hcount]
    obtain ⟨-, -, hempty⟩ := Registry.blank_of_new hnew
    have hold (q : Peer)
        (hq : ((r.dropMissing listed).enrolAll blank listed).1.peers[peer]? = some q) :
        r.peers[peer]? = some q ∨ Blank q := by
      rcases entry_enrolAll _ hempty listed hq with hkept | hblank
      · exact Or.inl (entry_dropMissing r listed hkept)
      · exact Or.inr hblank
    split_ifs at h with hjoined
    · rw [Registry.getElem?_unshareAll] at h
      obtain ⟨p, hp, rfl⟩ := Option.map_eq_some_iff.1 h
      rcases hold p hp with hkept | hblank
      · exact Or.inr ⟨p, hkept, rfl, rfl, (if_pos hjoined).symm⟩
      · exact Or.inl ⟨hblank.1, rfl, hblank.2.2⟩
    · rcases hold q h with hkept | hblank
      · exact Or.inr ⟨q, hkept, rfl, rfl, (if_neg hjoined).symm⟩
      · exact Or.inl hblank
  | error abort =>
    obtain ⟨hnobody, hpeers⟩ := update_of_error listed hnew
    rw [hpeers] at h
    refine Or.inr ⟨q, entry_dropMissing r listed h, rfl, rfl, ?_⟩
    rw [hnobody]
    rfl

/-! ## The invariant -/

/-- What holds while no step cuts in on a broadcast. -/
structure Sound (l : Loops) : Prop where
  /-- No hint is shared beyond its clock. -/
  shared_le : ∀ (peer : UInt32) (p : Peer), l.registry.peers[peer]? = some p → p.shared ≤ p.clock
  /-- What is not due was delivered. -/
  kept : ∀ (peer : UInt32) (p : Peer), l.registry.peers[peer]? = some p → p.due = false →
    ∀ i, l.added peer i = true → ∃ s ∈ l.delivered, s.peer = peer ∧ s.bit i = true
  /-- What commits added is held, and has moved the clock. -/
  held : ∀ (peer : UInt32) (p : Peer), l.registry.peers[peer]? = some p →
    ∀ i, l.added peer i = true → Hint.bit p.hint.words i = true ∧ 0 < p.clock
  /-- What is under way is not ahead of the hint, and carries what was added up to
  its clock. -/
  current : ∀ s, l.UnderWay s → ∀ p : Peer, l.registry.peers[s.peer]? = some p →
    s.clock ≤ p.clock ∧ (s.clock = p.clock → ∀ i, l.added s.peer i = true → s.bit i = true)
  /-- What was sent but not yet marked was delivered. -/
  sent : ∀ s, l.sent = some s → s ∈ l.delivered

theorem Sound.kept_all (h : l.Sound) : l.Kept := fun peer p hp =>
  ⟨h.shared_le peer p hp, h.kept peer p hp⟩

theorem sound_start {host : Host} (made : Registry.new config host = .ok r) : (start r).Sound := by
  have hpeers (peer : UInt32) : (start r).registry.peers[peer]? = none := by
    unfold Registry.new at made
    split_ifs at made
    cases made
    exact Std.TreeMap.getElem?_emptyc
  constructor
  · intro peer p hp
    rw [hpeers] at hp
    cases hp
  · intro peer p hp
    rw [hpeers] at hp
    cases hp
  · intro peer p hp
    rw [hpeers] at hp
    cases hp
  · intro s hs p hp
    rw [hpeers] at hp
    cases hp
  · intro s hs
    cases hs

theorem Sound.begin (h : l.Sound) (sending : Arrangement Shipment) :
    (l.step (.begin sending)).Sound := by
  unfold step
  dsimp only
  split_ifs with hidle
  · refine ⟨h.shared_le, h.kept, h.held, fun s hs p hp => ?_, h.sent⟩
    have hm : s ∈ l.registry.shipments := by
      rcases hs with hs | hs
      · exact sending.mem_order.1 hs
      · rw [hidle.2] at hs
        cases hs
    obtain ⟨p', hp', -, hclock, hpayload⟩ := Registry.mem_shipments.1 hm
    rw [hp] at hp'
    cases hp'
    refine ⟨Nat.le_of_eq hclock, fun _ i hadded => ?_⟩
    have hbit := (h.held s.peer p hp i hadded).1
    rw [Shipment.bit, hpayload, Hint.ofBytes_toBytes]
    exact hbit
  · exact h

theorem Sound.send (h : l.Sound) (ok : Bool) : (l.step (.send ok)).Sound := by
  unfold step
  dsimp only
  split
  · next s rest hsent hqueue =>
    have hfirst : l.UnderWay s := Or.inl (by rw [hqueue]; exact List.mem_cons_self)
    have hrest (s' : Shipment) (hs' : s' ∈ rest) : l.UnderWay s' :=
      Or.inl (by rw [hqueue]; exact List.mem_cons_of_mem s hs')
    split_ifs
    · refine ⟨h.shared_le, fun peer p hp hdue i hadded => ?_, h.held, fun s' hs' => ?_,
        fun s' hs' => ?_⟩
      · obtain ⟨s', hm, hs'⟩ := h.kept peer p hp hdue i hadded
        exact ⟨s', List.mem_cons_of_mem s hm, hs'⟩
      · rcases hs' with hs' | hs'
        · exact h.current s' (hrest s' hs')
        · cases hs'
          exact h.current s hfirst
      · cases hs'
        exact List.mem_cons_self
    · refine ⟨h.shared_le, h.kept, h.held, fun s' hs' => ?_, h.sent⟩
      rcases hs' with hs' | hs'
      · exact h.current s' (hrest s' hs')
      · rw [hsent] at hs'
        cases hs'
  · exact h

theorem Sound.mark (h : l.Sound) : (l.step .mark).Sound := by
  unfold step
  dsimp only
  split
  · next s hsent =>
    have hunder : l.UnderWay s := Or.inr hsent
    -- What is marked stays as it is but for what counts as shared.
    have hentry (peer : UInt32) (q : Peer)
        (hq : (l.registry.markSent s).peers[peer]? = some q) :
        ∃ p, l.registry.peers[peer]? = some p ∧ q.hint = p.hint ∧ q.clock = p.clock ∧
          (q.shared = p.shared ∨ (peer = s.peer ∧ q.shared = max p.shared s.clock)) := by
      rw [Registry.markSent, Registry.getElem?_modifyPeer] at hq
      split_ifs at hq with he
      · obtain ⟨p, hp, rfl⟩ := Option.map_eq_some_iff.1 hq
        exact ⟨p, hp, rfl, rfl, Or.inr ⟨he.symm, rfl⟩⟩
      · exact ⟨q, hq, rfl, rfl, Or.inl rfl⟩
    constructor
    · intro peer q hq
      obtain ⟨p, hp, -, hclock, hshared⟩ := hentry peer q hq
      have hle := h.shared_le peer p hp
      rcases hshared with hshared | ⟨rfl, hshared⟩
      · omega
      · have hahead := (h.current s hunder p hp).1
        omega
    · intro peer q hq hdue i hadded
      obtain ⟨p, hp, -, hclock, hshared⟩ := hentry peer q hq
      have hdue' : ¬ q.shared < q.clock := of_decide_eq_false hdue
      by_cases hpdue : p.shared < p.clock
      · -- The mark made it cease to be due, so the shipment was up to date.
        rcases hshared with hshared | ⟨rfl, hshared⟩
        · omega
        · obtain ⟨hahead, hcarries⟩ := h.current s hunder p hp
          exact ⟨s, h.sent s hsent, rfl, hcarries (by omega) i hadded⟩
      · exact h.kept peer p hp (decide_eq_false hpdue) i hadded
    · intro peer q hq i hadded
      obtain ⟨p, hp, hhint, hclock, -⟩ := hentry peer q hq
      rw [hhint, hclock]
      exact h.held peer p hp i hadded
    · intro s' hs' q hq
      obtain ⟨p, hp, -, hclock, -⟩ := hentry s'.peer q hq
      rw [hclock]
      rcases hs' with hs' | hs'
      · exact h.current s' (Or.inl hs') p hp
      · cases hs'
    · intro s' hs'
      cases hs'
  · exact h

theorem Sound.reconcile (h : l.Sound) (safe : l.Safe .reconcile) :
    (l.step .reconcile).Sound := by
  cases hlisted : l.listed with
  | none =>
    have hsame : l.step .reconcile = l := by
      simp only [step, hlisted]
    rw [hsame]
    exact h
  | some listed =>
    obtain ⟨hjoin, hahead⟩ := safe listed hlisted
    have hentry (peer : UInt32) (q : Peer)
        (hq : (l.registry.update listed).2.peers[peer]? = some q) :=
      entry_update l.registry listed hq
    -- A bit that counts as added is held, so the peer is not a new one.
    have hold (peer : UInt32) (q : Peer) (i : Nat)
        (hq : (l.registry.update listed).2.peers[peer]? = some q)
        (hadded : (l.added peer i && (l.registry.update listed).2.hintBit peer i) = true) :
        l.added peer i = true ∧ Hint.bit q.hint.words i = true ∧ ¬ Blank q := by
      rw [Bool.and_eq_true, Registry.hintBit, hq] at hadded
      refine ⟨hadded.1, hadded.2, fun hblank => ?_⟩
      have hbit : Hint.bit q.hint.words i = true := hadded.2
      rw [hblank.2.2] at hbit
      cases hbit
    have hstep : l.step .reconcile = { l with
        registry := (l.registry.update listed).2
        listed := none
        delivered := if 0 < joined (l.registry.update listed).1 then [] else l.delivered
        added := fun peer i =>
          l.added peer i && (l.registry.update listed).2.hintBit peer i } := by
      simp only [step, hlisted]
    rw [hstep]
    constructor
    · intro peer q hq
      rcases hentry peer q hq with hblank | ⟨p, hp, -, hclock, hshared⟩
      · exact Nat.le_of_eq (hblank.2.1.trans hblank.1.symm)
      · have hle := h.shared_le peer p hp
        rw [hclock, hshared]
        split_ifs
        · exact Nat.zero_le _
        · exact hle
    · intro peer q hq hdue i hadded
      obtain ⟨hadded, -, hnew⟩ := hold peer q i hq hadded
      obtain ⟨p, hp, -, hclock, hshared⟩ := (hentry peer q hq).resolve_left hnew
      have hpos := (h.held peer p hp i hadded).2
      have hnot : ¬ q.shared < q.clock := of_decide_eq_false hdue
      dsimp only
      split_ifs at hshared ⊢ with hjoined
      · omega
      · exact h.kept peer p hp (decide_eq_false (by omega)) i hadded
    · intro peer q hq i hadded
      obtain ⟨hadded, hbit, hnew⟩ := hold peer q i hq hadded
      obtain ⟨p, hp, -, hclock, -⟩ := (hentry peer q hq).resolve_left hnew
      rw [hclock]
      exact ⟨hbit, (h.held peer p hp i hadded).2⟩
    · intro s hs q hq
      refine ⟨hahead s hs q hq, fun hclock i hadded => ?_⟩
      obtain ⟨hadded, -, hnew⟩ := hold s.peer q i hq hadded
      obtain ⟨p, hp, -, hsame, -⟩ := (hentry s.peer q hq).resolve_left hnew
      exact (h.current s hs p hp).2 (hclock.trans hsame) i hadded
    · intro s hs
      dsimp only at hs ⊢
      split_ifs with hjoined
      · rw [hjoin hjoined] at hs
        cases hs
      · exact h.sent s hs

theorem Sound.commit (h : l.Sound) (key : Key) (peers : List UInt32) :
    (l.step (.commit key peers)).Sound := by
  have hentry (peer : UInt32) (q : Peer)
      (hq : (l.registry.commit key peers).1.peers[peer]? = some q) :=
    entry_commit l.registry key peers hq
  -- A peer that was left alone has no new bits.
  have hsame (peer : UInt32) (q : Peer) (i : Nat)
      (hq : (l.registry.commit key peers).1.peers[peer]? = some q)
      (hp : l.registry.peers[peer]? = some q)
      (hadded : (l.step (.commit key peers)).added peer i = true) : l.added peer i = true := by
    simp only [step, Registry.hintBit, hq, hp] at hadded
    simpa using hadded
  constructor
  · intro peer q hq
    obtain ⟨p, hp, rfl | ⟨hclock, hshared, -⟩⟩ := hentry peer q hq
    · exact h.shared_le peer q hp
    · have hle := h.shared_le peer p hp
      omega
  · intro peer q hq hdue i hadded
    obtain ⟨p, hp, rfl | ⟨hclock, hshared, -⟩⟩ := hentry peer q hq
    · exact h.kept peer q hp hdue i (hsame peer q i hq hp hadded)
    · have hle := h.shared_le peer p hp
      have hnot : ¬ q.shared < q.clock := of_decide_eq_false hdue
      omega
  · intro peer q hq i hadded
    obtain ⟨p, hp, rfl | ⟨hclock, -, hbits⟩⟩ := hentry peer q hq
    · exact h.held peer q hp i (hsame peer q i hq hp hadded)
    · refine ⟨?_, Nat.zero_lt_of_lt hclock⟩
      rcases Bool.or_eq_true_iff.1 hadded with hold | hnew
      · exact hbits i (h.held peer p hp i hold).1
      · have hbit := (Bool.and_eq_true_iff.1 hnew).1
        have hq' : (l.registry.commit key peers).1.peers[peer]? = some q := hq
        rw [Registry.hintBit, hq'] at hbit
        exact hbit
  · intro s hs q hq
    obtain ⟨p, hp, rfl | ⟨hclock, -, -⟩⟩ := hentry s.peer q hq
    · obtain ⟨hle, hcarries⟩ := h.current s hs q hp
      exact ⟨hle, fun he i hadded => hcarries he i (hsame s.peer q i hq hp hadded)⟩
    · have hle := (h.current s hs p hp).1
      exact ⟨by omega, fun he => by omega⟩
  · exact h.sent

theorem Sound.receive (h : l.Sound) (e : HintEvent) : (l.step (.receive e)).Sound := by
  have hentry (peer : UInt32) (q : Peer) (hq : (l.registry.receive e).peers[peer]? = some q) :=
    entry_receive l.registry e hq
  constructor
  · intro peer q hq
    obtain ⟨p, hp, rfl | ⟨-, -, hle, -⟩⟩ := hentry peer q hq
    · exact h.shared_le peer q hp
    · exact hle (h.shared_le peer p hp)
  · intro peer q hq hdue i hadded
    obtain ⟨p, hp, rfl | ⟨-, hback, -, -⟩⟩ := hentry peer q hq
    · exact h.kept peer q hp hdue i hadded
    · exact h.kept peer p hp (hback hdue) i hadded
  · intro peer q hq i hadded
    obtain ⟨p, hp, rfl | ⟨hclock, -, -, hbits⟩⟩ := hentry peer q hq
    · exact h.held peer q hp i hadded
    · exact ⟨hbits i (h.held peer p hp i hadded).1, Nat.zero_lt_of_lt hclock⟩
  · intro s hs q hq
    obtain ⟨p, hp, rfl | ⟨hclock, -, -, -⟩⟩ := hentry s.peer q hq
    · exact h.current s hs q hp
    · have hle := (h.current s hs p hp).1
      exact ⟨by omega, fun he => by omega⟩
  · exact h.sent

theorem Sound.step (h : l.Sound) (a : LoopStep) (safe : l.Safe a) : (l.step a).Sound := by
  cases a with
  | begin sending => exact h.begin sending
  | send ok => exact h.send ok
  | mark => exact h.mark
  | look listed => exact ⟨h.shared_le, h.kept, h.held, h.current, h.sent⟩
  | reconcile => exact h.reconcile safe
  | commit key peers => exact h.commit key peers
  | receive e => exact h.receive e

/-- As long as no step cuts in on a broadcast, no update of a hint is lost. -/
theorem Reached.kept (h : Reached config l) : l.Kept := by
  have hsound : l.Sound := by
    induction h with
    | fresh made => exact sound_start made
    | step a _ safe ih => exact ih.step a safe
  exact hsound.kept_all

/-! ## Steps that cut in -/

/-- A registry with one peer, one of whose keys was committed and is being sent. -/
def sending : List LoopStep :=
  [.look ["a"], .reconcile, .commit "k" [Registry.digest "a"], .begin .listed]

/-- A host joins after the hint was sent and before it is marked. -/
def joinCutsIn : List LoopStep :=
  sending ++ [.send true, .look ["a", "b"], .reconcile, .mark]

/-- The peer leaves and comes back before its hint is marked. -/
def rejoinCutsIn : List LoopStep :=
  sending ++ [.look [], .reconcile, .look ["a"], .reconcile, .send true, .mark]

/-- A registry on a small ring. -/
def lone : Registry := ⟨"a", ⟨1, 64, 1⟩, .empty 1 Nat.one_pos, ∅, none⟩

/-- The host that joined never gets the key, although nothing is due. -/
theorem join_hides_update : ¬ (joinCutsIn.foldl step (start lone)).Kept := by
  intro kept
  have hdelivered : (joinCutsIn.foldl step (start lone)).delivered = [] := by decide +kernel
  have hentry : ((joinCutsIn.foldl step (start lone)).registry.peers[Registry.digest "a"]?).any
      (fun p => !p.due) = true := by decide +kernel
  have hadded : (List.range 64).any ((joinCutsIn.foldl step (start lone)).added
      (Registry.digest "a")) = true := by decide +kernel
  obtain ⟨p, hp, hdue⟩ := (Option.any_eq_true _ _).1 hentry
  obtain ⟨i, -, hi⟩ := List.any_eq_true.1 hadded
  rw [Bool.not_eq_true'] at hdue
  obtain ⟨s, hs, -⟩ := (kept _ p hp).2 hdue i hi
  rw [hdelivered] at hs
  cases hs

/-- The new hint counts as shared beyond its clock, so commits to it are not sent. -/
theorem rejoin_shares_ahead : ¬ (rejoinCutsIn.foldl step (start lone)).Kept := by
  intro kept
  have hentry : ((rejoinCutsIn.foldl step (start lone)).registry.peers[Registry.digest "a"]?).any
      (fun p => decide (p.clock < p.shared)) = true := by decide +kernel
  obtain ⟨p, hp, hahead⟩ := (Option.any_eq_true _ _).1 hentry
  have hlt : p.clock < p.shared := of_decide_eq_true hahead
  exact Nat.not_le.2 hlt (kept _ p hp).1

end Loops

end QuorumStore
