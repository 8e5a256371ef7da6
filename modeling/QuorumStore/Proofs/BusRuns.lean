import QuorumStore.Membership.Network
import QuorumStore.Proofs.HintFlow

/-!
# Registries that share a bus

On a bus that nobody leaves, each registry acts for one host and listens under
that host alone. So an event reaches the registries of the other hosts that
listen, each at least once, and never the registry of its sender.
-/

namespace QuorumStore.Network

variable {config : ClusterParams} {n : Network} {host other : Host} {r s : Registry}

/-- What holds of registries on a bus that is only joined. -/
structure Wired (config : ClusterParams) (n : Network) : Prop where
  /-- A registry acts for its own host. -/
  owner : ∀ (host : Host) (serial : Nat), n.acting[host]? = some serial →
    ∃ r, n.registries[serial]? = some r ∧ r.host = host
  /-- The next serial number is free. -/
  fresh : ∀ serial, n.registries.size ≤ serial → n.registries[serial]? = none
  /-- Only the registry of a host listens under the host. -/
  heard : ∀ (host : Host) (number : Nat) (l : Listener), (n.bus.of host)[number]? = some l →
    ∃ serial, l = .registry serial ∧ n.acting[host]? = some serial
  /-- The hints have the configured shape. -/
  shaped : ∀ host r, n.registry? host = some r → r.Shaped config
  /-- The hosts of every ring are members that hold data. -/
  stores : ∀ host r, n.registry? host = some r → ∀ h ∈ r.ring.hosts,
    n.bus.members[h]? = some .store
  /-- Nothing is refused. -/
  willing : n.failing = ∅

/-- The registry of a host, by its serial number. -/
theorem registry?_eq_some_iff :
    n.registry? host = some r ↔
      ∃ serial, n.acting[host]? = some serial ∧ n.registries[serial]? = some r := by
  unfold registry?
  exact Option.bind_eq_some_iff

theorem Wired.host_eq (w : n.Wired config) (h : n.registry? host = some r) : r.host = host := by
  obtain ⟨serial, hacting, hr⟩ := registry?_eq_some_iff.1 h
  obtain ⟨s, hs, hhost⟩ := w.owner host serial hacting
  rw [hr] at hs
  cases hs
  exact hhost

/-- No registry acts for two hosts. -/
theorem Wired.acting_inj (w : n.Wired config) {serial : Nat}
    (h : n.acting[host]? = some serial) (h' : n.acting[other]? = some serial) : host = other := by
  obtain ⟨r, hr, hhost⟩ := w.owner host serial h
  obtain ⟨s, hs, hother⟩ := w.owner other serial h'
  rw [hr] at hs
  cases hs
  exact hhost.symm.trans hother

/-- A host for which a registry acts has that registry. -/
theorem Wired.exists_registry (w : n.Wired config) {serial : Nat}
    (h : n.acting[host]? = some serial) : ∃ r, n.registry? host = some r := by
  obtain ⟨r, hr, -⟩ := w.owner host serial h
  exact ⟨r, registry?_eq_some_iff.2 ⟨serial, h, hr⟩⟩

/-- The serial numbers given out lie below the next one. -/
theorem Wired.serial_lt (w : n.Wired config) {serial : Nat}
    (h : n.registries[serial]? = some r) : serial < n.registries.size := by
  by_contra hge
  rw [w.fresh serial (Nat.le_of_not_lt hge)] at h
  cases h

/-! ## Replacing a registry -/

/-- A registry put in place of the one of its host is found there, and the others
are found as before. -/
theorem Wired.registry?_putRegistry (w : n.Wired config) (h : n.registry? s.host = some r)
    (other : Host) :
    registry? (n.putRegistry s) other = if other = s.host then some s else n.registry? other := by
  obtain ⟨serial, hacting, hr⟩ := registry?_eq_some_iff.1 h
  have hput : n.putRegistry s = { n with registries := n.registries.insert serial s } := by
    rw [putRegistry, hacting]
  rw [hput]
  split_ifs with ho
  · rw [ho]
    refine registry?_eq_some_iff.2 ⟨serial, hacting, ?_⟩
    exact Std.TreeMap.getElem?_insert_self
  · unfold registry?
    cases hother : n.acting[other]? with
    | none => rfl
    | some serial' =>
      have hne : ¬ compare serial serial' = .eq := fun he => by
        rw [Std.LawfulEqCmp.compare_eq_iff_eq] at he
        subst he
        exact ho (w.acting_inj hother hacting)
      rw [Option.bind_some, Option.bind_some, Std.TreeMap.getElem?_insert, if_neg hne]

@[simp] theorem bus_putRegistry (n : Network) (r : Registry) :
    (n.putRegistry r).bus = n.bus := by
  rw [putRegistry]
  split <;> rfl

@[simp] theorem acting_putRegistry (n : Network) (r : Registry) :
    (n.putRegistry r).acting = n.acting := by
  rw [putRegistry]
  split <;> rfl

@[simp] theorem failing_putRegistry (n : Network) (r : Registry) :
    (n.putRegistry r).failing = n.failing := by
  rw [putRegistry]
  split <;> rfl

/-- A registry may be replaced by one that is as well formed. -/
theorem Wired.putRegistry (w : n.Wired config) (h : n.registry? s.host = some r)
    (hshaped : s.Shaped config) (hstores : ∀ h ∈ s.ring.hosts, n.bus.members[h]? = some .store) :
    (n.putRegistry s).Wired config := by
  obtain ⟨serial, hacting, hr⟩ := registry?_eq_some_iff.1 h
  have hput : n.putRegistry s = { n with registries := n.registries.insert serial s } := by
    rw [Network.putRegistry, hacting]
  have hget := w.registry?_putRegistry h
  constructor
  · intro host serial' ha
    rw [acting_putRegistry] at ha
    obtain ⟨r', hr', hhost⟩ := w.owner host serial' ha
    rw [hput]
    dsimp only
    rw [Std.TreeMap.getElem?_insert]
    split_ifs with he
    · rw [Std.LawfulEqCmp.compare_eq_iff_eq] at he
      subst he
      exact ⟨s, rfl, w.acting_inj hacting ha⟩
    · exact ⟨r', hr', hhost⟩
  · intro serial' hge
    have hlt := w.serial_lt hr
    have hmem : n.registries.contains serial = true := by
      rw [Std.TreeMap.contains_eq_isSome_getElem?, hr]
      rfl
    rw [hput] at hge ⊢
    dsimp only at hge ⊢
    rw [Std.TreeMap.size_insert, if_pos hmem] at hge
    rw [Std.TreeMap.getElem?_insert, if_neg]
    · exact w.fresh serial' hge
    · rw [Std.LawfulEqCmp.compare_eq_iff_eq]
      omega
  · intro host number l hl
    rw [bus_putRegistry] at hl
    rw [acting_putRegistry]
    exact w.heard host number l hl
  · intro host r' hr'
    rw [hget] at hr'
    split_ifs at hr'
    · cases hr'
      exact hshaped
    · exact w.shaped host r' hr'
  · intro host r' hr'
    rw [hget] at hr'
    rw [bus_putRegistry]
    split_ifs at hr'
    · cases hr'
      exact hstores
    · exact w.stores host r' hr'
  · rw [failing_putRegistry]
    exact w.willing

/-! ## Delivering events -/

/-- How often an audience hands an event to a registry. -/
def copies (audience : List (Nat × Listener)) (serial : Nat) : Nat :=
  audience.countP fun listener => decide (listener.2 = .registry serial)

/-- A registry takes in an event a number of times. -/
def hear (e : HintEvent) : Nat → Registry → Registry
  | 0, r => r
  | count + 1, r => hear e count (r.receive e)

/-- Handing an event round changes the registries of the audience, each as often as
it is named. -/
theorem getElem?_foldl_hand (e : HintEvent) (audience : List (Nat × Listener)) (n : Network)
    (serial : Nat) :
    (audience.foldl (fun n listener => n.hand e listener) n).registries[serial]?
      = n.registries[serial]?.map (hear e (copies audience serial)) := by
  induction audience generalizing n with
  | nil => simp [copies, hear]
  | cons listener rest ih =>
    obtain ⟨number, kind⟩ := listener
    rw [List.foldl_cons, ih]
    cases kind with
    | recorder =>
      have hcopies : copies ((number, .recorder) :: rest) serial = copies rest serial := by
        simp [copies]
      rw [hcopies]
      rfl
    | registry named =>
      have hget : (n.hand e (number, .registry named)).registries[serial]?
          = if named = serial then n.registries[serial]?.map (·.receive e)
            else n.registries[serial]? := by
        rw [hand]
        by_cases he : named = serial
        · simp [he]
        · simp [Std.TreeMap.getElem?_modify, he]
      rw [hget]
      by_cases he : named = serial
      · have hcopies : copies ((number, .registry named) :: rest) serial
            = copies rest serial + 1 := by
          simp [copies, he]
        rw [if_pos he, hcopies, Option.map_map]
        rfl
      · have hcopies : copies ((number, .registry named) :: rest) serial
            = copies rest serial := by
          simp [copies, he]
        rw [if_neg he, hcopies]

theorem foldl_hand_frame (e : HintEvent) (audience : List (Nat × Listener)) (n : Network) :
    (audience.foldl (fun n listener => n.hand e listener) n).bus = n.bus ∧
      (audience.foldl (fun n listener => n.hand e listener) n).acting = n.acting ∧
      (audience.foldl (fun n listener => n.hand e listener) n).failing = n.failing ∧
      (audience.foldl (fun n listener => n.hand e listener) n).registries.size
        = n.registries.size := by
  induction audience generalizing n with
  | nil => exact ⟨rfl, rfl, rfl, rfl⟩
  | cons listener rest ih =>
    obtain ⟨number, kind⟩ := listener
    obtain ⟨hbus, hacting, hfailing, hsize⟩ := ih (n.hand e (number, kind))
    cases kind with
    | recorder => exact ⟨hbus, hacting, hfailing, hsize⟩
    | registry named =>
      refine ⟨hbus, hacting, hfailing, hsize.trans ?_⟩
      exact Std.TreeMap.size_modify

/-- An event is for the listeners of the other hosts. -/
theorem mem_audience {bus : Bus} {sender : Host} {number : Nat} {l : Listener} :
    (number, l) ∈ bus.audience sender ↔
      ∃ host, host ≠ sender ∧ (bus.of host)[number]? = some l := by
  unfold Bus.audience
  rw [List.mem_flatMap]
  constructor
  · rintro ⟨⟨host, listeners⟩, hm, hl⟩
    have hget := Std.TreeMap.mem_toList_iff_getElem?_eq_some.1 hm
    dsimp only at hl
    split_ifs at hl with hs
    · cases hl
    · refine ⟨host, hs, ?_⟩
      rw [Bus.of, hget]
      exact Std.TreeMap.mem_toList_iff_getElem?_eq_some.1 hl
  · rintro ⟨host, hs, hl⟩
    rw [Bus.of] at hl
    cases hget : bus.listeners[host]? with
    | none =>
      rw [hget] at hl
      simp at hl
    | some listeners =>
      rw [hget] at hl
      refine ⟨(host, listeners), Std.TreeMap.mem_toList_iff_getElem?_eq_some.2 hget, ?_⟩
      dsimp only
      rw [if_neg hs]
      exact Std.TreeMap.mem_toList_iff_getElem?_eq_some.2 hl

/-- Whether somebody listens under a host. -/
def listens (n : Network) (host : Host) : Bool := !(n.bus.of host).isEmpty

theorem listens_iff :
    n.listens host = true ↔ ∃ (number : Nat) (l : Listener), (n.bus.of host)[number]? = some l := by
  rw [listens, Bool.not_eq_true', Std.TreeMap.isEmpty_eq_false_iff_exists_contains_eq_true]
  simp only [Std.TreeMap.contains_eq_isSome_getElem?, Option.isSome_iff_exists]

/-- A delivered event is heard by each registry some number of times, and at least
once exactly when it comes from elsewhere and the registry listens. -/
theorem Wired.registry?_deliver (w : n.Wired config) (sender : Host) (e : HintEvent)
    (h : n.registry? host = some r) :
    ∃ count, registry? (n.deliver sender e) host = some (hear e count r) ∧
      (0 < count ↔ host ≠ sender ∧ n.listens host = true) := by
  obtain ⟨serial, hacting, hr⟩ := registry?_eq_some_iff.1 h
  obtain ⟨-, hacting', -, -⟩ := foldl_hand_frame e (n.bus.audience sender) n
  refine ⟨copies (n.bus.audience sender) serial, ?_, ?_⟩
  · refine registry?_eq_some_iff.2 ⟨serial, ?_, ?_⟩
    · rw [deliver, hacting']
      exact hacting
    · rw [deliver, getElem?_foldl_hand, hr]
      rfl
  · rw [copies, List.countP_pos_iff]
    constructor
    · rintro ⟨⟨number, l⟩, hm, hnamed⟩
      rw [decide_eq_true_eq] at hnamed
      dsimp only at hnamed
      obtain ⟨other, hother, hl⟩ := mem_audience.1 hm
      obtain ⟨serial', hl', hacts⟩ := w.heard other number l hl
      rw [hnamed] at hl'
      cases hl'
      have hsame := w.acting_inj hacts hacting
      subst hsame
      exact ⟨hother, listens_iff.2 ⟨number, l, hl⟩⟩
    · rintro ⟨hsender, hlistens⟩
      obtain ⟨number, l, hl⟩ := listens_iff.1 hlistens
      obtain ⟨serial', rfl, hacts⟩ := w.heard host number l hl
      rw [hacting] at hacts
      cases hacts
      exact ⟨(number, .registry serial), mem_audience.2 ⟨host, hsender, hl⟩, by simp⟩

/-! ## Hearing an event -/

/-- However often an event is heard, it changes hints only. -/
theorem hear_frame (e : HintEvent) (count : Nat) (r : Registry) :
    (hear e count r).host = r.host ∧ (hear e count r).ring = r.ring := by
  induction count generalizing r with
  | zero => exact ⟨rfl, rfl⟩
  | succ count ih =>
    obtain ⟨hhost, hring⟩ := ih (r.receive e)
    exact ⟨hhost.trans (Registry.host_receive r e), hring.trans (Registry.ring_receive r e)⟩

theorem knows_hear (e : HintEvent) (count : Nat) (r : Registry) (peer : UInt32) :
    (hear e count r).knows peer = r.knows peer := by
  induction count generalizing r with
  | zero => rfl
  | succ count ih => exact (ih (r.receive e)).trans (Registry.knows_receive r e peer)

theorem shaped_hear (h : r.Shaped config) (e : HintEvent) (count : Nat) :
    (hear e count r).Shaped config := by
  induction count generalizing r with
  | zero => exact h
  | succ count ih => exact ih (h.receive e)

/-- Hearing an event loses nothing, and brings no more than its bits. -/
theorem grown_hear (h : r.Shaped config) {e : HintEvent} (he : Registry.Carries config e)
    (count : Nat) : Registry.Grown (Registry.Brings e) r (hear e count r) := by
  induction count generalizing r with
  | zero => exact Registry.Grown.refl r
  | succ count ih => exact (h.grown_receive he).trans (ih (h.receive e))

/-- An event about a known peer that is heard at all is taken in. -/
theorem taken_hear (h : r.Shaped config) {e : HintEvent} (he : Registry.Carries config e)
    (hsender : e.sender ≠ r.host) (hknows : r.knows e.peer = true) {count : Nat}
    (hcount : 0 < count) {i : Nat} (hb : e.bit i = true) :
    (hear e count r).hintBit e.peer i = true := by
  cases count with
  | zero => cases hcount
  | succ count =>
    have hfirst := h.taken_receive he hsender hknows hb
    exact (grown_hear (h.receive e) he count).kept e.peer i hfirst

/-- Delivering an event keeps the wiring. -/
theorem Wired.deliver (w : n.Wired config) (sender : Host) (e : HintEvent) :
    (n.deliver sender e).Wired config := by
  obtain ⟨hbus, hacting, hfailing, hsize⟩ := foldl_hand_frame e (n.bus.audience sender) n
  have hget (serial : Nat) : (n.deliver sender e).registries[serial]?
      = n.registries[serial]?.map (hear e (copies (n.bus.audience sender) serial)) :=
    getElem?_foldl_hand e (n.bus.audience sender) n serial
  have hback (host : Host) (s : Registry) (hs : registry? (n.deliver sender e) host = some s) :
      ∃ r count, n.registry? host = some r ∧ s = hear e count r := by
    obtain ⟨serial, ha, hserial⟩ := registry?_eq_some_iff.1 hs
    rw [Network.deliver, hacting] at ha
    rw [hget] at hserial
    obtain ⟨r, hr, rfl⟩ := Option.map_eq_some_iff.1 hserial
    exact ⟨r, _, registry?_eq_some_iff.2 ⟨serial, ha, hr⟩, rfl⟩
  constructor
  · intro host serial ha
    rw [Network.deliver, hacting] at ha
    obtain ⟨r, hr, hhost⟩ := w.owner host serial ha
    refine ⟨_, by rw [hget, hr]; rfl, ?_⟩
    rw [(hear_frame e _ r).1]
    exact hhost
  · intro serial hge
    rw [Network.deliver, hsize] at hge
    rw [hget, w.fresh serial hge]
    rfl
  · intro host number l hl
    rw [Network.deliver, hbus] at hl
    rw [Network.deliver, hacting]
    exact w.heard host number l hl
  · intro host s hs
    obtain ⟨r, count, hr, rfl⟩ := hback host s hs
    exact shaped_hear (w.shaped host r hr) e count
  · intro host s hs
    obtain ⟨r, count, hr, rfl⟩ := hback host s hs
    rw [(hear_frame e count r).2, Network.deliver, hbus]
    exact w.stores host r hr
  · rw [Network.deliver, hfailing]
    exact w.willing

/-! ## Sending hints -/

/-- Whether an event gets into the registry of a host: the registry sent it, or it
listens and knows the peer that the event is about. -/
def reaches (n : Network) (e : HintEvent) (host : Host) : Bool :=
  decide (host = e.sender) || (n.listens host && (n.registry? host).any (·.knows e.peer))

theorem reaches_of_ne {e : HintEvent} (h : n.registry? host = some r) (hne : host ≠ e.sender) :
    n.reaches e host = true ↔ n.listens host = true ∧ r.knows e.peer = true := by
  rw [reaches, decide_eq_false hne, Bool.false_or, h, Option.any_some, Bool.and_eq_true]

/-- What the registry of a host makes of events that are handed round in turn. -/
structure Reacts (n : Network) (events : List HintEvent) (host : Host) (r s : Registry) :
    Prop where
  /-- It loses nothing and gains no more than what reaches it. -/
  grown : Registry.Grown
    (fun peer i => ∃ e ∈ events, Registry.Brings e peer i ∧ n.reaches e host = true) r s
  /-- It learns of no peer. -/
  knows : ∀ peer, s.knows peer = r.knows peer
  /-- It takes in what reaches it from elsewhere. -/
  taken : ∀ e ∈ events, host ≠ e.sender → n.reaches e host = true →
    ∀ i, e.bit i = true → s.hintBit e.peer i = true
  /-- Its own events change nothing. -/
  own : (∀ e ∈ events, e.sender = host) → s = r

/-- A delivered event gets in where it reaches, and nowhere else. -/
theorem Wired.reacts_deliver (w : n.Wired config) {e : HintEvent}
    (he : Registry.Carries config e) (h : n.registry? host = some r) :
    ∃ s, registry? (n.deliver e.sender e) host = some s ∧ n.Reacts [e] host r s := by
  obtain ⟨count, hget, hcount⟩ := w.registry?_deliver e.sender e h
  have hshaped := w.shaped host r h
  have hhost := w.host_eq h
  have hgrown := grown_hear hshaped he count
  refine ⟨hear e count r, hget, ⟨?_, knows_hear e count r, ?_, ?_⟩⟩
  · refine ⟨hgrown.host_eq, hgrown.knows, hgrown.kept, hgrown.due, fun peer i hb => ?_⟩
    rcases hgrown.fresh peer i hb with hold | hbrings | hdue
    · exact Or.inl hold
    · rcases Nat.eq_zero_or_pos count with hzero | hpos
      · rw [hzero] at hb
        exact Or.inl hb
      · obtain ⟨hne, hlistens⟩ := hcount.1 hpos
        have hknown : (hear e count r).knows peer = true := Registry.knows_of_hintBit hb
        rw [knows_hear, ← hbrings.1] at hknown
        exact Or.inr (Or.inl ⟨e, List.mem_singleton_self e, hbrings,
          (reaches_of_ne h hne).2 ⟨hlistens, hknown⟩⟩)
    · exact Or.inr (Or.inr hdue)
  · intro e' hm hne hreaches i hb
    rw [List.mem_singleton.1 hm] at hne hreaches hb ⊢
    obtain ⟨hlistens, hknows⟩ := (reaches_of_ne h hne).1 hreaches
    have hpos := hcount.2 ⟨hne, hlistens⟩
    rw [← hhost] at hne
    exact taken_hear hshaped he (Ne.symm hne) hknows hpos hb
  · intro hown
    have hzero : count = 0 := by
      by_contra hne
      exact (hcount.1 (Nat.pos_of_ne_zero hne)).1 (hown e (List.mem_singleton_self e)).symm
    rw [hzero]
    rfl

/-- What a registry makes of more events, when those before it made it know nobody. -/
theorem Reacts.cons {n' : Network} {e : HintEvent} {events : List HintEvent} {t : Registry}
    (hbus : n'.bus = n.bus) (hr : n.registry? host = some r) (hs : n'.registry? host = some s)
    (first : n.Reacts [e] host r s) (rest : n'.Reacts events host s t) :
    n.Reacts (e :: events) host r t := by
  have hsame (e' : HintEvent) : n'.reaches e' host = n.reaches e' host := by
    rw [reaches, reaches, listens, listens, hbus, hr, hs, Option.any_some, Option.any_some,
      first.knows]
  constructor
  · have hfirst : Registry.Grown (fun peer i =>
        ∃ e' ∈ e :: events, Registry.Brings e' peer i ∧ n.reaches e' host = true) r s := by
      refine first.grown.mono fun peer i ⟨e', hm, hbrings⟩ => ?_
      rw [List.mem_singleton.1 hm] at hbrings
      exact ⟨e, List.mem_cons_self, hbrings⟩
    refine hfirst.trans (rest.grown.mono fun peer i ⟨e', hm, hbrings, hreaches⟩ => ?_)
    rw [hsame] at hreaches
    exact ⟨e', List.mem_cons_of_mem e hm, hbrings, hreaches⟩
  · intro peer
    exact (rest.knows peer).trans (first.knows peer)
  · intro e' hm hne hreaches i hb
    rcases List.mem_cons.1 hm with rfl | hm
    · have hfirst := first.taken e' (List.mem_singleton_self e') hne hreaches i hb
      exact rest.grown.kept e'.peer i hfirst
    · exact rest.taken e' hm hne (by rw [hsame]; exact hreaches) i hb
  · intro hown
    have hrest := rest.own fun e' hm => hown e' (List.mem_cons_of_mem e hm)
    have hfirst := first.own fun e' hm => by
      rw [List.mem_singleton.1 hm]
      exact hown e List.mem_cons_self
    exact hrest.trans hfirst

/-- Events of one sender that are delivered in turn. -/
theorem Wired.reacts_deliverAll (w : n.Wired config) {sender : Host} {events : List HintEvent}
    (hevents : ∀ e ∈ events, Registry.Carries config e ∧ e.sender = sender) :
    (events.foldl (fun n e => n.deliver sender e) n).Wired config ∧
      (events.foldl (fun n e => n.deliver sender e) n).bus = n.bus ∧
      (events.foldl (fun n e => n.deliver sender e) n).acting = n.acting ∧
      ∀ host r, n.registry? host = some r →
        ∃ s, registry? (events.foldl (fun n e => n.deliver sender e) n) host = some s ∧
          n.Reacts events host r s := by
  induction events generalizing n with
  | nil =>
    refine ⟨w, rfl, rfl, fun host r hr => ⟨r, hr, ⟨Registry.Grown.refl r, fun _ => rfl, ?_, ?_⟩⟩⟩
    · intro e hm
      cases hm
    · intro _
      rfl
  | cons e rest ih =>
    obtain ⟨hcarries, hsender⟩ := hevents e List.mem_cons_self
    have hrest (e' : HintEvent) (hm : e' ∈ rest) := hevents e' (List.mem_cons_of_mem e hm)
    obtain ⟨hbus, hacting, -, -⟩ := foldl_hand_frame e (n.bus.audience sender) n
    obtain ⟨hw, hbus', hacting', hreacts⟩ := ih (w.deliver sender e) hrest
    refine ⟨hw, hbus'.trans hbus, hacting'.trans hacting, fun host r hr => ?_⟩
    obtain ⟨s, hs, hfirst⟩ := w.reacts_deliver hcarries hr
    rw [hsender] at hs
    obtain ⟨t, ht, hlater⟩ := hreacts host s hs
    exact ⟨t, ht, Reacts.cons hbus hr hs hfirst hlater⟩

/-- Where dispatch is not refused, sending delivers each hint in turn and marks it sent. -/
theorem ship_eq (hwilling : n.refusesDispatch host = false) (shipments : List Shipment)
    (r : Registry) :
    Registry.ship (dispatch host) shipments r n
      = (⟨shipments.length, []⟩, shipments.foldl Registry.markSent r,
        (shipments.map r.event).foldl (fun n e => n.deliver host e) n) := by
  induction shipments generalizing r n with
  | nil => rfl
  | cons shipment rest ih =>
    have hsent : dispatch host (r.event shipment) n
        = (.ok (), n.deliver host (r.event shipment)) := by
      rw [dispatch, hwilling]
      rfl
    have hwilling' : (n.deliver host (r.event shipment)).refusesDispatch host = false := by
      rw [refusesDispatch, Network.deliver, (foldl_hand_frame _ _ n).2.2.1]
      exact hwilling
    rw [Registry.ship, hsent]
    dsimp only
    rw [ih hwilling']
    rfl

/-- The network after a broadcast that is not refused. -/
theorem broadcast_eq (hr : n.registry? host = some r) (hwilling : n.refusesDispatch host = false)
    (sending : Arrangement Shipment) :
    n.broadcast host sending = (⟨(sending.order r.shipments).length, []⟩,
      (((sending.order r.shipments).map r.event).foldl (fun n e => n.deliver host e)
        n).putRegistry (r.shipped sending)) := by
  rw [broadcast, hr]
  dsimp only
  rw [Registry.broadcast, ship_eq hwilling]
  rfl

/-- A broadcast hands round every hint that is due, and then none of them is. -/
theorem Wired.broadcast (w : n.Wired config) (h : n.registry? host = some r)
    (sending : Arrangement Shipment) :
    (n.broadcast host sending).2.Wired config ∧
      (n.broadcast host sending).2.acting = n.acting ∧
      registry? (n.broadcast host sending).2 host = some (r.shipped sending) ∧
      ∀ other r', other ≠ host → n.registry? other = some r' →
        ∃ s, registry? (n.broadcast host sending).2 other = some s ∧
          n.Reacts ((sending.order r.shipments).map r.event) other r' s := by
  have hhost := w.host_eq h
  have hshaped := w.shaped host r h
  have hframe := r.shipped_frame sending
  have hevents (e : HintEvent) (hm : e ∈ (sending.order r.shipments).map r.event) :
      Registry.Carries config e ∧ e.sender = host := by
    obtain ⟨shipment, hship, rfl⟩ := List.mem_map.1 hm
    exact ⟨(hshaped.carries_event (Arrangement.mem_order.1 hship)).1, hhost⟩
  obtain ⟨hw, hbus, hacting, hreacts⟩ := w.reacts_deliverAll hevents
  obtain ⟨s, hs, hown⟩ := hreacts host r h
  have hsr : s = r := hown.own fun e hm => (hevents e hm).2
  rw [hsr] at hs
  have hwilling : n.refusesDispatch host = false := by
    rw [refusesDispatch, w.willing, Std.TreeMap.getElem?_emptyc]
    rfl
  have hs' : registry? (((sending.order r.shipments).map r.event).foldl
      (fun n e => n.deliver host e) n) (r.shipped sending).host = some r := by
    rw [hframe.1, hhost]
    exact hs
  have hget := hw.registry?_putRegistry hs'
  rw [broadcast_eq h hwilling]
  dsimp only
  refine ⟨hw.putRegistry hs' (hshaped.shipped sending).1 ?_, ?_, ?_, fun other r' hne hr' => ?_⟩
  · rw [hframe.2.1, hbus]
    exact w.stores host r h
  · rw [acting_putRegistry]
    exact hacting
  · rw [hget, hframe.1, hhost, if_pos rfl]
  · obtain ⟨s', hs'', hreact⟩ := hreacts other r' hr'
    refine ⟨s', ?_, hreact⟩
    rw [hget, hframe.1, hhost, if_neg hne]
    exact hs''

/-! ## Joining, making a registry, listening -/

theorem of_join (bus : Bus) (host : Host) (role : Role) (other : Host) :
    (bus.join host role).of other = bus.of other := by
  rw [Bus.of, Bus.join]
  dsimp only
  rw [Std.TreeMap.getElem?_insert]
  split_ifs with he
  · rw [Std.LawfulEqCmp.compare_eq_iff_eq] at he
    subst he
    rfl
  · rfl

/-- Joining keeps the wiring, unless a member that holds data becomes a client. -/
theorem Wired.join (w : n.Wired config) {role : Role}
    (hrole : n.bus.members[host]? = some .store → role = .store) :
    (n.join host role).Wired config := by
  have hbus : (n.join host role).bus = n.bus.join host role := rfl
  refine ⟨w.owner, w.fresh, fun other number l hl => ?_, w.shaped, fun other r hr h hh => ?_,
    w.willing⟩
  · rw [hbus, of_join] at hl
    exact w.heard other number l hl
  · have hstore := w.stores other r hr h hh
    rw [hbus, Bus.join]
    dsimp only
    rw [Std.TreeMap.getElem?_insert]
    split_ifs with he
    · rw [Std.LawfulEqCmp.compare_eq_iff_eq] at he
      subst he
      rw [hrole hstore]
    · exact hstore

/-- A registry that was just made is well formed and knows nobody. -/
theorem new_spec (h : Registry.new config host = .ok r) :
    r.host = host ∧ r.Shaped config ∧ r.ring.hosts = [] ∧
      ∀ peer : UInt32, r.peers[peer]? = none := by
  unfold Registry.new at h
  split_ifs at h
  cases h
  have hpeers (peer : UInt32) : (∅ : Std.TreeMap UInt32 Peer)[peer]? = none :=
    Std.TreeMap.getElem?_emptyc
  refine ⟨rfl, ⟨rfl, fun peer p hp => ?_, fun peer p hp => ?_⟩, rfl, hpeers⟩
  · rw [hpeers] at hp
    cases hp
  · rw [hpeers] at hp
    cases hp

/-- The network once a registry was made for a host. -/
theorem openRegistry_eq {n' : Network} (made : n.openRegistry host config = .ok n') :
    ∃ r, Registry.new config host = .ok r ∧
      n' = { n with
        registries := n.registries.insert n.registries.size r
        acting := n.acting.insert host n.registries.size } := by
  unfold Network.openRegistry at made
  cases hnew : Registry.new config host with
  | error abort =>
    rw [hnew] at made
    cases made
  | ok r =>
    rw [hnew] at made
    cases made
    exact ⟨r, rfl, rfl⟩

/-- A new registry acts for its host, and the others act as before. -/
theorem Wired.registry?_openRegistry (w : n.Wired config) {n' : Network}
    (h : n' = { n with
        registries := n.registries.insert n.registries.size r
        acting := n.acting.insert host n.registries.size }) (other : Host) :
    n'.registry? other = if other = host then some r else n.registry? other := by
  have hacting : n'.acting[other]?
      = if host = other then some n.registries.size else n.acting[other]? := by
    rw [h, Std.TreeMap.getElem?_insert]
    simp only [Std.LawfulEqCmp.compare_eq_iff_eq]
  unfold registry?
  rw [hacting]
  by_cases ho : other = host
  · subst ho
    rw [if_pos rfl, if_pos rfl, Option.bind_some, h]
    exact Std.TreeMap.getElem?_insert_self
  · rw [if_neg (Ne.symm ho), if_neg ho]
    cases hserial : n.acting[other]? with
    | none => rfl
    | some serial =>
      obtain ⟨s, hs, -⟩ := w.owner other serial hserial
      have hlt := w.serial_lt hs
      have hne : ¬ compare n.registries.size serial = .eq := fun he => by
        rw [Std.LawfulEqCmp.compare_eq_iff_eq] at he
        omega
      rw [Option.bind_some, Option.bind_some, h, Std.TreeMap.getElem?_insert, if_neg hne]

theorem Wired.openRegistry (w : n.Wired config) (hnew : n.acting[host]? = none) {n' : Network}
    (made : n.openRegistry host config = .ok n') : n'.Wired config := by
  obtain ⟨r, hr, hn⟩ := openRegistry_eq made
  obtain ⟨hhost, hshaped, hhosts, -⟩ := new_spec hr
  have hget := w.registry?_openRegistry hn
  have hacting (other : Host) (serial : Nat) (ha : n'.acting[other]? = some serial) :
      (other = host ∧ serial = n.registries.size) ∨ n.acting[other]? = some serial := by
    rw [hn, Std.TreeMap.getElem?_insert] at ha
    split_ifs at ha with he
    · rw [Std.LawfulEqCmp.compare_eq_iff_eq] at he
      cases ha
      exact Or.inl ⟨he.symm, rfl⟩
    · exact Or.inr ha
  have hsize : ¬ n.registries.contains n.registries.size = true := by
    rw [Std.TreeMap.contains_eq_isSome_getElem?, w.fresh _ (Nat.le_refl _)]
    exact Bool.false_ne_true
  have hbus : n'.bus = n.bus := by rw [hn]
  constructor
  · intro other serial ha
    rcases hacting other serial ha with ⟨rfl, rfl⟩ | hold
    · refine ⟨r, ?_, hhost⟩
      rw [hn]
      exact Std.TreeMap.getElem?_insert_self
    · obtain ⟨s, hs, hother⟩ := w.owner other serial hold
      have hlt := w.serial_lt hs
      refine ⟨s, ?_, hother⟩
      rw [hn, Std.TreeMap.getElem?_insert, if_neg]
      · exact hs
      · rw [Std.LawfulEqCmp.compare_eq_iff_eq]
        omega
  · intro serial hge
    rw [hn, Std.TreeMap.size_insert, if_neg hsize] at hge
    rw [hn, Std.TreeMap.getElem?_insert, if_neg]
    · exact w.fresh serial (by omega)
    · rw [Std.LawfulEqCmp.compare_eq_iff_eq]
      omega
  · intro other number l hl
    rw [hbus] at hl
    obtain ⟨serial, rfl, ha⟩ := w.heard other number l hl
    refine ⟨serial, rfl, ?_⟩
    rw [hn, Std.TreeMap.getElem?_insert, if_neg]
    · exact ha
    · rw [Std.LawfulEqCmp.compare_eq_iff_eq]
      rintro rfl
      rw [hnew] at ha
      cases ha
  · intro other s hs
    rw [hget] at hs
    split_ifs at hs
    · cases hs
      exact hshaped
    · exact w.shaped other s hs
  · intro other s hs
    rw [hget] at hs
    rw [hbus]
    split_ifs at hs
    · cases hs
      intro h hh
      rw [hhosts] at hh
      cases hh
    · exact w.stores other s hs
  · rw [hn]
    exact w.willing

/-- A new listener is found under its number. -/
theorem getElem?_of_register (bus : Bus) (host other : Host) (l : Listener) (k : Nat) :
    ((bus.register host l).1.of other)[k]?
      = if host = other ∧ bus.lastNumber + 1 = k then some l else (bus.of other)[k]? := by
  have hof : (bus.register host l).1.of other
      = if host = other then (bus.of host).insert (bus.lastNumber + 1) l else bus.of other := by
    rw [Bus.of, Bus.register]
    dsimp only
    rw [Std.TreeMap.getElem?_insert]
    simp only [Std.LawfulEqCmp.compare_eq_iff_eq]
    split_ifs <;> rfl
  rw [hof]
  by_cases hhost : host = other
  · subst hhost
    rw [if_pos rfl, Std.TreeMap.getElem?_insert]
    simp only [Std.LawfulEqCmp.compare_eq_iff_eq, true_and]
  · rw [if_neg hhost, if_neg fun h => hhost h.1]

/-- A listener of the registry that acts for its host may be added to the bus. -/
theorem Wired.register (w : n.Wired config) {serial : Nat} (ha : n.acting[host]? = some serial) :
    Wired config { n with bus := (n.bus.register host (.registry serial)).1 } := by
  refine ⟨w.owner, w.fresh, fun other number l hl => ?_, w.shaped, w.stores, w.willing⟩
  dsimp only at hl ⊢
  rw [getElem?_of_register] at hl
  split_ifs at hl with hnew
  · obtain ⟨rfl, -⟩ := hnew
    cases hl
    exact ⟨serial, rfl, ha⟩
  · exact w.heard other number l hl

/-! ## Starting and stopping -/

variable {serial number : Nat}

/-- A registry that remembers a listener does nothing when it starts. -/
theorem start_of_some (hr : n.registry? host = some r) (hlistener : r.listener = some number) :
    n.start host = n := by
  obtain ⟨own, hacting, -⟩ := registry?_eq_some_iff.1 hr
  rw [start, hacting, hr]
  exact if_pos (by rw [hlistener]; rfl)

/-- A registry that remembers no listener gets one when it starts. -/
theorem start_of_none (hacting : n.acting[host]? = some serial) (hr : n.registry? host = some r)
    (hlistener : r.listener = none) :
    n.start host = { n with bus := (n.bus.register host (.registry serial)).1 }.putRegistry
      { r with listener := some (n.bus.lastNumber + 1) } := by
  rw [start, hacting, hr]
  exact if_neg (by rw [hlistener]; exact Bool.false_ne_true)

/-- A registry that remembers no listener does nothing when it stops. -/
theorem stop_of_none (hr : n.registry? host = some r) (hlistener : r.listener = none) :
    n.stop host = n := by
  rw [stop, hr]
  simp only [hlistener]

/-- A registry that remembers a listener stops it, and forgets it. -/
theorem stop_of_some (hr : n.registry? host = some r) (hlistener : r.listener = some number) :
    n.stop host = { n with bus := (n.bus.deregister host number).1 }.putRegistry
      { r with listener := none } := by
  rw [stop, hr]
  simp only [hlistener]

end QuorumStore.Network
