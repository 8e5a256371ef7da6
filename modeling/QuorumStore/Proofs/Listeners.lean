import QuorumStore.Proofs.Traffic

/-!
# Who listens on the bus

A registry remembers the number of its listener until it stops, while the bus drops the
listeners of a host that leaves. So a registry that starts has one listener, is handed the
events of other hosts once each, and has none after it stops; but a registry whose host
left while it remembered a number is deaf from then on, whatever its host joins and however
often it starts, until it stops and starts again.
-/

namespace QuorumStore

namespace Bus

variable {bus : Bus} {host other : Host} {number serial : Nat} {l : Listener}

/-! ## The listeners of each host -/

/-- The listeners of the other hosts stay when a host leaves. -/
theorem getElem?_of_leave (bus : Bus) (host other : Host) (k : Nat) :
    ((bus.leave host).1.of other)[k]? = if host = other then none else (bus.of other)[k]? := by
  rw [of, leave]
  dsimp only
  rw [Std.TreeMap.getElem?_erase]
  simp only [Std.LawfulEqCmp.compare_eq_iff_eq]
  split_ifs
  · rfl
  · rfl

/-- A listener that has stopped is not found any more. -/
theorem getElem?_of_deregister (bus : Bus) (host other : Host) (number k : Nat) :
    ((bus.deregister host number).1.of other)[k]?
      = if host = other ∧ number = k then none else (bus.of other)[k]? := by
  unfold deregister
  split_ifs with hcontains hgone
  · obtain ⟨rfl, rfl⟩ := hgone
    simp [of]
  · rw [of]
    dsimp only
    rw [Std.TreeMap.getElem?_insert]
    by_cases hhost : host = other
    · subst hhost
      have hk : ¬ number = k := fun hk => hgone ⟨rfl, hk⟩
      rw [if_pos Std.ReflCmp.compare_self, Option.getD_some, Std.TreeMap.getElem?_erase, if_neg]
      rwa [Std.LawfulEqCmp.compare_eq_iff_eq]
    · rw [if_neg]
      · rfl
      · rwa [Std.LawfulEqCmp.compare_eq_iff_eq]
  · next hgone =>
    -- there was no listener of that number
    obtain ⟨rfl, rfl⟩ := hgone
    simpa using hcontains
  · rfl

/-! ## The listeners of a registry -/

/-- The listeners that take hints in for a registry, each with its host and its number. -/
def handlers (bus : Bus) (serial : Nat) : List (Host × Nat) :=
  bus.listeners.toList.flatMap fun (host, listeners) =>
    listeners.toList.filterMap fun (number, l) =>
      if l = .registry serial then some (host, number) else none

theorem mem_handlers :
    (host, number) ∈ bus.handlers serial ↔ (bus.of host)[number]? = some (.registry serial) := by
  unfold handlers
  rw [List.mem_flatMap]
  constructor
  · rintro ⟨⟨other, listeners⟩, hm, hl⟩
    obtain ⟨⟨k, l⟩, hk, hlisted⟩ := List.mem_filterMap.1 hl
    dsimp only at hlisted
    split_ifs at hlisted with hregistry
    cases hlisted
    rw [of, Std.TreeMap.mem_toList_iff_getElem?_eq_some.1 hm, ← hregistry]
    exact Std.TreeMap.mem_toList_iff_getElem?_eq_some.1 hk
  · intro hl
    rw [of] at hl
    cases hget : bus.listeners[host]? with
    | none =>
      rw [hget] at hl
      simp at hl
    | some listeners =>
      rw [hget] at hl
      refine ⟨(host, listeners), Std.TreeMap.mem_toList_iff_getElem?_eq_some.2 hget, ?_⟩
      refine List.mem_filterMap.2 ⟨(number, .registry serial),
        Std.TreeMap.mem_toList_iff_getElem?_eq_some.2 hl, ?_⟩
      exact if_pos rfl

theorem nodup_handlers (bus : Bus) (serial : Nat) : (bus.handlers serial).Nodup := by
  refine List.nodup_flatMap.2 ⟨fun entry _ => ?_, ?_⟩
  · -- the listeners of one host differ in their numbers
    refine List.Pairwise.filterMap _ (fun first second hne x hx y hy hxy => hne ?_)
      Std.TreeMap.distinct_keys_toList
    dsimp only at hx hy
    split_ifs at hx hy
    cases hx
    cases hy
    rw [(Prod.mk.inj hxy).2]
    exact Std.ReflCmp.compare_self
  · -- and those of two hosts in their hosts
    refine Std.TreeMap.distinct_keys_toList.imp fun {first second} hne x hx hy => hne ?_
    obtain ⟨_, -, hfirst⟩ := List.mem_filterMap.1 hx
    obtain ⟨_, -, hsecond⟩ := List.mem_filterMap.1 hy
    dsimp only at hfirst hsecond
    split_ifs at hfirst hsecond
    cases hfirst
    rw [(Prod.mk.inj (Option.some_inj.1 hsecond)).1]
    exact Std.ReflCmp.compare_self

/-- An event is handed to a registry once for each of its listeners under another host. -/
theorem copies_audience (bus : Bus) (sender : Host) (serial : Nat) :
    Network.copies (bus.audience sender) serial
      = (bus.handlers serial).countP fun handler => decide (handler.1 ≠ sender) := by
  unfold Network.copies audience handlers
  induction bus.listeners.toList with
  | nil => rfl
  | cons entry rest ih =>
    obtain ⟨host, listeners⟩ := entry
    rw [List.flatMap_cons, List.flatMap_cons, List.countP_append, List.countP_append, ih,
      List.countP_filterMap]
    congr 1
    dsimp only
    by_cases hsender : host = sender
    · rw [if_pos hsender, List.countP_nil, eq_comm, List.countP_eq_zero]
      rintro ⟨number, l⟩ -
      by_cases hl : l = .registry serial <;> simp [hl, hsender]
    · rw [if_neg hsender]
      refine List.countP_congr fun entry _ => ?_
      by_cases hl : entry.2 = .registry serial <;> simp [hl, hsender]

end Bus

namespace Registry

theorem listener_receive (r : Registry) (e : HintEvent) : (r.receive e).listener = r.listener := by
  unfold receive
  split_ifs
  · rfl
  · split <;> rfl

theorem listener_new {config : ClusterParams} {host : Host} {r : Registry}
    (made : Registry.new config host = .ok r) : r.listener = none := by
  unfold Registry.new at made
  split_ifs at made
  cases made
  rfl

theorem listener_foldl_receive (events : List HintEvent) (r : Registry) :
    (events.foldl receive r).listener = r.listener := by
  induction events generalizing r with
  | nil => rfl
  | cons e rest ih => exact (ih (r.receive e)).trans (r.listener_receive e)

theorem listener_dropMissing (r : Registry) (listed : List Host) :
    (r.dropMissing listed).listener = r.listener := by
  unfold dropMissing
  induction r.departed listed generalizing r with
  | nil => rfl
  | cons first rest ih => exact ih (r.drop first)

theorem listener_enrolAll (blank : Hint) (r : Registry) (listed : List Host) :
    (r.enrolAll blank listed).1.listener = r.listener := by
  induction listed generalizing r with
  | nil => rfl
  | cons first rest ih =>
    rw [enrolAll]
    split_ifs
    · exact ih (r.enrol blank first)
    · exact ih r

theorem listener_update (r : Registry) (listed : List Host) :
    (r.update listed).2.listener = r.listener := by
  have hdropped := r.listener_dropMissing listed
  unfold update
  cases Hint.new r.config.capacity r.config.recursions with
  | ok blank =>
    have henrolled := listener_enrolAll blank (r.dropMissing listed) listed
    dsimp only [reconcile]
    split_ifs
    · exact henrolled.trans hdropped
    · exact henrolled.trans hdropped
  | error abort =>
    dsimp only
    split
    · exact hdropped
    · exact hdropped

theorem listener_commit (r : Registry) (key : Key) (peers : List UInt32) :
    (r.commit key peers).1.listener = r.listener := by
  induction peers generalizing r with
  | nil => rfl
  | cons first rest ih =>
    rw [commit]
    split_ifs
    · exact ih _
    · exact ih r

theorem listener_broadcast {σ : Type} (dispatch : HintEvent → σ → Except Fault Unit × σ)
    (sending : Arrangement Shipment) (r : Registry) (world : σ) :
    (r.broadcast dispatch sending world).2.1.listener = r.listener := by
  rw [broadcast, ship_eq]
  exact (foldl_markSent_frame _ r).2.2.2

end Registry

namespace Network

variable {n n' : Network} {r s : Registry} {host other : Host} {serial number : Nat} {a : Action}

/-! ## What registries remember -/

/-- The host of a registry, and the number that it remembers of its listener. -/
def note? (n : Network) (serial : Nat) : Option (Host × Option Nat) :=
  n.registries[serial]?.map fun r => (r.host, r.listener)

/-- A registry of a host remembers the number of a listener. -/
def Remembers (n : Network) (host : Host) (serial : Nat) : Prop :=
  ∃ number, n.note? serial = some (host, some number)

/-- A registry remembers the number of a listener that the bus has dropped. -/
def Deaf (n : Network) (host : Host) (serial : Nat) : Prop :=
  ∃ number, n.note? serial = some (host, some number) ∧ (n.bus.of host)[number]? = none

/-- What the bus and the registries know of each other. -/
structure Numbered (n : Network) : Prop where
  /-- A registry that listens does so under its own host, and remembers the number. -/
  noted : ∀ (host : Host) (number serial : Nat),
    (n.bus.of host)[number]? = some (.registry serial) → n.note? serial = some (host, some number)
  /-- The number that a registry remembers is that of its own listener, or of none. -/
  own : ∀ (host : Host) (number serial : Nat), n.note? serial = some (host, some number) →
    (n.bus.of host)[number]? = none ∨ (n.bus.of host)[number]? = some (.registry serial)
  /-- The number that a registry remembers was given out. -/
  given : ∀ (host : Host) (number serial : Nat), n.note? serial = some (host, some number) →
    number ≤ n.bus.lastNumber

/-- A step by which no listener comes or goes. -/
structure SameListeners (n n' : Network) : Prop where
  /-- The registries remember what they did. -/
  note_eq : ∀ serial, n'.note? serial = n.note? serial
  /-- Every host has the listeners that it had. -/
  of_eq : ∀ host, n'.bus.of host = n.bus.of host
  /-- No number is given out. -/
  last_eq : n'.bus.lastNumber = n.bus.lastNumber

theorem SameListeners.refl (n : Network) : SameListeners n n := ⟨fun _ => rfl, fun _ => rfl, rfl⟩

theorem SameListeners.numbered (h : SameListeners n n') (w : n.Numbered) : n'.Numbered where
  noted host number serial hl := by
    rw [h.of_eq] at hl
    rw [h.note_eq]
    exact w.noted host number serial hl
  own host number serial hnote := by
    rw [h.note_eq] at hnote
    rw [h.of_eq]
    exact w.own host number serial hnote
  given host number serial hnote := by
    rw [h.note_eq] at hnote
    rw [h.last_eq]
    exact w.given host number serial hnote

/-! ## What a step does to listeners -/

/-- One registry of a host remembers something else, and the others what they did. -/
def Renoted (n n' : Network) (own : Nat) (host : Host) (remembered : Option Nat) : Prop :=
  ∀ serial, n'.note? serial = if own = serial then some (host, remembered) else n.note? serial

/-- Where a registry forgets its number, the others remember what they did. -/
theorem Renoted.forgets {own : Nat} (h : Renoted n n' own host none)
    (hnote : n'.note? serial = some (other, some number)) :
    own ≠ serial ∧ n.note? serial = some (other, some number) := by
  rw [h serial] at hnote
  by_cases hown : own = serial
  · rw [if_pos hown] at hnote
    cases hnote
  · rw [if_neg hown] at hnote
    exact ⟨hown, hnote⟩

/-- The host that leaves the bus. -/
def Action.parting : Action → Option Host
  | .leave host => some host
  | _ => none

/-- All that a step can do to the listeners of a bus. -/
inductive Change (n n' : Network) : Action → Prop where
  /-- No listener comes or goes. -/
  | quiet {a : Action} (stays : a.parting = none) (h : SameListeners n n') : Change n n' a
  /-- A host leaves with its listeners, and the registries remember what they did. -/
  | left (host : Host) (note_eq : ∀ serial, n'.note? serial = n.note? serial)
      (bus_eq : n'.bus = (n.bus.leave host).1) : Change n n' (.leave host)
  /-- A new registry remembers no listener. -/
  | opened {host : Host} {config : ClusterParams} (own : Nat) (fresh : n.note? own = none)
      (renoted : Renoted n n' own host none) (bus_eq : n'.bus = n.bus) :
      Change n n' (.opened host config)
  /-- A registry that remembers no listener gets one under the next number. -/
  | started {host : Host} {own : Nat} (silent : n.note? own = some (host, none))
      (renoted : Renoted n n' own host (some (n.bus.lastNumber + 1)))
      (bus_eq : n'.bus = (n.bus.register host (.registry own)).1) : Change n n' (.start host)
  /-- A registry stops the listener that it remembers, and forgets it. -/
  | stopped {host : Host} {own number : Nat} (before : n.note? own = some (host, some number))
      (renoted : Renoted n n' own host none)
      (bus_eq : n'.bus = (n.bus.deregister host number).1) : Change n n' (.stop host)

/-- Whatever acts for a host is a registry of the host. -/
theorem Owned.exists_registry (o : n.Owned) (hacting : n.acting[host]? = some serial) :
    ∃ r, n.registry? host = some r ∧ n.note? serial = some (host, r.listener) := by
  have howner := o.owner host serial hacting
  rw [Option.map_eq_some_iff] at howner
  obtain ⟨r, hr, rfl⟩ := howner
  exact ⟨r, registry?_eq_some_iff.2 ⟨serial, hacting, hr⟩, by rw [note?, hr, Option.map_some]⟩

/-- The registry that acts for a host is one of the host. -/
theorem Owned.note?_eq (o : n.Owned) (hr : n.registry? host = some r) :
    ∃ own, n.acting[host]? = some own ∧ n.note? own = some (host, r.listener) := by
  obtain ⟨own, hacting, hown⟩ := registry?_eq_some_iff.1 hr
  refine ⟨own, hacting, ?_⟩
  rw [note?, hown, Option.map_some, o.host_eq hr]

theorem note?_putRegistry {own : Nat} (hacting : n.acting[s.host]? = some own) :
    Renoted n (n.putRegistry s) own s.host s.listener := by
  intro serial
  rw [putRegistry, hacting, note?]
  dsimp only
  rw [Std.TreeMap.getElem?_insert]
  simp only [Std.LawfulEqCmp.compare_eq_iff_eq]
  split_ifs
  · rfl
  · rfl

/-- Events that are taken in change nothing that is remembered. -/
theorem Heard.note?_eq (h : Heard n n') (serial : Nat) : n'.note? serial = n.note? serial := by
  obtain ⟨events, hevents⟩ := h.taken serial
  rw [note?, note?, hevents, Option.map_map]
  refine congrArg (Option.map · _) (funext fun r => ?_)
  exact Prod.ext (foldl_receive_frame events r).1 (Registry.listener_foldl_receive events r)

theorem Heard.quiet (h : Heard n n') (hbus : n'.bus = n.bus) : SameListeners n n' :=
  ⟨h.note?_eq, fun host => by rw [hbus], by rw [hbus]⟩

/-- A registry that remembers what it did is put back. -/
theorem SameListeners.putRegistry (h : SameListeners n n') (own : Nat)
    (hacting : n'.acting[s.host]? = some own)
    (hnote : n.note? own = some (s.host, s.listener)) : SameListeners n (n'.putRegistry s) where
  note_eq serial := by
    rw [note?_putRegistry hacting serial]
    split_ifs with hown
    · rw [← hown, hnote]
    · exact h.note_eq serial
  of_eq host := by
    rw [bus_putRegistry]
    exact h.of_eq host
  last_eq := by
    rw [bus_putRegistry]
    exact h.last_eq

theorem quiet_update (o : n.Owned) (host : Host) (visit : Arrangement Host) :
    SameListeners n (n.update host visit).2 := by
  cases hr : n.registry? host with
  | none =>
    rw [update, hr]
    exact .refl n
  | some r =>
    obtain ⟨own, hacting, hnote⟩ := o.note?_eq hr
    rw [update, hr]
    cases n.current host .store with
    | error fault => exact .refl n
    | ok listed =>
      have hhost := (Registry.update_frame r (visit.order listed)).1.trans (o.host_eq hr)
      refine (SameListeners.refl n).putRegistry own ?_ ?_
      · rw [hhost]
        exact hacting
      · rw [hhost, r.listener_update]
        exact hnote

theorem quiet_commit (o : n.Owned) (host : Host) (key : Key) (peers : List UInt32) :
    SameListeners n (n.commit host key peers).2 := by
  cases hr : n.registry? host with
  | none =>
    rw [commit, hr]
    exact .refl n
  | some r =>
    obtain ⟨own, hacting, hnote⟩ := o.note?_eq hr
    have hhost := (Registry.commit_frame r key peers).1.trans (o.host_eq hr)
    rw [commit, hr]
    refine (SameListeners.refl n).putRegistry own ?_ ?_
    · rw [hhost]
      exact hacting
    · rw [hhost, r.listener_commit]
      exact hnote

theorem quiet_broadcast (o : n.Owned) (host : Host) (sending : Arrangement Shipment) :
    SameListeners n (n.broadcast host sending).2 := by
  cases hr : n.registry? host with
  | none =>
    rw [broadcast, hr]
    exact .refl n
  | some r =>
    obtain ⟨own, hacting, hnote⟩ := o.note?_eq hr
    obtain ⟨hheard, hbus⟩ := heard_ship host (sending.order r.shipments) r n
    have hhost := (Registry.broadcast_frame (dispatch host) sending r n).1.trans (o.host_eq hr)
    rw [broadcast, hr]
    refine (hheard.quiet hbus).putRegistry own ?_ ?_
    · rw [hheard.acting_eq, hhost]
      exact hacting
    · rw [hhost, r.listener_broadcast]
      exact hnote

/-- A step of a registry that does nothing. -/
theorem Change.idle (stays : a.parting = none) (idle : n.step a = n) :
    Change n (n.step a) a := by
  rw [idle]
  exact .quiet stays (.refl n)

theorem change_start (o : n.Owned) (host : Host) :
    Change n (n.step (.start host)) (.start host) := by
  cases hr : n.registry? host with
  | none => exact .idle rfl (step_of_no_registry rfl hr).1
  | some r =>
    obtain ⟨own, hacting, hnote⟩ := o.note?_eq hr
    cases hlistener : r.listener with
    | some number => exact .idle rfl (start_of_some hr hlistener)
    | none =>
      rw [hlistener] at hnote
      rw [step, start_of_none hacting hr hlistener]
      refine .started hnote ?_ (bus_putRegistry _ _)
      have hhost := o.host_eq hr
      subst hhost
      exact note?_putRegistry hacting

theorem change_stop (o : n.Owned) (host : Host) :
    Change n (n.step (.stop host)) (.stop host) := by
  cases hr : n.registry? host with
  | none => exact .idle rfl (step_of_no_registry rfl hr).1
  | some r =>
    obtain ⟨own, hacting, hnote⟩ := o.note?_eq hr
    cases hlistener : r.listener with
    | none => exact .idle rfl (stop_of_none hr hlistener)
    | some number =>
      rw [hlistener] at hnote
      rw [step, stop_of_some hr hlistener]
      refine .stopped hnote ?_ (bus_putRegistry _ _)
      have hhost := o.host_eq hr
      subst hhost
      exact note?_putRegistry hacting

theorem change_opened (o : n.Owned) (host : Host) (config : ClusterParams) :
    Change n (n.step (.opened host config)) (.opened host config) := by
  cases hmade : n.openRegistry host config with
  | error abort => exact .idle rfl (by rw [step, hmade])
  | ok n' =>
    have hstep : n.step (.opened host config) = n' := by rw [step, hmade]
    obtain ⟨r, hr, rfl⟩ := openRegistry_eq hmade
    rw [hstep]
    refine .opened n.registries.size ?_ (fun serial => ?_) rfl
    · rw [note?, o.fresh _ (Nat.le_refl _)]
      rfl
    · rw [note?]
      dsimp only
      rw [Std.TreeMap.getElem?_insert]
      simp only [Std.LawfulEqCmp.compare_eq_iff_eq]
      split_ifs
      · rw [Option.map_some, (new_spec hr).1, Registry.listener_new hr]
      · rfl

/-- Every step changes the listeners of a bus in one of the ways above. -/
theorem Owned.change (o : n.Owned) (a : Action) : Change n (n.step a) a := by
  cases a with
  | join host role =>
    exact .quiet rfl ⟨fun _ => rfl, of_join n.bus host role, rfl⟩
  | leave host => exact .left host (fun _ => rfl) rfl
  | fail host failing => exact .quiet rfl ⟨fun _ => rfl, fun _ => rfl, rfl⟩
  | opened host config => exact change_opened o host config
  | adopt host serial =>
    refine .quiet rfl ?_
    rw [Network.step]
    split_ifs
    · exact ⟨fun _ => rfl, fun _ => rfl, rfl⟩
    · exact .refl n
  | start host => exact change_start o host
  | stop host => exact change_stop o host
  | update host visit => exact .quiet rfl (quiet_update o host visit)
  | commit host key peers => exact .quiet rfl (quiet_commit o host key peers)
  | broadcast host sending => exact .quiet rfl (quiet_broadcast o host sending)
  | hand e listener =>
    exact .quiet rfl ((heard_hand n e listener).quiet (foldl_hand_frame e [listener] n).1)

/-! ## What holds after every run -/

/-- Every change keeps what the bus and the registries know of each other. -/
theorem Numbered.change (w : n.Numbered) (c : Change n n' a) : n'.Numbered := by
  cases c with
  | quiet stays h => exact h.numbered w
  | left host note_eq bus_eq =>
    constructor
    · intro other number serial hl
      rw [bus_eq, Bus.getElem?_of_leave] at hl
      split_ifs at hl
      rw [note_eq]
      exact w.noted other number serial hl
    · intro other number serial hnote
      rw [note_eq] at hnote
      rw [bus_eq, Bus.getElem?_of_leave]
      split_ifs
      · exact Or.inl rfl
      · exact w.own other number serial hnote
    · intro other number serial hnote
      rw [note_eq] at hnote
      rw [bus_eq]
      exact w.given other number serial hnote
  | @opened host config own fresh renoted bus_eq =>
    constructor
    · intro other number serial hl
      rw [bus_eq] at hl
      have hnote := w.noted other number serial hl
      rw [renoted, if_neg]
      · exact hnote
      · rintro rfl
        rw [fresh] at hnote
        cases hnote
    · intro other number serial hnote
      rw [bus_eq]
      exact w.own other number serial (renoted.forgets hnote).2
    · intro other number serial hnote
      rw [bus_eq]
      exact w.given other number serial (renoted.forgets hnote).2
  | @started host own silent renoted bus_eq =>
    constructor
    · intro other number serial hl
      rw [bus_eq, getElem?_of_register] at hl
      rw [renoted]
      split_ifs at hl with hnew
      · obtain ⟨rfl, rfl⟩ := hnew
        cases hl
        exact if_pos rfl
      · have hnote := w.noted other number serial hl
        rw [if_neg]
        · exact hnote
        · rintro rfl
          rw [silent] at hnote
          cases hnote
    · intro other number serial hnote
      rw [renoted] at hnote
      rw [bus_eq, getElem?_of_register]
      split_ifs at hnote with hown
      · cases hnote
        exact Or.inr (by rw [if_pos ⟨rfl, rfl⟩, hown])
      · have hgiven := w.given other number serial hnote
        rw [if_neg (by omega)]
        exact w.own other number serial hnote
    · intro other number serial hnote
      have hlast : n'.bus.lastNumber = n.bus.lastNumber + 1 := by
        rw [bus_eq]
        rfl
      rw [renoted] at hnote
      rw [hlast]
      split_ifs at hnote
      · cases hnote
        exact Nat.le_refl _
      · exact Nat.le_succ_of_le (w.given other number serial hnote)
  | @stopped host own stop before renoted bus_eq =>
    constructor
    · intro other number serial hl
      rw [bus_eq, Bus.getElem?_of_deregister] at hl
      split_ifs at hl with hgone
      have hnote := w.noted other number serial hl
      rw [renoted, if_neg]
      · exact hnote
      · rintro rfl
        rw [before] at hnote
        cases hnote
        exact hgone ⟨rfl, rfl⟩
    · intro other number serial hnote
      rw [bus_eq, Bus.getElem?_of_deregister]
      split_ifs
      · exact Or.inl rfl
      · exact w.own other number serial (renoted.forgets hnote).2
    · intro other number serial hnote
      have hlast : n'.bus.lastNumber = n.bus.lastNumber := by
        rw [bus_eq, Bus.deregister]
        split_ifs <;> rfl
      rw [hlast]
      exact w.given other number serial (renoted.forgets hnote).2

theorem numbered_empty : Network.empty.Numbered := by
  have hsilent (host : Host) (number : Nat) : (Network.empty.bus.of host)[number]? = none := by
    rw [Bus.of, show Network.empty.bus.listeners[host]? = none from Std.TreeMap.getElem?_emptyc]
    exact Std.TreeMap.getElem?_emptyc
  have hnobody (serial : Nat) : Network.empty.note? serial = none := by
    rw [note?, show Network.empty.registries[serial]? = none from Std.TreeMap.getElem?_emptyc]
    rfl
  refine ⟨fun host number serial hl => ?_, fun host number serial hnote => ?_,
    fun host number serial hnote => ?_⟩
  · rw [hsilent] at hl
    cases hl
  · rw [hnobody] at hnote
    cases hnote
  · rw [hnobody] at hnote
    cases hnote

theorem numbered_after (actions : ℕ → Action) (k : ℕ) : (after actions k).Numbered := by
  induction k with
  | zero => exact numbered_empty
  | succ k ih => exact ih.change ((owned_after actions k).change (actions k))

/-! ## When a registry is deaf -/

theorem Deaf.remembers (h : n.Deaf host serial) : n.Remembers host serial := by
  obtain ⟨number, hnote, -⟩ := h
  exact ⟨number, hnote⟩

/-- A step keeps a registry deaf while it remembers its number, and a registry becomes deaf
when its host leaves. -/
theorem Numbered.deaf_change (w : n.Numbered) (c : Change n n' a) (host : Host) (serial : Nat) :
    n'.Deaf host serial ↔
      n'.Remembers host serial ∧ (n.Deaf host serial ∨ a = .leave host) := by
  unfold Deaf Remembers
  cases c with
  | quiet stays h =>
    rw [h.note_eq, h.of_eq]
    constructor
    · rintro ⟨number, hnote, hgone⟩
      exact ⟨⟨number, hnote⟩, Or.inl ⟨number, hnote, hgone⟩⟩
    · rintro ⟨-, hdeaf | rfl⟩
      · exact hdeaf
      · cases stays
  | left other note_eq bus_eq =>
    rw [note_eq, bus_eq, Action.leave.injEq]
    simp only [Bus.getElem?_of_leave]
    by_cases hhost : other = host
    · simp [hhost]
    · simp only [hhost, or_false]
      exact ⟨fun ⟨number, hdeaf⟩ => ⟨⟨number, hdeaf.1⟩, number, hdeaf⟩, And.right⟩
  | @opened other config own fresh renoted bus_eq =>
    rw [bus_eq]
    constructor
    · rintro ⟨number, hnote, hgone⟩
      exact ⟨⟨number, hnote⟩, Or.inl ⟨number, (renoted.forgets hnote).2, hgone⟩⟩
    · rintro ⟨⟨number, hnote⟩, ⟨old, hold, hgone⟩ | hleave⟩
      · rw [(renoted.forgets hnote).2] at hold
        cases hold
        exact ⟨number, hnote, hgone⟩
      · cases hleave
  | @started other own silent renoted bus_eq =>
    rw [renoted, bus_eq]
    simp only [getElem?_of_register, reduceCtorEq, or_false]
    by_cases hown : own = serial
    · -- the registry has just got its listener
      subst hown
      constructor
      · rintro ⟨number, hnote, hgone⟩
        rw [if_pos rfl] at hnote
        cases hnote
        rw [if_pos ⟨rfl, rfl⟩] at hgone
        cases hgone
      · rintro ⟨-, number, hnote, -⟩
        rw [silent] at hnote
        cases hnote
    · rw [if_neg hown]
      have hold (number : Nat) (hnote : n.note? serial = some (host, some number)) :
          ¬ (other = host ∧ n.bus.lastNumber + 1 = number) := by
        have hgiven := w.given host number serial hnote
        omega
      constructor
      · rintro ⟨number, hnote, hgone⟩
        rw [if_neg (hold number hnote)] at hgone
        exact ⟨⟨number, hnote⟩, number, hnote, hgone⟩
      · rintro ⟨-, number, hnote, hgone⟩
        refine ⟨number, hnote, ?_⟩
        rw [if_neg (hold number hnote)]
        exact hgone
  | @stopped other own stop before renoted bus_eq =>
    rw [bus_eq]
    simp only [Bus.getElem?_of_deregister, reduceCtorEq, or_false]
    constructor
    · rintro ⟨number, hnote, hgone⟩
      obtain ⟨hown, hnote'⟩ := renoted.forgets hnote
      refine ⟨⟨number, hnote⟩, number, hnote', ?_⟩
      split_ifs at hgone with hsame
      · -- two registries that remember one number have no listener under it
        obtain ⟨rfl, rfl⟩ := hsame
        rcases w.own _ _ _ hnote' with hnone | hserial
        · exact hnone
        · rcases w.own _ _ _ before with hnone | hother
          · exact hnone
          · rw [hserial, Option.some_inj, Listener.registry.injEq] at hother
            exact absurd hother.symm hown
      · exact hgone
    · rintro ⟨⟨number, hnote⟩, old, hold, hgone⟩
      have hnote' := (renoted.forgets hnote).2
      rw [hold] at hnote'
      cases hnote'
      refine ⟨number, hnote, ?_⟩
      split_ifs
      · rfl
      · exact hgone

/-- The host of a registry has left at a step since which the registry remembers a number. -/
def LeftSince (actions : ℕ → Action) (host : Host) (serial k : Nat) : Prop :=
  ∃ j < k, actions j = .leave host ∧
    ∀ i, j < i → i ≤ k → (after actions i).Remembers host serial

theorem leftSince_succ (actions : ℕ → Action) (host : Host) (serial k : Nat) :
    LeftSince actions host serial (k + 1) ↔
      (after actions (k + 1)).Remembers host serial ∧
        (LeftSince actions host serial k ∨ actions k = .leave host) := by
  constructor
  · rintro ⟨j, hj, hleave, hsince⟩
    refine ⟨hsince (k + 1) hj (Nat.le_refl _), ?_⟩
    rcases Nat.lt_succ_iff_lt_or_eq.1 hj with hlt | rfl
    · exact Or.inl ⟨j, hlt, hleave, fun i hji hik => hsince i hji (Nat.le_succ_of_le hik)⟩
    · exact Or.inr hleave
  · rintro ⟨hlast, ⟨j, hj, hleave, hsince⟩ | hleave⟩
    · refine ⟨j, Nat.lt_succ_of_lt hj, hleave, fun i hji hik => ?_⟩
      rcases Nat.le_succ_iff.1 hik with hle | rfl
      · exact hsince i hji hle
      · exact hlast
    · refine ⟨k, Nat.lt_succ_self k, hleave, fun i hki hik => ?_⟩
      obtain rfl : i = k + 1 := by omega
      exact hlast

/-- After every run, a registry is deaf exactly if its host has left since it started. -/
theorem deaf_after (actions : ℕ → Action) (host : Host) (serial k : Nat) :
    (after actions k).Deaf host serial ↔ LeftSince actions host serial k := by
  induction k with
  | zero =>
    constructor
    · rintro ⟨number, hnote, -⟩
      cases hnote
    · rintro ⟨j, hj, -⟩
      exact absurd hj (Nat.not_lt_zero j)
  | succ k ih =>
    have hchange := (owned_after actions k).change (actions k)
    rw [leftSince_succ, ← ih]
    exact (numbered_after actions k).deaf_change hchange host serial

/-! ## What a registry is handed -/

/-- A registry has one listener, under its host, and is handed once each event that any
other host sends. -/
structure HearsOnce (n : Network) (host : Host) (serial : Nat) : Prop where
  /-- There is one listener. -/
  one_handler : ∃ number, n.bus.handlers serial = [(host, number)]
  /-- An event from another host is taken in once. -/
  deliver_eq : ∀ (sender : Host) (e : HintEvent), sender ≠ host →
    (n.deliver sender e).registries[serial]? = n.registries[serial]?.map (·.receive e)

/-- A registry has no listener, and no event of any host is handed to it. -/
structure HearsNothing (n : Network) (serial : Nat) : Prop where
  /-- There is no listener. -/
  no_handler : n.bus.handlers serial = []
  /-- No event changes it. -/
  deliver_eq : ∀ (sender : Host) (e : HintEvent),
    (n.deliver sender e).registries[serial]? = n.registries[serial]?

theorem HearsOnce.not_hearsNothing (h : n.HearsOnce host serial) : ¬ n.HearsNothing serial := by
  intro hnothing
  obtain ⟨number, hone⟩ := h.one_handler
  rw [hnothing.no_handler] at hone
  cases hone

/-- A registry whose listener is on the bus hears everything once. -/
theorem Numbered.hearsOnce (w : n.Numbered)
    (hl : (n.bus.of host)[number]? = some (.registry serial)) : n.HearsOnce host serial := by
  have hnote := w.noted host number serial hl
  have hhandlers : n.bus.handlers serial = [(host, number)] := by
    refine List.perm_singleton.1 ((List.perm_ext_iff_of_nodup (n.bus.nodup_handlers serial)
      (List.nodup_singleton _)).2 ?_)
    rintro ⟨other, k⟩
    rw [Bus.mem_handlers, List.mem_singleton]
    constructor
    · intro hother
      have hsame := w.noted other k serial hother
      rw [hnote] at hsame
      cases hsame
      rfl
    · intro hsame
      cases hsame
      exact hl
  refine ⟨⟨number, hhandlers⟩, fun sender e hne => ?_⟩
  rw [deliver, getElem?_foldl_hand, Bus.copies_audience, hhandlers, List.countP_singleton,
    decide_eq_true (Ne.symm hne)]
  rfl

theorem hearsNothing (hnone : n.bus.handlers serial = []) : n.HearsNothing serial := by
  refine ⟨hnone, fun sender e => ?_⟩
  rw [deliver, getElem?_foldl_hand, Bus.copies_audience, hnone]
  exact Option.map_id'

/-- A registry that does not remember a listener has none. -/
theorem Numbered.hearsNothing_of_forgot (w : n.Numbered)
    (hforgot : n.note? serial = some (host, none)) : n.HearsNothing serial := by
  refine hearsNothing (List.eq_nil_iff_forall_not_mem.2 ?_)
  rintro ⟨other, k⟩ hk
  have hnote := w.noted other k serial (Bus.mem_handlers.1 hk)
  rw [hforgot] at hnote
  cases hnote

/-- A deaf registry has no listener under any host. -/
theorem Numbered.hearsNothing_of_deaf (w : n.Numbered) (hdeaf : n.Deaf host serial) :
    n.HearsNothing serial := by
  obtain ⟨number, hnote, hgone⟩ := hdeaf
  refine hearsNothing (List.eq_nil_iff_forall_not_mem.2 ?_)
  rintro ⟨other, k⟩ hk
  rw [Bus.mem_handlers] at hk
  have hsame := w.noted other k serial hk
  rw [hnote] at hsame
  cases hsame
  rw [hgone] at hk
  cases hk

/-! ## Starting and stopping -/

/-- A registry that is not deaf hears everything once after it starts, and a deaf one
nothing. -/
theorem Owned.hears_start (o : n.Owned) (w : n.Numbered)
    (hacting : n.acting[host]? = some serial) :
    (¬ n.Deaf host serial → (n.start host).HearsOnce host serial) ∧
      (n.Deaf host serial → (n.start host).HearsNothing serial) := by
  obtain ⟨r, hr, hnote⟩ := o.exists_registry hacting
  cases hlistener : r.listener with
  | some number =>
    rw [hlistener] at hnote
    rw [start_of_some hr hlistener]
    refine ⟨fun hhears => ?_, w.hearsNothing_of_deaf⟩
    rcases w.own host number serial hnote with hgone | hl
    · exact absurd ⟨number, hnote, hgone⟩ hhears
    · exact w.hearsOnce hl
  | none =>
    rw [hlistener] at hnote
    have hw' : (n.start host).Numbered := w.change (o.change (.start host))
    have hl : ((n.start host).bus.of host)[n.bus.lastNumber + 1]? = some (.registry serial) := by
      rw [start_of_none hacting hr hlistener, bus_putRegistry, getElem?_of_register]
      exact if_pos ⟨rfl, rfl⟩
    refine ⟨fun _ => hw'.hearsOnce hl, fun hdeaf => ?_⟩
    obtain ⟨number, hremembers⟩ := hdeaf.remembers
    rw [hnote] at hremembers
    cases hremembers

/-- The registry that acts for a host remembers no listener after it stops. -/
theorem Owned.note?_stop (o : n.Owned) (hacting : n.acting[host]? = some serial) :
    (n.stop host).note? serial = some (host, none) ∧
      (n.stop host).acting[host]? = some serial := by
  obtain ⟨r, hr, hnote⟩ := o.exists_registry hacting
  cases hlistener : r.listener with
  | none =>
    rw [stop_of_none hr hlistener]
    rw [hlistener] at hnote
    exact ⟨hnote, hacting⟩
  | some number =>
    have hhost := o.host_eq hr
    subst hhost
    rw [stop_of_some hr hlistener, acting_putRegistry]
    refine ⟨(note?_putRegistry ?_ serial).trans (if_pos rfl), hacting⟩
    exact hacting

/-- After every run, a registry that starts has one listener and is handed the events of
other hosts once each, exactly if its host has not left since it began to remember a
listener; otherwise it has none and is handed nothing. It has none after it stops, and may
start anew then. -/
theorem hears_after_start (actions : ℕ → Action) (k : ℕ) (host : Host) (serial : Nat)
    (hacting : (after actions k).acting[host]? = some serial) :
    (((after actions k).start host).HearsOnce host serial ↔
        ¬ LeftSince actions host serial k) ∧
      (((after actions k).start host).HearsNothing serial ↔ LeftSince actions host serial k) ∧
      ((after actions k).stop host).HearsNothing serial ∧
      (((after actions k).stop host).start host).HearsOnce host serial := by
  have o := owned_after actions k
  have w := numbered_after actions k
  obtain ⟨hhears, hdeaf⟩ := o.hears_start w hacting
  rw [deaf_after] at hhears hdeaf
  obtain ⟨hforgot, hacting'⟩ := o.note?_stop hacting
  have o' : ((after actions k).stop host).Owned := o.step (.stop host)
  have w' : ((after actions k).stop host).Numbered := w.change (o.change (.stop host))
  refine ⟨⟨fun hone hleft => hone.not_hearsNothing (hdeaf hleft), hhears⟩,
    ⟨fun hnothing => ?_, hdeaf⟩, w'.hearsNothing_of_forgot hforgot, ?_⟩
  · by_contra hstayed
    exact (hhears hstayed).not_hearsNothing hnothing
  · refine (o'.hears_start w' hacting').1 fun hstopped => ?_
    obtain ⟨number, hremembers⟩ := hstopped.remembers
    rw [hforgot] at hremembers
    cases hremembers

/-- A host joins, its registry starts, and the host leaves and joins again. -/
def rejoining (k : ℕ) : Action :=
  [.join "a" .store, .opened "a" ⟨8, 64, 3⟩, .start "a", .leave "a", .join "a" .store].getD k
    (.start "a")

/-- The registry hears before its host leaves, and is deaf when the host is back. -/
theorem hears_until_leaving :
    ((after rejoining 2).start "a").HearsOnce "a" 0 ∧
      ((after rejoining 5).start "a").HearsNothing 0 := by
  have hbefore : ¬ LeftSince rejoining "a" 0 2 := by
    rintro ⟨j, hj, hleave, -⟩
    obtain rfl | rfl : j = 0 ∨ j = 1 := by omega
    · cases hleave
    · cases hleave
  have hafter : LeftSince rejoining "a" 0 5 := by
    refine ⟨3, by decide, rfl, fun i hi hi' => ⟨1, ?_⟩⟩
    obtain rfl | rfl : i = 4 ∨ i = 5 := by omega
    · decide +kernel
    · decide +kernel
  exact ⟨(hears_after_start rejoining 2 "a" 0 (by decide +kernel)).1.2 hbefore,
    (hears_after_start rejoining 5 "a" 0 (by decide +kernel)).2.1.2 hafter⟩

/-- So a registry that starts as the registry of a member does not always have a listener. -/
theorem no_handler_after_rejoining :
    ¬ ∀ (actions : ℕ → Action) (k : ℕ) (host : Host) (serial : Nat),
      (after actions k).acting[host]? = some serial →
      (after actions k).bus.members.contains host = true →
      (((after actions k).start host).bus.handlers serial).length = 1 := by
  intro hlistens
  have hone := hlistens rejoining 5 "a" 0 (by decide +kernel) (by decide +kernel)
  revert hone
  decide +kernel

end Network

end QuorumStore
