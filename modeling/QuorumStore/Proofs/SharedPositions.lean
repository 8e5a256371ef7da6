import Mathlib.Data.Set.Pairwise.Basic
import QuorumStore.Proofs.Owners

/-!
# Placement and the order of arrival

The hosts for a key should follow from the set of hosts alone. They do as long as no
two hosts that ever come have a position in common: a host on the ring owns the positions
that no other has, so each then owns all of its own, whatever came and went before. A
position in common belongs to whoever came first, and the text that it is the digest of
is a key too, so then the order of two arrivals already shows. A position is the digest
of a host's name followed by a number, and hosts as plain as `a` and `a1` share one.
-/

namespace QuorumStore.Placement.Ring

variable {factor : Nat} {h : 0 < factor} {ring ring' : Ring} {pool : Set Host}

/-- A change of the hosts on a ring. -/
inductive Change where
  /-- A host comes. -/
  | add (host : Host)
  /-- A host goes. -/
  | remove (host : Host)
  deriving DecidableEq, Repr

namespace Change

/-- The host that comes or goes. -/
def host : Change → Host
  | add host => host
  | remove host => host

/-- The ring after a change. -/
def onRing (ring : Ring) : Change → Ring
  | add host => (ring.add host).1
  | remove host => (ring.remove host).1

end Change

/-- The ring after changes, from the one without hosts. -/
def after (factor : Nat) (h : 0 < factor) (changes : List Change) : Ring :=
  changes.foldl Change.onRing (empty factor h)

/-- No two hosts of the pool have a position of the ring in common. -/
def Apart (ring : Ring) (pool : Set Host) : Prop :=
  pool.Pairwise fun a b => (ring.positions a).Disjoint (ring.positions b)

/-! ## Hosts added without a collision -/

theorem Sound.onRing (hs : ring.Sound) (change : Change) : (change.onRing ring).Sound := by
  cases change with
  | add host => exact hs.add host
  | remove host => exact hs.remove host

theorem Sound.foldl_onRing (hs : ring.Sound) (changes : List Change) :
    (changes.foldl Change.onRing ring).Sound := by
  induction changes generalizing ring with
  | nil => exact hs
  | cons change rest ih => exact ih (hs.onRing change)

theorem sound_after (changes : List Change) : (after factor h changes).Sound :=
  (sound_empty factor h).foldl_onRing changes

/-- A host keeps all its positions as long as it stays. -/
theorem Whole.foldl_onRing {host : Host} (hwhole : ring.Whole host) (hs : ring.Sound)
    {changes : List Change} (hstays : Change.remove host ∉ changes) :
    (changes.foldl Change.onRing ring).Whole host := by
  induction changes generalizing ring with
  | nil => exact hwhole
  | cons change rest ih =>
    rw [List.mem_cons, not_or] at hstays
    refine ih ?_ (hs.onRing change) hstays.2
    cases change with
    | add other => exact hwhole.add hs other
    | remove other => exact hwhole.remove hs fun heq => hstays.1 (heq ▸ rfl)

/-- The host was added without a collision, whatever the ring was like before, and was not
removed since. -/
def FreelyAdded (factor : Nat) (h : 0 < factor) (changes : List Change) (host : Host) : Prop :=
  ∃ earlier later, changes = earlier ++ .add host :: later ∧
    ((after factor h earlier).add host).2 = true ∧ Change.remove host ∉ later

/-- Such a host owns all its positions. -/
theorem FreelyAdded.whole {changes : List Change} {host : Host}
    (hadded : FreelyAdded factor h changes host) : (after factor h changes).Whole host := by
  obtain ⟨earlier, later, rfl, hall, hstays⟩ := hadded
  have hs : (after factor h earlier).Sound := sound_after earlier
  rw [after, List.foldl_append, List.foldl_cons]
  exact (whole_of_add hs hall).foldl_onRing (hs.add host) hstays

/-! ## Exclusive positions -/

/-- A position of a host that no other host of the pool has. -/
def Exclusive (ring : Ring) (pool : Set Host) (host : Host) (p : Int) : Prop :=
  p ∈ ring.positions host ∧ ∀ other ∈ pool, other ≠ host → p ∉ ring.positions other

theorem Exclusive.congr {host : Host} {p : Int} (hpositions : ring.positions = ring'.positions) :
    ring.Exclusive pool host p ↔ ring'.Exclusive pool host p := by
  rw [Exclusive, Exclusive, hpositions]

/-- Where hosts are apart, all their positions are exclusive. -/
theorem Apart.exclusive (hapart : ring.Apart pool) {host : Host} (hin : host ∈ pool) {p : Int}
    (hp : p ∈ ring.positions host) : ring.Exclusive pool host p :=
  ⟨hp, fun _ hother hne hmem => hapart hother hin hne hmem hp⟩

/-- The hosts on the ring are from a pool, and each owns the positions that no other host
of the pool has. -/
structure Exclusives (pool : Set Host) (ring : Ring) : Prop where
  /-- The ring is sound. -/
  sound : ring.Sound
  /-- The hosts are from the pool. -/
  within : ∀ host ∈ ring.members, host ∈ pool
  /-- They own their exclusive positions. -/
  own : ∀ host ∈ ring.members, ∀ p, ring.Exclusive pool host p → (p, host) ∈ ring.index.entries

theorem exclusives_empty (pool : Set Host) : (empty factor h).Exclusives pool where
  sound := sound_empty factor h
  within _ hm := absurd hm Std.TreeSet.not_mem_emptyc
  own _ hm := absurd hm Std.TreeSet.not_mem_emptyc

namespace Exclusives

/-- A host that comes finds its exclusive positions free. -/
theorem add (hx : ring.Exclusives pool) {host : Host} (hin : host ∈ pool) :
    (ring.add host).1.Exclusives pool := by
  refine ⟨hx.sound.add host, fun other hm => ?_, fun other hm p hp => ?_⟩
  · rcases mem_members_add.1 hm with rfl | hm
    · exact hin
    · exact hx.within other hm
  · rw [Exclusive.congr (funext (positions_add host))] at hp
    by_cases hhost : host ∈ ring.members
    · rw [add_of_mem hhost] at hm ⊢
      exact hx.own other hm p hp
    · refine (mem_entries_add hx.sound hhost).2 ?_
      by_cases hold : other ∈ ring.members
      · exact Or.inl (hx.own other hold p hp)
      · obtain rfl : other = host := (mem_members_add.1 hm).resolve_right hold
        refine Or.inr ⟨hp.1, rfl, fun y hy hkey => ?_⟩
        have hmember := hx.sound.member y hy
        have hposition := hx.sound.position y hy
        rw [hkey] at hposition
        exact hp.2 y.2 (hx.within y.2 hmember) (fun heq => hold (heq ▸ hmember)) hposition

theorem remove (hx : ring.Exclusives pool) (host : Host) :
    (ring.remove host).1.Exclusives pool where
  sound := hx.sound.remove host
  within other hm := hx.within other (mem_members_remove.1 hm).2
  own other hm p hp := by
    rw [Exclusive.congr (funext (positions_remove host))] at hp
    obtain ⟨hne, hm⟩ := mem_members_remove.1 hm
    exact (mem_entries_remove hx.sound host).2 ⟨hx.own other hm p hp, hne⟩

end Exclusives

/-! ## Hosts apart -/

/-- The hosts on the ring are from a pool, and each owns all its positions. -/
structure Complete (pool : Set Host) (ring : Ring) : Prop where
  /-- The ring is sound. -/
  sound : ring.Sound
  /-- The hosts are from the pool. -/
  within : ∀ host ∈ ring.members, host ∈ pool
  /-- They own all their positions. -/
  whole : ∀ host ∈ ring.members, ring.Whole host

/-- Where hosts are apart, those that own their exclusive positions own all. -/
theorem Exclusives.complete (hx : ring.Exclusives pool) (hapart : ring.Apart pool) :
    ring.Complete pool where
  sound := hx.sound
  within := hx.within
  whole host hm p hp := hx.own host hm p (hapart.exclusive (hx.within host hm) hp)

namespace Complete

/-- The entries are the positions of the hosts. -/
theorem mem_entries_iff (hc : ring.Complete pool) {e : Int × Host} :
    e ∈ ring.index.entries ↔ e.2 ∈ ring.members ∧ e.1 ∈ ring.positions e.2 :=
  ⟨fun he => ⟨hc.sound.member e he, hc.sound.position e he⟩,
    fun ⟨hm, hp⟩ => hc.whole e.2 hm e.1 hp⟩

/-- The hosts for a key follow from the set of hosts. -/
theorem nearest_eq (hc : ring.Complete pool) (hc' : ring'.Complete pool)
    (hpositions : ring.positions = ring'.positions) (hhosts : ring.hosts = ring'.hosts)
    (key : Key) (n : Nat) : ring.nearest key n = ring'.nearest key n := by
  have hmembers (host : Host) : host ∈ ring.members ↔ host ∈ ring'.members := by
    rw [← mem_hosts_iff, hhosts, mem_hosts_iff]
  have hentries : ring.index.entries = ring'.index.entries :=
    hc.sound.index.entries_eq hc'.sound.index.pairwise_entries fun e => by
      rw [hc.mem_entries_iff, hc'.mem_entries_iff, hmembers, hpositions]
  rw [nearest, nearest, hc.sound.index.clockwise_eq, hc'.sound.index.clockwise_eq, Index.around,
    Index.around, hentries]

end Complete

/-! ## Whole histories -/

theorem positions_onRing (ring : Ring) (change : Change) :
    (change.onRing ring).positions = ring.positions := by
  funext host
  cases change with
  | add other => exact positions_add other host
  | remove other => exact positions_remove other host

theorem positions_after (changes : List Change) :
    (after factor h changes).positions = (empty factor h).positions := by
  induction changes using List.reverseRecOn with
  | nil => rfl
  | append_singleton changes change ih =>
    rw [after, List.foldl_append]
    exact (positions_onRing _ change).trans ih

/-- Whatever hosts of a pool come and go, each owns its exclusive positions. -/
theorem exclusives_after {changes : List Change} (hpool : ∀ change ∈ changes, change.host ∈ pool) :
    (after factor h changes).Exclusives pool := by
  induction changes using List.reverseRecOn with
  | nil => exact exclusives_empty pool
  | append_singleton changes change ih =>
    have hx := ih fun c hm => hpool c (List.mem_append_left _ hm)
    have hin := hpool change (List.mem_append_right _ (List.mem_singleton_self _))
    rw [after, List.foldl_append]
    cases change with
    | add host => exact hx.add hin
    | remove host => exact hx.remove host

/-- Where all hosts that come are apart, those on the ring own all their positions. -/
theorem complete_after (hapart : (empty factor h).Apart pool) {changes : List Change}
    (hpool : ∀ change ∈ changes, change.host ∈ pool) : (after factor h changes).Complete pool := by
  refine (exclusives_after hpool).complete ?_
  rwa [Apart, positions_after]

/-! ## A position in common -/

/-- A key at a position goes to the host that owns the position. -/
theorem Sound.nearest_one (hs : ring.Sound) {key : Key} {host : Host}
    (howner : (Int.ofNat (Murmur.textDigest key).toNat, host) ∈ ring.index.entries) :
    ring.nearest key 1 = [host] :=
  hs.index.clockwise_one howner

/-- The first of two hosts owns all its positions, also those that the second has too. -/
theorem whole_of_first (host other : Host) :
    (after factor h [.add host, .add other]).Whole host := by
  have hfirst : ((empty factor h).add host).1.Whole host := by
    intro p hp
    rw [positions_add] at hp
    exact (mem_entries_add (sound_empty factor h) Std.TreeSet.not_mem_emptyc).2
      (Or.inr ⟨hp, rfl, fun y hy => by cases hy⟩)
  exact hfirst.add ((sound_empty factor h).add host) other

/-- Two hosts are on the ring whoever comes first. -/
theorem hosts_add_comm (host other : Host) :
    (after factor h [.add host, .add other]).hosts
      = (after factor h [.add other, .add host]).hosts := by
  refine Std.TreeSet.Equiv.toList_eq (.of_forall_mem_iff fun x => ?_)
  change x ∈ (((empty factor h).add host).1.add other).1.members ↔
    x ∈ (((empty factor h).add other).1.add host).1.members
  simp only [mem_members_add]
  exact or_left_comm

/-- The hosts for a key follow from the set of hosts, whatever hosts of a pool came and
went and in whatever order, if and only if no two of the pool have a position in common. -/
theorem nearest_eq_iff_apart (factor : Nat) (h : 0 < factor) (pool : Set Host) :
    (∀ changes changes' : List Change,
      (∀ change ∈ changes, change.host ∈ pool) → (∀ change ∈ changes', change.host ∈ pool) →
      (after factor h changes).hosts = (after factor h changes').hosts →
      ∀ (key : Key) (n : Nat),
        (after factor h changes).nearest key n = (after factor h changes').nearest key n) ↔
    (empty factor h).Apart pool := by
  constructor
  · intro hsame a ha b hb hne p hpa hpb
    obtain ⟨i, -, rfl⟩ := List.mem_map.1 hpa
    -- the name of the position is a key that goes to whoever came first
    have hfirst {x y : Host} (hx : Int.ofNat (Murmur.textDigest (a ++ toString i)).toNat ∈
        (empty factor h).positions x) :
        (after factor h [.add x, .add y]).nearest (a ++ toString i) 1 = [x] :=
      (sound_after _).nearest_one (whole_of_first x y _ (by rwa [positions_after]))
    have hpool {x y : Host} (hx : x ∈ pool) (hy : y ∈ pool) :
        ∀ change ∈ [Change.add x, .add y], change.host ∈ pool := by
      rintro change (_ | ⟨_, _ | ⟨_, ⟨⟩⟩⟩)
      · exact hx
      · exact hy
    have heq := hsame _ _ (hpool ha hb) (hpool hb ha) (hosts_add_comm a b) (a ++ toString i) 1
    rw [hfirst hpa, hfirst hpb] at heq
    exact hne (List.singleton_inj.1 heq)
  · intro hapart changes changes' hpool hpool' hhosts key n
    refine (complete_after hapart hpool).nearest_eq (complete_after hapart hpool') ?_ hhosts key n
    rw [positions_after, positions_after]

/-- Two hosts apart are met in the same order whichever came first, also when one of
them left in between. -/
theorem nearest_eq_of_pair :
    (after 3 (by decide) [.add "a", .add "b"]).nearest "k" 2
      = (after 3 (by decide) [.add "b", .add "a", .remove "b", .add "b"]).nearest "k" 2 := by
  refine (nearest_eq_iff_apart 3 (by decide) {"a", "b"}).2 ?_ _ _ ?_ ?_ ?_ "k" 2
  · rintro x (rfl | rfl) y (rfl | rfl) hne
    · exact absurd rfl hne
    · exact List.disjoint_left.2 (by decide +kernel)
    · exact List.disjoint_left.2 (by decide +kernel)
    · exact absurd rfl hne
  · simp [Change.host]
  · simp [Change.host]
  · decide +kernel

/-- The digest of `a10` is the last position of `a` and the first of `a1`. A ring that
lost both and took them up again the other way round places it elsewhere. -/
theorem nearest_ne_of_return :
    let early := after 11 (by decide) [.add "a", .add "a1"]
    let late := after 11 (by decide)
      [.add "a", .add "a1", .remove "a", .remove "a1", .add "a1", .add "a"]
    early.hosts = late.hosts ∧ early.nearest "a10" 1 = ["a"] ∧ late.nearest "a10" 1 = ["a1"] := by
  decide +kernel

end QuorumStore.Placement.Ring
