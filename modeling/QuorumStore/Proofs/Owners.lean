import Mathlib.Data.List.Perm.Subperm
import Mathlib.Tactic.Tauto
import QuorumStore.Placement.Ring
import QuorumStore.Proofs.SearchOrder

/-!
# The owners of ring positions

However hosts come and go, the index of a ring stays in order, and every entry
belongs to a host on the ring and stands at one of that host's positions. A host
that leaves takes all its entries with it. So walking once around meets hosts of
the ring only, each once, and meets every host that owns a position.
-/

namespace QuorumStore.Placement.Ring

variable {ring : Ring} {host : Host}

/-- The host owns a position of the ring. -/
def Owns (ring : Ring) (host : Host) : Prop := ∃ e ∈ ring.index.entries, e.2 = host

instance : Decidable (ring.Owns host) :=
  inferInstanceAs (Decidable (∃ e ∈ ring.index.entries, e.2 = host))

/-- What adding and removing hosts keeps true of a ring. -/
structure Sound (ring : Ring) : Prop where
  /-- The index is a search tree. -/
  index : ring.index.Sound
  /-- Every position is owned by a host on the ring. -/
  member : ∀ e ∈ ring.index.entries, e.2 ∈ ring.members
  /-- A host owns none but its own positions. -/
  position : ∀ e ∈ ring.index.entries, e.1 ∈ ring.positions e.2

theorem sound_empty (factor : Nat) (h : 0 < factor) : (empty factor h).Sound where
  index := Index.sound_empty
  member e he := by cases he
  position e he := by cases he

/-! ## Taking positions and giving them up -/

/-- Taking positions keeps the index sound. -/
theorem sound_claim {index : Index} (h : index.Sound) (positions : List Int) :
    (claim host index positions).1.Sound := by
  induction positions generalizing index with
  | nil => exact h
  | cons p rest ih => exact ih (h.insert p host)

/-- Taking positions adds entries of the host at those positions that were free. -/
theorem mem_claim {index : Index} (h : index.Sound) (positions : List Int) {x : Int × Host} :
    x ∈ (claim host index positions).1.entries ↔
      x ∈ index.entries ∨
        (x.1 ∈ positions ∧ x.2 = host ∧ ∀ y ∈ index.entries, y.1 ≠ x.1) := by
  induction positions generalizing index with
  | nil => simp [claim]
  | cons p rest ih =>
    have hinsert (y : Int × Host) := h.mem_insert p host (x := y)
    rw [claim, ih (h.insert p host), hinsert]
    constructor
    · rintro ((hold | ⟨rfl, hfree⟩) | ⟨hkey, hhost, hfree⟩)
      · exact Or.inl hold
      · exact Or.inr ⟨List.mem_cons_self, rfl, hfree⟩
      · exact Or.inr ⟨List.mem_cons_of_mem p hkey, hhost,
          fun y hy => hfree y ((hinsert y).2 (Or.inl hy))⟩
    · rintro (hold | ⟨hkey, hhost, hfree⟩)
      · exact Or.inl (Or.inl hold)
      · by_cases hp : x.1 = p
        · exact Or.inl (Or.inr ⟨Prod.ext hp hhost, hp ▸ hfree⟩)
        · refine Or.inr ⟨List.mem_of_ne_of_mem hp hkey, hhost, fun y hy => ?_⟩
          rcases (hinsert y).1 hy with hy | ⟨rfl, -⟩
          · exact hfree y hy
          · exact Ne.symm hp

/-- A host that found all the positions free has them. -/
theorem mem_claim_of_all {index : Index} (h : index.Sound) {positions : List Int}
    (hall : (claim host index positions).2 = true) {p : Int} (hp : p ∈ positions) :
    (p, host) ∈ (claim host index positions).1.entries := by
  induction positions generalizing index with
  | nil => cases hp
  | cons q rest ih =>
    rw [claim, Bool.and_eq_true] at hall
    rcases List.mem_cons.1 hp with rfl | hp
    · have hfree : ∀ y ∈ index.entries, y.1 ≠ p := fun y hy hkey => by
        have hnew := hall.1
        rw [h.insert_taken ⟨y, hy, hkey⟩ host] at hnew
        cases hnew
      exact (mem_claim (h.insert p host) rest).2
        (Or.inl ((h.mem_insert p host).2 (Or.inr ⟨rfl, hfree⟩)))
    · exact ih (h.insert q host) hall.2 hp

/-- Giving positions up leaves the entries of the other hosts and the entries at
other positions, in their order. -/
theorem entries_release {index : Index} (h : index.Sound) (positions : List Int) :
    (release host index positions).1.entries
      = index.entries.filter fun x => ¬ (x.2 = host ∧ x.1 ∈ positions) := by
  induction positions generalizing index with
  | nil => simp [release]
  | cons p rest ih =>
    rw [release]
    by_cases howner : index.host? p = some host
    · -- whoever stands at `p` is the host itself
      have hsame (x : Int × Host) (hx : x ∈ index.entries) (hp : x.1 = p) : x.2 = host := by
        have hx' : index.host? p = some x.2 := h.host?_eq_some_iff.2 (by rwa [← hp])
        rw [howner] at hx'
        exact (Option.some.inj hx').symm
      rw [if_pos howner, ih (h.delete p), h.entries_delete p, List.filter_filter]
      refine List.filter_congr fun x hx => ?_
      have hx' := hsame x hx
      simp only [List.mem_cons, ← Bool.decide_and, decide_eq_decide]
      tauto
    · have hother (x : Int × Host) (hx : x ∈ index.entries) (hp : x.1 = p) : x.2 ≠ host :=
        fun hhost => howner (h.host?_eq_some_iff.2 (by rwa [← hp, ← hhost]))
      rw [if_neg howner, ih h]
      refine List.filter_congr fun x hx => ?_
      have hx' := hother x hx
      simp only [List.mem_cons, decide_eq_decide]
      tauto

/-- Giving positions up keeps the index sound. -/
theorem sound_release {index : Index} (h : index.Sound) (positions : List Int) :
    (release host index positions).1.Sound := by
  induction positions generalizing index with
  | nil => exact h
  | cons p rest ih =>
    rw [release]
    split_ifs
    · exact ih (h.delete p)
    · exact ih h

/-! ## Hosts that come and go -/

theorem contains_iff : ring.contains host = true ↔ host ∈ ring.members :=
  Std.TreeSet.contains_iff_mem

theorem contains_eq_false_iff : ring.contains host = false ↔ host ∉ ring.members := by
  rw [← contains_iff, Bool.not_eq_true]

/-- A host that is on the ring is not added again. -/
theorem add_of_mem (hin : host ∈ ring.members) : ring.add host = (ring, false) :=
  if_pos (contains_iff.2 hin)

/-- A new host takes what positions it can. -/
theorem add_of_not_mem (hout : host ∉ ring.members) :
    (ring.add host).1.index = (claim host ring.index (ring.positions host)).1 ∧
      (ring.add host).2 = (claim host ring.index (ring.positions host)).2 := by
  rw [add, if_neg (mt contains_iff.1 hout)]
  exact ⟨rfl, rfl⟩

@[simp] theorem positions_add (host other : Host) :
    (ring.add host).1.positions other = ring.positions other := by
  rw [add]
  split_ifs <;> rfl

@[simp] theorem positions_remove (host other : Host) :
    (ring.remove host).1.positions other = ring.positions other := by
  rw [remove]
  split_ifs <;> rfl

/-- The hosts on the ring after one is added. -/
theorem mem_members_add {other : Host} :
    other ∈ (ring.add host).1.members ↔ other = host ∨ other ∈ ring.members := by
  rw [add]
  split_ifs with h
  · have hin : host ∈ ring.members := contains_iff.1 h
    constructor
    · exact Or.inr
    · rintro (rfl | ho)
      · exact hin
      · exact ho
  · rw [Std.TreeSet.mem_insert, Std.LawfulEqCmp.compare_eq_iff_eq, eq_comm]

/-- The hosts on the ring after one is removed. -/
theorem mem_members_remove {other : Host} :
    other ∈ (ring.remove host).1.members ↔ other ≠ host ∧ other ∈ ring.members := by
  rw [remove]
  split_ifs with h
  · rw [Std.TreeSet.mem_erase, Ne, Std.LawfulEqCmp.compare_eq_iff_eq, ne_comm]
  · have hout : host ∉ ring.members := mt contains_iff.2 h
    constructor
    · intro ho
      exact ⟨fun he => hout (he ▸ ho), ho⟩
    · exact And.right

/-- The entries after a host is added: those there were, and its own at the positions
that were free. -/
theorem mem_entries_add (h : ring.Sound) (hout : host ∉ ring.members) {e : Int × Host} :
    e ∈ (ring.add host).1.index.entries ↔
      e ∈ ring.index.entries ∨
        (e.1 ∈ ring.positions host ∧ e.2 = host ∧ ∀ y ∈ ring.index.entries, y.1 ≠ e.1) := by
  rw [(add_of_not_mem hout).1]
  exact mem_claim h.index _

/-- The entries after a host is removed: those of the other hosts. -/
theorem mem_entries_remove (h : ring.Sound) (host : Host) {e : Int × Host} :
    e ∈ (ring.remove host).1.index.entries ↔ e ∈ ring.index.entries ∧ e.2 ≠ host := by
  rw [remove]
  split_ifs with hin
  · rw [entries_release h.index, List.mem_filter, decide_eq_true_eq]
    refine and_congr_right fun he => not_congr (and_iff_left_of_imp fun hhost => ?_)
    rw [← hhost]
    exact h.position e he
  · refine (and_iff_left_of_imp fun he hhost => hin ?_).symm
    rw [← hhost]
    exact contains_iff.2 (h.member e he)

theorem Sound.add (h : ring.Sound) (host : Host) : (ring.add host).1.Sound := by
  by_cases hin : host ∈ ring.members
  · rw [add_of_mem hin]
    exact h
  · constructor
    · rw [(add_of_not_mem hin).1]
      exact sound_claim h.index _
    · intro e he
      rw [mem_members_add]
      rcases (mem_entries_add h hin).1 he with hold | ⟨-, hhost, -⟩
      · exact Or.inr (h.member e hold)
      · exact Or.inl hhost
    · intro e he
      rw [positions_add]
      rcases (mem_entries_add h hin).1 he with hold | ⟨hkey, hhost, -⟩
      · exact h.position e hold
      · rw [hhost]
        exact hkey

theorem Sound.remove (h : ring.Sound) (host : Host) : (ring.remove host).1.Sound := by
  constructor
  · rw [Ring.remove]
    split_ifs
    · exact sound_release h.index _
    · exact h.index
  · intro e he
    obtain ⟨hold, hne⟩ := (mem_entries_remove h host).1 he
    exact mem_members_remove.2 ⟨hne, h.member e hold⟩
  · intro e he
    rw [positions_remove]
    exact h.position e ((mem_entries_remove h host).1 he).1

/-! ## Hosts with all their positions -/

/-- The host owns all its positions. -/
def Whole (ring : Ring) (host : Host) : Prop :=
  ∀ p ∈ ring.positions host, (p, host) ∈ ring.index.entries

theorem length_positions (ring : Ring) (host : Host) :
    (ring.positions host).length = ring.factor := by
  rw [positions, List.length_map, List.length_range]

/-- Every ring gives a host a position. -/
theorem positions_ne_nil (ring : Ring) (host : Host) : ring.positions host ≠ [] :=
  List.ne_nil_of_length_pos ((ring.length_positions host).symm ▸ ring.factor_pos)

theorem Whole.owns (h : ring.Whole host) : ring.Owns host := by
  obtain ⟨p, hp⟩ := List.exists_mem_of_ne_nil _ (ring.positions_ne_nil host)
  exact ⟨(p, host), h p hp, rfl⟩

/-- A host that was added without a collision owns all its positions. -/
theorem whole_of_add (h : ring.Sound) (hall : (ring.add host).2 = true) :
    (ring.add host).1.Whole host := by
  have hout : host ∉ ring.members := fun hin => by
    rw [add_of_mem hin] at hall
    cases hall
  obtain ⟨hindex, hanswer⟩ := add_of_not_mem hout
  intro p hp
  rw [positions_add] at hp
  rw [hindex]
  exact mem_claim_of_all h.index (hanswer ▸ hall) hp

/-- It keeps them when others come. -/
theorem Whole.add (h : ring.Sound) (hwhole : ring.Whole host) (other : Host) :
    (ring.add other).1.Whole host := by
  by_cases hin : other ∈ ring.members
  · rw [add_of_mem hin]
    exact hwhole
  · intro p hp
    rw [positions_add] at hp
    exact (mem_entries_add h hin).2 (Or.inl (hwhole p hp))

/-- It keeps them when others leave. -/
theorem Whole.remove (h : ring.Sound) (hwhole : ring.Whole host) {other : Host}
    (hne : host ≠ other) : (ring.remove other).1.Whole host := by
  intro p hp
  rw [positions_remove] at hp
  exact (mem_entries_remove h other).2 ⟨hwhole p hp, hne⟩

/-! ## The hosts for a key -/

/-- The hosts in the order in which the walk once around from a key meets them. -/
def order (ring : Ring) (key : Key) : List Host :=
  (ring.index.around (Int.ofNat (Murmur.textDigest key).toNat)).eraseDups

/-- The hosts for a key are the first ones met. -/
theorem nearest_eq_take (h : ring.Sound) (key : Key) (n : Nat) :
    ring.nearest key n = (ring.order key).take n :=
  h.index.clockwise_eq n _

theorem nodup_order (ring : Ring) (key : Key) : (ring.order key).Nodup := nodup_eraseDups _

/-- The walk meets the hosts that own a position. -/
theorem mem_order_iff {key : Key} : host ∈ ring.order key ↔ ring.Owns host :=
  List.mem_eraseDups.trans Index.mem_around

theorem mem_hosts_iff : host ∈ ring.hosts ↔ host ∈ ring.members := Std.TreeSet.mem_toList

theorem Owns.mem_hosts (howns : ring.Owns host) (h : ring.Sound) : host ∈ ring.hosts := by
  obtain ⟨e, he, rfl⟩ := howns
  exact mem_hosts_iff.2 (h.member e he)

/-- The hosts for a key are different. -/
theorem nodup_nearest (h : ring.Sound) (key : Key) (n : Nat) : (ring.nearest key n).Nodup := by
  rw [nearest_eq_take h]
  exact (nodup_order ring key).sublist (List.take_sublist _ _)

/-- The hosts for a key are no more than asked for. -/
theorem length_nearest_le (h : ring.Sound) (key : Key) (n : Nat) :
    (ring.nearest key n).length ≤ n := by
  rw [nearest_eq_take h]
  exact List.length_take_le _ _

/-- The hosts for a key are on the ring. -/
theorem mem_hosts_of_mem_nearest (h : ring.Sound) {key : Key} {n : Nat}
    (hm : host ∈ ring.nearest key n) : host ∈ ring.hosts := by
  rw [nearest_eq_take h] at hm
  exact (mem_order_iff.1 (List.mem_of_mem_take hm)).mem_hosts h

theorem length_hosts : ring.hosts.length = ring.size := Std.TreeSet.length_toList

/-- Every host stands once in the list of the hosts on the ring. -/
theorem nodup_hosts : ring.hosts.Nodup := by
  refine List.Pairwise.imp ?_ (Std.TreeSet.distinct_toList (t := ring.members))
  intro a b hcmp heq
  exact hcmp (Std.LawfulEqCmp.compare_eq_iff_eq.2 heq)

/-- The walk meets no more hosts than there are. -/
theorem length_order_le (h : ring.Sound) (key : Key) : (ring.order key).length ≤ ring.size := by
  rw [← length_hosts]
  exact ((nodup_order ring key).subperm fun _ hm => (mem_order_iff.1 hm).mem_hosts h).length_le

/-- With room for all hosts, the hosts for a key are all that the walk meets. -/
theorem nearest_eq_order (h : ring.Sound) (key : Key) {n : Nat} (hn : ring.size ≤ n) :
    ring.nearest key n = ring.order key := by
  rw [nearest_eq_take h, List.take_of_length_le ((length_order_le h key).trans hn)]

/-- With room for all hosts, every host that owns a position is met. -/
theorem mem_nearest_of_owns (h : ring.Sound) (howns : ring.Owns host) (key : Key) :
    host ∈ ring.nearest key ring.size := by
  rw [nearest_eq_order h key (Nat.le_refl _)]
  exact mem_order_iff.2 howns

/-- Where every host owns a position, as many hosts are near a key as asked for. -/
theorem length_nearest_of_owns (h : ring.Sound) (howns : ∀ host ∈ ring.members, ring.Owns host)
    (key : Key) {n : Nat} (hn : n ≤ ring.size) : (ring.nearest key n).length = n := by
  have hall : ring.hosts.length ≤ (ring.order key).length :=
    (nodup_hosts.subperm fun host hm =>
      mem_order_iff.2 (howns host (mem_hosts_iff.1 hm))).length_le
  rw [length_hosts] at hall
  rw [nearest_eq_take h, List.length_take]
  omega

end QuorumStore.Placement.Ring
