import QuorumStore.Proofs.SharedPositions

/-!
# Hosts that can be placed

A host is met by walking around the ring when it owns a position. One that found all its
positions taken when it came owns none: it counts as a host of the ring, but no key is
placed on it, and it stays so when the owners of its positions leave. This never comes to
pass if and only if every host has a position that no other host has. Names that run on
into the numbers of other names leave a host without one.
-/

namespace QuorumStore.Placement.Ring

variable {factor : Nat} {h : 0 < factor} {ring : Ring} {host : Host} {pool : Set Host}

/-- With room for all hosts, the hosts for every key are all those on the ring, each once. -/
def PlacesAll (ring : Ring) : Prop :=
  ∀ (key : Key) (n : Nat), ring.size ≤ n →
    ∀ host, ring.contains host = true → (ring.nearest key n).count host = 1

/-! ## Hosts with a position -/

/-- With room for all hosts, those that own a position are met once, and the others are not. -/
theorem count_nearest (hs : ring.Sound) (key : Key) {n : Nat} (hn : ring.size ≤ n) (host : Host) :
    (ring.nearest key n).count host = if ring.Owns host then 1 else 0 := by
  rw [nearest_eq_order hs key hn]
  split_ifs with howns
  · exact List.count_eq_one_of_mem (nodup_order ring key) (mem_order_iff.2 howns)
  · exact List.count_eq_zero_of_not_mem (mt mem_order_iff.1 howns)

/-- All hosts are placed exactly when all own a position. -/
theorem placesAll_iff (hs : ring.Sound) :
    ring.PlacesAll ↔ ∀ host ∈ ring.members, ring.Owns host := by
  constructor
  · intro hall host hin
    have hcount := hall "" ring.size (Nat.le_refl _) host (contains_iff.2 hin)
    rw [count_nearest hs "" (Nat.le_refl _)] at hcount
    by_contra hnot
    rw [if_neg hnot] at hcount
    cases hcount
  · intro howns key n hn host hin
    rw [count_nearest hs key hn, if_pos (howns host (contains_iff.1 hin))]

/-! ## Positions all taken -/

/-- Somebody owns the position. -/
def Taken (ring : Ring) (p : Int) : Prop := ∃ e ∈ ring.index.entries, e.1 = p

theorem Taken.add {p : Int} (ht : ring.Taken p) (hs : ring.Sound) (host : Host) :
    (ring.add host).1.Taken p := by
  by_cases hin : host ∈ ring.members
  · rw [add_of_mem hin]
    exact ht
  · obtain ⟨e, he, hkey⟩ := ht
    exact ⟨e, (mem_entries_add hs hin).2 (Or.inl he), hkey⟩

/-- A host that comes takes its positions, or finds them taken. -/
theorem taken_add (hs : ring.Sound) (hout : host ∉ ring.members) {p : Int}
    (hp : p ∈ ring.positions host) : (ring.add host).1.Taken p := by
  by_cases ht : ring.Taken p
  · exact ht.add hs host
  · have hfree : ∀ y ∈ ring.index.entries, y.1 ≠ p := fun y hy hkey => ht ⟨y, hy, hkey⟩
    exact ⟨(p, host), (mem_entries_add hs hout).2 (Or.inr ⟨hp, rfl, hfree⟩), rfl⟩

/-- The ring after hosts that came one after the other. -/
def joined (factor : Nat) (h : 0 < factor) (hosts : List Host) : Ring :=
  after factor h (hosts.map .add)

theorem joined_append (hosts : List Host) (host : Host) :
    joined factor h (hosts ++ [host]) = ((joined factor h hosts).add host).1 := by
  rw [joined, List.map_append, after, List.foldl_append]
  rfl

theorem sound_joined (hosts : List Host) : (joined factor h hosts).Sound := sound_after _

theorem positions_joined (hosts : List Host) :
    (joined factor h hosts).positions = (empty factor h).positions :=
  positions_after _

theorem mem_members_joined (hosts : List Host) :
    host ∈ (joined factor h hosts).members ↔ host ∈ hosts := by
  induction hosts using List.reverseRecOn with
  | nil => simp [joined, after, empty]
  | append_singleton hosts other ih =>
    rw [joined_append, mem_members_add, ih, List.mem_append, List.mem_singleton, or_comm]

/-- As long as nobody leaves, every position of every host is taken. -/
theorem taken_joined {hosts : List Host} (hin : host ∈ hosts) {p : Int}
    (hp : p ∈ (empty factor h).positions host) : (joined factor h hosts).Taken p := by
  induction hosts using List.reverseRecOn with
  | nil => cases hin
  | append_singleton hosts other ih =>
    rw [joined_append]
    by_cases hold : host ∈ hosts
    · exact (ih hold).add (sound_joined hosts) other
    · obtain rfl : host = other := List.mem_singleton.1 ((List.mem_append.1 hin).resolve_left hold)
      refine taken_add (sound_joined hosts) (mt (mem_members_joined hosts).1 hold) ?_
      rwa [positions_joined]

/-- A host that comes after others that have all its positions owns none. -/
theorem not_owns_of_covered {hosts : List Host} (hout : host ∉ hosts)
    (hcover : ∀ p ∈ (empty factor h).positions host,
      ∃ other ∈ hosts, p ∈ (empty factor h).positions other) :
    ¬ (joined factor h (hosts ++ [host])).Owns host := by
  rw [joined_append]
  rintro ⟨e, he, rfl⟩
  have hnew := mt (mem_members_joined (h := h) hosts).1 hout
  rcases (mem_entries_add (sound_joined hosts) hnew).1 he with hold | ⟨hp, -, hfree⟩
  · exact hnew ((sound_joined hosts).member e hold)
  · rw [positions_joined] at hp
    obtain ⟨other, hin, hother⟩ := hcover e.1 hp
    obtain ⟨y, hy, hkey⟩ := taken_joined hin hother
    exact hfree y hy hkey

/-- Where a host has no exclusive position, some others of the pool have all of them. -/
theorem exists_covering (hnone : ¬ ∃ p, ring.Exclusive pool host p) :
    ∃ hosts : List Host, (∀ other ∈ hosts, other ∈ pool) ∧ host ∉ hosts ∧
      ∀ p ∈ ring.positions host, ∃ other ∈ hosts, p ∈ ring.positions other := by
  have hcovered : ∀ p ∈ ring.positions host,
      ∃ other, (other ∈ pool ∧ other ≠ host) ∧ p ∈ ring.positions other := by
    intro p hp
    by_contra hfree
    exact hnone ⟨p, hp, fun other hin hne hmem => hfree ⟨other, ⟨hin, hne⟩, hmem⟩⟩
  choose! other hother hmem using hcovered
  refine ⟨(ring.positions host).map other, fun x hx => ?_, fun hx => ?_, fun p hp => ?_⟩
  · obtain ⟨p, hp, rfl⟩ := List.mem_map.1 hx
    exact (hother p hp).1
  · obtain ⟨p, hp, heq⟩ := List.mem_map.1 hx
    exact (hother p hp).2 heq
  · exact ⟨other p, List.mem_map_of_mem hp, hmem p hp⟩

/-- Whatever hosts of a pool come and go, all on the ring are placed, if and only if every
host of the pool has a position that no other has. -/
theorem placesAll_iff_exclusive (factor : Nat) (h : 0 < factor) (pool : Set Host) :
    (∀ changes : List Change, (∀ change ∈ changes, change.host ∈ pool) →
      (after factor h changes).PlacesAll) ↔
    ∀ host ∈ pool, ∃ p, (empty factor h).Exclusive pool host p := by
  constructor
  · intro hall host hin
    by_contra hnone
    obtain ⟨hosts, hpool, hout, hcover⟩ := exists_covering hnone
    -- the others come first, then the host that finds nothing left
    have hplaces : (joined factor h (hosts ++ [host])).PlacesAll := by
      refine hall _ fun change hm => ?_
      obtain ⟨x, hx, rfl⟩ := List.mem_map.1 hm
      rcases List.mem_append.1 hx with hx | hx
      · exact hpool x hx
      · rw [List.mem_singleton.1 hx]
        exact hin
    refine not_owns_of_covered hout hcover ((placesAll_iff (sound_joined _)).1 hplaces host ?_)
    exact (mem_members_joined _).2 (List.mem_append_right _ (List.mem_singleton_self _))
  · intro hexclusive changes hpool
    have hx : (after factor h changes).Exclusives pool := exclusives_after hpool
    refine (placesAll_iff hx.sound).2 fun host hm => ?_
    obtain ⟨p, hp⟩ := hexclusive host (hx.within host hm)
    rw [← Exclusive.congr (positions_after changes)] at hp
    exact ⟨(p, host), hx.own host hm p hp, rfl⟩

/-- Two hosts that share a position, but not all, are both placed, also when one of them
came back. -/
theorem placesAll_of_partly_shared :
    (after 11 (by decide) [.add "a", .add "a1", .remove "a", .add "a"]).PlacesAll := by
  refine (placesAll_iff_exclusive 11 (by decide) {"a", "a1"}).2 ?_ _ (by simp [Change.host])
  rintro host (rfl | rfl)
  · refine ⟨Int.ofNat (Murmur.textDigest "a0").toNat, by decide +kernel, ?_⟩
    rintro other (rfl | rfl) hne
    · exact absurd rfl hne
    · decide +kernel
  · refine ⟨Int.ofNat (Murmur.textDigest "a11").toNat, by decide +kernel, ?_⟩
    rintro other (rfl | rfl) hne
    · decide +kernel
    · exact absurd rfl hne

/-- With twenty positions a host, those of `a1` are ten of `a` and ten of `a11`. It comes
last and gets none of them, and when the others have left it is alone on the ring, where
no key is placed on it. -/
theorem lone_host_unplaced :
    let ring := after 20 (by decide) [.add "a", .add "a11", .add "a1", .remove "a", .remove "a11"]
    ring.contains "a1" = true ∧ ring.size = 1 ∧ ring.nearest "k" 1 = [] := by
  decide +kernel

end QuorumStore.Placement.Ring
