import QuorumStore.Proofs.Peers
import QuorumStore.Proofs.StrictMajority

/-!
# How many replicas a write reaches

A write on consensus goes to the hosts that are believed to hold the key, and is
filled up along the ring. Where every host of the ring owns a position there is
always enough to fill up with, so the hosts contacted are a strict majority of
the ring, each named once. A write that asks for every node goes to all.
-/

namespace QuorumStore.Registry

variable {r : Registry} {shuffle : List Host → List Host} {key : Key} {host : Host}

/-- Among ring hosts, a host is new exactly when it was not chosen. -/
theorem Sound.isNew_iff (h : r.Sound) {chosen : List Host}
    (hchosen : ∀ other ∈ chosen, other ∈ r.ring.members) (hin : host ∈ r.ring.members) :
    isNew chosen host = true ↔ host ∉ chosen := by
  rw [isNew, Bool.not_eq_true', List.contains_eq_mem, decide_eq_false_iff_not, List.mem_map]
  constructor
  · exact fun hnone hm => hnone ⟨host, hm, rfl⟩
  · rintro hout ⟨other, hm, hd⟩
    exact hout (h.digest_inj (hchosen other hm) hin hd ▸ hm)

/-- The ring hosts nearest to a key that are believed to hold it. -/
def nearby (r : Registry) (key : Key) : List Host :=
  (r.known (r.ring.nearest key (majority r.ring.size))).filter (r.holds key)

/-- The other nodes that are believed to hold a key, as chance orders them. -/
def farther (r : Registry) (shuffle : List Host → List Host) (key : Key) : List Host :=
  (shuffle r.nodes).filter fun host => isNew (r.nearby key) host && r.holds key host

theorem read_consensus (r : Registry) (shuffle : List Host → List Host) (key : Key) :
    r.read shuffle key .consensus
      = r.nearby key
        ++ (r.farther shuffle key).take (majority r.ring.size - (r.nearby key).length) := rfl

theorem Sound.nearby_eq (h : r.Sound) (key : Key) :
    r.nearby key = (r.ring.nearest key (majority r.ring.size)).filter (r.holds key) := by
  rw [nearby, h.known_eq fun host hm => ?_]
  exact Placement.Ring.mem_hosts_iff.1 (Placement.Ring.mem_hosts_of_mem_nearest h.ring hm)

theorem Sound.mem_nearby (h : r.Sound) (hm : host ∈ r.nearby key) : host ∈ r.ring.members := by
  rw [h.nearby_eq] at hm
  exact Placement.Ring.mem_hosts_iff.1
    (Placement.Ring.mem_hosts_of_mem_nearest h.ring (List.mem_of_mem_filter hm))

theorem Sound.nodup_nearby (h : r.Sound) (key : Key) : (r.nearby key).Nodup := by
  rw [h.nearby_eq]
  exact (Placement.Ring.nodup_nearest h.ring key _).filter _

/-- The nearest hosts are no more than a majority. -/
theorem Sound.length_nearby_le (h : r.Sound) (key : Key) :
    (r.nearby key).length ≤ majority r.ring.size := by
  rw [h.nearby_eq]
  exact Nat.le_trans (List.length_filter_le _ _) (Placement.Ring.length_nearest_le h.ring key _)

theorem Sound.mem_farther (h : r.Sound) (hshuffle : ∀ hosts, (shuffle hosts).Perm hosts)
    (hm : host ∈ r.farther shuffle key) :
    host ∈ r.ring.members ∧ host ∉ r.nearby key := by
  obtain ⟨hnode, hnew⟩ := List.mem_filter.1 hm
  have hin := h.mem_nodes.1 ((hshuffle r.nodes).mem_iff.1 hnode)
  rw [Bool.and_eq_true, h.isNew_iff (fun _ => h.mem_nearby) hin] at hnew
  exact ⟨hin, hnew.1⟩

/-- The hosts to read a key from are on the ring. -/
theorem Sound.mem_read_consensus (h : r.Sound) (hshuffle : ∀ hosts, (shuffle hosts).Perm hosts)
    (hm : host ∈ r.read shuffle key .consensus) : host ∈ r.ring.members := by
  rw [read_consensus, List.mem_append] at hm
  rcases hm with hnear | hfar
  · exact h.mem_nearby hnear
  · exact (h.mem_farther hshuffle (List.mem_of_mem_take hfar)).1

/-- The hosts to read a key from are on the ring, whatever is asked of them. -/
theorem Sound.mem_read (h : r.Sound) (hshuffle : ∀ hosts, (shuffle hosts).Perm hosts)
    {quorum : Quorum} (hm : host ∈ r.read shuffle key quorum) : host ∈ r.ring.members := by
  cases quorum with
  | one =>
    have hfirst : host ∈ shuffle r.nodes := List.mem_of_find?_eq_some (Option.mem_toList.1 hm)
    exact h.mem_nodes.1 ((hshuffle r.nodes).mem_iff.1 hfirst)
  | strong => exact h.mem_nodes.1 ((hshuffle r.nodes).mem_iff.1 hm)
  | consensus => exact h.mem_read_consensus hshuffle hm

/-- So their digests tell them apart. -/
theorem Sound.digest_inj_read (h : r.Sound) (hshuffle : ∀ hosts, (shuffle hosts).Perm hosts)
    (key : Key) (quorum : Quorum) : ∀ a ∈ r.read shuffle key quorum,
      ∀ b ∈ r.read shuffle key quorum, digest a = digest b → a = b :=
  fun _ ha _ hb => h.digest_inj (h.mem_read hshuffle ha) (h.mem_read hshuffle hb)

/-- The hosts to read a key from are different. -/
theorem Sound.nodup_read_consensus (h : r.Sound)
    (hshuffle : ∀ hosts, (shuffle hosts).Perm hosts) (key : Key) :
    (r.read shuffle key .consensus).Nodup := by
  have hfar : (r.farther shuffle key).Nodup :=
    ((hshuffle r.nodes).nodup_iff.2 h.nodup_nodes).filter _
  rw [read_consensus]
  refine List.nodup_append.2 ⟨h.nodup_nearby key, hfar.sublist (List.take_sublist _ _), ?_⟩
  rintro a hnear b hfar rfl
  exact (h.mem_farther hshuffle (List.mem_of_mem_take hfar)).2 hnear

/-- A read on consensus goes to a majority at most. -/
theorem Sound.length_read_consensus_le (h : r.Sound) (shuffle : List Host → List Host)
    (key : Key) : (r.read shuffle key .consensus).length ≤ majority r.ring.size := by
  have hnear := h.length_nearby_le key
  rw [read_consensus, List.length_append, List.length_take]
  omega

/-- The hosts to read a key from are different, whatever is asked of them. -/
theorem Sound.nodup_read (h : r.Sound) (hshuffle : ∀ hosts, (shuffle hosts).Perm hosts)
    (key : Key) (quorum : Quorum) : (r.read shuffle key quorum).Nodup := by
  cases quorum with
  | one =>
    rw [read]
    cases (shuffle r.nodes).find? (r.holds key) <;> simp
  | strong => exact (hshuffle r.nodes).nodup_iff.2 h.nodup_nodes
  | consensus => exact h.nodup_read_consensus hshuffle key

/-! ## Writes -/

/-- The ring hosts that a write on consensus may be filled up with, in ring order. -/
def padding (r : Registry) (shuffle : List Host → List Host) (key : Key) : List Host :=
  (r.ring.nearest key r.ring.size).filter (isNew (r.read shuffle key .consensus))

theorem Sound.mem_padding (h : r.Sound) (hshuffle : ∀ hosts, (shuffle hosts).Perm hosts)
    (hm : host ∈ r.padding shuffle key) :
    host ∈ r.ring.members ∧ host ∉ r.read shuffle key .consensus := by
  obtain ⟨hnear, hnew⟩ := List.mem_filter.1 hm
  have hin := Placement.Ring.mem_hosts_iff.1
    (Placement.Ring.mem_hosts_of_mem_nearest h.ring hnear)
  exact ⟨hin, (h.isNew_iff (fun _ => h.mem_read_consensus hshuffle) hin).1 hnew⟩

theorem Sound.write_consensus (h : r.Sound) (hshuffle : ∀ hosts, (shuffle hosts).Perm hosts)
    (key : Key) :
    r.write shuffle key .consensus
      = r.read shuffle key .consensus
        ++ (r.padding shuffle key).take
          (majority r.ring.size - (r.read shuffle key .consensus).length) := by
  let fill := (r.padding shuffle key).take
    (majority r.ring.size - (r.read shuffle key .consensus).length)
  have hfill (host : Host) (hm : host ∈ fill) : host ∈ r.ring.members :=
    (h.mem_padding hshuffle (List.mem_of_mem_take hm)).1
  have hknown : r.known fill = fill := h.known_eq hfill
  exact congrArg (r.read shuffle key .consensus ++ ·) hknown

/-- The hosts to write a key to are on the ring. -/
theorem Sound.mem_write (h : r.Sound) (hshuffle : ∀ hosts, (shuffle hosts).Perm hosts)
    {quorum : Quorum} (hm : host ∈ r.write shuffle key quorum) : host ∈ r.ring.members := by
  cases quorum with
  | one =>
    have hnearest (other : Host) (hnear : other ∈ r.ring.nearest key 1) :
        other ∈ r.ring.members :=
      Placement.Ring.mem_hosts_iff.1 (Placement.Ring.mem_hosts_of_mem_nearest h.ring hnear)
    rw [write] at hm
    split_ifs at hm
    · rw [h.known_eq hnearest] at hm
      exact hnearest host hm
    · exact h.mem_read hshuffle hm
  | strong =>
    have hread : host ∈ r.read shuffle key .strong := hm
    exact h.mem_read hshuffle hread
  | consensus =>
    rw [h.write_consensus hshuffle, List.mem_append] at hm
    rcases hm with hread | hfill
    · exact h.mem_read hshuffle hread
    · exact (h.mem_padding hshuffle (List.mem_of_mem_take hfill)).1

/-- The hosts to write a key to are different. -/
theorem Sound.nodup_write (h : r.Sound) (hshuffle : ∀ hosts, (shuffle hosts).Perm hosts)
    (key : Key) (quorum : Quorum) : (r.write shuffle key quorum).Nodup := by
  have hread := h.nodup_read hshuffle key quorum
  cases quorum with
  | one =>
    have hnear := Placement.Ring.nodup_nearest h.ring key 1
    have hknown : r.known (r.ring.nearest key 1) = r.ring.nearest key 1 := h.known_eq fun host hm =>
      Placement.Ring.mem_hosts_iff.1 (Placement.Ring.mem_hosts_of_mem_nearest h.ring hm)
    rw [write]
    split_ifs
    · rw [hknown]
      exact hnear
    · exact hread
  | strong => exact hread
  | consensus =>
    have hpad : (r.padding shuffle key).Nodup :=
      (Placement.Ring.nodup_nearest h.ring key _).filter _
    rw [h.write_consensus hshuffle]
    refine List.nodup_append.2 ⟨hread, hpad.sublist (List.take_sublist _ _), ?_⟩
    rintro a hchosen b hfill rfl
    exact (h.mem_padding hshuffle (List.mem_of_mem_take hfill)).2 hchosen

/-- Where every ring host owns a position, the hosts to read from and the hosts to
fill up with are all hosts of the ring. -/
theorem Sound.read_append_padding_perm (h : r.Sound)
    (hshuffle : ∀ hosts, (shuffle hosts).Perm hosts)
    (howns : ∀ host ∈ r.ring.members, r.ring.Owns host) (key : Key) :
    (r.read shuffle key .consensus ++ r.padding shuffle key).Perm r.ring.hosts := by
  have hpad : (r.padding shuffle key).Nodup :=
    (Placement.Ring.nodup_nearest h.ring key _).filter _
  have hall : (r.read shuffle key .consensus ++ r.padding shuffle key).Nodup := by
    refine List.nodup_append.2 ⟨h.nodup_read_consensus hshuffle key, hpad, ?_⟩
    rintro a hread b hfill rfl
    exact (h.mem_padding hshuffle hfill).2 hread
  refine (List.perm_ext_iff_of_nodup hall r.ring.nodup_hosts).2 fun host => ?_
  rw [List.mem_append, Placement.Ring.mem_hosts_iff]
  constructor
  · rintro (hread | hfill)
    · exact h.mem_read_consensus hshuffle hread
    · exact (h.mem_padding hshuffle hfill).1
  · intro hin
    by_cases hread : host ∈ r.read shuffle key .consensus
    · exact Or.inl hread
    · have hnew := (h.isNew_iff (fun _ => h.mem_read_consensus hshuffle) hin).2 hread
      have hnear := Placement.Ring.mem_nearest_of_owns h.ring (howns host hin) key
      exact Or.inr (List.mem_filter.2 ⟨hnear, hnew⟩)

/-- A write that needs more than one success goes to different ring hosts, and
unless it goes to none, to more than half of them. -/
theorem Sound.strict_majority_of_write (h : r.Sound)
    (hshuffle : ∀ hosts, (shuffle hosts).Perm hosts)
    (howns : ∀ host ∈ r.ring.members, r.ring.Owns host) {quorum : Quorum}
    (hquorum : quorum ≠ .one) (hsome : r.write shuffle key quorum ≠ []) :
    (r.write shuffle key quorum).Nodup ∧
      (∀ host ∈ r.write shuffle key quorum, host ∈ r.ring.members) ∧
      r.ring.size < 2 * (r.write shuffle key quorum).length := by
  cases quorum with
  | one => exact absurd rfl hquorum
  | strong =>
    have hperm : (r.write shuffle key .strong).Perm r.ring.hosts :=
      (hshuffle r.nodes).trans h.nodes_perm
    have hlen : (r.write shuffle key .strong).length = r.ring.size := by
      rw [hperm.length_eq, Placement.Ring.length_hosts]
    have hpos : 0 < (r.write shuffle key .strong).length := List.length_pos_of_ne_nil hsome
    refine ⟨hperm.nodup_iff.2 r.ring.nodup_hosts, fun host hm => ?_, by omega⟩
    exact Placement.Ring.mem_hosts_iff.1 (hperm.mem_iff.1 hm)
  | consensus =>
    have hperm := h.read_append_padding_perm hshuffle howns key
    have hread := h.length_read_consensus_le shuffle key
    have hlen := hperm.length_eq
    have hhalf := lt_two_mul_majority r.ring.size
    have hmajority : majority r.ring.size ≤ r.ring.size + 1 := by
      rw [majority]
      omega
    rw [Placement.Ring.length_hosts, List.length_append] at hlen
    rw [h.write_consensus hshuffle] at hsome ⊢
    have hsub := (List.take_sublist (majority r.ring.size
      - (r.read shuffle key .consensus).length) (r.padding shuffle key)).append_left
      (r.read shuffle key .consensus)
    have hpos := List.length_pos_of_ne_nil hsome
    refine ⟨(hperm.nodup_iff.2 r.ring.nodup_hosts).sublist hsub, fun host hm => ?_, ?_⟩
    · exact Placement.Ring.mem_hosts_iff.1 (hperm.mem_iff.1 (hsub.subset hm))
    · rw [List.length_append, List.length_take] at hpos ⊢
      rw [majority] at *
      omega

end QuorumStore.Registry
