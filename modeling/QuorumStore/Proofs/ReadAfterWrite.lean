import Mathlib.Tactic.SplitIfs
import QuorumStore.Proofs.Acknowledged
import QuorumStore.Proofs.Contacted
import QuorumStore.Proofs.HintFlow
import QuorumStore.Proofs.SharedPositions

/-!
# A read meets the write before it

A write on consensus records the key in the hints of the hosts it went to. A read
on consensus that follows goes to a majority of the ring whose hints hold the key,
chosen by chance where the nearest hosts do not suffice. Whatever chance decides on
both occasions, more than half of the hosts that are read were written to. Of the ring
this asks no more than that every host owns a position, as hosts do that were added
without a collision.
-/

namespace QuorumStore

namespace Registry

variable {r : Registry} {shuffle shuffle' : List Host → List Host} {key : Key} {host : Host}

/-! ## What a commit records -/

/-- Recording a key changes no other hint, and this one holds the key. -/
theorem hinted_modifyPeer_add (r : Registry) (first peer : UInt32) (key : Key) :
    (r.modifyPeer first fun p => { p with
        hint := p.hint.add (Bytes.ofText key), clock := p.clock + 1 }).hinted peer key = true
      ↔ if first = peer then r.peers.contains peer = true else r.hinted peer key = true := by
  rw [hinted, getElem?_modifyPeer, hinted, Std.TreeMap.contains_eq_isSome_getElem?]
  split_ifs with hpeer
  · cases r.peers[peer]? with
    | none => simp
    | some p => simp [Hint.contains_add]
  · exact Iff.rfl

/-- Changing a peer brings none and takes none away. -/
theorem contains_modifyPeer (r : Registry) (first peer : UInt32) (f : Peer → Peer) :
    (r.modifyPeer first f).peers.contains peer = r.peers.contains peer := by
  rw [Std.TreeMap.contains_eq_isSome_getElem?, getElem?_modifyPeer,
    Std.TreeMap.contains_eq_isSome_getElem?]
  split_ifs <;> simp

/-- After a commit the hints that held the key hold it, and those of the peers named
as well. -/
theorem hinted_commit (r : Registry) (key : Key) (peers : List UInt32) (peer : UInt32) :
    (r.commit key peers).1.hinted peer key = true ↔
      r.hinted peer key = true ∨ (peer ∈ peers ∧ r.peers.contains peer = true) := by
  induction peers generalizing r with
  | nil => simp [commit]
  | cons first rest ih =>
    rw [commit, List.mem_cons]
    split_ifs with hadds
    · rw [Bool.and_eq_true, Bool.not_eq_true'] at hadds
      rw [ih, hinted_modifyPeer_add, contains_modifyPeer]
      by_cases hpeer : first = peer
      · subst hpeer
        simp [hadds.1]
      · simp [hpeer, Ne.symm hpeer]
    · rw [ih]
      by_cases hpeer : peer = first
      · subst hpeer
        cases hcontains : r.peers.contains peer <;> simp_all
      · simp [hpeer]

/-- After a commit to hosts of the ring, a host is believed to hold the key when it was
before, or is one of them. -/
theorem Sound.holds_commit (h : r.Sound) {hosts : List Host}
    (hhosts : ∀ other ∈ hosts, other ∈ r.ring.members) (hin : host ∈ r.ring.members) :
    (r.commit key (hosts.map digest)).1.holds key host = true ↔
      r.holds key host = true ∨ host ∈ hosts := by
  rw [holds, hinted_commit, h.contains_peer hin, List.mem_map, holds]
  constructor
  · rintro (hheld | ⟨⟨other, hother, hdigest⟩, -⟩)
    · exact Or.inl hheld
    · exact Or.inr (h.digest_inj (hhosts other hother) hin hdigest ▸ hother)
  · rintro (hheld | hother)
    · exact Or.inl hheld
    · exact Or.inr ⟨⟨host, hother, rfl⟩, rfl⟩

/-! ## The hosts that are believed to hold a key -/

/-- The ring hosts that are believed to hold a key. -/
def holders (r : Registry) (key : Key) : List Host := r.ring.hosts.filter (r.holds key)

theorem mem_holders : host ∈ r.holders key ↔ host ∈ r.ring.members ∧ r.holds key host = true := by
  rw [holders, List.mem_filter, Placement.Ring.mem_hosts_iff]

/-- The nearest hosts and the farther ones are all that are believed to hold the key. -/
theorem Sound.nearby_append_farther_perm (h : r.Sound)
    (hshuffle : ∀ hosts, (shuffle hosts).Perm hosts) (key : Key) :
    (r.nearby key ++ r.farther shuffle key).Perm (r.holders key) := by
  have hfar : (r.farther shuffle key).Nodup :=
    ((hshuffle r.nodes).nodup_iff.2 h.nodup_nodes).filter _
  have hall : (r.nearby key ++ r.farther shuffle key).Nodup := by
    refine List.nodup_append.2 ⟨h.nodup_nearby key, hfar, ?_⟩
    rintro a hnear b hfar rfl
    exact (h.mem_farther hshuffle hfar).2 hnear
  refine (List.perm_ext_iff_of_nodup hall (r.ring.nodup_hosts.filter _)).2 fun host => ?_
  rw [List.mem_append, ← holders, mem_holders]
  constructor
  · rintro (hnear | hfar)
    · have hheld := hnear
      rw [h.nearby_eq, List.mem_filter] at hheld
      exact ⟨h.mem_nearby hnear, hheld.2⟩
    · obtain ⟨-, hnew⟩ := List.mem_filter.1 hfar
      rw [Bool.and_eq_true] at hnew
      exact ⟨(h.mem_farther hshuffle hfar).1, hnew.2⟩
  · rintro ⟨hin, hheld⟩
    by_cases hnear : host ∈ r.nearby key
    · exact Or.inl hnear
    · refine Or.inr (List.mem_filter.2 ⟨(hshuffle r.nodes).mem_iff.2 (h.mem_nodes.2 hin), ?_⟩)
      rw [Bool.and_eq_true]
      exact ⟨(h.isNew_iff (fun _ => h.mem_nearby) hin).2 hnear, hheld⟩

/-- A read on consensus goes to as many holders as there are, up to a majority. -/
theorem Sound.length_read_consensus (h : r.Sound)
    (hshuffle : ∀ hosts, (shuffle hosts).Perm hosts) (key : Key) :
    (r.read shuffle key .consensus).length
      = min (majority r.ring.size) (r.holders key).length := by
  have hall := (h.nearby_append_farther_perm hshuffle key).length_eq
  have hnear := h.length_nearby_le key
  rw [List.length_append] at hall
  rw [read_consensus, List.length_append, List.length_take]
  omega

/-- The hosts that are read are among those. -/
theorem Sound.mem_holders_of_read (h : r.Sound) (hshuffle : ∀ hosts, (shuffle hosts).Perm hosts)
    (hm : host ∈ r.read shuffle key .consensus) : host ∈ r.holders key := by
  have hsub := (List.take_sublist (majority r.ring.size - (r.nearby key).length)
    (r.farther shuffle key)).append_left (r.nearby key)
  rw [read_consensus] at hm
  exact (h.nearby_append_farther_perm hshuffle key).mem_iff.1 (hsub.subset hm)

/-- When they are no more than a majority, they are all read. -/
theorem Sound.read_perm_holders (h : r.Sound) (hshuffle : ∀ hosts, (shuffle hosts).Perm hosts)
    (hfew : (r.holders key).length ≤ majority r.ring.size) :
    (r.read shuffle key .consensus).Perm (r.holders key) := by
  have hperm := h.nearby_append_farther_perm hshuffle key
  have hlen := hperm.length_eq
  rw [List.length_append] at hlen
  rw [read_consensus, List.take_of_length_le (by omega)]
  exact hperm

/-- The farther holders are hosts outside the nearest majority, so they are fewer than
one. -/
theorem Sound.length_farther_lt (h : r.Sound) (hsome : 0 < r.ring.size)
    (howns : ∀ host ∈ r.ring.members, r.ring.Owns host)
    (hshuffle : ∀ hosts, (shuffle hosts).Perm hosts) (key : Key) :
    (r.farther shuffle key).length < majority r.ring.size := by
  have hmajority : majority r.ring.size ≤ r.ring.size := by
    rw [majority]
    omega
  have hnear := Placement.Ring.length_nearest_of_owns h.ring howns key hmajority
  have hfar : (r.farther shuffle key).Nodup :=
    ((hshuffle r.nodes).nodup_iff.2 h.nodup_nodes).filter _
  have hall : (r.ring.nearest key (majority r.ring.size) ++ r.farther shuffle key).Nodup := by
    refine List.nodup_append.2 ⟨Placement.Ring.nodup_nearest h.ring key _, hfar, ?_⟩
    rintro a hnearest b hfarther rfl
    obtain ⟨-, hnew⟩ := List.mem_filter.1 hfarther
    rw [Bool.and_eq_true] at hnew
    refine (h.mem_farther hshuffle hfarther).2 ?_
    rw [h.nearby_eq]
    exact List.mem_filter.2 ⟨hnearest, hnew.2⟩
  have hsub : r.ring.nearest key (majority r.ring.size) ++ r.farther shuffle key
      ⊆ r.ring.hosts := by
    intro host hm
    rcases List.mem_append.1 hm with hnearest | hfarther
    · exact Placement.Ring.mem_hosts_of_mem_nearest h.ring hnearest
    · exact Placement.Ring.mem_hosts_iff.2 (h.mem_farther hshuffle hfarther).1
  have hle := (hall.subperm hsub).length_le
  rw [List.length_append, hnear, Placement.Ring.length_hosts] at hle
  have hhalf := lt_two_mul_majority r.ring.size
  omega

/-! ## The hosts written to and read again -/

/-- Two choices from the same hosts overlap in what they have too many together. -/
theorem length_le_overlap {chosen chosen' hosts : List Host} (hchosen : chosen.Nodup)
    (hsub : chosen ⊆ hosts) (hchosen' : chosen'.Nodup) (hsub' : chosen' ⊆ hosts) :
    chosen.length + chosen'.length ≤ (chosen'.filter (· ∈ chosen)).length + hosts.length := by
  have hall : (chosen ++ chosen'.filter (· ∉ chosen)).Nodup := by
    refine List.nodup_append.2 ⟨hchosen, hchosen'.filter _, ?_⟩
    rintro a ha b hb rfl
    exact of_decide_eq_true (List.mem_filter.1 hb).2 ha
  have hle := (hall.subperm (List.append_subset.2
    ⟨hsub, fun host hm => hsub' (List.mem_of_mem_filter hm)⟩)).length_le
  have hsplit : chosen'.length = _ :=
    List.length_eq_length_filter_add fun host => decide (host ∈ chosen)
  rw [List.length_append] at hle
  simp only [decide_not] at hle
  omega

/-- Two choices that share some hosts, and are filled up to the same number from fewer
hosts than that, have more than half in common. -/
theorem lt_two_mul_overlap {shared chosen chosen' hosts : List Host} {n : Nat}
    (hchosen : chosen.Nodup) (hsub : chosen ⊆ hosts) (hchosen' : chosen'.Nodup)
    (hsub' : chosen' ⊆ hosts) (hfew : hosts.length < n) (hlen : shared.length + chosen.length = n)
    (hlen' : shared.length + chosen'.length = n) :
    n < 2 * ((shared ++ chosen').filter (· ∈ shared ++ chosen)).length := by
  have hoverlap := length_le_overlap hchosen hsub hchosen' hsub'
  have hshared : shared.filter (· ∈ shared ++ chosen) = shared :=
    List.filter_eq_self.2 fun host hm => decide_eq_true (List.mem_append_left _ hm)
  have hmono : (chosen'.filter (· ∈ chosen)).length
      ≤ (chosen'.filter (· ∈ shared ++ chosen)).length := by
    refine (List.monotone_filter_right chosen' fun host hm => ?_).length_le
    rw [decide_eq_true_eq] at hm ⊢
    exact List.mem_append_right _ hm
  rw [List.filter_append, hshared, List.length_append]
  omega

/-- Where every host owns a position, a write on consensus goes to a majority. -/
theorem Sound.length_write_consensus (h : r.Sound) (hsome : 0 < r.ring.size)
    (howns : ∀ host ∈ r.ring.members, r.ring.Owns host)
    (hshuffle : ∀ hosts, (shuffle hosts).Perm hosts) (key : Key) :
    (r.write shuffle key .consensus).length = majority r.ring.size := by
  have hall := (h.read_append_padding_perm hshuffle howns key).length_eq
  have hread := h.length_read_consensus_le shuffle key
  have hmajority : majority r.ring.size ≤ r.ring.size := by
    rw [majority]
    omega
  rw [List.length_append, Placement.Ring.length_hosts] at hall
  rw [h.write_consensus hshuffle, List.length_append, List.length_take]
  omega

/-- When the holders are fewer than a majority, the read goes to hosts written to only. -/
theorem Sound.mem_write_of_read (h : r.Sound) (hshuffle : ∀ hosts, (shuffle hosts).Perm hosts)
    (hshuffle' : ∀ hosts, (shuffle' hosts).Perm hosts)
    (hfew : (r.holders key).length ≤ majority r.ring.size)
    (hm : host ∈ (r.commit key ((r.write shuffle key .consensus).map digest)).1.read shuffle' key
      .consensus) : host ∈ r.write shuffle key .consensus := by
  have hsound := h.commit key ((r.write shuffle key .consensus).map digest)
  obtain ⟨hin, hheld⟩ := mem_holders.1 (hsound.mem_holders_of_read hshuffle' hm)
  rw [ring_commit] at hin
  rcases (h.holds_commit (fun _ => h.mem_write hshuffle) hin).1 hheld with hold | hnew
  · have hread := (h.read_perm_holders hshuffle hfew).mem_iff.2 (mem_holders.2 ⟨hin, hold⟩)
    rw [h.write_consensus hshuffle]
    exact List.mem_append_left _ hread
  · exact hnew

/-- When the holders are a majority already, the write goes where a read would. -/
theorem Sound.write_eq_read (h : r.Sound) (hshuffle : ∀ hosts, (shuffle hosts).Perm hosts)
    (hmany : majority r.ring.size ≤ (r.holders key).length) :
    r.write shuffle key .consensus = r.read shuffle key .consensus := by
  rw [h.write_consensus hshuffle, h.length_read_consensus hshuffle, Nat.min_eq_left hmany,
    Nat.sub_self, List.take_zero, List.append_nil]

section Recorded

variable {hosts : List Host}

/-- Recording a key for hosts that are believed to hold it changes no belief. -/
theorem Sound.holds_commit_holders (h : r.Sound) (hhosts : ∀ other ∈ hosts, other ∈ r.holders key)
    (hin : host ∈ r.ring.members) :
    (r.commit key (hosts.map digest)).1.holds key host = r.holds key host := by
  rw [Bool.eq_iff_iff, h.holds_commit (fun other hm => (mem_holders.1 (hhosts other hm)).1) hin]
  exact or_iff_left_of_imp fun hm => (mem_holders.1 (hhosts host hm)).2

theorem Sound.nearby_commit_holders (h : r.Sound)
    (hhosts : ∀ other ∈ hosts, other ∈ r.holders key) :
    (r.commit key (hosts.map digest)).1.nearby key = r.nearby key := by
  rw [(h.commit key _).nearby_eq, h.nearby_eq, ring_commit]
  exact List.filter_congr fun host hm => h.holds_commit_holders hhosts
    (Placement.Ring.mem_hosts_iff.1 (Placement.Ring.mem_hosts_of_mem_nearest h.ring hm))

/-- The farther holders are the same, though chance may order them otherwise. -/
theorem Sound.farther_commit_holders (h : r.Sound)
    (hhosts : ∀ other ∈ hosts, other ∈ r.holders key)
    (hshuffle : ∀ hosts, (shuffle hosts).Perm hosts)
    (hshuffle' : ∀ hosts, (shuffle' hosts).Perm hosts) :
    ((r.commit key (hosts.map digest)).1.farther shuffle' key).Perm
      (r.farther shuffle key) := by
  have hholders : (r.commit key (hosts.map digest)).1.holders key = r.holders key := by
    rw [holders, ring_commit]
    exact List.filter_congr fun host hm =>
      h.holds_commit_holders hhosts (Placement.Ring.mem_hosts_iff.1 hm)
  have hperm := (h.commit key (hosts.map digest)).nearby_append_farther_perm hshuffle' key
  rw [h.nearby_commit_holders hhosts, hholders] at hperm
  exact (List.perm_append_left_iff _).1
    (hperm.trans (h.nearby_append_farther_perm hshuffle key).symm)

end Recorded

/-- When the holders are a majority already, the read takes the same nearest ones as the
write, and both take the rest from the same few. -/
theorem Sound.overlap_of_many (h : r.Sound) (hsome : 0 < r.ring.size)
    (howns : ∀ host ∈ r.ring.members, r.ring.Owns host)
    (hshuffle : ∀ hosts, (shuffle hosts).Perm hosts)
    (hshuffle' : ∀ hosts, (shuffle' hosts).Perm hosts)
    (hmany : majority r.ring.size ≤ (r.holders key).length) :
    let written := r.write shuffle key .consensus
    let found := (r.commit key (written.map digest)).1.read shuffle' key .consensus
    majority r.ring.size < 2 * (found.filter (· ∈ written)).length := by
  intro written found
  have hwritten : written = r.read shuffle key .consensus := h.write_eq_read hshuffle hmany
  have hhosts : ∀ other ∈ written, other ∈ r.holders key := fun other hm =>
    h.mem_holders_of_read hshuffle (hwritten ▸ hm)
  have hfar := h.farther_commit_holders hhosts hshuffle hshuffle'
  have hfound := read_consensus (r.commit key (written.map digest)).1 shuffle' key
  rw [read_consensus] at hwritten
  rw [h.nearby_commit_holders hhosts, ring_commit] at hfound
  generalize (r.commit key (written.map digest)).1.farther shuffle' key = farther' at *
  have hperm := h.nearby_append_farther_perm hshuffle key
  have hnodup : (r.farther shuffle key).Nodup :=
    (List.nodup_append.1 (hperm.nodup_iff.2 (r.ring.nodup_hosts.filter _))).2.1
  have hlen := hperm.length_eq
  have hlen' := hfar.length_eq
  have hnear := h.length_nearby_le key
  rw [List.length_append] at hlen
  rw [show found = _ from hfound, hwritten]
  refine lt_two_mul_overlap (hnodup.sublist (List.take_sublist _ _)) (List.take_subset _ _)
    ((hfar.nodup_iff.2 hnodup).sublist (List.take_sublist _ _))
    (fun host hm => hfar.subset (List.mem_of_mem_take hm))
    (h.length_farther_lt hsome howns hshuffle key) ?_ ?_
  · rw [List.length_take]
    omega
  · rw [List.length_take, hlen']
    omega

/-- However many hold the key, more than half of the hosts that are read were written to. -/
theorem Sound.overlap (h : r.Sound) (hsome : 0 < r.ring.size)
    (howns : ∀ host ∈ r.ring.members, r.ring.Owns host)
    (hshuffle : ∀ hosts, (shuffle hosts).Perm hosts)
    (hshuffle' : ∀ hosts, (shuffle' hosts).Perm hosts) (key : Key) :
    let written := r.write shuffle key .consensus
    let found := (r.commit key (written.map digest)).1.read shuffle' key .consensus
    found.Nodup ∧ found.length < 2 * (found.filter (· ∈ written)).length := by
  intro written found
  have hsound : (r.commit key (written.map digest)).1.Sound := h.commit key _
  have hring : (r.commit key (written.map digest)).1.ring = r.ring := ring_commit ..
  refine ⟨hsound.nodup_read_consensus hshuffle' key, ?_⟩
  have hlen : found.length ≤ majority r.ring.size := by
    have hle := hsound.length_read_consensus_le shuffle' key
    rwa [hring] at hle
  by_cases hmany : majority r.ring.size ≤ (r.holders key).length
  · exact Nat.lt_of_le_of_lt hlen (h.overlap_of_many hsome howns hshuffle hshuffle' hmany)
  · have hall : found.filter (· ∈ written) = found := List.filter_eq_self.2 fun host hm =>
      decide_eq_true (h.mem_write_of_read hshuffle hshuffle' (by omega) hm)
    have hmajority : 0 < majority r.ring.size := Nat.succ_pos _
    have hpos : 0 < found.length := by
      have hwritten := h.length_write_consensus hsome howns hshuffle key
      obtain ⟨host, hm⟩ := List.exists_mem_of_length_pos (hwritten.symm ▸ hmajority)
      have hin := h.mem_write hshuffle hm
      have hholder : host ∈ (r.commit key (written.map digest)).1.holders key :=
        mem_holders.2 ⟨hring ▸ hin,
          (h.holds_commit (fun _ => h.mem_write hshuffle) hin).2 (Or.inr hm)⟩
      have hfound : found.length = _ := hsound.length_read_consensus hshuffle' key
      have hholders := List.length_pos_of_mem hholder
      rw [hring] at hfound
      omega
    rw [hall]
    omega

/-- More than half of the hosts that a read on consensus goes to were written to by the
write on consensus before it, which was recorded in their hints. That every host owns a
position is less than that all were added without a collision: then they own all. -/
theorem read_meets_write (h : r.Sound) (hsome : 0 < r.ring.size)
    (howns : ∀ host ∈ r.ring.members, r.ring.Owns host)
    (hshuffle : ∀ hosts, (shuffle hosts).Perm hosts)
    (hshuffle' : ∀ hosts, (shuffle' hosts).Perm hosts) (key : Key) :
    let written := r.write shuffle key .consensus
    let found := (r.commit key (written.map digest)).1.read shuffle' key .consensus
    found.Nodup ∧ found.length < 2 * (found.filter (· ∈ written)).length :=
  h.overlap hsome howns hshuffle hshuffle' key

/-- So it is while every host of the ring was added without a collision, whatever hosts came
and went besides. -/
theorem read_meets_write_of_freelyAdded (h : r.Sound) (hsome : 0 < r.ring.size) {factor : Nat}
    {hpos : 0 < factor} {changes : List Placement.Ring.Change}
    (hring : r.ring = .after factor hpos changes)
    (hadded : ∀ host ∈ r.ring.members, Placement.Ring.FreelyAdded factor hpos changes host)
    (hshuffle : ∀ hosts, (shuffle hosts).Perm hosts)
    (hshuffle' : ∀ hosts, (shuffle' hosts).Perm hosts) (key : Key) :
    let written := r.write shuffle key .consensus
    let found := (r.commit key (written.map digest)).1.read shuffle' key .consensus
    found.Nodup ∧ found.length < 2 * (found.filter (· ∈ written)).length :=
  h.overlap hsome (fun host hm => hring ▸ (hadded host hm).whole.owns) hshuffle hshuffle' key

/-- With three hosts and no hints a write goes to two of them along the ring, and a read
in another order goes to the same two. -/
theorem read_meets_write_of_trio :
    trio.write id "k" .consensus = ["b", "c"] ∧
      let written := trio.write id "k" .consensus
      let found := (trio.commit "k" (written.map digest)).1.read List.reverse "k" .consensus
      found.Nodup ∧ found.length < 2 * (found.filter (· ∈ written)).length := by
  have howns : ∀ host ∈ trio.ring.hosts, trio.ring.Owns host := by decide +kernel
  exact ⟨by decide +kernel, read_meets_write reached_trio.sound (by decide +kernel)
    (fun host hm => howns host (Placement.Ring.mem_hosts_iff.2 hm)) (fun _ => .refl _)
    (fun hosts => hosts.reverse_perm) "k"⟩

end Registry

end QuorumStore
