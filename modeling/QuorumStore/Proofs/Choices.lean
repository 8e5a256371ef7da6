import Mathlib.Data.Finset.Card
import QuorumStore.Proofs.ReadAfterWrite

/-!
# The hosts that are chosen

A read on consensus goes to hosts that are believed to hold the key, to as many as there
are up to a majority of the ring, and first to those that are nearest. A write on
consensus goes there too; where the believed holders are fewer than a majority it is
filled up with the first other hosts met along the ring, as far as any own a position.
No host is named twice, and all this holds whatever chance decides.
-/

namespace QuorumStore

/-! ## The owner of a key -/

namespace Placement.Ring

variable {ring : Ring} {host : Host}

/-- The hosts that own a position of the ring. -/
def owners (ring : Ring) : Finset Host := (ring.index.entries.map Prod.snd).toFinset

/-- The owner of the first position at a key or after it, and past the last position the
owner of the first one. -/
def owner? (ring : Ring) (key : Key) : Option Host :=
  (ring.index.around (Int.ofNat (Murmur.textDigest key).toNat)).head?

theorem mem_owners : host ∈ ring.owners ↔ ring.Owns host := by
  rw [owners, List.mem_toFinset, List.mem_map]
  rfl

/-- The walk from a key begins with its owner. -/
theorem nearest_one (h : ring.Sound) (key : Key) :
    ring.nearest key 1 = (ring.owner? key).toList := by
  rw [nearest_eq_take h, order, owner?]
  cases ring.index.around (Int.ofNat (Murmur.textDigest key).toNat) with
  | nil => rfl
  | cons first rest =>
    rw [List.eraseDups_cons]
    rfl

/-- A key has an owner as soon as any position is owned. -/
theorem exists_owner (h : ring.owners.Nonempty) (key : Key) :
    ∃ owner, ring.owner? key = some owner := by
  obtain ⟨host, howns⟩ := h
  have hmet : host ∈ ring.index.around (Int.ofNat (Murmur.textDigest key).toNat) :=
    Index.mem_around.2 (mem_owners.1 howns)
  exact ⟨_, List.head?_eq_some_head (List.ne_nil_of_mem hmet)⟩

end Placement.Ring

namespace Registry

variable {r : Registry} {shuffle : List Host → List Host} {key : Key} {host : Host}

/-! ## The believed holders -/

/-- The hosts of the peers whose hint holds a key. -/
def hintedHosts (r : Registry) (key : Key) : List Host :=
  (r.peers.values.filter fun p => p.hint.contains (Bytes.ofText key)).map Peer.host

/-- They are the nodes that are believed to hold it. -/
theorem Sound.hintedHosts_eq (h : r.Sound) (key : Key) :
    r.hintedHosts key = r.nodes.filter (r.holds key) := by
  rw [hintedHosts, nodes, values_eq_map_snd, List.filter_map, List.map_map, List.map_map,
    List.filter_map]
  refine congrArg (List.map _) (List.filter_congr fun entry hm => ?_)
  obtain ⟨peer, p⟩ := entry
  have hp := Std.TreeMap.mem_toList_iff_getElem?_eq_some.1 hm
  -- a peer is filed under the digest of its host, where its hint is looked up
  have hdigest : digest p.host = peer := (h.host_of_peer hp).1
  dsimp only [Function.comp_apply]
  rw [holds, hdigest, hinted, hp]

theorem Sound.hintedHosts_perm (h : r.Sound) (key : Key) :
    (r.hintedHosts key).Perm (r.holders key) := by
  rw [h.hintedHosts_eq]
  exact h.nodes_perm.filter _

theorem Sound.mem_hintedHosts (h : r.Sound) :
    host ∈ r.hintedHosts key ↔ host ∈ r.ring.members ∧ r.holds key host = true :=
  (h.hintedHosts_perm key).mem_iff.trans mem_holders

theorem Sound.nodup_hintedHosts (h : r.Sound) (key : Key) : (r.hintedHosts key).Nodup := by
  rw [h.hintedHosts_eq]
  exact h.nodup_nodes.filter _

/-- Different hosts of the ring have different digests. -/
theorem Sound.nodup_map_digest (h : r.Sound) {hosts : List Host} (hnodup : hosts.Nodup)
    (hin : ∀ host ∈ hosts, host ∈ r.ring.members) : (hosts.map digest).Nodup :=
  hnodup.map_on fun _ ha _ hb => h.digest_inj (hin _ ha) (hin _ hb)

/-! ## Reads -/

/-- What holds of the hosts that a key is read from. -/
structure ReadsExactly (r : Registry) (shuffle : List Host → List Host) (key : Key) : Prop where
  /-- On consensus no node is asked twice. -/
  distinct : ((r.read shuffle key .consensus).map digest).Nodup
  /-- All of them are believed to hold the key. -/
  believed : ∀ host ∈ r.read shuffle key .consensus, host ∈ r.hintedHosts key
  /-- They are as many as are believed to hold it, up to a majority of the ring. -/
  count : (r.read shuffle key .consensus).length
    = min (majority r.ring.size) (r.hintedHosts key).length
  /-- Those among the nearest majority come first, in the order of the ring. -/
  nearest_first : (r.ring.nearest key (majority r.ring.size)).filter (· ∈ r.hintedHosts key)
    <+: r.read shuffle key .consensus
  /-- On one node one of them is asked, and nobody exactly when there is none. -/
  one : (∃ host ∈ r.hintedHosts key, r.read shuffle key .one = [host]) ∨
    (r.hintedHosts key = [] ∧ r.read shuffle key .one = [])
  /-- On all nodes every peer is asked. -/
  strong : (r.read shuffle key .strong).Perm r.nodes
  /-- Each of them is asked once. -/
  strong_distinct : ((r.read shuffle key .strong).map digest).Nodup

/-- The nearest believed holders are those among the nearest majority. -/
theorem Sound.nearby_eq_hinted (h : r.Sound) (key : Key) :
    r.nearby key
      = (r.ring.nearest key (majority r.ring.size)).filter (· ∈ r.hintedHosts key) := by
  rw [h.nearby_eq]
  refine List.filter_congr fun host hm => ?_
  have hin := Placement.Ring.mem_hosts_iff.1 (Placement.Ring.mem_hosts_of_mem_nearest h.ring hm)
  rw [Bool.eq_iff_iff, decide_eq_true_eq, h.mem_hintedHosts, and_iff_right hin]

/-- A read on one node asks a believed holder, if there is any. -/
theorem Sound.read_one (h : r.Sound) (hshuffle : ∀ hosts, (shuffle hosts).Perm hosts)
    (key : Key) :
    (∃ host ∈ r.hintedHosts key, r.read shuffle key .one = [host]) ∨
      (r.hintedHosts key = [] ∧ r.read shuffle key .one = []) := by
  rw [read]
  cases hfirst : (shuffle r.nodes).find? (r.holds key) with
  | some host =>
    have hnode := (hshuffle r.nodes).mem_iff.1 (List.mem_of_find?_eq_some hfirst)
    exact Or.inl ⟨host, h.mem_hintedHosts.2 ⟨h.mem_nodes.1 hnode, List.find?_some hfirst⟩, rfl⟩
  | none =>
    refine Or.inr ⟨?_, rfl⟩
    rw [h.hintedHosts_eq, List.filter_eq_nil_iff]
    intro host hnode
    exact List.find?_eq_none.1 hfirst host ((hshuffle r.nodes).mem_iff.2 hnode)

/-- In every state in which ring and peers match, a read on consensus goes to different
believed holders, to as many as there are up to a majority, and first to those among the
nearest majority, in the order of the ring; a read on one node goes to one of them, if
there is any; and a read on all nodes goes to every peer once. -/
theorem reads_exactly (h : r.Sound) (hshuffle : ∀ hosts, (shuffle hosts).Perm hosts)
    (key : Key) : r.ReadsExactly shuffle key where
  distinct := h.nodup_map_digest (h.nodup_read_consensus hshuffle key) fun _ hm =>
    h.mem_read_consensus hshuffle hm
  believed _ hm := (h.hintedHosts_perm key).mem_iff.2 (h.mem_holders_of_read hshuffle hm)
  count := by rw [h.length_read_consensus hshuffle, (h.hintedHosts_perm key).length_eq]
  nearest_first := by
    rw [← h.nearby_eq_hinted, read_consensus]
    exact List.prefix_append _ _
  one := h.read_one hshuffle key
  strong := hshuffle r.nodes
  strong_distinct := h.nodup_map_digest ((hshuffle r.nodes).nodup_iff.2 h.nodup_nodes)
    fun _ hm => h.mem_nodes.1 ((hshuffle r.nodes).mem_iff.1 hm)

/-- Three hosts of which the one that is farthest from the key and the one that is nearest
are believed to hold it. -/
def believing : Registry := (trio.commit "k" [digest "a", digest "b"]).1

theorem sound_believing : believing.Sound := reached_trio.sound.commit "k" _

/-- The nearest one is read first and the farthest one next. -/
theorem reads_exactly_of_believing :
    believing.ring.nearest "k" 3 = ["b", "c", "a"] ∧
      believing.read List.reverse "k" .consensus = ["b", "a"] ∧
      believing.ReadsExactly List.reverse "k" :=
  ⟨by decide +kernel, by decide +kernel,
    reads_exactly sound_believing (fun hosts => hosts.reverse_perm) "k"⟩

/-! ## Writes -/

/-- What holds of the hosts that a key is written to. -/
structure WritesExactly (r : Registry) (shuffle : List Host → List Host) (key : Key) : Prop where
  /-- On consensus no node is written to twice. -/
  distinct : ((r.write shuffle key .consensus).map digest).Nodup
  /-- They are as many as are believed to hold the key or own a position, up to a majority
  of the ring. -/
  count : (r.write shuffle key .consensus).length
    = min (majority r.ring.size) ((r.hintedHosts key).toFinset ∪ r.ring.owners).card
  /-- Where a majority is believed to hold the key, only such hosts are chosen. -/
  believed : majority r.ring.size ≤ (r.hintedHosts key).length →
    ∀ host ∈ r.write shuffle key .consensus, host ∈ r.hintedHosts key
  /-- Where they are fewer all of them are chosen, and then the first others along the ring. -/
  filled : (r.hintedHosts key).length < majority r.ring.size →
    ∃ chosen, chosen.Perm (r.hintedHosts key) ∧
      r.write shuffle key .consensus
        = chosen ++ ((r.ring.order key).filter (· ∉ r.hintedHosts key)).take
          (majority r.ring.size - (r.hintedHosts key).length)
  /-- On one node exactly one is chosen if there is any choice: a believed holder, and
  where there is none the owner of the key. -/
  one : r.hintedHosts key ≠ [] ∨ r.ring.owners.Nonempty →
    ∃ host, r.write shuffle key .one = [host] ∧
      (r.hintedHosts key ≠ [] → host ∈ r.hintedHosts key) ∧
      (r.hintedHosts key = [] → r.ring.owner? key = some host)
  /-- On all nodes every peer is written to. -/
  strong : (r.write shuffle key .strong).Perm r.nodes
  /-- Each of them is written to once. -/
  strong_distinct : ((r.write shuffle key .strong).map digest).Nodup

/-- The hosts met along the ring are on the ring. -/
theorem Sound.mem_members_of_mem_order (h : r.Sound) (hm : host ∈ r.ring.order key) :
    host ∈ r.ring.members :=
  Placement.Ring.mem_hosts_iff.1 ((Placement.Ring.mem_order_iff.1 hm).mem_hosts h.ring)

/-- Believed holders and position owners are counted by the holders and by what else the
walk along the ring meets. -/
theorem Sound.card_hinted_union_owners (h : r.Sound) (key : Key) :
    ((r.hintedHosts key).toFinset ∪ r.ring.owners).card
      = (r.hintedHosts key).length
        + ((r.ring.order key).filter (· ∉ r.hintedHosts key)).length := by
  have hall : (r.hintedHosts key ++ (r.ring.order key).filter (· ∉ r.hintedHosts key)).Nodup := by
    refine List.nodup_append.2 ⟨h.nodup_hintedHosts key,
      (Placement.Ring.nodup_order r.ring key).filter _, ?_⟩
    rintro a hheld b hother rfl
    exact of_decide_eq_true (List.mem_filter.1 hother).2 hheld
  have hunion : (r.hintedHosts key).toFinset ∪ r.ring.owners
      = (r.hintedHosts key ++ (r.ring.order key).filter (· ∉ r.hintedHosts key)).toFinset := by
    ext host
    rw [Finset.mem_union, List.mem_toFinset, List.mem_toFinset, List.mem_append, List.mem_filter,
      decide_eq_true_eq, Placement.Ring.mem_owners, Placement.Ring.mem_order_iff]
    tauto
  rw [hunion, List.toFinset_card_of_nodup hall, List.length_append]

/-- Where the believed holders are fewer than a majority, a write is filled up with the
first other hosts along the ring. -/
theorem Sound.write_of_few (h : r.Sound) (hshuffle : ∀ hosts, (shuffle hosts).Perm hosts)
    (hfew : (r.hintedHosts key).length < majority r.ring.size) :
    (r.read shuffle key .consensus).Perm (r.hintedHosts key) ∧
      r.write shuffle key .consensus
        = r.read shuffle key .consensus
          ++ ((r.ring.order key).filter (· ∉ r.hintedHosts key)).take
            (majority r.ring.size - (r.hintedHosts key).length) := by
  have hholders := h.hintedHosts_perm key
  have hread : (r.read shuffle key .consensus).Perm (r.hintedHosts key) :=
    (h.read_perm_holders hshuffle (hholders.length_eq ▸ hfew.le)).trans hholders.symm
  have hpadding : r.padding shuffle key
      = (r.ring.order key).filter (· ∉ r.hintedHosts key) := by
    rw [padding, Placement.Ring.nearest_eq_order h.ring key (Nat.le_refl _)]
    refine List.filter_congr fun host hm => ?_
    rw [Bool.eq_iff_iff, decide_eq_true_eq, h.isNew_iff (fun _ => h.mem_read_consensus hshuffle)
      (h.mem_members_of_mem_order hm), hread.mem_iff]
  exact ⟨hread, by rw [h.write_consensus hshuffle, hpadding, hread.length_eq]⟩

/-- A write on consensus goes to as many hosts as it can choose from, up to a majority. -/
theorem Sound.length_write (h : r.Sound) (hshuffle : ∀ hosts, (shuffle hosts).Perm hosts)
    (key : Key) :
    (r.write shuffle key .consensus).length
      = min (majority r.ring.size) ((r.hintedHosts key).toFinset ∪ r.ring.owners).card := by
  rw [h.card_hinted_union_owners]
  rcases Nat.lt_or_ge (r.hintedHosts key).length (majority r.ring.size) with hfew | hmany
  · obtain ⟨hread, hwrite⟩ := h.write_of_few hshuffle hfew
    rw [hwrite, List.length_append, hread.length_eq, List.length_take]
    omega
  · have hholders := (h.hintedHosts_perm key).length_eq
    rw [h.write_eq_read hshuffle (hholders ▸ hmany), h.length_read_consensus hshuffle]
    omega

/-- A write on one node goes to a believed holder, or else to the owner of the key. -/
theorem Sound.write_one (h : r.Sound) (hshuffle : ∀ hosts, (shuffle hosts).Perm hosts)
    (hchoice : r.hintedHosts key ≠ [] ∨ r.ring.owners.Nonempty) :
    ∃ host, r.write shuffle key .one = [host] ∧
      (r.hintedHosts key ≠ [] → host ∈ r.hintedHosts key) ∧
      (r.hintedHosts key = [] → r.ring.owner? key = some host) := by
  rw [write]
  rcases h.read_one hshuffle key with ⟨host, hheld, hread⟩ | ⟨hnone, hread⟩
  · refine ⟨host, ?_, fun _ => hheld, fun hnone => absurd hheld (hnone ▸ List.not_mem_nil)⟩
    rw [hread]
    rfl
  · obtain ⟨owner, howner⟩ :=
      Placement.Ring.exists_owner (hchoice.resolve_left (not_not.2 hnone)) key
    have hnearest : r.ring.nearest key 1 = [owner] := by
      rw [Placement.Ring.nearest_one h.ring, howner]
      rfl
    refine ⟨owner, ?_, fun hsome => absurd hnone hsome, fun _ => howner⟩
    have hknown : r.known [owner] = [owner] := by
      rw [← hnearest]
      exact h.known_eq fun other hm => Placement.Ring.mem_hosts_iff.1
        (Placement.Ring.mem_hosts_of_mem_nearest h.ring hm)
    rw [hread, hnearest, hknown]
    rfl

/-- In every state in which ring and peers match, a write on consensus goes to different
hosts, to as many as are believed to hold the key or own a position up to a majority:
to believed holders only where they are a majority, and else to all of them and to the
first others along the ring. A write on one node goes to one host if there is a choice,
to a believed holder or else to the owner of the key; and a write on all nodes goes to
every peer once. -/
theorem writes_exactly (h : r.Sound) (hshuffle : ∀ hosts, (shuffle hosts).Perm hosts)
    (key : Key) : r.WritesExactly shuffle key where
  distinct := h.nodup_map_digest (h.nodup_write hshuffle key .consensus) fun _ hm =>
    h.mem_write hshuffle hm
  count := h.length_write hshuffle key
  believed hmany host hm := by
    have hholders := h.hintedHosts_perm key
    rw [h.write_eq_read hshuffle (hholders.length_eq ▸ hmany)] at hm
    exact hholders.mem_iff.2 (h.mem_holders_of_read hshuffle hm)
  filled hfew := ⟨_, h.write_of_few hshuffle hfew⟩
  one := h.write_one hshuffle
  strong := hshuffle r.nodes
  strong_distinct := h.nodup_map_digest ((hshuffle r.nodes).nodup_iff.2 h.nodup_nodes)
    fun _ hm => h.mem_nodes.1 ((hshuffle r.nodes).mem_iff.1 hm)

/-- Of three hosts only the one that is farthest from the key is believed to hold it. It is
written to, and so is the nearest one, in its place along the ring. -/
theorem writes_exactly_of_trio :
    (trio.commit "k" [digest "a"]).1.write id "k" .consensus = ["a", "b"] ∧
      (trio.commit "k" [digest "a"]).1.WritesExactly id "k" :=
  ⟨by decide +kernel,
    writes_exactly (reached_trio.sound.commit "k" _) (fun _ => .refl _) "k"⟩

end Registry

end QuorumStore
