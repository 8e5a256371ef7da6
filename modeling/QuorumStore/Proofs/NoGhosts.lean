import QuorumStore.Proofs.SharedPositions

/-!
# No ghost hosts

The hosts of a ring and the owners of its positions are kept apart, but whatever hosts
come and go, no position belongs to a host that is not on the ring, nor to one whose
position it is not. So a host that left is not met again before it comes back. The
answers of joining and leaving tell exactly whether a host got, or gave back, as many
positions as it should have.
-/

namespace QuorumStore.Placement.Ring

variable {factor : Nat} {h : 0 < factor} {ring : Ring} {host : Host}

/-- What the positions, the lookups and the answers of a ring have to do with the hosts
that are on it. -/
structure NoGhosts (ring : Ring) : Prop where
  /-- Every position taken belongs to a host on the ring and is one of its positions. -/
  owner : ∀ e ∈ ring.index.entries, ring.contains e.2 = true ∧ e.1 ∈ ring.positions e.2
  /-- The hosts for a key are no more than asked for. -/
  few : ∀ key n, (ring.nearest key n).length ≤ n
  /-- They are different. -/
  distinct : ∀ key n, (ring.nearest key n).Nodup
  /-- They are on the ring. -/
  present : ∀ key n, ∀ host ∈ ring.nearest key n, ring.contains host = true
  /-- A host that leaves is not met again unless it comes back. -/
  gone : ∀ host, ∀ later : List Change, .add host ∉ later →
    ∀ key n, host ∉ (later.foldl Change.onRing (ring.remove host).1).nearest key n
  /-- No more positions are taken than the hosts have. -/
  taken : ring.taken ≤ ring.factor * ring.size
  /-- Joining succeeds for a new host whose positions are different and all free. -/
  joined : ∀ host, (ring.add host).2 = true ↔ ring.contains host = false ∧
    (ring.positions host).Nodup ∧ ∀ p ∈ ring.positions host, ring.index.host? p = none
  /-- Leaving succeeds for a host whose positions are different and all its own. -/
  left : ∀ host, (ring.remove host).2 = true ↔ ring.contains host = true ∧
    (ring.positions host).Nodup ∧ ∀ p ∈ ring.positions host, ring.index.host? p = some host

/-! ## Answers -/

/-- What holds of the first position holds of all, and all are different, when it holds of
those that follow and none of them is the first again. -/
theorem nodup_and_forall_cons_iff {P : Int → Prop} {p : Int} {rest : List Int} (hp : P p) :
    ((p :: rest).Nodup ∧ ∀ q ∈ p :: rest, P q) ↔ rest.Nodup ∧ ∀ q ∈ rest, q ≠ p ∧ P q := by
  rw [List.nodup_cons, List.forall_mem_cons, and_iff_right hp]
  constructor
  · rintro ⟨⟨hin, hnodup⟩, hrest⟩
    exact ⟨hnodup, fun q hq => ⟨fun heq => hin (heq ▸ hq), hrest q hq⟩⟩
  · rintro ⟨hnodup, hrest⟩
    exact ⟨⟨fun hin => (hrest p hin).1 rfl, hnodup⟩, fun q hq => (hrest q hq).2⟩

/-- Taking positions succeeds when they are different and all free. -/
theorem claim_answer_iff {index : Index} (hi : index.Sound) (positions : List Int) :
    (claim host index positions).2 = true ↔
      positions.Nodup ∧ ∀ p ∈ positions, index.host? p = none := by
  induction positions generalizing index with
  | nil => simp [claim]
  | cons p rest ih =>
    rw [claim, Bool.and_eq_true, ih (hi.insert p host), hi.insert_answer_iff]
    by_cases hp : index.host? p = none
    · rw [and_iff_right hp, nodup_and_forall_cons_iff hp]
      refine and_congr_right fun _ => forall₂_congr fun q _ => ?_
      rw [hi.host?_insert hp]
      split_ifs with hq
      · simp [hq]
      · exact (and_iff_right hq).symm
    · simp [hp]

/-- Giving positions up succeeds when they are different and all the host's own. -/
theorem release_answer_iff {index : Index} (hi : index.Sound) (positions : List Int) :
    (release host index positions).2 = true ↔
      positions.Nodup ∧ ∀ p ∈ positions, index.host? p = some host := by
  induction positions generalizing index with
  | nil => simp [release]
  | cons p rest ih =>
    rw [release]
    by_cases hp : index.host? p = some host
    · rw [if_pos hp, Bool.and_eq_true, and_iff_right (hi.delete_answer hp), ih (hi.delete p),
        nodup_and_forall_cons_iff hp]
      refine and_congr_right fun _ => forall₂_congr fun q _ => ?_
      rw [hi.host?_delete]
      split_ifs with hq
      · simp [hq]
      · exact (and_iff_right hq).symm
    · simp [hp]

theorem add_answer_iff (hs : ring.Sound) (host : Host) :
    (ring.add host).2 = true ↔ ring.contains host = false ∧
      (ring.positions host).Nodup ∧ ∀ p ∈ ring.positions host, ring.index.host? p = none := by
  by_cases hin : host ∈ ring.members
  · simp [add_of_mem hin, contains_iff.2 hin]
  · rw [(add_of_not_mem hin).2, claim_answer_iff hs.index,
      and_iff_right (contains_eq_false_iff.2 hin)]

theorem remove_answer_iff (hs : ring.Sound) (host : Host) :
    (ring.remove host).2 = true ↔ ring.contains host = true ∧
      (ring.positions host).Nodup ∧ ∀ p ∈ ring.positions host, ring.index.host? p = some host := by
  rw [remove]
  split_ifs with hin
  · rw [and_iff_right hin]
    exact release_answer_iff hs.index _
  · simp [hin]

/-! ## Positions taken -/

/-- Every position taken is one of those that the hosts have. -/
theorem taken_le (hs : ring.Sound) : ring.taken ≤ ring.factor * ring.size := by
  let all := ring.hosts.flatMap fun host => (ring.positions host).map (·, host)
  have hnodup : ring.index.entries.Nodup := Index.nodup_of_increasing hs.index.pairwise_entries
  have hsub : ring.index.entries ⊆ all := fun e he =>
    List.mem_flatMap.2 ⟨e.2, mem_hosts_iff.2 (hs.member e he),
      List.mem_map.2 ⟨e.1, hs.position e he, rfl⟩⟩
  calc ring.taken
      = ring.index.entries.length := hs.index.size_eq
    _ ≤ all.length := (hnodup.subperm hsub).length_le
    _ = ring.factor * ring.size := by
        simp only [all, List.length_flatMap, List.length_map, length_positions,
          List.map_const', List.sum_replicate_nat, length_hosts, Nat.mul_comm]

/-! ## Hosts that left -/

/-- A host that is not on the ring stays away until it comes. -/
theorem not_mem_foldl_onRing (hout : host ∉ ring.members) {later : List Change}
    (hlater : Change.add host ∉ later) : host ∉ (later.foldl Change.onRing ring).members := by
  induction later generalizing ring with
  | nil => exact hout
  | cons change rest ih =>
    rw [List.mem_cons, not_or] at hlater
    refine ih ?_ hlater.2
    cases change with
    | add other =>
      intro hin
      rcases mem_members_add.1 hin with rfl | hin
      · exact hlater.1 rfl
      · exact hout hin
    | remove other => exact fun hin => hout (mem_members_remove.1 hin).2

theorem Sound.noGhosts (hs : ring.Sound) : ring.NoGhosts where
  owner e he := ⟨contains_iff.2 (hs.member e he), hs.position e he⟩
  few := length_nearest_le hs
  distinct := nodup_nearest hs
  present key n host hm :=
    contains_iff.2 (mem_hosts_iff.1 (mem_hosts_of_mem_nearest hs hm))
  gone host later hlater key n hm := by
    have hout : host ∉ (ring.remove host).1.members := fun hin => (mem_members_remove.1 hin).1 rfl
    exact not_mem_foldl_onRing hout hlater (mem_hosts_iff.1
      (mem_hosts_of_mem_nearest ((hs.remove host).foldl_onRing later) hm))
  taken := taken_le hs
  joined := add_answer_iff hs
  left := remove_answer_iff hs

/-! ## Whole histories -/

theorem factor_onRing (ring : Ring) (change : Change) :
    (change.onRing ring).factor = ring.factor := by
  cases change with
  | add host =>
    rw [Change.onRing, add]
    split_ifs <;> rfl
  | remove host =>
    rw [Change.onRing, remove]
    split_ifs <;> rfl

theorem factor_after (changes : List Change) : (after factor h changes).factor = factor := by
  induction changes using List.reverseRecOn with
  | nil => rfl
  | append_singleton changes change ih =>
    rw [after, List.foldl_append]
    exact (factor_onRing _ change).trans ih

/-- However hosts come and go, and whatever positions they share, a ring keeps its factor
and has no ghost hosts. -/
theorem noGhosts_after (factor : Nat) (h : 0 < factor) (changes : List Change) :
    (after factor h changes).factor = factor ∧ (after factor h changes).NoGhosts :=
  ⟨factor_after changes, (sound_after changes).noGhosts⟩

/-- The host `a` takes the position with it that `a1` should have too, and `a1` stays with
the ten others. -/
theorem noGhosts_after_of_shared :
    let ring := after 11 (by decide) [.add "a", .add "a1", .remove "a"]
    ring.NoGhosts ∧ ring.taken = 10 ∧ (ring.remove "a1").2 = false :=
  ⟨(noGhosts_after 11 (by decide) [.add "a", .add "a1", .remove "a"]).2, by decide +kernel,
    by decide +kernel⟩

end QuorumStore.Placement.Ring
