import QuorumStore.Proofs.WriteOutcomes

/-!
# The order of the replies to a write

The replies to a write may arrive in any order. The first of them is what the others are
compared with, and it is the one that the caller is given. Still the order decides nothing:
that change sets agree is an equivalence, so whether they dissent does not depend on which
came first, and the nodes that confirm are the same nodes.
-/

namespace QuorumStore

variable {σ : Type}

/-- The change sets of replies in another order. -/
theorem changeSets_perm {replies replies' : List Tagged} (h : replies'.Perm replies) :
    (changeSets replies').Perm (changeSets replies) :=
  h.filterMap _

namespace Verdict

variable {kind : WriteKind} {key : Key} {members : List FieldValue} {quorum : Quorum}
  {total : Nat} {replies replies' : List Tagged}

/-- What speaks against a write does so in whatever order the replies arrive. -/
theorem undisputed_perm (h : replies'.Perm replies) :
    Undisputed replies' ↔ Undisputed replies := by
  unfold Undisputed
  rw [ChangeSet.unanimous_perm (changeSets_perm h)]
  simp only [h.mem_iff]

/-- So do absences. -/
theorem absent_perm (h : replies'.Perm replies) : Absent replies' ↔ Absent replies := by
  unfold Absent
  simp only [h.mem_iff]

/-- The kind of the outcome is the same in every order, as what decides it is. -/
theorem kind_ofWrite_perm (h : replies'.Perm replies) :
    (ofWrite kind key members quorum total replies').outcome.kind
      = (ofWrite kind key members quorum total replies).outcome.kind := by
  obtain ⟨hdone, hdegraded, hnotFound, hunmet⟩ :=
    kind_ofWrite kind key members quorum total replies
  obtain ⟨hdone', hdegraded', hnotFound', hunmet'⟩ :=
    kind_ofWrite kind key members quorum total replies'
  rw [(changeSets_perm h).length_eq] at hdone' hdegraded' hnotFound' hunmet'
  rw [undisputed_perm h] at hdone' hdegraded'
  rw [absent_perm h] at hnotFound' hunmet'
  cases hkind : (ofWrite kind key members quorum total replies).outcome.kind with
  | done => exact hdone'.2 (hdone.1 hkind)
  | degraded => exact hdegraded'.2 (hdegraded.1 hkind)
  | notFound => exact hnotFound'.2 (hnotFound.1 hkind)
  | unmet => exact hunmet'.2 (hunmet.1 hkind)

/-- Unanimous change sets are represented by one that agrees with the representative that
they have in another order. -/
theorem agrees_value_perm (h : replies'.Perm replies) (hclean : Undisputed replies) :
    (Agreement.ofList (changeSets replies)).value.agrees
      (Agreement.ofList (changeSets replies')).value = true := by
  rw [ChangeSet.agrees_iff]
  have hperm := changeSets_perm h
  by_cases hnone : changeSets replies = []
  · rw [hnone] at hperm ⊢
    rw [hperm.eq_nil]
    exact .refl _
  · have hsome : changeSets replies' ≠ [] := fun h' => hnone (h' ▸ hperm).nil_eq.symm
    exact hclean.2 _ (Agreement.value_ofList_mem hnone) _
      (hperm.mem_iff.1 (Agreement.value_ofList_mem hsome))

/-- Two verdicts on a write tell the caller the same, record the same nodes and want the
same fields repaired. -/
structure Alike (v v' : Verdict ChangeSet) : Prop where
  /-- The outcomes are of one kind. -/
  kind : v'.outcome.kind = v.outcome.kind
  /-- They tell of the same number of nodes asked, and of answers. -/
  counts : v'.outcome.counts? = v.outcome.counts?
  /-- The change sets agree, if the write is done. -/
  value : ∀ c d, v.outcome = .done c → v'.outcome = .done d → c.agrees d = true
  /-- The same nodes confirm. -/
  confirmed : ∀ peer, peer ∈ v'.confirmed ↔ peer ∈ v.confirmed
  /-- The same fields are to be repaired. -/
  repairs : v'.repairs = v.repairs

/-- The verdicts on replies in two orders. -/
theorem ofWrite_perm (h : replies'.Perm replies) :
    Alike (ofWrite kind key members quorum total replies)
      (ofWrite kind key members quorum total replies') where
  kind := kind_ofWrite_perm h
  counts := by
    rw [counts?_ofWrite, counts?_ofWrite, kind_ofWrite_perm h, (changeSets_perm h).length_eq]
  value c d hc hd := by
    obtain ⟨-, hclean, rfl⟩ := undisputed_of_done hc
    obtain ⟨-, -, rfl⟩ := undisputed_of_done hd
    exact agrees_value_perm h hclean
  confirmed peer := by
    refine mem_confirmed_ofWrite.trans (Iff.trans ?_ mem_confirmed_ofWrite.symm)
    rw [kind_ofWrite_perm h]
    simp only [h.mem_iff]
  repairs := by rw [repairs_ofWrite, repairs_ofWrite, kind_ofWrite_perm h]

end Verdict

namespace Site

variable {fleet fleet' : Fleet σ} {site : Site σ}

/-- Whatever the nodes send to a write, in whatever order it arrives, the caller is told
the same, the same hints and clocks are left and the same fields are to be repaired; and
the change sets dissent in one order exactly if they do in the other. -/
theorem write_alike (h : fleet.Reorders fleet') (site : Site σ)
    (shuffle : List Host → List Host) (kind : WriteKind) (key : Key) (members : List FieldValue)
    (quorum : Quorum) :
    let call := kind.call key members
    let hosts := site.registry.write shuffle key quorum
    let (v, after) := site.write fleet shuffle kind key members quorum
    let (v', after') := site.write fleet' shuffle kind key members quorum
    v.Alike v' ∧
      (∀ peer : UInt32, after'.registry.peers[peer]? = after.registry.peers[peer]?) ∧
      (Agreement.ofList (changeSets (fleet'.scatter hosts call site.world).1)).fault?.isSome
        = (Agreement.ofList (changeSets (fleet.scatter hosts call site.world).1)).fault?.isSome := by
  intro call hosts
  have hperm := h.scatter call hosts site.world
  have halike : Verdict.Alike
      (Verdict.ofWrite kind key members quorum hosts.length (fleet.scatter hosts call site.world).1)
      (Verdict.ofWrite kind key members quorum hosts.length
        (fleet'.scatter hosts call site.world).1) := Verdict.ofWrite_perm hperm
  refine ⟨halike, fun peer => ?_, Agreement.isSome_fault?_perm (changeSets_perm hperm)⟩
  change (site.registry.commit key _).1.peers[peer]? = (site.registry.commit key _).1.peers[peer]?
  rw [Registry.getElem?_commit, Registry.getElem?_commit]
  exact Option.map_congr fun p _ => if_congr (halike.confirmed peer) rfl rfl

/-- Two hosts list the same fields in different orders. Whichever is heard first, the write
is done, with what that one said. -/
theorem write_alike_backwards :
    let fleet := Fleet.scripted fun host =>
      if host = "a" then [.changes ⟨["f", "g"], []⟩] else [.changes ⟨["g", "f"], []⟩]
    let backwards := fleet.rearranged List.reverse
    let site : Site Unit := ⟨.duo, ()⟩
    let members : List FieldValue := [⟨"f", [1], 1⟩, ⟨"g", [2], 1⟩]
    let call := WriteKind.insert.call "k" members
    let (v, after) := site.write fleet id .insert "k" members .strong
    let (v', after') := site.write backwards id .insert "k" members .strong
    v.outcome = .done ⟨["f", "g"], []⟩ ∧ v'.outcome = .done ⟨["g", "f"], []⟩ ∧
      fleet.Reorders backwards ∧ v.Alike v' ∧
      (∀ peer : UInt32, after'.registry.peers[peer]? = after.registry.peers[peer]?) ∧
      (Agreement.ofList (changeSets
          (backwards.scatter ["a", "b"] call ()).1)).fault?.isSome
        = (Agreement.ofList (changeSets (fleet.scatter ["a", "b"] call ()).1)).fault?.isSome := by
  intro fleet backwards site members call
  have hhosts : site.registry.write id "k" .strong = ["a", "b"] := by decide +kernel
  have halike := write_alike (fleet.reorders_rearranged List.reverse_perm) site id .insert "k"
    members .strong
  rw [hhosts] at halike
  exact ⟨by decide +kernel, by decide +kernel, fleet.reorders_rearranged List.reverse_perm,
    halike⟩

end Site

end QuorumStore
