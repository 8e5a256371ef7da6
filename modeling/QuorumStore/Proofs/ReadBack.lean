import QuorumStore.Proofs.BatchOutcomes
import QuorumStore.Proofs.Findable
import QuorumStore.Proofs.HealthyReads
import QuorumStore.Proofs.WriteOutcomes

/-!
# What is written is read back

A write that asks for every node and is done has reached every store and every hint,
so a read that follows finds a node, whatever quorum it asks for, and every node that
it goes to has the record that was written. The store takes a record of any score,
though, and the read discards those whose score is negative. So what was written is
read back if its score is not negative; with a negative score the write succeeds and
every read of the field fails.
-/

namespace QuorumStore

/-! ## The members that a store takes -/

/-- Of members with different fields, one that succeeds is stored. -/
theorem Cells.getElem?_of_success {kind : WriteKind} {cells : Cells} {members : List FieldValue}
    (hdistinct : (members.map FieldValue.field).Nodup) {m : FieldValue} (hm : m ∈ members)
    (h : m.field ∈ (cells.write kind members).2.success) :
    (cells.write kind members).1[m.field]? = some (kind.cell m) := by
  induction members generalizing cells with
  | nil => cases hm
  | cons first rest ih =>
    obtain ⟨hnew, hrest⟩ := List.nodup_cons.1 hdistinct
    cases hwins : kind.wins cells[first.field]? first.score with
    | true =>
      obtain ⟨hcells, hchanges⟩ := write_of_wins hwins rest
      rw [hchanges] at h
      rw [hcells]
      rcases List.mem_cons.1 hm with rfl | hlater
      · -- no later member names the field
        have hnone : rest.filter (·.field = m.field) = [] := List.filter_eq_nil_iff.2
          fun other hother hsame => hnew (of_decide_eq_true hsame ▸ List.mem_map_of_mem hother)
        rw [getElem?_write, hnone]
        exact Std.TreeMap.getElem?_insert_self
      · refine ih hrest hlater ((List.mem_cons.1 h).resolve_left fun hsame => hnew ?_)
        exact hsame ▸ List.mem_map_of_mem hlater
    | false =>
      obtain ⟨hcells, hchanges⟩ := write_of_loses hwins rest
      rw [hchanges] at h
      rw [hcells]
      rcases List.mem_cons.1 hm with rfl | hlater
      · exact absurd ((tellsOf_write kind cells rest).success.subset h) hnew
      · exact ih hrest hlater h

/-- So it is in a store that takes the batch. -/
theorem Store.cell?_of_success {store : Store} {kind : WriteKind} {key : Key}
    {members : List FieldValue} (hdistinct : (members.map FieldValue.field).Nodup)
    {m : FieldValue} (hm : m ∈ members)
    (h : m.field ∈ (store.write kind key members).2.success) :
    (store.apply ⟨kind, key, members⟩).cell? key m.field = some (kind.cell m) := by
  have hcells : (store.apply ⟨kind, key, members⟩).cells key
      = ((store.cells key).write kind members).1 := cells_apply_self store ⟨kind, key, members⟩
  rw [cell?, hcells]
  exact Cells.getElem?_of_success hdistinct hm h

/-! ## A write that is done -/

namespace Site

variable {σ : Type} {fleet : Fleet σ} {stores : σ → Host → Store} {site : Site σ}
  {shuffle : List Host → List Host} {kind : WriteKind} {key : Key} {members : List FieldValue}
  {quorum : Quorum} {changes : ChangeSet}

/-- The change sets that healthy hosts send are those of their stores. -/
theorem changeSets_healthy (healthy : fleet.Healthy stores) {hosts : List Host}
    (hnodup : hosts.Nodup) (kind : WriteKind) (key : Key) (members : List FieldValue) (s : σ) :
    (changeSets (fleet.scatter hosts (kind.call key members) s).1).Perm
      (hosts.map fun host => ((stores s host).write kind key members).2) := by
  refine ((healthy.scatter (kind.call key members) hnodup s).1.filterMap _).trans ?_
  rw [List.filterMap_map, ← List.filterMap_eq_map]
  refine List.Perm.of_eq (congrArg (hosts.filterMap ·) (funext fun host => ?_))
  cases kind <;> rfl

/-- A write that is done tells of each field what every store that it went to says. -/
theorem sameFields_of_done (healthy : fleet.Healthy stores)
    (hnodup : (site.registry.write shuffle key quorum).Nodup)
    (hdone : (site.write fleet shuffle kind key members quorum).1.outcome = .done changes)
    {host : Host} (hm : host ∈ site.registry.write shuffle key quorum) :
    changes.SameFields ((stores site.world host).write kind key members).2 := by
  set replies := (fleet.scatter (site.registry.write shuffle key quorum)
    (kind.call key members) site.world).1
  have hsent : (changeSets replies).Perm _ :=
    changeSets_healthy healthy hnodup kind key members site.world
  have hmem := hsent.mem_iff.2 (List.mem_map_of_mem hm)
  obtain ⟨-, ⟨-, hunanimous⟩, hvalue⟩ : _ ∧ Verdict.Undisputed replies ∧
    (Agreement.ofList (changeSets replies)).value = changes := Verdict.undisputed_of_done hdone
  have hfirst := Agreement.value_ofList_mem (List.ne_nil_of_mem hmem)
  exact hunanimous _ (hvalue ▸ hfirst) _ hmem

/-- Every host that it went to is recorded as holding the key. -/
theorem holds_of_done (healthy : fleet.Healthy stores) (hsound : site.registry.Sound)
    (hshuffle : ∀ hosts, (shuffle hosts).Perm hosts)
    (hdone : (site.write fleet shuffle kind key members quorum).1.outcome = .done changes)
    {host : Host} (hm : host ∈ site.registry.write shuffle key quorum) :
    (site.write fleet shuffle kind key members quorum).2.registry.holds key host = true := by
  have hnodup := hsound.nodup_write hshuffle key quorum
  have hreplies := (healthy.scatter (kind.call key members) hnodup site.world).1
  refine (Registry.hinted_commit _ key _ _).2 (Or.inr
    ⟨?_, hsound.contains_peer (hsound.mem_write hshuffle hm)⟩)
  refine Verdict.mem_confirmed_ofWrite.2 ⟨Or.inl (congrArg Outcome.kind hdone), ?_⟩
  refine ⟨_, hreplies.mem_iff.2 (List.mem_map_of_mem hm), rfl, ?_⟩
  cases kind <;> rfl

/-- A member that succeeds is in every store that the write went to. -/
theorem cell?_of_done (healthy : fleet.Healthy stores)
    (hnodup : (site.registry.write shuffle key quorum).Nodup)
    (hdistinct : (members.map FieldValue.field).Nodup)
    (hdone : (site.write fleet shuffle kind key members quorum).1.outcome = .done changes)
    {m : FieldValue} (hmember : m ∈ members) (hsuccess : m.field ∈ changes.success)
    {host : Host} (hm : host ∈ site.registry.write shuffle key quorum) :
    (stores (site.write fleet shuffle kind key members quorum).2.world host).cell? key m.field
      = some (kind.cell m) := by
  rw [applied_of_done healthy.honest hnodup hdone hm]
  refine Store.cell?_of_success hdistinct hmember ?_
  exact ((sameFields_of_done healthy hnodup hdone hm).success m.field).1 hsuccess

/-! ## The read that follows -/

/-- A list of members with different fields is inserted on every node, and the insertion is
done. Then a read of a field that succeeded, on any quorum and whatever chance decides,
serves exactly what was written and asks for no repair, if the score written is not
negative. With a negative score it fails although every node that it goes to answers. -/
theorem select_after_insert (healthy : fleet.Healthy stores) (hreached : site.registry.Reached)
    {shuffle' : List Host → List Host} (hshuffle : ∀ hosts, (shuffle hosts).Perm hosts)
    (hshuffle' : ∀ hosts, (shuffle' hosts).Perm hosts)
    (hdistinct : (members.map FieldValue.field).Nodup)
    (hdone : (site.write fleet shuffle .insert key members .strong).1.outcome = .done changes)
    {m : FieldValue} (hmember : m ∈ members) (hsuccess : m.field ∈ changes.success)
    (quorum : Quorum) :
    let after := (site.write fleet shuffle .insert key members .strong).2
    let v := (after.select fleet shuffle' key m.field quorum).1
    let total := (after.registry.read shuffle' key quorum).length
    if 0 ≤ m.score then v.outcome = .done m ∧ v.repairs = []
    else v.outcome = .unmet total total [] ∧ v.repairs = [⟨key, m.field, []⟩] := by
  intro after v total
  have hwritten : ∀ host, host ∈ site.registry.write shuffle key .strong ↔
      host ∈ site.registry.ring.members := fun host =>
    (hshuffle site.registry.nodes).mem_iff.trans hreached.sound.mem_nodes
  have hsound : after.registry.Sound := hreached.sound.commit _ _
  have hring : after.registry.ring = site.registry.ring := Registry.ring_commit _ _ _
  have hserves : ∀ host ∈ site.registry.ring.members,
      (stores after.world host).select key m.field = .ok m := fun host hin =>
    Store.select_eq_ok (cell?_of_done healthy (hreached.sound.nodup_write hshuffle key .strong)
      hdistinct hdone hmember hsuccess ((hwritten host).2 hin)) rfl
  obtain ⟨first, hfirst⟩ : ∃ host, host ∈ site.registry.write shuffle key .strong :=
    List.exists_mem_of_ne_nil _ fun hnone =>
      (Verdict.undisputed_of_done hdone).1 (by rw [hnone]; rfl)
  have hsome : after.registry.read shuffle' key quorum ≠ [] := by
    have hin : first ∈ after.registry.ring.members := by
      rw [hring]
      exact (hwritten first).1 hfirst
    have hheld := holds_of_done healthy hreached.sound hshuffle hdone hfirst
    exact hsound.read_asks hin hheld hshuffle' quorum
  have hv : v = _ := healthy.ofSelect_of_alike (hsound.nodup_read hshuffle' key quorum) key
    m.field after.world quorum rfl (hsound.digest_inj_read hshuffle' key quorum) hsome
    fun host hm => hserves host (hring ▸ hsound.mem_read hshuffle' hm)
  rw [hv]
  split
  · exact ⟨rfl, rfl⟩
  · exact ⟨rfl, rfl⟩

/-- An insertion of two fields on two hosts that know nothing of them, one of the fields
with a negative score. -/
def inserted : Verdict ChangeSet × Site (Host → Store) :=
  (⟨.duo, fun _ => .empty 1 Nat.one_pos⟩ : Site (Host → Store)).write
    (Fleet.direct fun _ _ => false) id .insert "k" [⟨"f", [1], 0⟩, ⟨"g", [2], -1⟩] .strong

/-- The insertion is done, and the field of no negative score is read back. -/
theorem select_after_insert_of_duo :
    inserted.1.outcome = .done ⟨["f", "g"], []⟩ ∧
      (inserted.2.select (Fleet.direct fun _ _ => false) List.reverse "k" "f"
        .consensus).1.outcome = .done ⟨"f", [1], 0⟩ := by
  have hdone : inserted.1.outcome = .done ⟨["f", "g"], []⟩ := by decide +kernel
  have hread := select_after_insert Fleet.healthy_direct Registry.reached_duo
    (fun _ => List.Perm.refl _) (fun hosts => hosts.reverse_perm) (by decide) hdone
    (m := ⟨"f", [1], 0⟩) List.mem_cons_self List.mem_cons_self .consensus
  dsimp only at hread
  rw [if_pos (Int.le_refl 0)] at hread
  exact ⟨hdone, hread.1⟩

/-- The other field is not read back on any quorum, although it succeeded as well. -/
theorem negative_score_unread :
    inserted.1.outcome = .done ⟨["f", "g"], []⟩ ∧
      (inserted.2.select (Fleet.direct fun _ _ => false) id "k" "g" .one).1.outcome
        = .unmet 1 1 [] ∧
      (inserted.2.select (Fleet.direct fun _ _ => false) id "k" "g" .consensus).1.outcome
        = .unmet 2 2 [] ∧
      (inserted.2.select (Fleet.direct fun _ _ => false) id "k" "g" .strong).1.outcome
        = .unmet 2 2 [] :=
  ⟨by decide +kernel, by decide +kernel, by decide +kernel, by decide +kernel⟩

end Site

end QuorumStore
