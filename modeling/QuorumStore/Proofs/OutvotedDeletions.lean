import QuorumStore.Proofs.ConflictRules
import QuorumStore.Proofs.HealthyReads

/-!
# Deletions that are outvoted

A replica that remembers a deletion tells a read no more than that it has no value;
the score of the deletion stays behind. So a read weighs the newest deletion by the
number of replicas without a value, not by its score. It hides the older values
unless the replicas that still have one make a consensus by themselves. Then the
best of these values is served, and the field goes to repair. Asked for the score
instead, the same replicas always tell of the deletion.
-/

namespace QuorumStore

/-- Some of the hosts remembers a deletion of the field that is newer than every live
record of it that they have. -/
def NewestIsDeletion (held : Host → Store) (hosts : List Host) (key : Key) (field : Field) :
    Prop :=
  ∃ gone ∈ hosts, ∃ t, (held gone).cell? key field = some t ∧ t.live = false ∧
    ∀ host ∈ hosts, ∀ c, (held host).cell? key field = some c → c.live = true →
      c.score < t.score

section Newest

variable {held : Host → Store} {hosts : List Host} {key : Key} {field : Field}

/-- The snapshot that wins among the hosts is then that of a deletion. -/
theorem NewestIsDeletion.not_inserted (h : NewestIsDeletion held hosts key field)
    {p : Presence} (hp : p.Winner (hosts.map fun host => (held host).score key field)) :
    p.inserted = false := by
  obtain ⟨gone, hgone, t, ht, -, hnewer⟩ := h
  obtain ⟨host, hhost, rfl⟩ := List.mem_map.1 hp.mem
  obtain ⟨c, hc, -⟩ := Store.exists_cell_of_present hp.present
  -- the deletion is no stronger than the winner, but newer than anything live
  have hle : t.rank ≤ c.rank := by
    have htop := hp.le _ (List.mem_map_of_mem hgone) (by rw [Store.score_eq_of_cell? ht])
    rwa [Store.score_eq_of_cell? ht, Store.score_eq_of_cell? hc, Presence.rank_of_cell,
      Presence.rank_of_cell] at htop
  rw [Store.score_eq_of_cell? hc]
  refine Bool.eq_false_of_not_eq_true fun hlive => ?_
  have hlt := hnewer host hhost c hc hlive
  have hrank : c.rank < t.rank := Cell.rank_lt_iff.2 (Or.inl hlt)
  exact absurd hle (not_le.2 hrank)

/-- Some of the hosts knows the field then. -/
theorem NewestIsDeletion.exists_present (h : NewestIsDeletion held hosts key field) :
    ∃ p ∈ hosts.map (fun host => (held host).score key field), p.present = true := by
  obtain ⟨gone, hgone, t, ht, -⟩ := h
  exact ⟨_, List.mem_map_of_mem hgone, by rw [Store.score_eq_of_cell? ht]⟩

/-- Some of the hosts says then that it has no value. -/
theorem NewestIsDeletion.exists_absence (h : NewestIsDeletion held hosts key field) :
    ∃ gone ∈ hosts, (held gone).select key field = .error (.notFound (key ++ "/" ++ field)) := by
  obtain ⟨gone, hgone, t, ht, hdead, -⟩ := h
  refine ⟨gone, hgone, Store.select_eq_error fun c hc => ?_⟩
  rw [← Option.some.inj (ht.symm.trans hc)]
  exact hdead

end Newest

namespace Site

variable {σ : Type} {fleet : Fleet σ} {stores : σ → Host → Store} {site : Site σ}
  {shuffle : List Host → List Host}

/-- A read on consensus goes to healthy hosts of which some remembers a deletion that is
newer than every live record. If those that have a value are a consensus by themselves,
the best of their values is served and the field goes to repair, and otherwise the field
is not found. The score that the same hosts tell is that of a deletion in both cases. -/
theorem select_of_newest_deletion (healthy : fleet.Healthy stores)
    (hreached : site.registry.Reached) (hshuffle : ∀ hosts, (shuffle hosts).Perm hosts)
    {key : Key} {field : Field}
    (hnewest : NewestIsDeletion (stores site.world)
      (site.registry.read shuffle key .consensus) key field) :
    let hosts := site.registry.read shuffle key .consensus
    let values := liveValues (stores site.world) hosts key field
    let v := (site.select fleet shuffle key field .consensus).1
    (if Quorum.consensus.met hosts.length values.length = true then
        ∃ w ∈ values, (∀ r ∈ values, r.score ≤ w.score) ∧
          v.outcome = .done w ∧ v.repairs = [⟨key, field, w.value⟩]
      else v.outcome = .notFound) ∧
      ∃ p, (Verdict.ofScore hosts.length
          (fleet.scatter hosts (.score key field) site.world).1).outcome = .done p ∧
        p.present = true ∧ p.inserted = false := by
  intro hosts values v
  have hnodup : hosts.Nodup := hreached.sound.nodup_read hshuffle key .consensus
  obtain ⟨gone, hgone, habsent⟩ := hnewest.exists_absence
  constructor
  · refine healthy.ofSelect_of_missing hnodup key field site.world
      (hreached.sound.digest_inj_read hshuffle key .consensus) hgone fun r hr => ?_
    rw [habsent] at hr
    cases hr
  · obtain ⟨snapshots, hperm, hverdict⟩ :=
      healthy.ofScore hnodup (List.ne_nil_of_mem hgone) key field site.world
    have hwinner := Verdict.winner_strongest
      (Presence.exists_present_perm hnewest.exists_present hperm)
    exact ⟨_, congrArg Verdict.outcome hverdict, hwinner.present,
      hnewest.not_inserted (hwinner.perm hperm)⟩

end Site

/-- A registry of four hosts. -/
def Registry.quartet : Registry := (fresh.update ["a", "b", "c", "d"]).2

theorem Registry.reached_quartet : quartet.Reached := by
  have hjoined : (fresh.update ["a", "b", "c", "d"]).1 = .ok ⟨4, 0⟩ := by decide +kernel
  exact reached_of_fresh hjoined

/-- Healthy hosts, after a value of score 1 was written on consensus and then deleted at
score 5 on one host. -/
def Site.deletedOnOne (registry : Registry) : Site (Host → Store) :=
  let fleet := Fleet.direct fun _ _ => false
  let empty : Site (Host → Store) := ⟨registry, fun _ => .empty 1 Nat.one_pos⟩
  let written := (empty.write fleet id .insert "k" [⟨"f", [1], 1⟩] .consensus).2
  (written.write fleet id .delete "k" [⟨"f", [], 5⟩] .one).2

/-- The deletion is newer than the value, wherever it went. -/
theorem NewestIsDeletion.of_deletedOnOne {registry : Registry} {hosts : List Host}
    (gone : Host) (hgone : gone ∈ hosts)
    (hcell : ((Site.deletedOnOne registry).world gone).cell? "k" "f" = some ⟨[], 5, false⟩)
    (hall : ∀ host ∈ hosts, (((Site.deletedOnOne registry).world host).cell? "k" "f").all
      (fun c => !c.live || decide (c.score < 5)) = true) :
    NewestIsDeletion (Site.deletedOnOne registry).world hosts "k" "f" := by
  refine ⟨gone, hgone, _, hcell, rfl, fun host hm c hc hlive => ?_⟩
  have hnewer := hall host hm
  rw [hc, Option.all_some, hlive, Bool.not_true, Bool.false_or] at hnewer
  exact of_decide_eq_true hnewer

/-- Of three hosts a read on consensus asks two. One has the value and the other the
deletion, so the value is hidden. -/
theorem Site.select_of_newest_deletion_of_trio :
    let site := Site.deletedOnOne .trio
    let fleet := Fleet.direct fun _ _ => false
    let hosts := site.registry.read id "k" .consensus
    hosts = ["b", "c"] ∧ NewestIsDeletion site.world hosts "k" "f" ∧
      (site.select fleet id "k" "f" .consensus).1.outcome = .notFound ∧
      ∃ p, (Verdict.ofScore hosts.length
          (fleet.scatter hosts (.score "k" "f") site.world).1).outcome = .done p ∧
        p.present = true ∧ p.inserted = false := by
  intro site fleet hosts
  have hnewest : NewestIsDeletion site.world hosts "k" "f" :=
    .of_deletedOnOne "b" (by decide +kernel) (by decide +kernel) (by decide +kernel)
  obtain ⟨hread, hscore⟩ := select_of_newest_deletion Fleet.healthy_direct
    ((Registry.reached_trio.commit _ _).commit _ _) (fun _ => List.Perm.refl _) hnewest
  rw [if_neg (by decide +kernel)] at hread
  exact ⟨by decide +kernel, hnewest, hread, hscore⟩

/-- Of four hosts it asks three. Two have the value, and it is served although the third
has the deletion. -/
theorem Site.newest_deletion_outvoted :
    let site := Site.deletedOnOne .quartet
    let fleet := Fleet.direct fun _ _ => false
    let hosts := site.registry.read id "k" .consensus
    site.registry.Reached ∧ NewestIsDeletion site.world hosts "k" "f" ∧
      (site.select fleet id "k" "f" .consensus).1.outcome = .done ⟨"f", [1], 1⟩ ∧
      (Verdict.ofScore hosts.length
          (fleet.scatter hosts (.score "k" "f") site.world).1).outcome
        = .done ⟨false, true, 5⟩ :=
  ⟨(Registry.reached_quartet.commit _ _).commit _ _,
    .of_deletedOnOne "a" (by decide +kernel) (by decide +kernel) (by decide +kernel),
    by decide +kernel, by decide +kernel⟩

end QuorumStore
