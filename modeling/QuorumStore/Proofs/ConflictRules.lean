import QuorumStore.Proofs.Ballots
import QuorumStore.Proofs.Convergence
import QuorumStore.Proofs.Diagnosed
import QuorumStore.Proofs.Healthy

/-!
# Three rules for a conflict

Which state of a field wins is decided in three places. A store decides write by
write, a diagnosis takes the greatest score of the snapshots and asks whether any
snapshot with it is live, and a coordinator that is asked for the score goes through
the snapshots and keeps the strongest. All three name the strongest of the writes
that any replica took, so a tie between an insertion and a deletion goes the same
way everywhere.
-/

namespace QuorumStore

namespace Presence

variable {p q : Presence} {xs ys : List Cell}

/-- The strongest of some writes depends only on which writes there were. -/
theorem Tops.unique (hp : p.Tops xs) (hq : q.Tops ys) (h : ∀ c, c ∈ xs ↔ c ∈ ys) : p = q := by
  obtain ⟨rfl, rfl⟩ | ⟨c, hc, rfl, hcmax⟩ := hp
  · obtain ⟨-, rfl⟩ | ⟨d, hd, -⟩ := hq
    · rfl
    · exact absurd ((h d).2 hd) List.not_mem_nil
  · obtain ⟨rfl, -⟩ | ⟨d, hd, rfl, hdmax⟩ := hq
    · exact absurd ((h c).1 hc) List.not_mem_nil
    · have hrank := le_antisymm (hdmax c ((h c).1 hc)) (hcmax d ((h d).2 hd))
      obtain ⟨hscore, hlive⟩ := Cell.rank_eq_iff.1 hrank
      rw [hscore, hlive]

/-- The rank of a snapshot that shows a record is the rank of the record. -/
theorem rank_of_cell (c : Cell) : Presence.rank ⟨c.live, true, c.score⟩ = c.rank := rfl

/-- A snapshot that knows the field and that none of the others that do stands above. -/
structure Winner (p : Presence) (snapshots : List Presence) : Prop where
  /-- It is one of the snapshots. -/
  mem : p ∈ snapshots
  /-- It knows the field. -/
  present : p.present = true
  /-- None that knows the field stands above it. -/
  le : ∀ q ∈ snapshots, q.present = true → q.rank ≤ p.rank

/-- It wins in every order. -/
theorem Winner.perm {snapshots others : List Presence} (h : p.Winner snapshots)
    (hperm : snapshots.Perm others) : p.Winner others :=
  ⟨hperm.mem_iff.1 h.mem, h.present, fun q hq => h.le q (hperm.mem_iff.2 hq)⟩

/-- Whether some snapshot knows the field does not depend on their order either. -/
theorem exists_present_perm {snapshots others : List Presence}
    (h : ∃ p ∈ snapshots, p.present = true) (hperm : others.Perm snapshots) :
    ∃ p ∈ others, p.present = true :=
  h.imp fun _ hp => ⟨hperm.mem_iff.2 hp.1, hp.2⟩

end Presence

/-! ## The rule of a store -/

/-- A store that was once empty shows the strongest of the writes that it took. -/
theorem Store.tops_score {buckets : Nat} (h : 0 < buckets) (batches : List Batch) (key : Key)
    (field : Field) :
    (((empty buckets h).run batches).score key field).Tops
      (Mutation.at key field (Batch.log batches)) := by
  rw [score, cell?_run_empty]
  by_cases hnil : Mutation.at key field (Batch.log batches) = []
  · rw [hnil]
    exact Or.inl ⟨rfl, rfl⟩
  · obtain ⟨c, hc, hlast, hmax⟩ := Cell.exists_top hnil
    rw [hlast]
    exact Or.inr ⟨c, hc, rfl, hmax⟩

/-- What happened to one replica: a store without records took batches of writes. -/
structure History where
  /-- The number of buckets. -/
  buckets : Nat
  /-- There is a bucket. -/
  pos : 0 < buckets
  /-- The batches, in order. -/
  batches : List Batch

namespace History

variable {histories : List History} {key : Key} {field : Field} {p : Presence}

/-- The store of the replica. -/
def store (h : History) : Store := (Store.empty h.buckets h.pos).run h.batches

/-- What the replicas know about a field. -/
def snapshots (histories : List History) (key : Key) (field : Field) : List Presence :=
  histories.map fun h => h.store.score key field

/-- The snapshot that wins is the strongest of all writes that some replica took. -/
theorem tops_of_winner (h : p.Winner (snapshots histories key field)) {log : List Mutation}
    (hlog : ∀ w, w ∈ log ↔ ∃ h ∈ histories, w ∈ Batch.log h.batches) :
    p.Tops (Mutation.at key field log) := by
  have htops : ∀ history ∈ histories, (history.store.score key field).Tops
      (Mutation.at key field (Batch.log history.batches)) := fun history _ =>
    Store.tops_score history.pos history.batches key field
  obtain ⟨history, hhistory, rfl⟩ := List.mem_map.1 h.mem
  obtain ⟨-, habsent⟩ | ⟨c, hc, hshown, -⟩ := htops history hhistory
  · have hpresent := h.present
    rw [habsent] at hpresent
    cases hpresent
  · refine Or.inr ⟨c, Mutation.mem_at.2 ((hlog _).2 ⟨history, hhistory, Mutation.mem_at.1 hc⟩),
      hshown, fun d hd => ?_⟩
    -- a write of any replica is no stronger than what that replica shows
    obtain ⟨other, hother, hwrite⟩ := (hlog _).1 (Mutation.mem_at.1 hd)
    obtain ⟨hnil, -⟩ | ⟨e, -, hshows, hmax⟩ := htops other hother
    · exact absurd (hnil ▸ Mutation.mem_at.2 hwrite) List.not_mem_nil
    · have hle := h.le _ (List.mem_map.2 ⟨other, hother, rfl⟩) (by rw [hshows])
      rw [hshows, hshown, Presence.rank_of_cell, Presence.rank_of_cell] at hle
      exact (hmax d (Mutation.mem_at.2 hwrite)).trans hle

end History

/-! ## The rule of a diagnosis -/

/-- A diagnosis of snapshots of which one knows the field names the winner. -/
theorem Diagnosis.exists_winner_eq {snapshots : List Presence}
    (hheld : ∃ p ∈ snapshots, p.present = true) (item : Suspect) (asked : Nat) :
    (ofPresences item asked snapshots).ignore = false ∧
      ∃ p : Presence, p.Winner snapshots ∧ (ofPresences item asked snapshots).score = p.score ∧
        (ofPresences item asked snapshots).insert = p.inserted := by
  have hheeded : (ofPresences item asked snapshots).ignore = false := by
    refine Bool.eq_false_of_not_eq_true fun hignore => ?_
    obtain ⟨p, hp, hpresent⟩ := hheld
    have hknown : p ∈ snapshots.filter (·.present) := List.mem_filter.2 ⟨hp, hpresent⟩
    rw [filter_eq_nil_of_ignore hignore] at hknown
    cases hknown
  obtain ⟨p, hp, hpresent, hrank⟩ := exists_winner hheeded
  have hsame := hrank
  simp only [Presence.rank, rank, EmbeddingLike.apply_eq_iff_eq, Prod.mk.injEq] at hsame
  exact ⟨hheeded, p, ⟨hp, hpresent, fun q hq hknown => hrank ▸ rank_le hheeded hq hknown⟩,
    hsame.1.symm, hsame.2.symm⟩

/-! ## The rule of a coordinator -/

namespace Verdict

/-- The test that a coordinator makes is one of ranks. -/
theorem atLeast_iff {p q : Presence} : atLeast p q = true ↔ q.rank ≤ p.rank := by
  rw [Presence.rank, Presence.rank, Prod.Lex.toLex_le_toLex]
  simp only [atLeast, Bool.or_eq_true, Bool.and_eq_true, decide_eq_true_eq, Bool.not_eq_true',
    Bool.le_iff_imp]
  cases p.inserted <;> cases q.inserted <;> simp [eq_comm]

/-- Keeping the stronger of two in turn ends with one that none stands above. -/
theorem foldl_atLeast (rest : List Presence) (first : Presence) :
    let best := rest.foldl (fun best p => if atLeast p best then p else best) first
    best ∈ first :: rest ∧ ∀ q ∈ first :: rest, q.rank ≤ best.rank := by
  induction rest generalizing first with
  | nil => exact ⟨List.mem_cons_self, fun q hq => (List.mem_singleton.1 hq) ▸ le_refl _⟩
  | cons p rest ih =>
    intro best
    obtain ⟨hmem, hmax⟩ := ih (if atLeast p first then p else first)
    have hkept : first.rank ≤ (if atLeast p first then p else first).rank ∧
        p.rank ≤ (if atLeast p first then p else first).rank := by
      split
      · next hat => exact ⟨atLeast_iff.1 hat, le_refl _⟩
      · next hat => exact ⟨le_refl _, (not_le.1 fun hle => hat (atLeast_iff.2 hle)).le⟩
    have hstep := hmax _ List.mem_cons_self
    constructor
    · rcases List.mem_cons.1 hmem with hsame | hrest
      · change best = _ at hsame
        rw [hsame]
        split
        · exact List.mem_cons_of_mem _ List.mem_cons_self
        · exact List.mem_cons_self
      · exact List.mem_cons_of_mem _ (List.mem_cons_of_mem _ hrest)
    · intro q hq
      rcases List.mem_cons.1 hq with rfl | hlater
      · exact hkept.1.trans hstep
      · rcases List.mem_cons.1 hlater with rfl | hrest
        · exact hkept.2.trans hstep
        · exact hmax q (List.mem_cons_of_mem _ hrest)

/-- The strongest of snapshots of which one knows the field is the winner. -/
theorem winner_strongest {snapshots : List Presence}
    (hheld : ∃ p ∈ snapshots, p.present = true) : (strongest snapshots).Winner snapshots := by
  obtain ⟨p, hp, hpresent⟩ := hheld
  have hknown : p ∈ snapshots.filter (·.present) := List.mem_filter.2 ⟨hp, hpresent⟩
  unfold strongest
  cases hall : snapshots.filter (·.present) with
  | nil =>
    rw [hall] at hknown
    cases hknown
  | cons first rest =>
    obtain ⟨hmem, hmax⟩ := foldl_atLeast rest first
    rw [← hall] at hmem hmax
    obtain ⟨hin, hknows⟩ := List.mem_filter.1 hmem
    exact ⟨hin, hknows, fun q hq hqknows => hmax q (List.mem_filter.2 ⟨hq, hqknows⟩)⟩

end Verdict

section Healthy

variable {σ : Type} {fleet : Fleet σ} {stores : σ → Host → Store}

/-- Where every replica answers, the score that is told is the strongest snapshot, in the
order in which the snapshots arrived. -/
theorem Fleet.Healthy.ofScore (healthy : fleet.Healthy stores) {hosts : List Host}
    (hnodup : hosts.Nodup) (hsome : hosts ≠ []) (key : Key) (field : Field) (s : σ) :
    ∃ snapshots : List Presence,
      snapshots.Perm (hosts.map fun host => (stores s host).score key field) ∧
      Verdict.ofScore hosts.length (fleet.scatter hosts (.score key field) s).1
        = ⟨.done (Verdict.strongest snapshots), [], []⟩ := by
  set replies := (fleet.scatter hosts (.score key field) s).1
  have hreplies : replies.Perm (hosts.map fun host =>
      (Murmur.textDigest host, .presence ((stores s host).score key field))) :=
    (healthy.scatter (.score key field) hnodup s).1
  have hclean : (Gathered.ofReplies Reply.presence? "score" replies).faults = [] := by
    refine (Gathered.faults_eq_nil_iff "score").2 fun t ht => ?_
    obtain ⟨host, -, rfl⟩ := List.mem_map.1 (hreplies.mem_iff.1 ht)
    rfl
  have hvalues : ((Gathered.ofReplies Reply.presence? "score" replies).values.map Prod.snd).Perm
      (hosts.map fun host => (stores s host).score key field) := by
    rw [Gathered.map_snd_values]
    refine (hreplies.filterMap _).trans ?_
    rw [List.filterMap_map, ← List.filterMap_eq_map]
    exact List.Perm.refl _
  refine ⟨_, hvalues, ?_⟩
  have hlength : (Gathered.ofReplies Reply.presence? "score" replies).values.length
      = hosts.length := by
    rw [← List.length_map Prod.snd, hvalues.length_eq, List.length_map]
  rw [Verdict.ofScore, if_neg (List.length_eq_zero_iff.not.2 hsome)]
  dsimp only
  rw [hclean, hlength, Outcome.settle, Quorum.met, decide_eq_true rfl]
  rfl

/-- A coordinator that is asked for the score asks every node, so it tells the strongest
snapshot of them all. -/
theorem Site.run_score {site : Site σ} {shuffle : List Host → List Host}
    (healthy : fleet.Healthy stores) (hreached : site.registry.Reached)
    (hshuffle : ∀ hosts, (shuffle hosts).Perm hosts) (hsome : site.registry.nodes ≠ [])
    (key : Key) (field : Field) :
    ∃ snapshots : List Presence,
      snapshots.Perm
        (site.registry.nodes.map fun host => (stores site.world host).score key field) ∧
      (site.run fleet shuffle (.score key field)).1
        = ⟨.done (.presence (Verdict.strongest snapshots)), []⟩ := by
  have hnodes := hshuffle site.registry.nodes
  have hasked : shuffle site.registry.nodes ≠ [] := fun hnone =>
    hsome (List.nil_perm.1 (hnone ▸ hnodes))
  obtain ⟨snapshots, hperm, hverdict⟩ := healthy.ofScore
    (hnodes.nodup_iff.2 hreached.sound.nodup_nodes) hasked key field site.world
  have hrun : (site.run fleet shuffle (.score key field)).1
      = .ofVerdict .presence (Verdict.ofScore (shuffle site.registry.nodes).length
          (fleet.scatter (shuffle site.registry.nodes) (.score key field) site.world).1) := rfl
  refine ⟨snapshots, hperm.trans (hnodes.map _), ?_⟩
  rw [hrun, hverdict]
  rfl

end Healthy

/-! ## One winner -/

/-- Some replicas took writes in their own ways, and one of them knows a field. Then the
three rules agree on it: what a new store shows that takes all of those writes, in any
order and in any batches; the score and the kind of write that a diagnosis of the
snapshots names, in any order; and what a coordinator tells that asks the replicas for
the score, if all answer. -/
theorem conflict_rules_agree {histories : List History} {key : Key} {field : Field}
    (hheld : ∃ h ∈ histories, (h.store.score key field).present = true) {buckets : Nat}
    (hpos : 0 < buckets) {all : List Batch}
    (hall : ∀ w, w ∈ Batch.log all ↔ ∃ h ∈ histories, w ∈ Batch.log h.batches) :
    let p := ((Store.empty buckets hpos).run all).score key field
    p.present = true ∧
      (∀ (item : Suspect) (asked : Nat) (snapshots : List Presence),
        snapshots.Perm (History.snapshots histories key field) →
        let d := Diagnosis.ofPresences item asked snapshots
        d.ignore = false ∧ (d.score, d.insert) = (p.score, p.inserted)) ∧
      ∀ {σ : Type} {fleet : Fleet σ} {stores : σ → Host → Store} {site : Site σ}
        {shuffle : List Host → List Host}, fleet.Healthy stores → site.registry.Reached →
        (∀ hosts, (shuffle hosts).Perm hosts) →
        (site.registry.nodes.map (stores site.world)).Perm (histories.map History.store) →
        (site.run fleet shuffle (.score key field)).1 = ⟨.done (.presence p), []⟩ := by
  intro p
  have hknown : ∃ q ∈ History.snapshots histories key field, q.present = true := by
    obtain ⟨h, hh, hpresent⟩ := hheld
    exact ⟨_, List.mem_map.2 ⟨h, hh, rfl⟩, hpresent⟩
  -- whatever wins among the snapshots is what the one store shows
  have hwinner : ∀ q : Presence, q.Winner (History.snapshots histories key field) → q = p :=
    fun q hq => (History.tops_of_winner hq hall).unique (Store.tops_score hpos all key field)
      fun _ => Iff.rfl
  have hstrongest := Verdict.winner_strongest hknown
  refine ⟨hwinner _ hstrongest ▸ hstrongest.present, fun item asked snapshots hperm => ?_, ?_⟩
  · obtain ⟨hheeded, q, hq, hscore, hinsert⟩ := Diagnosis.exists_winner_eq
      (Presence.exists_present_perm hknown hperm) item asked
    rw [← hwinner q (hq.perm hperm)]
    exact ⟨hheeded, Prod.ext hscore hinsert⟩
  · intro σ fleet stores site shuffle healthy hreached hshuffle hstores
    have hsnapshots : (site.registry.nodes.map fun host =>
        (stores site.world host).score key field).Perm
          (History.snapshots histories key field) := by
      have hscores := hstores.map fun store : Store => store.score key field
      rwa [List.map_map, List.map_map] at hscores
    have hsome : site.registry.nodes ≠ [] := fun hnone => by
      obtain ⟨q, hq, -⟩ := Presence.exists_present_perm hknown hsnapshots
      rw [hnone] at hq
      cases hq
    obtain ⟨snapshots, hperm, hrun⟩ :=
      Site.run_score healthy hreached hshuffle hsome key field
    have hsame := hperm.trans hsnapshots
    have hstrongest := Verdict.winner_strongest (Presence.exists_present_perm hknown hsame)
    rw [hrun, hwinner _ (hstrongest.perm hsame)]

/-- A replica that took an insertion at score 5. -/
def History.inserting : History := ⟨1, by decide, [⟨.insert, "k", [⟨"f", [1], 5⟩]⟩]⟩

/-- A replica of more buckets that took a deletion at the same score. -/
def History.deleting : History := ⟨3, by decide, [⟨.delete, "k", [⟨"f", [], 5⟩]⟩]⟩

/-- The two replicas as nodes. -/
def Site.rivalled : Site (Host → Store) :=
  ⟨.duo, fun host => if host = "a" then History.inserting.store else History.deleting.store⟩

/-- The insertion wins in a store that takes the deletion first, in the diagnosis and with
the coordinator. -/
theorem conflict_rules_agree_on_tie :
    (∃ h ∈ [History.inserting, .deleting], (h.store.score "k" "f").present = true) ∧
      let p := ((Store.empty 2 (by decide)).run
        [⟨.delete, "k", [⟨"f", [], 5⟩]⟩, ⟨.insert, "k", [⟨"f", [1], 5⟩]⟩]).score "k" "f"
      let d := Diagnosis.ofPresences ⟨"k", "f", []⟩ 2
        [History.inserting.store.score "k" "f", History.deleting.store.score "k" "f"]
      p = ⟨true, true, 5⟩ ∧ (d.score, d.insert) = (p.score, p.inserted) ∧
        (Site.rivalled.run (Fleet.direct fun _ _ => false) List.reverse (.score "k" "f")).1
          = ⟨.done (.presence p), []⟩ := by
  have hheld : ∃ h ∈ [History.inserting, .deleting],
      (h.store.score "k" "f").present = true :=
    ⟨.inserting, List.mem_cons_self, by decide +kernel⟩
  have hall : ∀ w, w ∈ Batch.log [⟨.delete, "k", [⟨"f", [], 5⟩]⟩, ⟨.insert, "k", [⟨"f", [1], 5⟩]⟩] ↔
      ∃ h ∈ [History.inserting, .deleting], w ∈ Batch.log h.batches := by
    intro w
    constructor
    · intro hw
      rcases List.mem_cons.1 hw with rfl | hlast
      · exact ⟨.deleting, by simp, List.mem_cons_self⟩
      · exact ⟨.inserting, List.mem_cons_self, hlast⟩
    · rintro ⟨h, hh, hw⟩
      rcases List.mem_cons.1 hh with rfl | hlast
      · exact List.mem_cons_of_mem _ hw
      · obtain rfl := List.mem_singleton.1 hlast
        obtain rfl := List.mem_singleton.1 hw
        exact List.mem_cons_self
  have hnodes : Site.rivalled.registry.nodes = ["a", "b"] := by decide +kernel
  have hstores : (Site.rivalled.registry.nodes.map Site.rivalled.world).Perm
      ([History.inserting, .deleting].map History.store) := by
    rw [hnodes]
    exact List.Perm.refl _
  obtain ⟨-, hdiagnosis, hscore⟩ :=
    conflict_rules_agree hheld Nat.two_pos hall
  exact ⟨hheld, by decide +kernel, (hdiagnosis _ 2 _ (List.Perm.refl _)).2,
    hscore Fleet.healthy_direct Registry.reached_duo (fun hosts => hosts.reverse_perm) hstores⟩

end QuorumStore
