import QuorumStore.Proofs.Acknowledged
import QuorumStore.Proofs.HintFlow

/-!
# Healthy replicas

A healthy replica answers every call from its store, and its answer always comes
back. Among healthy replicas nothing goes wrong in a repair pass: an inquiry hears
the snapshot of every replica, a winner serves its value, and a correction is
applied by all. Which replica is heard first may differ from call to call.
-/

namespace QuorumStore

variable {σ : Type} {fleet : Fleet σ} {stores : σ → Host → Store}

namespace Fleet

/-- Every host answers each call once, with what a store of its own answers. -/
structure Healthy (fleet : Fleet σ) (stores : σ → Host → Store) : Prop where
  /-- A host sends the answer of its store. -/
  answers : ∀ host call s, (fleet.answer host call s).1 = [((stores s host).answer call).1]
  /-- The call is carried out on that store and on no other. -/
  stores_eq : ∀ host call s, stores (fleet.answer host call s).2
    = Function.update (stores s) host ((stores s host).answer call).2
  /-- Every reply arrives, marked with its host. -/
  arrives : fleet.Delivers

/-- Healthy replicas are honest. -/
theorem Healthy.honest (h : fleet.Healthy stores) : fleet.Honest stores where
  responds host call s := by
    refine ⟨_, h.answers host call s, ?_⟩
    rw [h.stores_eq, Function.update_self]
    exact .served
  others host call s other hother := by
    rw [h.stores_eq, Function.update_of_ne hother]
  arrives := h.arrives

/-- Several different hosts each send the answer of their store. -/
theorem Healthy.contact (h : fleet.Healthy stores) (call : Call) {hosts : List Host}
    (hnodup : hosts.Nodup) (s : σ) :
    (fleet.contact call hosts s).1
        = hosts.map (fun host => (host, [((stores s host).answer call).1])) ∧
      ∀ host, stores (fleet.contact call hosts s).2 host
        = if host ∈ hosts then ((stores s host).answer call).2 else stores s host := by
  induction hosts generalizing s with
  | nil => exact ⟨rfl, fun _ => rfl⟩
  | cons first rest ih =>
    obtain ⟨hout, hrest⟩ := List.nodup_cons.1 hnodup
    obtain ⟨hstreams, hstores⟩ := ih hrest (fleet.answer first call s).2
    rw [h.stores_eq] at hstreams hstores
    have hother (host : Host) (hm : host ∈ rest) :
        Function.update (stores s) first ((stores s first).answer call).2 host = stores s host :=
      Function.update_of_ne (ne_of_mem_of_not_mem hm hout) _ _
    constructor
    · have hlater : rest.map (fun host => (host, [((Function.update (stores s) first
            ((stores s first).answer call).2 host).answer call).1]))
          = rest.map fun host => (host, [((stores s host).answer call).1]) :=
        List.map_congr_left fun host hm => by rw [hother host hm]
      rw [List.map_cons, ← h.answers, ← hlater, ← hstreams]
      rfl
    · intro host
      refine (hstores host).trans ?_
      by_cases hfirst : host = first
      · subst hfirst
        rw [if_neg hout, if_pos List.mem_cons_self, Function.update_self]
      · rw [Function.update_of_ne hfirst]
        simp only [List.mem_cons, hfirst, false_or]

/-- Of a scattered call the answer of each host arrives. -/
theorem Healthy.scatter (h : fleet.Healthy stores) (call : Call) {hosts : List Host}
    (hnodup : hosts.Nodup) (s : σ) :
    (fleet.scatter hosts call s).1.Perm
        (hosts.map fun host => (Murmur.textDigest host, ((stores s host).answer call).1)) ∧
      ∀ host, stores (fleet.scatter hosts call s).2 host
        = if host ∈ hosts then ((stores s host).answer call).2 else stores s host := by
  obtain ⟨hstreams, hstores⟩ := h.contact call hnodup s
  exact ⟨h.arrives.scatter_of_single hstreams, hstores⟩

/-- Replicas that are called directly are healthy where every call gets through. -/
theorem healthy_direct : (direct fun _ _ => false).Healthy fun s => s where
  answers _ _ _ := rfl
  stores_eq _ _ _ := rfl
  arrives _ _ := List.Perm.refl _

end Fleet

/-- There is no failure exactly if every reply is of the wanted kind. -/
theorem RepairFault.sort_snd_eq_nil_iff {α : Type} {want : Reply → Option α} {stage : String}
    {replies : List Tagged} :
    (RepairFault.sort want stage replies).2 = [] ↔
      ∀ tagged ∈ replies, (want tagged.2).isSome = true := by
  induction replies with
  | nil => simp [RepairFault.sort]
  | cons first rest ih =>
    obtain ⟨node, reply⟩ := first
    rw [List.forall_mem_cons, ← ih]
    cases hwant : want reply with
    | some value => simp only [RepairFault.sort, hwant, Option.isSome_some, true_and]
    | none => cases reply <;> simp [RepairFault.sort, hwant]

namespace Site

variable {site : Site σ} {shuffle : List Host → List Host} {shuffles : Shuffles}

/-- Every node answers an inquiry, with what its store knows. -/
theorem snapshots_perm (healthy : fleet.Healthy stores) (hsound : site.registry.Sound)
    (hshuffle : ∀ hosts, (shuffle hosts).Perm hosts) (item : Suspect) :
    ((site.snapshots fleet shuffle item).map Prod.snd).Perm
      (site.registry.nodes.map fun host => (stores site.world host).score item.key item.field) := by
  have hperm := hshuffle site.registry.nodes
  have hreplies := (healthy.scatter (.score item.key item.field)
    (hperm.nodup_iff.2 hsound.nodup_nodes) site.world).1
  have hanswers := (hreplies.filterMap fun tagged =>
    tagged.2.presence?.map fun p => (tagged.1, p)).map Prod.snd
  rw [← RepairFault.sort_fst Reply.presence? "score", List.filterMap_map] at hanswers
  refine hanswers.trans ?_
  have hall : ((shuffle site.registry.nodes).filterMap ((fun tagged : Tagged =>
        tagged.2.presence?.map fun p => (tagged.1, p)) ∘ fun host => (Murmur.textDigest host,
          ((stores site.world host).answer (.score item.key item.field)).1)))
      = (shuffle site.registry.nodes).map fun host => (Murmur.textDigest host,
          (stores site.world host).score item.key item.field) := by
    rw [← List.filterMap_eq_map]
    rfl
  rw [hall, List.map_map]
  exact hperm.map _

/-! ## Fetching a value -/

/-- A winner that holds the field live serves its value. -/
theorem fetchValue_eq_ok (healthy : fleet.Healthy stores) (site : Site σ) {key : Key}
    {field : Field} {winners : List Host} (hsome : winners ≠ [])
    (hlive : ∀ host ∈ winners, ∃ c, (stores site.world host).cell? key field = some c ∧
      c.live = true) (last : Fault) :
    ∃ value, (site.fetchValue fleet key field winners last).1 = .ok value := by
  cases winners with
  | nil => exact absurd rfl hsome
  | cons host rest =>
    obtain ⟨c, hc, hl⟩ := hlive host List.mem_cons_self
    have hserved : (site.askWinner fleet key field host).1 = .ok c.value := by
      change served (Fleet.firstReply _) = _
      rw [healthy.answers, Store.answer, Store.select, hc]
      dsimp only
      rw [if_pos hl]
      rfl
    refine ⟨c.value, ?_⟩
    rw [fetchValue]
    rcases hask : site.askWinner fleet key field host with ⟨result, site'⟩
    rw [hask] at hserved
    dsimp only at hserved
    rw [hserved]

/-! ## Making corrections -/

/-- A correction is applied by every node, and nothing goes wrong. -/
theorem correct_healthy (healthy : fleet.Healthy stores)
    (hshuffle : ∀ hosts, (shuffle hosts).Perm hosts) (site : Site σ)
    (hsound : site.registry.Sound) (c : Correction) :
    (site.correct fleet shuffle c).1 = [] ∧
      (site.correct fleet shuffle c).2.registry.ring = site.registry.ring ∧
      ∀ host, stores (site.correct fleet shuffle c).2.world host
        = if host ∈ site.registry.ring.members then (stores site.world host).apply c.batch
          else stores site.world host := by
  have hperm := hshuffle site.registry.nodes
  obtain ⟨hreplies, hstores⟩ := healthy.scatter (c.kind.call c.key c.members)
    (hperm.nodup_iff.2 hsound.nodup_nodes) site.world
  have hclean : (RepairFault.sort Reply.changes? "repair write"
      (fleet.scatter (shuffle site.registry.nodes) (c.kind.call c.key c.members)
        site.world).1).2 = [] := by
    refine RepairFault.sort_snd_eq_nil_iff.2 fun tagged hm => ?_
    obtain ⟨host, -, rfl⟩ := List.mem_map.1 (hreplies.mem_iff.1 hm)
    cases c.kind <;> rfl
  refine ⟨?_, ?_, fun host => ?_⟩
  · have hfaults : (site.correct fleet shuffle c).1
        = (RepairFault.sort Reply.changes? "repair write" (fleet.scatter
            (shuffle site.registry.nodes) (c.kind.call c.key c.members) site.world).1).2 := by
      unfold correct send
      cases c.kind <;> rfl
    rw [hfaults, hclean]
  · unfold correct send
    cases c.kind <;> exact Registry.ring_commit _ _ _
  · rw [world_correct, hstores]
    simp only [hperm.mem_iff, hsound.mem_nodes]
    exact if_congr Iff.rfl (answer_call (stores site.world host) c.batch) rfl

/-- Corrections are applied in turn by every node, and nothing goes wrong. -/
theorem correctAll_healthy (healthy : fleet.Healthy stores) (fair : shuffles.Fair)
    (cs : List Correction) (site : Site σ) (hsound : site.registry.Sound) :
    (site.correctAll fleet shuffles cs).1 = [] ∧
      ∀ host, stores (site.correctAll fleet shuffles cs).2.world host
        = if host ∈ site.registry.ring.members
          then (stores site.world host).run (cs.map Correction.batch)
          else stores site.world host := by
  induction cs generalizing site shuffles with
  | nil => exact ⟨rfl, fun host => by simp [correctAll]⟩
  | cons c rest ih =>
    obtain ⟨hclean, hring, hstores⟩ := correct_healthy healthy (fair 0) site hsound c
    have hsound' := (correct_spec healthy.honest (fair 0) site hsound c).1
    obtain ⟨hclean', hstores'⟩ :=
      ih (fair.after 1) (site.correct fleet (shuffles 0) c).2 hsound'
    constructor
    · have hfaults : (site.correctAll fleet shuffles (c :: rest)).1
          = (site.correct fleet (shuffles 0) c).1
            ++ ((site.correct fleet (shuffles 0) c).2.correctAll fleet (shuffles.after 1)
              rest).1 := rfl
      rw [hfaults, hclean, hclean', List.append_nil]
    · intro host
      refine (hstores' host).trans ?_
      rw [hring, hstores, List.map_cons, Store.run_cons]
      split_ifs <;> rfl

/-- A pass that nothing has gone wrong in so far makes the writes of its plan. -/
theorem repair_of_decided (healthy : fleet.Healthy stores) (fair : shuffles.Fair)
    (hsound : site.registry.Sound) {items : List Suspect} {plan : Plan}
    (hdecided : (site.decideAll fleet shuffles .empty items).1 = .ok plan)
    (hclean : plan.faults = []) :
    (site.repair fleet shuffles items).1 = .ok (.ok plan.report) ∧
      ∀ host, stores (site.repair fleet shuffles items).2.world host
        = if host ∈ site.registry.nodes
          then (stores site.world host).run (plan.writes.map Correction.batch)
          else stores site.world host := by
  obtain ⟨hstores, hregistry, -⟩ :=
    decideAll_spec healthy.honest fair items site hsound .empty (Plan.allBacked_empty _ _)
  unfold repair
  rcases hdecide : site.decideAll fleet shuffles .empty items with ⟨result, site'⟩
  rw [hdecide] at hstores hregistry hdecided
  dsimp only at hstores hregistry hdecided ⊢
  subst hdecided
  obtain ⟨hfaults, hwritten⟩ :=
    correctAll_healthy healthy (fair.after items.length) plan.writes site' (hregistry ▸ hsound)
  unfold carryOut
  dsimp only
  rw [hfaults, hclean]
  refine ⟨rfl, fun host => (hwritten host).trans ?_⟩
  rw [hstores, hregistry]
  exact if_congr hsound.mem_nodes.symm rfl rfl

end Site

end QuorumStore
