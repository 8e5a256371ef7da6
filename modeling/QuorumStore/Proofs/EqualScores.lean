import QuorumStore.Proofs.Acknowledged

/-!
# Equal scores and equal records

The scores of a field order its records, and replicas that show equal scores pass for
being in step. Clients number their writes, and a repair pass writes the record that
wins again under the number after it. As long as no client uses a number that a pass
has given out, records with equal scores are equal, whichever replicas fail, join
late or hear late. A client that does use such a number can leave two replicas with
different records and one score.
-/

namespace QuorumStore

/-- A write that puts a record of a field out again. -/
def Mutation.Renews (w v : Mutation) : Prop :=
  w.key = v.key ∧ w.field = v.field ∧ w.cell = v.cell.next

/-- Two writes to one field at one score. -/
def Mutation.Rivals (v w : Mutation) : Prop :=
  v.key = w.key ∧ v.field = w.field ∧ v.cell.score = w.cell.score

instance (v w : Mutation) : Decidable (v.Rivals w) := inferInstanceAs (Decidable (_ ∧ _ ∧ _))

theorem Mutation.Rivals.symm {v w : Mutation} (h : v.Rivals w) : w.Rivals v :=
  ⟨h.1.symm, h.2.1.symm, h.2.2.symm⟩

/-- What puts out again rivals comes from rivals. -/
theorem Mutation.Renews.rivals {v w x y : Mutation} (hv : v.Renews x) (hw : w.Renews y)
    (h : v.Rivals w) : x.Rivals y := by
  obtain ⟨hvkey, hvfield, hvcell⟩ := hv
  obtain ⟨hwkey, hwfield, hwcell⟩ := hw
  obtain ⟨hkey, hfield, hscore⟩ := h
  rw [hvcell, hwcell] at hscore
  refine ⟨by rw [← hvkey, hkey, hwkey], by rw [← hvfield, hfield, hwfield], ?_⟩
  have hnext : x.cell.score + 1 = y.cell.score + 1 := hscore
  omega

/-- A write is put out again in one way. -/
theorem Mutation.Renews.unique {v w x : Mutation} (hv : v.Renews x) (hw : w.Renews x) : v = w := by
  obtain ⟨key, field, cell⟩ := v
  obtain ⟨hvkey, hvfield, hvcell⟩ := hv
  obtain ⟨hwkey, hwfield, hwcell⟩ := hw
  dsimp only at hvkey hvfield hvcell
  rw [hvkey, hvfield, hvcell, ← hwkey, ← hwfield, ← hwcell]

namespace Site

variable {σ : Type} {fleet : Fleet σ} {stores : σ → Host → Store} {s : σ}
  {written renewed : List Mutation}

/-- The runs of a cluster that starts without records: the replicas, what clients
have written and what repair passes have written, each in order. Every operation may
be that of another coordinator. -/
inductive Course (fleet : Fleet σ) (stores : σ → Host → Store) :
    σ → List Mutation → List Mutation → Prop where
  /-- No replica holds a record. -/
  | start {s : σ} (hblank : ∀ host key field, (stores s host).cell? key field = none) :
      Course fleet stores s [] []
  /-- Time passes, and calls may get through that did not before. -/
  | pass {s s' : σ} {written renewed : List Mutation} (h : Course fleet stores s written renewed)
      (hsame : stores s' = stores s) : Course fleet stores s' written renewed
  /-- A replica joins, or it comes back without its records. -/
  | join {s s' : σ} {written renewed : List Mutation} (h : Course fleet stores s written renewed)
      (host : Host) (hblank : ∀ key field, (stores s' host).cell? key field = none)
      (hothers : ∀ other, other ≠ host → stores s' other = stores s other) :
      Course fleet stores s' written renewed
  /-- A call that was written earlier reaches a replica late. -/
  | late {s s' : σ} {written renewed : List Mutation} (h : Course fleet stores s written renewed)
      (host : Host) (b : Batch) (hsent : ∀ w ∈ b.mutations, w ∈ written ++ renewed)
      (hhost : stores s' host = (stores s host).apply b)
      (hothers : ∀ other, other ≠ host → stores s' other = stores s other) :
      Course fleet stores s' written renewed
  /-- A client writes on a quorum. -/
  | write {s : σ} {written renewed : List Mutation} (h : Course fleet stores s written renewed)
      {r : Registry} (hreached : r.Reached) {shuffle : List Host → List Host}
      (hshuffle : ∀ hosts, (shuffle hosts).Perm hosts) (kind : WriteKind) (key : Key)
      (members : List FieldValue) (quorum : Quorum) :
      Course fleet stores ((⟨r, s⟩ : Site σ).write fleet shuffle kind key members quorum).2.world
        (written ++ Batch.mutations ⟨kind, key, members⟩) renewed
  /-- A repair pass is run. -/
  | repair {s : σ} {written renewed : List Mutation} (h : Course fleet stores s written renewed)
      {r : Registry} (hreached : r.Reached) {shuffles : Shuffles} (fair : shuffles.Fair)
      (items : List Suspect) :
      Course fleet stores ((⟨r, s⟩ : Site σ).repair fleet shuffles items).2.world written
        (renewed ++ Batch.log (((⟨r, s⟩ : Site σ).rewrites fleet shuffles items).map
          Correction.batch))

/-- Each store takes a write or leaves it. -/
theorem write_spec (honest : fleet.Honest stores) {site : Site σ} (hsound : site.registry.Sound)
    {shuffle : List Host → List Host} (hshuffle : ∀ hosts, (shuffle hosts).Perm hosts)
    (kind : WriteKind) (key : Key) (members : List FieldValue) (quorum : Quorum) (host : Host) :
    stores (site.write fleet shuffle kind key members quorum).2.world host
        = stores site.world host ∨
      stores (site.write fleet shuffle kind key members quorum).2.world host
        = (stores site.world host).apply ⟨kind, key, members⟩ :=
  apply_of_scatter honest ⟨kind, key, members⟩ (hsound.nodup_write hshuffle key quorum) site.world
    host

/-- What was written stays written when clients write more. -/
theorem subset_write (written renewed more : List Mutation) :
    written ++ renewed ⊆ (written ++ more) ++ renewed :=
  ((List.sublist_append_left written more).append (List.Sublist.refl renewed)).subset

/-- What was written stays written when a pass writes more. -/
theorem subset_repair (written renewed more : List Mutation) :
    written ++ renewed ⊆ written ++ (renewed ++ more) :=
  ((List.Sublist.refl written).append (List.sublist_append_left renewed more)).subset

/-- Whatever replicas hold was written by a client or by a repair pass. -/
theorem Course.mem_of_held (honest : fleet.Honest stores)
    (h : Course fleet stores s written renewed) {host : Host} {key : Key} {field : Field} {c : Cell}
    (hc : (stores s host).cell? key field = some c) :
    (⟨key, field, c⟩ : Mutation) ∈ written ++ renewed := by
  induction h generalizing host key field c with
  | start hblank =>
    rw [hblank] at hc
    cases hc
  | pass h hsame ih =>
    rw [hsame] at hc
    exact ih hc
  | join h joined hblank hothers ih =>
    by_cases hhost : host = joined
    · rw [hhost, hblank] at hc
      cases hc
    · rw [hothers host hhost] at hc
      exact ih hc
  | late h reached b hsent hhost hothers ih =>
    by_cases hreached : host = reached
    · rw [hreached, hhost] at hc
      rcases Store.cell?_apply_cases hc with hold | hnew
      · exact ih hold
      · exact hsent _ hnew
    · rw [hothers host hreached] at hc
      exact ih hc
  | @write s written renewed h r hreached shuffle hshuffle kind under members quorum ih =>
    have hsound : (⟨r, s⟩ : Site σ).registry.Sound := hreached.sound
    rcases write_spec honest hsound hshuffle kind under members quorum host with hkept | htaken
    · rw [hkept] at hc
      exact subset_write _ _ _ (ih hc)
    · rw [htaken] at hc
      rcases Store.cell?_apply_cases hc with hold | hnew
      · exact subset_write _ _ _ (ih hold)
      · exact List.mem_append_left _ (List.mem_append_right _ hnew)
  | @repair s written renewed h r hreached shuffles fair items ih =>
    have hsound : (⟨r, s⟩ : Site σ).registry.Sound := hreached.sound
    obtain ⟨received, hsub, hrun⟩ := repair_spec honest fair hsound items host
    rw [hrun] at hc
    rcases Store.cell?_run_cases hc with hold | hnew
    · exact subset_repair _ _ _ (ih hold)
    · obtain ⟨b, hb, hw⟩ := List.mem_flatMap.1 hnew
      have hsent := List.mem_flatMap.2 ⟨b, (hsub.map Correction.batch).subset hb, hw⟩
      exact List.mem_append_right _ (List.mem_append_right _ hsent)

/-- Whatever a repair pass writes puts out again what was written before. -/
theorem Course.renews_of_mem_rewrites (honest : fleet.Honest stores)
    (h : Course fleet stores s written renewed) {r : Registry} (hreached : r.Reached)
    {shuffles : Shuffles} (fair : shuffles.Fair) (items : List Suspect) {w : Mutation}
    (hw : w ∈ Batch.log (((⟨r, s⟩ : Site σ).rewrites fleet shuffles items).map Correction.batch)) :
    ∃ v ∈ written ++ renewed, w.Renews v := by
  rw [Batch.log, List.flatMap_map] at hw
  obtain ⟨c, hc, hwrites⟩ := List.mem_flatMap.1 hw
  obtain ⟨m, hm, rfl⟩ := List.mem_map.1 hwrites
  obtain ⟨host, -, held, hheld, hreissued, -⟩ :=
    backed_of_mem_rewrites honest fair hreached.sound hc hm
  exact ⟨⟨c.key, m.field, held⟩, h.mem_of_held honest hheld, rfl, rfl, hreissued.cell_eq⟩

/-- Whatever repair passes have written puts out again what was written. -/
theorem Course.exists_renewed (honest : fleet.Honest stores)
    (h : Course fleet stores s written renewed) {w : Mutation} (hw : w ∈ renewed) :
    ∃ v ∈ written ++ renewed, w.Renews v := by
  induction h generalizing w with
  | start hblank => cases hw
  | pass h hsame ih => exact ih hw
  | join h joined hblank hothers ih => exact ih hw
  | late h reached b hsent hhost hothers ih => exact ih hw
  | write h hreached hshuffle kind key members quorum ih =>
    obtain ⟨v, hv, hrenews⟩ := ih hw
    exact ⟨v, subset_write _ _ _ hv, hrenews⟩
  | repair h hreached fair items ih =>
    obtain ⟨v, hv, hrenews⟩ := (List.mem_append.1 hw).elim ih
      (h.renews_of_mem_rewrites honest hreached fair items)
    exact ⟨v, subset_repair _ _ _ hv, hrenews⟩

/-- Writes that no two rival are known by their field and score. -/
theorem eq_of_rivals (hdistinct : written.Pairwise fun v w => ¬ v.Rivals w)
    (hapart : ∀ v ∈ written, ∀ w ∈ renewed, ¬ v.Rivals w)
    (hrenewed : ∀ v ∈ renewed, ∀ w ∈ renewed, v.Rivals w → v = w) {v w : Mutation}
    (hv : v ∈ written ++ renewed) (hw : w ∈ written ++ renewed) (hrivals : v.Rivals w) : v = w := by
  have hsymm : Std.Symm fun v w : Mutation => ¬ v.Rivals w := ⟨fun _ _ h h' => h h'.symm⟩
  rcases List.mem_append.1 hv with hv | hv <;> rcases List.mem_append.1 hw with hw | hw
  · by_contra hne
    exact hdistinct.forall hv hw hne hrivals
  · exact absurd hrivals (hapart v hv w hw)
  · exact absurd hrivals.symm (hapart w hw v hv)
  · exact hrenewed v hv w hw hrivals

/-- As long as clients use each number once, and none that a pass has given out, the
passes have given out each number for one record. -/
theorem Course.renewed_unique (honest : fleet.Honest stores)
    (h : Course fleet stores s written renewed)
    (hdistinct : written.Pairwise fun v w => ¬ v.Rivals w)
    (hapart : ∀ v ∈ written, ∀ w ∈ renewed, ¬ v.Rivals w) :
    ∀ v ∈ renewed, ∀ w ∈ renewed, v.Rivals w → v = w := by
  induction h with
  | start hblank => exact fun v hv => by cases hv
  | pass h hsame ih => exact ih hdistinct hapart
  | join h joined hblank hothers ih => exact ih hdistinct hapart
  | late h reached b hsent hhost hothers ih => exact ih hdistinct hapart
  | write h hreached hshuffle kind key members quorum ih =>
    exact ih (List.pairwise_append.1 hdistinct).1 fun v hv => hapart v (List.mem_append_left _ hv)
  | repair h hreached fair items ih =>
    have hapart' := fun v hv w hw => hapart v hv w (List.mem_append_left _ hw)
    have hold := ih hdistinct hapart'
    intro v hv w hw hrivals
    -- old or new, both put out again what was written before the pass, and that is unique
    obtain ⟨x, hx, hvx⟩ := (List.mem_append.1 hv).elim (h.exists_renewed honest)
      (h.renews_of_mem_rewrites honest hreached fair items)
    obtain ⟨y, hy, hwy⟩ := (List.mem_append.1 hw).elim (h.exists_renewed honest)
      (h.renews_of_mem_rewrites honest hreached fair items)
    have hsame := eq_of_rivals hdistinct hapart' hold hx hy (hvx.rivals hwy hrivals)
    exact hvx.unique (hsame ▸ hwy)

/-- Equal scores mean equal records, as long as no client uses a number that a repair
pass has given out for the field. Clients use each number of a field once. Then in
every state that writes, passes, failures, late calls and newcomers lead to, two
replicas whose records for a field have equal scores hold the same record. -/
theorem Course.eq_of_score_eq (honest : fleet.Honest stores)
    (h : Course fleet stores s written renewed)
    (hdistinct : written.Pairwise fun v w => ¬ v.Rivals w)
    (hapart : ∀ v ∈ written, ∀ w ∈ renewed, ¬ v.Rivals w)
    {a b : Host} {key : Key} {field : Field} {c d : Cell}
    (hc : (stores s a).cell? key field = some c) (hd : (stores s b).cell? key field = some d)
    (hscore : c.score = d.score) : c = d :=
  congrArg Mutation.cell (eq_of_rivals hdistinct hapart
    (h.renewed_unique honest hdistinct hapart) (h.mem_of_held honest hc) (h.mem_of_held honest hd)
    ⟨rfl, rfl, hscore⟩)

end Site

/-! ## A number that a pass has given out -/

/-- Replicas of which `c` does not hear of the first value again, and `a` does not hear
of the second. -/
def Fleet.torn : Fleet (Host → Store) :=
  .direct fun host call =>
    match call with
    | .insert _ [m] => host = "c" && m.value = [1] && m.score = 2 || host = "a" && m.value = [2]
    | _ => false

namespace Site

/-- Three blank replicas after the first value was written to all, at score 1. -/
def tornOnce : Host → Store :=
  ((⟨Registry.trio, fun _ => .empty 1 Nat.one_pos⟩ : Site (Host → Store)).write .torn id .insert
    "k" [⟨"f", [1], 1⟩] .strong).2.world

/-- They are repaired, and the second value is written to all, at some score. -/
def tornTwice (score : Int) : Host → Store :=
  ((⟨Registry.trio, ((⟨Registry.trio, tornOnce⟩ : Site (Host → Store)).repair .torn (fun _ => id)
    [⟨"k", "f", []⟩]).2.world⟩ : Site (Host → Store)).write .torn id .insert
    "k" [⟨"f", [2], score⟩] .strong).2.world

/-- The pass puts the first value out again, at score 2. -/
theorem course_torn (score : Int) :
    Course .torn (fun s => s) (tornTwice score)
      [⟨"k", "f", ⟨[1], 1, true⟩⟩, ⟨"k", "f", ⟨[2], score, true⟩⟩]
      [⟨"k", "f", ⟨[1], 2, true⟩⟩] := by
  have hrewrites : (⟨Registry.trio, tornOnce⟩ : Site (Host → Store)).rewrites .torn (fun _ => id)
      [⟨"k", "f", []⟩] = [⟨.insert, "k", [⟨"f", [1], 2⟩]⟩] := by decide +kernel
  have hblank : Course .torn (fun s => s) (fun _ => .empty 1 Nat.one_pos) [] [] :=
    .start fun _ key field => by
      rw [Store.cell?, Store.cells_empty]
      exact Std.TreeMap.getElem?_emptyc
  have honce := hblank.write Registry.reached_trio (fun _ => List.Perm.refl _) .insert "k"
    [⟨"f", [1], 1⟩] .strong
  have hrepaired := honce.repair Registry.reached_trio (fun _ _ => List.Perm.refl _)
    [⟨"k", "f", []⟩]
  have htwice := hrepaired.write Registry.reached_trio (fun _ => List.Perm.refl _) .insert "k"
    [⟨"f", [2], score⟩] .strong
  change Course .torn _ (tornTwice score) _ ([] ++ Batch.log
    (((⟨Registry.trio, tornOnce⟩ : Site (Host → Store)).rewrites .torn (fun _ => id)
      [⟨"k", "f", []⟩]).map Correction.batch)) at htwice
  rw [hrewrites] at htwice
  exact htwice

/-- Where the client's second number is another one than the pass has given out, the
two replicas that took the second value hold the same record. -/
theorem Course.eq_of_number_unused :
    ([⟨"k", "f", ⟨[1], 1, true⟩⟩, ⟨"k", "f", ⟨[2], 3, true⟩⟩] : List Mutation).Pairwise
      (fun v w => ¬ v.Rivals w) ∧
    (∀ v ∈ ([⟨"k", "f", ⟨[1], 1, true⟩⟩, ⟨"k", "f", ⟨[2], 3, true⟩⟩] : List Mutation),
      ∀ w ∈ ([⟨"k", "f", ⟨[1], 2, true⟩⟩] : List Mutation), ¬ v.Rivals w) ∧
    ∃ c d, (tornTwice 3 "b").cell? "k" "f" = some c ∧ (tornTwice 3 "c").cell? "k" "f" = some d ∧
      c.score = d.score ∧ c = d := by
  have hdistinct : ([⟨"k", "f", ⟨[1], 1, true⟩⟩, ⟨"k", "f", ⟨[2], 3, true⟩⟩] :
      List Mutation).Pairwise (fun v w => ¬ v.Rivals w) := by decide
  have hapart : ∀ v ∈ ([⟨"k", "f", ⟨[1], 1, true⟩⟩, ⟨"k", "f", ⟨[2], 3, true⟩⟩] : List Mutation),
      ∀ w ∈ ([⟨"k", "f", ⟨[1], 2, true⟩⟩] : List Mutation), ¬ v.Rivals w := by decide
  have hb : (tornTwice 3 "b").cell? "k" "f" = some ⟨[2], 3, true⟩ := by decide +kernel
  have hc : (tornTwice 3 "c").cell? "k" "f" = some ⟨[2], 3, true⟩ := by decide +kernel
  exact ⟨hdistinct, hapart, _, _, hb, hc, rfl, (course_torn 3).eq_of_score_eq
    (Fleet.honest_direct _) hdistinct hapart hb hc rfl⟩

/-- A client that uses the number that the pass has given out leaves two replicas with
different records of one score, although its own numbers are different. -/
theorem course_splits_at_score :
    Fleet.torn.Honest (fun s => s) ∧
    Course .torn (fun s => s) (tornTwice 2)
      [⟨"k", "f", ⟨[1], 1, true⟩⟩, ⟨"k", "f", ⟨[2], 2, true⟩⟩] [⟨"k", "f", ⟨[1], 2, true⟩⟩] ∧
    ([⟨"k", "f", ⟨[1], 1, true⟩⟩, ⟨"k", "f", ⟨[2], 2, true⟩⟩] : List Mutation).Pairwise
      (fun v w => ¬ v.Rivals w) ∧
    (tornTwice 2 "a").cell? "k" "f" = some ⟨[1], 2, true⟩ ∧
    (tornTwice 2 "c").cell? "k" "f" = some ⟨[2], 2, true⟩ :=
  ⟨Fleet.honest_direct _, course_torn 2, by decide, by decide +kernel, by decide +kernel⟩

end Site

end QuorumStore
