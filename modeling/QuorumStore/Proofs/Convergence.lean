import QuorumStore.Proofs.LastWrite

/-!
# Replicas converge

Two stores that took the same writes agree, whatever the order of the writes,
their grouping into batches, their repetitions and the numbers of buckets. Where
two insertions with one score carry different values the stores may keep
different ones; everything but the value agrees even there.
-/

namespace QuorumStore

/-- Names that rise do not repeat. -/
theorem nodup_of_rising {names : List String} (h : names.Pairwise (compare · · = .lt)) :
    names.Nodup :=
  h.imp fun hlt => by
    rintro rfl
    simp at hlt

/-- Sorted names are known by their members. -/
theorem eq_of_pairwise_of_mem_iff {xs ys : List String}
    (hx : xs.Pairwise (compare · · = .lt)) (hy : ys.Pairwise (compare · · = .lt))
    (h : ∀ name, name ∈ xs ↔ name ∈ ys) : xs = ys := by
  have hperm : xs.Perm ys :=
    (List.perm_ext_iff_of_nodup (nodup_of_rising hx) (nodup_of_rising hy)).2 h
  refine hperm.eq_of_pairwise ?_ hx hy
  intro a b _ _ hab hba
  rw [Std.OrientedCmp.gt_of_lt hab] at hba
  cases hba

/-! ## The strongest write -/

namespace Cell

/-- Of the writes to a field, one with the highest rank stays. -/
theorem exists_top {writes : List Cell} (h : writes ≠ []) :
    ∃ c ∈ writes, writes.foldl supersede none = some c ∧ ∀ d ∈ writes, d.rank ≤ c.rank := by
  obtain ⟨w, hw⟩ := List.exists_mem_of_ne_nil writes h
  rcases foldl_supersede_eq writes none with hnone | ⟨c, hc, he⟩
  · obtain ⟨d, hd, -⟩ := reaches_foldl_of_mem hw none
    rw [hnone] at hd
    cases hd
  · refine ⟨c, hc, he, fun d hd => ?_⟩
    obtain ⟨e, hs, hr⟩ := reaches_foldl_of_mem hd none
    rw [he] at hs
    cases hs
    exact hr

/-- The rank that stays depends only on which writes there were. -/
theorem rank_foldl_eq {xs ys : List Cell} (h : ∀ c, c ∈ xs ↔ c ∈ ys) :
    (xs.foldl supersede none).map rank = (ys.foldl supersede none).map rank := by
  by_cases hx : xs = []
  · subst hx
    have hy : ys = [] := List.eq_nil_iff_forall_not_mem.2 fun c hc => by simpa using (h c).2 hc
    rw [hy]
  · obtain ⟨c, hc, hcx, hcmax⟩ := exists_top hx
    obtain ⟨d, hd, hdy, hdmax⟩ := exists_top (List.ne_nil_of_mem ((h c).1 hc))
    have hle : c.rank ≤ d.rank := hdmax c ((h c).1 hc)
    have hge : d.rank ≤ c.rank := hcmax d ((h d).2 hd)
    rw [hcx, hdy, Option.map_some, Option.map_some, le_antisymm hle hge]

end Cell

/-- A snapshot shows the strongest of some writes, or that there were none. -/
def Presence.Tops (p : Presence) (writes : List Cell) : Prop :=
  (writes = [] ∧ p = .absent) ∨
    ∃ c ∈ writes, p = ⟨c.live, true, c.score⟩ ∧ ∀ d ∈ writes, d.rank ≤ c.rank

/-! ## What a store shows -/

namespace Store

/-- Every key is kept in the bucket of its digest. -/
def Placed (store : Store) : Prop :=
  ∀ i bucket key cells, store.buckets[i]? = some bucket → bucket[key]? = some cells →
    i = store.slot key

theorem placed_empty (buckets : Nat) (h : 0 < buckets) : (empty buckets h).Placed := by
  intro i bucket key cells hb hc
  have hempty : bucket = ∅ := by
    simp only [empty, Array.getElem?_replicate] at hb
    split at hb
    · exact (Option.some.inj hb).symm
    · cases hb
  simp [hempty] at hc

theorem Placed.apply {store : Store} (h : store.Placed) (b : Batch) : (store.apply b).Placed := by
  intro i bucket key cells hb hc
  simp only [Store.apply, slot_write]
  simp only [Store.apply, write, Array.getElem?_modify] at hb
  by_cases hs : store.slot b.key = i
  · rw [if_pos hs] at hb
    obtain ⟨old, hold, rfl⟩ := Option.map_eq_some_iff.1 hb
    by_cases hk : b.key = key
    · rw [← hk, hs]
    · have hne : compare b.key key ≠ .eq := fun he => hk (Std.LawfulEqOrd.eq_of_compare he)
      rw [Std.TreeMap.getElem?_insert, if_neg hne] at hc
      exact h i old key cells hold hc
  · rw [if_neg hs] at hb
    exact h i bucket key cells hb hc

theorem Placed.run {store : Store} (h : store.Placed) (batches : List Batch) :
    (store.run batches).Placed := by
  induction batches generalizing store with
  | nil => rwa [run_nil]
  | cons b rest ih =>
    rw [run_cons]
    exact ih (h.apply b)

/-- Where every key is in its bucket, its cells are those that any bucket has for it. -/
theorem Placed.cells_eq {store : Store} (h : store.Placed) {i : Nat} {bucket : Bucket} {key : Key}
    {cells : Cells} (hb : store.buckets[i]? = some bucket) (hc : bucket[key]? = some cells) :
    store.cells key = cells := by
  have hi := h i bucket key cells hb hc
  subst hi
  simp only [Store.cells, hb, Option.getD_some, hc]

/-- A key is shown when one of its fields is live. -/
theorem Placed.mem_keys {store : Store} (h : store.Placed) {key : Key} :
    key ∈ store.keys ↔ ∃ field c, store.cell? key field = some c ∧ c.live = true := by
  simp only [keys, mem_sortedNames, List.mem_flatMap, List.mem_filterMap, Prod.exists]
  constructor
  · rintro ⟨bucket, hb, k, cells, hmem, hlive⟩
    split at hlive
    · rename_i hany
      cases hlive
      obtain ⟨i, hi⟩ := List.getElem?_of_mem hb
      have hc := Std.TreeMap.mem_toList_iff_getElem?_eq_some.1 hmem
      have hcells : store.cells key = cells := h.cells_eq (by simpa using hi) hc
      simp only [Cells.anyLive, List.any_eq_true, Prod.exists] at hany
      obtain ⟨field, c, hmemc, hl⟩ := hany
      refine ⟨field, c, ?_, hl⟩
      rw [cell?, hcells]
      exact Std.TreeMap.mem_toList_iff_getElem?_eq_some.1 hmemc
    · cases hlive
  · rintro ⟨field, c, hcell, hl⟩
    obtain ⟨bucket, hb⟩ := store.exists_bucket key
    have hcells : store.cells key = (bucket[key]?).getD ∅ := by
      simp only [Store.cells, hb, Option.getD_some]
    rw [cell?, hcells] at hcell
    cases hk : bucket[key]? with
    | none => simp [hk] at hcell
    | some cells =>
      rw [hk, Option.getD_some] at hcell
      refine ⟨bucket, ?_, key, cells, Std.TreeMap.mem_toList_iff_getElem?_eq_some.2 hk, ?_⟩
      · exact Array.mem_toList_iff.2 (Array.mem_of_getElem? hb)
      · have hany : Cells.anyLive cells = true := by
          simp only [Cells.anyLive, List.any_eq_true, Prod.exists]
          exact ⟨field, c, Std.TreeMap.mem_toList_iff_getElem?_eq_some.2 hcell, hl⟩
        rw [if_pos hany]

/-- A field is shown when it is live. -/
theorem mem_members {store : Store} {key : Key} {field : Field} :
    field ∈ store.members key ↔ ∃ c, store.cell? key field = some c ∧ c.live = true := by
  simp only [members, Cells.liveFields, List.mem_filterMap, Prod.exists, cell?]
  constructor
  · rintro ⟨f, c, hmem, hlive⟩
    split at hlive
    · rename_i hl
      cases hlive
      exact ⟨c, Std.TreeMap.mem_toList_iff_getElem?_eq_some.1 hmem, hl⟩
    · cases hlive
  · rintro ⟨c, hc, hl⟩
    exact ⟨field, c, Std.TreeMap.mem_toList_iff_getElem?_eq_some.2 hc, if_pos hl⟩

/-- The live fields of a key rise strictly. -/
theorem members_pairwise (store : Store) (key : Key) :
    (store.members key).Pairwise (compare · · = .lt) := by
  rw [members, Cells.liveFields, List.pairwise_filterMap]
  refine Std.TreeMap.ordered_keys_toList.imp ?_
  rintro ⟨f, c⟩ ⟨g, d⟩ hlt x hx y hy
  obtain ⟨-, hf⟩ := Option.ite_none_right_eq_some.1 hx
  obtain ⟨-, hg⟩ := Option.ite_none_right_eq_some.1 hy
  rw [← Option.some.inj hf, ← Option.some.inj hg]
  exact hlt

/-- What two stores show of a field depends on the ranks that they hold. -/
theorem score_eq_of_rank_eq {a b : Store} {key : Key} {field : Field}
    (h : (a.cell? key field).map Cell.rank = (b.cell? key field).map Cell.rank) :
    a.score key field = b.score key field := by
  unfold score
  generalize a.cell? key field = x at h ⊢
  generalize b.cell? key field = y at h ⊢
  cases x with
  | none => cases y with
    | none => rfl
    | some d => cases h
  | some c => cases y with
    | none => cases h
    | some d =>
      obtain ⟨hs, hl⟩ := Cell.rank_eq_iff.1 (Option.some.inj h)
      simp only [hs, hl]

/-- Stores that hold the same ranks hold the same live fields. -/
theorem exists_live_of_rank_eq {a b : Store} {key : Key} {field : Field}
    (h : (a.cell? key field).map Cell.rank = (b.cell? key field).map Cell.rank)
    (hlive : ∃ c, a.cell? key field = some c ∧ c.live = true) :
    ∃ c, b.cell? key field = some c ∧ c.live = true := by
  obtain ⟨c, hc, hl⟩ := hlive
  rw [hc, Option.map_some] at h
  obtain ⟨d, hd, he⟩ := Option.map_eq_some_iff.1 h.symm
  exact ⟨d, hd, (Cell.rank_eq_iff.1 he).2.trans hl⟩

/-- Stores that hold the same record serve the same value. -/
theorem select_eq_of_cell?_eq {a b : Store} {key : Key} {field : Field}
    (h : a.cell? key field = b.cell? key field) : a.select key field = b.select key field := by
  rw [select, select, h]

/-- Stores without a live record of a field report the same absence. -/
theorem select_eq_of_not_live {a b : Store} {key : Key} {field : Field}
    (ha : ∀ c, a.cell? key field = some c → c.live = false)
    (hb : ∀ c, b.cell? key field = some c → c.live = false) :
    a.select key field = b.select key field := by
  have habsent : ∀ s : Store, (∀ c, s.cell? key field = some c → c.live = false) →
      s.select key field = .error (.notFound (key ++ "/" ++ field)) := by
    intro s hs
    unfold select
    generalize s.cell? key field = x at hs ⊢
    cases x with
    | none => rfl
    | some c => simp [hs c rfl]
  rw [habsent a ha, habsent b hb]

/-- What a run from an empty store leaves in a field: the fold of its writes. -/
theorem cell?_run_empty (buckets : Nat) (h : 0 < buckets) (batches : List Batch) (key : Key)
    (field : Field) :
    ((empty buckets h).run batches).cell? key field
      = (Mutation.at key field (Batch.log batches)).foldl Cell.supersede none := by
  have hnone : (empty buckets h).cell? key field = none := by
    rw [cell?, cells_empty]
    simp
  rw [cell?_run, hnone]

/-- A record in a store that was once empty was brought by a write. -/
theorem mem_log_of_cell? {buckets : Nat} (h : 0 < buckets) {batches : List Batch} {key : Key}
    {field : Field} {c : Cell}
    (hc : ((empty buckets h).run batches).cell? key field = some c) :
    (⟨key, field, c⟩ : Mutation) ∈ Batch.log batches := by
  refine (cell?_run_cases hc).resolve_left fun hold => ?_
  rw [cell?, cells_empty, Std.TreeMap.getElem?_emptyc] at hold
  cases hold

end Store

/-! ## Convergence -/

/-- Two stores that took the same writes, in any order, in any batches and with any
repetitions, know the same about every field: the strongest write to it, if there was
one. So they show the same keys, fields and counts, and serve the same values unless
insertions with one score brought different ones. -/
theorem Store.replicas_converge {m n : Nat} (hm : 0 < m) (hn : 0 < n) (left right : List Batch)
    (h : ∀ w : Mutation, w ∈ Batch.log left ↔ w ∈ Batch.log right) :
    (∀ key field,
      ((empty m hm).run left).score key field = ((empty n hn).run right).score key field ∧
      (((empty m hm).run left).score key field).Tops (Mutation.at key field (Batch.log left))) ∧
    ((empty m hm).run left).keys = ((empty n hn).run right).keys ∧
    (∀ key,
      ((empty m hm).run left).size key = ((empty n hn).run right).size key ∧
      ((empty m hm).run left).members key = ((empty n hn).run right).members key) ∧
    ∀ key field,
      (∀ v w score, (⟨key, field, ⟨v, score, true⟩⟩ : Mutation) ∈ Batch.log left →
        (⟨key, field, ⟨w, score, true⟩⟩ : Mutation) ∈ Batch.log left → v = w) →
      ((empty m hm).run left).select key field = ((empty n hn).run right).select key field := by
  have hat : ∀ key field c, c ∈ Mutation.at key field (Batch.log left) ↔
      c ∈ Mutation.at key field (Batch.log right) := by
    intro key field c
    rw [Mutation.mem_at, Mutation.mem_at, h]
  have hrank : ∀ key field, (((empty m hm).run left).cell? key field).map Cell.rank
      = (((empty n hn).run right).cell? key field).map Cell.rank := by
    intro key field
    rw [cell?_run_empty, cell?_run_empty]
    exact Cell.rank_foldl_eq (hat key field)
  have hmembers : ∀ key, ((empty m hm).run left).members key
      = ((empty n hn).run right).members key := by
    intro key
    refine eq_of_pairwise_of_mem_iff (members_pairwise _ _) (members_pairwise _ _) fun field => ?_
    rw [mem_members, mem_members]
    exact ⟨exists_live_of_rank_eq (hrank key field), exists_live_of_rank_eq (hrank key field).symm⟩
  refine ⟨fun key field => ⟨score_eq_of_rank_eq (hrank key field), ?_⟩, ?_,
    fun key => ⟨?_, hmembers key⟩, fun key field hsame => ?_⟩
  · unfold score
    rw [cell?_run_empty]
    by_cases hnil : Mutation.at key field (Batch.log left) = []
    · rw [hnil]
      exact Or.inl ⟨rfl, rfl⟩
    · obtain ⟨c, hc, he, hmax⟩ := Cell.exists_top hnil
      rw [he]
      exact Or.inr ⟨c, hc, rfl, hmax⟩
  · refine eq_of_pairwise_of_mem_iff (sortedNames_pairwise _) (sortedNames_pairwise _) fun key => ?_
    have hleft := (placed_empty m hm).run left
    have hright := (placed_empty n hn).run right
    refine hleft.mem_keys.trans (Iff.trans ?_ hright.mem_keys.symm)
    exact exists_congr fun field =>
      ⟨exists_live_of_rank_eq (hrank key field), exists_live_of_rank_eq (hrank key field).symm⟩
  · rw [size, size, hmembers]
  · by_cases hlive : ∃ c, ((empty m hm).run left).cell? key field = some c ∧ c.live = true
    · obtain ⟨c, hc, hl⟩ := hlive
      obtain ⟨d, hd, hld⟩ := exists_live_of_rank_eq (hrank key field) ⟨c, hc, hl⟩
      have hr := hrank key field
      rw [hc, hd, Option.map_some, Option.map_some, Option.some.injEq, Cell.rank_eq_iff] at hr
      have hcl := mem_log_of_cell? hm hc
      have hdl := (h _).2 (mem_log_of_cell? hn hd)
      obtain ⟨v, s, l⟩ := c
      obtain ⟨w, t, k⟩ := d
      obtain ⟨rfl, rfl⟩ : s = t ∧ l = k := hr
      subst hl
      refine select_eq_of_cell?_eq ?_
      rw [hc, hd, hsame v w s hcl hdl]
    · refine select_eq_of_not_live (fun c hc => ?_) (fun d hd => ?_)
      · exact Bool.eq_false_of_not_eq_true fun hl => hlive ⟨c, hc, hl⟩
      · exact Bool.eq_false_of_not_eq_true fun hl =>
          hlive (exists_live_of_rank_eq (hrank key field).symm ⟨d, hd, hl⟩)

/-- One store takes an insertion and then, in one batch, a deletion of the same score and
another one; a store of three buckets takes the same writes backwards and twice. -/
theorem Store.replicas_converge_backwards :
    (∀ w : Mutation,
      w ∈ Batch.log [⟨.insert, "k", [⟨"f", [1], 5⟩]⟩,
        ⟨.delete, "k", [⟨"f", [], 5⟩, ⟨"g", [], 2⟩]⟩] ↔
      w ∈ Batch.log [⟨.delete, "k", [⟨"g", [], 2⟩]⟩, ⟨.delete, "k", [⟨"f", [7], 5⟩]⟩,
        ⟨.insert, "k", [⟨"f", [1], 5⟩, ⟨"f", [1], 5⟩]⟩]) ∧
    ((empty 1 (by decide)).run [⟨.insert, "k", [⟨"f", [1], 5⟩]⟩,
        ⟨.delete, "k", [⟨"f", [], 5⟩, ⟨"g", [], 2⟩]⟩]).select "k" "f"
      = ((empty 3 (by decide)).run [⟨.delete, "k", [⟨"g", [], 2⟩]⟩, ⟨.delete, "k", [⟨"f", [7], 5⟩]⟩,
        ⟨.insert, "k", [⟨"f", [1], 5⟩, ⟨"f", [1], 5⟩]⟩]).select "k" "f" := by
  have hlog : ∀ w : Mutation,
      w ∈ Batch.log [⟨.insert, "k", [⟨"f", [1], 5⟩]⟩,
        ⟨.delete, "k", [⟨"f", [], 5⟩, ⟨"g", [], 2⟩]⟩] ↔
      w ∈ Batch.log [⟨.delete, "k", [⟨"g", [], 2⟩]⟩, ⟨.delete, "k", [⟨"f", [7], 5⟩]⟩,
        ⟨.insert, "k", [⟨"f", [1], 5⟩, ⟨"f", [1], 5⟩]⟩] := by
    intro w
    simp only [Batch.log, Batch.mutations, FieldValue.written, List.flatMap_cons, List.flatMap_nil,
      List.map_cons, List.map_nil, List.mem_append, List.mem_cons, List.not_mem_nil, or_false]
    constructor
    · rintro (h | h | h) <;> simp [h]
    · rintro (h | h | h | h) <;> simp [h]
  refine ⟨hlog, ?_⟩
  refine (replicas_converge _ _ _ _ hlog).2.2.2 "k" "f" fun v w s hv hw => ?_
  simp [Batch.log, Batch.mutations, FieldValue.written] at hv hw
  rw [hv.1, hw.1]

end QuorumStore
