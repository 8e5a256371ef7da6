import QuorumStore.Proofs.RedBlack.Deletion
import QuorumStore.Proofs.RedBlack.Insertion
import QuorumStore.Proofs.RedBlack.Walking

/-!
# The index in search order

An index that was built by insertions and deletions holds its entries in the order
of their keys, each key once. An insertion adds an entry where its key is free, a
deletion takes out the entry at a key, and walking clockwise from a key is a matter
of lists: the entries from the key on, then those below it, each host where it is
first met.
-/

namespace QuorumStore.Placement.Index

variable {index : Index} {key : Int} {host : Host}

/-- The slots show a balanced search tree, and every slot is accounted for. -/
def Sound (index : Index) : Prop := ∃ t, index.Built t

/-- Where the keys increase, no pair is repeated. -/
theorem nodup_of_increasing {pairs : List (Int × Host)} (h : pairs.Pairwise (·.1 < ·.1)) :
    pairs.Nodup :=
  h.imp fun {x y} hlt (heq : x = y) => Int.ne_of_lt hlt (congrArg Prod.fst heq)

namespace Sound

/-- The keys increase. -/
theorem pairwise_entries (h : index.Sound) : index.entries.Pairwise (·.1 < ·.1) := by
  obtain ⟨t, ht⟩ := h
  rw [ht.entries_eq]
  exact List.pairwise_map.2 ht.ordered

/-- A key has one entry. -/
theorem eq_of_key (h : index.Sound) {x y : Int × Host} (hx : x ∈ index.entries)
    (hy : y ∈ index.entries) (hkey : x.1 = y.1) : x = y := by
  have hnodup : (index.entries.map Prod.fst).Nodup :=
    List.pairwise_map.2 (h.pairwise_entries.imp fun hlt => Int.ne_of_lt hlt)
  exact List.inj_on_of_nodup_map hnodup hx hy hkey

/-- The entries are the only list with the same pairs in which the keys increase. -/
theorem entries_eq (h : index.Sound) {pairs : List (Int × Host)}
    (hpairs : pairs.Pairwise (·.1 < ·.1)) (hmem : ∀ x, x ∈ index.entries ↔ x ∈ pairs) :
    index.entries = pairs := by
  have hperm : index.entries.Perm pairs :=
    (List.perm_ext_iff_of_nodup (nodup_of_increasing h.pairwise_entries)
      (nodup_of_increasing hpairs)).2 hmem
  exact hperm.eq_of_pairwise (fun x y _ _ hxy hyx => absurd hxy (Int.lt_asymm hyx))
    h.pairwise_entries hpairs

/-- The entries are counted. -/
theorem size_eq (h : index.Sound) : index.size = index.entries.length := by
  obtain ⟨t, ht⟩ := h
  rw [ht.entries_eq, List.length_map]
  exact ht.size_eq

/-- The host at a key is that of its entry. -/
theorem host?_eq_some_iff (h : index.Sound) :
    index.host? key = some host ↔ (key, host) ∈ index.entries := by
  obtain ⟨t, ht⟩ := h
  rw [ht.entries_eq, List.mem_map]
  constructor
  · intro hhost
    by_cases hfree : ∀ e ∈ t.entries, e.key ≠ key
    · rw [ht.host?_of_free hfree] at hhost
      cases hhost
    · push Not at hfree
      obtain ⟨e, he, rfl⟩ := hfree
      rw [ht.host?_of_mem he] at hhost
      exact ⟨e, he, by rw [Option.some.inj hhost]⟩
  · rintro ⟨e, he, heq⟩
    obtain ⟨rfl, rfl⟩ := Prod.mk.inj heq
    exact ht.host?_of_mem he

/-- A key without an entry has no host. -/
theorem host?_eq_none_iff (h : index.Sound) :
    index.host? key = none ↔ ∀ y ∈ index.entries, y.1 ≠ key := by
  rw [Option.eq_none_iff_forall_ne_some]
  constructor
  · rintro hnone ⟨_, host⟩ hy rfl
    exact hnone host (h.host?_eq_some_iff.2 hy)
  · intro hfree host hhost
    exact hfree (key, host) (h.host?_eq_some_iff.1 hhost) rfl

/-! ## Insertion -/

/-- A key that is taken keeps its host. -/
theorem insert_taken (h : index.Sound) (htaken : ∃ y ∈ index.entries, y.1 = key) (host : Host) :
    index.insert key host = (index, false) := by
  obtain ⟨t, ht⟩ := h
  obtain ⟨y, hy, rfl⟩ := htaken
  rw [ht.entries_eq, List.mem_map] at hy
  obtain ⟨e, he, rfl⟩ := hy
  exact ht.insert_taken he host

/-- A key that is free gets an entry. -/
theorem insert_free (h : index.Sound) (hfree : ∀ y ∈ index.entries, y.1 ≠ key) (host : Host) :
    (index.insert key host).1.Sound ∧ (index.insert key host).2 = true ∧
      (index.insert key host).1.entries.Perm ((key, host) :: index.entries) := by
  obtain ⟨t, ht⟩ := h
  rw [ht.entries_eq] at hfree ⊢
  obtain ⟨t', xs, ys, z, ht', hnew, hold, hentries⟩ := ht.insert_free
    (fun e he => hfree (e.key, e.host) (List.mem_map_of_mem he)) host
  refine ⟨⟨t', ht'⟩, hnew, ?_⟩
  rw [ht'.entries_eq, hentries, hold]
  exact List.perm_middle.map _

/-- Inserting keeps an index sound. -/
theorem insert (h : index.Sound) (key : Int) (host : Host) : (index.insert key host).1.Sound := by
  by_cases hfree : ∀ y ∈ index.entries, y.1 ≠ key
  · exact (h.insert_free hfree host).1
  · push Not at hfree
    rw [h.insert_taken hfree host]
    exact h

/-- Inserting adds an entry at a key that was free, and no other entry. -/
theorem mem_insert (h : index.Sound) (key : Int) (host : Host) {x : Int × Host} :
    x ∈ (index.insert key host).1.entries ↔
      x ∈ index.entries ∨ (x = (key, host) ∧ ∀ y ∈ index.entries, y.1 ≠ key) := by
  by_cases hfree : ∀ y ∈ index.entries, y.1 ≠ key
  · rw [(h.insert_free hfree host).2.2.mem_iff, List.mem_cons, or_comm, and_iff_left hfree]
  · have htaken := hfree
    push Not at htaken
    rw [h.insert_taken htaken host]
    simp only [hfree, and_false, or_false]

/-- The host at a key after an insertion at one that was free. -/
theorem host?_insert (h : index.Sound) (hfree : index.host? key = none) (host : Host)
    (other : Int) : (index.insert key host).1.host? other
      = if other = key then some host else index.host? other := by
  refine Option.ext fun v => ?_
  rw [(h.insert key host).host?_eq_some_iff, h.mem_insert, ← h.host?_eq_some_iff,
    ← h.host?_eq_none_iff, and_iff_left hfree, Prod.mk.injEq]
  split_ifs with hkey
  · simp only [hkey, hfree, reduceCtorEq, false_or, true_and, Option.some.injEq, eq_comm]
  · exact or_iff_left fun heq => hkey heq.1

/-- An insertion answers whether its key was free. -/
theorem insert_answer_iff (h : index.Sound) (key : Int) (host : Host) :
    (index.insert key host).2 = true ↔ index.host? key = none := by
  rw [h.host?_eq_none_iff]
  constructor
  · intro hnew y hy hkey
    rw [h.insert_taken ⟨y, hy, hkey⟩] at hnew
    cases hnew
  · exact fun hfree => (h.insert_free hfree host).2.1

/-! ## Deletion -/

/-- Where there is no entry, none is removed. -/
theorem delete_free (h : index.Sound) (hfree : ∀ y ∈ index.entries, y.1 ≠ key) :
    index.delete key = (index, false) := by
  obtain ⟨t, ht⟩ := h
  rw [ht.entries_eq] at hfree
  exact ht.delete_absent fun e he => hfree (e.key, e.host) (List.mem_map_of_mem he)

/-- The entry at a key is removed, and the others stay in their order. -/
theorem delete_taken (h : index.Sound) (htaken : ∃ y ∈ index.entries, y.1 = key) :
    (index.delete key).1.Sound ∧ (index.delete key).2 = true ∧
      (index.delete key).1.entries = index.entries.filter (·.1 ≠ key) := by
  obtain ⟨t, ht⟩ := h
  obtain ⟨y, hy, rfl⟩ := htaken
  rw [ht.entries_eq, List.mem_map] at hy
  obtain ⟨e, he, rfl⟩ := hy
  obtain ⟨t', xs, ys, ht', hgone, hold, hentries⟩ := ht.delete_present he
  refine ⟨⟨t', ht'⟩, hgone, ?_⟩
  have hord : t.Ordered := ht.ordered
  rw [Tree.Ordered, hold, List.pairwise_append, List.pairwise_cons] at hord
  have hxs : ∀ x ∈ xs, x.key ≠ e.key := fun x hx =>
    Int.ne_of_lt (hord.2.2 x hx e List.mem_cons_self)
  have hys : ∀ x ∈ ys, x.key ≠ e.key := fun x hx => (Int.ne_of_lt (hord.2.1.1 x hx)).symm
  rw [ht'.entries_eq, ht.entries_eq, hentries, hold, List.filter_map, List.filter_append,
    List.filter_cons_of_neg (by simp), List.filter_eq_self.2 fun x hx => by simpa using hxs x hx,
    List.filter_eq_self.2 fun x hx => by simpa using hys x hx]

/-- Deleting keeps an index sound. -/
theorem delete (h : index.Sound) (key : Int) : (index.delete key).1.Sound := by
  by_cases hfree : ∀ y ∈ index.entries, y.1 ≠ key
  · rw [h.delete_free hfree]
    exact h
  · push Not at hfree
    exact (h.delete_taken hfree).1

/-- Deleting leaves the entries at other keys, in their order. -/
theorem entries_delete (h : index.Sound) (key : Int) :
    (index.delete key).1.entries = index.entries.filter (·.1 ≠ key) := by
  by_cases hfree : ∀ y ∈ index.entries, y.1 ≠ key
  · rw [h.delete_free hfree]
    exact (List.filter_eq_self.2 fun y hy => decide_eq_true (hfree y hy)).symm
  · push Not at hfree
    exact (h.delete_taken hfree).2.2

/-- The host at a key after a deletion. -/
theorem host?_delete (h : index.Sound) (key other : Int) :
    (index.delete key).1.host? other = if other = key then none else index.host? other := by
  refine Option.ext fun v => ?_
  rw [(h.delete key).host?_eq_some_iff, h.entries_delete, List.mem_filter, decide_eq_true_eq,
    ← h.host?_eq_some_iff]
  split_ifs with hkey
  · simp only [hkey, ne_eq, not_true_eq_false, and_false]
  · exact and_iff_left hkey

/-- A deletion answers whether its key was taken. -/
theorem delete_answer (h : index.Sound) (hhost : index.host? key = some host) :
    (index.delete key).2 = true :=
  (h.delete_taken ⟨(key, host), h.host?_eq_some_iff.1 hhost, rfl⟩).2.1

end Sound

theorem sound_empty : empty.Sound := ⟨.leaf, .empty⟩

/-! ## Walking clockwise -/

/-- The owners of the positions met when walking once around from a key. -/
def around (index : Index) (key : Int) : List Host :=
  (index.entries.filter (key ≤ ·.1) ++ index.entries.filter (·.1 < key)).map Prod.snd

theorem mem_around : host ∈ index.around key ↔ ∃ e ∈ index.entries, e.2 = host := by
  simp only [around, List.mem_map, List.mem_append, List.mem_filter, decide_eq_true_eq]
  constructor
  · rintro ⟨e, ⟨he, -⟩ | ⟨he, -⟩, rfl⟩ <;> exact ⟨e, he, rfl⟩
  · rintro ⟨e, he, rfl⟩
    by_cases hlt : e.1 < key
    · exact ⟨e, Or.inr ⟨he, hlt⟩, rfl⟩
    · exact ⟨e, Or.inl ⟨he, by omega⟩, rfl⟩

/-- Walking clockwise gives the first owners met, each once. -/
theorem Sound.clockwise_eq (h : index.Sound) (n : Nat) (key : Int) :
    index.clockwise n key = (index.around key).eraseDups.take n := by
  obtain ⟨t, ht⟩ := h
  rw [ht.clockwise_eq, around, ht.entries_eq, List.filter_map, List.filter_map, ← List.map_append,
    List.map_map]
  rfl

/-- From a key that is taken the walk begins with its host. -/
theorem Sound.clockwise_one (h : index.Sound) (hx : (key, host) ∈ index.entries) :
    index.clockwise 1 key = [host] := by
  obtain ⟨before, after, hsplit⟩ := List.append_of_mem hx
  have hbefore : before.filter (key ≤ ·.1) = [] := by
    have hord := h.pairwise_entries
    rw [hsplit, List.pairwise_append] at hord
    refine List.filter_eq_nil_iff.2 fun e he => ?_
    have hlt : e.1 < key := hord.2.2 e he (key, host) List.mem_cons_self
    simpa using hlt
  rw [h.clockwise_eq, around, hsplit, List.filter_append, hbefore, List.nil_append,
    List.filter_cons_of_pos (by simp), List.cons_append, List.map_cons, List.eraseDups_cons,
    List.take_succ_cons, List.take_zero]

end QuorumStore.Placement.Index
