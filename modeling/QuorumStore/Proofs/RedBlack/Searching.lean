import QuorumStore.Proofs.RedBlack.Balance
import QuorumStore.Proofs.RedBlack.Rewiring

/-!
# Searching in the slots

A search goes down the tree along the keys. Where it ends is a path and the tree
in the place at its end: a node with the key, or no node. A loop with as many
steps as there are entries below comes to its end.
-/

namespace QuorumStore.Placement

namespace Tree

/-- Where the search for a key ends, from a place in a tree downwards. -/
def locate (key : Int) : Tree → Path → Path × Tree
  | leaf, path => (path, leaf)
  | node c l e r, path =>
    if key < e.key then l.locate key (⟨.left, c, e, r⟩ :: path)
    else if e.key < key then r.locate key (⟨.right, c, e, l⟩ :: path)
    else (path, node c l e r)

/-- The search changes nothing. -/
theorem fill_locate (key : Int) (t : Tree) (path : Path) :
    (t.locate key path).1.fill (t.locate key path).2 = path.fill t := by
  induction t generalizing path with
  | leaf => rfl
  | node c l e r ihl ihr =>
    rw [locate]
    split_ifs
    · exact ihl _
    · exact ihr _
    · rfl

/-- A node that is found has the key. -/
theorem key_of_locate {key : Int} {t : Tree} {path : Path} {c : Colour} {l r : Tree} {e : Entry}
    (h : (t.locate key path).2 = node c l e r) : e.key = key := by
  induction t generalizing path with
  | leaf => cases h
  | node c' l' e' r' ihl ihr =>
    rw [locate] at h
    split_ifs at h with hlt hgt
    · exact ihl h
    · exact ihr h
    · cases h
      omega

/-- The search passes smaller keys on the left and greater ones on the right. -/
theorem locate_between {key : Int} {t : Tree} {path : Path} (hord : t.Ordered)
    (hbefore : ∀ e ∈ path.before, e.key < key) (hafter : ∀ e ∈ path.after, key < e.key) :
    (∀ e ∈ (t.locate key path).1.before, e.key < key) ∧
      ∀ e ∈ (t.locate key path).1.after, key < e.key := by
  induction t generalizing path with
  | leaf => exact ⟨hbefore, hafter⟩
  | node c l e r ihl ihr =>
    obtain ⟨hl, hr, hle, her⟩ := ordered_node.1 hord
    rw [locate]
    split_ifs with hlt hgt
    · refine ihl hl ?_ ?_
      · simpa [Path.before] using hbefore
      · intro x hx
        rcases List.mem_append.1 hx with hx | hx
        · rcases List.mem_cons.1 hx with rfl | hx
          · exact hlt
          · exact Int.lt_trans hlt (her x hx)
        · exact hafter x hx
    · refine ihr hr ?_ ?_
      · intro x hx
        rcases List.mem_append.1 hx with hx | hx
        · exact hbefore x hx
        · rcases List.mem_append.1 hx with hx | hx
          · exact Int.lt_trans (hle x hx) hgt
          · obtain rfl := List.mem_singleton.1 hx
            exact hgt
      · simpa [Path.after] using hafter
    · exact ⟨hbefore, hafter⟩

/-- The search for a key splits the tree where the key is, or should be. -/
theorem exists_place {t : Tree} (hord : t.Ordered) (key : Int) :
    ∃ path place, t.locate key [] = (path, place) ∧ Path.fill path place = t ∧
      (∀ e ∈ path.before, e.key < key) ∧ (∀ e ∈ path.after, key < e.key) := by
  have hnone : ∀ e ∈ Path.before [], e.key < key := fun e he => by cases he
  obtain ⟨hbefore, hafter⟩ := locate_between hord hnone fun e he => by cases he
  exact ⟨_, _, rfl, fill_locate key t [], hbefore, hafter⟩

/-- The search for the key of an entry ends at its node. -/
theorem locate_of_mem {t : Tree} (hord : t.Ordered) {e : Entry} (he : e ∈ t.entries) :
    ∃ path c l r, t.locate e.key [] = (path, node c l e r) ∧ Path.fill path (node c l e r) = t := by
  obtain ⟨path, place, hloc, hfill, hbefore, hafter⟩ := exists_place hord e.key
  cases place with
  | leaf =>
    rw [← hfill, path.entries_fill, entries, List.nil_append, List.mem_append] at he
    rcases he with he | he
    · exact absurd (hbefore e he) (Int.lt_irrefl _)
    · exact absurd (hafter e he) (Int.lt_irrefl _)
  | node c l x r =>
    have hx : x ∈ t.entries := by
      rw [← hfill, (path.entries_fill_perm _).mem_iff, entries]
      simp
    obtain rfl := hord.eq_of_key hx he (key_of_locate (congrArg Prod.snd hloc))
    exact ⟨path, c, l, r, hloc, hfill⟩

/-- The search for a key without an entry ends where its node should be. -/
theorem locate_of_free {t : Tree} (hord : t.Ordered) {key : Int}
    (hfree : ∀ e ∈ t.entries, e.key ≠ key) :
    ∃ path, t.locate key [] = (path, leaf) ∧ Path.fill path leaf = t ∧
      (∀ e ∈ path.before, e.key < key) ∧ (∀ e ∈ path.after, key < e.key) := by
  obtain ⟨path, place, hloc, hfill, hbetween⟩ := exists_place hord key
  cases place with
  | leaf => exact ⟨path, hloc, hfill, hbetween⟩
  | node c l x r =>
    refine absurd (key_of_locate (congrArg Prod.snd hloc)) (hfree x ?_)
    rw [← hfill, (path.entries_fill_perm _).mem_iff, entries]
    simp

/-- A node that is no leaf has a least entry, at the end of a way that keeps to the
left. -/
theorem exists_least (c : Colour) (l : Tree) (e : Entry) (r : Tree) :
    ∃ inner c' y r', Path.fill inner (node c' leaf y r') = node c l e r ∧ inner.before = [] := by
  induction l generalizing c e r with
  | leaf => exact ⟨[], c, e, r, rfl, rfl⟩
  | node cl ll el rl ih =>
    obtain ⟨inner, c', y, r', hfill, hbefore⟩ := ih cl el rl
    refine ⟨inner ++ [⟨.left, c, e, r⟩], c', y, r', ?_, ?_⟩
    · rw [Path.fill_append, hfill]
      rfl
    · rw [Path.before_append, hbefore]
      rfl

end Tree

/-- The slot of the first entry, or 0. -/
def firstSlot (entries : List Entry) : Nat := (entries.head?.map Entry.slot).getD 0

@[simp] theorem firstSlot_cons (e : Entry) (rest : List Entry) : firstSlot (e :: rest) = e.slot :=
  rfl

namespace Index

variable {index : Index} {t : Tree} {path : Path} {p bound : Nat}

/-- What the loops read at a node. -/
theorem Holds.read {c : Colour} {l : Tree} {e : Entry} {r : Tree}
    (h : index.Holds p (.node c l e r)) :
    (index.slot e.slot).key = e.key ∧ index.child e.slot .left = l.top ∧
      index.child e.slot .right = r.top := by
  rw [child, child, h.1]
  exact ⟨rfl, rfl, rfl⟩

/-- The search ends where the key is, or should be. -/
theorem Holds.seek_eq (h : index.Holds p t) (hpos : ∀ e ∈ t.entries, e.slot ≠ 0) (key : Int)
    (path : Path) (hbound : t.entries.length < bound) :
    index.seek key bound t.top = (t.locate key path).2.top := by
  induction t generalizing p path bound with
  | leaf => cases bound <;> rfl
  | node c l e r ihl ihr =>
    obtain ⟨bound, rfl⟩ : ∃ b, bound = b + 1 := ⟨bound - 1, by omega⟩
    obtain ⟨hkey, hleft, hright⟩ := h.read
    simp only [Tree.entries, List.length_append, List.length_cons] at hbound
    simp only [Tree.entries, List.mem_append, List.mem_cons] at hpos
    rw [Tree.top, seek, if_neg (hpos e (Or.inr (Or.inl rfl))), hkey, hleft, hright, Tree.locate]
    split_ifs
    · exact ihl h.2.1 (fun x hx => hpos x (Or.inl hx)) _ (by omega)
    · exact ihr h.2.2 (fun x hx => hpos x (Or.inr (Or.inr hx))) _ (by omega)
    · rfl

/-- The descent ends at the parent of the place where the key should be, unless
the key is taken. -/
theorem Holds.descend_eq (h : index.Holds path.above t) (hpos : ∀ e ∈ t.entries, e.slot ≠ 0)
    (key : Int) (hbound : t.entries.length < bound) :
    index.descend key bound path.above t.top
      = match (t.locate key path).2 with
        | .leaf => some (t.locate key path).1.above
        | .node .. => none := by
  induction t generalizing path bound with
  | leaf => cases bound <;> rfl
  | node c l e r ihl ihr =>
    obtain ⟨bound, rfl⟩ : ∃ b, bound = b + 1 := ⟨bound - 1, by omega⟩
    obtain ⟨hkey, hleft, hright⟩ := h.read
    simp only [Tree.entries, List.length_append, List.length_cons] at hbound
    simp only [Tree.entries, List.mem_append, List.mem_cons] at hpos
    rw [Tree.top, descend, if_neg (hpos e (Or.inr (Or.inl rfl))), hkey, hleft, hright, Tree.locate]
    split_ifs
    · have hl : index.Holds (Path.above (⟨.left, c, e, r⟩ :: path)) l := h.2.1
      exact ihl hl (fun x hx => hpos x (Or.inl hx)) (by omega)
    · have hr : index.Holds (Path.above (⟨.right, c, e, l⟩ :: path)) r := h.2.2
      exact ihr hr (fun x hx => hpos x (Or.inr (Or.inr hx))) (by omega)
    · rfl

/-- Keeping to the left leads to the first entry. -/
theorem Holds.leftmost_eq {c : Colour} {l r : Tree} {e : Entry} (h : index.Holds p (.node c l e r))
    (hpos : ∀ x ∈ l.entries, x.slot ≠ 0) (hbound : l.entries.length ≤ bound) :
    index.leftmost bound e.slot = firstSlot (Tree.node c l e r).entries := by
  induction l generalizing p c e r bound with
  | leaf =>
    obtain ⟨-, hleft, -⟩ := h.read
    cases bound with
    | zero => rfl
    | succ bound =>
      rw [Tree.top] at hleft
      rw [leftmost, hleft, if_pos rfl]
      rfl
  | node cl ll el rl ihl ihr =>
    obtain ⟨-, hleft, -⟩ := h.read
    simp only [Tree.entries, List.length_append, List.length_cons] at hbound
    obtain ⟨bound, rfl⟩ : ∃ b, bound = b + 1 := ⟨bound - 1, by omega⟩
    have hel : el.slot ≠ 0 := hpos el (by simp [Tree.entries])
    have hll : ll.entries.length ≤ bound := by omega
    rw [Tree.top] at hleft
    rw [leftmost, hleft, if_neg hel,
      ihl h.2.1 (fun x hx => hpos x (by simp [Tree.entries, hx])) hll]
    simp only [firstSlot, Tree.entries]
    cases ll.entries <;> rfl

/-- The least node below the root of a tree that is shown is that of the first
entry. -/
theorem Holds.minimum_eq (h : index.Holds p t) (hne : t ≠ .leaf)
    (htidy : Tidy index.slots.size t.entries) : index.minimum t.top = firstSlot t.entries := by
  cases t with
  | leaf => exact absurd rfl hne
  | node c l e r =>
    have hlt := htidy.length_lt
      (Nat.zero_lt_of_lt (htidy.inside e (by simp [Tree.entries])).2)
    simp only [Tree.entries, List.length_append, List.length_cons] at hlt
    exact h.leftmost_eq (fun x hx => (htidy.inside x (by simp [Tree.entries, hx])).1) (by omega)

/-- In the slot of an entry stand its key and its host. -/
theorem Built.read_of_mem (h : index.Built t) {e : Entry} (he : e ∈ t.entries) :
    (index.slot e.slot).key = e.key ∧ (index.slot e.slot).host = e.host := by
  obtain ⟨path, c, l, r, -, hfill⟩ := Tree.locate_of_mem h.ordered he
  have hshows : index.Shows (path.fill (.node c l e r)) := hfill.symm ▸ h.shows
  rw [(shows_fill_iff.1 hshows).2.1.1]
  exact ⟨rfl, rfl⟩

/-- The search from the root. -/
theorem Built.find_eq (h : index.Built t) (key : Int) :
    index.find key = (t.locate key []).2.top := by
  rw [find, h.shows.root]
  exact h.shows.holds.seek_eq h.slot_ne_zero key [] h.length_lt

/-- The host at a key is that of its entry. -/
theorem Built.host?_of_mem (h : index.Built t) {e : Entry} (he : e ∈ t.entries) :
    index.host? e.key = some e.host := by
  obtain ⟨path, c, l, r, hloc, -⟩ := Tree.locate_of_mem h.ordered he
  obtain ⟨k, hk⟩ : ∃ k, e.slot = k + 1 := ⟨_, (Nat.succ_pred (h.slot_ne_zero e he)).symm⟩
  have hfind := h.find_eq e.key
  have hhost := (h.read_of_mem he).2
  rw [hloc, Tree.top, hk] at hfind
  rw [hk] at hhost
  rw [host?, hfind]
  exact congrArg some hhost

/-- There is no host at a key without an entry. -/
theorem Built.host?_of_free (h : index.Built t) {key : Int}
    (hfree : ∀ e ∈ t.entries, e.key ≠ key) : index.host? key = none := by
  obtain ⟨path, hloc, -⟩ := Tree.locate_of_free h.ordered hfree
  have hfind := h.find_eq key
  rw [hloc, Tree.top] at hfind
  rw [host?, hfind]
  rfl

end Index

end QuorumStore.Placement
