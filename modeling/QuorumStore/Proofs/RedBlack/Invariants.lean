import Mathlib.Analysis.SpecialFunctions.Log.Base
import Mathlib.Data.Set.Card
import QuorumStore.Proofs.FiniteMap

/-!
# The invariants of the tree in its slots

Whatever calls build an index, its slots form a red-black tree. This is said of the
links between the slots alone: which slots are reached from the root, what the ways
down meet, and what stands in the first slot. So the check of a tree finds no flaw,
and no way down is longer than twice the logarithm of the number of entries.
-/

namespace QuorumStore.Placement.Index

variable {index : Index} {t : Tree} {path : Path} {p m n i j : Nat} {nodes : List Nat}

/-- Child links lead from a slot down to another one, or to a missing child, through
the nodes between; the first is among the nodes, the last is not. -/
inductive Way (index : Index) : Nat → List Nat → Nat → Prop
  /-- No link is followed. -/
  | here (i : Nat) : Way index i [] i
  /-- A link to a child is followed first. -/
  | down {i j : Nat} {nodes : List Nat} (side : Side) (hnode : i ≠ 0)
      (hrest : Way index (index.child i side) nodes j) : Way index i (i :: nodes) j

/-- A node that is reached from a slot. -/
def Below (index : Index) (i j : Nat) : Prop := j ≠ 0 ∧ ∃ nodes, index.Way i nodes j

/-- The number of black nodes among some. -/
def blacks (index : Index) (nodes : List Nat) : Nat := nodes.countP fun i => index.colour i = .black

/-- The slots form a red-black search tree. -/
structure RedBlack (index : Index) : Prop where
  /-- The root is black. -/
  root_black : index.colour index.root = .black
  /-- The root has no parent. -/
  root_parent : index.parent index.root = 0
  /-- No red node has a red child. -/
  red_child : ∀ i side, index.Below index.root i → index.colour i = .red →
    index.colour (index.child i side) = .black
  /-- Every way from the root to a missing child meets the same number of black nodes. -/
  black_height : ∀ nodes nodes', index.Way index.root nodes 0 → index.Way index.root nodes' 0 →
    index.blacks nodes = index.blacks nodes'
  /-- All keys on the left of a node are smaller, and all on its right are greater. -/
  order : ∀ i, index.Below index.root i →
    (∀ j, index.Below (index.child i .left) j → (index.slot j).key < (index.slot i).key) ∧
      ∀ j, index.Below (index.child i .right) j → (index.slot i).key < (index.slot j).key
  /-- A child has the node as its parent. -/
  parent_link : ∀ i side, index.Below index.root i → index.child i side ≠ 0 →
    index.parent (index.child i side) = i
  /-- The nodes stand in slots that exist. -/
  inside : ∀ i, index.Below index.root i → i < index.slots.size
  /-- The first slot is blank. -/
  sentinel : index.slots[0]? = some .blank
  /-- As many nodes are reached as there are entries. -/
  count : {i | index.Below index.root i}.encard = index.size

/-! ## Ways down a tree that is shown -/

/-- From a missing node no link leads anywhere. -/
theorem way_zero (h : index.Way 0 nodes j) : nodes = [] ∧ j = 0 := by
  cases h with
  | here => exact ⟨rfl, rfl⟩
  | down side hnode hrest => exact absurd rfl hnode

/-- A way from a node ends there or goes on to one of its sides. -/
theorem Holds.way_cases {c : Colour} {l : Tree} {e : Entry} {r : Tree}
    (h : index.Holds p (.node c l e r)) (hway : index.Way e.slot nodes j) :
    (nodes = [] ∧ j = e.slot) ∨
      ∃ rest, nodes = e.slot :: rest ∧ (index.Way l.top rest j ∨ index.Way r.top rest j) := by
  obtain ⟨-, hleft, hright⟩ := h.read
  cases hway with
  | here => exact Or.inl ⟨rfl, rfl⟩
  | down side hnode hrest =>
    cases side with
    | left => exact Or.inr ⟨_, rfl, Or.inl (hleft ▸ hrest)⟩
    | right => exact Or.inr ⟨_, rfl, Or.inr (hright ▸ hrest)⟩

/-- The nodes that are reached are those of the entries. -/
theorem Holds.below_iff (h : index.Holds p t) (hpos : ∀ e ∈ t.entries, e.slot ≠ 0) :
    index.Below t.top j ↔ ∃ e ∈ t.entries, e.slot = j := by
  induction t generalizing p with
  | leaf =>
    constructor
    · rintro ⟨hj, nodes, hway⟩
      exact absurd (way_zero hway).2 hj
    · rintro ⟨e, he, -⟩
      cases he
  | node c l e r ihl ihr =>
    obtain ⟨-, hleft, hright⟩ := h.read
    simp only [Tree.entries, List.mem_append, List.mem_cons] at hpos ⊢
    have hl := ihl h.2.1 fun x hx => hpos x (Or.inl hx)
    have hr := ihr h.2.2 fun x hx => hpos x (Or.inr (Or.inr hx))
    have he := hpos e (Or.inr (Or.inl rfl))
    constructor
    · rintro ⟨hj, nodes, hway⟩
      rcases h.way_cases hway with ⟨-, rfl⟩ | ⟨rest, -, hrest | hrest⟩
      · exact ⟨e, Or.inr (Or.inl rfl), rfl⟩
      · obtain ⟨x, hx, hslot⟩ := hl.1 ⟨hj, rest, hrest⟩
        exact ⟨x, Or.inl hx, hslot⟩
      · obtain ⟨x, hx, hslot⟩ := hr.1 ⟨hj, rest, hrest⟩
        exact ⟨x, Or.inr (Or.inr hx), hslot⟩
    · rintro ⟨x, hx | rfl | hx, rfl⟩
      · obtain ⟨hj, nodes, hway⟩ := hl.2 ⟨x, hx, rfl⟩
        exact ⟨hj, _, .down .left he (hleft.symm ▸ hway)⟩
      · exact ⟨he, [], .here _⟩
      · obtain ⟨hj, nodes, hway⟩ := hr.2 ⟨x, hx, rfl⟩
        exact ⟨hj, _, .down .right he (hright.symm ▸ hway)⟩

/-- Every way to a missing child meets the black nodes of the black height. -/
theorem Holds.blacks_eq (h : index.Holds p t) (hbal : t.Balanced n)
    (hpos : ∀ e ∈ t.entries, e.slot ≠ 0) (hway : index.Way t.top nodes 0) :
    index.blacks nodes = n := by
  induction t generalizing p n nodes with
  | leaf =>
    rw [(way_zero hway).1]
    exact hbal.symm
  | node c l e r ihl ihr =>
    obtain ⟨m, rfl, hl, hr, -⟩ := hbal
    have hcolour : index.colour e.slot = c := congrArg Slot.colour h.1
    simp only [Tree.entries, List.mem_append, List.mem_cons] at hpos
    rcases h.way_cases hway with ⟨-, hzero⟩ | ⟨rest, rfl, hrest⟩
    · exact absurd hzero.symm (hpos e (Or.inr (Or.inl rfl)))
    · have hm : index.blacks rest = m := by
        rcases hrest with hrest | hrest
        · exact ihl h.2.1 hl (fun x hx => hpos x (Or.inl hx)) hrest
        · exact ihr h.2.2 hr (fun x hx => hpos x (Or.inr (Or.inr hx))) hrest
      rw [blacks, List.countP_cons, ← blacks, hm, hcolour]
      cases c <;> rfl

/-- A way down has at most two nodes for each black one, and one more below a red
root. -/
theorem Holds.length_way_le (h : index.Holds p t) (hbal : t.Balanced n)
    (hway : index.Way t.top nodes j) : nodes.length + t.colour.weight ≤ 2 * n + 1 := by
  induction t generalizing p n nodes with
  | leaf =>
    rw [(way_zero hway).1]
    exact Nat.le_add_left 1 _
  | node c l e r ihl ihr =>
    obtain ⟨m, rfl, hl, hr, hred⟩ := hbal
    rcases h.way_cases hway with ⟨rfl, -⟩ | ⟨rest, rfl, hrest⟩
    · cases c <;> simp [Tree.colour]
    · have hrest : ∃ u : Tree, (c = .red → u.colour = .black) ∧
          rest.length + u.colour.weight ≤ 2 * m + 1 := by
        rcases hrest with hrest | hrest
        · exact ⟨l, fun hc => (hred hc).1, ihl h.2.1 hl hrest⟩
        · exact ⟨r, fun hc => (hred hc).2, ihr h.2.2 hr hrest⟩
      obtain ⟨u, hu, hlen⟩ := hrest
      cases c with
      | red =>
        rw [hu rfl] at hlen
        simp only [List.length_cons, Tree.colour, Colour.weight] at hlen ⊢
        omega
      | black =>
        simp only [List.length_cons, Tree.colour, Colour.weight]
        omega

/-! ## The invariants -/

namespace Built

/-- A slot that is reached is that of an entry. -/
theorem reaches_iff (h : index.Built t) :
    index.Below index.root i ↔ ∃ e ∈ t.entries, e.slot = i := by
  rw [h.shows.root, h.shows.holds.below_iff h.slot_ne_zero]

/-- A slot that is reached holds a node of the tree, in its place. -/
theorem exists_node (h : index.Built t) (hbelow : index.Below index.root i) :
    ∃ path c l e r, Path.fill path (.node c l e r) = t ∧
      index.Holds path.above (.node c l e r) ∧ e.slot = i := by
  obtain ⟨e, he, hslot⟩ := h.reaches_iff.1 hbelow
  obtain ⟨path, c, l, r, -, hfill⟩ := Tree.locate_of_mem h.ordered he
  have hshows : index.Shows (path.fill (.node c l e r)) := hfill.symm ▸ h.shows
  exact ⟨path, c, l, e, r, hfill, (shows_fill_iff.1 hshows).2.1, hslot⟩

theorem colour_root (h : index.Built t) : index.colour index.root = .black := by
  rw [h.shows.root, h.shows.holds.colour_top h.colour_zero, h.black]

theorem parent_root (h : index.Built t) : index.parent index.root = 0 := by
  rw [h.shows.root]
  by_cases hleaf : t = .leaf
  · rw [hleaf, Tree.top, parent, h.blank]
    rfl
  · exact h.shows.holds.parent_top hleaf

/-- A red node has black children. -/
theorem colour_child_of_red (h : index.Built t) (hbelow : index.Below index.root i)
    (hred : index.colour i = .red) (side : Side) : index.colour (index.child i side) = .black := by
  obtain ⟨path, c, l, e, r, hfill, hholds, rfl⟩ := h.exists_node hbelow
  obtain ⟨-, hleft, hright⟩ := hholds.read
  obtain rfl : c = .red := (congrArg Slot.colour hholds.1).symm.trans hred
  obtain ⟨n, hbal, -⟩ := (Path.fits_iff path (.node .red l e r)).1
    (hfill.symm ▸ ⟨h.black, h.balanced⟩)
  obtain ⟨-, -, hl, hr⟩ := Tree.balanced_node_red.1 hbal
  cases side with
  | left => rw [hleft, hholds.2.1.colour_top h.colour_zero, hl]
  | right => rw [hright, hholds.2.2.colour_top h.colour_zero, hr]

/-- The keys on the left of a node are smaller, and those on its right are greater. -/
theorem key_order (h : index.Built t) (hbelow : index.Below index.root i) :
    (∀ j, index.Below (index.child i .left) j → (index.slot j).key < (index.slot i).key) ∧
      ∀ j, index.Below (index.child i .right) j → (index.slot i).key < (index.slot j).key := by
  obtain ⟨path, c, l, e, r, hfill, hholds, rfl⟩ := h.exists_node hbelow
  obtain ⟨hkey, hleft, hright⟩ := hholds.read
  have hentries : t.entries = (path.before ++ l.entries) ++ e :: (r.entries ++ path.after) := by
    rw [← hfill, path.entries_fill]
    simp [Tree.entries]
  have hord : t.Ordered := h.ordered
  rw [Tree.Ordered, hentries, List.pairwise_append, List.pairwise_cons] at hord
  have hsides {u : Tree} {j : Nat} (hu : index.Holds e.slot u)
      (hsub : ∀ x ∈ u.entries, x ∈ t.entries) (hj : index.Below u.top j) :
      ∃ x ∈ u.entries, (index.slot j).key = x.key := by
    obtain ⟨x, hx, rfl⟩ := (hu.below_iff fun x hx => h.slot_ne_zero x (hsub x hx)).1 hj
    exact ⟨x, hx, (h.read_of_mem (hsub x hx)).1⟩
  rw [hkey, hleft, hright]
  constructor
  · intro j hj
    obtain ⟨x, hx, hxkey⟩ := hsides hholds.2.1 (fun x hx => by simp [hentries, hx]) hj
    rw [hxkey]
    exact hord.2.2 x (List.mem_append_right _ hx) e List.mem_cons_self
  · intro j hj
    obtain ⟨x, hx, hxkey⟩ := hsides hholds.2.2 (fun x hx => by simp [hentries, hx]) hj
    rw [hxkey]
    exact hord.2.1.1 x (List.mem_append_left _ hx)

/-- The child of a node has it as its parent. -/
theorem parent_child (h : index.Built t) (hbelow : index.Below index.root i) {side : Side}
    (hchild : index.child i side ≠ 0) : index.parent (index.child i side) = i := by
  obtain ⟨path, c, l, e, r, -, hholds, rfl⟩ := h.exists_node hbelow
  obtain ⟨-, hleft, hright⟩ := hholds.read
  cases side with
  | left =>
    rw [hleft] at hchild ⊢
    exact hholds.2.1.parent_top (by rintro rfl; exact hchild rfl)
  | right =>
    rw [hright] at hchild ⊢
    exact hholds.2.2.parent_top (by rintro rfl; exact hchild rfl)

/-- As many nodes are reached as there are entries. -/
theorem encard_below (h : index.Built t) :
    {i | index.Below index.root i}.encard = index.size := by
  have hset : {i | index.Below index.root i} = ↑(t.entries.map Entry.slot).toFinset := by
    ext i
    change index.Below index.root i ↔ _
    rw [h.reaches_iff]
    simp
  rw [hset, Set.encard_coe_eq_coe_finsetCard, List.toFinset_card_of_nodup h.shows.tidy.distinct,
    List.length_map, h.size_eq]

theorem redBlack (h : index.Built t) : index.RedBlack where
  root_black := h.colour_root
  root_parent := h.parent_root
  red_child _ side hbelow hred := h.colour_child_of_red hbelow hred side
  black_height nodes nodes' hway hway' := by
    obtain ⟨n, hbal⟩ := h.balanced
    rw [h.shows.root] at hway hway'
    rw [h.shows.holds.blacks_eq hbal h.slot_ne_zero hway,
      h.shows.holds.blacks_eq hbal h.slot_ne_zero hway']
  order _ hbelow := h.key_order hbelow
  parent_link _ _ hbelow hchild := h.parent_child hbelow hchild
  inside i hbelow := by
    obtain ⟨e, he, rfl⟩ := h.reaches_iff.1 hbelow
    exact (h.shows.tidy.inside e he).2
  sentinel := by
    have hblank := h.blank
    rw [slot, Array.getD_eq_getD_getElem?, Array.getElem?_eq_getElem h.pos] at hblank
    rw [Array.getElem?_eq_getElem h.pos]
    exact congrArg some hblank
  count := h.encard_below

end Built

/-! ## The check -/

/-- The link to a child that is shown is in order. -/
theorem Holds.checkLink_eq (h : index.Holds i t) (hzero : index.colour 0 = .black)
    (hred : index.colour i = .red → t.colour = .black) : index.checkLink i t.top = .ok () := by
  unfold checkLink
  split_ifs with hleaf hparent hcolour
  · rfl
  · exact absurd (h.parent_top (by rintro rfl; exact hleaf rfl)) hparent
  · have hblack := hred hcolour.1
    rw [← h.colour_top hzero, hcolour.2] at hblack
    cases hblack
  · rfl

/-- The check of a tree that is shown, ordered and balanced gives its black height, the
missing children included, and the number of its entries. -/
theorem Holds.checkBelow_eq (h : index.Holds p t) (hzero : index.colour 0 = .black)
    (hbal : t.Balanced n) (hord : t.Ordered) (hpos : ∀ e ∈ t.entries, e.slot ≠ 0)
    {low high : Option Int} (hlow : ∀ e ∈ t.entries, ∀ k ∈ low, k < e.key)
    (hhigh : ∀ e ∈ t.entries, ∀ k ∈ high, e.key < k) {bound : Nat}
    (hbound : t.entries.length < bound) :
    index.checkBelow bound t.top low high = .ok (n + 1, t.entries.length) := by
  induction t generalizing p n low high bound with
  | leaf =>
    obtain ⟨bound, rfl⟩ : ∃ b, bound = b + 1 := ⟨bound - 1, by omega⟩
    obtain rfl : n = 0 := hbal
    rfl
  | node c l e r ihl ihr =>
    obtain ⟨bound, rfl⟩ : ∃ b, bound = b + 1 := ⟨bound - 1, by omega⟩
    obtain ⟨m, rfl, hl, hr, hred⟩ := hbal
    obtain ⟨hkey, hleft, hright⟩ := h.read
    have hcolour : index.colour e.slot = c := congrArg Slot.colour h.1
    obtain ⟨hlo, hro, hle, her⟩ := Tree.ordered_node.1 hord
    simp only [Tree.entries, List.mem_append, List.mem_cons] at hpos hlow hhigh
    have hlowKey : low.any (e.key ≤ ·) = false := by
      cases low with
      | none => rfl
      | some k => exact decide_eq_false (Int.not_le.2 (hlow e (Or.inr (Or.inl rfl)) k rfl))
    have hhighKey : high.any (· ≤ e.key) = false := by
      cases high with
      | none => rfl
      | some k => exact decide_eq_false (Int.not_le.2 (hhigh e (Or.inr (Or.inl rfl)) k rfl))
    have hlen : (Tree.node c l e r).entries.length = l.entries.length + r.entries.length + 1 := by
      simp only [Tree.entries, List.length_append, List.length_cons, Nat.add_assoc]
    rw [hlen] at hbound ⊢
    have hleftLink := h.2.1.checkLink_eq hzero fun hc => (hred (hcolour.symm.trans hc)).1
    have hrightLink := h.2.2.checkLink_eq hzero fun hc => (hred (hcolour.symm.trans hc)).2
    have hbelow : ∀ x ∈ l.entries, ∀ k ∈ some e.key, x.key < k := fun x hx k hk =>
      Option.some.inj hk ▸ hle x hx
    have habove : ∀ x ∈ r.entries, ∀ k ∈ some e.key, k < x.key := fun x hx k hk =>
      Option.some.inj hk ▸ her x hx
    have hroomLeft : l.entries.length < bound := by omega
    have hroomRight : r.entries.length < bound := by omega
    have hleftBelow := ihl h.2.1 hl hlo (fun x hx => hpos x (Or.inl hx))
      (fun x hx => hlow x (Or.inl hx)) hbelow hroomLeft
    have hrightBelow := ihr h.2.2 hr hro (fun x hx => hpos x (Or.inr (Or.inr hx))) habove
      (fun x hx => hhigh x (Or.inr (Or.inr hx))) hroomRight
    rw [Tree.top, checkBelow, if_neg (hpos e (Or.inr (Or.inl rfl)))]
    simp only [hkey, hleft, hright, hcolour, hlowKey, hhighKey, hleftLink, hrightLink, hleftBelow,
      hrightBelow, Bool.or_self, Bool.false_eq_true, if_false, bind, Except.bind, ne_eq,
      not_true_eq_false]
    cases c <;> rfl

/-- The check of an index that calls built finds no flaw. -/
theorem Built.check_eq (h : index.Built t) : ∃ height, index.check = .ok height := by
  obtain ⟨n, hbal⟩ := h.balanced
  have hnone : ∀ e ∈ t.entries, ∀ k ∈ (none : Option Int), k < e.key := fun _ _ k hk => by cases hk
  have hnone' : ∀ e ∈ t.entries, ∀ k ∈ (none : Option Int), e.key < k := fun _ _ k hk => by cases hk
  have hbelow := h.shows.holds.checkBelow_eq h.colour_zero hbal h.ordered h.slot_ne_zero hnone
    hnone' (Nat.lt_succ_of_lt h.length_lt)
  rw [← h.shows.root, ← h.size_eq] at hbelow
  unfold check
  rw [if_neg (by simp [h.colour_zero])]
  split_ifs with hroot hsize hcolour hparent
  · exact ⟨0, rfl⟩
  · have hleaf : t = .leaf := by
      by_contra hne
      exact h.shows.tidy.top_ne_zero hne (h.shows.root.symm.trans hroot)
    rw [h.size_eq, hleaf] at hsize
    exact absurd rfl hsize
  · exact absurd h.colour_root hcolour
  · exact absurd h.parent_root hparent
  · refine ⟨n + 1, ?_⟩
    rw [hbelow]
    exact if_neg (by simp)

/-! ## Whole runs -/

/-- After any calls the slots form a red-black tree, its check finds no flaw, and no way
down from the root has more nodes than twice the logarithm of the number of entries
and one. -/
theorem redBlack_built (calls : List Call) :
    (built calls).RedBlack ∧ (∃ height, (built calls).check = .ok height) ∧
      ∀ nodes i, (built calls).Way (built calls).root nodes i →
        (nodes.length : ℝ) ≤ 2 * Real.logb 2 ((built calls).size + 1) := by
  obtain ⟨t, h⟩ := sound_built calls
  refine ⟨h.redBlack, h.check_eq, fun nodes i hway => ?_⟩
  obtain ⟨n, hbal⟩ := h.balanced
  rw [h.shows.root] at hway
  have hlen := h.shows.holds.length_way_le hbal hway
  rw [h.black, Colour.weight_black] at hlen
  have hsize := hbal.two_pow_le
  rw [← h.size_eq] at hsize
  have hlog : (n : ℝ) ≤ Real.logb 2 ((built calls).size + 1) := by
    rw [Real.le_logb_iff_rpow_le (by norm_num) (by positivity), Real.rpow_natCast]
    exact_mod_cast hsize
  have hnodes : (nodes.length : ℝ) ≤ 2 * n := by exact_mod_cast (by omega : nodes.length ≤ 2 * n)
  linarith

end QuorumStore.Placement.Index
