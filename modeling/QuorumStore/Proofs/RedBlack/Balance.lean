import Mathlib.Algebra.Group.Nat.Defs
import QuorumStore.Proofs.RedBlack.Shape

/-!
# Balance

A tree is balanced when every way down meets the same number of black nodes and
no red node has a red child. What a path asks of the tree in its place is a colour
and a black height, so a step in the middle of a tree is checked there alone.
-/

namespace QuorumStore.Placement

/-- What a node adds to the black height. -/
def Colour.weight : Colour → Nat
  | red => 0
  | black => 1

@[simp] theorem Colour.weight_red : Colour.red.weight = 0 := rfl

@[simp] theorem Colour.weight_black : Colour.black.weight = 1 := rfl

namespace Tree

variable {side : Side} {c : Colour} {l r near far : Tree} {e : Entry} {m n : Nat}

/-- Every way down meets so many black nodes, and no red node has a red child. -/
def Balanced : Tree → Nat → Prop
  | leaf, m => m = 0
  | node c l _ r, m =>
    ∃ n, m = n + c.weight ∧ l.Balanced n ∧ r.Balanced n ∧
      (c = .red → l.colour = .black ∧ r.colour = .black)

theorem balanced_join :
    (join side c near e far).Balanced m ↔
      ∃ n, m = n + c.weight ∧ near.Balanced n ∧ far.Balanced n ∧
        (c = .red → near.colour = .black ∧ far.colour = .black) := by
  cases side
  · exact Iff.rfl
  · refine exists_congr fun n => and_congr_right fun _ => ?_
    constructor
    · rintro ⟨hr, hl, hc⟩
      exact ⟨hl, hr, fun h => (hc h).symm⟩
    · rintro ⟨hl, hr, hc⟩
      exact ⟨hr, hl, fun h => (hc h).symm⟩

theorem balanced_join_black :
    (join side .black near e far).Balanced (n + 1) ↔ near.Balanced n ∧ far.Balanced n := by
  rw [balanced_join]
  constructor
  · rintro ⟨m, hm, hnear, hfar, -⟩
    obtain rfl : m = n := by simpa using hm.symm
    exact ⟨hnear, hfar⟩
  · rintro ⟨hnear, hfar⟩
    exact ⟨n, rfl, hnear, hfar, fun h => by cases h⟩

theorem balanced_join_red :
    (join side .red near e far).Balanced n ↔
      near.Balanced n ∧ far.Balanced n ∧ near.colour = .black ∧ far.colour = .black := by
  rw [balanced_join]
  constructor
  · rintro ⟨m, rfl, hnear, hfar, hc⟩
    exact ⟨hnear, hfar, hc rfl⟩
  · rintro ⟨hnear, hfar, hc⟩
    exact ⟨n, rfl, hnear, hfar, fun _ => hc⟩

theorem balanced_node_red :
    (node .red l e r).Balanced n ↔
      l.Balanced n ∧ r.Balanced n ∧ l.colour = .black ∧ r.colour = .black := by
  have hjoin : (join .left .red l e r).Balanced n ↔ _ := balanced_join_red
  exact hjoin

/-- A red root may be made black; the black height grows by one. -/
theorem Balanced.blacken (h : l.Balanced n) (hred : l.colour = .red) :
    (l.paint .black).Balanced (n + 1) := by
  cases l with
  | leaf => cases hred
  | node c l e r =>
    obtain rfl : c = .red := hred
    obtain ⟨hl, hr, -⟩ := balanced_node_red.1 h
    have hjoin : (join .left .black l e r).Balanced (n + 1) := balanced_join_black.2 ⟨hl, hr⟩
    exact hjoin

/-- A tree that is balanced may have a black root. -/
theorem Balanced.exists_paint (h : l.Balanced n) : ∃ m, (l.paint .black).Balanced m := by
  cases hc : l.colour with
  | red => exact ⟨n + 1, h.blacken hc⟩
  | black =>
    refine ⟨n, ?_⟩
    cases l with
    | leaf => exact h
    | node c l e r =>
      obtain rfl : c = .black := hc
      exact h

@[simp] theorem colour_paint_black (t : Tree) : (t.paint .black).colour = .black := by
  cases t <;> rfl

/-- A tree has at least as many entries as its black height demands. -/
theorem Balanced.two_pow_le {t : Tree} (h : t.Balanced n) : 2 ^ n ≤ t.entries.length + 1 := by
  induction t generalizing n with
  | leaf =>
    obtain rfl : n = 0 := h
    exact Nat.le_refl _
  | node c l e r ihl ihr =>
    obtain ⟨m, rfl, hl, hr, -⟩ := h
    have hl := ihl hl
    have hr := ihr hr
    rw [entries, List.length_append, List.length_cons]
    cases c with
    | red =>
      rw [Colour.weight_red, Nat.add_zero]
      omega
    | black =>
      rw [Colour.weight_black, Nat.pow_succ]
      omega

/-- A tree with black nodes on its ways down is no leaf. -/
theorem Balanced.ne_leaf (h : l.Balanced (n + 1)) : l ≠ leaf := by
  rintro rfl
  cases h

end Tree

namespace Path

variable {f : Frame} {rest path : Path} {c : Colour} {t : Tree} {n : Nat}

/-- A path is balanced, and the root of the whole tree black, with a root of the
colour and a tree of the black height in the place. -/
def Fits : Path → Colour → Nat → Prop
  | [], c, _ => c = .black
  | f :: rest, c, n =>
    f.sibling.Balanced n ∧ (f.colour = .red → c = .black ∧ f.sibling.colour = .black) ∧
      Fits rest f.colour (n + f.colour.weight)

theorem fits_cons_black {side : Side} {e : Entry} {sibling : Tree} :
    Fits (⟨side, .black, e, sibling⟩ :: rest) c n ↔
      sibling.Balanced n ∧ Fits rest .black (n + 1) := by
  simp [Fits]

theorem fits_cons_red {side : Side} {e : Entry} {sibling : Tree} :
    Fits (⟨side, .red, e, sibling⟩ :: rest) c n ↔
      sibling.Balanced n ∧ (c = .black ∧ sibling.colour = .black) ∧ Fits rest .red n := by
  simp [Fits]

/-- A place that takes a red root takes a black one. -/
theorem Fits.black (h : path.Fits c n) : path.Fits .black n := by
  cases path with
  | nil => rfl
  | cons f rest => exact ⟨h.1, fun hf => ⟨rfl, (h.2.1 hf).2⟩, h.2.2⟩

/-- Above a red node of a path that fits there is a black one. -/
theorem Fits.exists_black_above (h : Fits (f :: rest) c n) (hf : f.colour = .red) :
    ∃ g rest', rest = g :: rest' ∧ g.sibling.Balanced n ∧ Fits rest' .black (n + 1) := by
  obtain ⟨-, -, hrest⟩ := h
  rw [hf, Colour.weight_red, Nat.add_zero] at hrest
  cases rest with
  | nil => cases hrest
  | cons g rest =>
    obtain ⟨hsibling, hred, hrest⟩ := hrest
    have hg : g.colour = .black := by
      cases hg : g.colour with
      | black => rfl
      | red => exact absurd (hred hg).1 (by simp)
    rw [hg] at hrest
    exact ⟨g, rest, rfl, hsibling, hrest⟩

/-- A whole tree is balanced with a black root when the path fits the place. -/
theorem fits_iff (path : Path) (t : Tree) :
    ((path.fill t).colour = .black ∧ ∃ m, (path.fill t).Balanced m) ↔
      ∃ n, t.Balanced n ∧ path.Fits t.colour n := by
  induction path generalizing t with
  | nil =>
    constructor
    · rintro ⟨hc, m, hm⟩
      exact ⟨m, hm, hc⟩
    · rintro ⟨n, hn, hc⟩
      exact ⟨hc, n, hn⟩
  | cons f rest ih =>
    rw [fill, ih]
    constructor
    · rintro ⟨m, hm, hrest⟩
      obtain ⟨n, rfl, ht, hsibling, hred⟩ := Tree.balanced_join.1 hm
      exact ⟨n, ht, hsibling, hred, by simpa using hrest⟩
    · rintro ⟨n, ht, hsibling, hred, hrest⟩
      exact ⟨_, Tree.balanced_join.2 ⟨n, rfl, ht, hsibling, hred⟩, by simpa using hrest⟩

/-- Which entry a frame holds does not matter. -/
theorem fits_entry (inner : Path) (f : Frame) (e : Entry) :
    Fits (inner ++ ⟨f.side, f.colour, e, f.sibling⟩ :: rest) c n ↔
      Fits (inner ++ f :: rest) c n := by
  induction inner generalizing c n with
  | nil => exact Iff.rfl
  | cons g inner ih => exact and_congr_right fun _ => and_congr_right fun _ => ih

/-- Beside a missing child there are no black nodes. -/
theorem fits_of_missing {path : Path} (side : Side) {e : Entry}
    (h : (path.fill (.join side c .leaf e t)).colour = .black ∧
      ∃ m, (path.fill (.join side c .leaf e t)).Balanced m) :
    t.Balanced 0 ∧ path.Fits c c.weight ∧ (c = .red → t.colour = .black) := by
  obtain ⟨n, hbal, hfits⟩ := (fits_iff _ _).1 h
  obtain ⟨m, rfl, hleaf, ht, hred⟩ := Tree.balanced_join.1 hbal
  obtain rfl : m = 0 := hleaf
  rw [Tree.colour_join, Nat.zero_add] at hfits
  exact ⟨ht, hfits, fun h => (hred h).2⟩

end Path

/-! ## The index as it is built -/

/-- What every insertion and every deletion keeps true of an index and of the tree
that it shows. -/
structure Index.Built (index : Index) (t : Tree) : Prop where
  /-- The slots show the tree. -/
  shows : index.Shows t
  /-- The keys increase from left to right. -/
  ordered : t.Ordered
  /-- The root is black. -/
  black : t.colour = .black
  /-- Every way down meets the same number of black nodes, and no red node has a
  red child. -/
  balanced : ∃ n, t.Balanced n
  /-- There is a first slot. -/
  pos : 0 < index.slots.size
  /-- The first slot is blank. -/
  blank : index.slot 0 = .blank
  /-- Every other slot holds an entry or is free, and none does twice. -/
  account : (t.entries.map Entry.slot ++ index.free).Perm (List.range' 1 (index.slots.size - 1))
  /-- The entries are counted. -/
  size_eq : index.size = t.entries.length

namespace Index.Built

variable {index : Index} {t : Tree}

theorem empty : Index.empty.Built .leaf where
  shows := ⟨rfl, trivial, List.nodup_nil, fun e he => by cases he⟩
  ordered := List.Pairwise.nil
  black := rfl
  balanced := ⟨0, rfl⟩
  pos := Nat.one_pos
  blank := rfl
  account := List.Perm.nil
  size_eq := rfl

/-- There are fewer entries than slots. -/
theorem length_lt (h : index.Built t) : t.entries.length < index.slots.size :=
  h.shows.tidy.length_lt h.pos

theorem slot_ne_zero (h : index.Built t) : ∀ e ∈ t.entries, e.slot ≠ 0 :=
  fun e he => (h.shows.tidy.inside e he).1

/-- A missing node is black. -/
theorem colour_zero (h : index.Built t) : index.colour 0 = .black := congrArg Slot.colour h.blank

end Index.Built

end QuorumStore.Placement
