import Mathlib.Data.List.Nodup
import Mathlib.Data.List.Perm.Subperm
import Mathlib.Tactic.SplitIfs
import QuorumStore.Placement.Index

/-!
# The tree in the slots

What the slots of an index show, read as a tree: every node stands in the slot of
its entry, with the slots of its children and of its parent. The way from a node
up to the root is a path of frames, each with the side on which the way leads
down and the sibling on the other side, so that a step of the algorithms is a
change in the middle of a tree with everything around it held fixed.
-/

namespace QuorumStore.Placement

@[simp] theorem Side.other_other (side : Side) : side.other.other = side := by cases side <;> rfl

/-! ## Trees -/

/-- A host at a ring position, and the slot that holds it. -/
structure Entry where
  /-- The slot. -/
  slot : Nat
  /-- The ring position. -/
  key : Int
  /-- The host that owns the position. -/
  host : Host
  deriving DecidableEq, Repr

/-- What stands in the slot of an entry: its colour, its child on a side and its
child on the other side, and its parent. -/
def Entry.cell (e : Entry) (side : Side) (colour : Colour) (near far parent : Nat) : Slot :=
  match side with
  | .left => ⟨e.key, e.host, colour, near, far, parent⟩
  | .right => ⟨e.key, e.host, colour, far, near, parent⟩

section Cell

variable (e : Entry) (side : Side) (colour : Colour) (near far parent : Nat)

@[simp] theorem Entry.key_cell : (e.cell side colour near far parent).key = e.key := by
  cases side <;> rfl

@[simp] theorem Entry.colour_cell : (e.cell side colour near far parent).colour = colour := by
  cases side <;> rfl

@[simp] theorem Entry.parent_cell : (e.cell side colour near far parent).parent = parent := by
  cases side <;> rfl

@[simp] theorem Entry.child_cell : (e.cell side colour near far parent).child side = near := by
  cases side <;> rfl

@[simp] theorem Entry.child_other_cell :
    (e.cell side colour near far parent).child side.other = far := by
  cases side <;> rfl

@[simp] theorem Entry.withColour_cell (new : Colour) :
    (e.cell side colour near far parent).withColour new = e.cell side new near far parent := by
  cases side <;> rfl

@[simp] theorem Entry.withParent_cell (new : Nat) :
    (e.cell side colour near far parent).withParent new = e.cell side colour near far new := by
  cases side <;> rfl

@[simp] theorem Entry.withChild_cell (new : Nat) :
    (e.cell side colour near far parent).withChild side new
      = e.cell side colour new far parent := by
  cases side <;> rfl

@[simp] theorem Entry.withChild_other_cell (new : Nat) :
    (e.cell side colour near far parent).withChild side.other new
      = e.cell side colour near new parent := by
  cases side <;> rfl

end Cell

/-- A search tree of coloured entries. -/
inductive Tree where
  /-- No entry. -/
  | leaf
  /-- An entry between smaller keys and greater ones. -/
  | node (colour : Colour) (left : Tree) (entry : Entry) (right : Tree)

namespace Tree

/-- The entries in key order. -/
def entries : Tree → List Entry
  | leaf => []
  | node _ l e r => l.entries ++ e :: r.entries

/-- The slot of the root, or 0. -/
def top : Tree → Nat
  | leaf => 0
  | node _ _ e _ => e.slot

/-- The colour of the root; a leaf is black. -/
def colour : Tree → Colour
  | leaf => .black
  | node c _ _ _ => c

/-- The same tree with a root of the given colour. -/
def paint (colour : Colour) : Tree → Tree
  | leaf => leaf
  | node _ l e r => node colour l e r

/-- A node with one child on a side and one on the other. -/
def join (side : Side) (colour : Colour) (near : Tree) (e : Entry) (far : Tree) : Tree :=
  match side with
  | .left => node colour near e far
  | .right => node colour far e near

section Join

variable (side : Side) (c : Colour) (near : Tree) (e : Entry) (far : Tree)

@[simp] theorem top_join : (join side c near e far).top = e.slot := by cases side <;> rfl

@[simp] theorem colour_join : (join side c near e far).colour = c := by cases side <;> rfl

@[simp] theorem paint_join (new : Colour) :
    (join side c near e far).paint new = join side new near e far := by cases side <;> rfl

theorem join_other : join side.other c near e far = join side c far e near := by
  cases side <;> rfl

theorem entries_join_perm :
    (join side c near e far).entries.Perm (e :: (near.entries ++ far.entries)) := by
  cases side
  · exact List.perm_middle
  · exact List.perm_middle.trans (List.perm_append_comm.cons e)

end Join

@[simp] theorem entries_paint (colour : Colour) (t : Tree) :
    (t.paint colour).entries = t.entries := by cases t <;> rfl

/-- The keys increase from left to right. -/
def Ordered (t : Tree) : Prop := t.entries.Pairwise (·.key < ·.key)

/-- A node is in order when its sides are, and its key lies between theirs. -/
theorem ordered_node {c : Colour} {l : Tree} {e : Entry} {r : Tree} :
    (node c l e r).Ordered ↔
      l.Ordered ∧ r.Ordered ∧ (∀ x ∈ l.entries, x.key < e.key) ∧
        ∀ y ∈ r.entries, e.key < y.key := by
  simp only [Ordered, entries, List.pairwise_append, List.pairwise_cons, List.mem_cons]
  constructor
  · rintro ⟨hl, ⟨her, hr⟩, hcross⟩
    exact ⟨hl, hr, fun x hx => hcross x hx e (Or.inl rfl), her⟩
  · rintro ⟨hl, hr, hle, her⟩
    refine ⟨hl, ⟨her, hr⟩, ?_⟩
    rintro x hx y (rfl | hy)
    · exact hle x hx
    · have hxe := hle x hx
      have hey := her y hy
      omega

/-- In an ordered tree a key has one entry. -/
theorem Ordered.eq_of_key {t : Tree} (h : t.Ordered) {x y : Entry} (hx : x ∈ t.entries)
    (hy : y ∈ t.entries) (hkey : x.key = y.key) : x = y := by
  have hnodup : (t.entries.map Entry.key).Nodup :=
    List.pairwise_map.2 (h.imp fun hlt => Int.ne_of_lt hlt)
  exact List.inj_on_of_nodup_map hnodup hx hy hkey

/-- A tree that is no leaf is a node on any side. -/
theorem exists_join {t : Tree} (h : t ≠ leaf) (side : Side) :
    ∃ c near e far, t = join side c near e far := by
  cases t with
  | leaf => exact absurd rfl h
  | node c l e r =>
    cases side
    · exact ⟨c, l, e, r, rfl⟩
    · exact ⟨c, r, e, l, rfl⟩

/-- A leaf is black. -/
theorem ne_leaf_of_red {t : Tree} (h : t.colour = .red) : t ≠ leaf := by
  rintro rfl
  cases h

/-- Turning a node changes no entry's place in the order. -/
theorem entries_turn (side : Side) (c c' d d' : Colour) (near : Tree) (e : Entry) (inner : Tree)
    (e' : Entry) (far : Tree) :
    (join side d' (join side d near e inner) e' far).entries
      = (join side c near e (join side c' inner e' far)).entries := by
  cases side <;> simp [join, entries]

/-- The slot of the root is that of an entry, unless there is none. -/
theorem exists_top {t : Tree} (h : t.top ≠ 0) : ∃ e ∈ t.entries, e.slot = t.top := by
  cases t with
  | leaf => exact absurd rfl h
  | node c l e r => exact ⟨e, List.mem_append_right _ List.mem_cons_self, rfl⟩

/-- A slot that no entry has is not that of the root. -/
theorem ne_top {i : Nat} (h : i ≠ 0) {t : Tree} (hne : ∀ e ∈ t.entries, e.slot ≠ i) :
    i ≠ t.top := by
  intro heq
  obtain ⟨e, he, hslot⟩ := exists_top (heq ▸ h)
  exact hne e he (hslot.trans heq.symm)

end Tree

/-! ## Paths -/

/-- A node with one of its subtrees left out. -/
structure Frame where
  /-- The side of the subtree that is left out. -/
  side : Side
  /-- The colour of the node. -/
  colour : Colour
  /-- The entry of the node. -/
  entry : Entry
  /-- The subtree on the other side. -/
  sibling : Tree

/-- The way from a place in a tree up to the root, the nearest node first. -/
abbrev Path := List Frame

namespace Path

/-- The whole tree, with a tree put in the place. -/
def fill : Path → Tree → Tree
  | [], t => t
  | f :: rest, t => fill rest (.join f.side f.colour t f.entry f.sibling)

/-- The slot of the parent of the place, or 0. -/
def above : Path → Nat
  | [] => 0
  | f :: _ => f.entry.slot

/-- The entries before the place. -/
def before : Path → List Entry
  | [] => []
  | f :: rest =>
    before rest ++
      match f.side with
      | .left => []
      | .right => f.sibling.entries ++ [f.entry]

/-- The entries after the place. -/
def after : Path → List Entry
  | [] => []
  | f :: rest =>
    (match f.side with
      | .left => f.entry :: f.sibling.entries
      | .right => []) ++ after rest

/-- The entries around the place. -/
def outside : Path → List Entry
  | [] => []
  | f :: rest => f.entry :: (f.sibling.entries ++ outside rest)

/-- Seen from the sibling, the place is on the other side. -/
theorem fill_swap (f : Frame) (rest : Path) (t : Tree) :
    fill (f :: rest) t = fill (⟨f.side.other, f.colour, f.entry, t⟩ :: rest) f.sibling := by
  rw [fill, fill, Tree.join_other]

/-- The entries of the whole tree stand around those of the place. -/
theorem entries_fill (path : Path) (t : Tree) :
    (path.fill t).entries = path.before ++ (t.entries ++ path.after) := by
  induction path generalizing t with
  | nil => simp [fill, before, after]
  | cons f rest ih =>
    rw [fill, ih]
    cases hside : f.side <;> simp [before, after, hside, Tree.join, Tree.entries]

theorem entries_fill_perm (path : Path) (t : Tree) :
    (path.fill t).entries.Perm (t.entries ++ path.outside) := by
  induction path generalizing t with
  | nil => simp [fill, outside]
  | cons f rest ih =>
    have hjoin := (Tree.entries_join_perm f.side f.colour t f.entry f.sibling).append_right
      (outside rest)
    refine (ih _).trans (hjoin.trans ?_)
    rw [outside, List.cons_append, List.append_assoc]
    exact List.perm_middle.symm

/-- The entries of the whole tree depend only on those of the place. -/
theorem entries_fill_congr (path : Path) {t t' : Tree} (h : t.entries = t'.entries) :
    (path.fill t).entries = (path.fill t').entries := by
  rw [entries_fill, entries_fill, h]

theorem fill_append (inner path : Path) (t : Tree) :
    fill (inner ++ path) t = path.fill (inner.fill t) := by
  induction inner generalizing t with
  | nil => rfl
  | cons f rest ih => exact ih _

theorem before_append (inner path : Path) :
    before (inner ++ path) = before path ++ before inner := by
  induction inner with
  | nil => simp [before]
  | cons f rest ih => simp [before, ih]

theorem outside_append (inner path : Path) :
    outside (inner ++ path) = outside inner ++ outside path := by
  induction inner with
  | nil => rfl
  | cons f rest ih => simp [outside, ih]

/-- Above a place there is a node, so the whole tree is no leaf. -/
theorem fill_cons_ne_leaf (f : Frame) (rest : Path) (t : Tree) : fill (f :: rest) t ≠ .leaf := by
  induction rest generalizing f t with
  | nil => cases hside : f.side <;> simp [fill, Tree.join, hside]
  | cons g rest ih => exact ih g _

theorem length_le_length_outside (path : Path) : path.length ≤ path.outside.length := by
  induction path with
  | nil => exact Nat.le_refl 0
  | cons f rest ih =>
    simp only [outside, List.length_cons, List.length_append]
    omega

end Path

/-! ## Slots that show a tree -/

/-- Entries in different slots, all of them slots of nodes below a bound. -/
structure Tidy (bound : Nat) (entries : List Entry) : Prop where
  /-- No two entries share a slot. -/
  distinct : (entries.map Entry.slot).Nodup
  /-- The slots are not the first one, and they exist. -/
  inside : ∀ e ∈ entries, e.slot ≠ 0 ∧ e.slot < bound

namespace Tidy

variable {bound : Nat} {e : Entry} {xs ys : List Entry}

theorem perm (h : Tidy bound xs) (hperm : xs.Perm ys) : Tidy bound ys where
  distinct := (hperm.map Entry.slot).nodup_iff.1 h.distinct
  inside e he := h.inside e (hperm.mem_iff.2 he)

theorem sublist (h : Tidy bound ys) (hsub : xs.Sublist ys) : Tidy bound xs where
  distinct := h.distinct.sublist (hsub.map Entry.slot)
  inside e he := h.inside e (hsub.subset he)

theorem cons_iff :
    Tidy bound (e :: xs) ↔
      e.slot ≠ 0 ∧ e.slot < bound ∧ (∀ x ∈ xs, x.slot ≠ e.slot) ∧ Tidy bound xs := by
  constructor
  · intro h
    obtain ⟨hfresh, hrest⟩ := List.nodup_cons.1 h.distinct
    have hin := h.inside e List.mem_cons_self
    refine ⟨hin.1, hin.2, fun x hx heq => hfresh ?_, hrest,
      fun x hx => h.inside x (List.mem_cons_of_mem e hx)⟩
    exact heq ▸ List.mem_map_of_mem hx
  · rintro ⟨hzero, hbound, hne, h⟩
    constructor
    · refine List.nodup_cons.2 ⟨fun hm => ?_, h.distinct⟩
      obtain ⟨x, hx, heq⟩ := List.mem_map.1 hm
      exact hne x hx heq
    · intro x hx
      rcases List.mem_cons.1 hx with rfl | hx
      · exact ⟨hzero, hbound⟩
      · exact h.inside x hx

theorem append_iff :
    Tidy bound (xs ++ ys) ↔
      Tidy bound xs ∧ Tidy bound ys ∧ ∀ x ∈ xs, ∀ y ∈ ys, x.slot ≠ y.slot := by
  induction xs with
  | nil => simp [show Tidy bound [] from ⟨List.nodup_nil, fun _ h => by cases h⟩]
  | cons x xs ih =>
    rw [List.cons_append, cons_iff, ih, cons_iff]
    simp only [List.mem_append, List.mem_cons, or_imp, forall_and, forall_eq]
    constructor
    · rintro ⟨hzero, hbound, ⟨hxs, hys⟩, hx, hy, hne⟩
      exact ⟨⟨hzero, hbound, hxs, hx⟩, hy, fun y hm => (hys y hm).symm, hne⟩
    · rintro ⟨⟨hzero, hbound, hxs, hx⟩, hy, hne, hcross⟩
      exact ⟨hzero, hbound, ⟨hxs, fun y hm => (hne y hm).symm⟩, hx, hy, hcross⟩

theorem mono {more : Nat} (h : Tidy bound xs) (hle : bound ≤ more) : Tidy more xs :=
  ⟨h.distinct, fun e he => ⟨(h.inside e he).1, Nat.lt_of_lt_of_le (h.inside e he).2 hle⟩⟩

/-- There are fewer tidy entries than slots. -/
theorem length_lt (h : Tidy bound xs) (hpos : 0 < bound) : xs.length < bound := by
  have hsub : xs.map Entry.slot ⊆ (List.range bound).erase 0 := fun i hi => by
    obtain ⟨e, he, rfl⟩ := List.mem_map.1 hi
    have hin := h.inside e he
    exact (List.mem_erase_of_ne hin.1).2 (List.mem_range.2 hin.2)
  have hle := (List.Nodup.subperm h.distinct hsub).length_le
  rw [List.length_map, List.length_erase_of_mem (List.mem_range.2 hpos), List.length_range] at hle
  omega

/-- The root of a tree that is no leaf has a slot. -/
theorem top_ne_zero {t : Tree} (h : Tidy bound t.entries) (hne : t ≠ .leaf) : t.top ≠ 0 := by
  cases t with
  | leaf => exact absurd rfl hne
  | node c l e r => exact (h.inside e (by simp [Tree.entries])).1

end Tidy

/-- No entry in a place has the slot of the parent of the place. -/
theorem Path.ne_above {path : Path} {bound : Nat} {es : List Entry}
    (h : Tidy bound (es ++ path.outside)) : ∀ e ∈ es, e.slot ≠ path.above := by
  intro e he
  obtain ⟨hes, -, hcross⟩ := Tidy.append_iff.1 h
  cases path with
  | nil => exact (hes.inside e he).1
  | cons f rest => exact hcross e he f.entry List.mem_cons_self

namespace Index

variable {index other : Index} {t : Tree} {path : Path} {p hole : Nat}

/-- The slots show a tree below a parent. -/
def Holds (index : Index) : Nat → Tree → Prop
  | _, .leaf => True
  | p, .node c l e r =>
    index.slot e.slot = e.cell .left c l.top r.top p ∧ index.Holds e.slot l ∧ index.Holds e.slot r

/-- The slots show a path, with a node or none in the place at its end. -/
def HoldsPath (index : Index) : Path → Nat → Prop
  | [], hole => index.root = hole
  | f :: rest, hole =>
    index.slot f.entry.slot = f.entry.cell f.side f.colour hole f.sibling.top (Path.above rest) ∧
      index.Holds f.entry.slot f.sibling ∧ index.HoldsPath rest f.entry.slot

/-- The index shows a tree. -/
structure Shows (index : Index) (t : Tree) : Prop where
  /-- The root is that of the tree. -/
  root : index.root = t.top
  /-- The slots show the nodes. -/
  holds : index.Holds 0 t
  /-- Every node has a slot of its own. -/
  tidy : Tidy index.slots.size t.entries

theorem holds_join {side : Side} {c : Colour} {near : Tree} {e : Entry} {far : Tree} :
    index.Holds p (.join side c near e far) ↔
      index.slot e.slot = e.cell side c near.top far.top p ∧ index.Holds e.slot near ∧
        index.Holds e.slot far := by
  cases side
  · exact Iff.rfl
  · exact and_congr_right fun _ => and_comm

theorem Holds.congr (h : index.Holds p t)
    (heq : ∀ e ∈ t.entries, other.slot e.slot = index.slot e.slot) : other.Holds p t := by
  induction t generalizing p with
  | leaf => trivial
  | node c l e r ihl ihr =>
    obtain ⟨hslot, hl, hr⟩ := h
    refine ⟨?_, ihl hl fun x hx => heq x ?_, ihr hr fun x hx => heq x ?_⟩
    · rw [heq e (List.mem_append_right _ List.mem_cons_self), hslot]
    · exact List.mem_append_left _ hx
    · exact List.mem_append_right _ (List.mem_cons_of_mem e hx)

theorem HoldsPath.congr (h : index.HoldsPath path hole) (hroot : other.root = index.root)
    (heq : ∀ e ∈ path.outside, other.slot e.slot = index.slot e.slot) :
    other.HoldsPath path hole := by
  induction path generalizing hole with
  | nil => exact hroot.trans h
  | cons f rest ih =>
    obtain ⟨hslot, hsibling, hrest⟩ := h
    refine ⟨?_, hsibling.congr fun x hx => heq x ?_, ih hrest fun x hx => heq x ?_⟩
    · rw [heq f.entry List.mem_cons_self, hslot]
    · exact List.mem_cons_of_mem _ (List.mem_append_left _ hx)
    · exact List.mem_cons_of_mem _ (List.mem_append_right _ hx)

/-- The slots and the root alone say which tree is shown. -/
theorem Shows.congr (h : index.Shows t) (hslots : other.slots = index.slots)
    (hroot : other.root = index.root) : other.Shows t where
  root := hroot.trans h.root
  holds := h.holds.congr fun e _ => by rw [slot, slot, hslots]
  tidy := hslots ▸ h.tidy

/-- An index shows a whole tree when it shows the path and the tree in the place. -/
theorem shows_fill_iff :
    index.Shows (path.fill t) ↔
      index.HoldsPath path t.top ∧ index.Holds path.above t ∧
        Tidy index.slots.size (t.entries ++ path.outside) := by
  have hparts (path : Path) (t : Tree) :
      (index.root = (path.fill t).top ∧ index.Holds 0 (path.fill t)) ↔
        index.HoldsPath path t.top ∧ index.Holds path.above t := by
    induction path generalizing t with
    | nil => exact Iff.rfl
    | cons f rest ih =>
      rw [Path.fill, ih, holds_join, Tree.top_join]
      constructor
      · rintro ⟨hrest, hslot, ht, hsibling⟩
        exact ⟨⟨hslot, hsibling, hrest⟩, ht⟩
      · rintro ⟨⟨hslot, hsibling, hrest⟩, ht⟩
        exact ⟨hrest, hslot, ht, hsibling⟩
  have hperm := path.entries_fill_perm t
  constructor
  · intro h
    obtain ⟨hpath, ht⟩ := (hparts path t).1 ⟨h.root, h.holds⟩
    exact ⟨hpath, ht, h.tidy.perm hperm⟩
  · rintro ⟨hpath, ht, htidy⟩
    obtain ⟨hroot, hholds⟩ := (hparts path t).2 ⟨hpath, ht⟩
    exact ⟨hroot, hholds, htidy.perm hperm.symm⟩

end Index

end QuorumStore.Placement
