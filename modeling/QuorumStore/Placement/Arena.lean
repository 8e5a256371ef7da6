import QuorumStore.Names

/-!
# The slots of the placement index

The placement index is a red-black tree whose nodes lie in numbered slots and
know each other by number. Slot 0 is no node: it stands for a missing child and
for a missing parent, and it is black. What is done on the left is done on the
right with the sides exchanged, so the two sides are an argument here.
-/

namespace QuorumStore.Placement

/-- The colour of a node. -/
inductive Colour where
  /-- A red node adds nothing to the black height. -/
  | red
  /-- A black node adds one to the black height. -/
  | black
  deriving DecidableEq, Repr

/-- The side on which a child hangs. -/
inductive Side where
  /-- The side of the smaller keys. -/
  | left
  /-- The side of the greater keys. -/
  | right
  deriving DecidableEq, Repr

/-- The opposite side. -/
def Side.other : Side → Side
  | left => right
  | right => left

/-- A place for one node. -/
structure Slot where
  /-- The ring position. -/
  key : Int
  /-- The host that owns the position. -/
  host : Host
  /-- The colour of the node. -/
  colour : Colour
  /-- The slot of the left child, or 0. -/
  left : Nat
  /-- The slot of the right child, or 0. -/
  right : Nat
  /-- The slot of the parent, or 0. -/
  parent : Nat
  deriving DecidableEq, Repr

namespace Slot

/-- A slot that holds no node. -/
def blank : Slot := ⟨0, "", .black, 0, 0, 0⟩

/-- The child on a side. -/
def child (s : Slot) : Side → Nat
  | .left => s.left
  | .right => s.right

/-- The slot with another child on a side. -/
def withChild (s : Slot) (side : Side) (i : Nat) : Slot :=
  match side with
  | .left => { s with left := i }
  | .right => { s with right := i }

/-- The slot with another colour. -/
def withColour (s : Slot) (colour : Colour) : Slot := { s with colour := colour }

/-- The slot with another parent. -/
def withParent (s : Slot) (parent : Nat) : Slot := { s with parent := parent }

end Slot

/-- A tree in slots, with the account of the slots that were freed. -/
structure Index where
  /-- All slots. The first holds no node. -/
  slots : Array Slot
  /-- The slot of the root, or 0. -/
  root : Nat
  /-- The slots freed and not used again, last freed first. -/
  free : List Nat
  /-- The number of entries. -/
  size : Nat
  deriving Repr

namespace Index

/-- No entries, and no slots but the first. -/
def empty : Index := ⟨#[.blank], 0, [], 0⟩

/-- What stands in a slot. -/
def slot (index : Index) (i : Nat) : Slot := index.slots.getD i .blank

/-- The colour of a slot. -/
def colour (index : Index) (i : Nat) : Colour := (index.slot i).colour

/-- The child of a slot on a side. -/
def child (index : Index) (i : Nat) (side : Side) : Nat := (index.slot i).child side

/-- The parent of a slot. -/
def parent (index : Index) (i : Nat) : Nat := (index.slot i).parent

/-- Change what stands in a slot. -/
def update (index : Index) (i : Nat) (f : Slot → Slot) : Index :=
  { index with slots := index.slots.setIfInBounds i (f (index.slot i)) }

@[simp] theorem size_slots_update (index : Index) (i : Nat) (f : Slot → Slot) :
    (index.update i f).slots.size = index.slots.size := Array.size_setIfInBounds

/-- A slot that exists holds what it was changed to. -/
theorem slot_update_self {index : Index} {i : Nat} (h : i < index.slots.size) (f : Slot → Slot) :
    (index.update i f).slot i = f (index.slot i) := by
  simp [update, slot, Array.getD_eq_getD_getElem?, h]

/-- The other slots hold what they held. -/
theorem slot_update_of_ne {index : Index} {i j : Nat} (h : j ≠ i) (f : Slot → Slot) :
    (index.update i f).slot j = index.slot j := by
  simp [update, slot, Array.getD_eq_getD_getElem?, Array.getElem?_setIfInBounds_ne h.symm]

/-- Give a slot a colour. -/
abbrev paint (index : Index) (i : Nat) (colour : Colour) : Index :=
  index.update i (·.withColour colour)

/-- Give a slot a parent. -/
abbrev setParent (index : Index) (i parent : Nat) : Index := index.update i (·.withParent parent)

/-- Give a slot a child. -/
abbrev setChild (index : Index) (i : Nat) (side : Side) (child : Nat) : Index :=
  index.update i (·.withChild side child)

/-- Let a parent point to another child in the place of an old one, which is
looked for on one side first. Without a parent the new child is the root. -/
def relink (index : Index) (first : Side) (parent old new : Nat) : Index :=
  if parent = 0 then { index with root := new }
  else if old = index.child parent first then index.setChild parent first new
  else index.setChild parent first.other new

/-- Turn a node down to one side, so that its child on the other side takes its
place and the inner grandchild changes over. -/
def rotate (index : Index) (side : Side) (x : Nat) : Index :=
  let y := index.child x side.other
  let inner := index.child y side
  let index := index.setChild x side.other inner
  let index := if inner = 0 then index else index.setParent inner x
  let above := index.parent x
  let index := index.setParent y above
  let index := index.relink side above x y
  (index.setChild y side x).setParent x y

/-- Put a node in the place of another below its parent. The node may be missing;
then the first slot takes the parent down all the same. -/
def transplant (index : Index) (old new : Nat) : Index :=
  let above := index.parent old
  (index.relink .left above old new).setParent new above

/-- Take a slot for a new red node without parent or children: the slot freed
last, or else one more. -/
def alloc (index : Index) (key : Int) (host : Host) : Nat × Index :=
  let fresh : Slot := ⟨key, host, .red, 0, 0, 0⟩
  match index.free with
  | i :: free => (i, { index with slots := index.slots.setIfInBounds i fresh, free := free })
  | [] => (index.slots.size, { index with slots := index.slots.push fresh })

/-- Free a slot. The first slot is made blank again as well, since a deletion may
have written to it. -/
def release (index : Index) (i : Nat) : Index :=
  { index with
    slots := (index.slots.setIfInBounds i .blank).setIfInBounds 0 .blank
    free := i :: index.free }

end Index

end QuorumStore.Placement
