import QuorumStore.Placement.Arena

/-!
# The placement index

Search, insertion, deletion and the walk along the keys, over nodes in slots.
Insertion and deletion recolour and rotate as in the textbook: after an insertion
a red uncle is recoloured before anything is rotated, and after a deletion a
missing black level is passed upwards until a rotation or a red node absorbs it.

Every loop follows links from node to node and meets no node twice, so it makes
at most as many steps as there are slots; that number is its bound.
-/

namespace QuorumStore.Placement.Index

/-! ## Searching -/

/-- Search a key from a node downwards; 0 if it is not there. -/
def seek (index : Index) (key : Int) : (bound i : Nat) → Nat
  | 0, _ => 0
  | bound + 1, i =>
    if i = 0 then 0
    else if key < (index.slot i).key then index.seek key bound (index.child i .left)
    else if (index.slot i).key < key then index.seek key bound (index.child i .right)
    else i

/-- The node at a key, or 0. -/
def find (index : Index) (key : Int) : Nat := index.seek key index.slots.size index.root

/-- The host at a key. -/
def host? (index : Index) (key : Int) : Option Host :=
  match index.find key with
  | 0 => none
  | i => some (index.slot i).host

/-- The least node in reach from a node to the left. -/
def leftmost (index : Index) : (bound i : Nat) → Nat
  | 0, i => i
  | bound + 1, i =>
    if index.child i .left = 0 then i else index.leftmost bound (index.child i .left)

/-- The node with the smallest key below a node. -/
def minimum (index : Index) (i : Nat) : Nat := index.leftmost index.slots.size i

/-- Search the smallest key at or above the given one from a node downwards, with
the best node so far. -/
def seekFrom (index : Index) (key : Int) : (bound best i : Nat) → Nat
  | 0, best, _ => best
  | bound + 1, best, i =>
    if i = 0 then best
    else if key ≤ (index.slot i).key then index.seekFrom key bound i (index.child i .left)
    else index.seekFrom key bound best (index.child i .right)

/-- The node with the smallest key at or above the given one, or 0. -/
def ceiling (index : Index) (key : Int) : Nat := index.seekFrom key index.slots.size 0 index.root

/-! ## Walking along the keys -/

/-- Climb as long as the node hangs on the right of its parent, to the first
parent above on whose left it hangs. -/
def climb (index : Index) : (bound i parent : Nat) → Nat
  | 0, _, parent => parent
  | bound + 1, i, parent =>
    if parent ≠ 0 ∧ i = index.child parent .right then
      index.climb bound parent (index.parent parent)
    else parent

/-- The node with the next key, or 0. -/
def successor (index : Index) (i : Nat) : Nat :=
  if index.child i .right = 0 then index.climb index.slots.size i (index.parent i)
  else index.minimum (index.child i .right)

/-- The node with the next key, and after the greatest key the smallest one. -/
def next (index : Index) (i : Nat) : Nat :=
  match index.successor i with
  | 0 => index.minimum index.root
  | j => j

/-- The entries from a node on. -/
def entriesFrom (index : Index) : (bound i : Nat) → List (Int × Host)
  | 0, _ => []
  | bound + 1, i =>
    if i = 0 then []
    else ((index.slot i).key, (index.slot i).host) :: index.entriesFrom bound (index.successor i)

/-- The entries in key order. -/
def entries (index : Index) : List (Int × Host) :=
  if index.root = 0 then [] else index.entriesFrom index.slots.size (index.minimum index.root)

/-- Meet the hosts of so many nodes in turn from a node on, each host once, and
stop when there are enough. -/
def walk (index : Index) (enough : Nat) : (count i : Nat) → List Host → List Host
  | 0, _, met => met
  | count + 1, i, met =>
    let host := (index.slot i).host
    if host ∈ met then index.walk enough count (index.next i) met
    else if (met ++ [host]).length = enough then met ++ [host]
    else index.walk enough count (index.next i) (met ++ [host])

/-- The node with the smallest key at or above the given one, and past the greatest
key the smallest one. -/
def start (index : Index) (key : Int) : Nat :=
  match index.ceiling key with
  | 0 => index.minimum index.root
  | i => i

/-- At most `n` distinct hosts, walking from the smallest key at or above the
given one through the greatest key and on from the smallest. -/
def clockwise (index : Index) (n : Nat) (key : Int) : List Host :=
  if n = 0 ∨ index.root = 0 then [] else index.walk n index.size (index.start key) []

/-! ## Insertion -/

/-- Search the parent of a new key from a node downwards, unless the key is taken. -/
def descend (index : Index) (key : Int) : (bound parent i : Nat) → Option Nat
  | 0, parent, _ => some parent
  | bound + 1, parent, i =>
    if i = 0 then some parent
    else if key < (index.slot i).key then index.descend key bound i (index.child i .left)
    else if (index.slot i).key < key then index.descend key bound i (index.child i .right)
    else none

/-- The side of its parent on which a node hangs. -/
def sideUnder (index : Index) (parent i : Nat) : Side :=
  if i = index.child parent .left then .left else .right

/-- Bring a red node that hangs on the inner side of its red parent to the outer
side, and give back the lower of the two. -/
def straighten (index : Index) (side : Side) (p z : Nat) : Index × Nat :=
  if z = index.child p side.other then (index.rotate side p, p) else (index, z)

/-- Mend two red nodes in a row, the lower of which is `z`: with a red uncle the
colours move up, and otherwise one or two rotations end it. -/
def mendRed (index : Index) : (bound z : Nat) → Index
  | 0, _ => index
  | bound + 1, z =>
    let p := index.parent z
    if index.colour p = .red then
      let g := index.parent p
      let side := index.sideUnder g p
      let uncle := index.child g side.other
      if index.colour uncle = .red then
        (((index.paint p .black).paint uncle .black).paint g .red).mendRed bound g
      else
        let (index, z) := index.straighten side p z
        let p := index.parent z
        let g := index.parent p
        (((index.paint p .black).paint g .red).rotate side.other g).mendRed bound z
    else index

/-- Hang a new node below its parent, on the side of its key; without a parent it
is the root. -/
def attach (index : Index) (key : Int) (parent z : Nat) : Index :=
  let index := index.setParent z parent
  if parent = 0 then { index with root := z }
  else if key < (index.slot parent).key then index.setChild parent .left z
  else index.setChild parent .right z

/-- Add an entry, and tell whether its key was free; a key that is taken keeps
its host. -/
def insert (index : Index) (key : Int) (host : Host) : Index × Bool :=
  match index.descend key index.slots.size 0 index.root with
  | none => (index, false)
  | some parent =>
    let (z, index) := index.alloc key host
    let index := index.attach key parent z
    let index := index.mendRed index.slots.size z
    let index := index.paint index.root .black
    ({ index with size := index.size + 1 }, true)

/-! ## Deletion -/

/-- Bring the sibling of a node up if it is red, so that the sibling is black. -/
def blackenSibling (index : Index) (side : Side) (p : Nat) : Index :=
  let w := index.child p side.other
  if index.colour w = .red then ((index.paint w .black).paint p .red).rotate side p else index

/-- Bring the red child of a black sibling to the outer side, if the outer child is
black. -/
def straightenNephew (index : Index) (side : Side) (p : Nat) : Index :=
  let w := index.child p side.other
  if index.colour (index.child w side.other) = .black then
    ((index.paint (index.child w side) .black).paint w .red).rotate side.other w
  else index

/-- Give the side of a parent that is short a black level back, beside a black
sibling of which one child is red. -/
def refill (index : Index) (side : Side) (p : Nat) : Index :=
  let index := index.straightenNephew side p
  let w := index.child p side.other
  let index := (index.paint w (index.colour p)).paint p .black
  (index.paint (index.child w side.other) .black).rotate side p

/-- Mend a missing black level below `x`, and give back the node at which it ends. -/
def mendBlack (index : Index) : (bound x : Nat) → Index × Nat
  | 0, x => (index, x)
  | bound + 1, x =>
    if x ≠ index.root ∧ index.colour x = .black then
      let p := index.parent x
      let side := index.sideUnder p x
      let index := index.blackenSibling side p
      let w := index.child p side.other
      if index.colour (index.child w .left) = .black ∧ index.colour (index.child w .right) = .black
      then (index.paint w .red).mendBlack bound p
      else
        let index := index.refill side p
        index.mendBlack bound index.root
    else (index, x)

/-- Take `y`, the node with the next key after a node `z` with two children, out of
its place below `z`, and hang what is left on the right of `z` below `y`. The node
that moves up into the place of `y` has `y` or the former parent of `y` as its
parent. -/
def detach (index : Index) (z y : Nat) : Index :=
  let x := index.child y .right
  if index.parent y = z then index.setParent x y
  else
    let index := index.transplant y x
    let right := index.child z .right
    (index.setChild y .right right).setParent right y

/-- Put `y` in the place of `z`, with the left side and the colour of `z`. -/
def supplant (index : Index) (z y : Nat) : Index :=
  let index := index.transplant z y
  let left := index.child z .left
  let index := (index.setChild y .left left).setParent left y
  index.paint y (index.colour z)

/-- What is left after a node was taken out: the tree, the node that moved up, and
the colour that is gone. -/
structure Unlinked where
  /-- The tree without the node. -/
  index : Index
  /-- The node that moved up, or 0. -/
  moved : Nat
  /-- The colour that is gone. -/
  colour : Colour

/-- Take a node out of the tree. -/
def unlink (index : Index) (z : Nat) : Unlinked :=
  if index.child z .left = 0 then
    ⟨index.transplant z (index.child z .right), index.child z .right, index.colour z⟩
  else if index.child z .right = 0 then
    ⟨index.transplant z (index.child z .left), index.child z .left, index.colour z⟩
  else
    let y := index.minimum (index.child z .right)
    ⟨(index.detach z y).supplant z y, index.child y .right, index.colour y⟩

/-- Mend what is left, if a black node is gone. -/
def Unlinked.mend (rest : Unlinked) : Index :=
  if rest.colour = .black then
    let mended := rest.index.mendBlack rest.index.slots.size rest.moved
    mended.1.paint mended.2 .black
  else rest.index

/-- Remove the entry at a key, and tell whether there was one. -/
def delete (index : Index) (key : Int) : Index × Bool :=
  match index.find key with
  | 0 => (index, false)
  | z =>
    let index := (index.unlink z).mend.release z
    ({ index with size := index.size - 1 }, true)

/-! ## Checking -/

/-- What can be wrong with a tree. -/
inductive Flaw where
  /-- The first slot is red. -/
  | sentinel
  /-- There is no root, but there should be entries. -/
  | rootless (size : Nat)
  /-- The root is red. -/
  | redRoot
  /-- The root has a parent. -/
  | rootParent
  /-- Another number of nodes was counted than there should be entries. -/
  | count (counted size : Nat)
  /-- A key does not lie between those above it. -/
  | order (key : Int)
  /-- A child of the node at a key has another parent. -/
  | link (key : Int)
  /-- The red node at a key has a red child. -/
  | redChild (key : Int)
  /-- The sides of the node at a key have different black heights. -/
  | height (key : Int) (left right : Nat)
  deriving DecidableEq, Repr

/-- The wording of a flaw. -/
def Flaw.message : Flaw → String
  | sentinel => "sentinel is not black"
  | rootless size => "empty root but len = " ++ toString size
  | redRoot => "root is red"
  | rootParent => "root has a parent"
  | count counted size => "counted " ++ toString counted ++ " nodes but len = " ++ toString size
  | order key => "key " ++ toString key ++ " out of order"
  | link key => "broken parent link below key " ++ toString key
  | redChild key => "red node " ++ toString key ++ " has a red child"
  | height key left right =>
    "black height mismatch at key " ++ toString key ++ ": " ++ toString left ++ " vs "
      ++ toString right

/-- Check the link from a node to a child, and their colours. -/
def checkLink (index : Index) (i child : Nat) : Except Flaw Unit :=
  if child = 0 then .ok ()
  else if index.parent child ≠ i then .error (.link (index.slot i).key)
  else if index.colour i = .red ∧ index.colour child = .red then
    .error (.redChild (index.slot i).key)
  else .ok ()

/-- Check the tree below a node whose keys have to lie strictly between two
bounds. Gives the black height, the missing children included, and the number of
nodes. A path that is longer than there are slots comes back to a slot, and its
key is out of order there. -/
def checkBelow (index : Index) : (bound i : Nat) → (low high : Option Int) →
    Except Flaw (Nat × Nat)
  | 0, i, _, _ => .error (.order (index.slot i).key)
  | bound + 1, i, low, high =>
    if i = 0 then .ok (1, 0)
    else
      let key := (index.slot i).key
      if low.any (key ≤ ·) || high.any (· ≤ key) then .error (.order key)
      else do
        index.checkLink i (index.child i .left)
        index.checkLink i (index.child i .right)
        let (left, m) ← index.checkBelow bound (index.child i .left) low (some key)
        let (right, n) ← index.checkBelow bound (index.child i .right) (some key) high
        if left ≠ right then .error (.height key left right)
        else .ok (if index.colour i = .black then left + 1 else left, m + n + 1)

/-- The black height of a sound tree, zero for the empty one, or what is wrong. -/
def check (index : Index) : Except Flaw Nat :=
  if index.colour 0 ≠ .black then .error .sentinel
  else if index.root = 0 then if index.size = 0 then .ok 0 else .error (.rootless index.size)
  else if index.colour index.root ≠ .black then .error .redRoot
  else if index.parent index.root ≠ 0 then .error .rootParent
  else do
    let (height, counted) ← index.checkBelow (index.slots.size + 1) index.root none none
    if counted ≠ index.size then .error (.count counted index.size) else .ok height

/-- The black height of a sound tree. -/
def height? (index : Index) : Option Nat := index.check.toOption

end QuorumStore.Placement.Index
