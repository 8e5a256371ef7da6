import QuorumStore.Hash.Murmur
import QuorumStore.Placement.Index

/-!
# The placement ring

Each host takes a fixed number of positions on a ring, and a key belongs to the
hosts met first when walking clockwise from its own position. A position has
one owner, the first host that took it, so two hosts may share positions.
-/

namespace QuorumStore.Placement

/-- The hosts of a ring and the positions that they own. -/
structure Ring where
  /-- The number of positions per host. -/
  factor : Nat
  /-- The owner of every position taken. -/
  index : Index
  /-- The hosts on the ring. -/
  members : Std.TreeSet Host
  /-- A host takes at least one position. -/
  factor_pos : 0 < factor

namespace Ring

/-- The ring without hosts. -/
def empty (factor : Nat) (h : 0 < factor) : Ring := ⟨factor, .empty, ∅, h⟩

/-- The positions of a host: the digests of its name followed by each number
below the factor. -/
def positions (ring : Ring) (host : Host) : List Int :=
  (List.range ring.factor).map fun i =>
    Int.ofNat (Murmur.textDigest (host ++ toString i)).toNat

/-- Take positions for a host, and tell whether all of them were free. -/
def claim (host : Host) (index : Index) : List Int → Index × Bool
  | [] => (index, true)
  | p :: rest =>
    let (index, free) := index.insert p host
    let (index, all) := claim host index rest
    (index, free && all)

/-- Give up the positions that a host owns, and tell whether it owned all of them. -/
def release (host : Host) (index : Index) : List Int → Index × Bool
  | [] => (index, true)
  | p :: rest =>
    if index.host? p = some host then
      let (index, gone) := index.delete p
      let (index, all) := release host index rest
      (index, gone && all)
    else ((release host index rest).1, false)

/-- Whether a host is on the ring. -/
def contains (ring : Ring) (host : Host) : Bool := ring.members.contains host

/-- The hosts on the ring, sorted. -/
def hosts (ring : Ring) : List Host := ring.members.toList

/-- The number of hosts on the ring. -/
def size (ring : Ring) : Nat := ring.members.size

/-- The number of positions taken. -/
def taken (ring : Ring) : Nat := ring.index.size

/-- Add a host, and tell whether it was new and took all its positions. A host
that is new joins even when positions of it are taken. -/
def add (ring : Ring) (host : Host) : Ring × Bool :=
  if ring.contains host then (ring, false)
  else
    let (index, all) := claim host ring.index (ring.positions host)
    (⟨ring.factor, index, ring.members.insert host, ring.factor_pos⟩, all)

/-- Remove a host, and tell whether it was there and owned all its positions. -/
def remove (ring : Ring) (host : Host) : Ring × Bool :=
  if ring.contains host then
    let (index, all) := release host ring.index (ring.positions host)
    (⟨ring.factor, index, ring.members.erase host, ring.factor_pos⟩, all)
  else (ring, false)

/-- At most `n` distinct hosts for a key, nearest first. -/
def nearest (ring : Ring) (key : Key) (n : Nat) : List Host :=
  ring.index.clockwise n (Int.ofNat (Murmur.textDigest key).toNat)

end Ring

end QuorumStore.Placement
