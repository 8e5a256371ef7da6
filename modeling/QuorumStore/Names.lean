import Std.Data.TreeSet

/-!
# Names

Keys, fields and hosts are texts. Texts are ordered by code point, which is
also the order of their UTF-8 octets. A collection of names is shown sorted and
without repeats.
-/

namespace QuorumStore

/-- The name of a record. -/
abbrev Key := String

/-- The name of one field of a record. -/
abbrev Field := String

/-- The address of a member of the cluster. -/
abbrev Host := String

/-- The names of a list, sorted and without repeats. -/
def sortedNames (names : List String) : List String := (Std.TreeSet.ofList names).toList

theorem mem_sortedNames {name : String} {names : List String} :
    name ∈ sortedNames names ↔ name ∈ names := by
  simp [sortedNames]

/-- Sorted names rise strictly, so none is repeated. -/
theorem sortedNames_pairwise (names : List String) :
    (sortedNames names).Pairwise (compare · · = .lt) :=
  Std.TreeSet.ordered_toList

/-- An ASCII capital becomes its small letter; every other character stays. -/
def lowerAscii (name : String) : String := name.map Char.toLower

end QuorumStore
