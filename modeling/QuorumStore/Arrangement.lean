/-!
# Arrangements

What lies in a set or a table has no order of its own. Where such items are gone
through, the order is left to chance, and an arrangement stands for it: any order
at all that leaves nothing out and adds nothing.
-/

namespace QuorumStore

/-- An order in which items are gone through. -/
structure Arrangement (α : Type) where
  /-- The items of a list, in that order. -/
  order : List α → List α
  /-- Each item comes as often as it is there. -/
  perm : ∀ items, (order items).Perm items

namespace Arrangement

variable {α : Type}

/-- Items are gone through as they are listed. -/
def listed : Arrangement α := ⟨id, fun items => .refl items⟩

/-- Items are gone through from the last to the first. -/
def reversed : Arrangement α := ⟨List.reverse, List.reverse_perm⟩

@[simp] theorem mem_order {a : Arrangement α} {item : α} {items : List α} :
    item ∈ a.order items ↔ item ∈ items :=
  (a.perm items).mem_iff

end Arrangement

end QuorumStore
