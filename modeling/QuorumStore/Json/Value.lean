/-!
# JSON values

A value keeps what the wire rules look at: whether a number was written as an
integer literal, and every field of an object in the order written, repeats
included. A number that is no integer literal keeps its text alone.
-/

namespace QuorumStore

/-- A JSON value. -/
inductive Json where
  /-- The literal `null`. -/
  | null
  /-- A truth value. -/
  | bool (value : Bool)
  /-- An integer literal that 64 bits hold, signed or unsigned. -/
  | int (value : Int)
  /-- Any other number, as it was written. -/
  | real (literal : String)
  /-- A text. -/
  | text (value : String)
  /-- A list. -/
  | array (items : List Json)
  /-- The fields of an object in the order written. -/
  | object (fields : List (String × Json))
  deriving Repr, Inhabited

namespace Json

/-- Equality of values; two objects agree when they list the same fields in
the same order. -/
def beq : Json → Json → Bool
  | null, null => true
  | bool a, bool b => a == b
  | int a, int b => a == b
  | real a, real b => a == b
  | text a, text b => a == b
  | array as, array bs => items as bs
  | object as, object bs => fields as bs
  | _, _ => false
where
  /-- Equality item by item. -/
  items : List Json → List Json → Bool
    | [], [] => true
    | a :: as, b :: bs => beq a b && items as bs
    | _, _ => false
  /-- Equality field by field. -/
  fields : List (String × Json) → List (String × Json) → Bool
    | [], [] => true
    | (n, a) :: as, (m, b) :: bs => n == m && beq a b && fields as bs
    | _, _ => false

instance : BEq Json := ⟨beq⟩

/-- Every value given to a field name of an object, in the order written. -/
def fieldValues (name : String) (fields : List (String × Json)) : List Json :=
  fields.filterMap fun f => if f.1 = name then some f.2 else none

/-- The value of a field: the last one written when the name is repeated, and
nothing when the value is no object or lacks the field. -/
def field? (name : String) : Json → Option Json
  | object fields => (fieldValues name fields).getLast?
  | _ => none

/-- A list of texts. -/
def texts (items : List String) : Json := array (items.map text)

/-- A natural number. -/
def nat (n : Nat) : Json := int (Int.ofNat n)

/-- The text of a value, if it is one. -/
def text? : Json → Option String
  | text value => some value
  | _ => none

/-- The integer of a value, if it is one. -/
def int? : Json → Option Int
  | int value => some value
  | _ => none

/-- The items of a value, if it is a list. -/
def array? : Json → Option (List Json)
  | array items => some items
  | _ => none

/-- The truth value of a value, if it is one. -/
def bool? : Json → Option Bool
  | bool value => some value
  | _ => none

end Json

end QuorumStore
