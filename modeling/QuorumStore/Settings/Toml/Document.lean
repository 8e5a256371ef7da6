import QuorumStore.Settings.Toml.Scalar

/-!
# TOML documents

A document is a table that headers and keys fill in. A key is given once. A
table made by a header is not made again, nor is it filled by keys with points
from outside; one that was only named on the way to another may still get its
own header, and keys with points may lead through it but not give it values.
Tables in double brackets form lists, of which the last is meant. Containers do
not stand inside one another without end.
-/

namespace QuorumStore.Toml

/-- How a table came about. -/
inductive Origin where
  /-- Named on the way to another table. -/
  | implied
  /-- Made by a header. -/
  | header
  /-- Made by a key with points. -/
  | dotted
  deriving DecidableEq, Repr

/-- A value, or what stands in its place in a table. -/
inductive Value where
  /-- A text. -/
  | text (value : String)
  /-- An integer. -/
  | integer (value : Int)
  /-- A truth value. -/
  | boolean (value : Bool)
  /-- Any other number, or a moment, as it was written. -/
  | other (word : String)
  /-- A list. -/
  | array (items : List Value)
  /-- A table in braces. -/
  | inline (entries : List (String × Value))
  /-- A table. -/
  | table (origin : Origin) (entries : List (String × Value))
  /-- A list of tables, last first. -/
  | tables (items : List (List (String × Value)))
  deriving Repr, Inhabited

/-- The names of a table with what they stand for, last given first. -/
abbrev Entries := List (String × Value)

/-! ## Filling tables -/

/-- Put a value in the place of a name that is there. -/
def replace (name : String) (value : Value) : Entries → Entries
  | [] => []
  | (n, v) :: rest => if n = name then (n, value) :: rest else (n, v) :: replace name value rest

/-- Give a name with points its value. The last table on the way has to be one
that a name with points made. -/
def assign (value : Value) : List String → Entries → Option Entries
  | [], _ => none
  | [name], entries =>
    match entries.lookup name with
    | none => some ((name, value) :: entries)
    | some _ => none
  | name :: rest, entries =>
    match entries.lookup name with
    | none => do return (name, .table .dotted (← assign value rest [])) :: entries
    | some (.table .dotted inner) => do
      return replace name (.table .dotted (← assign value rest inner)) entries
    | some (.table .implied inner) =>
      if rest.length = 1 then none
      else do return replace name (.table .implied (← assign value rest inner)) entries
    | some (.tables (last :: others)) =>
      if rest.length = 1 then none
      else do return replace name (.tables ((← assign value rest last) :: others)) entries
    | some _ => none

/-- Change the table at the end of a path of headers, which makes what is
missing on the way. -/
def descend (f : Entries → Option Entries) : List String → Entries → Option Entries
  | [], entries => f entries
  | name :: rest, entries =>
    match entries.lookup name with
    | none => do return (name, .table .implied (← descend f rest [])) :: entries
    | some (.table origin inner) => do
      return replace name (.table origin (← descend f rest inner)) entries
    | some (.tables (last :: others)) => do
      return replace name (.tables ((← descend f rest last) :: others)) entries
    | some _ => none

/-- Make the table of a header. -/
def openTable (name : String) (entries : Entries) : Option Entries :=
  match entries.lookup name with
  | none => some ((name, .table .header []) :: entries)
  | some (.table .implied inner) => some (replace name (.table .header inner) entries)
  | some _ => none

/-- Add a table to the list of a header in double brackets. -/
def appendTable (name : String) (entries : Entries) : Option Entries :=
  match entries.lookup name with
  | none => some ((name, .tables [[]]) :: entries)
  | some (.tables items) => some (replace name (.tables ([] :: items)) entries)
  | some _ => none

/-! ## Values -/

/-- The value of a word. -/
def ofWord (word : List Char) : Option Value :=
  if word = "true".toList then some (.boolean true)
  else if word = "false".toList then some (.boolean false)
  else
    match integer? word with
    | some n => some (.integer n)
    | none => if isFloat word || isMoment word then some (.other (String.ofList word)) else none

mutual

/-- A value, and what follows. A container needs room for itself and leaves the
rest to what it holds. -/
def value? : (fuel room : Nat) → List Char → Option (Value × List Char)
  | 0, _, _ => none
  | fuel + 1, room, input =>
    match input with
    | '[' :: rest => if room = 0 then none else items? fuel (room - 1) [] rest
    | '{' :: rest =>
      if room = 0 then none
      else
        match skipBlank rest with
        | '}' :: rest => some (.inline [], rest)
        | rest => pairs? fuel (room - 1) [] rest
    | c :: _ =>
      if c = '"' ∨ c = '\'' then do
        let (s, rest) ← quoted? (fuel + 1) input
        return (.text s, rest)
      else do
        let (w, rest) := word input
        return (← ofWord w, rest)
    | [] => none

/-- The items of a list after its opening bracket or a comma; those read come
last first. -/
def items? : (fuel room : Nat) → List Value → List Char → Option (Value × List Char)
  | 0, _, _, _ => none
  | fuel + 1, room, read, input => do
    let rest ← skipLines (fuel + 1) input
    match rest with
    | ']' :: rest => return (.array read.reverse, rest)
    | rest =>
      let (item, rest) ← value? fuel room rest
      let rest ← skipLines (fuel + 1) rest
      match rest with
      | ',' :: rest => items? fuel room (item :: read) rest
      | ']' :: rest => return (.array (item :: read).reverse, rest)
      | _ => none

/-- The pairs of a table in braces after its opening brace or a comma. -/
def pairs? : (fuel room : Nat) → Entries → List Char → Option (Value × List Char)
  | 0, _, _, _ => none
  | fuel + 1, room, read, input => do
    let (names, rest) ← key? (fuel + 1) input
    let '=' :: rest := rest | none
    let (value, rest) ← value? fuel room (skipBlank rest)
    let read ← assign value names read
    match skipBlank rest with
    | ',' :: rest => pairs? fuel room read rest
    | '}' :: rest => return (.inline read, rest)
    | _ => none

end

/-! ## Documents -/

/-- Read the expression at the head of a line: the document with it, the path
of the table that the next keys belong to, and what follows. -/
def expression? (fuel : Nat) (path : List String) (root : Entries) (input : List Char) :
    Option (Entries × List String × List Char) :=
  match input with
  | '[' :: '[' :: rest => do
    let (names, rest) ← key? fuel rest
    let ']' :: ']' :: rest := rest | none
    let root ← descend (appendTable (names.getLast?.getD "")) names.dropLast root
    return (root, names, rest)
  | '[' :: rest => do
    let (names, rest) ← key? fuel rest
    let ']' :: rest := rest | none
    let root ← descend (openTable (names.getLast?.getD "")) names.dropLast root
    return (root, names, rest)
  | input => do
    let (names, rest) ← key? fuel input
    let '=' :: rest := rest | none
    let (value, rest) ← value? fuel maxDepth (skipBlank rest)
    let root ← descend (assign value names) path root
    return (root, path, rest)

/-- Read on to the end of the document; the number bounds the lines. -/
def lines? : Nat → List String → Entries → List Char → Option Entries
  | 0, _, root, input => if input.isEmpty then some root else none
  | fuel + 1, path, root, input => do
    let input ← skipLines (fuel + 1) input
    match input with
    | [] => return root
    | input =>
      let (root, path, rest) ← expression? (fuel + 1) path root input
      let rest ← skipComment rest
      let rest ← lineEnd? rest
      lines? fuel path root rest

/-- The table that a document writes, if it is one. A mark of byte order may
stand before it. -/
def parse? (input : String) : Option Entries :=
  let chars :=
    match input.toList with
    | '\uFEFF' :: rest => rest
    | chars => chars
  lines? (chars.length + 1) [] [] chars

end QuorumStore.Toml
