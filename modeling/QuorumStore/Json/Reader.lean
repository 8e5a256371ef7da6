import QuorumStore.Json.Value

/-!
# Reading JSON text

Reading is one pass: each token moves a machine whose stack holds the lists and
objects that are still open. A text is refused when it is no JSON, when more
follows its value, when lists and objects are nested to a depth of 128, when a
number is too large for a double, or when a text holds half a surrogate pair.
Repeated field names are kept; the wire rules decide what they mean.
-/

namespace QuorumStore.Json

/-! ## Tokens -/

/-- What a JSON text is made of, once blanks are gone. -/
inductive Token where
  /-- `[` -/
  | openArray
  /-- `]` -/
  | closeArray
  /-- `{` -/
  | openObject
  /-- `}` -/
  | closeObject
  /-- `,` -/
  | comma
  /-- `:` -/
  | colon
  /-- A value that is neither a list nor an object. -/
  | scalar (value : Json)

/-- The four characters that may stand between tokens. -/
def isBlank (c : Char) : Bool := c = ' ' || c = '\n' || c = '\t' || c = '\r'

/-- The value of a hexadecimal digit of either case. -/
def hexValue? (c : Char) : Option Nat :=
  if '0' ≤ c ∧ c ≤ '9' then some (c.toNat - 48)
  else if 'a' ≤ c ∧ c ≤ 'f' then some (c.toNat - 87)
  else if 'A' ≤ c ∧ c ≤ 'F' then some (c.toNat - 55)
  else none

/-- The number written by four hexadecimal digits, and what follows them. -/
def hexQuad? : List Char → Option (Nat × List Char)
  | a :: b :: c :: d :: rest => do
    let a ← hexValue? a
    let b ← hexValue? b
    let c ← hexValue? c
    let d ← hexValue? d
    return (((a * 16 + b) * 16 + c) * 16 + d, rest)
  | _ => none

/-- The character that four hexadecimal digits stand for, with the second half
of a surrogate pair where the digits are a first half. -/
def unicodeEscape? (input : List Char) : Option (Char × List Char) := do
  let (n, rest) ← hexQuad? input
  if n < 0xD800 ∨ 0xE000 ≤ n then return (Char.ofNat n, rest)
  else if 0xDC00 ≤ n then none
  else
    match rest with
    | '\\' :: 'u' :: rest =>
      let (m, rest) ← hexQuad? rest
      if 0xDC00 ≤ m ∧ m < 0xE000 then
        return (Char.ofNat (0x10000 + (n - 0xD800) * 0x400 + (m - 0xDC00)), rest)
      else none
    | _ => none

/-- The character written after a backslash, and what follows. -/
def escape? : List Char → Option (Char × List Char)
  | '"' :: rest => some ('"', rest)
  | '\\' :: rest => some ('\\', rest)
  | '/' :: rest => some ('/', rest)
  | 'b' :: rest => some ('\x08', rest)
  | 'f' :: rest => some ('\x0c', rest)
  | 'n' :: rest => some ('\n', rest)
  | 'r' :: rest => some ('\r', rest)
  | 't' :: rest => some ('\t', rest)
  | 'u' :: rest => unicodeEscape? rest
  | _ => none

/-- The rest of a text after its opening quote, and what follows the closing
one. The characters read so far come last first; the number bounds how many
more are read. -/
def textBody : Nat → List Char → List Char → Option (String × List Char)
  | _, read, '"' :: rest => some (String.ofList read.reverse, rest)
  | fuel + 1, read, '\\' :: rest =>
    match escape? rest with
    | some (c, rest) => textBody fuel (c :: read) rest
    | none => none
  | fuel + 1, read, c :: rest => if c.toNat < 32 then none else textBody fuel (c :: read) rest
  | _, _, _ => none

/-- The number that decimal digits write. -/
def decimalValue (digits : List Char) : Nat :=
  digits.foldl (fun n c => n * 10 + (c.toNat - 48)) 0

/-- Whether digits times a power of ten stay below the least number that
rounds to infinity as a double. -/
def fitsDouble (digits : List Char) (exponent : Int) : Bool :=
  let digits := digits.dropWhile (· = '0')
  let size := Int.ofNat digits.length + exponent
  if digits.isEmpty ∨ size < 300 then true
  else if 320 < size then false
  else
    let top := Nat.pow 2 1024 - Nat.pow 2 970
    match exponent with
    | .ofNat e => decide (decimalValue digits * Nat.pow 10 e < top)
    | .negSucc e => decide (decimalValue digits < top * Nat.pow 10 (e + 1))

/-- The signed exponent written after `e`, and what follows it. -/
def exponent? (input : List Char) : Option (List Char × Int × List Char) :=
  let (sign, digits) : List Char × List Char :=
    match input with
    | '+' :: rest => (['+'], rest)
    | '-' :: rest => (['-'], rest)
    | rest => ([], rest)
  let (digits, rest) := digits.span Char.isDigit
  if digits.isEmpty then none
  else
    let size : Int := if 9 < (digits.dropWhile (· = '0')).length then 1000000000
      else Int.ofNat (decimalValue digits)
    some (sign ++ digits, if sign = ['-'] then -size else size, rest)

/-- The number at the head of the input, its sign already taken, and what
follows it. An integer literal that 64 bits cannot hold, and negative zero,
count as reals. -/
def number? (negative : Bool) (input : List Char) : Option (Json × List Char) := do
  let (whole, rest) := input.span Char.isDigit
  match whole with
  | [] => none
  | '0' :: _ :: _ => none
  | _ =>
    let (fraction, dotted, rest) ←
      match rest with
      | '.' :: rest =>
        let (fraction, rest) := rest.span Char.isDigit
        if fraction.isEmpty then none else some (fraction, true, rest)
      | rest => some ([], false, rest)
    let (mark, exponent, rest) ←
      match rest with
      | 'e' :: rest => exponent? rest
      | 'E' :: rest => exponent? rest
      | rest => some ([], 0, rest)
    let value := decimalValue whole
    if !dotted && mark.isEmpty && !negative && value < Nat.pow 2 64 then
      return (int (Int.ofNat value), rest)
    else if !dotted && mark.isEmpty && negative && 0 < value && value ≤ Nat.pow 2 63 then
      return (int (-Int.ofNat value), rest)
    else if fitsDouble (whole ++ fraction) (exponent - Int.ofNat fraction.length) then
      let sign := if negative then ['-'] else []
      let point := if dotted then '.' :: fraction else []
      let power := if mark.isEmpty then [] else 'e' :: mark
      return (real (String.ofList (sign ++ whole ++ point ++ power)), rest)
    else none

/-- The token at the head of an input that starts with no blank, and what
follows it. The number bounds the characters of a text. -/
def token? (fuel : Nat) : List Char → Option (Token × List Char)
  | '[' :: rest => some (.openArray, rest)
  | ']' :: rest => some (.closeArray, rest)
  | '{' :: rest => some (.openObject, rest)
  | '}' :: rest => some (.closeObject, rest)
  | ',' :: rest => some (.comma, rest)
  | ':' :: rest => some (.colon, rest)
  | '"' :: rest => (textBody fuel [] rest).map fun (s, rest) => (.scalar (text s), rest)
  | '-' :: rest => (number? true rest).map fun (n, rest) => (.scalar n, rest)
  | 'n' :: 'u' :: 'l' :: 'l' :: rest => some (.scalar null, rest)
  | 't' :: 'r' :: 'u' :: 'e' :: rest => some (.scalar (bool true), rest)
  | 'f' :: 'a' :: 'l' :: 's' :: 'e' :: rest => some (.scalar (bool false), rest)
  | input => (number? false input).map fun (n, rest) => (.scalar n, rest)

/-! ## The machine -/

/-- A list or object still open: what it holds so far, last first, and for an
object the name whose value is due. -/
inductive Frame where
  /-- An open list. -/
  | items (done : List Json)
  /-- An open object. -/
  | fields (done : List (String × Json)) (name : String)

/-- What may come next inside the innermost open list or object. -/
inductive Due where
  /-- A value. -/
  | value
  /-- The first item of a list, or its end. -/
  | firstItem
  /-- The first name of an object, or its end. -/
  | firstName
  /-- A further name. -/
  | name
  /-- The colon after a name. -/
  | colon
  /-- A comma, or the end. -/
  | more

/-- Where reading stands. -/
inductive Reading where
  /-- Something is due, innermost frame first. -/
  | awaiting (due : Due) (open_ : List Frame)
  /-- The value is complete. -/
  | complete (value : Json)

/-- Lists and objects nest to less than this depth. -/
def depthLimit : Nat := 128

/-- Hand a finished value to the innermost open frame. -/
def Reading.deliver (value : Json) : List Frame → Reading
  | [] => .complete value
  | .items done :: rest => .awaiting .more (.items (value :: done) :: rest)
  | .fields done name :: rest => .awaiting .more (.fields ((name, value) :: done) name :: rest)

/-- Open a list or object, unless it is nested too deep. -/
def Reading.enter (due : Due) (frame : Frame) (frames : List Frame) : Option Reading :=
  if frames.length + 1 < depthLimit then some (.awaiting due (frame :: frames)) else none

/-- Close the innermost list or object. -/
def Reading.leave : Token → List Frame → Option Reading
  | .closeArray, .items done :: rest => some (.deliver (array done.reverse) rest)
  | .closeObject, .fields done _ :: rest => some (.deliver (object done.reverse) rest)
  | _, _ => none

/-- Start a value with this token. -/
def Reading.begin : Token → List Frame → Option Reading
  | .scalar value, frames => some (.deliver value frames)
  | .openArray, frames => Reading.enter .firstItem (.items []) frames
  | .openObject, frames => Reading.enter .firstName (.fields [] "") frames
  | _, _ => none

/-- Take a name into the innermost object. -/
def Reading.takeName : Token → List Frame → Option Reading
  | .scalar (text name), .fields done _ :: rest =>
    some (.awaiting .colon (.fields done name :: rest))
  | _, _ => none

/-- One token. -/
def Reading.step : Reading → Token → Option Reading
  | .complete _, _ => none
  | .awaiting .value frames, t => Reading.begin t frames
  | .awaiting .firstItem frames, .closeArray => Reading.leave .closeArray frames
  | .awaiting .firstItem frames, t => Reading.begin t frames
  | .awaiting .firstName frames, .closeObject => Reading.leave .closeObject frames
  | .awaiting .firstName frames, t => Reading.takeName t frames
  | .awaiting .name frames, t => Reading.takeName t frames
  | .awaiting .colon frames, .colon => some (.awaiting .value frames)
  | .awaiting .colon _, _ => none
  | .awaiting .more (.items done :: rest), .comma => some (.awaiting .value (.items done :: rest))
  | .awaiting .more (.fields done name :: rest), .comma =>
    some (.awaiting .name (.fields done name :: rest))
  | .awaiting .more frames, t => Reading.leave t frames

/-- Read on to the end of the input; the number bounds the characters left, and
so the tokens. -/
def Reading.run : Nat → Reading → List Char → Option Json
  | fuel, state, input =>
    match input.dropWhile isBlank, state with
    | [], .complete value => some value
    | [], .awaiting _ _ => none
    | input, state =>
      match fuel with
      | 0 => none
      | fuel + 1 =>
        match token? (fuel + 1) input with
        | none => none
        | some (t, rest) =>
          match state.step t with
          | none => none
          | some state => run fuel state rest

/-- The value that a text writes, if it writes one. -/
def parse? (input : String) : Option Json :=
  let chars := input.toList
  Reading.run chars.length (.awaiting .value []) chars

/-- The value that octets write in UTF-8, if they write one. -/
def ofBytes? (bytes : List UInt8) : Option Json :=
  (String.fromUTF8? (ByteArray.mk bytes.toArray)).bind parse?

end QuorumStore.Json
