import QuorumStore.Json.Reader

/-!
# TOML words

The parts of a TOML text that are no container: blanks and comments, keys, the
four kinds of quoted text, and the words that stand for numbers, truth values
and moments. Each reader takes its part from the head of the input and gives
back what follows, or refuses.
-/

namespace QuorumStore.Toml

/-- Space and tab. -/
def isBlank (c : Char) : Bool := c = ' ' || c = '\t'

/-- Drop spaces and tabs. -/
def skipBlank (input : List Char) : List Char := input.dropWhile isBlank

/-- Whether a character may stand in a comment or, quotes and backslashes apart,
in a quoted text: a tab, or no control character. -/
def isPlain (c : Char) : Bool := c = '\t' || (32 ≤ c.toNat && c.toNat ≠ 127)

/-- What follows the end of a line, if the input is at one; the end of the input
ends a line too. -/
def lineEnd? : List Char → Option (List Char)
  | [] => some []
  | '\n' :: rest => some rest
  | '\r' :: '\n' :: rest => some rest
  | _ => none

/-- Drop blanks and a comment up to the end of the line, which is left. -/
def skipComment (input : List Char) : Option (List Char) :=
  match skipBlank input with
  | '#' :: rest => (rest.dropWhile isPlain : List Char)
  | rest => some rest

/-- Drop blanks, comments and line ends; the number bounds the lines. -/
def skipLines : Nat → List Char → Option (List Char)
  | 0, input => some input
  | fuel + 1, input => do
    let rest ← skipComment input
    match rest with
    | '\n' :: rest => skipLines fuel rest
    | '\r' :: '\n' :: rest => skipLines fuel rest
    | rest => return rest

/-! ## Quoted text -/

/-- The character of a number, unless it is half a surrogate pair or too large. -/
def scalar? (n : Nat) : Option Char :=
  if n < 0xD800 ∨ (0xE000 ≤ n ∧ n < 0x110000) then some (Char.ofNat n) else none

/-- The character written after a backslash, and what follows. -/
def escape? : List Char → Option (Char × List Char)
  | '"' :: rest => some ('"', rest)
  | '\\' :: rest => some ('\\', rest)
  | 'b' :: rest => some ('\x08', rest)
  | 't' :: rest => some ('\t', rest)
  | 'n' :: rest => some ('\n', rest)
  | 'f' :: rest => some ('\x0c', rest)
  | 'r' :: rest => some ('\r', rest)
  | 'u' :: rest => do
    let (n, rest) ← Json.hexQuad? rest
    return (← scalar? n, rest)
  | 'U' :: rest => do
    let (high, rest) ← Json.hexQuad? rest
    let (low, rest) ← Json.hexQuad? rest
    return (← scalar? (high * 0x10000 + low), rest)
  | _ => none

/-- A text on one line after its opening quote. Escapes are read when the quote
is double. The characters read so far come last first. -/
def lineText (quote : Char) : Nat → List Char → List Char → Option (String × List Char)
  | 0, _, _ => none
  | _, _, [] => none
  | fuel + 1, read, c :: rest =>
    if c = quote then some (String.ofList read.reverse, rest)
    else if c = '\\' ∧ quote = '"' then do
      let (c, rest) ← escape? rest
      lineText quote fuel (c :: read) rest
    else if isPlain c then lineText quote fuel (c :: read) rest
    else none

/-- Drop blanks and line ends after a backslash that ends a line. -/
def skipFolded : List Char → List Char
  | [] => []
  | '\r' :: '\n' :: rest => skipFolded rest
  | c :: rest => if isBlank c || c = '\n' then skipFolded rest else c :: rest

/-- Whether a backslash ends its line. -/
def endsLine (input : List Char) : Bool :=
  match skipBlank input with
  | '\n' :: _ => true
  | '\r' :: '\n' :: _ => true
  | _ => false

/-- A text over several lines after its three opening quotes. Up to two quotes
may stand right before the three that close it. -/
def linesText (quote : Char) : Nat → List Char → List Char → Option (String × List Char)
  | 0, _, _ => none
  | fuel + 1, read, input =>
    match input with
    | [] => none
    | '\n' :: rest => linesText quote fuel ('\n' :: read) rest
    | '\r' :: '\n' :: rest => linesText quote fuel ('\n' :: read) rest
    | c :: rest =>
      if c = quote then
        let quotes := (input.takeWhile (· = quote)).length
        if quotes < 3 then linesText quote fuel (c :: read) rest
        else if quotes ≤ 5 then
          some (String.ofList (List.replicate (quotes - 3) quote ++ read).reverse,
            input.drop quotes)
        else none
      else if c = '\\' ∧ quote = '"' then
        if endsLine rest then linesText quote fuel read (skipFolded rest)
        else do
          let (c, rest) ← escape? rest
          linesText quote fuel (c :: read) rest
      else if isPlain c then linesText quote fuel (c :: read) rest
      else none

/-- Drop the line end that may follow three opening quotes. -/
def skipFirstLine : List Char → List Char
  | '\n' :: rest => rest
  | '\r' :: '\n' :: rest => rest
  | rest => rest

/-- A quoted text of any of the four kinds. -/
def quoted? (fuel : Nat) : List Char → Option (String × List Char)
  | '"' :: '"' :: '"' :: rest => linesText '"' fuel [] (skipFirstLine rest)
  | '\'' :: '\'' :: '\'' :: rest => linesText '\'' fuel [] (skipFirstLine rest)
  | '"' :: rest => lineText '"' fuel [] rest
  | '\'' :: rest => lineText '\'' fuel [] rest
  | _ => none

/-! ## Keys -/

/-- Whether a character may stand in a key without quotes. -/
def isKeyChar (c : Char) : Bool := c.isAlphanum || c = '_' || c = '-'

/-- One part of a key. -/
def keyPart? (fuel : Nat) : List Char → Option (String × List Char)
  | '"' :: rest => lineText '"' fuel [] rest
  | '\'' :: rest => lineText '\'' fuel [] rest
  | input =>
    let (name, rest) := input.span isKeyChar
    if name.isEmpty then none else some (String.ofList name, rest)

/-- The number of containers that may stand inside one another, and the number
of parts that a key may have. -/
def maxDepth : Nat := 79

/-- The parts of a key, as many as there is room for. -/
def keyParts? (fuel : Nat) : (room : Nat) → List Char → Option (List String × List Char)
  | 0, _ => none
  | room + 1, input => do
    let (name, rest) ← keyPart? fuel (skipBlank input)
    match skipBlank rest with
    | '.' :: rest =>
      let (names, rest) ← keyParts? fuel room rest
      return (name :: names, rest)
    | rest => return ([name], rest)

/-- A key of one or more parts with points between them. -/
def key? (fuel : Nat) (input : List Char) : Option (List String × List Char) :=
  keyParts? fuel maxDepth input

/-! ## Numbers, truth values and moments -/

/-- The digits of a number: underscores may stand between two of them. -/
def digits? (isDigit : Char → Bool) : List Char → Option (List Char)
  | [] => none
  | c :: rest => if isDigit c then go [c] rest else none
where
  /-- The digits after the first; those read come last first. -/
  go (read : List Char) : List Char → Option (List Char)
    | [] => some read.reverse
    | '_' :: c :: rest => if isDigit c then go (c :: read) rest else none
    | c :: rest => if isDigit c then go (c :: read) rest else none

/-- The number that digits write in a base. -/
def inBase (base : Nat) (digits : List Char) : Nat :=
  digits.foldl (fun n c => n * base + (Json.hexValue? c).getD 0) 0

/-- Whether a character is a digit of a base up to sixteen. -/
def isDigitOf (base : Nat) (c : Char) : Bool := (Json.hexValue? c).any (· < base)

/-- An integer that 64 bits hold with its sign. -/
def signed? (negative : Bool) (n : Nat) : Option Int :=
  if negative then if n ≤ Nat.pow 2 63 then some (-Int.ofNat n) else none
  else if n < Nat.pow 2 63 then some (Int.ofNat n) else none

/-- The number of a word of decimal digits; a zero does not lead others. -/
def decimal? (word : List Char) : Option Nat := do
  match ← digits? Char.isDigit word with
  | '0' :: _ :: _ => none
  | digits => return inBase 10 digits

/-- The integer of a word. -/
def integer? : List Char → Option Int
  | '0' :: 'x' :: rest => do signed? false (inBase 16 (← digits? (isDigitOf 16) rest))
  | '0' :: 'o' :: rest => do signed? false (inBase 8 (← digits? (isDigitOf 8) rest))
  | '0' :: 'b' :: rest => do signed? false (inBase 2 (← digits? (isDigitOf 2) rest))
  | '+' :: rest => do signed? false (← decimal? rest)
  | '-' :: rest => do signed? true (← decimal? rest)
  | word => do signed? false (← decimal? word)

/-- A word without its sign. -/
def unsigned : List Char → List Char
  | '+' :: rest => rest
  | '-' :: rest => rest
  | word => word

/-- The exponent of a word: an optional sign and digits. -/
def exponent? : List Char → Option Int
  | '-' :: rest => do return -Int.ofNat (inBase 10 (← digits? Char.isDigit rest))
  | '+' :: rest => do return Int.ofNat (inBase 10 (← digits? Char.isDigit rest))
  | rest => do return Int.ofNat (inBase 10 (← digits? Char.isDigit rest))

/-- The least number that rounds to infinity in 64 bits: halfway between the
greatest number that they hold and the power of two that would follow it. -/
def infinityStart : Nat := Nat.pow 2 1024 - Nat.pow 2 970

/-- Whether digits, shifted by a power of ten, round to infinity. Where the
number of places settles it, nothing is multiplied out. -/
def isInfinite (digits : List Char) (shift : Int) : Bool :=
  let digits := digits.dropWhile (· = '0')
  let places := Int.ofNat digits.length + shift
  if digits.isEmpty ∨ places < 308 then false
  else if 310 < places then true
  else if shift < 0 then infinityStart * Nat.pow 10 shift.natAbs ≤ inBase 10 digits
  else infinityStart ≤ inBase 10 digits * Nat.pow 10 shift.toNat

/-- Whether a word without a sign is a number with a fraction or an exponent:
its digits and the power of ten that shifts them. -/
def magnitude? (word : List Char) : Option (List Char × Int) := do
  let isMark := fun c => c = 'e' || c = 'E'
  let (whole, rest) := word.span fun c => c ≠ '.' && !isMark c
  let _ ← decimal? whole
  let whole ← digits? Char.isDigit whole
  match rest with
  | '.' :: rest =>
    let (fraction, rest) := rest.span fun c => !isMark c
    let fraction ← digits? Char.isDigit fraction
    let shift ← match rest with
      | [] => some 0
      | _ :: exponent => exponent? exponent
    return (whole ++ fraction, shift - Int.ofNat fraction.length)
  | _ :: exponent => return (whole, ← exponent? exponent)
  | [] => none

/-- Whether a word is a number with a fraction or an exponent. One that rounds to
infinity is refused unless it is negative. -/
def isFloat (word : List Char) : Bool :=
  let number := unsigned word
  if number = ['i', 'n', 'f'] ∨ number = ['n', 'a', 'n'] then true
  else
    match magnitude? number with
    | some (digits, shift) => word.head? = some '-' || !isInfinite digits shift
    | none => false

/-- The number of exactly the given count of decimal digits, and what follows. -/
def fixed? (count : Nat) (input : List Char) : Option (Nat × List Char) :=
  let digits := input.take count
  if digits.length = count ∧ digits.all Char.isDigit then
    some (inBase 10 digits, input.drop count)
  else none

/-- The number of days of a month. -/
def daysIn (year month : Nat) : Nat :=
  if month = 2 then
    if year % 4 = 0 ∧ (year % 100 ≠ 0 ∨ year % 400 = 0) then 29 else 28
  else if month = 4 ∨ month = 6 ∨ month = 9 ∨ month = 11 then 30
  else 31

/-- What follows a date. -/
def date? (input : List Char) : Option (List Char) := do
  let (year, rest) ← fixed? 4 input
  let '-' :: rest := rest | none
  let (month, rest) ← fixed? 2 rest
  let '-' :: rest := rest | none
  let (day, rest) ← fixed? 2 rest
  if 1 ≤ month ∧ month ≤ 12 ∧ 1 ≤ day ∧ day ≤ daysIn year month then return rest else none

/-- What follows an hour and a minute. -/
def minutes? (input : List Char) : Option (List Char) := do
  let (hour, rest) ← fixed? 2 input
  let ':' :: rest := rest | none
  let (minute, rest) ← fixed? 2 rest
  if hour < 24 ∧ minute < 60 then return rest else none

/-- What follows a time of day. -/
def time? (input : List Char) : Option (List Char) := do
  let rest ← minutes? input
  let ':' :: rest := rest | none
  let (second, rest) ← fixed? 2 rest
  if 60 < second then none
  else
    match rest with
    | '.' :: rest =>
      let (fraction, rest) := rest.span Char.isDigit
      if fraction.isEmpty then none else return rest
    | rest => return rest

/-- Whether a word is an offset from universal time, or none. -/
def isOffset : List Char → Bool
  | [] => true
  | ['Z'] => true
  | ['z'] => true
  | '+' :: rest => minutes? rest = some []
  | '-' :: rest => minutes? rest = some []
  | _ => false

/-- Whether a word is a date, a time of day, or both. -/
def isMoment (word : List Char) : Bool :=
  match date? word with
  | some [] => true
  | some (c :: rest) =>
    (c = 'T' || c = 't' || c = ' ')
      && (match time? rest with
          | some rest => isOffset rest
          | none => false)
  | none => time? word = some []

/-- Whether a character may stand in a word. -/
def isWordChar (c : Char) : Bool :=
  c.isAlphanum || c = '_' || c = '+' || c = '-' || c = '.' || c = ':'

/-- The word at the head of the input. A date and a time of day may have a
space between them. -/
def word (input : List Char) : List Char × List Char :=
  let (first, rest) := input.span isWordChar
  match rest with
  | ' ' :: a :: b :: ':' :: _ =>
    if date? first = some [] ∧ a.isDigit ∧ b.isDigit then
      let (second, rest) := (rest.drop 1).span isWordChar
      (first ++ ' ' :: second, rest)
    else (first, rest)
  | _ => (first, rest)

end QuorumStore.Toml
