import QuorumStore.Json.Value

/-!
# JSON text of a value

The text is compact: no blank stands between tokens. Quotes, backslashes and
control characters of a text are escaped and all other characters stand for
themselves.
-/

namespace QuorumStore.Json

/-- The hexadecimal digit of a number below sixteen. -/
def hexDigit (n : Nat) : Char :=
  if n < 10 then Char.ofNat (48 + n) else Char.ofNat (87 + n)

/-- One character inside a quoted text. -/
def escapeChar (c : Char) : List Char :=
  if c = '"' then ['\\', '"']
  else if c = '\\' then ['\\', '\\']
  else if c = '\n' then ['\\', 'n']
  else if c = '\r' then ['\\', 'r']
  else if c = '\t' then ['\\', 't']
  else if c.toNat < 32 then
    ['\\', 'u', '0', '0', hexDigit (c.toNat / 16), hexDigit (c.toNat % 16)]
  else [c]

/-- A text between quotes. -/
def quote (s : String) : String :=
  String.ofList ('"' :: s.toList.flatMap escapeChar ++ ['"'])

mutual

/-- The text of a value. -/
def print : Json → String
  | null => "null"
  | bool true => "true"
  | bool false => "false"
  | int value => toString value
  | real literal => literal
  | text value => quote value
  | array items => "[" ++ String.intercalate "," (printItems items) ++ "]"
  | object fields => "\x7b" ++ String.intercalate "," (printFields fields) ++ "\x7d"

/-- The texts of the items of a list. -/
def printItems : List Json → List String
  | [] => []
  | item :: rest => print item :: printItems rest

/-- The texts of the fields of an object. -/
def printFields : List (String × Json) → List String
  | [] => []
  | (name, value) :: rest => (quote name ++ ":" ++ print value) :: printFields rest

end

end QuorumStore.Json
