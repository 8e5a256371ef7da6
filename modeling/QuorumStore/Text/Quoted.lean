import QuorumStore.Json.Printer
import QuorumStore.Text.Printable

/-!
# Quoted diagnostic text

The form in which a text is shown inside a diagnostic: between double quotes,
with quotes and backslashes escaped, four control characters by letter, and any
other character that is not printable by its number.
-/

namespace QuorumStore.Text

/-- The hexadecimal digits of a number, none for zero. -/
def hexDigits (n : Nat) : List Char :=
  (go 8 n []).dropWhile (· = '0')
where
  /-- The given number of digits, in front of those already there. -/
  go : Nat → Nat → List Char → List Char
    | 0, _, done => done
    | k + 1, n, done => go k (n / 16) (Json.hexDigit (n % 16) :: done)

/-- One character between the quotes. -/
def quoteChar (c : Char) : List Char :=
  if c = '"' then ['\\', '"']
  else if c = '\\' then ['\\', '\\']
  else if c = '\n' then ['\\', 'n']
  else if c = '\r' then ['\\', 'r']
  else if c = '\t' then ['\\', 't']
  else if c = '\x00' then ['\\', '0']
  else if isPrintable c then [c]
  else ['\\', 'u', '{'] ++ hexDigits c.toNat ++ ['}']

/-- A text between quotes. -/
def quote (s : String) : String :=
  String.ofList ('"' :: s.toList.flatMap quoteChar ++ ['"'])

end QuorumStore.Text
