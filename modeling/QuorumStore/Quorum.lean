import QuorumStore.Fault
import QuorumStore.Names

/-!
# Quorums

How many of the contacted nodes have to succeed. The share that consensus asks
for is a quotient of doubles; the comparison is made here in exact arithmetic
on natural numbers, and it is the same comparison: a quotient rounds to at
least the threshold exactly when it is at least the midpoint below it, since
the threshold has an even significand.
-/

namespace QuorumStore

/-- The least agreement that an operation accepts. -/
inductive Quorum where
  /-- One success is enough. -/
  | one
  /-- Every contacted node has to succeed. -/
  | strong
  /-- A majority of the contacted nodes has to succeed. -/
  | consensus
  deriving DecidableEq, Repr, Inhabited

/-- The smallest number that is more than half of `n`. -/
def majority (n : Nat) : Nat := n / 2 + 1

/-- The double nearest to a natural number; a tie goes to the even significand. -/
def nearestDouble (n : Nat) : Nat :=
  if n < Nat.pow 2 53 then n
  else
    let unit := Nat.pow 2 (n.log2 - 52)
    let quotient := n / unit
    let rest := 2 * (n % unit)
    if rest < unit ∨ (rest = unit ∧ quotient % 2 = 0) then quotient * unit
    else (quotient + 1) * unit

/-- The midpoint between the double nearest to fifty-one hundredths and the
double before it, in units of which `2 ^ 54` make one. -/
def shareMidpoint : Nat := 9187343239835811

namespace Quorum

/-- Whether `returned` successes out of `total` contacted nodes are enough. -/
def met : Quorum → (total returned : Nat) → Bool
  | one, _, returned => decide (0 < returned)
  | strong, total, returned => decide (returned = total)
  | consensus, total, returned =>
    decide (0 < total) &&
      decide (shareMidpoint * nearestDouble total ≤ Nat.pow 2 54 * nearestDouble returned)

/-- The name of a quorum. -/
def name : Quorum → String
  | one => "one"
  | strong => "strong"
  | consensus => "consensus"

/-- The quorum of a name, exactly as written. -/
def ofName? : String → Option Quorum
  | "one" => some one
  | "strong" => some strong
  | "consensus" => some consensus
  | _ => none

/-- The quorum of a name in any case. -/
def parse (text : String) : Except Fault Quorum :=
  let text := lowerAscii text
  match ofName? text with
  | some q => .ok q
  | none => .error (.invalidState s!"unknown quorum '{text}'")

end Quorum

/-- What a member of the cluster does. -/
inductive Role where
  /-- It holds data. -/
  | store
  /-- It coordinates and holds no data. -/
  | client
  deriving DecidableEq, Repr, Inhabited

namespace Role

/-- The name of a role. -/
def name : Role → String
  | store => "store"
  | client => "client"

/-- The role of a name, exactly as written. -/
def ofName? : String → Option Role
  | "store" => some store
  | "client" => some client
  | _ => none

/-- The role of a name in any case. -/
def parse (text : String) : Except Fault Role :=
  let text := lowerAscii text
  match ofName? text with
  | some r => .ok r
  | none => .error (.invalidState s!"unknown peer type '{text}'")

end Role

end QuorumStore
