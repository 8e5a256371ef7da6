import QuorumStore.Hint.Filter

/-!
# The octets of a hint

A hint travels as its capacity, its recursions and its words, each in eight
octets, least significant first. Octets that are too few, that declare a
parameter of zero, or that do not fit the declared capacity are refused. Bits
beyond the capacity are accepted as they come.
-/

namespace QuorumStore.Hint

/-- The number of octets before the words. -/
def headerSize : Nat := 16

/-- The octets of a filter. -/
def toBytes (hint : Hint) : Bytes :=
  Bytes.ofNat 8 hint.capacity.toNat ++ Bytes.ofNat 8 hint.recursions.toNat
    ++ hint.words.toList.flatMap fun w => Bytes.ofNat 8 w.toNat

/-- The given number of words, eight octets each. -/
def readWords : Nat → Bytes → List UInt64
  | 0, _ => []
  | n + 1, bytes => UInt64.ofNat (Bytes.toNat (bytes.take 8)) :: readWords n (bytes.drop 8)

@[simp] theorem length_readWords (n : Nat) (bytes : Bytes) : (readWords n bytes).length = n := by
  induction n generalizing bytes with
  | zero => rfl
  | succ n ih => simp [readWords, ih]

/-- Why octets are no hint. -/
inductive Malformed where
  /-- The header is not complete. -/
  | short (size : Nat)
  /-- A parameter is zero. -/
  | zeroParameter (capacity recursions : UInt64)
  /-- The words do not fit the capacity. -/
  | wrongSize (expected actual : Nat)
  deriving DecidableEq, Repr

/-- The fault that malformed octets are reported as. -/
def Malformed.fault : Malformed → Fault
  | short size => .hint s!"hint data too short: expected at least {headerSize} bytes, got {size}"
  | zeroParameter capacity recursions =>
    .hint s!"invalid hint parameters: capacity {capacity}, recursions {recursions}"
  | wrongSize expected actual =>
    .hint s!"hint bitset length mismatch: expected {expected} bytes, got {actual}"

/-- The filter that octets describe. -/
def ofBytes (data : Bytes) : Except Malformed Hint :=
  if data.length < headerSize then .error (.short data.length)
  else
    let capacity := UInt64.ofNat (Bytes.toNat (data.take 8))
    let recursions := UInt64.ofNat (Bytes.toNat ((data.drop 8).take 8))
    let body := data.drop headerSize
    if h : 0 < capacity ∧ 0 < recursions then
      if body.length = 8 * wordCount capacity then
        .ok ⟨capacity, recursions, (readWords (wordCount capacity) body).toArray, h.1, h.2, by simp⟩
      else .error (.wrongSize (8 * wordCount capacity) body.length)
    else .error (.zeroParameter capacity recursions)

end QuorumStore.Hint
