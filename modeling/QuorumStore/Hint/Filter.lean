import QuorumStore.Fault
import QuorumStore.Hash.Murmur

/-!
# Membership hints

A hint is a Bloom filter over keys: an item sets a fixed number of bits, and a
filter that lacks one of them has never seen the item. Filters of one shape are
united bit by bit. The bits are kept in words of 64, the lowest bit first, and
the last word may have bits that no item ever reaches.
-/

namespace QuorumStore

/-- The number of words that hold a number of bits. -/
def wordCount (bits : UInt64) : Nat := (bits.toNat + 63) / 64

/-- A Bloom filter. -/
structure Hint where
  /-- The number of bits that items can reach. -/
  capacity : UInt64
  /-- The number of positions per item. -/
  recursions : UInt64
  /-- The bits. -/
  words : Array UInt64
  /-- There is a bit to reach. -/
  capacity_pos : 0 < capacity
  /-- An item has a position. -/
  recursions_pos : 0 < recursions
  /-- The words are as many as the bits need. -/
  size_words : words.size = wordCount capacity

namespace Hint

/-- The filter without items. -/
def blank (capacity recursions : UInt64) (hc : 0 < capacity) (hr : 0 < recursions) : Hint :=
  ⟨capacity, recursions, Array.replicate (wordCount capacity) 0, hc, hr, by simp⟩

/-- The filter without items, if both of its parameters are positive. -/
def new (capacity recursions : UInt64) : Except Abort Hint :=
  if hc : 0 < capacity then
    if hr : 0 < recursions then .ok (blank capacity recursions hc hr)
    else .error .noRecursions
  else .error .noCapacity

/-- The digests of an item, and of the item with a one after it. -/
structure Digests where
  /-- The digest of the item. -/
  plain : Murmur.Pair
  /-- The digest of the item with a one after it. -/
  salted : Murmur.Pair

/-- The digests of an item. -/
def digests (item : Bytes) : Digests := ⟨Murmur.digest128 item, Murmur.digest128 (item ++ [1])⟩

/-- The position of an item's probe with the given number: start and stride are
taken in turn from its digests. -/
def position (capacity : UInt64) (d : Digests) (i : Nat) : Nat :=
  let start := if i % 2 = 0 then d.plain.low else d.plain.high
  let stride := if (i + i % 2) % 4 / 2 = 0 then d.salted.low else d.salted.high
  ((start + UInt64.ofNat i * stride) % capacity).toNat

/-- The bit of a word with the given number. -/
def wordBit (i : Nat) : UInt64 := 1 <<< UInt64.ofNat (i % 64)

/-- Whether a bit is set. -/
def bit (words : Array UInt64) (i : Nat) : Bool :=
  match words[i / 64]? with
  | some w => w &&& wordBit i != 0
  | none => false

/-- Set a bit. -/
def setBit (words : Array UInt64) (i : Nat) : Array UInt64 :=
  words.modify (i / 64) (· ||| wordBit i)

/-- Set the bits of the next `count` probes, the first of which has number `i`. -/
def setProbes (capacity : UInt64) (d : Digests) : (count i : Nat) → Array UInt64 → Array UInt64
  | 0, _, words => words
  | count + 1, i, words => setProbes capacity d count (i + 1) (setBit words (position capacity d i))

/-- Whether the bits of the next `count` probes are set, the first of which has
number `i`. -/
def testProbes (capacity : UInt64) (d : Digests) (words : Array UInt64) : (count i : Nat) → Bool
  | 0, _ => true
  | count + 1, i =>
    bit words (position capacity d i) && testProbes capacity d words count (i + 1)

@[simp] theorem size_setBit (words : Array UInt64) (i : Nat) :
    (setBit words i).size = words.size := by simp [setBit]

@[simp] theorem size_setProbes (capacity : UInt64) (d : Digests) (count i : Nat)
    (words : Array UInt64) : (setProbes capacity d count i words).size = words.size := by
  induction count generalizing i words with
  | zero => rfl
  | succ count ih => simp [setProbes, ih]

/-- Record an item. -/
def add (hint : Hint) (item : Bytes) : Hint :=
  { hint with
    words := setProbes hint.capacity (digests item) hint.recursions.toNat 0 hint.words
    size_words := by simp [hint.size_words] }

/-- Whether an item may have been recorded. -/
def contains (hint : Hint) (item : Bytes) : Bool :=
  testProbes hint.capacity (digests item) hint.words hint.recursions.toNat 0

/-- The number of bits set in a word. -/
def wordOnes (w : UInt64) : Nat :=
  (List.range 64).countP fun i => (w >>> UInt64.ofNat i) &&& 1 == 1

/-- The number of bits set. -/
def ones (hint : Hint) : Nat := hint.words.foldl (fun n w => n + wordOnes w) 0

/-- Whether two filters have the same parameters and the same bits. -/
def same (a b : Hint) : Bool :=
  a.capacity == b.capacity && a.recursions == b.recursions && a.words == b.words

/-- Take another filter in. The answer says whether that changed a bit, and what the
filter is afterwards; a filter of another shape is refused. -/
def unite (hint other : Hint) : Except Fault Bool × Hint :=
  if h : hint.capacity = other.capacity ∧ hint.recursions = other.recursions then
    let words := Array.zipWith (· ||| ·) hint.words other.words
    (.ok (words != hint.words),
      { hint with
        words := words
        size_words := by simp [words, hint.size_words, other.size_words, h.1] })
  else
    let mine := s!"({hint.capacity}, {hint.recursions})"
    let theirs := s!"({other.capacity}, {other.recursions})"
    (.error (.hint s!"cannot union filter {mine} with {theirs}"), hint)

/-- The filter with the bits of both, and whether that changed the first.
Filters of different shapes have no union. -/
def union (hint other : Hint) : Except Fault (Hint × Bool) :=
  match hint.unite other with
  | (.ok changed, joined) => .ok (joined, changed)
  | (.error fault, _) => .error fault

end Hint

end QuorumStore
