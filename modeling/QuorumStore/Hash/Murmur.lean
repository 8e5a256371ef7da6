import QuorumStore.Bytes

/-!
# Murmur hashing with seed zero

Two digests of a byte string: the 32-bit one places hosts and keys, the 128-bit
one, kept as two words, places keys inside a membership hint. Every member of a
cluster computes the same numbers. Nothing here claims that digests differ.
-/

namespace QuorumStore.Murmur

/-- Rotate a 32-bit word left; the distance lies strictly between 0 and 32. -/
def rotate32 (x : UInt32) (n : UInt32) : UInt32 := (x <<< n) ||| (x >>> (32 - n))

/-- Rotate a 64-bit word left; the distance lies strictly between 0 and 64. -/
def rotate64 (x : UInt64) (n : UInt64) : UInt64 := (x <<< n) ||| (x >>> (64 - n))

/-! ## The 32-bit digest -/

/-- Spread one 32-bit block before it meets the state. -/
def scramble32 (k : UInt32) : UInt32 := rotate32 (k * 0xcc9e2d51) 15 * 0x1b873593

/-- Take one full block into the state. -/
def absorb32 (h k : UInt32) : UInt32 := rotate32 (h ^^^ scramble32 k) 13 * 5 + 0xe6546b64

/-- Take every full block of four octets, then the one to three octets left. -/
def blocks32 : UInt32 → Bytes → UInt32
  | h, a :: b :: c :: d :: rest =>
    blocks32 (absorb32 h (UInt32.ofNat (Bytes.toNat [a, b, c, d]))) rest
  | h, [] => h
  | h, tail => h ^^^ scramble32 (UInt32.ofNat (Bytes.toNat tail))

/-- Make every bit of the state depend on every other. -/
def avalanche32 (h : UInt32) : UInt32 :=
  let h := (h ^^^ (h >>> 16)) * 0x85ebca6b
  let h := (h ^^^ (h >>> 13)) * 0xc2b2ae35
  h ^^^ (h >>> 16)

/-- The 32-bit digest of a byte string; that of the empty one is zero. -/
def digest32 : Bytes → UInt32
  | [] => 0
  | b :: rest => avalanche32 (blocks32 0 (b :: rest) ^^^ UInt32.ofNat (rest.length + 1))

/-! ## The 128-bit digest -/

/-- The two words that a 128-bit digest is built in. -/
structure Pair where
  /-- The first half. -/
  low : UInt64
  /-- The second half. -/
  high : UInt64
  deriving DecidableEq, Repr

/-- Spread the first word of a block. -/
def scrambleLow (k : UInt64) : UInt64 :=
  rotate64 (k * 0x87c37b91114253d5) 31 * 0x4cf5ad432745937f

/-- Spread the second word of a block. -/
def scrambleHigh (k : UInt64) : UInt64 :=
  rotate64 (k * 0x4cf5ad432745937f) 33 * 0x87c37b91114253d5

/-- Take one full block, given as its two words. -/
def absorb128 (h : Pair) (k₁ k₂ : UInt64) : Pair :=
  let low := (rotate64 (h.low ^^^ scrambleLow k₁) 27 + h.high) * 5 + 0x52dce729
  let high := (rotate64 (h.high ^^^ scrambleHigh k₂) 31 + low) * 5 + 0x38495ab5
  ⟨low, high⟩

/-- The word in the first eight octets of a byte string, or in all of it when
it is shorter. -/
def word (bytes : Bytes) : UInt64 := UInt64.ofNat (Bytes.toNat (bytes.take 8))

/-- Take the given number of full blocks of sixteen octets, then the octets
left. A word of the tail that has no octets leaves its half unchanged. -/
def blocks128 : Nat → Pair → Bytes → Pair
  | 0, h, tail => ⟨h.low ^^^ scrambleLow (word tail), h.high ^^^ scrambleHigh (word (tail.drop 8))⟩
  | n + 1, h, bytes => blocks128 n (absorb128 h (word bytes) (word (bytes.drop 8))) (bytes.drop 16)

/-- Make every bit of one half depend on every other. -/
def avalanche64 (k : UInt64) : UInt64 :=
  let k := (k ^^^ (k >>> 33)) * 0xff51afd7ed558ccd
  let k := (k ^^^ (k >>> 33)) * 0xc4ceb9fe1a85ec53
  k ^^^ (k >>> 33)

/-- The 128-bit digest of a byte string; both words of that of the empty one are zero. -/
def digest128 : Bytes → Pair
  | [] => ⟨0, 0⟩
  | b :: rest =>
    let size := UInt64.ofNat (rest.length + 1)
    let h := blocks128 ((rest.length + 1) / 16) ⟨0, 0⟩ (b :: rest)
    let low := h.low ^^^ size
    let high := h.high ^^^ size
    let low := low + high
    let high := high + low
    let low := avalanche64 low
    let high := avalanche64 high
    let low := low + high
    ⟨low, high + low⟩

/-- The digest of a text's octets. -/
def textDigest (text : String) : UInt32 := digest32 (Bytes.ofText text)

end QuorumStore.Murmur
