/-!
# Byte strings

Byte strings are lists of octets. The two directions of the little-endian
number format are here, with the law that a number written in enough octets is
read back, and the octets of a text.
-/

namespace QuorumStore

/-- A byte string. -/
abbrev Bytes := List UInt8

namespace Bytes

/-- The octets of a text in UTF-8. -/
def ofText (text : String) : Bytes := text.toUTF8.data.toList

/-- The number whose least significant octet comes first. -/
def toNat : Bytes → Nat
  | [] => 0
  | b :: rest => b.toNat + 256 * toNat rest

/-- A number in exactly `width` octets, least significant first; what does not
fit is dropped. -/
def ofNat : (width : Nat) → Nat → Bytes
  | 0, _ => []
  | width + 1, n => UInt8.ofNat (n % 256) :: ofNat width (n / 256)

/-- The number of byte strings of a length. -/
def span : (width : Nat) → Nat
  | 0 => 1
  | width + 1 => 256 * span width

@[simp] theorem length_ofNat (width n : Nat) : (ofNat width n).length = width := by
  induction width generalizing n with
  | zero => rfl
  | succ width ih => simp [ofNat, ih]

/-- A byte string stands for one of as many numbers as there are byte strings of
its length. -/
theorem toNat_lt (bytes : Bytes) : toNat bytes < span bytes.length := by
  induction bytes with
  | nil => simp [toNat, span]
  | cons b rest ih =>
    have hb : b.toNat < 256 := b.toNat_lt
    simp only [toNat, List.length_cons, span]
    omega

/-- Reading what was written gives the number modulo the count of byte strings of
that width. -/
theorem toNat_ofNat (width n : Nat) : toNat (ofNat width n) = n % span width := by
  induction width generalizing n with
  | zero => simp [ofNat, toNat, span, Nat.mod_one]
  | succ width ih =>
    have hb : (UInt8.ofNat (n % 256)).toNat = n % 256 := by
      simp [UInt8.toNat_ofNat']
    rw [ofNat, toNat, ih, hb, span, Nat.mod_mul]

/-- Writing what was read gives the same octets. -/
theorem ofNat_toNat (bytes : Bytes) : ofNat bytes.length (toNat bytes) = bytes := by
  induction bytes with
  | nil => rfl
  | cons b rest ih =>
    have hb : b.toNat < 256 := b.toNat_lt
    have hm : (b.toNat + 256 * toNat rest) % 256 = b.toNat := by omega
    have hd : (b.toNat + 256 * toNat rest) / 256 = toNat rest := by omega
    simp only [List.length_cons, toNat, ofNat, hm, hd, ih, UInt8.ofNat_toNat]

end Bytes

end QuorumStore
