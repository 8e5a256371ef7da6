import Mathlib.Data.Nat.Bitwise
import QuorumStore.Hint.Filter

/-!
# The bits of a hint

Words of 64 bits seen as one row of bits: setting a bit sets it and no other,
and every probe of an item falls on a bit that the words have.
-/

namespace QuorumStore.Hint

theorem toNat_wordBit (i : Nat) : (wordBit i).toNat = 2 ^ (i % 64) := by
  have hi : i % 64 < 64 := Nat.mod_lt _ (by omega)
  have hp : 2 ^ (i % 64) < 2 ^ 64 := Nat.pow_lt_pow_right (by omega) hi
  have hm : i % 64 % 2 ^ 64 % 64 = i % 64 := by omega
  rw [wordBit, UInt64.toNat_shiftLeft, UInt64.toNat_ofNat', hm, UInt64.toNat_one,
    Nat.shiftLeft_eq, Nat.one_mul, Nat.mod_eq_of_lt hp]

/-- Masking a word with one bit reads that bit. -/
theorem and_wordBit (w : UInt64) (i : Nat) :
    (w &&& wordBit i != 0) = w.toNat.testBit (i % 64) := by
  have h : (w &&& wordBit i = 0) ↔ w.toNat.testBit (i % 64) = false := by
    rw [← UInt64.toNat_inj, UInt64.toNat_and, toNat_wordBit, Nat.and_two_pow]
    cases w.toNat.testBit (i % 64) <;> simp
  cases hb : w.toNat.testBit (i % 64) with
  | false => simp [h.2 hb]
  | true =>
    have hn : w &&& wordBit i ≠ 0 := fun hz => by
      rw [h.1 hz] at hb
      cases hb
    simpa using hn

/-- Whether a bit is set, read off the word that holds it. -/
theorem bit_eq (words : Array UInt64) (i : Nat) :
    bit words i = (words[i / 64]?).any fun w => w.toNat.testBit (i % 64) := by
  unfold bit
  cases words[i / 64]? with
  | none => rfl
  | some w => exact and_wordBit w i

/-- Setting a bit sets it and no other. -/
theorem bit_setBit (words : Array UInt64) (i j : Nat) (hi : i / 64 < words.size) :
    bit (setBit words i) j = (bit words j || decide (i = j)) := by
  rw [bit_eq, bit_eq, setBit, Array.getElem?_modify]
  by_cases hw : i / 64 = j / 64
  · have hs : words[j / 64]? = some words[i / 64] := by
      rw [← hw]
      exact Array.getElem?_eq_getElem hi
    have hj : i % 64 = j % 64 ↔ i = j := by omega
    simp [hw, hs, toNat_wordBit, Nat.testBit_two_pow, hj]
  · have hne : i ≠ j := fun h => hw (by rw [h])
    simp [hw, hne]

/-- Every probe falls below the capacity. -/
theorem position_lt {capacity : UInt64} (h : 0 < capacity) (d : Digests) (i : Nat) :
    position capacity d i < capacity.toNat := by
  have hc : 0 < capacity.toNat := UInt64.lt_iff_toNat_lt.1 h
  unfold position
  rw [UInt64.toNat_mod]
  exact Nat.mod_lt _ hc

/-- A bit below the capacity lies in one of the words. -/
theorem div_lt_wordCount {capacity : UInt64} {i : Nat} (h : i < capacity.toNat) :
    i / 64 < wordCount capacity := by
  unfold wordCount
  omega

end QuorumStore.Hint
