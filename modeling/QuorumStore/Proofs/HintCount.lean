import Mathlib.Data.Nat.Count
import QuorumStore.Proofs.HintUnion

/-!
# Counting the bits of a hint

The number of bits set in a hint counts its row of bits from the first word to the
last. So it grows whenever a bit is set that was clear: when an item is recorded
that the hint does not hold, and when a union changes the hint.
-/

namespace QuorumStore.Hint

/-! ## The number of bits set -/

/-- Counting the numbers below a bound needs to know them below the bound only. -/
theorem count_congr {p q : Nat → Bool} {n : Nat} (h : ∀ i < n, p i = q i) :
    Nat.count (p · = true) n = Nat.count (q · = true) n := by
  refine Nat.le_antisymm (Nat.count_mono_left fun i hi hp => ?_)
    (Nat.count_mono_left fun i hi hq => ?_)
  · rw [← h i hi]
    exact hp
  · rw [h i hi]
    exact hq

/-- Shifting a word down brings the bit with the given number to the lowest place. -/
theorem shiftRight_and_one (w : UInt64) {i : Nat} (h : i < 64) :
    ((w >>> UInt64.ofNat i) &&& 1 == 1) = w.toNat.testBit i := by
  have hi : i % 2 ^ 64 % 64 = i := by omega
  have hbit : ((w >>> UInt64.ofNat i) &&& 1).toNat = (w.toNat.testBit i).toNat := by
    rw [UInt64.toNat_and, UInt64.toNat_shiftRight, UInt64.toNat_ofNat', hi, UInt64.toNat_one,
      Nat.and_one_is_mod, Nat.toNat_testBit, Nat.shiftRight_eq_div_pow]
  rw [Bool.eq_iff_iff, beq_iff_eq, ← UInt64.toNat_inj, hbit, UInt64.toNat_one]
  cases w.toNat.testBit i <;> decide

/-- The number of bits set in a word counts its row of 64 bits. -/
theorem wordOnes_eq (w : UInt64) : wordOnes w = Nat.count (w.toNat.testBit · = true) 64 := by
  rw [wordOnes, Nat.count]
  refine List.countP_congr fun i hi => ?_
  rw [shiftRight_and_one w (List.mem_range.1 hi), decide_eq_true_eq]

/-- The bits of words that are followed by another word. -/
theorem bit_concat (words : List UInt64) (w : UInt64) (i : Nat) :
    bit (words ++ [w]).toArray i
      = if i < 64 * words.length then bit words.toArray i
        else decide (i < 64 * words.length + 64) && w.toNat.testBit (i % 64) := by
  rw [bit_eq, bit_eq, List.getElem?_toArray, List.getElem?_toArray]
  split_ifs with h
  · rw [List.getElem?_append_left (by omega)]
  · by_cases hlast : i / 64 = words.length
    · have hlt : i < 64 * words.length + 64 := by omega
      simp [hlast, hlt]
    · have hbeyond : ¬ i < 64 * words.length + 64 := by omega
      rw [List.getElem?_eq_none (by rw [List.length_append, List.length_singleton]; omega)]
      simp [hbeyond]

/-- The words are counted in turn, and so are their bits. -/
theorem foldl_wordOnes (words : List UInt64) :
    words.foldl (fun n w => n + wordOnes w) 0
      = Nat.count (bit words.toArray · = true) (64 * words.length) := by
  induction words using List.reverseRecOn with
  | nil => rfl
  | append_singleton words w ih =>
    have hlow : Nat.count (bit (words ++ [w]).toArray · = true) (64 * words.length)
        = Nat.count (bit words.toArray · = true) (64 * words.length) :=
      count_congr fun i hi => by rw [bit_concat, if_pos hi]
    have hhigh : Nat.count (fun i => bit (words ++ [w]).toArray (64 * words.length + i) = true) 64
        = Nat.count (w.toNat.testBit · = true) 64 := by
      refine count_congr fun i hi => ?_
      have hmod : (64 * words.length + i) % 64 = i := by omega
      rw [bit_concat, if_neg (by omega), hmod]
      simp [hi]
    rw [List.foldl_append, ih, List.length_append, List.length_singleton, Nat.mul_add, Nat.mul_one,
      Nat.count_add, hlow, hhigh, ← wordOnes_eq]
    rfl

/-- The number of bits set counts the row of bits. -/
theorem ones_eq_count (hint : Hint) :
    hint.ones = Nat.count (bit hint.words · = true) (64 * hint.words.size) := by
  rw [ones, ← Array.foldl_toList, foldl_wordOnes, Array.toArray_toList, Array.length_toList]

/-- A bit that is set lies in one of the words. -/
theorem lt_of_bit {words : Array UInt64} {i : Nat} (h : bit words i = true) :
    i < 64 * words.size := by
  by_contra hbeyond
  rw [bit_eq, Array.getElem?_eq_none (by omega)] at h
  cases h

/-- No bit is counted exactly when none is set. -/
theorem ones_eq_zero_iff (hint : Hint) : hint.ones = 0 ↔ ∀ i, bit hint.words i = false := by
  rw [ones_eq_count, Nat.count_iff_forall_not]
  constructor
  · intro h i
    by_contra hset
    rw [Bool.not_eq_false] at hset
    exact h i (lt_of_bit hset) hset
  · intro h i _ hset
    rw [h i] at hset
    cases hset

/-- A hint that has another bit besides those of a hint as long has more of them. -/
theorem ones_lt_of_bit {a b : Hint} (hsize : a.words.size = b.words.size)
    (hkept : ∀ i, bit a.words i = true → bit b.words i = true) {i : Nat}
    (hclear : bit a.words i = false) (hset : bit b.words i = true) : a.ones < b.ones := by
  rw [ones_eq_count, ones_eq_count, Nat.count_eq_card_filter_range,
    Nat.count_eq_card_filter_range, hsize]
  refine Finset.card_lt_card ((Finset.ssubset_iff_of_subset fun j hj => ?_).2 ⟨i, ?_, ?_⟩)
  · rw [Finset.mem_filter] at hj ⊢
    exact ⟨hj.1, hkept j hj.2⟩
  · exact Finset.mem_filter.2 ⟨Finset.mem_range.2 (lt_of_bit hset), hset⟩
  · intro hin
    rw [Finset.mem_filter, hclear] at hin
    cases hin.2

/-! ## Items and unions -/

/-- A hint that does not hold an item has one of its probes clear. -/
theorem exists_clear_probe {hint : Hint} {item : Bytes} (h : hint.contains item = false) :
    ∃ j < hint.recursions.toNat,
      bit hint.words (position hint.capacity (digests item) j) = false := by
  by_contra hnone
  have hall : hint.contains item = true := contains_iff.2 fun j hj => by
    by_contra hclear
    rw [Bool.not_eq_true] at hclear
    exact hnone ⟨j, hj, hclear⟩
  rw [h] at hall
  cases hall

/-- Recording an item that the hint does not hold sets a bit. -/
theorem ones_lt_add {hint : Hint} {item : Bytes} (h : hint.contains item = false) :
    hint.ones < (hint.add item).ones := by
  obtain ⟨j, hj, hclear⟩ := exists_clear_probe h
  have hsize : hint.words.size = (hint.add item).words.size := by
    rw [hint.size_words, (hint.add item).size_words]
    rfl
  exact ones_lt_of_bit hsize (fun _ => bit_add hint item) hclear
    (bit_position_setProbes hint.capacity_pos _ _ 0 hint.size_words (Nat.zero_le j)
      (by rw [Nat.zero_add]; exact hj))

/-- Words with the same bits are the same. -/
theorem words_eq_of_bit {a b : Array UInt64} (hsize : a.size = b.size)
    (h : ∀ i, bit a i = bit b i) : a = b := by
  refine Array.ext hsize fun k hka hkb => ?_
  refine UInt64.toNat_inj.1 (Nat.eq_of_testBit_eq fun j => ?_)
  by_cases hj : j < 64
  · have hword : (64 * k + j) / 64 = k := by omega
    have hplace : (64 * k + j) % 64 = j := by omega
    have hsame := h (64 * k + j)
    rw [bit_eq, bit_eq, hword, hplace, Array.getElem?_eq_getElem hka,
      Array.getElem?_eq_getElem hkb] at hsame
    exact hsame
  · have hbound (w : UInt64) : w.toNat.testBit j = false :=
      Nat.testBit_lt_two_pow (Nat.lt_of_lt_of_le w.toNat_lt (Nat.pow_le_pow_right (by omega)
        (by omega)))
    rw [hbound, hbound]

/-- A union that changes a hint sets a bit that was clear. -/
theorem exists_bit_of_changed {a b c : Hint} (h : a.union b = .ok (c, true)) :
    ∃ i, bit a.words i = false ∧ bit c.words i = true := by
  obtain ⟨hshape, hsame, hbits⟩ := of_union h
  have hsize : c.words.size = a.words.size := by
    rw [a.size_words, c.size_words, hsame.1]
  have hchanged : c.words ≠ a.words := by
    have hboth : a.capacity = b.capacity ∧ a.recursions = b.recursions := hshape
    rw [union_eq_ok_iff, unite, dif_pos hboth] at h
    obtain ⟨hne, hc⟩ := Prod.mk.inj h
    rw [Except.ok.injEq, bne_iff_ne] at hne
    rw [← hc]
    exact hne
  -- words that differ differ in a bit, and a union only sets bits
  have hdiffer : ∃ i, bit c.words i ≠ bit a.words i := by
    by_contra hnone
    exact hchanged (words_eq_of_bit hsize fun i => by
      by_contra hne
      exact hnone ⟨i, hne⟩)
  obtain ⟨i, hi⟩ := hdiffer
  have hclear : bit a.words i = false := by
    by_contra hset
    rw [Bool.not_eq_false] at hset
    exact hi (by rw [hbits, hset, Bool.true_or])
  rw [hclear, Bool.ne_false_iff] at hi
  exact ⟨i, hclear, hi⟩

/-- So the number of bits set grows. -/
theorem ones_lt_union {a b c : Hint} (h : a.union b = .ok (c, true)) :
    c.SameShape a ∧ a.ones < c.ones := by
  obtain ⟨-, hsame, hbits⟩ := of_union h
  obtain ⟨i, hclear, hset⟩ := exists_bit_of_changed h
  have hsize : a.words.size = c.words.size := by
    rw [a.size_words, c.size_words, hsame.1]
  exact ⟨hsame, ones_lt_of_bit hsize (fun j hj => by rw [hbits, hj, Bool.true_or]) hclear hset⟩

end QuorumStore.Hint
