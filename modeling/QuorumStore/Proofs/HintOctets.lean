import Mathlib.Algebra.Order.Floor.Div
import QuorumStore.Proofs.HintUnion

/-!
# The octets that are a hint

A hint has one form in octets, and octets are a hint exactly when they are complete:
both parameters, neither of them zero, and all the words that the declared capacity
needs, no octet more or less. Whatever capacity is declared, the size of its words is
computed in 64 bits without an overflow.
-/

namespace QuorumStore.Hint

variable {data : Bytes} {hint : Hint}

/-- The capacity that octets declare. -/
def declaredCapacity (data : Bytes) : Nat := Bytes.toNat (data.take 8)

/-- The recursions that octets declare. -/
def declaredRecursions (data : Bytes) : Nat := Bytes.toNat ((data.drop 8).take 8)

/-- The words that octets declare, one for every 64 bits of the capacity or part of them. -/
def declaredWords (data : Bytes) : Nat := declaredCapacity data ⌈/⌉ 64

/-- The octets have a whole header, which declares positive parameters, and after it
the words that the capacity needs. -/
structure Complete (data : Bytes) : Prop where
  /-- The header is whole. -/
  header : headerSize ≤ data.length
  /-- There is a bit to reach. -/
  capacity : declaredCapacity data ≠ 0
  /-- An item has a position. -/
  recursions : declaredRecursions data ≠ 0
  /-- Every word has eight octets. -/
  words : (data.drop headerSize).length = 8 * declaredWords data

/-! ## Numbers in eight octets -/

theorem toNat_lt_of_length_le {bytes : Bytes} (h : bytes.length ≤ 8) :
    Bytes.toNat bytes < 2 ^ 64 := by
  have hspan : ∀ n ≤ 8, Bytes.span n ≤ 2 ^ 64 := by decide
  exact Nat.lt_of_lt_of_le (Bytes.toNat_lt bytes) (hspan _ h)

/-- A number of at most eight octets is a word. -/
theorem toNat_word {bytes : Bytes} (h : bytes.length ≤ 8) :
    (UInt64.ofNat (Bytes.toNat bytes)).toNat = Bytes.toNat bytes := by
  rw [UInt64.toNat_ofNat', Nat.mod_eq_of_lt (toNat_lt_of_length_le h)]

/-- Eight octets are written as they were read. -/
theorem ofNat_toNat_word {bytes : Bytes} (h : bytes.length = 8) :
    Bytes.ofNat 8 (UInt64.ofNat (Bytes.toNat bytes)).toNat = bytes := by
  rw [toNat_word (Nat.le_of_eq h), ← h, Bytes.ofNat_toNat]

theorem toNat_capacity (data : Bytes) :
    (UInt64.ofNat (declaredCapacity data)).toNat = declaredCapacity data :=
  toNat_word (List.length_take_le 8 data)

theorem toNat_recursions (data : Bytes) :
    (UInt64.ofNat (declaredRecursions data)).toNat = declaredRecursions data :=
  toNat_word (List.length_take_le 8 (data.drop 8))

/-- Words are written as they were read. -/
theorem flatMap_readWords {n : Nat} {bytes : Bytes} (h : bytes.length = 8 * n) :
    ((readWords n bytes).flatMap fun w => Bytes.ofNat 8 w.toNat) = bytes := by
  induction n generalizing bytes with
  | zero => rw [List.length_eq_zero_iff.1 h, readWords, List.flatMap_nil]
  | succ n ih =>
    have hfirst : (bytes.take 8).length = 8 := by
      rw [List.length_take]
      omega
    have hrest : (bytes.drop 8).length = 8 * n := by
      rw [List.length_drop]
      omega
    rw [readWords, List.flatMap_cons, ofNat_toNat_word hfirst, ih hrest, List.take_append_drop]

/-! ## The size of the words -/

/-- The number of words is the capacity in words, rounded up. -/
theorem wordCount_eq (capacity : UInt64) : wordCount capacity = capacity.toNat ⌈/⌉ 64 := by
  rw [Nat.ceilDiv_eq_add_pred_div, wordCount, Nat.add_sub_assoc (by decide)]

/-- The number of octets of the words for a capacity, computed in 64 bits: the words
that are full, one more for bits left over, and eight octets for each. -/
def bodySize (capacity : UInt64) : UInt64 :=
  (capacity / 64 + if capacity % 64 = 0 then 0 else 1) * 8

/-- The computation does not overflow for any capacity. -/
theorem toNat_bodySize (capacity : UInt64) :
    (bodySize capacity).toNat = 8 * (capacity.toNat ⌈/⌉ 64) := by
  have hlt : capacity.toNat < 2 ^ 64 := capacity.toNat_lt
  have hmod : capacity % 64 = 0 ↔ capacity.toNat % 64 = 0 := by
    rw [← UInt64.toNat_inj, UInt64.toNat_mod]
    rfl
  rw [← wordCount_eq, wordCount, bodySize, UInt64.toNat_mul, UInt64.toNat_add, UInt64.toNat_div]
  by_cases hz : capacity % 64 = 0
  · have hz' := hmod.1 hz
    rw [if_pos hz]
    change (capacity.toNat / 64 + 0) % 2 ^ 64 * 8 % 2 ^ 64 = _
    omega
  · have hz' := mt hmod.2 hz
    rw [if_neg hz]
    change (capacity.toNat / 64 + 1) % 2 ^ 64 * 8 % 2 ^ 64 = _
    omega

/-! ## Reading octets -/

theorem parameters_pos_iff (data : Bytes) :
    (0 < UInt64.ofNat (declaredCapacity data) ∧ 0 < UInt64.ofNat (declaredRecursions data)) ↔
      declaredCapacity data ≠ 0 ∧ declaredRecursions data ≠ 0 := by
  rw [UInt64.lt_iff_toNat_lt, UInt64.lt_iff_toNat_lt, toNat_capacity, toNat_recursions]
  exact and_congr Nat.pos_iff_ne_zero Nat.pos_iff_ne_zero

theorem wordCount_declared (data : Bytes) :
    wordCount (.ofNat (declaredCapacity data)) = declaredWords data := by
  rw [wordCount_eq, toNat_capacity, declaredWords]

/-- Octets that end before the header does are refused as too short. -/
theorem ofBytes_of_short (h : data.length < headerSize) :
    ofBytes data = .error (.short data.length) :=
  if_pos h

/-- A header that declares a zero is refused, whatever follows. -/
theorem ofBytes_of_zero (hheader : headerSize ≤ data.length)
    (h : declaredCapacity data = 0 ∨ declaredRecursions data = 0) :
    ofBytes data = .error (.zeroParameter (.ofNat (declaredCapacity data))
      (.ofNat (declaredRecursions data))) := by
  have hzero := mt (parameters_pos_iff data).1 (by rwa [not_and_or, not_not, not_not])
  rw [ofBytes, if_neg (Nat.not_lt.2 hheader)]
  exact dif_neg hzero

/-- Words that do not fit the declared capacity are refused. -/
theorem ofBytes_of_wrongSize (hheader : headerSize ≤ data.length)
    (hcapacity : declaredCapacity data ≠ 0) (hrecursions : declaredRecursions data ≠ 0)
    (h : (data.drop headerSize).length ≠ 8 * declaredWords data) :
    ofBytes data = .error (.wrongSize (8 * declaredWords data)
      (data.drop headerSize).length) := by
  have hpos := (parameters_pos_iff data).2 ⟨hcapacity, hrecursions⟩
  rw [← wordCount_declared] at h ⊢
  rw [ofBytes, if_neg (Nat.not_lt.2 hheader)]
  exact (dif_pos hpos).trans (if_neg h)

/-- Complete octets are a hint, of which they are the form. -/
theorem exists_ofBytes_of_complete (h : Complete data) :
    ∃ hint, ofBytes data = .ok hint ∧ hint.toBytes = data := by
  have hpos := (parameters_pos_iff data).2 ⟨h.capacity, h.recursions⟩
  have hwords := h.words
  rw [← wordCount_declared] at hwords
  rw [ofBytes, if_neg (Nat.not_lt.2 h.header)]
  refine ⟨_, (dif_pos hpos).trans (if_pos hwords), ?_⟩
  have hfirst : (data.take 8).length = 8 := by
    have hheader : 16 ≤ data.length := h.header
    rw [List.length_take]
    omega
  have hsecond : ((data.drop 8).take 8).length = 8 := by
    have hheader : 16 ≤ data.length := h.header
    rw [List.length_take, List.length_drop]
    omega
  calc Bytes.ofNat 8 (UInt64.ofNat (declaredCapacity data)).toNat
        ++ Bytes.ofNat 8 (UInt64.ofNat (declaredRecursions data)).toNat
        ++ (readWords (wordCount (.ofNat (declaredCapacity data))) (data.drop headerSize)).flatMap
          (fun w => Bytes.ofNat 8 w.toNat)
      = data.take 8 ++ (data.drop 8).take 8 ++ (data.drop 8).drop 8 := by
        rw [flatMap_readWords hwords, declaredCapacity, declaredRecursions,
          ofNat_toNat_word hfirst, ofNat_toNat_word hsecond, List.drop_drop, headerSize]
    _ = data := by rw [List.append_assoc, List.take_append_drop, List.take_append_drop]

/-- Only complete octets are a hint. -/
theorem complete_of_ofBytes (h : ofBytes data = .ok hint) : Complete data := by
  have hheader : headerSize ≤ data.length := by
    by_contra hshort
    rw [ofBytes_of_short (Nat.lt_of_not_le hshort)] at h
    cases h
  have hzero : ¬ (declaredCapacity data = 0 ∨ declaredRecursions data = 0) := fun hzero => by
    rw [ofBytes_of_zero hheader hzero] at h
    cases h
  rw [not_or] at hzero
  refine ⟨hheader, hzero.1, hzero.2, ?_⟩
  by_contra hsize
  rw [ofBytes_of_wrongSize hheader hzero.1 hzero.2 hsize] at h
  cases h

/-- The octets of a hint are read back as it, octets are a hint exactly when they are
complete, which is decided without an overflow whatever they declare, and those that
are a hint are its octets. -/
theorem octets_exact :
    (∀ hint : Hint, ofBytes hint.toBytes = .ok hint) ∧
      ∀ data : Bytes,
        ((∃ hint, ofBytes data = .ok hint) ↔ Complete data) ∧
        (bodySize (.ofNat (declaredCapacity data))).toNat = 8 * declaredWords data ∧
        ∀ hint, ofBytes data = .ok hint → hint.toBytes = data := by
  refine ⟨ofBytes_toBytes, fun data => ⟨⟨?_, fun h => ?_⟩, ?_, fun hint h => ?_⟩⟩
  · rintro ⟨hint, h⟩
    exact complete_of_ofBytes h
  · obtain ⟨hint, hread, -⟩ := exists_ofBytes_of_complete h
    exact ⟨hint, hread⟩
  · rw [toNat_bodySize, toNat_capacity, declaredWords]
  · obtain ⟨other, hread, hbytes⟩ := exists_ofBytes_of_complete (complete_of_ofBytes h)
    rw [h] at hread
    rw [Except.ok.inj hread, hbytes]

/-- A capacity of 100 bits takes two words, and octets with a bit set beyond the 100 are
the form of the hint that they are read as. -/
theorem octets_exact_of_spare_bits :
    ∃ hint, ofBytes [100, 0, 0, 0, 0, 0, 0, 0, 2, 0, 0, 0, 0, 0, 0, 0,
        1, 0, 0, 0, 0, 0, 0, 0, 0, 0, 0, 0, 0, 0, 0, 128] = .ok hint ∧
      hint.toBytes = [100, 0, 0, 0, 0, 0, 0, 0, 2, 0, 0, 0, 0, 0, 0, 0,
        1, 0, 0, 0, 0, 0, 0, 0, 0, 0, 0, 0, 0, 0, 0, 128] := by
  obtain ⟨hiff, -, hform⟩ := octets_exact.2 [100, 0, 0, 0, 0, 0, 0, 0, 2, 0, 0, 0, 0, 0, 0, 0,
    1, 0, 0, 0, 0, 0, 0, 0, 0, 0, 0, 0, 0, 0, 0, 128]
  obtain ⟨hint, hread⟩ := hiff.2 ⟨by decide, by decide, by decide, by decide⟩
  exact ⟨hint, hread, hform hint hread⟩

end QuorumStore.Hint
