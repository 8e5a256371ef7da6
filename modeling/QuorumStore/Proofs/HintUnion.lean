import Mathlib.Tactic.SplitIfs
import QuorumStore.Hint.Bits
import QuorumStore.Hint.Octets

/-!
# Hints as sets of bits

Recording an item sets the bits of its probes, so that the item is found again.
This and uniting with another hint set bits and clear none. A hint that travels in
octets arrives as it was sent.
-/

namespace QuorumStore.Hint

/-- Two hints with the same parameters. -/
def SameShape (a b : Hint) : Prop := a.capacity = b.capacity ∧ a.recursions = b.recursions

theorem SameShape.symm {a b : Hint} (h : a.SameShape b) : b.SameShape a := ⟨h.1.symm, h.2.symm⟩

theorem SameShape.trans {a b c : Hint} (h : a.SameShape b) (h' : b.SameShape c) :
    a.SameShape c :=
  ⟨h.1.trans h'.1, h.2.trans h'.2⟩

/-! ## Setting bits -/

theorem bit_replicate_zero (size i : Nat) : bit (Array.replicate size 0) i = false := by
  rw [bit_eq, Array.getElem?_replicate]
  split_ifs <;> simp

/-- The empty hint has no bit set. -/
theorem bit_blank {capacity recursions : UInt64} (hc : 0 < capacity) (hr : 0 < recursions)
    (i : Nat) : bit (blank capacity recursions hc hr).words i = false :=
  bit_replicate_zero _ i

/-- The bits after those of probes were set: the bits before, and the probes. -/
theorem bit_setProbes_iff {capacity : UInt64} (hc : 0 < capacity) (d : Digests)
    (count first : Nat) {words : Array UInt64} (hw : words.size = wordCount capacity) (i : Nat) :
    bit (setProbes capacity d count first words) i = true ↔
      bit words i = true ∨ ∃ j, first ≤ j ∧ j < first + count ∧ position capacity d j = i := by
  induction count generalizing first words with
  | zero =>
    have hnone : ¬ ∃ j, first ≤ j ∧ j < first + 0 ∧ position capacity d j = i := by
      rintro ⟨j, hlow, hhigh, -⟩
      omega
    rw [setProbes, or_iff_left hnone]
  | succ count ih =>
    have hpos : position capacity d first / 64 < words.size := by
      rw [hw]
      exact div_lt_wordCount (position_lt hc d first)
    have hsize : (setBit words (position capacity d first)).size = wordCount capacity := by
      rw [size_setBit, hw]
    rw [setProbes, ih (first + 1) hsize, bit_setBit _ _ _ hpos, Bool.or_eq_true,
      decide_eq_true_eq, or_assoc]
    refine or_congr_right ⟨?_, ?_⟩
    · rintro (hfirst | ⟨j, hlow, hhigh, hj⟩)
      · exact ⟨first, by omega, by omega, hfirst⟩
      · exact ⟨j, by omega, by omega, hj⟩
    · rintro ⟨j, hlow, hhigh, hj⟩
      by_cases he : j = first
      · exact Or.inl (he ▸ hj)
      · exact Or.inr ⟨j, by omega, by omega, hj⟩

/-- Setting the bits of probes clears none. -/
theorem bit_setProbes {capacity : UInt64} (hc : 0 < capacity) (d : Digests) (count first : Nat)
    {words : Array UInt64} (hw : words.size = wordCount capacity) {i : Nat}
    (h : bit words i = true) : bit (setProbes capacity d count first words) i = true :=
  (bit_setProbes_iff hc d count first hw i).2 (Or.inl h)

/-- Recording an item clears no bit. -/
theorem bit_add (hint : Hint) (item : Bytes) {i : Nat} (h : bit hint.words i = true) :
    bit (hint.add item).words i = true :=
  bit_setProbes hint.capacity_pos _ _ 0 hint.size_words h

/-- All probes of an item are set after their bits were. -/
theorem bit_position_setProbes {capacity : UInt64} (hc : 0 < capacity) (d : Digests)
    (count first : Nat) {words : Array UInt64} (hw : words.size = wordCount capacity) {j : Nat}
    (hlow : first ≤ j) (hhigh : j < first + count) :
    bit (setProbes capacity d count first words) (position capacity d j) = true :=
  (bit_setProbes_iff hc d count first hw _).2 (Or.inr ⟨j, hlow, hhigh, rfl⟩)

/-- Testing probes tests their bits. -/
theorem testProbes_iff (capacity : UInt64) (d : Digests) (words : Array UInt64)
    (count first : Nat) :
    testProbes capacity d words count first = true ↔
      ∀ j, first ≤ j → j < first + count → bit words (position capacity d j) = true := by
  induction count generalizing first with
  | zero =>
    refine ⟨fun _ j hlow hhigh => ?_, fun _ => rfl⟩
    omega
  | succ count ih =>
    rw [testProbes, Bool.and_eq_true, ih]
    constructor
    · rintro ⟨hfirst, hrest⟩ j hlow hhigh
      by_cases he : j = first
      · exact he ▸ hfirst
      · exact hrest j (by omega) (by omega)
    · intro h
      exact ⟨h first (Nat.le_refl _) (by omega), fun j hlow hhigh => h j (by omega) (by omega)⟩

/-- An item is found exactly when the bits of all its probes are set. -/
theorem contains_iff {hint : Hint} {item : Bytes} :
    hint.contains item = true ↔ ∀ j < hint.recursions.toNat,
      bit hint.words (position hint.capacity (digests item) j) = true := by
  rw [contains, testProbes_iff]
  constructor
  · intro h j hj
    exact h j (Nat.zero_le j) (by omega)
  · intro h j _ hj
    exact h j (by omega)

/-- An item that was recorded is found. -/
theorem contains_add (hint : Hint) (item : Bytes) : (hint.add item).contains item = true := by
  refine contains_iff.2 fun j hj => ?_
  exact bit_position_setProbes hint.capacity_pos _ _ 0 hint.size_words (Nat.zero_le j)
    (by rw [Nat.zero_add]; exact hj)

/-- A hint of the same parameters with more bits finds every item that the other finds. -/
theorem contains_mono {a b : Hint} (hshape : a.SameShape b)
    (hbits : ∀ i, bit a.words i = true → bit b.words i = true) {item : Bytes}
    (h : a.contains item = true) : b.contains item = true := by
  rw [contains_iff] at h ⊢
  rw [← hshape.1, ← hshape.2]
  exact fun j hj => hbits _ (h j hj)

/-- Recording another item takes none away. -/
theorem contains_add_of_contains (hint : Hint) (other : Bytes) {item : Bytes}
    (h : hint.contains item = true) : (hint.add other).contains item = true := by
  have hshape : hint.SameShape (hint.add other) := ⟨rfl, rfl⟩
  exact contains_mono hshape (fun _ => bit_add hint other) h

/-! ## Union -/

/-- The bits of two rows of words taken together. -/
theorem bit_zipWith {a b : Array UInt64} (h : a.size = b.size) (i : Nat) :
    bit (Array.zipWith (· ||| ·) a b) i = (bit a i || bit b i) := by
  rw [bit_eq, bit_eq, bit_eq, Array.getElem?_zipWith]
  by_cases hi : i / 64 < a.size
  · have hib : i / 64 < b.size := by omega
    rw [Array.getElem?_eq_getElem hi, Array.getElem?_eq_getElem hib]
    simp [Nat.testBit_or]
  · have hib : ¬ i / 64 < b.size := by omega
    rw [Array.getElem?_eq_none (by omega), Array.getElem?_eq_none (by omega)]
    rfl

/-- Hints of one shape have a union, with the bits of both. -/
theorem union_of_sameShape {a b : Hint} (h : a.SameShape b) :
    ∃ c changed, a.union b = .ok (c, changed) ∧ c.SameShape a ∧
      (∀ i, bit c.words i = (bit a.words i || bit b.words i)) ∧
      (changed = false → c.words = a.words) := by
  have hshape : a.capacity = b.capacity ∧ a.recursions = b.recursions := h
  have hsize : a.words.size = b.words.size := by
    rw [a.size_words, b.size_words, h.1]
  rw [union, unite, dif_pos hshape]
  refine ⟨_, _, rfl, ⟨rfl, rfl⟩, fun i => bit_zipWith hsize i, fun hsame => ?_⟩
  simpa using hsame

/-- A union is what a hint is once it has taken the other one in. -/
theorem union_eq_ok_iff {a b c : Hint} {changed : Bool} :
    a.union b = .ok (c, changed) ↔ a.unite b = (.ok changed, c) := by
  rw [union]
  rcases a.unite b with ⟨fault | told, joined⟩
  · exact iff_of_false (fun h => by cases h) fun h => by cases h
  · rw [Except.ok.injEq, Prod.mk.injEq, Prod.mk.injEq, Except.ok.injEq]
    exact and_comm

/-- A hint that is refused leaves the one that was to take it in as it was. -/
theorem unite_of_not_sameShape {a b : Hint} (h : ¬ a.SameShape b) :
    ∃ fault, a.unite b = (.error fault, a) := by
  have hshape : ¬ (a.capacity = b.capacity ∧ a.recursions = b.recursions) := h
  rw [unite, dif_neg hshape]
  exact ⟨_, rfl⟩

/-- Hints of different shapes have no union. -/
theorem union_of_not_sameShape {a b : Hint} (h : ¬ a.SameShape b) :
    ∃ fault, a.union b = .error fault := by
  obtain ⟨fault, hfault⟩ := unite_of_not_sameShape h
  rw [union, hfault]
  exact ⟨fault, rfl⟩

/-- Where there is a union, the hints have one shape, and so has the union, with the bits
of both. -/
theorem of_union {a b c : Hint} {changed : Bool} (h : a.union b = .ok (c, changed)) :
    a.SameShape b ∧ c.SameShape a ∧
      ∀ i, bit c.words i = (bit a.words i || bit b.words i) := by
  by_cases hshape : a.SameShape b
  · obtain ⟨d, other, hunion, hsame, hbits, -⟩ := union_of_sameShape hshape
    rw [h] at hunion
    cases hunion
    exact ⟨hshape, hsame, hbits⟩
  · obtain ⟨fault, hfault⟩ := union_of_not_sameShape hshape
    rw [h] at hfault
    cases hfault

/-! ## Octets -/

/-- A word is read back from its octets. -/
theorem toNat_ofNat_word (w : UInt64) :
    UInt64.ofNat (Bytes.toNat (Bytes.ofNat 8 w.toNat)) = w := by
  have hspan : Bytes.span 8 = 2 ^ 64 := rfl
  rw [Bytes.toNat_ofNat, hspan, Nat.mod_eq_of_lt w.toNat_lt, UInt64.ofNat_toNat]

/-- Words are read back from their octets. -/
theorem readWords_flatMap (words : List UInt64) :
    readWords words.length (words.flatMap fun w => Bytes.ofNat 8 w.toNat) = words := by
  induction words with
  | nil => rfl
  | cons w rest ih =>
    have hlen := Bytes.length_ofNat 8 w.toNat
    rw [List.length_cons, List.flatMap_cons, readWords, List.take_left' hlen,
      List.drop_left' hlen, ih, toNat_ofNat_word]

theorem length_flatMap_words (words : List UInt64) :
    (words.flatMap fun w => Bytes.ofNat 8 w.toNat).length = 8 * words.length := by
  induction words with
  | nil => rfl
  | cons w rest ih =>
    rw [List.flatMap_cons, List.length_append, ih, Bytes.length_ofNat, List.length_cons]
    omega

/-- A hint is read back from its octets. -/
theorem ofBytes_toBytes (hint : Hint) : ofBytes hint.toBytes = .ok hint := by
  let body := hint.words.toList.flatMap fun w => Bytes.ofNat 8 w.toNat
  have hcap := Bytes.length_ofNat 8 hint.capacity.toNat
  have hrec := Bytes.length_ofNat 8 hint.recursions.toNat
  have hbytes : hint.toBytes = Bytes.ofNat 8 hint.capacity.toNat
      ++ (Bytes.ofNat 8 hint.recursions.toNat ++ body) := List.append_assoc _ _ _
  have hbody : body.length = 8 * wordCount hint.capacity := by
    rw [length_flatMap_words, Array.length_toList, hint.size_words]
  have hlong : ¬ hint.toBytes.length < headerSize := by
    rw [hbytes, List.length_append, List.length_append, hcap, hrec, headerSize]
    omega
  have hfirst : UInt64.ofNat (Bytes.toNat (hint.toBytes.take 8)) = hint.capacity := by
    rw [hbytes, List.take_left' hcap, toNat_ofNat_word]
  have hsecond : UInt64.ofNat (Bytes.toNat ((hint.toBytes.drop 8).take 8)) = hint.recursions := by
    rw [hbytes, List.drop_left' hcap, List.take_left' hrec, toNat_ofNat_word]
  have hrest : hint.toBytes.drop headerSize = body := by
    have hheader : (Bytes.ofNat 8 hint.capacity.toNat
        ++ Bytes.ofNat 8 hint.recursions.toNat).length = headerSize := by
      rw [List.length_append, hcap, hrec, headerSize]
    exact List.drop_left' hheader
  have hwords : (readWords (wordCount hint.capacity) body).toArray = hint.words := by
    rw [← hint.size_words, ← Array.length_toList, readWords_flatMap, Array.toArray_toList]
  have hpos : 0 < hint.capacity ∧ 0 < hint.recursions :=
    ⟨hint.capacity_pos, hint.recursions_pos⟩
  unfold ofBytes
  rw [if_neg hlong]
  dsimp only
  simp only [hfirst, hsecond, hrest, hwords, hbody, dif_pos hpos, if_true]

end QuorumStore.Hint
