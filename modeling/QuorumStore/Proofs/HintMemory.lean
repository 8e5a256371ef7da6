import QuorumStore.Proofs.HintCount

/-!
# Hints never forget

Every probe of an item falls into one of the words of a hint, whatever the capacity.
Whatever becomes of a hint sets bits and clears none: when an item is recorded, when
hints are united, and when a hint travels in octets. So an item that was recorded once
is found ever after, and one is found exactly when recording it would change nothing.
-/

namespace QuorumStore.Hint

variable {hint next later : Hint} {item : Bytes}

/-- What a hint may become in one step. A copy of a hint is the hint itself, and a hint
that comes from anywhere in octets may be any hint. -/
inductive Step : Hint → Hint → Prop
  /-- An item is recorded. -/
  | add (hint : Hint) (item : Bytes) : Step hint (hint.add item)
  /-- The hint takes another one in. -/
  | takesIn {hint other joined : Hint} {changed : Bool}
      (h : hint.union other = .ok (joined, changed)) : Step hint joined
  /-- The hint is taken in by another one. -/
  | takenIn {hint other joined : Hint} {changed : Bool}
      (h : other.union hint = .ok (joined, changed)) : Step hint joined
  /-- The hint is sent in its octets, and what arrives is read. -/
  | travels {hint arrived : Hint} (h : ofBytes hint.toBytes = .ok arrived) : Step hint arrived

/-- What a hint may become in any number of steps. -/
def Becomes : Hint → Hint → Prop := Relation.ReflTransGen Step

/-- A step keeps the parameters and clears no bit. -/
theorem Step.keeps (h : Step hint next) :
    hint.SameShape next ∧ ∀ i, bit hint.words i = true → bit next.words i = true := by
  cases h with
  | add item => exact ⟨⟨rfl, rfl⟩, fun i => bit_add hint item⟩
  | takesIn hunion =>
    obtain ⟨-, hshape, hbits⟩ := of_union hunion
    refine ⟨hshape.symm, fun i hi => ?_⟩
    rw [hbits, hi, Bool.true_or]
  | takenIn hunion =>
    obtain ⟨hboth, hshape, hbits⟩ := of_union hunion
    refine ⟨(hshape.trans hboth).symm, fun i hi => ?_⟩
    rw [hbits, hi, Bool.or_true]
  | travels hread =>
    rw [ofBytes_toBytes] at hread
    cases hread
    exact ⟨⟨rfl, rfl⟩, fun i hi => hi⟩

/-- What is found in a hint is found in whatever the hint becomes. -/
theorem Becomes.contains (h : hint.Becomes later) (hfound : hint.contains item = true) :
    later.contains item = true := by
  induction h with
  | refl => exact hfound
  | tail _ hstep ih => exact contains_mono hstep.keeps.1 hstep.keeps.2 ih

/-- Every probe of an item falls into one of the words. -/
theorem probe_lt_size (hint : Hint) (d : Digests) (j : Nat) :
    position hint.capacity d j / 64 < hint.words.size := by
  rw [hint.size_words]
  exact div_lt_wordCount (position_lt hint.capacity_pos d j)

/-- To record an item that is found sets no bit that was clear. -/
theorem bit_add_of_contains (h : hint.contains item = true) (i : Nat) :
    bit (hint.add item).words i = bit hint.words i := by
  rw [Bool.eq_iff_iff]
  refine ⟨fun hset => ?_, bit_add hint item⟩
  rcases (bit_setProbes_iff hint.capacity_pos _ _ 0 hint.size_words i).1 hset with
    hold | ⟨j, -, hj, rfl⟩
  · exact hold
  · exact contains_iff.1 h j (by omega)

/-- An item is found exactly when recording it changes nothing. -/
theorem contains_iff_add_eq : hint.contains item = true ↔ hint.add item = hint := by
  constructor
  · intro h
    have hsize : (hint.add item).words.size = hint.words.size := by
      rw [(hint.add item).size_words, hint.size_words]
      rfl
    have hwords := words_eq_of_bit hsize (bit_add_of_contains h)
    obtain ⟨capacity, recursions, words, _, _, _⟩ := hint
    rw [add, Hint.mk.injEq]
    exact ⟨rfl, rfl, hwords⟩
  · intro h
    rw [← h]
    exact contains_add hint item

/-- Of every hint, whatever it was built from, and every item: no probe falls outside the
words; once it was recorded, the item is found in whatever the hint becomes, alone or
within other hints; and it is found exactly when recording it would change nothing. -/
theorem never_forgets (hint : Hint) (item : Bytes) :
    (∀ j < hint.recursions.toNat,
        position hint.capacity (digests item) j / 64 < hint.words.size) ∧
      (∀ later, (hint.add item).Becomes later → later.contains item = true) ∧
      (hint.contains item = true ↔ hint.add item = hint) :=
  ⟨fun j _ => probe_lt_size hint _ j, fun _ h => h.contains (contains_add hint item),
    contains_iff_add_eq⟩

/-- An empty hint whose last word has bits that no item reaches. -/
def uneven : Hint := blank 100 3 (by decide) (by decide)

/-- A hint with an item is taken in by another one, which travels in octets and takes in
a third one: the item is found there. -/
theorem never_forgets_of_passed_on :
    ∃ joined changed arrived grown,
      (uneven.add [2]).union (uneven.add [1]) = .ok (joined, changed) ∧
      ofBytes joined.toBytes = .ok arrived ∧ arrived.union (uneven.add [3]) = .ok grown ∧
      position uneven.capacity (digests [1]) 2 / 64 < uneven.words.size ∧
      grown.1.contains [1] = true := by
  obtain ⟨joined, changed, hjoined, hshape, -⟩ :=
    union_of_sameShape (a := uneven.add [2]) (b := uneven.add [1]) ⟨rfl, rfl⟩
  obtain ⟨grown, more, hgrown, -⟩ :=
    union_of_sameShape (a := joined) (b := uneven.add [3]) hshape
  obtain ⟨hinside, hkept, -⟩ := never_forgets uneven [1]
  have hread : ofBytes joined.toBytes = .ok joined := ofBytes_toBytes joined
  refine ⟨joined, changed, joined, (grown, more), hjoined, hread, hgrown,
    hinside 2 (by decide), ?_⟩
  exact hkept grown <| ((Relation.ReflTransGen.single (.takenIn hjoined)).tail
    (.travels hread)).tail (.takesIn hgrown)

end QuorumStore.Hint
