import QuorumStore.Proofs.DeliveryOrder

/-!
# Union joins hints

Hints of one shape are ordered by their bits, and the union of two is their join: neither
the order nor the grouping of unions matters, a hint gains nothing from itself, and a union
says that it changed a hint exactly if it set a bit there. Recording items is a union as
well, so hints that were built up from lists of items unite to the one that is built up from
all of them. Hints of different shapes have no union, and the one that was to take the other
in stays as it was.
-/

namespace QuorumStore

namespace Hint

variable {a b c : Hint}

/-! ## What a hint is after a union -/

/-- A hint once it was to take in another one. -/
def absorb (hint other : Hint) : Hint := (hint.unite other).2

/-- A union makes the hint what it is afterwards, with the bits of both. -/
theorem union_eq_ok (h : a.SameShape b) :
    ∃ changed, a.union b = .ok (a.absorb b, changed) ∧ (a.absorb b).SameShape a ∧
      ∀ i, bit (a.absorb b).words i = (bit a.words i || bit b.words i) := by
  obtain ⟨joined, changed, hunion, hshape, hbits, -⟩ := union_of_sameShape h
  have habsorb : a.absorb b = joined := by rw [absorb, union_eq_ok_iff.1 hunion]
  rw [habsorb]
  exact ⟨changed, hunion, hshape, hbits⟩

theorem absorb_sameShape (h : a.SameShape b) : (a.absorb b).SameShape a := by
  obtain ⟨-, -, hshape, -⟩ := union_eq_ok h
  exact hshape

theorem bit_absorb (h : a.SameShape b) (i : Nat) :
    bit (a.absorb b).words i = (bit a.words i || bit b.words i) := by
  obtain ⟨-, -, -, hbits⟩ := union_eq_ok h
  exact hbits i

/-- A union that changed nothing is the hint that it was made from. -/
theorem eq_of_unchanged (h : a.union b = .ok (c, false)) : c = a := by
  obtain ⟨hboth, hshape, -⟩ := of_union h
  obtain ⟨joined, changed, hunion, -, -, hkept⟩ := union_of_sameShape hboth
  cases h.symm.trans hunion
  exact eq_of_bit hshape fun i => by rw [hkept rfl]

/-- A union says that it changed the hint exactly if it set a bit there. -/
theorem changed_iff {changed : Bool} (h : a.union b = .ok (c, changed)) :
    changed = true ↔ ∃ i, bit c.words i ≠ bit a.words i := by
  constructor
  · rintro rfl
    obtain ⟨i, hclear, hset⟩ := exists_bit_of_changed h
    exact ⟨i, by rw [hclear, hset]; exact Bool.noConfusion⟩
  · rintro ⟨i, hi⟩
    cases changed with
    | true => rfl
    | false => exact absurd (by rw [eq_of_unchanged h]) hi

/-! ## The laws of a join -/

/-- Either of two hints becomes the same when it takes in the other. -/
theorem absorb_comm (h : a.SameShape b) : a.absorb b = b.absorb a := by
  have hshape := ((absorb_sameShape h).trans h).trans (absorb_sameShape h.symm).symm
  refine eq_of_bit hshape fun i => ?_
  rw [bit_absorb h, bit_absorb h.symm, Bool.or_comm]

/-- It does not matter which of three hints are united first. -/
theorem absorb_assoc (h : a.SameShape b) (h' : b.SameShape c) :
    (a.absorb b).absorb c = a.absorb (b.absorb c) := by
  have hfirst : (a.absorb b).SameShape c := ((absorb_sameShape h).trans h).trans h'
  have hlast : a.SameShape (b.absorb c) := h.trans (absorb_sameShape h').symm
  have hshape := ((absorb_sameShape hfirst).trans (absorb_sameShape h)).trans
    (absorb_sameShape hlast).symm
  refine eq_of_bit hshape fun i => ?_
  rw [bit_absorb hfirst, bit_absorb h, bit_absorb hlast, bit_absorb h', Bool.or_assoc]

/-- A hint gains nothing from itself. -/
theorem absorb_self (a : Hint) : a.absorb a = a :=
  eq_of_bit (absorb_sameShape ⟨rfl, rfl⟩) fun i => by rw [bit_absorb ⟨rfl, rfl⟩, Bool.or_self]

theorem union_self (a : Hint) : a.union a = .ok (a, false) := by
  obtain ⟨changed, hunion, -⟩ := union_eq_ok (a := a) ⟨rfl, rfl⟩
  rw [absorb_self] at hunion
  cases changed with
  | false => exact hunion
  | true =>
    obtain ⟨i, hi⟩ := (changed_iff hunion).1 rfl
    exact absurd rfl hi

/-! ## Hints built up from items -/

/-- The hint after items were recorded one after another. -/
def addAll (hint : Hint) (items : List Bytes) : Hint := items.foldl add hint

theorem addAll_sameShape (hint : Hint) (items : List Bytes) :
    (hint.addAll items).SameShape hint := by
  induction items generalizing hint with
  | nil => exact ⟨rfl, rfl⟩
  | cons item rest ih => exact (ih (hint.add item)).trans ⟨rfl, rfl⟩

/-- Recording items adds the bits of each. -/
theorem bit_addAll (hint : Hint) (items : List Bytes) (i : Nat) :
    bit (hint.addAll items).words i
      = (bit hint.words i || items.any fun item => bit (hint.single item).words i) := by
  induction items generalizing hint with
  | nil => rw [List.any_nil, Bool.or_false]; rfl
  | cons item rest ih =>
    have hshape : (hint.add item).SameShape hint := ⟨rfl, rfl⟩
    have hrest := ih (hint.add item)
    simp only [single_congr hshape, bit_add_eq, Bool.or_assoc] at hrest
    exact hrest

/-- Neither the order in which items are recorded matters nor how often. -/
theorem addAll_congr {hint : Hint} {xs ys : List Bytes} (h : ∀ item, item ∈ xs ↔ item ∈ ys) :
    hint.addAll xs = hint.addAll ys := by
  have hshape := (addAll_sameShape hint xs).trans (addAll_sameShape hint ys).symm
  refine eq_of_bit hshape fun i => ?_
  rw [bit_addAll, bit_addAll, Bool.eq_iff_iff, Bool.or_eq_true, Bool.or_eq_true]
  simp only [List.any_eq_true, h]

/-- Hints that items were recorded in unite to the union in which all are recorded. -/
theorem absorb_addAll (h : a.SameShape b) (xs ys : List Bytes) :
    (a.addAll xs).absorb (b.addAll ys) = (a.absorb b).addAll (xs ++ ys) := by
  have hxs := addAll_sameShape a xs
  have hboth : (a.addAll xs).SameShape (b.addAll ys) :=
    (hxs.trans h).trans (addAll_sameShape b ys).symm
  have hjoined : (a.absorb b).SameShape a := absorb_sameShape h
  have hshape := ((absorb_sameShape hboth).trans hxs).trans
    ((addAll_sameShape (a.absorb b) (xs ++ ys)).trans hjoined).symm
  refine eq_of_bit hshape fun i => ?_
  rw [bit_absorb hboth, bit_addAll, bit_addAll, bit_addAll, bit_absorb h, List.any_append]
  simp only [single_congr hjoined, single_congr h.symm]
  ac_rfl

end Hint

/-- A peer that is sent a hint has its own hint take it in. -/
theorem Peer.hint_merge (p : Peer) (incoming : Hint) :
    (p.merge incoming).hint = p.hint.absorb incoming := by
  rw [merge]
  by_cases hshape : p.hint.SameShape incoming
  · obtain ⟨changed, hunion, -⟩ := Hint.union_eq_ok hshape
    rw [hunion]
    cases changed with
    | true => rfl
    | false => exact (Hint.eq_of_unchanged hunion).symm
  · obtain ⟨fault, hrefused⟩ := Hint.unite_of_not_sameShape hshape
    rw [Hint.absorb, Hint.union, hrefused]

/-- Where the shapes differ the peer stays as it was. -/
theorem Peer.merge_of_not_sameShape {p : Peer} {incoming : Hint}
    (h : ¬ p.hint.SameShape incoming) : p.merge incoming = p := by
  obtain ⟨fault, hfault⟩ := Hint.union_of_not_sameShape h
  rw [merge, hfault]

namespace Hint

/-- Union is a join. Hints of one shape have a union, which says truly whether it set a bit,
and which depends neither on the order nor on the grouping; a hint gains nothing from itself.
Hints built up from lists of items unite to the one built up from all of them, in any order
and with any repetitions. A peer's hint becomes the union where the other hint arrives. Hints
of different shapes have no union, and only they; the hint that was to take the other in, and
the peer whose hint it is, stay as they were. -/
theorem union_joins (a b c : Hint) :
    (a.SameShape b →
      (∃ changed, a.unite b = (.ok changed, a.absorb b) ∧
        a.union b = .ok (a.absorb b, changed) ∧
        (changed = true ↔ ∃ i, bit (a.absorb b).words i ≠ bit a.words i)) ∧
      a.absorb b = b.absorb a ∧
      (b.SameShape c → (a.absorb b).absorb c = a.absorb (b.absorb c))) ∧
    a.union a = .ok (a, false) ∧
    (∀ xs ys zs, (∀ item, item ∈ zs ↔ item ∈ xs ∨ item ∈ ys) →
      ∃ changed, (a.addAll xs).union (a.addAll ys) = .ok (a.addAll zs, changed)) ∧
    (∀ p : Peer, p.hint = a → (p.merge b).hint = a.absorb b) ∧
    ((∃ fault, a.union b = .error fault) ↔ ¬ a.SameShape b) ∧
    (¬ a.SameShape b → (∃ fault, a.unite b = (.error fault, a)) ∧
      ∀ p : Peer, p.hint = a → p.merge b = p) := by
  refine ⟨fun h => ⟨?_, absorb_comm h, absorb_assoc h⟩, union_self a, fun xs ys zs hzs => ?_, ?_,
    ⟨?_, union_of_not_sameShape⟩, fun h => ⟨unite_of_not_sameShape h, ?_⟩⟩
  · obtain ⟨changed, hunion, -⟩ := union_eq_ok h
    exact ⟨changed, union_eq_ok_iff.1 hunion, hunion, changed_iff hunion⟩
  · have hshape : (a.addAll xs).SameShape (a.addAll ys) :=
      (addAll_sameShape a xs).trans (addAll_sameShape a ys).symm
    obtain ⟨changed, hunion, -⟩ := union_eq_ok hshape
    have hall : ∀ item, item ∈ zs ↔ item ∈ xs ++ ys := fun item => by
      rw [hzs, List.mem_append]
    rw [absorb_addAll ⟨rfl, rfl⟩, absorb_self, ← addAll_congr hall] at hunion
    exact ⟨changed, hunion⟩
  · rintro p rfl
    exact p.hint_merge b
  · rintro ⟨fault, hfault⟩ h
    obtain ⟨changed, hunion, -⟩ := union_eq_ok h
    cases hfault.symm.trans hunion
  · rintro p rfl
    exact Peer.merge_of_not_sameShape h

/-- Hints of one shape with some of three items each, and one of another shape. -/
theorem union_joins_of_few :
    let empty := blank 100 3 (by decide) (by decide)
    let small := blank 64 3 (by decide) (by decide)
    let a := empty.addAll [[1]]
    let b := empty.addAll [[2], [1]]
    let c := empty.addAll [[3], [3]]
    Hint.new 100 3 = .ok empty ∧
      (∃ changed, a.union b = .ok (a.absorb b, changed)) ∧ a.absorb b = b.absorb a ∧
      (a.absorb b).absorb c = a.absorb (b.absorb c) ∧
      (∃ changed, (empty.addAll [[1]]).union (empty.addAll [[2], [1]])
        = .ok (empty.addAll [[2], [1]], changed)) ∧
      (∃ fault, a.unite small = (.error fault, a)) := by
  intro empty small a b c
  have hab : a.SameShape b := (addAll_sameShape empty _).trans (addAll_sameShape empty _).symm
  have hbc : b.SameShape c := (addAll_sameShape empty _).trans (addAll_sameShape empty _).symm
  have hsmall : ¬ a.SameShape small := fun h => by
    have hcapacity : (100 : UInt64) = 64 := h.1
    exact absurd hcapacity (by decide)
  obtain ⟨⟨changed, -, hunion, -⟩, hcomm, hassoc⟩ := (union_joins a b c).1 hab
  obtain ⟨-, -, hitems, -⟩ := union_joins empty b c
  obtain ⟨-, -, -, -, -, hrefused⟩ := union_joins a small c
  have hall (item : Bytes) : item ∈ [[2], [1]] ↔ item ∈ [[1]] ∨ item ∈ [[2], [1]] :=
    (or_iff_right_of_imp fun hm => List.mem_cons_of_mem [2] hm).symm
  exact ⟨rfl, ⟨changed, hunion⟩, hcomm, hassoc hbc, hitems [[1]] [[2], [1]] [[2], [1]] hall,
    (hrefused hsmall).1⟩

end Hint

end QuorumStore
