import QuorumStore.Proofs.DeliveryOrder
import QuorumStore.Proofs.HintOctets

/-!
# Bits beyond the capacity

The last word of a hint may have more bits than the capacity leaves for items. Nothing that
is done with items reaches them: a new hint has none of them set, to record an item sets none,
and a union sets only those that were set before. Octets that are read may bring them. So
a hint has a bit set beyond its capacity exactly if octets that it was made from have one,
and where none have, the bits that items can reach are all that there is of the hint.
-/

namespace QuorumStore

/-! ## Bits of octets -/

/-- The bits of a number, read off its octets. -/
theorem Bytes.testBit_toNat (bytes : Bytes) (i : Nat) :
    (toNat bytes).testBit i = (bytes[i / 8]?).any fun b => b.toNat.testBit (i % 8) := by
  induction bytes generalizing i with
  | nil => simp [toNat]
  | cons b rest ih =>
    have hb : b.toNat < 2 ^ 8 := b.toNat_lt
    rw [toNat, Nat.add_comm, Nat.testBit_two_pow_mul_add (i := 8) _ hb]
    split_ifs with hi
    · have hfirst : i / 8 = 0 := by omega
      have hplace : i % 8 = i := by omega
      rw [hfirst, hplace]
      rfl
    · obtain ⟨j, rfl⟩ : ∃ j, i = j + 8 := ⟨i - 8, by omega⟩
      have hnext : (j + 8) / 8 = j / 8 + 1 := by omega
      have hplace : (j + 8) % 8 = j % 8 := by omega
      rw [ih, hnext, hplace, Nat.add_sub_cancel, List.getElem?_cons_succ]

namespace Hint

variable {a b c hint : Hint} {data : Bytes}

/-- The words that are read, by their octets. -/
theorem getElem?_readWords (n : Nat) (bytes : Bytes) (k : Nat) :
    (readWords n bytes)[k]? = if k < n
      then some (UInt64.ofNat (Bytes.toNat ((bytes.drop (8 * k)).take 8))) else none := by
  induction n generalizing bytes k with
  | zero => rfl
  | succ n ih =>
    cases k with
    | zero => rfl
    | succ k =>
      have hskip : 8 + 8 * k = 8 * (k + 1) := by omega
      rw [readWords, List.getElem?_cons_succ, ih, List.drop_drop, hskip]
      simp only [Nat.add_lt_add_iff_right]

/-- The bit with the given number of a hint in octets: eight to an octet, lowest first. -/
def octetBit (data : Bytes) (i : Nat) : Bool :=
  ((data.drop headerSize)[i / 8]?).any fun b => b.toNat.testBit (i % 8)

/-- The bits of words that are read are those of the octets. -/
theorem bit_readWords {n : Nat} {bytes : Bytes} (h : bytes.length = 8 * n) (i : Nat) :
    bit (readWords n bytes).toArray i = (bytes[i / 8]?).any fun b => b.toNat.testBit (i % 8) := by
  rw [bit_eq, List.getElem?_toArray, getElem?_readWords]
  split_ifs with hi
  · have hoctet : i % 64 / 8 < 8 := by omega
    have hindex : 8 * (i / 64) + i % 64 / 8 = i / 8 := by omega
    have hplace : i % 64 % 8 = i % 8 := by omega
    rw [Option.any_some, toNat_word (List.length_take_le 8 _), Bytes.testBit_toNat,
      List.getElem?_take_of_lt hoctet, List.getElem?_drop, hindex, hplace]
  · rw [List.getElem?_eq_none (by omega)]
    rfl

/-- What is read of octets that are a hint: the capacity that they declare, and the words
after the header. -/
theorem ofBytes_eq_ok (h : ofBytes data = .ok hint) :
    hint.capacity.toNat = declaredCapacity data ∧
      (data.drop headerSize).length = 8 * wordCount hint.capacity ∧
      hint.words = (readWords (wordCount hint.capacity) (data.drop headerSize)).toArray := by
  unfold ofBytes at h
  dsimp only at h
  split_ifs at h with hshort hpos hsize
  cases h
  exact ⟨toNat_capacity data, hsize, rfl⟩

/-- The bits of a hint that is read are those of its octets. -/
theorem bit_ofBytes (h : ofBytes data = .ok hint) (i : Nat) :
    bit hint.words i = octetBit data i := by
  obtain ⟨-, hsize, hwords⟩ := ofBytes_eq_ok h
  rw [hwords, bit_readWords hsize, octetBit]

/-! ## Hints without spare bits -/

/-- No bit beyond the capacity is set. -/
def Trimmed (hint : Hint) : Prop := ∀ i, hint.capacity.toNat ≤ i → bit hint.words i = false

/-- Octets in which no bit is set beyond the capacity that they declare. -/
def Clear (data : Bytes) : Prop := ∀ i, declaredCapacity data ≤ i → octetBit data i = false

/-- What is read of octets has a spare bit exactly if the octets have one. -/
theorem trimmed_ofBytes (h : ofBytes data = .ok hint) : hint.Trimmed ↔ Clear data := by
  simp only [Trimmed, Clear, bit_ofBytes h, (ofBytes_eq_ok h).1]

/-- A new hint has no bits. -/
theorem trimmed_new {capacity recursions : UInt64} (h : new capacity recursions = .ok hint) :
    hint.Trimmed := by
  unfold new at h
  split_ifs at h with hc hr
  cases h
  exact fun i _ => bit_blank hc hr i

/-- To record an item sets no spare bit. -/
theorem trimmed_add (hint : Hint) (item : Bytes) : (hint.add item).Trimmed ↔ hint.Trimmed := by
  refine forall₂_congr fun i hi => ?_
  have hsingle : bit (hint.single item).words i = false := by
    by_contra hset
    rw [Bool.not_eq_false, bit_single_iff] at hset
    obtain ⟨j, -, rfl⟩ := hset
    exact absurd (position_lt hint.capacity_pos (digests item) j) (Nat.not_lt.2 hi)
  rw [bit_add_eq, hsingle, Bool.or_false]

/-- A union has a spare bit exactly if one of the hints united has one. -/
theorem trimmed_union {changed : Bool} (h : a.union b = .ok (c, changed)) :
    c.Trimmed ↔ a.Trimmed ∧ b.Trimmed := by
  obtain ⟨hboth, hshape, hbits⟩ := of_union h
  unfold Trimmed
  rw [hshape.1, ← hboth.1, ← forall₂_and]
  refine forall₂_congr fun i _ => ?_
  rw [hbits, Bool.or_eq_false_iff]

/-- What is found depends on the bits below the capacity alone. -/
theorem contains_eq_of_bit (hshape : a.SameShape b)
    (hbits : ∀ i < a.capacity.toNat, bit a.words i = bit b.words i) (item : Bytes) :
    a.contains item = b.contains item := by
  rw [Bool.eq_iff_iff, contains_iff, contains_iff, ← hshape.1, ← hshape.2]
  refine forall₂_congr fun j _ => ?_
  rw [hbits _ (position_lt a.capacity_pos _ j)]

/-! ## What follows where there are none -/

/-- There are no more bits set than the capacity. -/
theorem Trimmed.ones_le (h : hint.Trimmed) : hint.ones ≤ hint.capacity.toNat := by
  have hroom : 64 * hint.words.size
      = hint.capacity.toNat + (64 * hint.words.size - hint.capacity.toNat) := by
    have hsize := hint.size_words
    rw [wordCount] at hsize
    omega
  have hspare : Nat.count (fun i => bit hint.words (hint.capacity.toNat + i) = true)
      (64 * hint.words.size - hint.capacity.toNat) = 0 := by
    refine Nat.count_iff_forall_not.2 fun i _ hset => ?_
    rw [h _ (Nat.le_add_right _ _)] at hset
    cases hset
  rw [ones_eq_count, hroom, Nat.count_add, hspare, Nat.add_zero]
  exact Nat.count_le _

/-- Two of one shape are the same if their bits below the capacity are. -/
theorem Trimmed.ext (ha : a.Trimmed) (hb : b.Trimmed) (hshape : a.SameShape b)
    (hbits : ∀ i < a.capacity.toNat, bit a.words i = bit b.words i) : a = b := by
  refine eq_of_bit hshape fun i => ?_
  by_cases hi : i < a.capacity.toNat
  · exact hbits i hi
  · have hspare : a.capacity.toNat ≤ i := Nat.le_of_not_lt hi
    rw [ha i hspare, hb i (hshape.1 ▸ hspare)]

end Hint

/-- The clock of a peer moves only if a bit comes to be set that was clear, and that bit is
one of those of the hint that arrived. -/
theorem Peer.exists_bit_of_clock {p : Peer} {incoming : Hint}
    (h : (p.merge incoming).clock ≠ p.clock) :
    p.hint.SameShape incoming ∧ ∃ i, Hint.bit incoming.words i = true ∧
      Hint.bit p.hint.words i = false ∧ Hint.bit (p.merge incoming).hint.words i = true := by
  revert h
  unfold merge
  split
  · next joined hunion =>
    intro _
    obtain ⟨hshape, -, hbits⟩ := Hint.of_union hunion
    obtain ⟨i, hclear, hset⟩ := Hint.exists_bit_of_changed hunion
    have hnew : Hint.bit incoming.words i = true := by
      rw [hbits, hclear, Bool.false_or] at hset
      exact hset
    exact ⟨hshape, i, hnew, hclear, hset⟩
  · exact fun h => absurd rfl h

/-- So a hint without spare bits moves the clock of a peer only with a bit that items can
reach. -/
theorem Registry.exists_bit_of_clock {r : Registry} {e : HintEvent} {hint : Hint}
    (hread : Hint.ofBytes e.payload = .ok hint) (htrimmed : hint.Trimmed) {peer : UInt32}
    {p p' : Peer} (hp : r.peers[peer]? = some p) (hp' : (r.receive e).peers[peer]? = some p')
    (h : p'.clock ≠ p.clock) :
    ∃ i < p.hint.capacity.toNat,
      Hint.bit p.hint.words i = false ∧ Hint.bit p'.hint.words i = true := by
  have hsame (hkept : (r.receive e).peers[peer]? = r.peers[peer]?) : False := by
    rw [hp', hp] at hkept
    exact h (by rw [Option.some.inj hkept])
  by_cases hsender : e.sender = r.host
  · exact (hsame (by rw [receive, if_pos hsender])).elim
  · rw [receive, if_neg hsender, hread] at hp' hsame
    dsimp only at hp' hsame
    rw [getElem?_modifyPeer] at hp' hsame
    by_cases hpeer : e.peer = peer
    · rw [if_pos hpeer, hp] at hp'
      cases hp'
      obtain ⟨hshape, i, hnew, hold, hset⟩ := Peer.exists_bit_of_clock h
      refine ⟨i, ?_, hold, hset⟩
      by_contra hspare
      rw [htrimmed i (hshape.1 ▸ Nat.le_of_not_lt hspare)] at hnew
      cases hnew
    · exact (hsame (if_neg hpeer)).elim

namespace Hint

variable {hint : Hint}

/-! ## All hints that there can be -/

/-- The hints that can be made, each with the octets that were read for it. A copy of a hint
is the hint itself. -/
inductive Obtained : List Bytes → Hint → Prop where
  /-- A new hint. -/
  | new {capacity recursions : UInt64} {hint : Hint}
      (made : Hint.new capacity recursions = .ok hint) : Obtained [] hint
  /-- An item is recorded. -/
  | add {read : List Bytes} {hint : Hint} (before : Obtained read hint) (item : Bytes) :
      Obtained read (hint.add item)
  /-- Two hints are united. -/
  | union {read read' : List Bytes} {a b c : Hint} {changed : Bool} (left : Obtained read a)
      (right : Obtained read' b) (united : a.union b = .ok (c, changed)) :
      Obtained (read ++ read') c
  /-- Octets are read. -/
  | octets {data : Bytes} {hint : Hint} (accepted : ofBytes data = .ok hint) :
      Obtained [data] hint

/-- A hint has a spare bit exactly if octets that were read for it have one. -/
theorem Obtained.trimmed_iff {read : List Bytes} (h : Obtained read hint) :
    hint.Trimmed ↔ ∀ data ∈ read, Clear data := by
  induction h with
  | new made => exact iff_of_true (trimmed_new made) fun _ hm => by cases hm
  | add before item ih => rw [trimmed_add, ih]
  | union left right united ihl ihr => rw [trimmed_union united, ihl, ihr, List.forall_mem_append]
  | octets accepted => rw [trimmed_ofBytes accepted, List.forall_mem_singleton]

/-- However a hint was made, it has no bit beyond its capacity exactly if the octets that were
read for it have none; what is found in it depends on its other bits alone. Without bits
beyond it has no more set than its capacity, it is the only such hint of its shape with its
bits below the capacity, and where it arrives it moves the clock of a peer only with a bit
below the capacity. -/
theorem within_capacity {read : List Bytes} (h : Obtained read hint) :
    (hint.Trimmed ↔ ∀ data ∈ read, Clear data) ∧
    (∀ (other : Hint) (item : Bytes), other.SameShape hint →
      (∀ i < other.capacity.toNat, bit other.words i = bit hint.words i) →
      other.contains item = hint.contains item) ∧
    (hint.Trimmed →
      hint.ones ≤ hint.capacity.toNat ∧
      (∀ other : Hint, other.Trimmed → other.SameShape hint →
        (∀ i < other.capacity.toNat, bit other.words i = bit hint.words i) → other = hint) ∧
      ∀ (r : Registry) (e : HintEvent) (peer : UInt32) (p p' : Peer),
        ofBytes e.payload = .ok hint → r.peers[peer]? = some p →
        (r.receive e).peers[peer]? = some p' → p'.clock ≠ p.clock →
        ∃ i < p.hint.capacity.toNat, bit p.hint.words i = false ∧ bit p'.hint.words i = true) :=
  ⟨h.trimmed_iff, fun _ item hshape hbits => contains_eq_of_bit hshape hbits item,
    fun htrimmed => ⟨htrimmed.ones_le,
    fun _ hother hshape hbits => hother.ext htrimmed hshape hbits,
    fun _ _ _ _ _ hread hp hp' hclock =>
      Registry.exists_bit_of_clock hread htrimmed hp hp' hclock⟩⟩

end Hint

/-- A registry whose hints have one bit, with one host. -/
def Registry.narrow : Registry :=
  ((⟨"w", ⟨2, 1, 1⟩, .empty 2 Nat.two_pos, ∅, none⟩ : Registry).update ["a"]).2

namespace Hint

/-- The octets of a hint with its one bit set have no spare bit. Where they arrive the clock
moves, with that bit. -/
theorem within_capacity_of_one_bit :
    let hint := (blank 1 1 (by decide) (by decide)).add [7]
    let e : HintEvent := ⟨"b", Registry.digest "a", hint.toBytes⟩
    Obtained [hint.toBytes] hint ∧ hint.Trimmed ∧ hint.ones ≤ 1 ∧ Clear hint.toBytes ∧
      ∃ p p', Registry.narrow.peers[e.peer]? = some p ∧
        (Registry.narrow.receive e).peers[e.peer]? = some p' ∧ p'.clock ≠ p.clock ∧
        ∃ i < p.hint.capacity.toNat, bit p.hint.words i = false ∧ bit p'.hint.words i = true := by
  intro hint e
  have hread : ofBytes hint.toBytes = .ok hint := ofBytes_toBytes hint
  have htrimmed : hint.Trimmed := (trimmed_add _ _).2 fun i _ => bit_blank _ _ i
  obtain ⟨hiff, -, hconsequences⟩ := within_capacity (.octets hread)
  obtain ⟨hones, -, hclock⟩ := hconsequences htrimmed
  have hsome : Registry.narrow.peers[e.peer]?.isSome = true ∧
      (Registry.narrow.receive e).peers[e.peer]?.isSome = true := by decide +kernel
  obtain ⟨p, hp⟩ := Option.isSome_iff_exists.1 hsome.1
  obtain ⟨p', hp'⟩ := Option.isSome_iff_exists.1 hsome.2
  have hmoves : (Registry.narrow.receive e).peers[e.peer]?.map Peer.clock
      ≠ Registry.narrow.peers[e.peer]?.map Peer.clock := by decide +kernel
  have hne : p'.clock ≠ p.clock := by
    rw [hp, hp'] at hmoves
    exact fun hsame => hmoves (congrArg some hsame)
  exact ⟨.octets hread, htrimmed, hones, hiff.1 htrimmed _ List.mem_cons_self, p, p', hp, hp', hne,
    hclock _ e e.peer p p' hread hp hp' hne⟩

/-- Octets that declare a capacity of one bit and have the next seven set are accepted. The
hint has more bits set than its capacity, what is found in it is what is found in an empty one,
from which it differs, and where it arrives the clock of a peer moves although nothing comes
to be found. -/
theorem spare_bits_accepted :
    let data : Bytes := [1, 0, 0, 0, 0, 0, 0, 0, 1, 0, 0, 0, 0, 0, 0, 0, 254, 0, 0, 0, 0, 0, 0, 0]
    let empty := blank 1 1 (by decide) (by decide)
    let e : HintEvent := ⟨"b", Registry.digest "a", data⟩
    ∃ hint, ofBytes data = .ok hint ∧ Obtained [data] hint ∧
      ¬ hint.Trimmed ∧ hint.capacity.toNat < hint.ones ∧
      (∀ item, hint.contains item = empty.contains item) ∧ hint ≠ empty ∧
      Registry.narrow.peers[e.peer]?.map (fun p => (p.clock, bit p.hint.words 0))
        = some (0, false) ∧
      (Registry.narrow.receive e).peers[e.peer]?.map (fun p => (p.clock, bit p.hint.words 0))
        = some (1, false) := by
  intro data empty e
  let hint : Hint := ⟨1, 1, #[254], by decide, by decide, by decide⟩
  have hbytes : hint.toBytes = data := by decide +kernel
  have hread : ofBytes data = .ok hint := hbytes ▸ ofBytes_toBytes hint
  refine ⟨hint, hread, .octets hread, fun htrimmed => ?_, by decide,
    contains_eq_of_bit ⟨rfl, rfl⟩ (by decide), fun hsame => ?_, by decide +kernel,
    by decide +kernel⟩
  · exact absurd (htrimmed 1 (Nat.le_refl 1)) (by decide)
  · exact absurd (congrArg ones hsame) (by decide)

end Hint

end QuorumStore
