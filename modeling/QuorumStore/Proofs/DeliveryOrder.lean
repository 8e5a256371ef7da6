import QuorumStore.Proofs.HintCount
import QuorumStore.Proofs.HintFlow

/-!
# The order of arrival does not matter

Between two reconciliations hints arrive at a registry and keys are recorded, in any
order and any number of times. What a peer's hint comes to is its bits at the start
together with those of every hint that was taken in for it and of every key recorded
for it. Whether a hint is taken in does not depend on what arrived before, so neither
order nor repetition shows in the end.
-/

namespace QuorumStore

namespace Hint

instance (a b : Hint) : Decidable (a.SameShape b) :=
  inferInstanceAs (Decidable (a.capacity = b.capacity ∧ a.recursions = b.recursions))

/-- The hint of the same parameters that holds one item and nothing else. -/
def single (shape : Hint) (item : Bytes) : Hint :=
  (blank shape.capacity shape.recursions shape.capacity_pos shape.recursions_pos).add item

/-- Hints of one shape hold one item alike. -/
theorem single_congr {a b : Hint} (h : a.SameShape b) (item : Bytes) :
    a.single item = b.single item := by
  obtain ⟨hcapacity, hrecursions⟩ := h
  unfold single
  congr

/-- The bits of a hint that holds one item are those of its probes. -/
theorem bit_single_iff (shape : Hint) (item : Bytes) (i : Nat) :
    bit (shape.single item).words i = true ↔
      ∃ j < shape.recursions.toNat, position shape.capacity (digests item) j = i := by
  have hblank : ¬ bit (blank shape.capacity shape.recursions shape.capacity_pos
      shape.recursions_pos).words i = true := by
    rw [bit_blank]
    exact Bool.false_ne_true
  refine (bit_setProbes_iff shape.capacity_pos (digests item) shape.recursions.toNat 0
    (blank shape.capacity shape.recursions shape.capacity_pos shape.recursions_pos).size_words
    i).trans ?_
  rw [or_iff_right hblank]
  constructor
  · rintro ⟨j, -, hj, hpos⟩
    exact ⟨j, by rw [Nat.zero_add] at hj; exact hj, hpos⟩
  · rintro ⟨j, hj, hpos⟩
    exact ⟨j, Nat.zero_le j, by rw [Nat.zero_add]; exact hj, hpos⟩

/-- Recording an item unites the hint with the one that holds it alone. -/
theorem bit_add_eq (hint : Hint) (item : Bytes) (i : Nat) :
    bit (hint.add item).words i = (bit hint.words i || bit (hint.single item).words i) := by
  rw [Bool.eq_iff_iff, Bool.or_eq_true, bit_single_iff]
  refine (bit_setProbes_iff hint.capacity_pos _ _ 0 hint.size_words i).trans
    (or_congr_right ⟨?_, ?_⟩)
  · rintro ⟨j, -, hj, hpos⟩
    exact ⟨j, by rw [Nat.zero_add] at hj; exact hj, hpos⟩
  · rintro ⟨j, hj, hpos⟩
    exact ⟨j, Nat.zero_le j, by rw [Nat.zero_add]; exact hj, hpos⟩

/-- A hint that finds an item has the bits of the one that holds it alone. -/
theorem bit_of_contains {hint : Hint} {item : Bytes} (h : hint.contains item = true) {i : Nat}
    (hb : bit (hint.single item).words i = true) : bit hint.words i = true := by
  obtain ⟨j, hj, rfl⟩ := (bit_single_iff hint item i).1 hb
  exact contains_iff.1 h j hj

/-- Hints of one shape with the same bits are the same. -/
theorem eq_of_bit {a b : Hint} (hshape : a.SameShape b)
    (hbits : ∀ i, bit a.words i = bit b.words i) : a = b := by
  obtain ⟨hcapacity, hrecursions⟩ := hshape
  have hwords : a.words = b.words :=
    words_eq_of_bit (by rw [a.size_words, b.size_words, hcapacity]) hbits
  cases a
  cases b
  cases hcapacity
  cases hrecursions
  cases hwords
  rfl

end Hint

/-- What reaches a registry between two reconciliations. -/
inductive Arrival where
  /-- A hint arrives. -/
  | event (e : HintEvent)
  /-- Peers are recorded as holding a key. -/
  | commit (key : Key) (peers : List UInt32)
  deriving DecidableEq, Repr

namespace Registry

variable {r s t : Registry}

/-- The registry after something has reached it. -/
def take (r : Registry) : Arrival → Registry
  | .event e => r.receive e
  | .commit key peers => (r.commit key peers).1

/-- The hint of a digest. -/
def hint? (r : Registry) (peer : UInt32) : Option Hint := r.peers[peer]?.map Peer.hint

/-- The hint of an event, if the registry takes it in: it comes from another member, its
octets are a hint, and the peer that it is about has one of the same shape. -/
def admitted? (r : Registry) (e : HintEvent) : Option Hint :=
  if e.sender = r.host then none
  else
    match Hint.ofBytes e.payload, r.hint? e.peer with
    | .ok incoming, some hint => if hint.SameShape incoming then some incoming else none
    | _, _ => none

/-- What an arrival brings to the hint of a peer. -/
def brought? (r : Registry) (peer : UInt32) : Arrival → Option Hint
  | .event e => if e.peer = peer then r.admitted? e else none
  | .commit key peers =>
    if peer ∈ peers then (r.hint? peer).map (·.single (Bytes.ofText key)) else none

/-- Whether an arrival brings a bit to the hint of a peer. -/
def brings (r : Registry) (peer : UInt32) (a : Arrival) (i : Nat) : Bool :=
  (r.brought? peer a).any fun hint => Hint.bit hint.words i

/-- Nothing is brought to a peer that is not known. -/
theorem brings_of_unknown {peer : UInt32} (h : r.hint? peer = none) (a : Arrival) (i : Nat) :
    r.brings peer a i = false := by
  have hnone : r.brought? peer a = none := by
    cases a with
    | event e =>
      rw [brought?, admitted?]
      split_ifs with he
      · rfl
      · rw [he, h]
        cases Hint.ofBytes e.payload <;> rfl
      · rfl
    | commit key peers => rw [brought?, h, Option.map_none, ite_self]
  rw [brings, hnone, Option.any_none]

theorem hintBit_eq (r : Registry) (peer : UInt32) (i : Nat) :
    r.hintBit peer i = (r.hint? peer).any fun hint => Hint.bit hint.words i := by
  rw [hintBit, hint?, Option.any_map]

/-! ## What a step adds -/

/-- A registry whose hints have gained bits: it knows the same peers, under hints of the
same shapes, and each hint has its old bits and the new ones. -/
structure Gains (new : UInt32 → Nat → Bool) (r s : Registry) : Prop where
  /-- The registry is that of the same member. -/
  host_eq : s.host = r.host
  /-- No peer comes to be known. -/
  unknown : ∀ peer, r.hint? peer = none → s.hint? peer = none
  /-- A hint keeps its shape and its bits, and gains the new ones. -/
  known : ∀ peer hint, r.hint? peer = some hint → ∃ hint', s.hint? peer = some hint' ∧
    hint'.SameShape hint ∧ ∀ i, Hint.bit hint'.words i = (Hint.bit hint.words i || new peer i)

variable {new more : UInt32 → Nat → Bool}

theorem Gains.trans (h : Gains new r s) (h' : Gains more s t) :
    Gains (fun peer i => new peer i || more peer i) r t where
  host_eq := h'.host_eq.trans h.host_eq
  unknown peer hr := h'.unknown peer (h.unknown peer hr)
  known peer hint hr := by
    obtain ⟨hint', hs, hshape, hbits⟩ := h.known peer hint hr
    obtain ⟨hint'', ht, hshape', hbits'⟩ := h'.known peer hint' hs
    refine ⟨hint'', ht, hshape'.trans hshape, fun i => ?_⟩
    rw [hbits', hbits, Bool.or_assoc]

/-- The new bits matter only together with the old ones. -/
theorem Gains.congr (h : Gains new r s)
    (hsame : ∀ peer hint i, r.hint? peer = some hint →
      (Hint.bit hint.words i || new peer i) = (Hint.bit hint.words i || more peer i)) :
    Gains more r s where
  host_eq := h.host_eq
  unknown := h.unknown
  known peer hint hr := by
    obtain ⟨hint', hs, hshape, hbits⟩ := h.known peer hint hr
    exact ⟨hint', hs, hshape, fun i => (hbits i).trans (hsame peer hint i hr)⟩

/-- Bits that are all there make no difference. -/
theorem gains_refl (hheld : ∀ peer hint i, r.hint? peer = some hint → new peer i = true →
    Hint.bit hint.words i = true) : Gains new r r where
  host_eq := rfl
  unknown _ hr := hr
  known peer hint hr := by
    refine ⟨hint, hr, ⟨rfl, rfl⟩, fun i => ?_⟩
    cases hnew : new peer i with
    | false => rw [Bool.or_false]
    | true => rw [hheld peer hint i hr hnew, Bool.or_true]

/-- Changing one peer's hint adds to that hint. -/
theorem gains_modifyPeer {peer : UInt32} {f : Peer → Peer}
    (hf : ∀ p : Peer, r.peers[peer]? = some p → (f p).hint.SameShape p.hint ∧
      ∀ i, Hint.bit (f p).hint.words i = (Hint.bit p.hint.words i || new peer i))
    (hother : ∀ other i, other ≠ peer → new other i = false) :
    Gains new r (r.modifyPeer peer f) := by
  have hget (other : UInt32) : (r.modifyPeer peer f).hint? other
      = if peer = other then r.peers[other]?.map fun p => (f p).hint else r.hint? other := by
    rw [hint?, getElem?_modifyPeer]
    split_ifs
    · rw [Option.map_map]
      rfl
    · rfl
  refine ⟨rfl, fun other hr => ?_, fun other hint hr => ?_⟩
  · rw [hget, hr]
    rw [hint?, Option.map_eq_none_iff] at hr
    rw [hr, Option.map_none, ite_self]
  · rw [hget]
    split_ifs with he
    · subst he
      obtain ⟨p, hp, rfl⟩ := Option.map_eq_some_iff.1 hr
      obtain ⟨hshape, hbits⟩ := hf p hp
      exact ⟨(f p).hint, by rw [hp]; rfl, hshape, hbits⟩
    · refine ⟨hint, hr, ⟨rfl, rfl⟩, fun i => ?_⟩
      rw [hother other i (Ne.symm he), Bool.or_false]

/-- What arrives brings the same at any time: that depends on the shapes of the hints,
and these stay. -/
theorem Gains.brought?_eq (h : Gains new r s) (peer : UInt32) (a : Arrival) :
    s.brought? peer a = r.brought? peer a := by
  cases a with
  | event e =>
    rw [brought?, brought?, admitted?, admitted?, h.host_eq]
    cases hr : r.hint? e.peer with
    | none => rw [h.unknown e.peer hr]
    | some hint =>
      obtain ⟨hint', hs, hshape, -⟩ := h.known e.peer hint hr
      have hiff (incoming : Hint) : hint'.SameShape incoming ↔ hint.SameShape incoming := by
        rw [Hint.SameShape, hshape.1, hshape.2]
        rfl
      rw [hs]
      split_ifs
      · rfl
      · cases Hint.ofBytes e.payload with
        | error _ => rfl
        | ok incoming =>
          dsimp only
          simp only [hiff]
      · rfl
  | commit key peers =>
    rw [brought?, brought?]
    cases hr : r.hint? peer with
    | none => rw [h.unknown peer hr]
    | some hint =>
      obtain ⟨hint', hs, hshape, -⟩ := h.known peer hint hr
      rw [hs, Option.map_some, Option.map_some, Hint.single_congr hshape]

/-! ## Each arrival -/

/-- Merging adds the bits of a hint of the same shape, and those of no other. -/
theorem bit_merge (p : Peer) (incoming : Hint) :
    (p.merge incoming).hint.SameShape p.hint ∧ ∀ i, Hint.bit (p.merge incoming).hint.words i
      = (Hint.bit p.hint.words i
        || (decide (p.hint.SameShape incoming) && Hint.bit incoming.words i)) := by
  by_cases hshape : p.hint.SameShape incoming
  · obtain ⟨c, changed, hunion, hsame, hbits, hunchanged⟩ := Hint.union_of_sameShape hshape
    rw [Peer.merge, hunion, decide_eq_true hshape]
    cases changed with
    | true => exact ⟨hsame, hbits⟩
    | false =>
      refine ⟨⟨rfl, rfl⟩, fun i => ?_⟩
      rw [Bool.true_and, ← hbits, hunchanged rfl]
  · obtain ⟨fault, hfault⟩ := Hint.union_of_not_sameShape hshape
    rw [Peer.merge, hfault, decide_eq_false hshape]
    exact ⟨⟨rfl, rfl⟩, fun i => by rw [Bool.false_and, Bool.or_false]⟩

/-- A hint that arrives adds its bits where it is taken in. -/
theorem gains_receive (r : Registry) (e : HintEvent) :
    Gains (fun peer => r.brings peer (.event e)) r (r.receive e) := by
  have hnone (peer : UInt32) (i : Nat) (h : r.admitted? e = none) :
      r.brings peer (.event e) i = false := by
    rw [brings, brought?, h, ite_self]
    rfl
  unfold receive
  split_ifs with hsender
  · have hadmitted : r.admitted? e = none := by rw [admitted?, if_pos hsender]
    refine gains_refl fun peer _ i _ hnew => ?_
    rw [hnone peer i hadmitted] at hnew
    cases hnew
  · cases hbytes : Hint.ofBytes e.payload with
    | error _ =>
      have hadmitted : r.admitted? e = none := by rw [admitted?, if_neg hsender, hbytes]
      refine gains_refl fun peer _ i _ hnew => ?_
      rw [hnone peer i hadmitted] at hnew
      cases hnew
    | ok incoming =>
      refine gains_modifyPeer (fun p hp => ?_) (fun other i hother => ?_)
      · obtain ⟨hshape, hbits⟩ := bit_merge p incoming
        refine ⟨hshape, fun i => (hbits i).trans (congrArg _ ?_)⟩
        have hhint : r.hint? e.peer = some p.hint := by rw [hint?, hp, Option.map_some]
        rw [brings, brought?, if_pos rfl, admitted?, if_neg hsender, hbytes, hhint]
        dsimp only
        split_ifs with hsame
        · rw [decide_eq_true hsame, Bool.true_and, Option.any_some]
        · rw [decide_eq_false hsame, Bool.false_and, Option.any_none]
      · rw [brings, brought?, if_neg (Ne.symm hother), Option.any_none]

/-- A commit brings the bits of its key to each peer that it names. -/
theorem brings_commit (r : Registry) (peer : UInt32) (key : Key) (peers : List UInt32) (i : Nat) :
    r.brings peer (.commit key peers) i = (decide (peer ∈ peers) &&
      (r.hint? peer).any fun hint => Hint.bit (hint.single (Bytes.ofText key)).words i) := by
  rw [brings, brought?]
  split_ifs with hnamed
  · rw [Option.any_map, decide_eq_true hnamed, Bool.true_and]
  · rw [decide_eq_false hnamed, Bool.false_and, Option.any_none]

/-- A commit adds the bits of its key to the hints of the peers that it names, also where
it passes over a hint that has them. -/
theorem gains_commit (r : Registry) (key : Key) (peers : List UInt32) :
    Gains (fun peer => r.brings peer (.commit key peers)) r (r.commit key peers).1 := by
  induction peers generalizing r with
  | nil =>
    refine gains_refl fun peer _ i _ hnew => ?_
    rw [brings_commit] at hnew
    cases hnew
  | cons first rest ih =>
    -- the first peer alone, and then the others
    have hsteps {s : Registry}
        (hfirst : Gains (fun peer => r.brings peer (.commit key [first])) r s) :
        Gains (fun peer => r.brings peer (.commit key (first :: rest))) r
          (s.commit key rest).1 := by
      refine (hfirst.trans (ih s)).congr fun peer hint i _ => congrArg _ ?_
      rw [brings, brings, hfirst.brought?_eq, ← brings, ← brings, brings_commit, brings_commit,
        brings_commit, ← Bool.and_or_distrib_right]
      simp only [List.mem_cons, List.not_mem_nil, or_false, Bool.decide_or]
    have hnamed (i : Nat) : r.brings first (.commit key [first]) i
        = (r.hint? first).any fun hint => Hint.bit (hint.single (Bytes.ofText key)).words i := by
      rw [brings_commit, decide_eq_true List.mem_cons_self, Bool.true_and]
    have hother (peer : UInt32) (i : Nat) (h : peer ≠ first) :
        r.brings peer (.commit key [first]) i = false := by
      rw [brings_commit, decide_eq_false (by rwa [List.mem_singleton]), Bool.false_and]
    rw [commit]
    split_ifs with hadds
    · refine hsteps (gains_modifyPeer (fun p hp => ⟨⟨rfl, rfl⟩, fun i => ?_⟩) hother)
      rw [hnamed, hint?, hp]
      exact Hint.bit_add_eq p.hint (Bytes.ofText key) i
    · refine hsteps (gains_refl fun peer hint i hr hnew => ?_)
      have hpeer : peer = first := by
        by_contra hne
        rw [hother peer i hne] at hnew
        cases hnew
      subst hpeer
      rw [hnamed, hr, Option.any_some] at hnew
      -- the peer is known, so it was passed over because its hint holds the key
      obtain ⟨p, hp, rfl⟩ := Option.map_eq_some_iff.1 hr
      refine Hint.bit_of_contains ?_ hnew
      rw [Std.TreeMap.contains_eq_isSome_getElem?, hinted, hp, Option.isSome_some, Bool.true_and,
        Bool.not_eq_true', Bool.not_eq_false] at hadds
      exact hadds

/-- What arrives adds what it brings. -/
theorem gains_take (r : Registry) (a : Arrival) :
    Gains (fun peer => r.brings peer a) r (r.take a) := by
  cases a with
  | event e => exact gains_receive r e
  | commit key peers => exact gains_commit r key peers

/-! ## All arrivals -/

/-- What arrives in turn adds what each brings to the registry as it was at the start. -/
theorem gains_foldl (log : List Arrival) (r : Registry) :
    Gains (fun peer i => log.any fun a => r.brings peer a i) r (log.foldl take r) := by
  induction log generalizing r with
  | nil =>
    refine gains_refl fun peer _ i _ hnew => ?_
    cases hnew
  | cons first rest ih =>
    have hfirst := gains_take r first
    refine (hfirst.trans (ih (r.take first))).congr fun peer _ i _ => congrArg _ ?_
    have hrest (a : Arrival) : (r.take first).brings peer a i = r.brings peer a i := by
      rw [brings, brings, hfirst.brought?_eq]
    rw [List.any_cons]
    simp only [hrest]

/-- Whatever arrives, in whatever order and however often: registries that have taken the
same things in have the same hints, and a hint has the bits that it had at the start and
those that were brought to it. -/
theorem hints_of_arrivals (r : Registry) {log log' : List Arrival}
    (same : ∀ a, a ∈ log ↔ a ∈ log') (peer : UInt32) :
    (log.foldl take r).hint? peer = (log'.foldl take r).hint? peer ∧
      ∀ i, (log.foldl take r).hintBit peer i
        = (r.hintBit peer i || log.any fun a => r.brings peer a i) := by
  have hlog := gains_foldl log r
  have hlog' := gains_foldl log' r
  have hany (f : Arrival → Bool) : log.any f = log'.any f := by
    rw [Bool.eq_iff_iff, List.any_eq_true, List.any_eq_true]
    exact exists_congr fun a => and_congr_left fun _ => same a
  simp only [hintBit_eq]
  cases hr : r.hint? peer with
  | none =>
    rw [hlog.unknown peer hr, hlog'.unknown peer hr]
    have hnothing (i : Nat) : (log.any fun a => r.brings peer a i) = false := by
      refine List.any_eq_false.2 fun a _ => ?_
      rw [brings_of_unknown hr]
      exact Bool.false_ne_true
    exact ⟨rfl, fun i => by rw [hnothing]; rfl⟩
  | some hint =>
    obtain ⟨a, ha, hshape, hbits⟩ := hlog.known peer hint hr
    obtain ⟨b, hb, hshape', hbits'⟩ := hlog'.known peer hint hr
    rw [ha, hb]
    refine ⟨congrArg some (Hint.eq_of_bit ?_ fun i => ?_), hbits⟩
    · exact ⟨hshape.1.trans hshape'.1.symm, hshape.2.trans hshape'.2.symm⟩
    · rw [hbits, hbits', hany]

/-- A registry that knows one host. -/
def acquainted : Registry :=
  (update ⟨"w", ⟨1, 64, 1⟩, .empty 1 Nat.one_pos, ∅, none⟩ ["a"]).2

/-- The octets of a hint with one word. -/
def octets (capacity word : Nat) : Bytes :=
  Bytes.ofNat 8 capacity ++ Bytes.ofNat 8 1 ++ Bytes.ofNat 8 word

/-- Two hints that are taken in and four that are not: octets that are no hint, a hint of
another shape, one that comes back to its sender and one for a stranger. -/
def posted : List Arrival :=
  [.event ⟨"x", digest "a", octets 64 5⟩, .event ⟨"y", digest "a", octets 64 2⟩,
    .event ⟨"x", digest "a", [1, 2, 3]⟩, .event ⟨"x", digest "a", octets 63 8⟩,
    .event ⟨"w", digest "a", octets 64 16⟩, .event ⟨"x", digest "z", octets 64 32⟩,
    .commit "k" [digest "a", digest "z"]]

/-- They arrive in the opposite order and once more in the order given. The commit, which is
the last of them, brings the bit of its key. -/
theorem hints_of_posted :
    (posted.foldl take acquainted).hintBit (digest "a") 2 = true ∧
      (posted.dropLast.foldl take acquainted).hintBit (digest "a") 50 = false ∧
      (posted.foldl take acquainted).hintBit (digest "a") 50 = true ∧
      ((posted.reverse ++ posted).foldl take acquainted).hintBit (digest "a") 50 = true ∧
      ((posted.reverse ++ posted).foldl take acquainted).hintBit (digest "a") 3 = false ∧
      (posted.foldl take acquainted).hint? (digest "a")
        = ((posted.reverse ++ posted).foldl take acquainted).hint? (digest "a") ∧
      ∀ i, (posted.foldl take acquainted).hintBit (digest "a") i
        = (acquainted.hintBit (digest "a") i ||
          posted.any fun a => acquainted.brings (digest "a") a i) := by
  have same (a : Arrival) : a ∈ posted ↔ a ∈ posted.reverse ++ posted := by
    rw [List.mem_append, List.mem_reverse, or_self]
  exact ⟨by decide +kernel, by decide +kernel, by decide +kernel, by decide +kernel,
    by decide +kernel, hints_of_arrivals acquainted same (digest "a")⟩

end Registry

end QuorumStore
