import Mathlib.Tactic.ByContra
import QuorumStore.Proofs.StrictMajority

/-!
# Where a majority is a consensus

The nodes of a consensus are chosen by counting a strict majority, and a consensus is
judged by a share of fifty-one hundredths. The share always asks for a strict majority.
A strict majority has the share only in clusters that are not too large: one node more
than half is less than one hundredth of all nodes once there are more than a hundred of
them, and half a node more than half is less once there are more than fifty.
-/

namespace QuorumStore

namespace Quorum

variable {total returned n r : Nat}

/-- Whether the successes are fifty-one hundredths of the nodes contacted, in exact
arithmetic. -/
def metExactly (total returned : Nat) : Bool :=
  decide (0 < total) && decide (51 * total ≤ 100 * returned)

theorem metExactly_iff :
    metExactly total returned = true ↔ 0 < total ∧ 51 * total ≤ 100 * returned := by
  rw [metExactly, Bool.and_eq_true, decide_eq_true_eq, decide_eq_true_eq]

/-- Doubles hold small counts exactly. -/
theorem nearestDouble_small (h : n < 2 ^ 53) : nearestDouble n = n := if_pos h

/-- As long as a hundredth of a node is more than the doubles around the share leave
open, consensus is judged as in exact arithmetic. -/
theorem met_eq_metExactly (hall : returned ≤ total) (hsmall : total < 2 ^ 47) :
    consensus.met total returned = metExactly total returned := by
  have hpow : Nat.pow 2 54 = 18014398509481984 := rfl
  have hshare : shareMidpoint * total ≤ Nat.pow 2 54 * returned ↔ 51 * total ≤ 100 * returned := by
    rw [hpow, shareMidpoint]
    omega
  rw [met, metExactly, nearestDouble_small (by omega), nearestDouble_small (by omega)]
  simp only [hshare]

/-- The clusters in which the least strict majority has the share: at most forty-nine
nodes where their number is odd, and at most a hundred where it is even. -/
def MajorityHasShare (n : Nat) : Prop := if n % 2 = 0 then n ≤ 100 else n ≤ 49

instance (n : Nat) : Decidable (MajorityHasShare n) :=
  inferInstanceAs (Decidable (if n % 2 = 0 then n ≤ 100 else n ≤ 49))

/-- How a test of the number of successes stands to the strict majority of `n` nodes. -/
structure Majority (n : Nat) (test : Nat → Bool) : Prop where
  /-- Whoever passes has a strict majority. -/
  needed : ∀ r ≤ n, test r = true → majority n ≤ r
  /-- Every strict majority passes in the clusters that are not too large, and in no
  others. -/
  enough_iff : (∀ r ≤ n, majority n ≤ r → test r = true) ↔ MajorityHasShare n
  /-- In those that are too large the least strict majority is refused. -/
  refused : ¬ MajorityHasShare n → test (majority n) = false

/-- The least strict majority has the share exactly in clusters that are not too large. -/
theorem share_majority_iff (n : Nat) : 51 * n ≤ 100 * majority n ↔ MajorityHasShare n := by
  unfold MajorityHasShare majority
  split_ifs <;> omega

/-- In a cluster that is too large, the least strict majority misses the consensus, by
more than rounding can make up for. -/
theorem met_majority_of_large (h : ¬ MajorityHasShare n) : consensus.met n (majority n) = false := by
  by_cases hsmall : n < 2 ^ 47
  · have hall : majority n ≤ n := by
      unfold MajorityHasShare at h
      unfold majority
      split_ifs at h <;> omega
    rw [met_eq_metExactly hall hsmall, Bool.eq_false_iff, ne_eq, metExactly_iff, share_majority_iff]
    exact fun hmet => h hmet.2
  · have hlow := le_nearestDouble n
    have hhigh := nearestDouble_le (majority n)
    have hpow : Nat.pow 2 54 = 18014398509481984 := rfl
    rw [Bool.eq_false_iff, ne_eq, met, Bool.and_eq_true, decide_eq_true_eq, decide_eq_true_eq, hpow,
      shareMidpoint]
    unfold majority at hhigh ⊢
    omega

/-- A test that asks for at least a strict majority, passes more successes where it
passes fewer, and judges the least strict majority by its share. -/
theorem Majority.of_least {test : Nat → Bool} (hneeded : ∀ r ≤ n, test r = true → majority n ≤ r)
    (hmono : ∀ few many, few ≤ many → many ≤ n → test few = true → test many = true)
    (hleast : 0 < n → (test (majority n) = true ↔ MajorityHasShare n)) : Majority n test where
  needed := hneeded
  enough_iff := by
    rcases Nat.eq_zero_or_pos n with rfl | hpos
    · -- nobody is contacted, and there is no majority of nobody
      refine iff_of_true (fun r hr hmajority => ?_) (by decide)
      unfold majority at hmajority
      omega
    · have hall : majority n ≤ n := by
        unfold majority
        omega
      rw [← hleast hpos]
      exact ⟨fun h => h _ hall (Nat.le_refl _), fun h r hr hmajority => hmono _ r hmajority hr h⟩
  refused hlarge := by
    rcases Nat.eq_zero_or_pos n with rfl | hpos
    · exact absurd (by decide) hlarge
    · exact Bool.eq_false_iff.2 (mt (hleast hpos).1 hlarge)

/-- The judgement of consensus, in doubles, needs a strict majority, and takes every strict
majority in the clusters that are not too large and in no others. -/
theorem majority_met (n : Nat) : Majority n (consensus.met n) := by
  refine .of_least (fun r _ hmet => ?_) (fun _ _ hle hall hmet => met_mono hmet hle hall)
    fun hpos => ⟨fun hmet => ?_, fun hsmall => ?_⟩
  · have hhalf := lt_two_mul_of_met hmet
    unfold majority
    omega
  · by_contra hlarge
    rw [met_majority_of_large hlarge] at hmet
    cases hmet
  · have hall : majority n ≤ n := by
      unfold majority
      omega
    have hfew : n < 2 ^ 47 := by
      unfold MajorityHasShare at hsmall
      split_ifs at hsmall <;> omega
    rw [met_eq_metExactly hall hfew, metExactly_iff]
    exact ⟨hpos, (share_majority_iff n).2 hsmall⟩

/-- The same holds of the judgement in exact arithmetic. -/
theorem majority_metExactly (n : Nat) : Majority n (metExactly n) := by
  refine .of_least (fun r _ hmet => ?_) (fun few many hle _ hmet => ?_) fun hpos => ?_
  · rw [metExactly_iff] at hmet
    unfold majority
    omega
  · rw [metExactly_iff] at hmet ⊢
    exact ⟨hmet.1, by omega⟩
  · rw [metExactly_iff, ← share_majority_iff]
    exact and_iff_right hpos

/-- Among any number of nodes, the successes that consensus accepts are a strict majority.
Every strict majority is accepted if and only if the nodes are at most forty-nine and odd
in number, or at most a hundred and even; among more of them the least strict majority is
refused. This is so in exact arithmetic and in doubles, which judge alike wherever a
hundredth of a node is more than rounding leaves open. -/
theorem met_against_majority (n : Nat) :
    Majority n (metExactly n) ∧ Majority n (consensus.met n) ∧
      (n < 2 ^ 47 → ∀ r ≤ n, consensus.met n r = metExactly n r) :=
  ⟨majority_metExactly n, majority_met n, fun hsmall _ hall => met_eq_metExactly hall hsmall⟩

/-- Two of three nodes are a strict majority and a consensus. -/
theorem met_against_majority_of_three :
    (3 < 2 ^ 47 ∧ 2 ≤ 3 ∧ majority 3 ≤ 2) ∧
      metExactly 3 2 = true ∧ consensus.met 3 2 = metExactly 3 2 := by
  have hthree := met_against_majority 3
  exact ⟨by decide, hthree.1.enough_iff.2 (by decide) 2 (by decide) (by decide),
    hthree.2.2 (by decide) 2 (by decide)⟩

/-- A strict majority is not always a consensus: twenty-six of fifty-one nodes are not. -/
theorem majority_unmet_of_fiftyOne :
    majority 51 = 26 ∧ metExactly 51 26 = false ∧ consensus.met 51 26 = false ∧
      ¬ ∀ n r, 1 ≤ n → r ≤ n → (metExactly n r = true ↔ majority n ≤ r) := by
  refine ⟨rfl, rfl, rfl, fun halways => ?_⟩
  have hfiftyOne : metExactly 51 26 = true := (halways 51 26 (by decide) (by decide)).2 (by decide)
  cases hfiftyOne

end Quorum

end QuorumStore
