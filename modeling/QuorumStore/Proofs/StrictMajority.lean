import Mathlib.Algebra.Group.Nat.Defs
import Mathlib.Tactic.SplitIfs
import QuorumStore.Quorum

/-!
# Consensus is a strict majority

The share that consensus asks for lies above one half by more than two roundings
can take away. So the successes that meet a consensus are more than half of the
nodes contacted, however many there are, and two such groups among the same
nodes always meet. Rounding keeps the order of numbers, so that more successes
never cost a quorum.
-/

namespace QuorumStore

/-- The unit that a large number is rounded to goes into it `2 ^ 52` times. -/
theorem unit_mul_le {n : Nat} (h : 2 ^ 53 ≤ n) : 2 ^ (n.log2 - 52) * 2 ^ 52 ≤ n := by
  have hpos : n ≠ 0 := by omega
  have hlog : 53 ≤ n.log2 := (Nat.le_log2 hpos).2 h
  have hexp : n.log2 - 52 + 52 = n.log2 := by omega
  rw [← Nat.pow_add, hexp]
  exact Nat.log2_self_le hpos

/-- A large number is rounded to a multiple of its unit, down or up to the next one. -/
theorem nearestDouble_eq {n : Nat} (h : 2 ^ 53 ≤ n) :
    let unit := 2 ^ (n.log2 - 52)
    nearestDouble n
      = (if 2 * (n % unit) < unit ∨ (2 * (n % unit) = unit ∧ n / unit % 2 = 0) then n / unit
          else n / unit + 1) * unit := by
  intro unit
  have hbig : ¬ n < Nat.pow 2 53 := Nat.not_lt.2 h
  unfold nearestDouble
  rw [if_neg hbig]
  exact (apply_ite (· * unit) _ _ _).symm

/-- The rounded number lies between the two multiples of the unit around a number. -/
theorem nearestDouble_between {n : Nat} (h : 2 ^ 53 ≤ n) :
    n / 2 ^ (n.log2 - 52) * 2 ^ (n.log2 - 52) ≤ nearestDouble n ∧
      nearestDouble n ≤ (n / 2 ^ (n.log2 - 52) + 1) * 2 ^ (n.log2 - 52) := by
  rw [nearestDouble_eq h]
  split_ifs
  · exact ⟨Nat.le_refl _, Nat.mul_le_mul_right _ (Nat.le_succ _)⟩
  · exact ⟨Nat.mul_le_mul_right _ (Nat.le_succ _), Nat.le_refl _⟩

/-- Rounding moves a number by no more than its unit. -/
theorem nearestDouble_near {n : Nat} (h : 2 ^ 53 ≤ n) :
    ∃ unit, unit * 2 ^ 52 ≤ n ∧ n ≤ nearestDouble n + unit ∧ nearestDouble n ≤ n + unit := by
  obtain ⟨hlow, hhigh⟩ := nearestDouble_between h
  have hunit := unit_mul_le h
  have hpos : 0 < 2 ^ (n.log2 - 52) := Nat.pow_pos (by decide)
  generalize 2 ^ (n.log2 - 52) = unit at hlow hhigh hunit hpos
  have hsplit : n / unit * unit + n % unit = n := by rw [Nat.mul_comm, Nat.div_add_mod]
  have hrest : n % unit < unit := Nat.mod_lt n hpos
  rw [Nat.add_mul, Nat.one_mul] at hhigh
  exact ⟨unit, hunit, by omega, by omega⟩

/-- Rounding loses less than one part in `2 ^ 52`. -/
theorem le_nearestDouble (n : Nat) : (2 ^ 52 - 1) * n ≤ 2 ^ 52 * nearestDouble n := by
  by_cases h : 2 ^ 53 ≤ n
  · obtain ⟨unit, hunit, hlow, -⟩ := nearestDouble_near h
    omega
  · have hself : nearestDouble n = n := if_pos (Nat.lt_of_not_le h)
    rw [hself]
    omega

/-- Rounding adds at most one part in `2 ^ 52`. -/
theorem nearestDouble_le (n : Nat) : 2 ^ 52 * nearestDouble n ≤ (2 ^ 52 + 1) * n := by
  by_cases h : 2 ^ 53 ≤ n
  · obtain ⟨unit, hunit, -, hhigh⟩ := nearestDouble_near h
    omega
  · have hself : nearestDouble n = n := if_pos (Nat.lt_of_not_le h)
    rw [hself]
    omega

/-- The unit of a large number goes into it less than `2 ^ 53` times. -/
theorem div_unit_lt {n : Nat} (h : 2 ^ 53 ≤ n) : n / 2 ^ (n.log2 - 52) < 2 ^ 53 := by
  have hlog : 53 ≤ n.log2 := (Nat.le_log2 (by omega)).2 h
  have hexp : 53 + (n.log2 - 52) = n.log2 + 1 := by omega
  rw [Nat.div_lt_iff_lt_mul (Nat.pow_pos (by decide)), ← Nat.pow_add, hexp]
  exact Nat.lt_log2_self

/-- The next power of two above a large number is no more than what a number of a
greater order is rounded to. -/
theorem two_pow_log2_le_nearestDouble {n : Nat} (h : 2 ^ 53 ≤ n) :
    2 ^ n.log2 ≤ nearestDouble n := by
  have hlog : 53 ≤ n.log2 := (Nat.le_log2 (by omega)).2 h
  have hexp : 52 + (n.log2 - 52) = n.log2 := by omega
  have hunit : 2 ^ 52 ≤ n / 2 ^ (n.log2 - 52) := by
    rw [Nat.le_div_iff_mul_le (Nat.pow_pos (by decide)), Nat.mul_comm]
    exact unit_mul_le h
  calc 2 ^ n.log2 = 2 ^ 52 * 2 ^ (n.log2 - 52) := by rw [← Nat.pow_add, hexp]
    _ ≤ n / 2 ^ (n.log2 - 52) * 2 ^ (n.log2 - 52) := Nat.mul_le_mul_right _ hunit
    _ ≤ nearestDouble n := (nearestDouble_between h).1

/-- Rounding keeps the order of numbers. -/
theorem nearestDouble_mono {n m : Nat} (hle : n ≤ m) : nearestDouble n ≤ nearestDouble m := by
  by_cases hm : 2 ^ 53 ≤ m
  · have hpow := two_pow_log2_le_nearestDouble hm
    by_cases hn : 2 ^ 53 ≤ n
    · have hlogs : n.log2 ≤ m.log2 := (Nat.le_log2 (by omega)).2
        (Nat.le_trans (Nat.log2_self_le (by omega)) hle)
      rcases Nat.lt_or_eq_of_le hlogs with hlt | hsame
      · -- a greater order: the next power of two lies between
        have hlog : 53 ≤ n.log2 := (Nat.le_log2 (by omega)).2 hn
        have hexp : 53 + (n.log2 - 52) = n.log2 + 1 := by omega
        calc nearestDouble n ≤ (n / 2 ^ (n.log2 - 52) + 1) * 2 ^ (n.log2 - 52) :=
              (nearestDouble_between hn).2
          _ ≤ 2 ^ 53 * 2 ^ (n.log2 - 52) := Nat.mul_le_mul_right _ (div_unit_lt hn)
          _ = 2 ^ (n.log2 + 1) := by rw [← Nat.pow_add, hexp]
          _ ≤ 2 ^ m.log2 := Nat.pow_le_pow_right (by decide) hlt
          _ ≤ nearestDouble m := hpow
      · -- the same unit: quotients are in order, and of equal quotients the rests
        rw [nearestDouble_eq hn, nearestDouble_eq hm, hsame]
        have hquotient : n / 2 ^ (m.log2 - 52) ≤ m / 2 ^ (m.log2 - 52) := Nat.div_le_div_right hle
        have hsplitn := Nat.div_add_mod n (2 ^ (m.log2 - 52))
        have hsplitm := Nat.div_add_mod m (2 ^ (m.log2 - 52))
        refine Nat.mul_le_mul_right _ ?_
        rcases Nat.lt_or_eq_of_le hquotient with hless | hequal
        · split_ifs <;> omega
        · rw [hequal] at hsplitn ⊢
          split_ifs <;> omega
    · have hself : nearestDouble n = n := if_pos (Nat.lt_of_not_le hn)
      have horder : 2 ^ 53 ≤ 2 ^ m.log2 :=
        Nat.pow_le_pow_right (by decide) ((Nat.le_log2 (by omega)).2 hm)
      omega
  · have hselfn : nearestDouble n = n := if_pos (by rw [Nat.pow_eq]; omega)
    have hselfm : nearestDouble m = m := if_pos (Nat.lt_of_not_le hm)
    rw [hselfn, hselfm]
    exact hle

/-- The successes that meet a consensus are more than half of all. -/
theorem Quorum.lt_two_mul_of_met {total returned : Nat}
    (h : consensus.met total returned = true) : total < 2 * returned := by
  rw [met, Bool.and_eq_true, decide_eq_true_eq, decide_eq_true_eq] at h
  obtain ⟨hpos, hshare⟩ := h
  have hlow := le_nearestDouble total
  have hhigh := nearestDouble_le returned
  have hpow : Nat.pow 2 54 = 18014398509481984 := rfl
  rw [hpow, shareMidpoint] at hshare
  omega

/-- Without a success there is no consensus. -/
theorem Quorum.met_consensus_none (total : Nat) : consensus.met total 0 = false := by
  cases hmet : consensus.met total 0 with
  | false => rfl
  | true =>
    have hhalf := lt_two_mul_of_met hmet
    omega

/-- No quorum is met without a success, as long as somebody was contacted. -/
theorem Quorum.met_none {total : Nat} (quorum : Quorum) (h : total ≠ 0) :
    quorum.met total 0 = false := by
  cases quorum with
  | one => rfl
  | strong => exact decide_eq_false (Ne.symm h)
  | consensus => exact met_consensus_none total

/-- More successes, up to the number of nodes contacted, never cost a quorum. -/
theorem Quorum.met_mono {quorum : Quorum} {total few many : Nat}
    (h : quorum.met total few = true) (hle : few ≤ many) (hall : many ≤ total) :
    quorum.met total many = true := by
  cases quorum with
  | one =>
    rw [met, decide_eq_true_eq] at h ⊢
    omega
  | strong =>
    rw [met, decide_eq_true_eq] at h ⊢
    omega
  | consensus =>
    rw [met, Bool.and_eq_true, decide_eq_true_eq, decide_eq_true_eq] at h ⊢
    exact ⟨h.1, Nat.le_trans h.2 (Nat.mul_le_mul_left _ (nearestDouble_mono hle))⟩

/-- The successes of all nodes contacted meet every quorum. -/
theorem Quorum.met_all {total : Nat} (quorum : Quorum) (h : total ≠ 0) :
    quorum.met total total = true := by
  cases quorum with
  | one => exact decide_eq_true (Nat.pos_of_ne_zero h)
  | strong => exact decide_eq_true rfl
  | consensus =>
    have hshare : shareMidpoint ≤ Nat.pow 2 54 := by decide
    rw [met, Bool.and_eq_true, decide_eq_true_eq, decide_eq_true_eq]
    exact ⟨Nat.pos_of_ne_zero h, Nat.mul_le_mul_right _ hshare⟩

/-- A majority is more than half. -/
theorem lt_two_mul_majority (n : Nat) : n < 2 * majority n := by
  rw [majority]
  omega

end QuorumStore
