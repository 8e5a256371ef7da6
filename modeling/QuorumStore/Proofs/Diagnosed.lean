import QuorumStore.Proofs.LastWrite
import QuorumStore.Repair.Diagnosis

/-!
# The winning state of a diagnosis

The snapshots that know a field are ranked like the records that they show. A
diagnosis that calls for a repair names the greatest of these ranks: no snapshot
that knows the field stands above it, and one of them shows it.
-/

namespace QuorumStore

/-- The rank of the record that a snapshot shows. -/
def Presence.rank (p : Presence) : Rank := toLex (p.score, p.inserted)

/-- A store that knows a field shows its record. -/
theorem Store.score_eq_of_cell? {store : Store} {key : Key} {field : Field} {c : Cell}
    (h : store.cell? key field = some c) : store.score key field = ⟨c.live, true, c.score⟩ := by
  rw [score, h]

/-- A snapshot that knows the field shows a record of the store. -/
theorem Store.exists_cell_of_present {store : Store} {key : Key} {field : Field}
    (h : (store.score key field).present = true) :
    ∃ c, store.cell? key field = some c ∧ (store.score key field).rank = c.rank := by
  cases hc : store.cell? key field with
  | none =>
    rw [score, hc] at h
    cases h
  | some c =>
    refine ⟨c, rfl, ?_⟩
    rw [score_eq_of_cell? hc]
    rfl

namespace Diagnosis

variable {item : Suspect} {asked : Nat} {replies : List Presence}

/-- The rank of the winning state. -/
def rank (d : Diagnosis) : Rank := toLex (d.score, d.insert)

/-- A record of the winning rank has the winning score and is live alike. -/
theorem eq_of_rank_eq {d : Diagnosis} {c : Cell} (h : c.rank = d.rank) :
    c.score = d.score ∧ c.live = d.insert := by
  rw [Cell.rank, rank, EmbeddingLike.apply_eq_iff_eq, Prod.mk.injEq] at h
  exact h

/-- The top score of a list is the greatest score in it. -/
theorem topScore?_eq_some_iff {scores : List Int} {score : Int} :
    topScore? scores = some score ↔ score ∈ scores ∧ ∀ s ∈ scores, s ≤ score := by
  have hmax : topScore? scores = scores.max? := by
    cases scores <;> rfl
  rw [hmax, List.max?_eq_some_iff]

/-- What a diagnosis that is not to be ignored says. -/
theorem eq_of_not_ignore (h : (ofPresences item asked replies).ignore = false) :
    ∃ score, topScore? ((replies.filter (·.present)).map (·.score)) = some score ∧
      ofPresences item asked replies
        = ⟨item.key, item.field, item.value, false,
            (replies.filter (·.present)).any fun p => decide (p.score = score) && p.inserted,
            score, Quorum.consensus.met asked (replies.filter (·.present)).length⟩ := by
  unfold ofPresences at h ⊢
  dsimp only at h ⊢
  cases htop : topScore? ((replies.filter (·.present)).map (·.score)) with
  | none =>
    rw [htop] at h
    cases h
  | some score => exact ⟨score, rfl, rfl⟩

/-- A diagnosis is to be ignored only when no snapshot knows the field. -/
theorem filter_eq_nil_of_ignore (h : (ofPresences item asked replies).ignore = true) :
    replies.filter (·.present) = [] := by
  unfold ofPresences at h
  dsimp only at h
  cases hknown : replies.filter (·.present) with
  | nil => rfl
  | cons p rest =>
    rw [hknown] at h
    cases h

/-- No snapshot that knows the field stands above the winning state. -/
theorem rank_le (h : (ofPresences item asked replies).ignore = false) {p : Presence}
    (hp : p ∈ replies) (hpresent : p.present = true) :
    p.rank ≤ (ofPresences item asked replies).rank := by
  obtain ⟨score, htop, heq⟩ := eq_of_not_ignore h
  have hknown : p ∈ replies.filter (·.present) := List.mem_filter.2 ⟨hp, hpresent⟩
  have hle := (topScore?_eq_some_iff.1 htop).2 p.score (List.mem_map.2 ⟨p, hknown, rfl⟩)
  rw [heq, rank, Presence.rank, Prod.Lex.toLex_le_toLex]
  rcases Int.lt_or_eq_of_le hle with hlt | hsame
  · exact Or.inl hlt
  · refine Or.inr ⟨hsame, ?_⟩
    -- a live snapshot at the winning score makes the winning state live
    rw [Bool.le_iff_imp]
    intro hlive
    have hins : p.inserted = true := hlive
    exact List.any_eq_true.2 ⟨p, hknown, by simp [hsame, hins]⟩

/-- Some snapshot shows the winning state. -/
theorem exists_winner (h : (ofPresences item asked replies).ignore = false) :
    ∃ p ∈ replies, p.present = true ∧ p.rank = (ofPresences item asked replies).rank := by
  obtain ⟨score, htop, heq⟩ := eq_of_not_ignore h
  rw [heq]
  cases hlive : (replies.filter (·.present)).any
      fun p => decide (p.score = score) && p.inserted with
  | true =>
    obtain ⟨p, hp, hwin⟩ := List.any_eq_true.1 hlive
    rw [Bool.and_eq_true, decide_eq_true_eq] at hwin
    obtain ⟨hmem, hpresent⟩ := List.mem_filter.1 hp
    exact ⟨p, hmem, hpresent, by rw [Presence.rank, rank, hwin.1, hwin.2]⟩
  | false =>
    obtain ⟨p, hp, hscore⟩ := List.mem_map.1 (topScore?_eq_some_iff.1 htop).1
    obtain ⟨hmem, hpresent⟩ := List.mem_filter.1 hp
    have hdead : p.inserted = false := by
      have hnone := List.any_eq_false.1 hlive p hp
      simpa [hscore] using hnone
    exact ⟨p, hmem, hpresent, by rw [Presence.rank, rank, hscore, hdead]⟩

/-- A snapshot of the winning state is the same as a winner. -/
theorem isWinner_iff {d : Diagnosis} {p : Presence} :
    d.isWinner p = true ↔ p.present = true ∧ p.rank = d.rank := by
  simp [isWinner, Presence.rank, rank, and_assoc]

end Diagnosis

end QuorumStore
