import QuorumStore.Proofs.ScoreLimit

/-!
# Whom the quorum of a diagnosis vouches for

The quorum of a diagnosis counts the snapshots that know the field, whichever state they show.
So a strict majority of the replicas asked knows the field, and of what they show the winning
state is the strongest. How many of them show the winning state is another matter: any number
from one to all. Where two replicas or more are asked, one of them can have its state win
against all others.
-/

namespace QuorumStore.Diagnosis

variable {item : Suspect} {asked known shown : Nat} {replies : List Presence}

/-- A field has its quorum when enough of the replicas asked know it. -/
theorem quorum_iff : (ofPresences item asked replies).quorum = true ↔
    Quorum.consensus.met asked (replies.countP (·.present)) = true := by
  have hacts : (ofPresences item asked replies).ignore = false ∧
      (ofPresences item asked replies).quorum = true ↔ _ := acts_iff
  rw [List.countP_eq_length_filter, ← hacts, and_comm]
  refine (and_iff_left_of_imp fun hquorum => ?_).symm
  cases hignore : (ofPresences item asked replies).ignore with
  | false => rfl
  | true =>
    have hnone := filter_eq_nil_of_ignore hignore
    rw [ofPresences, hnone] at hquorum
    cases hquorum

/-- A field that has its quorum is not to be ignored. -/
theorem not_ignore_of_quorum (h : (ofPresences item asked replies).quorum = true) :
    (ofPresences item asked replies).ignore = false := by
  rw [quorum_iff, List.countP_eq_length_filter] at h
  have hacts : (ofPresences item asked replies).ignore = false ∧ _ := acts_iff.2 h
  exact hacts.1

/-- Only a snapshot that knows the field shows the winning state. -/
theorem countP_isWinner_le (d : Diagnosis) (replies : List Presence) :
    replies.countP d.isWinner ≤ replies.countP (·.present) :=
  List.countP_mono_left fun _ _ h => (isWinner_iff.1 h).1

/-- With a quorum some snapshot shows the winning state. -/
theorem countP_isWinner_pos (h : (ofPresences item asked replies).quorum = true) :
    0 < replies.countP (ofPresences item asked replies).isWinner := by
  obtain ⟨p, hp, hpresent, hrank⟩ := exists_winner (not_ignore_of_quorum h)
  exact List.countP_pos_iff.2 ⟨p, hp, isWinner_iff.2 ⟨hpresent, hrank⟩⟩

/-- Snapshots of which some show a live value at one score, and the others one at the score
before. -/
def overtaken (ahead behind : Nat) : List Presence :=
  List.replicate ahead ⟨true, true, 1⟩ ++ List.replicate behind ⟨true, true, 0⟩

theorem eq_of_mem_overtaken {ahead behind : Nat} {p : Presence} (h : p ∈ overtaken ahead behind) :
    p = ⟨true, true, 1⟩ ∨ p = ⟨true, true, 0⟩ :=
  (List.mem_append.1 h).imp List.eq_of_mem_replicate List.eq_of_mem_replicate

/-- Those that are ahead win, however many are behind. -/
theorem ofPresences_overtaken (item : Suspect) (asked : Nat) {ahead : Nat} (h : 0 < ahead)
    (behind : Nat) :
    ofPresences item asked (overtaken ahead behind) = ⟨item.key, item.field, item.value, false,
      true, 1, Quorum.consensus.met asked (ahead + behind)⟩ := by
  have hknown : (overtaken ahead behind).filter (·.present) = overtaken ahead behind :=
    List.filter_eq_self.2 fun p hp => by
      rcases eq_of_mem_overtaken hp with rfl | rfl <;> rfl
  have hahead : (⟨true, true, 1⟩ : Presence) ∈ overtaken ahead behind :=
    List.mem_append_left _ (List.mem_replicate.2 ⟨h.ne', rfl⟩)
  have htop : topScore? ((overtaken ahead behind).map (·.score)) = some 1 := by
    refine topScore?_eq_some_iff.2 ⟨List.mem_map.2 ⟨_, hahead, rfl⟩, fun s hs => ?_⟩
    obtain ⟨p, hp, rfl⟩ := List.mem_map.1 hs
    rcases eq_of_mem_overtaken hp with rfl | rfl <;> decide
  have hlive : (overtaken ahead behind).any (fun p => decide (p.score = 1) && p.inserted) = true :=
    List.any_eq_true.2 ⟨_, hahead, rfl⟩
  have hlength : (overtaken ahead behind).length = ahead + behind := by
    rw [overtaken, List.length_append, List.length_replicate, List.length_replicate]
  rw [ofPresences, hknown, htop]
  dsimp only
  rw [hlive, hlength]

/-- A quorum is one of snapshots that know the field. Of these any number may show the winning
state, as long as there is one. -/
theorem supports_iff :
    (∃ replies : List Presence, replies.length ≤ asked ∧
      replies.countP (·.present) = known ∧
      replies.countP (ofPresences item asked replies).isWinner = shown ∧
      (ofPresences item asked replies).quorum = true) ↔
    known ≤ asked ∧ Quorum.consensus.met asked known = true ∧ 0 < shown ∧ shown ≤ known := by
  constructor
  · rintro ⟨replies, hfew, rfl, rfl, hquorum⟩
    exact ⟨List.countP_le_length.trans hfew, quorum_iff.1 hquorum, countP_isWinner_pos hquorum,
      countP_isWinner_le _ replies⟩
  · rintro ⟨hfew, hmet, hsome, hle⟩
    have hall : shown + (known - shown) = known := Nat.add_sub_cancel' hle
    have hd := ofPresences_overtaken item asked hsome (known - shown)
    refine ⟨overtaken shown (known - shown), ?_, ?_, ?_, ?_⟩
    · rw [overtaken, List.length_append, List.length_replicate, List.length_replicate, hall]
      exact hfew
    · simp [overtaken, List.countP_replicate, hall]
    · rw [hd]
      simp [overtaken, List.countP_replicate, isWinner]
    · rw [hd, hall]
      exact hmet

/-- What the quorum of a diagnosis vouches for: more than half of the replicas asked know the
field, one shows the winning state, and none shows a stronger one. -/
structure Vouched (d : Diagnosis) (asked : Nat) (replies : List Presence) : Prop where
  /-- More than half of the replicas asked know the field. -/
  known : asked < 2 * replies.countP (·.present)
  /-- The winning state is shown. -/
  shown : 0 < replies.countP d.isWinner
  /-- Nothing stronger is shown. -/
  strongest : ∀ p ∈ replies, p.present = true → p.rank ≤ d.rank

/-- More than half of the replicas asked show the winning state. -/
def Corroborated (d : Diagnosis) (asked : Nat) (replies : List Presence) : Prop :=
  asked < 2 * replies.countP d.isWinner

/-- A quorum vouches for a majority that knows the field and for the strongest of what it
shows. It vouches for a majority that shows the winning state exactly where no more than one
replica is asked. -/
theorem quorum_vouches :
    (∀ item replies, (ofPresences item asked replies).quorum = true →
      (ofPresences item asked replies).Vouched asked replies) ∧
    ((∀ item replies, replies.length ≤ asked → (ofPresences item asked replies).quorum = true →
      (ofPresences item asked replies).Corroborated asked replies) ↔ asked ≤ 1) := by
  constructor
  · intro item replies hquorum
    exact ⟨Quorum.lt_two_mul_of_met (quorum_iff.1 hquorum), countP_isWinner_pos hquorum,
      fun p hp hpresent => rank_le (not_ignore_of_quorum hquorum) hp hpresent⟩
  · constructor
    · intro hall
      by_contra hmany
      have hmet : Quorum.consensus.met asked asked = true := Quorum.met_all .consensus (by omega)
      obtain ⟨replies, hfew, -, hshown, hquorum⟩ := (@supports_iff ⟨"k", "f", []⟩ asked asked 1).2
        ⟨le_refl asked, hmet, Nat.one_pos, by omega⟩
      have hhalf := hall _ replies hfew hquorum
      rw [Corroborated, hshown] at hhalf
      omega
    · intro hfew item replies _ hquorum
      have hshown := countP_isWinner_pos hquorum
      rw [Corroborated]
      omega

/-- Of three replicas two agree, and the third has a state of its own at a higher score. There
is a quorum, and the state that one replica shows wins. -/
theorem lone_winner :
    let replies : List Presence := [⟨true, true, 9⟩, ⟨true, true, 1⟩, ⟨true, true, 1⟩]
    let d := ofPresences ⟨"k", "f", []⟩ 3 replies
    replies.length ≤ 3 ∧ d.quorum = true ∧ d.score = 9 ∧ replies.countP d.isWinner = 1 ∧
      ¬ d.Corroborated 3 replies := by
  unfold Corroborated
  decide +kernel

end QuorumStore.Diagnosis
