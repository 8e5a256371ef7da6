import Mathlib.Data.List.Nodup
import QuorumStore.Repair.Shift

/-!
# The staff of a shift

The workers of a shift have a job, queue for one, or rest. A turn may cost a worker,
but nothing else does: those that queue are called one by one, and all that are left
rest in the end. So as many workers rest as there were, where no turn costs one.
-/

namespace QuorumStore.Shift

variable {σ : Type} {fleet : Fleet σ} {shuffle : List Host → List Host} {shuffles : Shuffles}
  {site site' : Site σ} {s after : Shift}

/-- Whether a turn is that of a worker with a job, counted. -/
def busy (t : Turn) : Nat :=
  match t.duty with
  | .takeUp => 0
  | .goOn _ => 1

/-- Whether a turn is that of a worker without a job, counted. -/
def asking (t : Turn) : Nat :=
  match t.duty with
  | .takeUp => 1
  | .goOn _ => 0

/-- The workers that are not lost. -/
def staff (s : Shift) : Nat := s.queued + s.resting + (sum busy s.row + sumLater busy s.later)

/-- Of the workers that queue one has a turn, and it comes at this time. -/
structure Queues (s : Shift) : Prop where
  /-- One of them stands in the row. -/
  row : sum asking s.row = min s.queued 1
  /-- None of them waits for a later time. -/
  later : sumLater asking s.later = 0

/-- The next turn costs its worker. -/
def Loses (fleet : Fleet σ) (shuffle : List Host → List Host) (s : Shift) (site : Site σ) : Prop :=
  ∃ row stage, s.row = ⟨0, .goOn stage⟩ :: row ∧ (stage.turn fleet shuffle site).1 = .lost

theorem queues_start {workers : Nat} (hpos : 0 < workers) (jobs : List RepairJob) :
    (start workers jobs).Queues :=
  ⟨(Nat.min_eq_right hpos).symm, rfl⟩

/-- To give out a job, or to find none, keeps the staff together. -/
theorem Queues.handOut (h : Queues { s with row := ⟨0, .takeUp⟩ :: s.row }) :
    s.handOut.Queues ∧ s.handOut.staff = staff { s with row := ⟨0, .takeUp⟩ :: s.row } := by
  obtain ⟨hrow, hlater⟩ := h
  simp only [sum, asking] at hrow hlater
  unfold Shift.handOut
  split
  · refine ⟨⟨?_, hlater⟩, ?_⟩
    · dsimp only
      omega
    · simp only [staff, sum, busy]
      omega
  · -- the worker that took the job up had queued, and the next one takes its place
    have hothers : sum asking (if s.queued ≤ 1 then [] else [⟨0, .takeUp⟩])
        = min (s.queued - 1) 1 := by
      split_ifs <;> simp only [sum, asking] <;> omega
    have hidle : sum busy (if s.queued ≤ 1 then [] else [⟨0, .takeUp⟩]) = 0 := by
      split_ifs <;> rfl
    refine ⟨⟨?_, hlater⟩, ?_⟩
    · simp only [sum, sum_append, asking] at hothers ⊢
      omega
    · simp only [staff, sum, sum_append, busy] at hidle ⊢
      omega

/-- So does the end of a pass. -/
theorem Queues.release {stage : Site.Stage}
    (h : Queues { s with row := ⟨0, .goOn stage⟩ :: s.row }) :
    s.release.Queues ∧ s.release.staff = staff { s with row := ⟨0, .goOn stage⟩ :: s.row } := by
  obtain ⟨hrow, hlater⟩ := h
  simp only [sum, asking] at hrow hlater
  unfold Shift.release
  split
  · refine ⟨⟨?_, hlater⟩, ?_⟩
    · dsimp only
      omega
    · simp only [staff, sum, busy]
      omega
  · split
    · refine ⟨⟨?_, hlater⟩, ?_⟩
      · simp only [sum, asking]
        omega
      · simp only [staff, sum, busy]
    · refine ⟨⟨?_, hlater⟩, ?_⟩
      · dsimp only
        omega
      · simp only [staff, sum, busy]
        omega

/-- So does a turn after which a pass goes on. -/
theorem Queues.wait {stage next : Site.Stage} (pause : Pause)
    (h : Queues { s with row := ⟨0, .goOn stage⟩ :: s.row }) :
    (s.wait pause next).Queues ∧
      (s.wait pause next).staff = staff { s with row := ⟨0, .goOn stage⟩ :: s.row } := by
  obtain ⟨hrow, hlater⟩ := h
  simp only [sum, asking] at hrow hlater
  unfold Shift.wait
  dsimp only
  split
  · refine ⟨⟨?_, hlater⟩, ?_⟩
    · simp only [sum, sum_append, asking]
      omega
    · simp only [staff, sum, sum_append, busy]
      omega
  · refine ⟨⟨?_, ?_⟩, ?_⟩
    · dsimp only
      omega
    · simp only [sumLater_enqueue, asking]
      omega
    · simp only [staff, sum, sumLater_enqueue, busy]
      omega

/-- So does the passing of time. -/
theorem Queues.advance (h : s.Queues) (hrow : s.row = []) (hstep : s.advance = some after) :
    after.Queues ∧ after.staff = s.staff := by
  obtain ⟨hasked, hlater⟩ := h
  unfold Shift.advance at hstep
  split at hstep <;> cases hstep
  rename_i time turn rest hturns
  have hasking := sumLater_span asking (fun v => v.1 = time) rest
  have hbusy := sumLater_span busy (fun v => v.1 = time) rest
  simp only [hrow, hturns, sum, sumLater] at hasked hlater
  refine ⟨⟨?_, ?_⟩, ?_⟩
  · simp only [sum]
    omega
  · dsimp only
    omega
  · simp only [staff, hrow, hturns, sum, sumLater]
    omega

/-- A step that loses no worker keeps the staff together. -/
theorem Queues.step (h : s.Queues) (hkeeps : ¬ s.Loses fleet shuffle site)
    (hstep : s.step fleet shuffle site = some (after, site')) :
    after.Queues ∧ after.staff = s.staff := by
  obtain ⟨now, row, later, jobs, queued, resting⟩ := s
  match row with
  | [] =>
    simp only [Shift.step, Option.map_eq_some_iff] at hstep
    obtain ⟨_, hadvance, heq⟩ := hstep
    cases heq
    exact h.advance rfl hadvance
  | ⟨hops + 1, duty⟩ :: row =>
    obtain ⟨hrow, hlater⟩ := h
    simp only [Shift.step] at hstep
    cases hstep
    refine ⟨⟨?_, hlater⟩, ?_⟩
    · simp only [sum, sum_append, asking] at hrow ⊢
      omega
    · simp only [staff, sum, sum_append, busy]
      omega
  | ⟨0, .takeUp⟩ :: row =>
    simp only [Shift.step] at hstep
    cases hstep
    exact Queues.handOut (s := ⟨now, row, later, jobs, queued, resting⟩) h
  | ⟨0, .goOn stage⟩ :: row =>
    simp only [Shift.step] at hstep
    split at hstep <;> cases hstep
    · exact Queues.wait (s := ⟨now, row, later, jobs, queued, resting⟩) _ h
    · exact Queues.release (s := ⟨now, row, later, jobs, queued, resting⟩) h
    · rename_i hlost
      exact absurd ⟨row, stage, rfl, congrArg Prod.fst hlost⟩ hkeeps

/-- When no step is left, all workers rest. -/
theorem Queues.resting_of_step_eq_none (h : s.Queues)
    (hdone : s.step fleet shuffle site = none) : s.resting = s.staff := by
  obtain ⟨hrow, -⟩ := h
  obtain ⟨now, row, later, jobs, queued, resting⟩ := s
  match row with
  | [] =>
    cases later with
    | nil =>
      simp only [sum] at hrow
      simp only [staff, sum, sumLater]
      omega
    | cons u rest => simp [Shift.step, Shift.advance] at hdone
  | ⟨hops + 1, duty⟩ :: row => simp [Shift.step] at hdone
  | ⟨0, .takeUp⟩ :: row => simp [Shift.step] at hdone
  | ⟨0, .goOn stage⟩ :: row =>
    simp only [Shift.step] at hdone
    split at hdone <;> cases hdone

theorem run_of_step (h : s.step fleet (shuffles 0) site = some (after, site')) :
    s.run fleet shuffles site = after.run fleet (shuffles.after 1) site' := by
  rw [Shift.run]
  split
  · rename_i hdone
    cases hdone.symm.trans h
  · rename_i hmore
    cases hmore.symm.trans h
    rfl

theorem run_of_done (h : s.step fleet (shuffles 0) site = none) :
    s.run fleet shuffles site = (s.resting, site) := by
  rw [Shift.run]
  split
  · rfl
  · rename_i hmore
    cases hmore.symm.trans h

/-- Where an invariant of the steps rules out that a worker is lost, all workers rest
in the end. -/
theorem Queues.run (Inv : Shift → Site σ → Prop)
    (hstep : ∀ i s site after site', Inv s site →
      s.step fleet (shuffles i) site = some (after, site') → Inv after site')
    (hkeeps : ∀ i s site, Inv s site → ¬ s.Loses fleet (shuffles i) site) (s : Shift)
    (site : Site σ) (h : s.Queues) (hinv : Inv s site) :
    (s.run fleet shuffles site).1 = s.staff := by
  induction shuffles, s, site using Shift.run.induct fleet with
  | case1 shuffles s site hdone =>
    rw [run_of_done hdone]
    exact h.resting_of_step_eq_none hdone
  | case2 shuffles s site after site' hmore ih =>
    obtain ⟨hqueues, hstaff⟩ := h.step (hkeeps 0 s site hinv) hmore
    rw [run_of_step hmore, ih (fun i => hstep (1 + i)) (fun i => hkeeps (1 + i)) hqueues
      (hstep 0 s site _ _ hinv hmore), hstaff]

end QuorumStore.Shift
