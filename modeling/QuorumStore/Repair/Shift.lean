import QuorumStore.Repair.Turns

/-!
# Shifts

Several workers on the same jobs. The workers whose time has come stand in a
row: the first of them takes its turn, or moves one hop on and goes to the end.
When nobody stands in the row, time passes until the next replies arrive, and
those whom they reach line up in the order of their calls. Workers without a job
queue for one, and only the first of these stands in the row. So what a worker
writes is seen by the calls that the others make after it. A worker that comes
upon a score without a successor is lost.
-/

namespace QuorumStore

/-- A job: the items of one pass. -/
abbrev RepairJob := List Suspect

/-- What a worker does in its turn. -/
inductive Duty where
  /-- Take up a job. -/
  | takeUp
  /-- Go on with a pass. -/
  | goOn (stage : Site.Stage)

/-- A turn to come. -/
structure Turn where
  /-- The hops before it. -/
  hops : Nat
  /-- What is done in it. -/
  duty : Duty

/-- Workers on their way through jobs. -/
structure Shift where
  /-- The time. -/
  now : Nat
  /-- The turns of this time, the next one first. -/
  row : List Turn
  /-- The turns of later times, in order; those of one time in the order of their
  calls. -/
  later : List (Nat × Turn)
  /-- The jobs that no worker has taken up, first come first. -/
  jobs : List RepairJob
  /-- The workers that queue for a job. -/
  queued : Nat
  /-- The workers that found no job left. -/
  resting : Nat

namespace Shift

/-- Workers that queue for jobs. -/
def start (workers : Nat) (jobs : List RepairJob) : Shift :=
  ⟨0, [⟨0, .takeUp⟩], [], jobs, workers, 0⟩

/-- Put a turn among later ones: before those whose time comes after its own. -/
def enqueue (time : Nat) (turn : Turn) : List (Nat × Turn) → List (Nat × Turn)
  | [] => [(time, turn)]
  | u :: rest => if time < u.1 then (time, turn) :: u :: rest else u :: enqueue time turn rest

/-- Let a pass wait for replies. -/
def wait (s : Shift) (pause : Pause) (stage : Site.Stage) : Shift :=
  let turn : Turn := ⟨pause.hops, .goOn stage⟩
  if pause.latency = 0 then { s with row := s.row ++ [turn] }
  else { s with later := enqueue (s.now + pause.latency) turn s.later }

/-- Give the first worker of the queue a job; the next one gets a turn. Without a
job all of the queue rest. -/
def handOut (s : Shift) : Shift :=
  match s.jobs with
  | [] => { s with queued := 0, resting := s.resting + s.queued }
  | job :: jobs =>
    let others : List Turn := if s.queued ≤ 1 then [] else [⟨0, .takeUp⟩]
    { s with
      row := ⟨0, .goOn (.next .empty job)⟩ :: (s.row ++ others), jobs := jobs,
      queued := s.queued - 1 }

/-- What a worker does when its pass is over: take up a job in the same turn, or
queue behind the others, or rest when there is no job. -/
def release (s : Shift) : Shift :=
  match s.jobs with
  | [] => { s with resting := s.resting + 1 }
  | job :: jobs =>
    if s.queued = 0 then { s with row := ⟨0, .goOn (.next .empty job)⟩ :: s.row, jobs := jobs }
    else { s with queued := s.queued + 1 }

/-- Let time pass until the next turns come. -/
def advance (s : Shift) : Option Shift :=
  match s.later with
  | [] => none
  | (time, turn) :: rest =>
    some { s with
      now := time, row := turn :: (rest.takeWhile fun u => u.1 = time).map Prod.snd,
      later := rest.dropWhile fun u => u.1 = time }

variable {σ : Type}

/-- Let the first of the row take its turn, or move one hop on. -/
def step (fleet : Fleet σ) (shuffle : List Host → List Host) (s : Shift) (site : Site σ) :
    Option (Shift × Site σ) :=
  match s.row with
  | [] => s.advance.map fun s => (s, site)
  | ⟨hops + 1, duty⟩ :: row => some ({ s with row := row ++ [⟨hops, duty⟩] }, site)
  | ⟨0, .takeUp⟩ :: row => some (handOut { s with row := row }, site)
  | ⟨0, .goOn stage⟩ :: row =>
    match stage.turn fleet shuffle site with
    | (.waits pause stage, site) => some (wait { s with row := row } pause stage, site)
    | (.over, site) => some (release { s with row := row }, site)
    | (.lost, site) => some ({ s with row := row }, site)

/-! ## The end of a shift -/

/-- The items not decided about in a turn's pass. -/
def undecided (t : Turn) : Nat :=
  match t.duty with
  | .takeUp => 0
  | .goOn stage => stage.undecided

/-- The winners or corrections left in a turn's pass. -/
def left (t : Turn) : Nat :=
  match t.duty with
  | .takeUp => 1
  | .goOn stage => stage.left

theorem left_pos (t : Turn) : 0 < left t := by
  unfold left
  split
  · exact Nat.one_pos
  · exact Site.Stage.left_pos _

/-- The sum of a number over turns. -/
def sum (f : Turn → Nat) : List Turn → Nat
  | [] => 0
  | t :: rest => f t + sum f rest

theorem sum_le_sum (f g : Turn → Nat) (h : ∀ t, f t ≤ g t) (turns : List Turn) :
    sum f turns ≤ sum g turns := by
  induction turns with
  | nil => exact Nat.le_refl _
  | cons t rest ih => exact Nat.add_le_add (h t) ih

/-- The sum of a number over later turns. -/
def sumLater (f : Turn → Nat) : List (Nat × Turn) → Nat
  | [] => 0
  | u :: rest => f u.2 + sumLater f rest

theorem sum_append (f : Turn → Nat) (xs ys : List Turn) :
    sum f (xs ++ ys) = sum f xs + sum f ys := by
  induction xs with
  | nil => simp [sum]
  | cons t rest ih =>
    simp only [List.cons_append, sum, ih]
    omega

theorem sumLater_enqueue (f : Turn → Nat) (time : Nat) (t : Turn) (turns : List (Nat × Turn)) :
    sumLater f (enqueue time t turns) = f t + sumLater f turns := by
  induction turns with
  | nil => rfl
  | cons u rest ih =>
    unfold enqueue
    split
    · rfl
    · simp only [sumLater, ih]
      omega

theorem sumLater_span (f : Turn → Nat) (p : Nat × Turn → Bool) (turns : List (Nat × Turn)) :
    sum f ((turns.takeWhile p).map Prod.snd) + sumLater f (turns.dropWhile p) =
      sumLater f turns := by
  induction turns with
  | nil => rfl
  | cons u rest ih =>
    by_cases h : p u
    · simp only [List.takeWhile_cons, List.dropWhile_cons, h, if_true, List.map_cons, sum,
        sumLater]
      omega
    · rw [List.takeWhile_cons_of_neg h, List.dropWhile_cons_of_neg h, List.map_nil, sum,
        Nat.zero_add]

/-- The items of jobs, counted like those of passes. -/
def waiting : List RepairJob → Nat
  | [] => 0
  | job :: rest => 2 * job.length + 2 + waiting rest

/-- What is left to do: items to decide about, winners and corrections, and hops,
with one more for a turn of a later time. -/
def remaining (s : Shift) : Nat × Nat × Nat :=
  (sum undecided s.row + sumLater undecided s.later + waiting s.jobs,
    sum left s.row + sumLater left s.later,
    sum (·.hops) s.row + sumLater (fun t => t.hops + 1) s.later)

/-- To give out a job, or to find none, is progress. -/
theorem remaining_handOut (s : Shift) :
    Prod.Lex (· < ·) (Prod.Lex (· < ·) (· < ·)) (handOut s).remaining
      (remaining { s with row := ⟨0, .takeUp⟩ :: s.row }) := by
  simp only [Prod.lex_def, handOut]
  split
  · simp only [remaining, sum, undecided, left]
    omega
  · rename_i job jobs hjobs
    have hnext := Site.Stage.undecided_next .empty job
    have hothers : sum undecided (if s.queued ≤ 1 then [] else [⟨0, .takeUp⟩]) = 0 := by
      split <;> rfl
    simp only [remaining, sum, sum_append, undecided, hjobs, waiting] at hothers ⊢
    omega

/-- So is the end of a pass. -/
theorem remaining_release (s : Shift) (stage : Site.Stage) :
    Prod.Lex (· < ·) (Prod.Lex (· < ·) (· < ·)) (release s).remaining
      (remaining { s with row := ⟨0, .goOn stage⟩ :: s.row }) := by
  have hpos := stage.left_pos
  simp only [Prod.lex_def, release]
  split
  · simp only [remaining, sum, undecided, left]
    omega
  · rename_i job jobs hjobs
    have hnext := Site.Stage.undecided_next .empty job
    split
    · simp only [remaining, sum, undecided, hjobs, waiting]
      omega
    · simp only [remaining, sum, undecided, left]
      omega

/-- So is a turn that brings a pass nearer to its end. -/
theorem remaining_wait (s : Shift) {stage after : Site.Stage} (pause : Pause)
    (h : after.Nearer stage) :
    Prod.Lex (· < ·) (Prod.Lex (· < ·) (· < ·)) (wait s pause after).remaining
      (remaining { s with row := ⟨0, .goOn stage⟩ :: s.row }) := by
  simp only [Prod.lex_def, wait, Site.Stage.Nearer] at h ⊢
  split
  · simp only [remaining, sum, sum_append, undecided, left]
    omega
  · simp only [remaining, sum, sumLater_enqueue, undecided, left]
    omega

/-- Every step leaves less to do. -/
theorem remaining_step {fleet : Fleet σ} {shuffle : List Host → List Host} {s after : Shift}
    {site site' : Site σ} (h : s.step fleet shuffle site = some (after, site')) :
    Prod.Lex (· < ·) (Prod.Lex (· < ·) (· < ·)) after.remaining s.remaining := by
  obtain ⟨now, row, later, jobs, queued, resting⟩ := s
  match row with
  | [] =>
    cases later with
    | nil => simp [step, advance] at h
    | cons u rest =>
      simp only [step, advance, Option.map_some] at h
      cases h
      have hitems := sumLater_span undecided (fun v => v.1 = u.1) rest
      have hleft := sumLater_span left (fun v => v.1 = u.1) rest
      have hhops := sumLater_span (fun t => t.hops + 1) (fun v => v.1 = u.1) rest
      have := sum_le_sum (fun t => t.hops) (fun t => t.hops + 1) (fun t => Nat.le_succ _)
        ((rest.takeWhile fun v => v.1 = u.1).map Prod.snd)
      simp only [Prod.lex_def, remaining, sum, sumLater]
      omega
  | ⟨hops + 1, duty⟩ :: row =>
    simp only [step] at h
    cases h
    simp only [Prod.lex_def, remaining, sum, sum_append, undecided, left]
    omega
  | ⟨0, .takeUp⟩ :: row =>
    simp only [step] at h
    cases h
    exact remaining_handOut ⟨now, row, later, jobs, queued, resting⟩
  | ⟨0, .goOn stage⟩ :: row =>
    simp only [step] at h
    split at h <;> cases h
    · rename_i hturn
      exact remaining_wait ⟨now, row, later, jobs, queued, resting⟩ _
        (Site.Stage.nearer_turn (congrArg Prod.fst hturn))
    · exact remaining_release ⟨now, row, later, jobs, queued, resting⟩ stage
    · have hpos := stage.left_pos
      simp only [Prod.lex_def, remaining, sum, undecided, left]
      omega

/-- Let the workers take turns until all of them rest or are lost; the hosts are
shuffled for each turn. The answer tells how many rest. -/
def run (fleet : Fleet σ) (shuffles : Shuffles) (s : Shift) (site : Site σ) : Nat × Site σ :=
  match _h : s.step fleet (shuffles 0) site with
  | none => (s.resting, site)
  | some (after, site) => after.run fleet (shuffles.after 1) site
termination_by s.remaining
decreasing_by exact remaining_step _h

end Shift

end QuorumStore
