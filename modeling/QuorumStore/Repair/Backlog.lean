import QuorumStore.Repair.Shift

/-!
# The repair backlog

Suspected fields wait in a bounded queue until a worker takes them up. A job
that finds no place is dropped, since the next read will find the difference
again. With the last of its workers the queue closes and forgets what it holds.
-/

namespace QuorumStore

/-- Jobs that wait, and the workers that take them up. -/
structure RepairBacklog where
  /-- The number of places. -/
  capacity : Nat
  /-- The jobs that wait, first come first. -/
  waiting : List RepairJob
  /-- The workers left. -/
  workers : Nat
  deriving Repr

namespace RepairBacklog

/-- A queue without jobs. -/
def start (capacity workers : Nat) : Except Abort RepairBacklog :=
  if capacity = 0 then .error .noCapacity
  else if workers = 0 then .error .noWorkers
  else .ok ⟨capacity, [], workers⟩

/-- The places left. -/
def remaining (q : RepairBacklog) : Nat := q.capacity - q.waiting.length

/-- Offer a job, and tell whether it was taken. A job without items is done
already. -/
def offer (q : RepairBacklog) (job : RepairJob) : RepairBacklog × Bool :=
  if job.isEmpty then (q, true)
  else if 0 < q.workers ∧ 0 < q.remaining then ({ q with waiting := q.waiting ++ [job] }, true)
  else (q, false)

/-- Offer jobs in turn, and tell of each whether it was taken and how many
places were left. -/
def offerAll (q : RepairBacklog) : List RepairJob → RepairBacklog × List (Bool × Nat)
  | [] => (q, [])
  | job :: rest =>
    let (q, taken) := q.offer job
    let (after, others) := q.offerAll rest
    (after, (taken, q.remaining) :: others)

end RepairBacklog

/-- Work until the queue is idle. -/
def RepairBacklog.drain {σ : Type} (q : RepairBacklog) (fleet : Fleet σ)
    (shuffles : Shuffles) (site : Site σ) : RepairBacklog × Site σ :=
  let (workers, site) := (Shift.start q.workers q.waiting).run fleet shuffles site
  ({ q with waiting := [], workers := workers }, site)

end QuorumStore
