import QuorumStore.Cluster.Fleet

/-!
# The line to the gatherer

The replies to a scattered call reach the gatherer over one line, which has a
place for each host that was asked. Hosts that send at the same time do so in
rounds, one reply each. A host that finds no place left waits. When nobody can
go on the gatherer empties the line, and those who waited send in the order in
which they came to wait: each the reply that it holds, and the next one as well
while there are places to spare. What is sent and what is still to be sent are
together what there was.
-/

namespace QuorumStore

/-- A host that has something to send. -/
structure Sender where
  /-- The host. -/
  host : Host
  /-- Its next reply. -/
  next : Reply
  /-- The replies after that. -/
  rest : List Reply
  deriving DecidableEq

namespace Sender

/-- A host as a sender, if it has replies. -/
def of? (host : Host) : List Reply → Option Sender
  | [] => none
  | next :: rest => some ⟨host, next, rest⟩

/-- The next reply, marked. -/
def tagged (s : Sender) : Tagged := (Murmur.textDigest s.host, s.next)

/-- The sender once its next reply is sent. -/
def after? (s : Sender) : Option Sender := of? s.host s.rest

end Sender

namespace Line

/-- The replies that senders have left. -/
def pending : List Sender → Nat
  | [] => 0
  | s :: others => 1 + s.rest.length + pending others

theorem pending_append (xs ys : List Sender) : pending (xs ++ ys) = pending xs + pending ys := by
  induction xs with
  | nil => simp [pending]
  | cons s others ih =>
    simp only [List.cons_append, pending, ih]
    omega

theorem pending_of? (host : Host) (replies : List Reply) :
    pending (Sender.of? host replies).toList = replies.length := by
  cases replies with
  | nil => rfl
  | cons next rest => simp [Sender.of?, pending, Nat.add_comm]

/-- Send in rounds as long as there are places. The answer is what is sent, and
who waits. -/
def rounds : Nat → List Sender → List Tagged × List Sender
  | 0, senders => ([], senders)
  | _ + 1, [] => ([], [])
  | places + 1, s :: others =>
    let (sent, waiting) := rounds places (others ++ s.after?.toList)
    (s.tagged :: sent, waiting)

theorem length_rounds (places : Nat) (senders : List Sender) :
    (rounds places senders).1.length + pending (rounds places senders).2 = pending senders := by
  induction places generalizing senders with
  | zero => simp [rounds]
  | succ places ih =>
    cases senders with
    | nil => rfl
    | cons s others =>
      have := ih (others ++ s.after?.toList)
      rw [pending_append, Sender.after?, pending_of?] at this
      simp only [rounds, List.length_cons, pending]
      simp only [Sender.after?] at this ⊢
      omega

/-- What comes of it when those who waited go on. -/
structure Resumed where
  /-- What is sent. -/
  sent : List Tagged
  /-- Who goes on in rounds. -/
  going : List Sender
  /-- Who waits again. -/
  waiting : List Sender
  /-- The places that are left. -/
  spare : Nat

/-- Let those who waited send what they hold, and the next reply while there are
places to spare. -/
def resume (spare : Nat) : List Sender → Resumed
  | [] => ⟨[], [], [], spare⟩
  | s :: others =>
    match s.after?, spare with
    | none, spare =>
      let r := resume spare others
      { r with sent := s.tagged :: r.sent }
    | some t, 0 =>
      let r := resume 0 others
      { r with sent := s.tagged :: r.sent, waiting := t :: r.waiting }
    | some t, spare + 1 =>
      let r := resume spare others
      { r with sent := s.tagged :: t.tagged :: r.sent, going := t.after?.toList ++ r.going }

theorem length_resume (spare : Nat) (senders : List Sender) :
    (resume spare senders).sent.length + pending (resume spare senders).going +
      pending (resume spare senders).waiting = pending senders := by
  induction senders generalizing spare with
  | nil => rfl
  | cons s others ih =>
    obtain ⟨host, next, rest⟩ := s
    cases rest with
    | nil =>
      have := ih spare
      simp only [resume, Sender.after?, Sender.of?, List.length_cons, pending, List.length_nil]
      omega
    | cons reply rest =>
      cases spare with
      | zero =>
        have := ih 0
        simp only [resume, Sender.after?, Sender.of?, List.length_cons, pending]
        omega
      | succ spare =>
        have := ih spare
        have hrest := pending_of? host rest
        simp only [Sender.of?] at hrest
        simp only [resume, Sender.after?, Sender.of?, List.length_cons, pending, pending_append,
          hrest]
        omega

theorem le_length_resume (spare : Nat) (senders : List Sender) :
    senders.length ≤ (resume spare senders).sent.length := by
  induction senders generalizing spare with
  | nil => exact Nat.zero_le _
  | cons s others ih =>
    simp only [resume]
    split
    · exact Nat.succ_le_succ (ih _)
    · exact Nat.succ_le_succ (ih _)
    · exact Nat.succ_le_succ (Nat.le_succ_of_le (ih _))

/-- Fill the emptied line: first those who waited, then rounds. -/
def refill (places : Nat) (waiting : List Sender) : List Tagged × List Sender :=
  let r := resume (places - waiting.length) waiting
  let (sent, others) := rounds r.spare r.going
  (r.sent ++ sent, r.waiting ++ others)

theorem pending_refill (places : Nat) {waiting : List Sender} (h : waiting ≠ []) :
    pending (refill places waiting).2 < pending waiting := by
  have hall := length_resume (places - waiting.length) waiting
  have hsent := le_length_resume (places - waiting.length) waiting
  have hrounds := length_rounds (resume (places - waiting.length) waiting).spare
    (resume (places - waiting.length) waiting).going
  have hlength := List.length_pos_iff.2 h
  simp only [refill, pending_append]
  omega

/-- Empty and fill the line until nobody waits. -/
def drain (places : Nat) (waiting : List Sender) : List Tagged :=
  if _h : waiting = [] then []
  else (refill places waiting).1 ++ drain places (refill places waiting).2
termination_by pending waiting
decreasing_by exact pending_refill places _h

/-- What hosts send at one time, in the order in which the gatherer takes it from
a line with a number of places. -/
def carry (places : Nat) (streams : List (Host × List Reply)) : List Tagged :=
  let (sent, waiting) := rounds places <| streams.filterMap fun stream =>
    Sender.of? stream.1 stream.2
  sent ++ drain places waiting

end Line

end QuorumStore
