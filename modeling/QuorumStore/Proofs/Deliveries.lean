import Mathlib.Data.List.Perm.Basic
import QuorumStore.Cluster.Replicas
import QuorumStore.Proofs.Honest

/-!
# The replicas of a cluster deliver

The replies of the replicas arrive over lines that may fill up, so that a host may have to
wait with what it has left to send. Nothing is lost on the way and nothing is made up: all
that is sent or still to be sent stays together, until nobody waits.
-/

namespace QuorumStore

/-- The replies that a sender has left, marked. -/
def Sender.backlog (s : Sender) : List Tagged :=
  s.tagged :: s.rest.map fun reply => (Murmur.textDigest s.host, reply)

namespace Line

variable {places spare : Nat} {s : Sender} {senders waiting : List Sender}

/-- The replies that senders have left, marked. -/
def backlog (senders : List Sender) : List Tagged := senders.flatMap Sender.backlog

@[simp] theorem backlog_nil : backlog [] = [] := rfl

@[simp] theorem backlog_cons (s : Sender) (senders : List Sender) :
    backlog (s :: senders) = s.backlog ++ backlog senders :=
  List.flatMap_cons

@[simp] theorem backlog_append (xs ys : List Sender) :
    backlog (xs ++ ys) = backlog xs ++ backlog ys :=
  List.flatMap_append

theorem backlog_of? (host : Host) (replies : List Reply) :
    backlog (Sender.of? host replies).toList
      = replies.map fun reply => (Murmur.textDigest host, reply) := by
  cases replies with
  | nil => rfl
  | cons next rest => exact List.append_nil _

/-- A sender has its next reply left, and what it has left once that is sent. -/
theorem backlog_eq (s : Sender) : s.backlog = s.tagged :: backlog s.after?.toList := by
  rw [Sender.after?, backlog_of?, Sender.backlog]

/-- A round keeps what is sent and what is left together. -/
theorem count_rounds (x : Tagged) (places : Nat) (senders : List Sender) :
    (rounds places senders).1.count x + (backlog (rounds places senders).2).count x
      = (backlog senders).count x := by
  induction places generalizing senders with
  | zero => exact Nat.zero_add _
  | succ places ih =>
    cases senders with
    | nil => rfl
    | cons s others =>
      have hothers := ih (others ++ s.after?.toList)
      rw [backlog_append, List.count_append] at hothers
      rw [rounds, backlog_cons, backlog_eq]
      simp only [List.count_cons, List.count_append]
      omega

/-- Those who go on keep it together as well. -/
theorem count_resume (x : Tagged) (spare : Nat) (senders : List Sender) :
    (resume spare senders).sent.count x + (backlog (resume spare senders).going).count x
      + (backlog (resume spare senders).waiting).count x = (backlog senders).count x := by
  induction senders generalizing spare with
  | nil => rfl
  | cons s others ih =>
    rw [backlog_cons, backlog_eq]
    cases hnext : s.after? with
    | none =>
      have hothers := ih spare
      simp only [resume, hnext, List.count_cons, List.count_append, Option.toList_none, backlog_nil,
        List.count_nil]
      omega
    | some t =>
      cases spare with
      | zero =>
        have hothers := ih 0
        simp only [resume, hnext, List.count_cons, List.count_append, Option.toList_some,
          backlog_cons, backlog_nil, List.count_nil]
        omega
      | succ spare =>
        have hothers := ih spare
        simp only [resume, hnext, List.count_cons, List.count_append, Option.toList_some,
          backlog_cons, backlog_nil, List.count_nil, backlog_append, backlog_eq t]
        omega

theorem count_refill (x : Tagged) (places : Nat) (waiting : List Sender) :
    (refill places waiting).1.count x + (backlog (refill places waiting).2).count x
      = (backlog waiting).count x := by
  have hresumed := count_resume x (places - waiting.length) waiting
  have hrounds := count_rounds x (resume (places - waiting.length) waiting).spare
    (resume (places - waiting.length) waiting).going
  simp only [refill, backlog_append, List.count_append]
  omega

/-- Nobody waits in the end, so that everything is sent. -/
theorem count_drain (x : Tagged) (places : Nat) (waiting : List Sender) :
    (drain places waiting).count x = (backlog waiting).count x := by
  fun_induction drain places waiting with
  | case1 => rfl
  | case2 waiting hsome ih => rw [List.count_append, ih, count_refill]

/-- A line carries all that the hosts send, and nothing else. -/
theorem carry_perm (places : Nat) (streams : List (Host × List Reply)) :
    (carry places streams).Perm (Fleet.marked streams) := by
  have hsenders : backlog (streams.filterMap fun stream => Sender.of? stream.1 stream.2)
      = Fleet.marked streams := by
    induction streams with
    | nil => rfl
    | cons stream rest ih =>
      obtain ⟨host, replies⟩ := stream
      rw [Fleet.marked, List.flatMap_cons, ← Fleet.marked, ← ih]
      dsimp only
      rw [← backlog_of?, ← backlog_append, List.filterMap_cons]
      cases Sender.of? host replies <;> rfl
  rw [← hsenders, List.perm_iff_count]
  intro x
  rw [carry, List.count_append, count_drain, count_rounds]

end Line

namespace Replicas

/-- No reply takes longer than there are replicas listed. -/
theorem latency_lt (rs : Replicas) (host : Host) : rs.latency host < rs.listed.length + 1 := by
  unfold latency
  split
  · next place hplace =>
    have hlisted := (List.findIdx?_eq_some_iff_findIdx_eq.1 hplace).1
    omega
  · exact Nat.succ_pos _

/-- What is sorted by a time that ends is all there. -/
theorem flatMap_range_perm {α β : Type} (time : α → Nat) (f : α → List β) {bound : Nat}
    (xs : List α) (h : ∀ x ∈ xs, time x < bound) :
    ((List.range bound).flatMap fun t => (xs.filter fun x => time x = t).flatMap f).Perm
      (xs.flatMap f) := by
  induction xs with
  | nil => exact List.Perm.of_eq (List.flatMap_eq_nil_iff.2 fun _ _ => rfl)
  | cons x xs ih =>
    obtain ⟨hx, hxs⟩ := List.forall_mem_cons.1 h
    have hfirst : ∀ bound, time x < bound →
        ((List.range bound).flatMap fun t => if time x = t then f x else []) = f x := by
      intro bound
      induction bound with
      | zero => exact fun hlt => absurd hlt (Nat.not_lt_zero _)
      | succ bound ihb =>
        intro hlt
        rw [List.range_succ, List.flatMap_append, List.flatMap_singleton]
        by_cases hlast : time x = bound
        · rw [if_pos hlast, List.flatMap_eq_nil_iff.2, List.nil_append]
          intro t ht
          exact if_neg (by have := List.mem_range.1 ht; omega)
        · rw [if_neg hlast, List.append_nil, ihb (by omega)]
    have hsplit (t : Nat) : ((x :: xs).filter fun y => time y = t).flatMap f
        = (if time x = t then f x else []) ++ (xs.filter fun y => time y = t).flatMap f := by
      rw [List.filter_cons]
      by_cases ht : time x = t
      · rw [if_pos (decide_eq_true ht), if_pos ht, List.flatMap_cons]
      · rw [if_neg (mt of_decide_eq_true ht), if_neg ht, List.nil_append]
    simp only [hsplit]
    refine (List.flatMap_append_perm _ _ _).symm.trans ?_
    rw [hfirst bound hx, List.flatMap_cons]
    exact (ih hxs).append_left _

/-- The replicas of a cluster deliver all that they send. -/
theorem delivers : Replicas.fleet.Delivers := by
  intro rs streams
  refine List.Perm.trans ?_ (flatMap_range_perm (fun stream => rs.latency stream.1) _ streams
    fun stream _ => rs.latency_lt stream.1)
  exact List.Perm.flatMap_left _ fun time _ => Line.carry_perm _ _

end Replicas

end QuorumStore
