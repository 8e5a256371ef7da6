import Mathlib.Data.List.Nodup
import QuorumStore.Cluster.Fleet
import QuorumStore.Store.Bucketed

/-!
# Honest replicas

An honest replica keeps a store and sends one reply to each call. The reply is
what its store answers, unless something fails on the way: then it is a fault,
and either the call or only its reply was lost. Calls to one host leave the
stores of the others alone, and replies are not changed or lost once sent, though
they may arrive in any order.
-/

namespace QuorumStore

/-- What a store may be seen to do with a call: the one reply that its host sends,
and the store afterwards. -/
inductive Store.Responds (store : Store) (call : Call) : Reply → Store → Prop where
  /-- The reply is the answer of the store. -/
  | served : Responds store call (store.answer call).1 (store.answer call).2
  /-- The call did not reach the store. -/
  | lost (fault : Fault) : Responds store call (.fault fault) store
  /-- The call was answered, but the answer did not come back. -/
  | unheard (fault : Fault) : Responds store call (.fault fault) (store.answer call).2

namespace Fleet

variable {σ : Type} {fleet : Fleet σ} {stores : σ → Host → Store}

/-- What hosts send back, host by host, each reply marked with its host. -/
def marked (streams : List (Host × List Reply)) : List Tagged :=
  streams.flatMap fun (host, replies) => replies.map fun reply => (Murmur.textDigest host, reply)

/-- Where hosts send one reply each, these are marked. -/
theorem marked_map {α : Type} (host : α → Host) (said : α → Reply) (asked : List α) :
    marked (asked.map fun x => (host x, [said x]))
      = asked.map fun x => (Murmur.textDigest (host x), said x) := by
  rw [marked, List.flatMap_map, List.map_eq_flatMap]
  rfl

/-- Every reply that is sent arrives, marked with its host. -/
def Delivers (fleet : Fleet σ) : Prop :=
  ∀ s streams, (fleet.arrive s streams).Perm (marked streams)

/-- Of a scattered call everything arrives that the hosts send back. -/
theorem Delivers.scatter (h : fleet.Delivers) (call : Call) (hosts : List Host) (s : σ) :
    (fleet.scatter hosts call s).1.Perm (marked (fleet.contact call hosts s).1) :=
  h _ _

/-- What arrives is what some host sent, marked with the digest of that host. -/
theorem Delivers.mem_scatter (h : fleet.Delivers) {call : Call} {hosts : List Host} {s : σ}
    {t : Tagged} :
    t ∈ (fleet.scatter hosts call s).1 ↔ ∃ stream ∈ (fleet.contact call hosts s).1,
      Murmur.textDigest stream.1 = t.1 ∧ t.2 ∈ stream.2 := by
  rw [(h.scatter call hosts s).mem_iff, marked, List.mem_flatMap]
  refine exists_congr fun stream => and_congr_right fun _ => ?_
  rw [List.mem_map]
  constructor
  · rintro ⟨reply, hreply, rfl⟩
    exact ⟨rfl, hreply⟩
  · rintro ⟨hdigest, hreply⟩
    exact ⟨t.2, hreply, Prod.ext hdigest rfl⟩

/-- Where each host sends one reply to a scattered call, these arrive, in some order. -/
theorem Delivers.scatter_of_single (h : fleet.Delivers) {call : Call} {hosts : List Host} {s : σ}
    {said : Host → Reply}
    (hsaid : (fleet.contact call hosts s).1 = hosts.map fun host => (host, [said host])) :
    (fleet.scatter hosts call s).1.Perm
      (hosts.map fun host => (Murmur.textDigest host, said host)) := by
  have harrives := h.scatter call hosts s
  rwa [hsaid, marked_map] at harrives

/-- Two fleets whose hosts say the same to every call, though it arrives in another order. -/
structure Reorders (fleet fleet' : Fleet σ) : Prop where
  /-- Every host says the same. -/
  answer : fleet'.answer = fleet.answer
  /-- The same arrives, in some order. -/
  arrive : ∀ s streams, (fleet'.arrive s streams).Perm (fleet.arrive s streams)

/-- The hosts of both are sent the same and send back the same. -/
theorem Reorders.contact {fleet' : Fleet σ} (h : fleet.Reorders fleet') (call : Call)
    (hosts : List Host) (s : σ) : fleet'.contact call hosts s = fleet.contact call hosts s := by
  induction hosts generalizing s with
  | nil => rfl
  | cons host rest ih => simp only [Fleet.contact, h.answer, ih]

/-- Of a scattered call the same arrives. -/
theorem Reorders.scatter {fleet' : Fleet σ} (h : fleet.Reorders fleet') (call : Call)
    (hosts : List Host) (s : σ) :
    (fleet'.scatter hosts call s).1.Perm (fleet.scatter hosts call s).1 := by
  rw [Fleet.scatter, Fleet.scatter, h.contact]
  exact h.arrive _ _

/-- The same replicas, with what arrives rearranged. -/
def rearranged (fleet : Fleet σ) (arrange : List Tagged → List Tagged) : Fleet σ :=
  { fleet with arrive := fun s streams => arrange (fleet.arrive s streams) }

theorem reorders_rearranged (fleet : Fleet σ) {arrange : List Tagged → List Tagged}
    (h : ∀ replies, (arrange replies).Perm replies) :
    fleet.Reorders (fleet.rearranged arrange) :=
  ⟨rfl, fun _ _ => h _⟩

/-- Every host answers each call once, from a store of its own. -/
structure Honest (fleet : Fleet σ) (stores : σ → Host → Store) : Prop where
  /-- A host sends one reply, for which its store is responsible. -/
  responds : ∀ host call s, ∃ reply, (fleet.answer host call s).1 = [reply] ∧
    (stores s host).Responds call reply (stores (fleet.answer host call s).2 host)
  /-- A call to one host leaves the stores of the others alone. -/
  others : ∀ host call s other, other ≠ host →
    stores (fleet.answer host call s).2 other = stores s other
  /-- Every reply arrives, marked with its host. -/
  arrives : fleet.Delivers

/-- What comes of a call to several hosts: what each of them is heard to say, and
what its store becomes. -/
structure Heard (stores : σ → Host → Store) (hosts : List Host) (call : Call)
    (heard : Host → Reply) (s s' : σ) : Prop where
  /-- The store of each host is responsible for what the host says. -/
  responds : ∀ host ∈ hosts, (stores s host).Responds call (heard host) (stores s' host)
  /-- The stores of other hosts are left alone. -/
  others : ∀ host, host ∉ hosts → stores s' host = stores s host

/-- Each of several different hosts is heard once. -/
theorem Honest.contact (honest : fleet.Honest stores) (call : Call) {hosts : List Host}
    (hnodup : hosts.Nodup) (s : σ) :
    ∃ heard, (fleet.contact call hosts s).1 = hosts.map (fun host => (host, [heard host])) ∧
      Heard stores hosts call heard s (fleet.contact call hosts s).2 := by
  induction hosts generalizing s with
  | nil =>
    refine ⟨fun _ => .keys [], rfl, ?_, fun _ _ => rfl⟩
    intro host hm
    cases hm
  | cons host rest ih =>
    obtain ⟨hout, hrest⟩ := List.nodup_cons.1 hnodup
    obtain ⟨reply, hreply, hresponds⟩ := honest.responds host call s
    obtain ⟨heard, hstreams, hheard⟩ := ih hrest (fleet.answer host call s).2
    have hne (other : Host) (hm : other ∈ rest) : other ≠ host := fun he => hout (he ▸ hm)
    refine ⟨Function.update heard host reply, ?_, ?_, ?_⟩
    · have hothers : rest.map (fun other => (other, [Function.update heard host reply other]))
          = rest.map (fun other => (other, [heard other])) :=
        List.map_congr_left fun other hm => by rw [Function.update_of_ne (hne other hm)]
      rw [List.map_cons, hothers, Function.update_self, ← hreply, ← hstreams]
      rfl
    · intro other hm
      rcases List.mem_cons.1 hm with rfl | hlater
      · rw [Function.update_self]
        have hkept := hheard.others other hout
        change Store.Responds _ _ _ (stores (fleet.contact call rest _).2 other)
        rw [hkept]
        exact hresponds
      · have hbefore := honest.others host call s other (hne other hlater)
        have hafter := hheard.responds other hlater
        rw [hbefore] at hafter
        rw [Function.update_of_ne (hne other hlater)]
        exact hafter
    · intro other hm
      rw [List.mem_cons, not_or] at hm
      exact (hheard.others other hm.2).trans (honest.others host call s other hm.1)

/-- Of a scattered call one reply of each host arrives. -/
theorem Honest.scatter (honest : fleet.Honest stores) (call : Call) {hosts : List Host}
    (hnodup : hosts.Nodup) (s : σ) :
    ∃ heard,
      (fleet.scatter hosts call s).1.Perm
        (hosts.map fun host => (Murmur.textDigest host, heard host)) ∧
      Heard stores hosts call heard s (fleet.scatter hosts call s).2 := by
  obtain ⟨heard, hstreams, hheard⟩ := honest.contact call hnodup s
  exact ⟨heard, honest.arrives.scatter_of_single hstreams, hheard⟩

/-- Replicas whose replies take no time: they arrive host by host. -/
def prompt (answer : Host → Call → σ → List Reply × σ) : Fleet σ where
  answer := answer
  arrive _ streams := marked streams
  latency _ _ := 0

theorem delivers_prompt (answer : Host → Call → σ → List Reply × σ) : (prompt answer).Delivers :=
  fun _ _ => List.Perm.refl _

/-- Replicas that are called directly. Some calls do not get through to some hosts. -/
def direct (down : Host → Call → Bool) : Fleet (Host → Store) :=
  prompt fun host call s =>
    if down host call then ([.fault (.network "unreachable")], s)
    else ([((s host).answer call).1], Function.update s host ((s host).answer call).2)

/-- Replicas that are called directly are honest, whatever does not get through. -/
theorem honest_direct (down : Host → Call → Bool) : (direct down).Honest fun s => s where
  responds host call s := by
    by_cases h : down host call = true
    · have hanswer : (direct down).answer host call s
          = ([.fault (.network "unreachable")], s) := if_pos h
      rw [hanswer]
      exact ⟨_, rfl, .lost _⟩
    · have hanswer : (direct down).answer host call s = ([((s host).answer call).1],
          Function.update s host ((s host).answer call).2) := if_neg h
      rw [hanswer]
      refine ⟨_, rfl, ?_⟩
      change (s host).Responds call _ (Function.update s host _ host)
      rw [Function.update_self]
      exact .served
  others host call s other hother := by
    by_cases h : down host call = true
    · have hanswer : ((direct down).answer host call s).2 = s := congrArg Prod.snd (if_pos h)
      rw [hanswer]
    · have hanswer : ((direct down).answer host call s).2
          = Function.update s host ((s host).answer call).2 := congrArg Prod.snd (if_neg h)
      rw [hanswer]
      exact Function.update_of_ne hother _ s
  arrives := delivers_prompt _

/-- Replicas each of which sends the same replies back to every call. -/
def scripted (said : Host → List Reply) : Fleet Unit := prompt fun host _ s => (said host, s)

end Fleet

end QuorumStore
