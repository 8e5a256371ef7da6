import QuorumStore.Proofs.SharedPositions

/-!
# One host more or less

A host that joins takes positions that were free, and one that leaves gives up its own,
so the entries of the others stay as they are, also those at positions that hosts share.
The walk from a key therefore meets the other hosts in the same order as before, and of
the first hosts for a key none changes but for the one that comes or goes and makes room.
-/

namespace QuorumStore.Placement.Ring

variable {factor : Nat} {h : 0 < factor} {ring without : Ring} {host : Host}

/-- One of two rings lacks the entries of a host and has the others. -/
def Lacks (without : Ring) (host : Host) (ring : Ring) : Prop :=
  without.index.entries = ring.index.entries.filter (·.2 ≠ host)

/-- The hosts for a key on a ring with a host and on one without it. -/
structure AlikeBut (host : Host) (ring without : Ring) (key : Key) : Prop where
  /-- The orders of all hosts differ in that host alone. -/
  all : ∀ n, ring.size ≤ n → without.size ≤ n →
    (ring.nearest key n).erase host = without.nearest key n
  /-- Among the first hosts it takes the place of the last one without it. -/
  first : ∀ n, (ring.nearest key n).erase host
    = without.nearest key (if host ∈ ring.nearest key n then n - 1 else n)

/-! ## Entries -/

/-- A host that joins is all that a ring lacked before. -/
theorem Sound.lacks_add (hs : ring.Sound) (hout : host ∉ ring.members) :
    ring.Lacks host (ring.add host).1 := by
  have hadd := hs.add host
  refine hs.index.entries_eq (hadd.index.pairwise_entries.sublist List.filter_sublist) fun e => ?_
  rw [List.mem_filter, mem_entries_add hs hout, decide_eq_true_eq]
  constructor
  · intro he
    exact ⟨Or.inl he, fun hhost => hout (hhost ▸ hs.member e he)⟩
  · rintro ⟨he | ⟨-, hhost, -⟩, hne⟩
    · exact he
    · exact absurd hhost hne

/-- A host that leaves is all that a ring lacks after. -/
theorem Sound.lacks_remove (hs : ring.Sound) (host : Host) :
    (ring.remove host).1.Lacks host ring := by
  refine (hs.remove host).index.entries_eq
    (hs.index.pairwise_entries.sublist List.filter_sublist) fun e => ?_
  rw [mem_entries_remove hs, List.mem_filter, decide_eq_true_eq]

/-! ## Orders -/

/-- The first hosts but one are the first of the others. -/
theorem erase_take (hosts : List Host) (host : Host) (n : Nat) :
    (hosts.take n).erase host
      = (hosts.erase host).take (if host ∈ hosts.take n then n - 1 else n) := by
  induction hosts generalizing n with
  | nil => simp
  | cons x rest ih =>
    cases n with
    | zero => simp
    | succ n =>
      rw [List.take_succ_cons]
      by_cases hx : x = host
      · rw [hx, List.erase_cons_head, List.erase_cons_head, if_pos List.mem_cons_self,
          Nat.add_sub_cancel]
      · have hbeq : ¬ (x == host) = true := by simpa using hx
        have hmem : host ∈ x :: rest.take n ↔ host ∈ rest.take n := by
          rw [List.mem_cons, or_iff_right (Ne.symm hx)]
        rw [List.erase_cons_tail hbeq, List.erase_cons_tail hbeq, ih]
        simp only [hmem]
        split_ifs with hin
        · cases n with
          | zero => cases hin
          | succ n => rw [Nat.add_sub_cancel, Nat.add_sub_cancel, List.take_succ_cons]
        · rw [List.take_succ_cons]

/-- The walk meets the others in the same order. -/
theorem Lacks.order_eq (hl : without.Lacks host ring) (key : Key) :
    without.order key = (ring.order key).erase host := by
  have haround (p : Int) :
      without.index.around p = (ring.index.around p).filter (· ≠ host) := by
    rw [Index.around, Index.around, hl, List.filter_map, List.filter_append, List.filter_filter,
      List.filter_filter, List.filter_filter, List.filter_filter]
    simp only [Function.comp_def, Bool.and_comm]
  rw [order, haround, eraseDups_filter, ← order, (nodup_order ring key).erase_eq_filter]
  refine List.filter_congr fun other _ => ?_
  rw [bne, beq_eq_decide, decide_not]

theorem Lacks.alikeBut (hl : without.Lacks host ring) (hs : ring.Sound) (hw : without.Sound)
    (key : Key) : AlikeBut host ring without key := by
  constructor
  · intro n hn hn'
    rw [nearest_eq_order hs key hn, nearest_eq_order hw key hn', hl.order_eq]
  · intro n
    rw [nearest_eq_take hs, nearest_eq_take hw, hl.order_eq, erase_take]

/-- Whatever hosts came and went before, one that joins or leaves does not disturb the
order in which the others are met, and of the first hosts for a key it displaces at most
one, or makes room for one. -/
theorem nearest_undisturbed (factor : Nat) (h : 0 < factor) (changes : List Change) (host : Host)
    (key : Key) :
    let ring := after factor h changes
    (ring.contains host = false → AlikeBut host (ring.add host).1 ring key) ∧
      (ring.contains host = true → AlikeBut host ring (ring.remove host).1 key) := by
  have hs : (after factor h changes).Sound := sound_after changes
  refine ⟨fun hout => ?_, fun _ => ?_⟩
  · exact (hs.lacks_add (contains_eq_false_iff.1 hout)).alikeBut (hs.add host) hs key
  · exact (hs.lacks_remove host).alikeBut hs (hs.remove host) key

/-- The host `a1` joins beside `a`, with which it shares a position, and leaves the order
of the others alone; so does `a` when it leaves and the shared position with it. -/
theorem nearest_undisturbed_of_shared :
    let early := after 11 (by decide) [.add "a", .add "b"]
    let late := after 11 (by decide) [.add "a", .add "b", .add "a1"]
    (early.contains "a1" = false ∧
      ((early.add "a1").1.nearest "a10" 3).erase "a1" = early.nearest "a10" 3) ∧
    (late.contains "a" = true ∧
      (late.nearest "a10" 2).erase "a" = (late.remove "a").1.nearest "a10" 1) := by
  have hjoin := (nearest_undisturbed 11 (by decide) [.add "a", .add "b"] "a1" "a10").1
    (by decide +kernel)
  have hleave := (nearest_undisturbed 11 (by decide) [.add "a", .add "b", .add "a1"] "a" "a10").2
    (by decide +kernel)
  refine ⟨⟨by decide +kernel, hjoin.all 3 (by decide +kernel) (by decide +kernel)⟩,
    by decide +kernel, ?_⟩
  have hnear : "a" ∈ (after 11 (by decide) [.add "a", .add "b", .add "a1"]).nearest "a10" 2 := by
    decide +kernel
  have hfirst := hleave.first 2
  rwa [if_pos hnear] at hfirst

end QuorumStore.Placement.Ring
