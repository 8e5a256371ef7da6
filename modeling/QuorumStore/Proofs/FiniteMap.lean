import Std.Data.TreeMap
import QuorumStore.Proofs.SearchOrder

/-!
# The index as a finite map

Whatever calls build an index, it holds what a finite map from keys to hosts holds
after the same calls. A key keeps the host that was there first, and a call that
has nothing to do changes nothing. A walk clockwise meets the hosts of the map once
around, each where it comes first.
-/

namespace QuorumStore.Placement.Index

variable {index : Index} {map : Std.TreeMap Int Host}

/-- A call that may change an index. -/
inductive Call where
  /-- Add a host at a key. -/
  | insert (key : Int) (host : Host)
  /-- Remove the entry at a key. -/
  | delete (key : Int)
  deriving DecidableEq, Repr

namespace Call

/-- The index after a call, and the answer. -/
def onIndex (index : Index) : Call → Index × Bool
  | insert key host => index.insert key host
  | delete key => index.delete key

/-- The finite map after a call, and the answer. A host that is there keeps its key. -/
def onMap (map : Std.TreeMap Int Host) : Call → Std.TreeMap Int Host × Bool
  | insert key host => (map.insertIfNew key host, !map.contains key)
  | delete key => (map.erase key, map.contains key)

end Call

/-- The index after calls, from the empty one. -/
def built (calls : List Call) : Index :=
  calls.foldl (fun index call => (call.onIndex index).1) empty

/-- The finite map after calls, from the empty one. -/
def mapped (calls : List Call) : Std.TreeMap Int Host :=
  calls.foldl (fun map call => (call.onMap map).1) ∅

/-- What a lookup, the list of all entries and their number say is what the map says. -/
structure Refines (index : Index) (map : Std.TreeMap Int Host) : Prop where
  /-- A search finds the host of the key, if it has one. -/
  lookup : ∀ key, index.host? key = map[key]?
  /-- The entries are the pairs of the map. -/
  entries : index.entries = map.toList
  /-- The keys increase. -/
  increasing : index.entries.Pairwise (·.1 < ·.1)
  /-- The entries are counted. -/
  size : index.size = map.size

/-- Every call keeps an index sound. -/
theorem Sound.onIndex (h : index.Sound) (call : Call) : (call.onIndex index).1.Sound := by
  cases call with
  | insert key host => exact h.insert key host
  | delete key => exact h.delete key

/-- Every index that calls build is sound. -/
theorem sound_built (calls : List Call) : (built calls).Sound := by
  induction calls using List.reverseRecOn with
  | nil => exact sound_empty
  | append_singleton calls call ih =>
    rw [built, List.foldl_append]
    exact ih.onIndex call

/-! ## One call -/

/-- A sound index with the pairs of a map refines it. -/
theorem Sound.refines (h : index.Sound)
    (hmem : ∀ key host, (key, host) ∈ index.entries ↔ map[key]? = some host) :
    Refines index map := by
  have hincreasing : map.toList.Pairwise (·.1 < ·.1) :=
    Std.TreeMap.ordered_keys_toList.imp Int.compare_eq_lt.1
  have hentries : index.entries = map.toList := h.entries_eq hincreasing fun x => by
    rw [← Prod.eta x, hmem, Std.TreeMap.mem_toList_iff_getElem?_eq_some]
  refine ⟨fun key => ?_, hentries, h.pairwise_entries, ?_⟩
  · refine Option.ext fun host => ?_
    rw [h.host?_eq_some_iff, hmem]
  · rw [h.size_eq, hentries, Std.TreeMap.length_toList]

namespace Refines

theorem mem_entries_iff (h : Refines index map) {key : Int} {host : Host} :
    (key, host) ∈ index.entries ↔ map[key]? = some host := by
  rw [h.entries, Std.TreeMap.mem_toList_iff_getElem?_eq_some]

/-- A key of the map is one with an entry. -/
theorem contains_iff (h : Refines index map) {key : Int} :
    map.contains key = true ↔ ∃ y ∈ index.entries, y.1 = key := by
  rw [Std.TreeMap.contains_eq_isSome_getElem?, Option.isSome_iff_exists]
  constructor
  · rintro ⟨host, hhost⟩
    exact ⟨(key, host), h.mem_entries_iff.2 hhost, rfl⟩
  · rintro ⟨⟨_, host⟩, hy, rfl⟩
    exact ⟨host, h.mem_entries_iff.1 hy⟩

/-- A host is added to both, unless its key is taken. -/
theorem insert (h : Refines index map) (hsound : index.Sound) (key : Int) (host : Host) :
    Refines (index.insert key host).1 (map.insertIfNew key host) ∧
      (index.insert key host).2 = !map.contains key := by
  have hfree : (∀ y ∈ index.entries, y.1 ≠ key) ↔ key ∉ map := by
    rw [← Std.TreeMap.contains_iff_mem, h.contains_iff]
    push Not
    rfl
  constructor
  · refine (hsound.insert key host).refines fun k v => ?_
    rw [hsound.mem_insert, h.mem_entries_iff, hfree, Std.TreeMap.getElem?_insertIfNew,
      Prod.mk.injEq]
    simp only [Std.LawfulEqCmp.compare_eq_iff_eq]
    split_ifs with hnew
    · obtain ⟨rfl, hnot⟩ := hnew
      have hnone : map[key]? = none := by simpa using hnot
      simp only [hnone, hnot, not_false_eq_true, and_true, true_and, reduceCtorEq, false_or,
        Option.some.injEq, eq_comm]
    · constructor
      · rintro (hold | ⟨⟨rfl, -⟩, hnot⟩)
        · exact hold
        · exact absurd ⟨rfl, hnot⟩ hnew
      · exact Or.inl
  · cases hcontains : map.contains key with
    | true =>
      rw [hsound.insert_taken (h.contains_iff.1 hcontains)]
      rfl
    | false =>
      have hnot : key ∉ map := fun hmem => by
        rw [Std.TreeMap.contains_iff_mem.2 hmem] at hcontains
        cases hcontains
      exact (hsound.insert_free (hfree.2 hnot) host).2.1

/-- The entry at a key is removed from both. -/
theorem delete (h : Refines index map) (hsound : index.Sound) (key : Int) :
    Refines (index.delete key).1 (map.erase key) ∧
      (index.delete key).2 = map.contains key := by
  constructor
  · refine (hsound.delete key).refines fun k v => ?_
    rw [hsound.entries_delete, List.mem_filter, h.mem_entries_iff, Std.TreeMap.getElem?_erase,
      decide_eq_true_eq]
    simp only [Std.LawfulEqCmp.compare_eq_iff_eq]
    split_ifs with hkey
    · simp [hkey]
    · simp [Ne.symm hkey]
  · cases hcontains : map.contains key with
    | true => exact (hsound.delete_taken (h.contains_iff.1 hcontains)).2.1
    | false =>
      have hfree : ∀ y ∈ index.entries, y.1 ≠ key := fun y hy hkey => by
        have htrue := h.contains_iff.2 ⟨y, hy, hkey⟩
        rw [hcontains] at htrue
        cases htrue
      rw [hsound.delete_free hfree]

/-- A call does to the index what it does to the map, and gives the same answer. -/
theorem onIndex (h : Refines index map) (hsound : index.Sound) (call : Call) :
    Refines (call.onIndex index).1 (call.onMap map).1 ∧
      (call.onIndex index).2 = (call.onMap map).2 := by
  cases call with
  | insert key host => exact h.insert hsound key host
  | delete key => exact h.delete hsound key

end Refines

/-- A call with the answer no changes nothing. -/
theorem Sound.onIndex_false (h : index.Sound) {call : Call} (hno : (call.onIndex index).2 = false) :
    (call.onIndex index).1 = index := by
  cases call with
  | insert key host =>
    by_cases hfree : ∀ y ∈ index.entries, y.1 ≠ key
    · exact absurd ((h.insert_free hfree host).2.1.symm.trans hno) (by simp)
    · push Not at hfree
      exact congrArg Prod.fst (h.insert_taken hfree host)
  | delete key =>
    by_cases hfree : ∀ y ∈ index.entries, y.1 ≠ key
    · exact congrArg Prod.fst (h.delete_free hfree)
    · push Not at hfree
      exact absurd ((h.delete_taken hfree).2.1.symm.trans hno) (by simp)

/-! ## All calls -/

/-- After any calls the index refines the map that the same calls build. -/
theorem refines_mapped (calls : List Call) : Refines (built calls) (mapped calls) := by
  induction calls using List.reverseRecOn with
  | nil => exact sound_empty.refines fun key host => by simp [mapped]; exact List.not_mem_nil
  | append_singleton calls call ih =>
    have hcall := (ih.onIndex (sound_built calls) call).1
    rwa [built, mapped, List.foldl_append, List.foldl_append]

/-- After any calls the index refines the map that the same calls build. The next
call gives the answer of the map, and changes nothing when the answer is no. -/
theorem refines_map (calls : List Call) :
    Refines (built calls) (mapped calls) ∧
      ∀ call : Call, (call.onIndex (built calls)).2 = (call.onMap (mapped calls)).2 ∧
        ((call.onIndex (built calls)).2 = false →
          (call.onIndex (built calls)).1 = built calls) := by
  have hrefines := refines_mapped calls
  exact ⟨hrefines, fun call => ⟨(hrefines.onIndex (sound_built calls) call).2,
    (sound_built calls).onIndex_false⟩⟩

/-! ## Walking clockwise -/

/-- The hosts of a finite map once around from a key: first those at the key and above
it, then those below it, both in the order of their keys. -/
def onceAround (map : Std.TreeMap Int Host) (key : Int) : List Host :=
  (map.toList.filter (key ≤ ·.1) ++ map.toList.filter (·.1 < key)).map Prod.snd

/-- Where the index refines the map, a walk meets the hosts of the map. -/
theorem Refines.around_eq (h : Refines index map) (key : Int) :
    index.around key = onceAround map key := by
  rw [around, onceAround, h.entries]

/-- After any calls, a walk for any number of hosts from any key gives the first hosts of
the map once around from the key, each where it is first met. -/
theorem clockwise_built (calls : List Call) (n : Nat) (key : Int) :
    (built calls).clockwise n key = (onceAround (mapped calls) key).eraseDups.take n := by
  rw [(sound_built calls).clockwise_eq, (refines_mapped calls).around_eq]

/-- A walk from a key above the greatest one begins at the smallest. -/
example : (built [.insert 7 "b", .insert 3 "a", .insert 5 "a", .insert 9 "c", .delete 9]).clockwise
    2 8 = ["a", "b"] := by decide +kernel

end QuorumStore.Placement.Index
