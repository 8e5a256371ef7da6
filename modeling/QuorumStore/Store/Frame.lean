import QuorumStore.Store.Bucketed

/-!
# What a write leaves alone

A store is read key by key through `cells`, whatever bucket a key falls into.
A write changes the cells of its own key and of no other, and the number of
buckets stays.
-/

namespace QuorumStore.Store

@[simp] theorem size_write (store : Store) (kind : WriteKind) (key : Key)
    (members : List FieldValue) :
    (store.write kind key members).1.buckets.size = store.buckets.size := by
  simp [write]

@[simp] theorem slot_write (store : Store) (kind : WriteKind) (key other : Key)
    (members : List FieldValue) :
    (store.write kind key members).1.slot other = store.slot other := by
  simp only [slot, size_write]

/-- Every key has a bucket. -/
theorem exists_bucket (store : Store) (key : Key) :
    ∃ bucket, store.buckets[store.slot key]? = some bucket :=
  ⟨_, Array.getElem?_eq_getElem (store.slot_lt key)⟩

/-- No field of an empty store was ever written. -/
@[simp] theorem cells_empty (buckets : Nat) (h : 0 < buckets) (key : Key) :
    (empty buckets h).cells key = ∅ := by
  have hs : (empty buckets h).slot key < buckets := by
    have := (empty buckets h).slot_lt key
    simpa [empty] using this
  have hb : (empty buckets h).buckets[(empty buckets h).slot key]? = some ∅ :=
    Array.getElem?_replicate.trans (if_pos hs)
  simp [cells, hb]

/-- A write changes the cells of its key as the members say. -/
theorem cells_write_self (store : Store) (kind : WriteKind) (key : Key)
    (members : List FieldValue) :
    (store.write kind key members).1.cells key = ((store.cells key).write kind members).1 := by
  obtain ⟨bucket, hb⟩ := store.exists_bucket key
  rw [cells, slot_write]
  simp [write, Array.getElem?_modify, hb]

/-- A write leaves the cells of every other key alone. -/
theorem cells_write_other (store : Store) (kind : WriteKind) {key other : Key}
    (members : List FieldValue) (h : other ≠ key) :
    (store.write kind key members).1.cells other = store.cells other := by
  obtain ⟨bucket, hb⟩ := store.exists_bucket other
  rw [cells, cells, slot_write]
  by_cases hs : store.slot key = store.slot other
  · have hk : (compare key other) ≠ .eq := fun he => h (Std.LawfulEqOrd.eq_of_compare he).symm
    simp [write, Array.getElem?_modify, hs, hb, Std.TreeMap.getElem?_insert, hk]
  · simp [write, Array.getElem?_modify, hs]

end QuorumStore.Store
