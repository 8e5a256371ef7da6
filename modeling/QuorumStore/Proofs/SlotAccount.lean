import Mathlib.Order.Bounds.Basic
import QuorumStore.Proofs.RedBlack.Invariants

/-!
# No slot is lost or shared

Whoever visits the nodes of an index from its root, and then the freed slots, comes to
every slot but the first exactly once. New slots are made only when none is free, so
there are as many as the index ever had entries at a time, however many entries came and
went.
-/

namespace QuorumStore.Placement.Index

variable {index : Index} {t : Tree} {i p : Nat} {nodes : List Nat}

/-- The nodes met on a visit to all that child links reach from a slot: first those on
the left, then the node, then those on the right. A node that two links lead to is met
twice. -/
inductive Visit (index : Index) : Nat → List Nat → Prop
  /-- A missing node is passed over. -/
  | missing : Visit index 0 []
  /-- A node is met between its two sides. -/
  | node {i : Nat} {left right : List Nat} (hnode : i ≠ 0)
      (hleft : Visit index (index.child i .left) left)
      (hright : Visit index (index.child i .right) right) : Visit index i (left ++ i :: right)

/-- Every slot but the first holds a node of the tree or is free, never both, and no slot
is met twice. -/
structure Accounted (index : Index) : Prop where
  /-- The nodes and the free slots are the slots but the first, each of them once. -/
  once : ∃ nodes, index.Visit index.root nodes ∧
    (nodes ++ index.free).Perm (List.range' 1 (index.slots.size - 1)) ∧
      ∀ i, i ∈ nodes ↔ index.Below index.root i

/-! ## Visiting what is shown -/

/-- A visit to a tree that is shown meets the slots of its entries. -/
theorem Holds.visit (h : index.Holds p t) (hpos : ∀ e ∈ t.entries, e.slot ≠ 0) :
    index.Visit t.top (t.entries.map Entry.slot) := by
  induction t generalizing p with
  | leaf => exact .missing
  | node c l e r ihl ihr =>
    obtain ⟨-, hleft, hright⟩ := h.read
    simp only [Tree.entries, List.mem_append, List.mem_cons] at hpos
    rw [Tree.entries, List.map_append, List.map_cons]
    refine .node (hpos e (Or.inr (Or.inl rfl))) ?_ ?_
    · exact hleft ▸ ihl h.2.1 fun x hx => hpos x (Or.inl hx)
    · exact hright ▸ ihr h.2.2 fun x hx => hpos x (Or.inr (Or.inr hx))

theorem Built.accounted (h : index.Built t) : index.Accounted where
  once := by
    refine ⟨t.entries.map Entry.slot, ?_, h.account, fun i => ?_⟩
    · rw [h.shows.root]
      exact h.shows.holds.visit h.slot_ne_zero
    · rw [h.reaches_iff, List.mem_map]

/-- The entries and the free slots are as many as the slots but the first. -/
theorem Built.size_add_free (h : index.Built t) :
    index.size + index.free.length = index.slots.size - 1 := by
  have hlength := h.account.length_eq
  rw [List.length_append, List.length_map, List.length_range'] at hlength
  rw [h.size_eq, hlength]

/-! ## What makes new slots -/

@[simp] theorem size_slots_rotate (index : Index) (side : Side) (x : Nat) :
    (index.rotate side x).slots.size = index.slots.size := by
  simp only [rotate, size_slots_update, size_slots_relink]
  split_ifs <;> simp

@[simp] theorem size_slots_attach (index : Index) (key : Int) (parent z : Nat) :
    (index.attach key parent z).slots.size = index.slots.size := by
  unfold attach
  dsimp only
  split_ifs <;> simp

@[simp] theorem size_slots_straighten (index : Index) (side : Side) (p z : Nat) :
    (index.straighten side p z).1.slots.size = index.slots.size := by
  unfold straighten
  split_ifs <;> simp

theorem size_slots_mendRed (index : Index) (bound z : Nat) :
    (index.mendRed bound z).slots.size = index.slots.size := by
  induction bound generalizing index z with
  | zero => rfl
  | succ bound ih =>
    unfold mendRed
    dsimp only
    split_ifs <;> simp [ih]

theorem size_slots_transplant (index : Index) (old new : Nat) :
    (index.transplant old new).slots.size = index.slots.size := by
  simp [transplant]

theorem size_slots_detach (index : Index) (z y : Nat) :
    (index.detach z y).slots.size = index.slots.size := by
  unfold detach
  dsimp only
  split_ifs <;> simp [size_slots_transplant]

theorem size_slots_supplant (index : Index) (z y : Nat) :
    (index.supplant z y).slots.size = index.slots.size := by
  simp [supplant, size_slots_transplant]

theorem size_slots_unlink (index : Index) (z : Nat) :
    (index.unlink z).index.slots.size = index.slots.size := by
  unfold unlink
  split_ifs <;> simp [size_slots_transplant, size_slots_supplant, size_slots_detach]

theorem size_slots_blackenSibling (index : Index) (side : Side) (p : Nat) :
    (index.blackenSibling side p).slots.size = index.slots.size := by
  unfold blackenSibling
  dsimp only
  split_ifs <;> simp

theorem size_slots_straightenNephew (index : Index) (side : Side) (p : Nat) :
    (index.straightenNephew side p).slots.size = index.slots.size := by
  unfold straightenNephew
  dsimp only
  split_ifs <;> simp

theorem size_slots_refill (index : Index) (side : Side) (p : Nat) :
    (index.refill side p).slots.size = index.slots.size := by
  simp [refill, size_slots_straightenNephew]

theorem size_slots_mendBlack (index : Index) (bound x : Nat) :
    (index.mendBlack bound x).1.slots.size = index.slots.size := by
  induction bound generalizing index x with
  | zero => rfl
  | succ bound ih =>
    unfold mendBlack
    dsimp only
    split_ifs <;> simp [ih, size_slots_refill, size_slots_blackenSibling]

theorem Unlinked.size_slots_mend (rest : Unlinked) :
    rest.mend.slots.size = rest.index.slots.size := by
  unfold mend
  dsimp only
  split_ifs <;> simp [size_slots_mendBlack]

/-- A new node takes a new slot only when none is free. -/
theorem size_slots_alloc (index : Index) (key : Int) (host : Host) :
    (index.alloc key host).2.slots.size
      = if index.free = [] then index.slots.size + 1 else index.slots.size := by
  unfold alloc
  split
  · next hfree => simp [hfree]
  · next hfree => simp [hfree]

/-- An insertion that adds an entry needs no slot but that of its node. -/
theorem size_slots_insert {key : Int} {host : Host} (h : (index.insert key host).2 = true) :
    (index.insert key host).1.slots.size = (index.alloc key host).2.slots.size := by
  unfold insert at h ⊢
  split
  · next hnone =>
    rw [hnone] at h
    cases h
  · simp [size_slots_mendRed]

/-- A deletion makes no slot and drops none. -/
theorem size_slots_delete (index : Index) (key : Int) :
    (index.delete key).1.slots.size = index.slots.size := by
  unfold delete
  split
  · rfl
  · simp [size_slots_release, Unlinked.size_slots_mend, size_slots_unlink]

/-! ## Whole runs -/

/-- An insertion that adds an entry makes a new slot only if every slot holds one. -/
theorem Sound.slots_insert (h : index.Sound) (key : Int) (host : Host) :
    (index.insert key host).1.slots.size - 1
      = max (index.slots.size - 1) (index.insert key host).1.size := by
  obtain ⟨t, ht⟩ := h
  have haccount := ht.size_add_free
  by_cases hfree : ∀ e ∈ t.entries, e.key ≠ key
  · obtain ⟨t', xs, ys, z, ht', hnew, hold, hentries⟩ := ht.insert_free hfree host
    have hsize : (index.insert key host).1.size = index.size + 1 := by
      rw [ht'.size_eq, ht.size_eq, hentries, hold, List.length_append, List.length_cons,
        List.length_append, Nat.add_assoc]
    have hpos := ht.pos
    rw [hsize, size_slots_insert hnew, size_slots_alloc]
    cases hfreed : index.free with
    | nil =>
      rw [hfreed, List.length_nil] at haccount
      rw [if_pos rfl]
      omega
    | cons i rest =>
      rw [hfreed, List.length_cons] at haccount
      rw [if_neg (List.cons_ne_nil i rest)]
      omega
  · push Not at hfree
    obtain ⟨e, he, rfl⟩ := hfree
    rw [ht.insert_taken he host]
    dsimp only
    omega

/-- After a call there are as many slots as before, or as many as the entries need. -/
theorem Sound.slots_onIndex (h : index.Sound) (call : Call) :
    (call.onIndex index).1.slots.size - 1
      = max (index.slots.size - 1) (call.onIndex index).1.size := by
  cases call with
  | insert key host => exact h.slots_insert key host
  | delete key =>
    obtain ⟨t, ht⟩ := h.delete key
    have haccount := ht.size_add_free
    have hslots := size_slots_delete index key
    rw [Call.onIndex]
    omega

/-- The numbers of entries that an index had so far, while calls built it. -/
def sizes (calls : List Call) : Set Nat :=
  {n | ∃ earlier, earlier <+: calls ∧ (built earlier).size = n}

/-- After any calls, every slot but the first holds one node of the tree or is free, and
they are as many as the greatest number of entries that there ever was. -/
theorem slots_built (calls : List Call) :
    (built calls).Accounted ∧ IsGreatest (sizes calls) ((built calls).slots.size - 1) := by
  constructor
  · obtain ⟨t, ht⟩ := sound_built calls
    exact ht.accounted
  · induction calls using List.reverseRecOn with
    | nil =>
      refine ⟨⟨[], List.prefix_rfl, rfl⟩, ?_⟩
      rintro n ⟨earlier, hearlier, rfl⟩
      rw [List.prefix_nil.1 hearlier]
      exact Nat.le_refl _
    | append_singleton calls call ih =>
      have hstep := (sound_built calls).slots_onIndex call
      have hbuilt : built (calls ++ [call]) = (call.onIndex (built calls)).1 := by
        rw [built, List.foldl_append]
        rfl
      rw [← hbuilt] at hstep
      constructor
      · -- the greatest number is the one so far, or that of now
        rcases Nat.le_total (built (calls ++ [call])).size ((built calls).slots.size - 1)
          with hless | hmore
        · obtain ⟨earlier, hearlier, hsize⟩ := ih.1
          exact ⟨earlier, hearlier.trans (List.prefix_append ..),
            hsize.trans (hstep.trans (Nat.max_eq_left hless)).symm⟩
        · exact ⟨_, List.prefix_rfl, (hstep.trans (Nat.max_eq_right hmore)).symm⟩
      · rintro n ⟨earlier, hearlier, rfl⟩
        rw [hstep]
        rcases List.prefix_concat_iff.1 hearlier with rfl | hbefore
        · exact Nat.le_max_right ..
        · exact Nat.le_trans (ih.2 ⟨earlier, hbefore, rfl⟩) (Nat.le_max_left ..)

/-- The slot freed last is the one taken next, so that no third slot is made. -/
example : (built [.insert 7 "b", .insert 3 "a", .delete 7, .insert 5 "c"]).slots.size = 3 := by
  decide +kernel

end QuorumStore.Placement.Index
