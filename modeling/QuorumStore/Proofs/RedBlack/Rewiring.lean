import QuorumStore.Proofs.RedBlack.Shape

/-!
# Recolouring, turning and transplanting

What each change of a few slots does to the tree that the slots show. A node is
recoloured in its place, a node and its child are turned around with everything
around them held fixed, and a node gives its place to one of its subtrees.
-/

namespace QuorumStore.Placement.Index

variable {index : Index} {t : Tree} {path : Path} {p q hole i : Nat} {f : Slot → Slot}

/-! ## What is left alone -/

/-- What recolouring and turning leave alone: the account of the slots, and the
first slot. -/
structure Kept (old new : Index) : Prop where
  /-- The freed slots. -/
  free : new.free = old.free
  /-- The number of entries. -/
  size : new.size = old.size
  /-- The number of slots. -/
  slots : new.slots.size = old.slots.size
  /-- The first slot. -/
  zero : new.slot 0 = old.slot 0

namespace Kept

theorem refl (index : Index) : Kept index index := ⟨rfl, rfl, rfl, rfl⟩

theorem trans {a b c : Index} (h : Kept a b) (h' : Kept b c) : Kept a c :=
  ⟨h'.free.trans h.free, h'.size.trans h.size, h'.slots.trans h.slots, h'.zero.trans h.zero⟩

theorem update (index : Index) (h : i ≠ 0) (f : Slot → Slot) : Kept index (index.update i f) :=
  ⟨rfl, rfl, size_slots_update index i f, slot_update_of_ne h.symm f⟩

end Kept

theorem Holds.update_of_ne (h : index.Holds p t) (hne : ∀ e ∈ t.entries, e.slot ≠ i)
    (f : Slot → Slot) : (index.update i f).Holds p t :=
  h.congr fun e he => slot_update_of_ne (hne e he) f

theorem HoldsPath.update_of_ne (h : index.HoldsPath path hole)
    (hne : ∀ e ∈ path.outside, e.slot ≠ i) (f : Slot → Slot) :
    (index.update i f).HoldsPath path hole :=
  h.congr rfl fun e he => slot_update_of_ne (hne e he) f

/-- A tree is hung below another parent by changing its root. -/
theorem Holds.setParent_top (h : index.Holds p t) (htidy : Tidy index.slots.size t.entries)
    (q : Nat) : (index.setParent t.top q).Holds q t := by
  by_cases hleaf : t = .leaf
  · rw [hleaf]
    trivial
  · obtain ⟨c, l, e, r, rfl⟩ := Tree.exists_join hleaf .left
    obtain ⟨hslot, hl, hr⟩ := holds_join.1 h
    obtain ⟨-, hbound, hfresh, -⟩ :=
      Tidy.cons_iff.1 (htidy.perm (Tree.entries_join_perm .left c l e r))
    rw [Tree.top_join]
    refine holds_join.2 ⟨?_, hl.update_of_ne ?_ _, hr.update_of_ne ?_ _⟩
    · rw [slot_update_self hbound, hslot, Entry.withParent_cell]
    · exact fun x hx => hfresh x (List.mem_append_left _ hx)
    · exact fun x hx => hfresh x (List.mem_append_right _ hx)

/-- What is shown at a node of a path. -/
theorem Shows.slot_eq {side : Side} {c : Colour} {near : Tree} {e : Entry} {far : Tree}
    (h : index.Shows (path.fill (.join side c near e far))) :
    index.slot e.slot = e.cell side c near.top far.top path.above :=
  (holds_join.1 (shows_fill_iff.1 h).2.1).1

/-- What is shown at the node above a place. -/
theorem Shows.slot_frame {f : Frame} {rest : Path} (h : index.Shows (Path.fill (f :: rest) t)) :
    index.slot f.entry.slot = f.entry.cell f.side f.colour t.top f.sibling.top rest.above :=
  (shows_fill_iff.1 h).1.1

/-- A node that is shown below another one has it as its parent. -/
theorem Holds.parent_top (h : index.Holds p t) (hne : t ≠ .leaf) : index.parent t.top = p := by
  cases t with
  | leaf => exact absurd rfl hne
  | node c l e r => exact congrArg Slot.parent h.1

theorem Shows.parent_top (h : index.Shows (path.fill t)) (hne : t ≠ .leaf) :
    index.parent t.top = path.above :=
  (shows_fill_iff.1 h).2.1.parent_top hne

theorem Shows.holds_sibling {f : Frame} {rest : Path}
    (h : index.Shows (Path.fill (f :: rest) t)) : index.Holds f.entry.slot f.sibling :=
  (shows_fill_iff.1 h).1.2.1

/-- Siblings stand in different slots, unless both are missing. -/
theorem Shows.top_ne_sibling {f : Frame} {rest : Path} (h : index.Shows (Path.fill (f :: rest) t))
    (hsome : t ≠ .leaf ∨ f.sibling ≠ .leaf) : t.top ≠ f.sibling.top := by
  intro heq
  have htidy := (shows_fill_iff.1 h).2.2
  obtain ⟨hin, hout, hcross⟩ := Tidy.append_iff.1 htidy
  have hsibling : Tidy index.slots.size f.sibling.entries :=
    (Tidy.append_iff.1 (Tidy.cons_iff.1 hout).2.2.2).1
  by_cases hzero : t.top = 0
  · rcases hsome with hne | hne
    · exact hin.top_ne_zero hne hzero
    · exact hsibling.top_ne_zero hne (heq ▸ hzero)
  · obtain ⟨x, hx, hxs⟩ := Tree.exists_top hzero
    obtain ⟨y, hy, hys⟩ := Tree.exists_top (heq ▸ hzero)
    refine hcross x hx y ?_ (hxs.trans (heq.trans hys.symm))
    exact List.mem_cons_of_mem _ (List.mem_append_left _ hy)

/-- The side on which a node hangs is read off the path. -/
theorem Shows.sideUnder_eq {f : Frame} {rest : Path}
    (h : index.Shows (Path.fill (f :: rest) t)) (hsome : t ≠ .leaf ∨ f.sibling ≠ .leaf) :
    index.sideUnder f.entry.slot t.top = f.side := by
  have hne := h.top_ne_sibling hsome
  rw [sideUnder, child, h.slot_frame]
  cases hside : f.side <;> simp [Entry.cell, Slot.child, hne]

/-- A colour is read off the tree, a missing node being black. -/
theorem Holds.colour_top (h : index.Holds p t) (hzero : index.colour 0 = .black) :
    index.colour t.top = t.colour := by
  cases t with
  | leaf => exact hzero
  | node c l e r => exact congrArg Slot.colour h.1

/-! ## Recolouring -/

/-- Recolouring a node recolours it in the tree. -/
theorem Shows.paint {side : Side} {c : Colour} {near : Tree} {e : Entry} {far : Tree}
    (h : index.Shows (path.fill (.join side c near e far))) (new : Colour) :
    (index.paint e.slot new).Shows (path.fill (.join side new near e far)) := by
  obtain ⟨hpath, htree, htidy⟩ := shows_fill_iff.1 h
  obtain ⟨hslot, hnear, hfar⟩ := holds_join.1 htree
  have hparts : Tidy index.slots.size (e :: (near.entries ++ far.entries ++ path.outside)) :=
    htidy.perm ((Tree.entries_join_perm side c near e far).append_right _)
  obtain ⟨-, hbound, hfresh, -⟩ := Tidy.cons_iff.1 hparts
  simp only [List.mem_append] at hfresh
  refine shows_fill_iff.2 ⟨?_, holds_join.2 ⟨?_, ?_, ?_⟩, ?_⟩
  · rw [Tree.top_join] at hpath ⊢
    exact hpath.update_of_ne (fun x hx => hfresh x (Or.inr hx)) _
  · rw [slot_update_self hbound, hslot, Entry.withColour_cell]
  · exact hnear.update_of_ne (fun x hx => hfresh x (Or.inl (Or.inl hx))) _
  · exact hfar.update_of_ne (fun x hx => hfresh x (Or.inl (Or.inr hx))) _
  · rw [size_slots_update]
    exact hparts.perm ((Tree.entries_join_perm side new near e far).append_right _).symm

/-! ## Another child for a parent -/

@[simp] theorem free_relink (index : Index) (first : Side) (p old new : Nat) :
    (index.relink first p old new).free = index.free := by
  unfold relink
  split_ifs <;> rfl

@[simp] theorem size_relink (index : Index) (first : Side) (p old new : Nat) :
    (index.relink first p old new).size = index.size := by
  unfold relink
  split_ifs <;> rfl

@[simp] theorem size_slots_relink (index : Index) (first : Side) (p old new : Nat) :
    (index.relink first p old new).slots.size = index.slots.size := by
  unfold relink
  split_ifs <;> simp

/-- Only the parent changes, if there is one. -/
theorem slot_relink (h : i = p → p = 0) (first : Side) (old new : Nat) :
    (index.relink first p old new).slot i = index.slot i := by
  unfold relink
  split_ifs with hp
  · rfl
  · exact slot_update_of_ne (fun heq => hp (h heq)) _
  · exact slot_update_of_ne (fun heq => hp (h heq)) _

theorem slot_relink_of_ne (h : i ≠ p) (first : Side) (old new : Nat) :
    (index.relink first p old new).slot i = index.slot i :=
  slot_relink (fun heq => absurd heq h) first old new

/-- The parent of a place is given another child in it. -/
theorem HoldsPath.setChild {f : Frame} {rest : Path} (h : index.HoldsPath (f :: rest) hole)
    (htidy : Tidy index.slots.size (Path.outside (f :: rest))) (new : Nat) :
    (index.setChild f.entry.slot f.side new).HoldsPath (f :: rest) new := by
  obtain ⟨hslot, hsibling, hrest⟩ := h
  obtain ⟨-, hbound, hfresh, -⟩ := Tidy.cons_iff.1 htidy
  simp only [List.mem_append] at hfresh
  refine ⟨?_, hsibling.update_of_ne (fun x hx => hfresh x (Or.inl hx)) _,
    hrest.update_of_ne (fun x hx => hfresh x (Or.inr hx)) _⟩
  rw [slot_update_self hbound, hslot, Entry.withChild_cell]

/-- The parent of a place points to the new node in it, whichever side is looked at
first. -/
theorem HoldsPath.relink {old : Nat} (h : index.HoldsPath path old)
    (htidy : Tidy index.slots.size path.outside) (hold : old ≠ 0)
    (hne : ∀ e ∈ path.outside, e.slot ≠ old) (first : Side) (new : Nat) :
    (index.relink first path.above old new).HoldsPath path new := by
  cases path with
  | nil => rfl
  | cons f rest =>
    have hslot := h.1
    have hzero := (htidy.inside f.entry List.mem_cons_self).1
    have hsides : old ≠ f.sibling.top := Tree.ne_top hold fun e he =>
      hne e (List.mem_cons_of_mem _ (List.mem_append_left _ he))
    have hlink : index.relink first (Path.above (f :: rest)) old new
        = index.setChild f.entry.slot f.side new := by
      unfold Index.relink child
      rw [Path.above, if_neg hzero]
      by_cases hside : f.side = first
      · rw [← hside, hslot, Entry.child_cell, if_pos rfl]
      · have hother : first = f.side.other := by
          cases first <;> cases hf : f.side <;> simp_all [Side.other]
        rw [hother, hslot, Entry.child_other_cell, if_neg hsides, Side.other_other]
    rw [hlink]
    exact h.setChild htidy new

/-! ## Turning -/

/-- The first half of a turn: the inner grandchild of a node changes over to it. -/
def handOver (index : Index) (side : Side) (x : Nat) : Index :=
  let inner := index.child (index.child x side.other) side
  let moved := index.setChild x side.other inner
  if inner = 0 then moved else moved.setParent inner x

theorem rotate_eq (index : Index) (side : Side) (x : Nat) :
    let y := index.child x side.other
    let handed := index.handOver side x
    let above := handed.parent x
    index.rotate side x
      = (((handed.setParent y above).relink side above x y).setChild y side x).setParent x y := rfl

/-- A node on its way to a place, with a tree on its outer side. In the place still
stands `hole`, and the tree that is to hang on the inner side is shown below `p`. -/
structure Loose (index : Index) (path : Path) (hole p : Nat) (t : Tree) (e : Entry) (cell : Slot)
    (far : Tree) : Prop where
  /-- The slots show the path. -/
  around : index.HoldsPath path hole
  /-- They show the tree for the inner side. -/
  lower : index.Holds p t
  /-- What stands in the slot of the node. -/
  node : index.slot e.slot = cell
  /-- The tree on its outer side. -/
  outer : index.Holds e.slot far
  /-- Every node has a slot of its own. -/
  tidy : Tidy index.slots.size (e :: (t.entries ++ (far.entries ++ path.outside)))

namespace Loose

variable {e : Entry} {cell : Slot} {far : Tree}

/-- A change of the loose node leaves the rest alone. -/
theorem update (h : index.Loose path hole p t e cell far) (f : Slot → Slot) :
    (index.update e.slot f).Loose path hole p t e (f cell) far := by
  obtain ⟨-, hbound, hfresh, -⟩ := Tidy.cons_iff.1 h.tidy
  simp only [List.mem_append] at hfresh
  constructor
  · exact h.around.update_of_ne (fun x hx => hfresh x (Or.inr (Or.inr hx))) f
  · exact h.lower.update_of_ne (fun x hx => hfresh x (Or.inl hx)) f
  · rw [slot_update_self hbound, h.node]
  · exact h.outer.update_of_ne (fun x hx => hfresh x (Or.inr (Or.inl hx))) f
  · rw [size_slots_update]
    exact h.tidy

/-- The parent of the place takes the node as its child. -/
theorem relink (h : index.Loose path hole p t e cell far) (hhole : hole = t.top) (hne : t ≠ .leaf)
    (first : Side) :
    (index.relink first path.above hole e.slot).Loose path e.slot p t e cell far := by
  subst hhole
  obtain ⟨-, -, -, hrest⟩ := Tidy.cons_iff.1 h.tidy
  obtain ⟨htree, hsides, hcross⟩ := Tidy.append_iff.1 hrest
  have houter : Tidy index.slots.size path.outside := (Tidy.append_iff.1 hsides).2.1
  have hentries : Tidy index.slots.size ((e :: (t.entries ++ far.entries)) ++ path.outside) := by
    simpa using h.tidy
  have hslot (x : Entry) (hx : x ∈ e :: (t.entries ++ far.entries)) :
      (index.relink first path.above t.top e.slot).slot x.slot = index.slot x.slot :=
    slot_relink_of_ne (Path.ne_above hentries x hx) first _ _
  have hzero : t.top ≠ 0 := htree.top_ne_zero hne
  have hout : ∀ x ∈ path.outside, x.slot ≠ t.top := fun x hx =>
    Tree.ne_top (houter.inside x hx).1 fun y hy => hcross y hy x (List.mem_append_right _ hx)
  constructor
  · exact h.around.relink houter hzero hout first e.slot
  · exact h.lower.congr fun x hx => hslot x (List.mem_cons_of_mem _ (List.mem_append_left _ hx))
  · rw [hslot e List.mem_cons_self, h.node]
  · exact h.outer.congr fun x hx => hslot x (List.mem_cons_of_mem _ (List.mem_append_right _ hx))
  · rw [size_slots_relink]
    exact h.tidy

/-- With its place, its parent and its children the node stands where it belongs once
the node below it points back to it. -/
theorem close {side : Side} {c : Colour} {x : Nat}
    (h : index.Loose path e.slot p t e (e.cell side c x far.top path.above) far)
    (hx : x = t.top) (hne : t ≠ .leaf) :
    (index.setParent x e.slot).Shows (path.fill (.join side c t e far)) := by
  subst hx
  obtain ⟨-, -, hfresh, hrest⟩ := Tidy.cons_iff.1 h.tidy
  obtain ⟨htree, hsides, hcross⟩ := Tidy.append_iff.1 hrest
  have hne_top (x : Entry) (hx : x ∈ far.entries ++ path.outside) : x.slot ≠ t.top :=
    Tree.ne_top (hsides.inside x hx).1 fun y hy => hcross y hy x hx
  refine shows_fill_iff.2 ⟨?_, holds_join.2 ⟨?_, h.lower.setParent_top htree _, ?_⟩, ?_⟩
  · rw [Tree.top_join]
    exact h.around.update_of_ne (fun x hx => hne_top x (List.mem_append_right _ hx)) _
  · obtain ⟨x, hx, hslot⟩ := Tree.exists_top (htree.top_ne_zero hne)
    rw [slot_update_of_ne, h.node]
    rw [← hslot]
    exact (hfresh x (List.mem_append_left _ hx)).symm
  · exact h.outer.update_of_ne (fun x hx => hne_top x (List.mem_append_left _ hx)) _
  · rw [size_slots_update]
    refine h.tidy.perm ?_
    rw [← List.append_assoc, ← List.cons_append]
    exact ((Tree.entries_join_perm side c t e far).append_right _).symm

end Loose

/-- The inner subtree is hung below the node that comes down, if there is one. -/
theorem Holds.hang (h : index.Holds p t) (htidy : Tidy index.slots.size t.entries) (q : Nat) :
    (if t.top = 0 then index else index.setParent t.top q).Holds q t ∧
      ∀ j, j ≠ t.top →
        (if t.top = 0 then index else index.setParent t.top q).slot j = index.slot j := by
  split_ifs with hleaf
  · refine ⟨?_, fun _ _ => rfl⟩
    by_cases hne : t = .leaf
    · rw [hne]
      trivial
    · exact absurd hleaf (htidy.top_ne_zero hne)
  · exact ⟨h.setParent_top htidy q, fun j hj => slot_update_of_ne hj _⟩

theorem Kept.relink (index : Index) (first : Side) (p old new : Nat) :
    Kept index (index.relink first p old new) :=
  ⟨free_relink .., size_relink .., size_slots_relink .., slot_relink Eq.symm first old new⟩

theorem Kept.handOver (index : Index) (side : Side) {x : Nat} (h : x ≠ 0) :
    Kept index (index.handOver side x) := by
  rw [Index.handOver]
  split_ifs with hinner
  · exact .update index h _
  · exact (Kept.update index h _).trans (.update _ hinner _)

section Turn

variable {side : Side} {c c' : Colour} {near inner far : Tree} {e e' : Entry}

/-- After the first half of a turn the lower node is on its way, and its inner subtree
hangs below the upper one. -/
theorem Shows.handOver
    (h : index.Shows (path.fill (.join side c near e (.join side c' inner e' far)))) :
    (index.handOver side e.slot).Loose path e.slot path.above (.join side c near e inner) e'
      (e'.cell side c' inner.top far.top e.slot) far := by
  obtain ⟨hpath, htree, htidy⟩ := shows_fill_iff.1 h
  obtain ⟨hx, hnear, hlower⟩ := holds_join.1 htree
  obtain ⟨hy, hinner, hfar⟩ := holds_join.1 hlower
  rw [Tree.top_join] at hpath hx
  -- the upper node and the inner subtree change, everything else is apart from them
  let others := e' :: (near.entries ++ (far.entries ++ path.outside))
  have hperm : ((Tree.join side c near e (.join side c' inner e' far)).entries ++
      path.outside).Perm (e :: (inner.entries ++ others)) := by
    have hjoin : (Tree.join side c near e (.join side c' inner e' far)).entries.Perm
        (e :: e' :: (near.entries ++ (inner.entries ++ far.entries))) :=
      (Tree.entries_join_perm side c near e _).trans
        (((Tree.entries_join_perm side c' inner e' far).append_left near.entries).trans
          List.perm_middle |>.cons e)
    refine (hjoin.append_right _).trans ?_
    simp only [List.cons_append, List.append_assoc]
    exact (((List.perm_append_comm_assoc _ _ _).cons e').trans List.perm_middle.symm).cons e
  obtain ⟨hx0, hxb, hxne, hrest⟩ := Tidy.cons_iff.1 (htidy.perm hperm)
  obtain ⟨hinnerT, hothersT, hcross⟩ := Tidy.append_iff.1 hrest
  have hinnerX (z : Entry) (hz : z ∈ inner.entries) : z.slot ≠ e.slot :=
    hxne z (List.mem_append_left _ hz)
  have hchild : index.child (index.child e.slot side.other) side = inner.top := by
    rw [child, child, hx, Entry.child_other_cell, hy, Entry.child_cell]
  have hhanded : index.handOver side e.slot
      = if inner.top = 0 then index.setChild e.slot side.other inner.top
        else (index.setChild e.slot side.other inner.top).setParent inner.top e.slot := by
    rw [Index.handOver, hchild]
  obtain ⟨hheld, hframe⟩ := (hinner.update_of_ne hinnerX (·.withChild side.other inner.top)).hang
    (by rwa [size_slots_update]) e.slot
  rw [← hhanded] at hheld hframe
  have hothers (z : Entry) (hz : z ∈ others) :
      (index.handOver side e.slot).slot z.slot = index.slot z.slot := by
    rw [hframe _ (Tree.ne_top (hothersT.inside z hz).1 fun w hw => hcross w hw z hz),
      slot_update_of_ne (hxne z (List.mem_append_right _ hz))]
  constructor
  · refine hpath.congr ?_ fun z hz => hothers z (by simp [others, hz])
    rw [hhanded]
    split_ifs <;> rfl
  · refine holds_join.2 ⟨?_, hnear.congr fun z hz => hothers z (by simp [others, hz]), hheld⟩
    rw [hframe _ (Tree.ne_top hx0 hinnerX), slot_update_self hxb, hx, Entry.withChild_other_cell]
  · rw [hothers e' (by simp [others]), hy]
  · exact hfar.congr fun z hz => hothers z (by simp [others, hz])
  · have hslots : (index.handOver side e.slot).slots.size = index.slots.size := by
      rw [hhanded]
      split_ifs <;> simp
    rw [hslots]
    refine (htidy.perm hperm).perm ?_
    simp only [others]
    refine (List.perm_middle.cons e).trans (.trans (.swap e' e _) (.cons e' ?_))
    refine .trans (.cons e (List.perm_append_comm_assoc _ _ _)) ?_
    rw [← List.append_assoc, ← List.cons_append]
    exact ((Tree.entries_join_perm side c near e inner).append_right _).symm

/-- Turning a node turns it in the tree: its child takes its place, and the inner
subtree changes over. -/
theorem Shows.rotate
    (h : index.Shows (path.fill (.join side c near e (.join side c' inner e' far)))) :
    (index.rotate side e.slot).Shows
        (path.fill (.join side c' (.join side c near e inner) e' far)) ∧
      Kept index (index.rotate side e.slot) := by
  have hloose := h.handOver
  have hy : index.child e.slot side.other = e'.slot := by
    rw [child, h.slot_eq, Entry.child_other_cell, Tree.top_join]
  have habove : (index.handOver side e.slot).parent e.slot = path.above := by
    rw [parent, (holds_join.1 hloose.lower).1, Entry.parent_cell]
  have hzero {x : Entry} (hx : x = e ∨ x = e') : x.slot ≠ 0 := by
    refine (hloose.tidy.inside x ?_).1
    simp only [List.mem_cons, List.mem_append, (Tree.entries_join_perm side c near e inner).mem_iff]
    tauto
  have hne : Tree.join side c near e inner ≠ .leaf := by cases side <;> simp [Tree.join]
  rw [rotate_eq, hy, habove]
  constructor
  · have hlinked := (hloose.update (·.withParent path.above)).relink (by simp) hne side
    have hlowered := hlinked.update (·.withChild side e.slot)
    rw [Entry.withParent_cell, Entry.withChild_cell] at hlowered
    exact hlowered.close (by simp) hne
  · exact (Kept.handOver index side (hzero (Or.inl rfl))).trans
      ((Kept.update _ (hzero (Or.inr rfl)) _).trans ((Kept.relink _ _ _ _ _).trans
        ((Kept.update _ (hzero (Or.inr rfl)) _).trans (Kept.update _ (hzero (Or.inl rfl)) _))))

end Turn

/-! ## Reshaping -/

/-- The index shows a tree that came about from another index by recolouring and
turning: the entries are the same in the same order, and what such changes leave
alone is as it was. -/
structure Reshaped (old : Index) (entries : List Entry) (index : Index) (t : Tree) : Prop where
  /-- The slots show the tree. -/
  shows : index.Shows t
  /-- The account of the slots and the first slot are as before. -/
  kept : Kept old index
  /-- The entries are as before. -/
  entries_eq : t.entries = entries

namespace Reshaped

variable {old : Index} {entries : List Entry} {f : Frame} {rest : Path}

theorem refl (h : index.Shows t) : Reshaped index t.entries index t := ⟨h, Kept.refl index, rfl⟩

theorem colour_zero (h : Reshaped old entries index t) : index.colour 0 = old.colour 0 :=
  congrArg Slot.colour h.kept.zero

/-- Recolouring the node in the place. -/
theorem paint_top (h : Reshaped old entries index (path.fill t)) (hne : t ≠ .leaf) (new : Colour) :
    Reshaped old entries (index.paint t.top new) (path.fill (t.paint new)) := by
  obtain ⟨c, l, e, r, rfl⟩ := Tree.exists_join hne .left
  have hzero : e.slot ≠ 0 := by
    refine (h.shows.tidy.inside e ?_).1
    rw [(path.entries_fill_perm _).mem_iff, List.mem_append]
    exact Or.inl ((Tree.entries_join_perm .left c l e r).mem_iff.2 List.mem_cons_self)
  refine ⟨h.shows.paint new, h.kept.trans (.update index ?_ _), ?_⟩
  · rwa [Tree.top_join]
  · rw [path.entries_fill_congr (Tree.entries_paint new _)]
    exact h.entries_eq

/-- Recolouring the node above the place. -/
theorem paint_frame (h : Reshaped old entries index (Path.fill (f :: rest) t)) (new : Colour) :
    Reshaped old entries (index.paint f.entry.slot new)
      (Path.fill (⟨f.side, new, f.entry, f.sibling⟩ :: rest) t) := by
  have hplace : Reshaped old entries index
      (Path.fill rest (.join f.side f.colour t f.entry f.sibling)) := h
  have hpainted := hplace.paint_top (by cases f.side <;> simp [Tree.join]) new
  rwa [Tree.top_join, Tree.paint_join] at hpainted

/-- Recolouring the sibling of the place. -/
theorem paint_sibling (h : Reshaped old entries index (Path.fill (f :: rest) t))
    (hne : f.sibling ≠ .leaf) (new : Colour) :
    Reshaped old entries (index.paint f.sibling.top new)
      (Path.fill (⟨f.side, f.colour, f.entry, f.sibling.paint new⟩ :: rest) t) := by
  rw [Path.fill_swap] at h ⊢
  exact h.paint_top hne new

/-- Turning the node in the place. -/
theorem rotate {side : Side} {c c' : Colour} {near inner far : Tree} {e e' : Entry}
    (h : Reshaped old entries index
      (path.fill (.join side c near e (.join side c' inner e' far)))) :
    Reshaped old entries (index.rotate side e.slot)
      (path.fill (.join side c' (.join side c near e inner) e' far)) := by
  obtain ⟨hshows, hkept⟩ := h.shows.rotate
  refine ⟨hshows, h.kept.trans hkept, ?_⟩
  rw [path.entries_fill_congr (Tree.entries_turn side c c' c c' near e inner e' far)]
  exact h.entries_eq

end Reshaped

end QuorumStore.Placement.Index
