import QuorumStore.Proofs.RedBlack.Balance
import QuorumStore.Proofs.RedBlack.Searching

/-!
# Taking a node out of the tree

A node with a missing child gives its place to its other child. A node with two
children gives its place to the node with the next key, which has no left child
and gives its own place to its right one. What moved up may be a missing node:
then the first slot tells where it is missing.
-/

namespace QuorumStore.Placement.Index

variable {index : Index} {t : Tree} {path : Path} {p q hole i old new : Nat}

/-! ## What is left alone -/

/-- What taking a node out leaves alone: the account of the slots, and the colour of
the first slot, but not its parent. -/
structure Spared (old new : Index) : Prop where
  /-- The freed slots. -/
  free : new.free = old.free
  /-- The number of entries. -/
  size : new.size = old.size
  /-- The number of slots. -/
  slots : new.slots.size = old.slots.size
  /-- A missing node has the colour it had. -/
  colour : new.colour 0 = old.colour 0

theorem Spared.trans {a b c : Index} (h : Spared a b) (h' : Spared b c) : Spared a c :=
  ⟨h'.free.trans h.free, h'.size.trans h.size, h'.slots.trans h.slots, h'.colour.trans h.colour⟩

theorem Kept.spared {a b : Index} (h : Kept a b) : Spared a b :=
  ⟨h.free, h.size, h.slots, congrArg Slot.colour h.zero⟩

/-- Another parent for a slot changes no colour. -/
theorem Spared.setParent (hpos : 0 < index.slots.size) (i q : Nat) :
    Spared index (index.setParent i q) := by
  have hcolour : (index.setParent i q).colour 0 = index.colour 0 := by
    by_cases hi : i = 0
    · subst hi
      have hslot := slot_update_self hpos (·.withParent q)
      exact (congrArg Slot.colour hslot).trans rfl
    · exact congrArg Slot.colour (slot_update_of_ne (Ne.symm hi) _)
  exact ⟨rfl, rfl, size_slots_update .., hcolour⟩

/-! ## Giving a place away -/

/-- Only the parent above and the node that moves up change. -/
theorem slot_transplant (hnew : i ≠ new) (habove : i = index.parent old → index.parent old = 0) :
    (index.transplant old new).slot i = index.slot i := by
  rw [Index.transplant, slot_update_of_ne hnew, slot_relink habove]

theorem Spared.transplant (hpos : 0 < index.slots.size) (old new : Nat) :
    Spared index (index.transplant old new) := by
  have hrelink : Spared index (index.relink .left (index.parent old) old new) :=
    ⟨free_relink .., size_relink .., size_slots_relink ..,
      congrArg Slot.colour (slot_relink Eq.symm _ _ _)⟩
  exact hrelink.trans (.setParent (hrelink.slots.symm ▸ hpos) _ _)

/-- A tree that is shown somewhere takes the place of a node. -/
theorem HoldsPath.transplant (hpath : index.HoldsPath path old) (htree : index.Holds q t)
    (hparent : index.parent old = path.above) (hold : old ≠ 0)
    (htidy : Tidy index.slots.size (t.entries ++ path.outside))
    (hne : ∀ e ∈ path.outside, e.slot ≠ old) (hpos : 0 < index.slots.size) :
    (index.transplant old t.top).HoldsPath path t.top ∧
      (index.transplant old t.top).Holds path.above t ∧
      (index.transplant old t.top).parent t.top = path.above := by
  obtain ⟨hin, hout, hcross⟩ := Tidy.append_iff.1 htidy
  have habove := Path.ne_above htidy
  unfold Index.transplant
  rw [hparent]
  refine ⟨?_, ?_, ?_⟩
  · refine (hpath.relink hout hold hne .left t.top).update_of_ne (fun e he => ?_) _
    exact Tree.ne_top (hout.inside e he).1 fun x hx => hcross x hx e he
  · refine Holds.setParent_top (p := q) ?_ ?_ path.above
    · exact htree.congr fun e he => slot_relink_of_ne (habove e he) _ _ _
    · rwa [size_slots_relink]
  · have hlt : t.top < index.slots.size := by
      by_cases hleaf : t.top = 0
      · rwa [hleaf]
      · obtain ⟨e, he, hslot⟩ := Tree.exists_top hleaf
        exact hslot ▸ (hin.inside e he).2
    rw [parent, slot_update_self (by rwa [size_slots_relink])]
    rfl

/-- A node with a missing child gives its place to its other child. -/
theorem Shows.transplant {side : Side} {c : Colour} {e : Entry}
    (h : index.Shows (path.fill (.join side c .leaf e t))) (hpos : 0 < index.slots.size) :
    (index.transplant e.slot t.top).Shows (path.fill t) ∧
      (index.transplant e.slot t.top).parent t.top = path.above := by
  obtain ⟨hpath, htree, htidy⟩ := shows_fill_iff.1 h
  obtain ⟨hslot, -, ht⟩ := holds_join.1 htree
  rw [Tree.top_join] at hpath
  have hparts : Tidy index.slots.size (e :: (t.entries ++ path.outside)) :=
    htidy.perm ((Tree.entries_join_perm side c .leaf e t).append_right _)
  obtain ⟨hold, -, hfresh, hrest⟩ := Tidy.cons_iff.1 hparts
  have hparent : index.parent e.slot = path.above := by rw [parent, hslot, Entry.parent_cell]
  obtain ⟨hpath', ht', htop⟩ := hpath.transplant ht hparent hold hrest
    (fun x hx => hfresh x (List.mem_append_right _ hx)) hpos
  refine ⟨shows_fill_iff.2 ⟨hpath', ht', ?_⟩, htop⟩
  rwa [(Spared.transplant hpos _ _).slots]

/-! ## A node with two children -/

section Successor

variable {inner : Path} {c c' : Colour} {l r : Tree} {e y : Entry}

/-- A node was taken out of its place below a path, and a tree of it and of what is left
there is shown somewhere. What moved up knows its parent, even when it is missing. -/
structure Detached (old new : Index) (path : Path) (t moved : Tree) (parent : Nat) : Prop where
  /-- The slots show the path. -/
  around : ∃ hole, new.HoldsPath path hole
  /-- They show the tree. -/
  holds : ∃ p, new.Holds p t
  /-- The account of the slots is as before. -/
  spared : Spared old new
  /-- The first slot tells where a node is missing. -/
  missing : moved = .leaf → new.parent 0 = parent

/-- Where the node with the next key is the right child, it stays above its own. -/
theorem Shows.detach_child
    (h : index.Shows (Path.fill (⟨.right, c, e, l⟩ :: path) (.node c' .leaf y r)))
    (hpos : 0 < index.slots.size) :
    Detached index (index.detach e.slot y.slot) (⟨.right, c, e, l⟩ :: path)
      (.node c' .leaf y r) r y.slot := by
  obtain ⟨hpath, ⟨hy, -, hr⟩, htidy⟩ := shows_fill_iff.1 h
  obtain ⟨hyr, hout, hcross⟩ := Tidy.append_iff.1 htidy
  obtain ⟨hy0, -, hyne, hrT⟩ := Tidy.cons_iff.1 hyr
  have hdetach : index.detach e.slot y.slot = index.setParent r.top y.slot := by
    have hparent : index.parent y.slot = e.slot := h.parent_top (t := .node c' .leaf y r) (by simp)
    have hx : index.child y.slot .right = r.top := by
      rw [child, hy]
      rfl
    simp only [Index.detach, hparent, hx, if_pos]
  rw [hdetach]
  refine ⟨⟨y.slot, ?_⟩, ⟨e.slot, ?_, trivial, hr.setParent_top hrT _⟩, .setParent hpos _ _, ?_⟩
  · refine hpath.update_of_ne (fun x hx => ?_) _
    exact Tree.ne_top (hout.inside x hx).1 fun z hz => hcross z (List.mem_cons_of_mem _ hz) x hx
  · rw [slot_update_of_ne (Tree.ne_top hy0 hyne), hy]
    rfl
  · rintro rfl
    rw [Tree.top, parent, slot_update_self hpos]
    rfl

/-- Where it stands further down, it gives its place away and takes the whole right side
over. -/
theorem Shows.detach_below {f : Frame}
    (h : index.Shows (Path.fill (f :: (inner ++ ⟨.right, c, e, l⟩ :: path)) (.node c' .leaf y r)))
    (hpos : 0 < index.slots.size) :
    Detached index (index.detach e.slot y.slot) (⟨.right, c, e, l⟩ :: path)
      (.node c' .leaf y (Path.fill (f :: inner) r)) r f.entry.slot := by
  have hjoin : index.Shows
      (Path.fill ((f :: inner) ++ ⟨.right, c, e, l⟩ :: path) (.join .left c' .leaf y r)) := h
  have hparts : Tidy index.slots.size
      (y :: (r.entries ++ Path.outside ((f :: inner) ++ ⟨.right, c, e, l⟩ :: path))) :=
    (shows_fill_iff.1 h).2.2
  obtain ⟨hy0, hyb, hyfresh, hrest⟩ := Tidy.cons_iff.1 hparts
  have hparent : index.parent y.slot = f.entry.slot :=
    h.parent_top (t := .node c' .leaf y r) (by simp)
  have hx : index.child y.slot .right = r.top := (shows_fill_iff.1 h).2.1.read.2.2
  have hfe : f.entry.slot ≠ e.slot := by
    have hout := (Tidy.append_iff.1 hrest).2.1
    rw [Path.outside_append] at hout
    exact (Tidy.append_iff.1 hout).2.2 f.entry List.mem_cons_self e List.mem_cons_self
  -- the node gives its place away, and the tree below `e` is without it
  obtain ⟨hmoved, htop⟩ := hjoin.transplant hpos
  have hspared := Spared.transplant hpos y.slot r.top
  have hyslot : (index.transplant y.slot r.top).slot y.slot
      = y.cell .left c' 0 r.top f.entry.slot := by
    have hye : y.slot ≠ f.entry.slot :=
      (hyfresh f.entry (List.mem_append_right _ List.mem_cons_self)).symm
    rw [slot_transplant (Tree.ne_top hy0 fun x hx => hyfresh x (List.mem_append_left _ hx))
      (fun heq => absurd (heq.trans hparent) hye)]
    exact hjoin.slot_eq
  unfold Index.detach
  simp only [hx, hparent, if_neg hfe]
  generalize index.transplant y.slot r.top = index' at hmoved htop hspared hyslot
  rw [Path.fill_append] at hmoved
  have hne : Path.fill (f :: inner) r ≠ .leaf := Path.fill_cons_ne_leaf f inner r
  have hfresh : ∀ x ∈ (Path.fill (f :: inner) r).entries ++
      Path.outside (⟨.right, c, e, l⟩ :: path), x.slot ≠ y.slot := by
    intro x hx
    refine hyfresh x ?_
    rwa [Path.outside_append, ← List.append_assoc,
      ← ((Path.entries_fill_perm (f :: inner) r).append_right _).mem_iff]
  generalize Path.fill (f :: inner) r = right at hmoved hne hfresh ⊢
  obtain ⟨hpath, hright, htidy⟩ := shows_fill_iff.1 hmoved
  obtain ⟨hrightT, houtT, hcrossT⟩ := Tidy.append_iff.1 htidy
  have hchild : index'.child e.slot .right = right.top := by
    rw [child, hpath.1]
    rfl
  have hyright : y.slot ≠ right.top := Tree.ne_top hy0 fun x hx =>
    hfresh x (List.mem_append_left _ hx)
  have hright0 : right.top ≠ 0 := hrightT.top_ne_zero hne
  rw [hchild]
  refine ⟨⟨right.top, ?_⟩, ⟨f.entry.slot, ?_, trivial, ?_⟩, ?_, ?_⟩
  · refine (hpath.update_of_ne (fun x hx => ?_) _).update_of_ne (fun x hx => ?_) _
    · exact hfresh x (List.mem_append_right _ hx)
    · exact Tree.ne_top (houtT.inside x hx).1 fun z hz => hcrossT z hz x hx
  · rw [slot_update_of_ne hyright, slot_update_self (hspared.slots.symm ▸ hyb), hyslot]
    rfl
  · refine (hright.update_of_ne (fun x hx => ?_) _).setParent_top ?_ _
    · exact hfresh x (List.mem_append_left _ hx)
    · rwa [size_slots_update]
  · exact hspared.trans ((Kept.update _ hy0 _).trans (Kept.update _ hright0 _)).spared
  · rintro rfl
    rw [parent, slot_update_of_ne hright0.symm, slot_update_of_ne hy0.symm]
    exact htop

/-- The node with the next key is taken out of its place, and what is left on the
right of the node below is hung below it. -/
theorem Shows.detach
    (h : index.Shows (Path.fill (inner ++ ⟨.right, c, e, l⟩ :: path) (.node c' .leaf y r)))
    (hpos : 0 < index.slots.size) :
    Detached index (index.detach e.slot y.slot) (⟨.right, c, e, l⟩ :: path)
      (.node c' .leaf y (inner.fill r)) r (Path.above (inner ++ ⟨.right, c, y, l⟩ :: path)) := by
  cases inner with
  | nil => exact h.detach_child hpos
  | cons f inner => exact h.detach_below hpos

/-- The node with the next key takes the place of the one below which it hung, with
the left side and the colour of that one. -/
theorem HoldsPath.supplant {right : Tree}
    (hpath : index.HoldsPath (⟨.right, c, e, l⟩ :: path) hole)
    (hright : index.Holds p (.node c' .leaf y right)) (hl : l ≠ .leaf)
    (htidy : Tidy index.slots.size
      (y :: (right.entries ++ Path.outside (⟨.right, c, e, l⟩ :: path))))
    (hpos : 0 < index.slots.size) :
    (index.supplant e.slot y.slot).Shows (path.fill (.node c l y right)) ∧
      Kept index (index.supplant e.slot y.slot) := by
  obtain ⟨hslot, hleft, habove⟩ := hpath
  obtain ⟨hy0, -, hyfresh, hrest⟩ := Tidy.cons_iff.1 htidy
  obtain ⟨he0, -, hefresh, hlow⟩ := Tidy.cons_iff.1 (Tidy.append_iff.1 hrest).2.1
  have hlT : Tidy index.slots.size l.entries := (Tidy.append_iff.1 hlow).1
  have hplace : Tidy index.slots.size ((Tree.node c' .leaf y right).entries ++ path.outside) :=
    htidy.sublist (((List.Sublist.refl _).append
      ((List.sublist_append_right l.entries path.outside).cons e)).cons_cons y)
  have hloose : Tidy index.slots.size
      (y :: (l.entries ++ (right.entries ++ path.outside))) := by
    refine (htidy.sublist (((List.Sublist.refl _).append
      (List.sublist_cons_self e _)).cons_cons y)).perm ?_
    exact (List.perm_append_comm_assoc _ _ _).cons y
  have hlabove : ∀ x ∈ e :: l.entries, x.slot ≠ path.above :=
    Path.ne_above (show Tidy index.slots.size ((e :: l.entries) ++ path.outside) from
      (Tidy.append_iff.1 hrest).2.1)
  have hly : ∀ x ∈ e :: l.entries, x.slot ≠ y.slot := fun x hx => hyfresh x <| by
    rcases List.mem_cons.1 hx with rfl | hx
    · simp [Path.outside]
    · simp [Path.outside, hx]
  have hparent : index.parent e.slot = path.above := by rw [parent, hslot, Entry.parent_cell]
  obtain ⟨hpath, htree, -⟩ := habove.transplant hright hparent he0 hplace
    (fun x hx => hefresh x (List.mem_append_right _ hx)) hpos
  have hkept : Kept index (index.transplant e.slot y.slot) := by
    have hspared := Spared.transplant hpos e.slot y.slot
    exact ⟨hspared.free, hspared.size, hspared.slots, slot_transplant hy0.symm Eq.symm⟩
  have hother (x : Entry) (hx : x ∈ e :: l.entries) :
      (index.transplant e.slot y.slot).slot x.slot = index.slot x.slot :=
    slot_transplant (hly x hx) fun h => absurd (h.trans hparent) (hlabove x hx)
  have heslot := (hother e List.mem_cons_self).trans hslot
  have hleft' := hleft.congr fun x hx => hother x (List.mem_cons_of_mem _ hx)
  unfold Index.supplant
  rw [Tree.top] at hpath htree
  generalize index.transplant e.slot y.slot = moved at *
  have hchild : moved.child e.slot .left = l.top := by
    rw [child, heslot]
    rfl
  simp only [hchild]
  -- the node stands in the place and takes the left side over
  have hnode : moved.Loose path y.slot e.slot l y (y.cell .left c' 0 right.top path.above) right :=
    ⟨hpath, hleft', htree.1, htree.2.2, hkept.slots.symm ▸ hloose⟩
  have hgrown := hnode.update (·.withChild .left l.top)
  rw [Entry.withChild_cell] at hgrown
  have hshows := hgrown.close rfl hl
  have hlinked : Kept moved ((moved.setChild y.slot .left l.top).setParent l.top y.slot) :=
    (Kept.update _ hy0 _).trans (Kept.update _ (hlT.top_ne_zero hl) _)
  have hcolour :
      ((moved.setChild y.slot .left l.top).setParent l.top y.slot).colour e.slot = c := by
    rw [colour, slot_update_of_ne, slot_update_of_ne (hly e List.mem_cons_self), heslot,
      Entry.colour_cell]
    exact Tree.ne_top he0 fun x hx => hefresh x (List.mem_append_left _ hx)
  rw [hcolour]
  exact ⟨hshows.paint c, hkept.trans (hlinked.trans (Kept.update _ hy0 _))⟩

end Successor

/-! ## Any node -/

/-- The tree without a node, as a tree in the place where something moved up. Only
the colour that is gone may be missing there. -/
structure Opened (old : Index) (entries : List Entry) (rest : Unlinked) (path : Path) (t : Tree) :
    Prop where
  /-- The node that moved up stands in the place, unless it is missing. -/
  moved : rest.moved = t.top
  /-- The slots show the tree. -/
  shows : rest.index.Shows (path.fill t)
  /-- What moved up knows where it is, even when it is missing. -/
  parent : rest.index.parent t.top = path.above
  /-- The account of the slots is as before. -/
  spared : Spared old rest.index
  /-- These are the entries that are left. -/
  entries_eq : (path.fill t).entries = entries
  /-- What moved up has no black nodes. -/
  balanced : t.Balanced 0
  /-- With the colour that is gone the tree was balanced. -/
  fits : path.Fits rest.colour rest.colour.weight
  /-- Below a red node that is gone stood a black one. -/
  red : rest.colour = .red → t.colour = .black

/-- A node with a missing child leaves its place to its other child. -/
theorem Shows.opened_single {side : Side} {c : Colour} {e : Entry}
    (h : index.Shows (path.fill (.join side c .leaf e t)))
    (hbal : (path.fill (.join side c .leaf e t)).colour = .black ∧
      ∃ m, (path.fill (.join side c .leaf e t)).Balanced m)
    (hpos : 0 < index.slots.size) :
    Opened index (path.fill t).entries ⟨index.transplant e.slot t.top, t.top, c⟩ path t := by
  obtain ⟨hshows, hparent⟩ := h.transplant hpos
  obtain ⟨ht, hfits, hred⟩ := Path.fits_of_missing side hbal
  exact ⟨rfl, hshows, hparent, .transplant hpos _ _, rfl, ht, hfits, hred⟩

/-- A node with two children leaves its place to the node with the next key. -/
theorem Shows.opened_both {inner : Path} {c c' : Colour} {l r : Tree} {e y : Entry}
    (h : index.Shows (Path.fill (inner ++ ⟨.right, c, e, l⟩ :: path) (.node c' .leaf y r)))
    (hbal : (Path.fill (inner ++ ⟨.right, c, e, l⟩ :: path) (.node c' .leaf y r)).colour = .black ∧
      ∃ m, (Path.fill (inner ++ ⟨.right, c, e, l⟩ :: path) (.node c' .leaf y r)).Balanced m)
    (hl : l ≠ .leaf) (hpos : 0 < index.slots.size) :
    Opened index (path.fill (.node c l y (inner.fill r))).entries
      ⟨(index.detach e.slot y.slot).supplant e.slot y.slot, r.top, c'⟩
      (inner ++ ⟨.right, c, y, l⟩ :: path) r := by
  have hfill : Path.fill (inner ++ ⟨.right, c, y, l⟩ :: path) r
      = path.fill (.node c l y (inner.fill r)) := Path.fill_append ..
  obtain ⟨⟨hole, hpath⟩, ⟨p, hright⟩, hspared, hzero⟩ := h.detach hpos
  have htidy : Tidy (index.detach e.slot y.slot).slots.size
      (y :: ((inner.fill r).entries ++ Path.outside (⟨.right, c, e, l⟩ :: path))) := by
    have hwhole := (shows_fill_iff.1 h).2.2
    rw [Path.outside_append] at hwhole
    rw [hspared.slots]
    have hperm := (Path.entries_fill_perm inner r).symm.append_right
      (Path.outside (⟨.right, c, e, l⟩ :: path))
    rw [List.append_assoc] at hperm
    exact hwhole.perm (hperm.cons y)
  obtain ⟨hshows, hkept⟩ := hpath.supplant hright hl htidy (hspared.slots.symm ▸ hpos)
  rw [← hfill] at hshows
  obtain ⟨hr, hfits, hred⟩ := Path.fits_of_missing .left hbal
  refine ⟨rfl, hshows, ?_, hspared.trans hkept.spared, by rw [hfill], hr, ?_, hred⟩
  · by_cases hleaf : r = .leaf
    · rw [hleaf, Tree.top, parent, hkept.zero]
      exact hzero hleaf
    · exact hshows.parent_top hleaf
  · exact (Path.fits_entry inner ⟨.right, c, e, l⟩ y).2 hfits

/-- A node is taken out of the tree. -/
theorem Shows.unlink {c : Colour} {l r : Tree} {e : Entry}
    (h : index.Shows (path.fill (.node c l e r)))
    (hbal : (path.fill (.node c l e r)).colour = .black ∧
      ∃ m, (path.fill (.node c l e r)).Balanced m)
    (hpos : 0 < index.slots.size) :
    ∃ path' t', Opened index (path.before ++ (l.entries ++ r.entries ++ path.after))
      (index.unlink e.slot) path' t' := by
  obtain ⟨-, hl, hr⟩ := (shows_fill_iff.1 h).2.1.read
  have hleftJoin : index.Shows (path.fill (.join .left c l e r)) := h
  have hrightJoin : index.Shows (path.fill (.join .right c r e l)) := h
  have hc : index.colour e.slot = c := congrArg Slot.colour hleftJoin.slot_eq
  obtain ⟨hlT, herT, -⟩ := Tidy.append_iff.1 (Tidy.append_iff.1 (shows_fill_iff.1 h).2.2).1
  obtain ⟨-, -, -, hrT⟩ := Tidy.cons_iff.1 herT
  unfold Index.unlink
  simp only [hl, hr, hc]
  split_ifs with hl0 hr0
  · obtain rfl : l = .leaf := by
      by_contra hne
      exact hlT.top_ne_zero hne hl0
    have hopened := hleftJoin.opened_single hbal hpos
    rw [path.entries_fill] at hopened
    exact ⟨path, r, hopened⟩
  · obtain rfl : r = .leaf := by
      by_contra hne
      exact hrT.top_ne_zero hne hr0
    have hopened := hrightJoin.opened_single hbal hpos
    rw [path.entries_fill] at hopened
    exact ⟨path, l, by simpa [Tree.entries] using hopened⟩
  · have hlne : l ≠ .leaf := fun h => hl0 (by rw [h]; rfl)
    cases r with
    | leaf => exact absurd rfl hr0
    | node cr lr er rr =>
      obtain ⟨inner, c', y, r, hfill, hbefore⟩ := Tree.exists_least cr lr er rr
      have hentries : (Tree.node cr lr er rr).entries = y :: (inner.fill r).entries := by
        rw [← hfill, Path.entries_fill, Path.entries_fill, hbefore]
        rfl
      have hmin : index.minimum er.slot = y.slot := by
        have hholds : index.Holds e.slot (.node cr lr er rr) :=
          (holds_join.1 (shows_fill_iff.1 hleftJoin).2.1).2.2
        have hleast := hholds.minimum_eq (by simp) hrT
        rwa [hentries] at hleast
      have hwhole : path.fill (.node c l e (.node cr lr er rr))
          = Path.fill (inner ++ ⟨.right, c, e, l⟩ :: path) (.node c' .leaf y r) := by
        rw [Path.fill_append, hfill]
        rfl
      rw [hwhole] at h hbal
      obtain ⟨-, -, hyr⟩ := (shows_fill_iff.1 h).2.1.read
      have hyc : index.colour y.slot = c' := congrArg Slot.colour (shows_fill_iff.1 h).2.1.1
      rw [Tree.top, hmin, hyr, hyc]
      have hopened := h.opened_both hbal hlne hpos
      rw [path.entries_fill, Tree.entries, ← hentries, List.append_assoc] at hopened
      rw [List.append_assoc]
      exact ⟨_, r, hopened⟩

end QuorumStore.Placement.Index
