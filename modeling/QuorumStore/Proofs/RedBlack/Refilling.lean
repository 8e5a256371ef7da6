import QuorumStore.Proofs.RedBlack.Balance
import QuorumStore.Proofs.RedBlack.Rewiring

/-!
# Mending a missing black level

Where a black node was taken out of the tree, one side of a parent is a level
short. With a black sibling that has only black children the sibling gives up a
level too, and the parent is what is short; otherwise a red node beside the place
is turned into it and the level is back.
-/

namespace QuorumStore.Placement

/-- A tree that is a level short of the black height `n + 1`, or has it back as
soon as its red root is made black. -/
def Tree.Short (t : Tree) (n : Nat) : Prop :=
  if t.colour = .red then (t.paint .black).Balanced (n + 1) else t.Balanced n

/-- A tree that is not balanced only because of its red root is balanced with a
black one. -/
theorem Tree.Short.exists_paint {t : Tree} {n : Nat} (h : t.Short n) :
    ∃ m, (t.paint .black).Balanced m := by
  unfold Short at h
  split_ifs at h with hred
  · exact ⟨n + 1, h⟩
  · exact h.exists_paint

/-- Between two sides that are both a level short a node is short itself. -/
theorem Tree.Balanced.short_join {t w : Tree} {n : Nat} (ht : t.Balanced n) (side : Side)
    (c : Colour) (e : Entry) (hw : w.Balanced n) : (join side c t e w).Short (n + c.weight) := by
  cases c with
  | red =>
    rw [Short, if_pos (colour_join ..), paint_join]
    exact balanced_join_black.2 ⟨ht, hw⟩
  | black =>
    rw [Short, if_neg (by simp)]
    exact balanced_join_black.2 ⟨ht, hw⟩

namespace Index

variable {old index : Index} {entries : List Entry} {t : Tree} {f : Frame} {rest path : Path}
  {n bound x : Nat}

/-- Writing to a slot what it holds changes nothing. -/
theorem update_eq_self {i : Nat} {g : Slot → Slot} (h : g (index.slot i) = index.slot i) :
    index.update i g = index := by
  have hslots : index.slots.setIfInBounds i (index.slot i) = index.slots := by
    apply Array.ext_getElem?
    intro j
    by_cases hj : i = j
    · subst hj
      by_cases hlt : i < index.slots.size
      · simp [slot, Array.getD_eq_getD_getElem?, hlt]
      · simp [hlt]
    · exact Array.getElem?_setIfInBounds_ne hj
  rw [update, h, hslots]

/-- After mending, and with the node at which it ended made black, the index shows a
balanced tree of the same entries. -/
def Mended (old : Index) (entries : List Entry) (result : Index × Nat) : Prop :=
  ∃ t, Reshaped old entries (result.1.paint result.2 .black) t ∧ t.colour = .black ∧
    ∃ m, t.Balanced m

/-- At the root nothing is mended. -/
theorem mendBlack_root (bound : Nat) : index.mendBlack bound index.root = (index, index.root) := by
  cases bound <;> simp [mendBlack]

/-- At a red node nothing is mended; it only has to be made black. -/
theorem mendBlack_of_red (h : index.colour x = .red) : index.mendBlack bound x = (index, x) := by
  cases bound <;> simp [mendBlack, h]

/-- Below the root of the whole tree every place holds another node. -/
theorem Shows.top_ne_root (h : index.Shows (Path.fill (f :: rest) t)) : t.top ≠ index.root := by
  obtain ⟨hpath, -, htidy⟩ := shows_fill_iff.1 h
  have hroot {path : Path} {f : Frame} {hole : Nat} (h : index.HoldsPath (f :: path) hole) :
      ∃ e ∈ Path.outside (f :: path), e.slot = index.root := by
    induction path generalizing f hole with
    | nil => exact ⟨f.entry, List.mem_cons_self, h.2.2.symm⟩
    | cons g path ih =>
      obtain ⟨e, he, hslot⟩ := ih h.2.2
      exact ⟨e, List.mem_cons_of_mem _ (List.mem_append_right _ he), hslot⟩
  obtain ⟨e, he, hslot⟩ := hroot hpath
  obtain ⟨-, hout, hcross⟩ := Tidy.append_iff.1 htidy
  intro htop
  have hpos := (hout.inside e he).1
  obtain ⟨y, hy, htops⟩ := Tree.exists_top (t := t) (by rwa [htop, ← hslot])
  exact hcross y hy e he (by rw [htops, htop, hslot])

namespace Reshaped

/-- Making the place black, where a missing node is black already. -/
theorem blacken_top (h : Reshaped old entries index (path.fill t)) (hzero : old.colour 0 = .black) :
    Reshaped old entries (index.paint t.top .black) (path.fill (t.paint .black)) := by
  cases t with
  | leaf =>
    have hblack : index.colour 0 = .black := h.colour_zero.trans hzero
    have hself : (index.slot 0).withColour .black = index.slot 0 := by
      rw [← hblack]
      rfl
    rw [Tree.top, paint, update_eq_self hself]
    exact h
  | node c l e r => exact h.paint_top (by simp) .black

/-- A red sibling is turned above the parent, and one of its black children is the
new sibling. -/
theorem blackenSibling (h : Reshaped old entries index (Path.fill (f :: rest) t))
    (hzero : old.colour 0 = .black) (hfits : Path.Fits (f :: rest) .black (n + 1)) :
    ∃ f' rest', Reshaped old entries (index.blackenSibling f.side f.entry.slot)
        (Path.fill (f' :: rest') t) ∧
      f'.side = f.side ∧ f'.entry = f.entry ∧ f'.sibling.colour = .black ∧
      Path.Fits (f' :: rest') .black (n + 1) ∧ (f'.colour = .black → rest' = rest) := by
  have hw : index.child f.entry.slot f.side.other = f.sibling.top := by
    rw [child, h.shows.slot_frame, Entry.child_other_cell]
  have hcolour : index.colour f.sibling.top = f.sibling.colour :=
    h.shows.holds_sibling.colour_top (h.colour_zero.trans hzero)
  unfold Index.blackenSibling
  simp only [hw, hcolour]
  cases hred : f.sibling.colour with
  | black => exact ⟨f, rest, by simpa using h, rfl, rfl, hred, hfits, fun _ => rfl⟩
  | red =>
    obtain ⟨side, c, p, w⟩ := f
    have hne := Tree.ne_leaf_of_red hred
    obtain ⟨d, a, e, b, rfl⟩ := Tree.exists_join hne side
    obtain rfl : d = .red := by simpa using hred
    obtain rfl : c = .black := by
      cases c with
      | black => rfl
      | red => exact absurd (Path.fits_cons_red.1 hfits).2.1.2 (by simp)
    obtain ⟨hbal, hrest⟩ := Path.fits_cons_black.1 hfits
    obtain ⟨ha, hb, hac, hbc⟩ := Tree.balanced_join_red.1 hbal
    have hpainted : Reshaped old entries ((index.paint e.slot .black).paint p.slot .red)
        (rest.fill (.join side .red t p (.join side .black a e b))) := by
      have hboth := (h.paint_sibling hne .black).paint_frame .red
      rwa [Tree.top_join, Tree.paint_join] at hboth
    refine ⟨⟨side, .red, p, a⟩, ⟨side, .black, e, b⟩ :: rest, ?_, rfl, rfl, hac, ?_, ?_⟩
    · rw [if_pos rfl, Tree.top_join]
      exact hpainted.rotate
    · exact Path.fits_cons_red.2 ⟨ha, ⟨rfl, hac⟩, Path.fits_cons_black.2 ⟨hb, hrest⟩⟩
    · intro hblack
      cases hblack

/-- A red child of the sibling is brought to the outer side. -/
theorem straightenNephew {side : Side} {c : Colour} {p w : Entry} {a b : Tree}
    (h : Reshaped old entries index
      (rest.fill (.join side c t p (.join side .black a w b))))
    (hzero : old.colour 0 = .black) (ha : a.Balanced n) (hb : b.Balanced n)
    (hred : ¬(a.colour = .black ∧ b.colour = .black)) :
    ∃ w' a' b', Reshaped old entries (index.straightenNephew side p.slot)
        (rest.fill (.join side c t p (.join side .black a' w' b'))) ∧
      a'.Balanced n ∧ b'.Balanced n ∧ b'.colour = .red := by
  have hw : index.child p.slot side.other = w.slot := by
    rw [child, h.shows.slot_eq, Entry.child_other_cell, Tree.top_join]
  have hsibling : Reshaped old entries index
      (Path.fill (⟨side.other, c, p, t⟩ :: rest) (.join side .black a w b)) := by
    rwa [Path.fill, Tree.join_other]
  have hinner : index.child w.slot side = a.top := by
    rw [child, hsibling.shows.slot_eq, Entry.child_cell]
  have houter : index.child w.slot side.other = b.top := by
    rw [child, hsibling.shows.slot_eq, Entry.child_other_cell]
  have hcolour : index.colour b.top = b.colour :=
    ((holds_join.1 (shows_fill_iff.1 hsibling.shows).2.1).2.2).colour_top
      (h.colour_zero.trans hzero)
  unfold Index.straightenNephew
  simp only [hw, hinner, houter, hcolour]
  cases hbc : b.colour with
  | red => exact ⟨w, a, b, by simpa using h, ha, hb, hbc⟩
  | black =>
    have hac : a.colour = .red := by
      cases hac : a.colour with
      | red => rfl
      | black => exact absurd ⟨hac, hbc⟩ hred
    have hne := Tree.ne_leaf_of_red hac
    obtain ⟨d, far, x, inner, rfl⟩ := Tree.exists_join hne side
    obtain rfl : d = .red := by simpa using hac
    obtain ⟨hfar, hin, hfarc, hinc⟩ := Tree.balanced_join_red.1 ha
    have hpainted : Reshaped old entries
        ((index.paint x.slot .black).paint w.slot .red)
        (Path.fill (⟨side.other, c, p, t⟩ :: rest)
          (.join side .red (.join side .black far x inner) w b)) := by
      have hplace : Reshaped old entries index
          (Path.fill (⟨side, .black, w, b⟩ :: ⟨side.other, c, p, t⟩ :: rest)
            (.join side .red far x inner)) := hsibling
      have hx := (hplace.paint_top hne .black).paint_frame .red
      rwa [Tree.top_join, Tree.paint_join] at hx
    rw [← Tree.join_other side .red, ← Tree.join_other side .black] at hpainted
    refine ⟨x, far, .join side.other .red b w inner, ?_, hfar, ?_, Tree.colour_join ..⟩
    · rw [if_pos rfl, Tree.top_join]
      have hturned := hpainted.rotate
      rwa [Path.fill, Tree.join_other, Tree.join_other side .black] at hturned
    · exact Tree.balanced_join_red.2 ⟨hb, hin, hbc, hinc⟩

/-- Beside a black sibling with a red child the level is given back. -/
theorem refill {side : Side} {c : Colour} {p w : Entry} {a b : Tree}
    (h : Reshaped old entries index (rest.fill (.join side c t p (.join side .black a w b))))
    (hzero : old.colour 0 = .black) (ht : t.Balanced n) (ha : a.Balanced n) (hb : b.Balanced n)
    (hred : ¬(a.colour = .black ∧ b.colour = .black)) (hrest : rest.Fits c (n + 1 + c.weight)) :
    ∃ t', Reshaped old entries (index.refill side p.slot) t' ∧ t'.colour = .black ∧
      ∃ m, t'.Balanced m := by
  obtain ⟨w', a', b', h', ha', hb', hbc'⟩ := straightenNephew h hzero ha hb hred
  have hne := Tree.ne_leaf_of_red hbc'
  unfold Index.refill
  generalize index.straightenNephew side p.slot = index' at h'
  have hw : index'.child p.slot side.other = w'.slot := by
    rw [child, h'.shows.slot_eq, Entry.child_other_cell, Tree.top_join]
  have hc : index'.colour p.slot = c := by
    rw [Index.colour, h'.shows.slot_eq, Entry.colour_cell]
  have hpainted : Reshaped old entries ((index'.paint w'.slot c).paint p.slot .black)
      (Path.fill (⟨side, .black, p, .join side c a' w' b'⟩ :: rest) t) := by
    have hplace : Reshaped old entries index'
        (Path.fill (⟨side, c, p, .join side .black a' w' b'⟩ :: rest) t) := h'
    have hboth := (hplace.paint_sibling (by cases side <;> simp [Tree.join]) c).paint_frame .black
    rwa [Tree.top_join, Tree.paint_join] at hboth
  simp only [hw, hc]
  generalize (index'.paint w'.slot c).paint p.slot .black = index'' at hpainted
  have houter : Reshaped old entries index''
      (Path.fill (⟨side.other, c, w', a'⟩ :: ⟨side.other, .black, p, t⟩ :: rest) b') := by
    rw [Path.fill_swap] at hpainted
    rwa [Path.fill, Tree.join_other]
  have hb'' : index''.child w'.slot side.other = b'.top := by
    rw [child, houter.shows.slot_frame, Entry.child_cell]
  have hdone := houter.paint_top hne .black
  simp only [Path.fill, Tree.join_other] at hdone
  rw [hb'']
  refine ⟨_, hdone.rotate, (Path.fits_iff rest _).2 ⟨n + 1 + c.weight, ?_, ?_⟩⟩
  · refine Tree.balanced_join.2 ⟨n + 1, rfl, Tree.balanced_join_black.2 ⟨ht, ha'⟩,
      hb'.blacken hbc', fun _ => ⟨Tree.colour_join .., Tree.colour_paint_black b'⟩⟩
  · rwa [Tree.colour_join]

/-- A black sibling with black children gives up a level, and the parent is what is
short. -/
theorem lower {side : Side} {c : Colour} {p w : Entry} {a b : Tree}
    (h : Reshaped old entries index (rest.fill (.join side c t p (.join side .black a w b)))) :
    Reshaped old entries (index.paint w.slot .red)
      (rest.fill (.join side c t p (.join side .red a w b))) := by
  have hplace : Reshaped old entries index
      (Path.fill (⟨side, c, p, .join side .black a w b⟩ :: rest) t) := h
  have hpainted := hplace.paint_sibling (by cases side <;> simp [Tree.join]) .red
  rwa [Tree.top_join, Tree.paint_join] at hpainted

/-- Mending is over at the root. -/
theorem mended_root (h : Reshaped old entries index t) (hzero : old.colour 0 = .black)
    (hbal : ∃ m, (t.paint .black).Balanced m) :
    Mended old entries (index.mendBlack bound t.top) := by
  have hplace : Reshaped old entries index (Path.fill [] t) := h
  rw [← h.shows.root, mendBlack_root, h.shows.root]
  exact ⟨_, hplace.blacken_top hzero, Tree.colour_paint_black t, hbal⟩

/-- Mending is over at a red node. -/
theorem mended_red (h : Reshaped old entries index (path.fill t)) (hzero : old.colour 0 = .black)
    (hred : t.colour = .red) (hshort : t.Short n) (hfits : path.Fits .black (n + 1)) :
    Mended old entries (index.mendBlack bound t.top) := by
  have hcolour : index.colour t.top = t.colour :=
    (shows_fill_iff.1 h.shows).2.1.colour_top (h.colour_zero.trans hzero)
  rw [Tree.Short, if_pos hred] at hshort
  rw [mendBlack_of_red (hcolour.trans hred)]
  exact ⟨_, h.blacken_top hzero,
    (Path.fits_iff _ _).2 ⟨_, hshort, by rwa [Tree.colour_paint_black]⟩⟩

/-- At a black node, what one round of mending reads from the slots, once the sibling is
black, is what the tree says. -/
theorem mendBlack_eq {c : Colour} {e : Entry} {a b : Tree} {rest' : Path}
    (h : Reshaped old entries index (Path.fill (f :: rest) t)) (hzero : old.colour 0 = .black)
    (hparent : index.parent t.top = f.entry.slot) (ht : t.colour = .black)
    (hsibling : f.sibling ≠ .leaf)
    (h' : Reshaped old entries (index.blackenSibling f.side f.entry.slot)
      (Path.fill (⟨f.side, c, f.entry, .join f.side .black a e b⟩ :: rest') t)) :
    index.mendBlack (bound + 1) t.top =
      let index := index.blackenSibling f.side f.entry.slot
      if a.colour = .black ∧ b.colour = .black then
        (index.paint e.slot .red).mendBlack bound f.entry.slot
      else
        let index := index.refill f.side f.entry.slot
        index.mendBlack bound index.root := by
  have hcolour : index.colour t.top = .black :=
    ((shows_fill_iff.1 h.shows).2.1.colour_top (h.colour_zero.trans hzero)).trans ht
  have hside := h.shows.sideUnder_eq (Or.inr hsibling)
  rw [Index.mendBlack, if_pos ⟨h.shows.top_ne_root, hcolour⟩]
  simp only [hparent, hside]
  generalize index.blackenSibling f.side f.entry.slot = index' at h'
  have hw : index'.child f.entry.slot f.side.other = e.slot := by
    rw [child, h'.shows.slot_frame, Entry.child_other_cell, Tree.top_join]
  have hnephews : (index'.colour (index'.child e.slot .left) = .black ∧
      index'.colour (index'.child e.slot .right) = .black) ↔
        a.colour = .black ∧ b.colour = .black := by
    obtain ⟨hslot, ha, hb⟩ := holds_join.1 h'.shows.holds_sibling
    rw [← ha.colour_top (h'.colour_zero.trans hzero), ← hb.colour_top (h'.colour_zero.trans hzero),
      child, child, hslot]
    cases f.side with
    | left => exact Iff.rfl
    | right => exact and_comm
  simp only [hw, hnephews]

/-- Mending ends at a node which only has to be made black. -/
theorem mendBlack (h : Reshaped old entries index (path.fill t)) (hzero : old.colour 0 = .black)
    (hparent : index.parent t.top = path.above) (hshort : t.Short n)
    (hfits : path.Fits .black (n + 1)) (hbound : path.length ≤ bound) :
    Mended old entries (index.mendBlack bound t.top) := by
  induction bound generalizing index path t n with
  | zero =>
    obtain rfl := List.length_eq_zero_iff.1 (Nat.le_zero.1 hbound)
    exact mended_root h hzero hshort.exists_paint
  | succ bound ih =>
    cases path with
    | nil => exact mended_root h hzero hshort.exists_paint
    | cons f rest =>
      cases htc : t.colour with
      | red => exact h.mended_red hzero htc hshort hfits
      | black =>
        have ht : t.Balanced n := by rwa [Tree.Short, if_neg (by simp [htc])] at hshort
        obtain ⟨⟨side, c, p, w⟩, rest', h', hside, hentry, hblack, hfits', hrest'⟩ :=
          h.blackenSibling hzero hfits
        obtain rfl : side = f.side := hside
        obtain rfl : p = f.entry := hentry
        obtain ⟨hwbal, -, hrest⟩ := hfits'
        obtain ⟨d, a, e, b, rfl⟩ := Tree.exists_join hwbal.ne_leaf f.side
        obtain rfl : d = .black := by simpa using hblack
        obtain ⟨ha, hb⟩ := Tree.balanced_join_black.1 hwbal
        have hplace : Reshaped old entries (index.blackenSibling f.side f.entry.slot)
            (Path.fill rest' (.join f.side c t f.entry (.join f.side .black a e b))) := h'
        rw [h.mendBlack_eq hzero hparent htc hfits.1.ne_leaf h']
        generalize index.blackenSibling f.side f.entry.slot = index' at hplace
        simp only
        split_ifs with hboth
        · have hlower := hplace.lower
          have htop : (Tree.join f.side c t f.entry (.join f.side .red a e b)).top
              = f.entry.slot := Tree.top_join ..
          have hshort' := ht.short_join f.side c f.entry
            (Tree.balanced_join_red.2 ⟨ha, hb, hboth⟩ : (Tree.join f.side .red a e b).Balanced n)
          have hfits' : Path.Fits rest' .black (n + c.weight + 1) := by
            rw [Nat.add_right_comm] at hrest
            exact Path.Fits.black hrest
          rw [← htop]
          cases c with
          | red => exact hlower.mended_red hzero (Tree.colour_join ..) hshort' hfits'
          | black =>
            obtain rfl := hrest' rfl
            have hne : Tree.join f.side .black t f.entry (.join f.side .red a e b) ≠ .leaf := by
              cases f.side <;> simp [Tree.join]
            exact ih hlower (hlower.shows.parent_top hne) hshort' hfits' (by simpa using hbound)
        · obtain ⟨t', hrefill, -, m, hm⟩ := hplace.refill hzero ht ha hb hboth hrest
          rw [hrefill.shows.root]
          exact hrefill.mended_root hzero hm.exists_paint

end Reshaped

end Index

end QuorumStore.Placement
