import QuorumStore.Proofs.RedBlack.Balance
import QuorumStore.Proofs.RedBlack.Searching

/-!
# Insertion into the tree

Mending two red nodes in a row keeps every entry in its place in the order and
ends with a balanced tree: the trouble moves two levels up, or a turn ends it.
-/

namespace QuorumStore.Placement.Index

variable {old index : Index} {entries : List Entry} {t : Tree} {f g : Frame} {rest path : Path}
  {n bound : Nat}

/-- Below a black parent nothing is mended. -/
theorem mendRed_of_black {z : Nat} (h : index.colour (index.parent z) = .black) :
    index.mendRed bound z = index := by
  cases bound with
  | zero => rfl
  | succ bound => simp [mendRed, h]

namespace Reshaped

/-- A red node on the inner side of its red parent is brought to the outer side. -/
theorem straighten (h : Reshaped old entries index (Path.fill (f :: g :: rest) t))
    (hf : f.colour = .red) (ht : t.colour = .red) (hbal : t.Balanced n)
    (hfits : Path.Fits (f :: g :: rest) .black n) :
    ∃ index' f' t', index.straighten g.side f.entry.slot t.top = (index', t'.top) ∧
      Reshaped old entries index' (Path.fill (f' :: g :: rest) t') ∧
      f'.side = g.side ∧ f'.colour = .red ∧ t'.colour = .red ∧ t'.Balanced n ∧
      Path.Fits (f' :: g :: rest) .black n := by
  obtain ⟨hsibling, hred, hrest⟩ := hfits
  have hne := Tree.ne_leaf_of_red ht
  have htop := h.shows.top_ne_sibling (Or.inl hne)
  by_cases hside : f.side = g.side
  · refine ⟨index, f, t, ?_, h, hside, hf, ht, hbal, hsibling, hred, hrest⟩
    rw [Index.straighten, child, h.shows.slot_frame, hside, Entry.child_other_cell, if_neg htop]
  · have hother : f.side = g.side.other := by
      cases hfs : f.side <;> cases hgs : g.side <;> simp_all [Side.other]
    obtain ⟨c, inner, e, outer, rfl⟩ := Tree.exists_join hne g.side
    obtain rfl : c = .red := by rwa [Tree.colour_join] at ht
    obtain ⟨hinner, houter, hinnerc, houterc⟩ := Tree.balanced_join_red.1 hbal
    have hcase : e.slot = index.child f.entry.slot g.side.other := by
      rw [child, h.shows.slot_frame, hother, Entry.child_cell, Tree.top_join]
    rw [Path.fill, hother, hf, Tree.join_other] at h
    refine ⟨_, ⟨g.side, .red, e, outer⟩, .join g.side .red f.sibling f.entry inner, ?_, h.rotate,
      rfl, rfl, Tree.colour_join .., ?_, houter, fun _ => ⟨rfl, houterc⟩, ?_⟩
    · rw [Index.straighten, Tree.top_join, if_pos hcase, Tree.top_join]
    · exact Tree.balanced_join_red.2 ⟨hsibling, hinner, (hred hf).2, hinnerc⟩
    · rwa [hf] at hrest

/-- With a red uncle the colours move two levels up. -/
theorem pushUp (h : Reshaped old entries index (Path.fill (f :: g :: rest) t))
    (huncle : g.sibling.colour = .red) :
    Reshaped old entries
      (((index.paint f.entry.slot .black).paint g.sibling.top .black).paint g.entry.slot .red)
      (rest.fill (.join g.side .red (.join f.side .black t f.entry f.sibling) g.entry
        (g.sibling.paint .black))) := by
  have hparent := h.paint_frame .black
  rw [Path.fill] at hparent
  exact (hparent.paint_sibling (Tree.ne_leaf_of_red huncle) .black).paint_frame .red

/-- With a black uncle the parent of an outer node takes the place of its own
parent, which turns red. -/
theorem turnUp (h : Reshaped old entries index (Path.fill (f :: g :: rest) t))
    (hside : f.side = g.side) :
    Reshaped old entries
      (((index.paint f.entry.slot .black).paint g.entry.slot .red).rotate g.side.other
        g.entry.slot)
      (Path.fill (⟨g.side, .black, f.entry, .join g.side.other .red g.sibling g.entry f.sibling⟩
        :: rest) t) := by
  have hparent := h.paint_frame .black
  rw [Path.fill] at hparent
  have hgrand := hparent.paint_frame .red
  rw [Path.fill, ← Tree.join_other, hside, ← Tree.join_other g.side] at hgrand
  have hturned := hgrand.rotate
  rw [Tree.join_other] at hturned
  exact hturned

/-- Below a red parent, what one round of mending reads from the slots is what the path
says. -/
theorem mendRed_eq (h : Reshaped old entries index (Path.fill (f :: g :: rest) t))
    (hzero : old.colour 0 = .black) (hne : t ≠ .leaf) (hf : f.colour = .red) :
    index.mendRed (bound + 1) t.top =
      if g.sibling.colour = .red then
        (((index.paint f.entry.slot .black).paint g.sibling.top .black).paint g.entry.slot
          .red).mendRed bound g.entry.slot
      else
        let (index, z) := index.straighten g.side f.entry.slot t.top
        let p := index.parent z
        let g' := index.parent p
        (((index.paint p .black).paint g' .red).rotate g.side.other g').mendRed bound z := by
  have hup : Reshaped old entries index
      (Path.fill (g :: rest) (.join f.side f.colour t f.entry f.sibling)) := h
  have hparent : index.parent t.top = f.entry.slot := h.shows.parent_top hne
  have hcolour : index.colour f.entry.slot = .red := by
    rw [Index.colour, h.shows.slot_frame, Entry.colour_cell, hf]
  have hgrand : index.parent f.entry.slot = g.entry.slot := by
    rw [parent, h.shows.slot_frame, Entry.parent_cell, Path.above]
  have hside : index.sideUnder g.entry.slot f.entry.slot = g.side := by
    rw [← hup.shows.sideUnder_eq (Or.inl (by cases f.side <;> simp [Tree.join])), Tree.top_join]
  have huncle : index.child g.entry.slot g.side.other = g.sibling.top := by
    rw [child, hup.shows.slot_frame, Entry.child_other_cell]
  have hunclec : index.colour g.sibling.top = g.sibling.colour :=
    hup.shows.holds_sibling.colour_top (h.colour_zero.trans hzero)
  rw [Index.mendRed]
  simp only [hparent, hcolour, hgrand, hside, huncle, hunclec, reduceIte]

/-- With a black uncle one or two turns end it. -/
theorem mendRed_turn (h : Reshaped old entries index (Path.fill (f :: g :: rest) t))
    (hzero : old.colour 0 = .black) (ht : t.colour = .red) (hf : f.colour = .red)
    (huncle : g.sibling.colour = .black) (hbal : t.Balanced n)
    (hfits : Path.Fits (f :: g :: rest) .black n) (hunclebal : g.sibling.Balanced n)
    (hrest : rest.Fits .black (n + 1)) :
    ∃ t', Reshaped old entries (index.mendRed (bound + 1) t.top) t' ∧ ∃ m, t'.Balanced m := by
  obtain ⟨index', f', t', hstraight, h', hside, hf', ht', hbal', hsibling, hred, -⟩ :=
    h.straighten hf ht hbal hfits
  have hne := Tree.ne_leaf_of_red ht'
  have hparent : index'.parent t'.top = f'.entry.slot := h'.shows.parent_top hne
  have hgrand : index'.parent f'.entry.slot = g.entry.slot := by
    rw [parent, h'.shows.slot_frame, Entry.parent_cell, Path.above]
  have hturned := h'.turnUp hside
  have hdone := hturned.shows.parent_top hne
  rw [Path.above] at hdone
  rw [h.mendRed_eq hzero (Tree.ne_leaf_of_red ht) hf, if_neg (by simp [huncle])]
  simp only [hstraight, hparent, hgrand]
  rw [mendRed_of_black (by rw [hdone, Index.colour, hturned.shows.slot_frame, Entry.colour_cell])]
  refine ⟨_, hturned, ((Path.fits_iff _ t').2 ⟨n, hbal', Path.fits_cons_black.2 ⟨?_, hrest⟩⟩).2⟩
  exact Tree.balanced_join_red.2 ⟨hunclebal, hsibling, huncle, (hred hf').2⟩

/-- Mending ends with a balanced tree of the same entries, the root perhaps red. -/
theorem mendRed (h : Reshaped old entries index (path.fill t)) (hzero : old.colour 0 = .black)
    (ht : t.colour = .red) (hbal : t.Balanced n) (hfits : path.Fits .black n)
    (hbound : path.length ≤ bound) :
    ∃ t', Reshaped old entries (index.mendRed bound t.top) t' ∧ ∃ m, t'.Balanced m := by
  induction bound generalizing index path t n with
  | zero =>
    obtain rfl := List.length_eq_zero_iff.1 (Nat.le_zero.1 hbound)
    exact ⟨t, h, n, hbal⟩
  | succ bound ih =>
    have hparent := h.shows.parent_top (Tree.ne_leaf_of_red ht)
    cases path with
    | nil =>
      -- the root has no parent
      have hblack : index.colour (index.parent t.top) = .black := by
        rw [hparent, ← hzero]
        exact h.colour_zero
      rw [mendRed_of_black hblack]
      exact ⟨t, h, n, hbal⟩
    | cons f rest =>
      cases hf : f.colour with
      | black =>
        have hblack : index.colour (index.parent t.top) = .black := by
          rw [hparent, Path.above, Index.colour, h.shows.slot_frame, Entry.colour_cell, hf]
        rw [mendRed_of_black hblack]
        have hwhole : Path.Fits (f :: rest) t.colour n :=
          ⟨hfits.1, fun hred => absurd (hf.symm.trans hred) (by simp), hfits.2.2⟩
        exact ⟨_, h, ((Path.fits_iff _ t).2 ⟨n, hbal, hwhole⟩).2⟩
      | red =>
        obtain ⟨g, rest, rfl, hunclebal, hrest⟩ := Path.Fits.exists_black_above hfits hf
        cases huncle : g.sibling.colour with
        | red =>
          have hparentbal : (Tree.join f.side .black t f.entry f.sibling).Balanced (n + 1) :=
            Tree.balanced_join_black.2 ⟨hbal, hfits.1⟩
          have hgrandbal : (Tree.join g.side .red (.join f.side .black t f.entry f.sibling) g.entry
              (g.sibling.paint .black)).Balanced (n + 1) :=
            Tree.balanced_join_red.2 ⟨hparentbal, hunclebal.blacken huncle, Tree.colour_join ..,
              Tree.colour_paint_black _⟩
          rw [h.mendRed_eq hzero (Tree.ne_leaf_of_red ht) hf, if_pos huncle]
          have hwhole := ih (h.pushUp huncle) (Tree.colour_join ..) hgrandbal hrest
            (by simp only [List.length_cons] at hbound; omega)
          rwa [Tree.top_join] at hwhole
        | black => exact h.mendRed_turn hzero ht hf huncle hbal hfits hunclebal hrest

end Reshaped

/-! ## A slot for a new node -/

/-- A node without a parent or children in a slot of its own. -/
structure Allocated (index : Index) (t : Tree) (key : Int) (host : Host) (z : Nat)
    (index' : Index) : Prop where
  /-- The slot is not the first one. -/
  ne_zero : z ≠ 0
  /-- The slot exists. -/
  lt : z < index'.slots.size
  /-- No entry has the slot. -/
  fresh : ∀ e ∈ t.entries, e.slot ≠ z
  /-- The slot holds the node. -/
  slot_self : index'.slot z = ⟨key, host, .red, 0, 0, 0⟩
  /-- The other slots are as they were. -/
  slot_other : ∀ i, i ≠ z → index'.slot i = index.slot i
  /-- The root is as it was. -/
  root : index'.root = index.root
  /-- The number of entries is as it was. -/
  size : index'.size = index.size
  /-- No slot is lost. -/
  slots : index.slots.size ≤ index'.slots.size
  /-- With the new node, every slot is accounted for. -/
  account : (z :: (t.entries.map Entry.slot ++ index'.free)).Perm
    (List.range' 1 (index'.slots.size - 1))

/-- A new node gets a slot of its own, a freed one if there is any. -/
theorem Built.alloc (h : index.Built t) (key : Int) (host : Host) :
    index.Allocated t key host (index.alloc key host).1 (index.alloc key host).2 := by
  have hpos := h.pos
  unfold Index.alloc
  cases hfree : index.free with
  | nil =>
    have haccount := h.account
    rw [hfree, List.append_nil] at haccount
    constructor
    · exact Nat.ne_of_gt hpos
    · simp
    · exact fun e he => Nat.ne_of_lt (h.shows.tidy.inside e he).2
    · simp [slot, Array.getD_eq_getD_getElem?]
    · intro i hi
      simp only [slot, Array.getD_eq_getD_getElem?, Array.getElem?_push, if_neg hi]
    · rfl
    · rfl
    · simp
    · have hrange : List.range' 1 (index.slots.size + 1 - 1)
          = List.range' 1 (index.slots.size - 1) ++ [index.slots.size] := by
        obtain ⟨n, hn⟩ : ∃ n, index.slots.size = n + 1 := ⟨_, (Nat.sub_add_cancel hpos).symm⟩
        rw [hn, Nat.add_sub_cancel, Nat.add_sub_cancel, List.range'_concat, Nat.one_mul,
          Nat.add_comm 1 n]
      rw [Array.size_push, hrange, List.append_nil]
      exact (haccount.cons _).trans (List.perm_append_singleton _ _).symm
  | cons i free =>
    have haccount := h.account
    rw [hfree] at haccount
    have hmem : i ∈ List.range' 1 (index.slots.size - 1) :=
      haccount.mem_iff.1 (by simp)
    rw [List.mem_range'_1] at hmem
    have hlt : i < index.slots.size := by omega
    have hnodup := haccount.nodup_iff.2 List.nodup_range'
    constructor
    · exact Nat.ne_of_gt hmem.1
    · simpa using hlt
    · exact fun e he heq => (List.nodup_append.1 hnodup).2.2 _ (List.mem_map_of_mem he) i
        List.mem_cons_self heq
    · simp [slot, Array.getD_eq_getD_getElem?, hlt]
    · intro j hj
      simp [slot, Array.getD_eq_getD_getElem?, Array.getElem?_setIfInBounds_ne (Ne.symm hj)]
    · rfl
    · rfl
    · simp
    · simpa using List.perm_middle.symm.trans haccount

/-- A new node is hung in the place where the search for its key ends. -/
theorem Allocated.attach {key : Int} {host : Host} {z : Nat} {index' : Index}
    (h : index.Allocated t key host z index') (hshows : index.Shows t)
    (hfill : path.fill .leaf = t) (hafter : ∀ e ∈ path.after, key < e.key)
    (hbefore : ∀ e ∈ path.before, e.key < key) :
    (index'.attach key path.above z).Shows (path.fill (.node .red .leaf ⟨z, key, host⟩ .leaf)) ∧
      Kept index' (index'.attach key path.above z) := by
  rw [← hfill] at hshows
  obtain ⟨hpath, -, htidy⟩ := shows_fill_iff.1 hshows
  have hfresh : ∀ e ∈ path.outside, e.slot ≠ z := fun e he => h.fresh e <| by
    rw [← hfill, (path.entries_fill_perm .leaf).mem_iff]
    exact he
  have hout : Tidy index'.slots.size path.outside := htidy.mono h.slots
  have hnew : Tidy index'.slots.size (⟨z, key, host⟩ :: path.outside) :=
    Tidy.cons_iff.2 ⟨h.ne_zero, h.lt, hfresh, hout⟩
  have hlifted : (index'.setParent z path.above).HoldsPath path 0 :=
    hpath.congr h.root fun e he => by
      rw [slot_update_of_ne (hfresh e he), h.slot_other _ (hfresh e he)]
  have hcell : (index'.setParent z path.above).slot z
      = (⟨z, key, host⟩ : Entry).cell .left .red 0 0 path.above := by
    rw [slot_update_self h.lt, h.slot_self]
    rfl
  cases path with
  | nil =>
    have hattach : index'.attach key 0 z = { index'.setParent z 0 with root := z } := rfl
    have hkept : Kept index' { index'.setParent z 0 with root := z } :=
      let kept := Kept.update index' h.ne_zero (·.withParent 0)
      ⟨kept.free, kept.size, kept.slots, kept.zero⟩
    rw [Path.above, hattach]
    refine ⟨shows_fill_iff.2 ⟨rfl, ⟨hcell, trivial, trivial⟩, ?_⟩, hkept⟩
    rw [hkept.slots]
    exact hnew
  | cons f rest =>
    have hzero : f.entry.slot ≠ 0 := (hout.inside f.entry List.mem_cons_self).1
    rw [Path.above] at hlifted hcell ⊢
    have hattach : index'.attach key f.entry.slot z
        = (index'.setParent z f.entry.slot).setChild f.entry.slot f.side z := by
      have hkey : ((index'.setParent z f.entry.slot).slot f.entry.slot).key = f.entry.key := by
        rw [hlifted.1, Entry.key_cell]
      simp only [Index.attach, if_neg hzero, hkey]
      cases hside : f.side with
      | left => rw [if_pos (hafter f.entry (by simp [Path.after, hside]))]
      | right =>
        have hlt := hbefore f.entry (by simp [Path.before, hside])
        rw [if_neg (by omega)]
    have hkept : Kept index' ((index'.setParent z f.entry.slot).setChild f.entry.slot f.side z) :=
      (Kept.update index' h.ne_zero _).trans (Kept.update _ hzero _)
    rw [hattach]
    refine ⟨shows_fill_iff.2 ⟨hlifted.setChild ((size_slots_update ..).symm ▸ hout) z,
      ⟨?_, trivial, trivial⟩, ?_⟩, hkept⟩
    · rw [slot_update_of_ne (hfresh f.entry List.mem_cons_self).symm, hcell]
      rfl
    · rw [hkept.slots]
      exact hnew

/-! ## The whole insertion -/

/-- The descent from the root ends where the search does. -/
theorem Built.descend_eq (h : index.Built t) (key : Int) :
    index.descend key index.slots.size 0 index.root
      = match (t.locate key []).2 with
        | .leaf => some (t.locate key []).1.above
        | .node .. => none := by
  rw [h.shows.root]
  have hholds : index.Holds (Path.above []) t := h.shows.holds
  exact hholds.descend_eq h.slot_ne_zero key h.length_lt

/-- A key that is taken keeps its host. -/
theorem Built.insert_taken (h : index.Built t) {e : Entry} (he : e ∈ t.entries) (host : Host) :
    index.insert e.key host = (index, false) := by
  obtain ⟨path, c, l, r, hloc, -⟩ := Tree.locate_of_mem h.ordered he
  have hdescend := h.descend_eq e.key
  rw [hloc] at hdescend
  rw [Index.insert, hdescend]

/-- A tree with one entry more, in its place in the order, is as well built as before. -/
theorem Allocated.built {t' : Tree} {xs ys : List Entry} {key : Int} {host : Host} {z : Nat}
    {room new : Index} (halloc : index.Allocated t key host z room) (h : index.Built t)
    (hkept : Kept room new) (hshows : new.Shows t') (hblack : t'.colour = .black)
    (hbal : ∃ m, t'.Balanced m) (hold : t.entries = xs ++ ys)
    (hnew : t'.entries = xs ++ ⟨z, key, host⟩ :: ys) (hbefore : ∀ e ∈ xs, e.key < key)
    (hafter : ∀ e ∈ ys, key < e.key) : ({ new with size := new.size + 1 } : Index).Built t' where
  shows := hshows.congr rfl rfl
  ordered := by
    have hord : t.Ordered := h.ordered
    rw [Tree.Ordered, hold, List.pairwise_append] at hord
    rw [Tree.Ordered, hnew, List.pairwise_append, List.pairwise_cons]
    refine ⟨hord.1, ⟨hafter, hord.2.1⟩, fun x hx y hy => ?_⟩
    rcases List.mem_cons.1 hy with rfl | hy
    · exact hbefore x hx
    · exact hord.2.2 x hx y hy
  black := hblack
  balanced := hbal
  pos := Nat.lt_of_lt_of_le h.pos (hkept.slots.symm ▸ halloc.slots)
  blank := hkept.zero.trans ((halloc.slot_other 0 halloc.ne_zero.symm).trans h.blank)
  account := by
    have hperm := halloc.account
    rw [← hkept.free, ← hkept.slots, ← List.cons_append] at hperm
    refine List.Perm.trans (List.Perm.append_right _ ?_) hperm
    rw [hnew, hold]
    exact List.perm_middle.map Entry.slot
  size_eq := by
    have hsize : new.size = t.entries.length :=
      hkept.size.trans (halloc.size.trans h.size_eq)
    simp only [hsize, hnew, hold, List.length_append, List.length_cons]
    omega

/-- A key that is free is added in its place in the order. -/
theorem Built.insert_free (h : index.Built t) {key : Int} (hfree : ∀ e ∈ t.entries, e.key ≠ key)
    (host : Host) :
    ∃ t' xs ys z, (index.insert key host).1.Built t' ∧ (index.insert key host).2 = true ∧
      t.entries = xs ++ ys ∧ t'.entries = xs ++ ⟨z, key, host⟩ :: ys := by
  obtain ⟨path, hloc, hfill, hbefore, hafter⟩ := Tree.locate_of_free h.ordered hfree
  have hdescend := h.descend_eq key
  rw [hloc] at hdescend
  have halloc := h.alloc key host
  obtain ⟨hshows, hkept⟩ := halloc.attach h.shows hfill hafter hbefore
  generalize hz : (index.alloc key host).1 = z at halloc hshows hkept
  generalize hroom : (index.alloc key host).2 = room at halloc hshows hkept
  generalize hattached : room.attach key path.above z = attached at hshows hkept
  -- the new node is red, and what is mended is a red parent of it
  obtain ⟨n, hleaf, hfits⟩ : ∃ n, Tree.leaf.Balanced n ∧ path.Fits Tree.leaf.colour n := by
    rw [← Path.fits_iff, hfill]
    exact ⟨h.black, h.balanced⟩
  obtain rfl : n = 0 := hleaf
  have hzero : attached.colour 0 = .black := by
    rw [colour, hkept.zero, halloc.slot_other 0 halloc.ne_zero.symm, h.blank]
    rfl
  have hold : t.entries = path.before ++ path.after := by
    rw [← hfill, path.entries_fill]
    rfl
  have hbound : path.length ≤ attached.slots.size := by
    have hlen := (path.entries_fill_perm .leaf).length_eq
    rw [hfill, Tree.entries, List.nil_append] at hlen
    have hpath := path.length_le_length_outside
    have hlt := h.length_lt
    have hmore := halloc.slots
    rw [hkept.slots]
    omega
  obtain ⟨t', hmended, m, hm⟩ := (Reshaped.refl hshows).mendRed hzero rfl
    (Tree.balanced_node_red.2 ⟨rfl, rfl, rfl, rfl⟩) hfits hbound
  have hentries : t'.entries = path.before ++ ⟨z, key, host⟩ :: path.after := by
    rw [hmended.entries_eq, path.entries_fill]
    rfl
  -- the root is made black
  have hplace : Reshaped attached _ (attached.mendRed attached.slots.size z) (Path.fill [] t') :=
    hmended
  have hpainted := hplace.paint_top (by
    rintro rfl
    simp [Tree.entries] at hentries) .black
  have hresult : index.insert key host
      = ({ (attached.mendRed attached.slots.size z).paint t'.top .black with
            size := (attached.mendRed attached.slots.size z).size + 1 }, true) := by
    rw [Index.insert, hdescend]
    simp only [hz, hroom, hattached]
    rw [← hmended.shows.root]
    rfl
  have hnew : (t'.paint .black).entries = path.before ++ ⟨z, key, host⟩ :: path.after := by
    rw [Tree.entries_paint, hentries]
  rw [hresult]
  exact ⟨t'.paint .black, path.before, path.after, z,
    halloc.built h (hkept.trans hpainted.kept) hpainted.shows (Tree.colour_paint_black t')
      hm.exists_paint hold hnew hbefore hafter,
    rfl, hold, hnew⟩

end QuorumStore.Placement.Index
