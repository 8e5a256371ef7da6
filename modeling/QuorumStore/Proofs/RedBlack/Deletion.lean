import QuorumStore.Proofs.RedBlack.Refilling
import QuorumStore.Proofs.RedBlack.Unlinking

/-!
# Deletion from the tree

A node is taken out, a black level that is gone is mended, and the slot of the node
is freed. The other entries stay in their order, and the tree is balanced again.
-/

namespace QuorumStore.Placement.Index

variable {old index : Index} {entries : List Entry} {t : Tree} {path : Path} {i z : Nat}

/-- After a node was taken out the tree is mended. -/
theorem Opened.mend {rest : Unlinked} (h : Opened old entries rest path t)
    (hzero : old.colour 0 = .black) (hpos : 0 < old.slots.size) :
    ∃ t', rest.mend.Shows t' ∧ Spared old rest.mend ∧ t'.entries = entries ∧
      t'.colour = .black ∧ ∃ m, t'.Balanced m := by
  have hbalanced := h.balanced
  have hfits := h.fits
  unfold Unlinked.mend
  cases hc : rest.colour with
  | red =>
    rw [hc] at hfits
    have hwhole : Path.Fits path t.colour 0 := by
      rw [h.red hc]
      exact hfits.black
    exact ⟨_, h.shows, h.spared, h.entries_eq, (Path.fits_iff path t).2 ⟨0, hbalanced, hwhole⟩⟩
  | black =>
    rw [hc] at hfits
    have hshort : t.Short 0 := by
      unfold Tree.Short
      split_ifs with hred
      · exact hbalanced.blacken hred
      · exact hbalanced
    have hbound : path.length ≤ rest.index.slots.size := by
      have hout := (Tidy.append_iff.1 (shows_fill_iff.1 h.shows).2.2).2.1
      have hlt := hout.length_lt (h.spared.slots.symm ▸ hpos)
      have hlength := path.length_le_length_outside
      omega
    obtain ⟨t', hmended, hblack, hbal⟩ := (Reshaped.refl h.shows).mendBlack
      (h.spared.colour.trans hzero) h.parent hshort hfits hbound
    rw [← h.moved] at hmended
    exact ⟨t', hmended.shows, h.spared.trans hmended.kept.spared,
      hmended.entries_eq.trans h.entries_eq, hblack, hbal⟩

/-! ## Freeing a slot -/

@[simp] theorem size_release (index : Index) (z : Nat) : (index.release z).size = index.size := rfl

theorem size_slots_release (index : Index) (z : Nat) :
    (index.release z).slots.size = index.slots.size := by
  simp [release]

theorem slot_release_zero (hpos : 0 < index.slots.size) (z : Nat) :
    (index.release z).slot 0 = .blank := by
  simp [release, slot, Array.getD_eq_getD_getElem?, hpos]

theorem slot_release_of_ne (hz : i ≠ z) (h0 : i ≠ 0) : (index.release z).slot i = index.slot i := by
  simp [release, slot, Array.getD_eq_getD_getElem?, Array.getElem?_setIfInBounds_ne hz.symm,
    Array.getElem?_setIfInBounds_ne h0.symm]

/-- The slot of an entry that is not in the tree is freed. -/
theorem Shows.release (h : index.Shows t) (hne : ∀ e ∈ t.entries, e.slot ≠ z) :
    (index.release z).Shows t where
  root := h.root
  holds := h.holds.congr fun e he => slot_release_of_ne (hne e he) (h.tidy.inside e he).1
  tidy := (size_slots_release index z).symm ▸ h.tidy

/-! ## The whole deletion -/

/-- Where there is no entry, none is removed. -/
theorem Built.delete_absent (h : index.Built t) {key : Int} (hfree : ∀ e ∈ t.entries, e.key ≠ key) :
    index.delete key = (index, false) := by
  obtain ⟨path, hloc, -⟩ := Tree.locate_of_free h.ordered hfree
  have hfind := h.find_eq key
  rw [hloc, Tree.top] at hfind
  rw [Index.delete, hfind]
  rfl

/-- When the slot of the removed entry is free, every slot is accounted for again. -/
theorem Built.of_rest {rest : Index} {t' : Tree} {xs ys : List Entry} {e : Entry}
    (h : index.Built t) (hentries : t.entries = xs ++ e :: ys) (hshows : rest.Shows t')
    (hspared : Spared index rest) (hrest : t'.entries = xs ++ ys) (hblack : t'.colour = .black)
    (hbal : ∃ m, t'.Balanced m) :
    Index.Built { rest.release e.slot with size := rest.size - 1 } t' := by
  have hfresh : ∀ y ∈ t'.entries, y.slot ≠ e.slot := by
    have htidy := h.shows.tidy
    rw [hentries] at htidy
    have hcons := htidy.perm List.perm_middle
    rw [hrest]
    exact (Tidy.cons_iff.1 hcons).2.2.1
  constructor
  · exact (hshows.release hfresh).congr rfl rfl
  · have hord : t.Ordered := h.ordered
    rw [Tree.Ordered, hentries] at hord
    rw [Tree.Ordered, hrest]
    exact hord.sublist ((List.Sublist.refl xs).append (List.sublist_cons_self e ys))
  · exact hblack
  · exact hbal
  · exact (size_slots_release ..).symm ▸ hspared.slots.symm ▸ h.pos
  · exact slot_release_zero (hspared.slots.symm ▸ h.pos) e.slot
  · have hperm := h.account
    rw [hentries, ← hspared.slots, ← hspared.free] at hperm
    have hmove : (t'.entries.map Entry.slot ++ (e.slot :: rest.free)).Perm
        ((xs ++ e :: ys).map Entry.slot ++ rest.free) := by
      rw [hrest]
      refine List.perm_middle.trans ?_
      simpa using (List.perm_middle (a := e.slot)).symm
    rw [← size_slots_release rest e.slot] at hperm
    exact hmove.trans hperm
  · have hsize : rest.size = t.entries.length := hspared.size.trans h.size_eq
    simp only [hsize, hentries, hrest, List.length_append, List.length_cons]
    omega

/-- An entry is removed and the others stay as they are. -/
theorem Built.delete_present (h : index.Built t) {e : Entry} (he : e ∈ t.entries) :
    ∃ t' xs ys, (index.delete e.key).1.Built t' ∧ (index.delete e.key).2 = true ∧
      t.entries = xs ++ e :: ys ∧ t'.entries = xs ++ ys := by
  obtain ⟨path, c, l, r, hloc, hfill⟩ := Tree.locate_of_mem h.ordered he
  have hfind := h.find_eq e.key
  have hentries : t.entries = (path.before ++ l.entries) ++ e :: (r.entries ++ path.after) := by
    rw [← hfill, path.entries_fill]
    simp [Tree.entries]
  have hz := h.slot_ne_zero e he
  rw [hloc, Tree.top] at hfind
  obtain ⟨path', t', hopened⟩ := Shows.unlink (hfill.symm ▸ h.shows)
    (hfill.symm ▸ ⟨h.black, h.balanced⟩) h.pos
  obtain ⟨t'', hshows, hspared, hleft, hblack, hbal⟩ := hopened.mend h.colour_zero h.pos
  have hleft' : t''.entries = (path.before ++ l.entries) ++ (r.entries ++ path.after) := by
    rw [hleft]
    simp
  have hresult : index.delete e.key
      = ({ (index.unlink e.slot).mend.release e.slot with
            size := (index.unlink e.slot).mend.size - 1 }, true) := by
    obtain ⟨k, hk⟩ : ∃ k, e.slot = k + 1 := ⟨_, (Nat.succ_pred hz).symm⟩
    simp only [Index.delete, hfind, hk, size_release]
  rw [hresult]
  exact ⟨t'', _, _, h.of_rest hentries hshows hspared hleft' hblack hbal, rfl, hentries, hleft'⟩

end QuorumStore.Placement.Index
