import Mathlib.Data.List.Chain
import Mathlib.Data.List.Induction
import QuorumStore.Proofs.RedBlack.Balance
import QuorumStore.Proofs.RedBlack.Searching

/-!
# Walking along the keys

The node with the next key is the first one of the right side, or the first node
above on whose left side the walk has been. So the walk meets the entries in the
order of the tree, and from the last one it goes on at the first.
-/

namespace QuorumStore.Placement

/-! ## Lists without repeats -/

/-- A host that comes last is new exactly when it did not come before. -/
theorem eraseDups_concat (hosts : List Host) (host : Host) :
    (hosts ++ [host]).eraseDups
      = if host ∈ hosts then hosts.eraseDups else hosts.eraseDups ++ [host] := by
  rw [List.eraseDups_append]
  by_cases h : host ∈ hosts
  · simp [List.cons_removeAll, h]
  · simp [List.cons_removeAll, h, List.eraseDups_cons]

theorem nodup_eraseDups (hosts : List Host) : hosts.eraseDups.Nodup := by
  induction hosts using List.reverseRecOn with
  | nil => exact List.nodup_nil
  | append_singleton hosts host ih =>
    rw [eraseDups_concat]
    split_ifs with h
    · exact ih
    · have hnew : host ∉ hosts.eraseDups := fun hm => h (List.mem_eraseDups.1 hm)
      rw [← List.concat_eq_append]
      exact ih.concat hnew

/-- Where nothing is repeated, nothing is left out. -/
theorem eraseDups_of_nodup {hosts : List Host} (h : hosts.Nodup) : hosts.eraseDups = hosts := by
  induction hosts using List.reverseRecOn with
  | nil => rfl
  | append_singleton hosts host ih =>
    rw [List.nodup_append] at h
    have hnew : host ∉ hosts := fun hm => h.2.2 host hm host List.mem_cons_self rfl
    rw [eraseDups_concat, if_neg hnew, ih h.1]

/-- Hosts that are left out leave the order of the others alone. -/
theorem eraseDups_filter (p : Host → Bool) (hosts : List Host) :
    (hosts.filter p).eraseDups = hosts.eraseDups.filter p := by
  induction hosts using List.reverseRecOn with
  | nil => rfl
  | append_singleton hosts host ih =>
    rw [eraseDups_concat, List.filter_append]
    cases hp : p host with
    | false =>
      rw [List.filter_cons_of_neg (by simp [hp]), List.filter_nil, List.append_nil, ih]
      split_ifs
      · rfl
      · rw [List.filter_append, List.filter_cons_of_neg (by simp [hp]), List.filter_nil,
          List.append_nil]
    | true =>
      have hmem : host ∈ hosts.filter p ↔ host ∈ hosts := by rw [List.mem_filter, and_iff_left hp]
      rw [List.filter_cons_of_pos hp, List.filter_nil, eraseDups_concat, ih]
      simp only [hmem]
      split_ifs
      · rfl
      · rw [List.filter_append, List.filter_cons_of_pos hp, List.filter_nil]

namespace Index

variable {index : Index} {t : Tree} {path : Path} {p bound best : Nat} {key : Int}

/-! ## The ceiling of a key -/

/-- The search for a ceiling keeps the first entry whose key is great enough. -/
theorem Holds.seekFrom_eq (h : index.Holds p t) (hord : t.Ordered)
    (hpos : ∀ e ∈ t.entries, e.slot ≠ 0) (hbound : t.entries.length < bound) :
    index.seekFrom key bound best t.top
      = ((t.entries.find? (key ≤ ·.key)).map Entry.slot).getD best := by
  induction t generalizing p bound best with
  | leaf => cases bound <;> rfl
  | node c l e r ihl ihr =>
    obtain ⟨bound, rfl⟩ : ∃ b, bound = b + 1 := ⟨bound - 1, by omega⟩
    obtain ⟨hkey, hleft, hright⟩ := h.read
    obtain ⟨hl, hr, hle, -⟩ := Tree.ordered_node.1 hord
    simp only [Tree.entries, List.length_append, List.length_cons] at hbound
    simp only [Tree.entries, List.mem_append, List.mem_cons] at hpos
    rw [Tree.top, seekFrom, if_neg (hpos e (Or.inr (Or.inl rfl))), hkey, hleft, hright,
      Tree.entries, List.find?_append]
    split_ifs with hk
    · rw [ihl h.2.1 hl (fun x hx => hpos x (Or.inl hx)) (by omega),
        List.find?_cons_of_pos (by simpa using hk)]
      cases l.entries.find? (key ≤ ·.key) <;> rfl
    · have hnone : l.entries.find? (key ≤ ·.key) = none := List.find?_eq_none.2 fun x hx => by
        have hxe := hle x hx
        simp only [decide_eq_true_eq]
        omega
      rw [ihr h.2.2 hr (fun x hx => hpos x (Or.inr (Or.inr hx))) (by omega), hnone, Option.none_or,
        List.find?_cons_of_neg (by simpa using hk)]

/-- The ceiling of a key is the first entry at or above it. -/
theorem Built.ceiling_eq (h : index.Built t) (key : Int) :
    index.ceiling key = firstSlot (t.entries.filter (key ≤ ·.key)) := by
  rw [ceiling, h.shows.root, firstSlot, List.head?_filter]
  exact h.shows.holds.seekFrom_eq h.ordered h.slot_ne_zero h.length_lt

/-! ## The next key -/

/-- Climbing ends at the first entry after the place. -/
theorem Shows.climb_eq (h : index.Shows (path.fill t)) (hne : t ≠ .leaf)
    (hbound : path.length ≤ bound) :
    index.climb bound t.top path.above = firstSlot path.after := by
  induction path generalizing t bound with
  | nil => cases bound <;> simp [climb, Path.above, Path.after, firstSlot]
  | cons f rest ih =>
    obtain ⟨bound, rfl⟩ : ∃ b, bound = b + 1 := ⟨bound - 1, by simp at hbound; omega⟩
    have hzero : f.entry.slot ≠ 0 := by
      have htidy := (Tidy.append_iff.1 (shows_fill_iff.1 h).2.2).2.1
      exact (htidy.inside f.entry List.mem_cons_self).1
    have hside := h.top_ne_sibling (Or.inl hne)
    have hup : index.Shows (Path.fill rest (.join f.side f.colour t f.entry f.sibling)) := h
    have hupne : Tree.join f.side f.colour t f.entry f.sibling ≠ .leaf := by
      cases f.side <;> simp [Tree.join]
    have hparent := hup.parent_top hupne
    rw [Tree.top_join] at hparent
    rw [climb, Path.above, child, h.slot_frame]
    cases hs : f.side with
    | left => simp [Entry.cell, Slot.child, hside, Path.after, hs]
    | right =>
      have hafter : Path.after (f :: rest) = Path.after rest := by simp [Path.after, hs]
      have hnext := ih hup hupne (by simpa using hbound)
      rw [Tree.top_join] at hnext
      rw [if_pos ⟨hzero, rfl⟩, hparent, hafter]
      exact hnext

/-- The place of an entry in the tree is its place in the order. -/
theorem Built.exists_path (h : index.Built t) {xs ys : List Entry} {e : Entry}
    (hentries : t.entries = xs ++ e :: ys) :
    ∃ path c l r, Path.fill path (.node c l e r) = t ∧ ys = r.entries ++ path.after := by
  have he : e ∈ t.entries := by simp [hentries]
  obtain ⟨path, c, l, r, -, hfill⟩ := Tree.locate_of_mem h.ordered he
  refine ⟨path, c, l, r, hfill, ?_⟩
  have hboth : xs ++ e :: ys = (path.before ++ l.entries) ++ e :: (r.entries ++ path.after) := by
    rw [← hentries, ← hfill, path.entries_fill]
    simp [Tree.entries]
  have hnodup : t.entries.Nodup := List.Nodup.of_map Entry.slot h.shows.tidy.distinct
  rw [hentries, List.nodup_middle, List.nodup_cons, List.mem_append, not_or] at hnodup
  exact ((List.append_cons_inj_of_notMem hnodup.1.1 hnodup.1.2).1 hboth).2.2

/-- The walk goes from an entry to the next one. -/
theorem Built.successor_eq (h : index.Built t) {xs ys : List Entry} {e : Entry}
    (hentries : t.entries = xs ++ e :: ys) : index.successor e.slot = firstSlot ys := by
  obtain ⟨path, c, l, r, hfill, rfl⟩ := h.exists_path hentries
  have hshows : index.Shows (path.fill (.node c l e r)) := hfill.symm ▸ h.shows
  obtain ⟨hpath, hholds, htidy⟩ := shows_fill_iff.1 hshows
  obtain ⟨-, -, hright⟩ := hholds.read
  unfold successor
  rw [hright]
  by_cases hleaf : r = .leaf
  · have hbound : path.length ≤ index.slots.size := by
      have hlt := (Tidy.append_iff.1 htidy).2.1.length_lt h.pos
      have hlength := path.length_le_length_outside
      omega
    have hparent : index.parent e.slot = path.above := hshows.parent_top (by simp)
    rw [hleaf, Tree.top, if_pos rfl, hparent]
    exact hshows.climb_eq (by simp) hbound
  · have hrT : Tidy index.slots.size r.entries :=
      (Tidy.append_iff.1 htidy).1.sublist
        ((List.sublist_cons_self e r.entries).trans (List.sublist_append_right _ _))
    rw [if_neg (hrT.top_ne_zero hleaf), hholds.2.2.minimum_eq hleaf hrT]
    cases r with
    | leaf => exact absurd rfl hleaf
    | node cr lr er rr => cases hl : lr.entries <;> simp [Tree.entries, firstSlot, hl]

/-- The first entry has the least node below the root. -/
theorem Built.minimum_eq (h : index.Built t) : index.minimum index.root = firstSlot t.entries := by
  rw [h.shows.root]
  by_cases hleaf : t = .leaf
  · have hleft : index.child 0 .left = 0 := by
      rw [child, h.blank]
      rfl
    rw [hleaf, minimum, Tree.top]
    cases index.slots.size <;> simp [leftmost, hleft, Tree.entries, firstSlot]
  · exact h.shows.holds.minimum_eq hleaf h.shows.tidy

/-- After the last entry the walk goes on at the first. -/
theorem Built.next_eq (h : index.Built t) {xs ys : List Entry} {e : Entry}
    (hentries : t.entries = xs ++ e :: ys) : index.next e.slot = firstSlot (ys ++ t.entries) := by
  rw [next, h.successor_eq hentries, h.minimum_eq]
  cases ys with
  | nil => rfl
  | cons f ys =>
    have hf := h.slot_ne_zero f (by simp [hentries])
    rw [firstSlot_cons]
    cases hslot : f.slot with
    | zero => exact absurd hslot hf
    | succ i => exact hslot.symm

/-! ## The entries in order -/

/-- From an entry on, the rest of the entries is read. -/
theorem Built.entriesFrom_eq (h : index.Built t) {xs ys : List Entry}
    (hentries : t.entries = xs ++ ys) (hbound : ys.length ≤ bound) :
    index.entriesFrom bound (firstSlot ys) = ys.map fun e => (e.key, e.host) := by
  induction ys generalizing xs bound with
  | nil => cases bound <;> rfl
  | cons e ys ih =>
    obtain ⟨bound, rfl⟩ : ∃ b, bound = b + 1 := ⟨bound - 1, by simp at hbound; omega⟩
    have he : e ∈ t.entries := by simp [hentries]
    obtain ⟨hkey, hhost⟩ := h.read_of_mem he
    have hrest : t.entries = (xs ++ [e]) ++ ys := by simp [hentries]
    rw [firstSlot_cons, entriesFrom, if_neg (h.slot_ne_zero e he), hkey, hhost,
      h.successor_eq hentries, ih hrest (by simpa using hbound), List.map_cons]

/-- The entries that are read off the slots are those of the tree. -/
theorem Built.entries_eq (h : index.Built t) :
    index.entries = t.entries.map fun e => (e.key, e.host) := by
  unfold entries
  split_ifs with hroot
  · cases t with
    | leaf => rfl
    | node c l e r =>
      rw [h.shows.root] at hroot
      exact absurd hroot (h.slot_ne_zero e (by simp [Tree.entries]))
  · rw [h.minimum_eq]
    exact h.entriesFrom_eq (List.nil_append _).symm (Nat.le_of_lt h.length_lt)

/-! ## Once around -/

/-- Walking over a chain of nodes meets their hosts, each once, until there are
enough. -/
theorem walk_eq {enough : Nat} {met : List Host} {around : List Entry}
    (hchain : around.IsChain fun e f => index.next e.slot = f.slot)
    (hhost : ∀ e ∈ around, (index.slot e.slot).host = e.host) (hmet : met.Nodup)
    (hroom : met.length < enough) :
    index.walk enough around.length (firstSlot around) met
      = (met ++ around.map Entry.host).eraseDups.take enough := by
  induction around generalizing met with
  | nil =>
    rw [List.map_nil, List.append_nil, eraseDups_of_nodup hmet,
      List.take_of_length_le (Nat.le_of_lt hroom)]
    rfl
  | cons e around ih =>
    have hrest := (List.isChain_cons.1 hchain).2
    have hnext (met : List Host) : index.walk enough around.length (index.next e.slot) met
        = index.walk enough around.length (firstSlot around) met := by
      cases around with
      | nil => rfl
      | cons f around => rw [(List.isChain_cons_cons.1 hchain).1, firstSlot_cons]
    have hhosts (x : Entry) (hx : x ∈ around) := hhost x (List.mem_cons_of_mem e hx)
    rw [firstSlot_cons, List.length_cons, walk, hhost e List.mem_cons_self, List.map_cons]
    split_ifs with hold hfull
    · rw [hnext, ih hrest hhosts hmet hroom, List.eraseDups_append, List.eraseDups_append,
        List.cons_removeAll]
      simp [hold]
    · have hnew : (met ++ [e.host]).Nodup := List.concat_eq_append ▸ hmet.concat hold
      rw [List.append_cons met e.host (around.map Entry.host), List.eraseDups_append,
        eraseDups_of_nodup hnew, ← hfull, List.take_left]
    · have hnew : (met ++ [e.host]).Nodup := List.concat_eq_append ▸ hmet.concat hold
      have hlen : (met ++ [e.host]).length < enough := by
        rw [List.length_append, List.length_singleton] at hfull ⊢
        omega
      rw [hnext, ih hrest hhosts hnew hlen,
        List.append_cons met e.host (around.map Entry.host)]

/-- The entries from a place on and then those before it are a chain. -/
theorem Built.isChain (h : index.Built t) {xs ys : List Entry} (hentries : t.entries = xs ++ ys) :
    (ys ++ xs).IsChain fun e f => index.next e.slot = f.slot := by
  have hsuffix (as bs : List Entry) (hsplit : t.entries = as ++ bs) :
      bs.IsChain fun e f => index.next e.slot = f.slot := by
    induction bs generalizing as with
    | nil => exact List.IsChain.nil
    | cons e bs ih =>
      have hnext := h.next_eq hsplit
      have hrest := ih (as ++ [e]) (by simp [hsplit])
      cases bs with
      | nil => exact List.IsChain.singleton e
      | cons f bs => exact List.isChain_cons_cons.2 ⟨hnext, hrest⟩
  have hall := hsuffix [] t.entries rfl
  rw [hentries, List.isChain_append] at hall
  refine List.isChain_append.2 ⟨hall.2.1, hall.1, fun e he f hf => ?_⟩
  -- from the last entry the walk goes on at the first
  obtain ⟨ys', rfl⟩ := List.getLast?_eq_some_iff.1 he
  obtain ⟨xs', rfl⟩ := List.head?_eq_some_iff.1 hf
  have hlast : t.entries = (f :: xs' ++ ys') ++ e :: [] := by simp [hentries]
  rw [h.next_eq hlast, hentries]
  rfl

/-- In an ordered tree the smaller keys come first. -/
theorem entries_split (h : t.Ordered) (key : Int) :
    t.entries = t.entries.filter (·.key < key) ++ t.entries.filter (key ≤ ·.key) := by
  unfold Tree.Ordered at h
  generalize t.entries = es at h
  induction es with
  | nil => rfl
  | cons e es ih =>
    obtain ⟨hlt, hrest⟩ := List.pairwise_cons.1 h
    by_cases hkey : e.key < key
    · have hnot : ¬ key ≤ e.key := by omega
      rw [List.filter_cons, List.filter_cons, if_pos (decide_eq_true hkey),
        if_neg (by simpa using hkey), List.cons_append, ← ih hrest]
    · have hnone : (e :: es).filter (·.key < key) = [] := List.filter_eq_nil_iff.2 fun x hx => by
        have hle : key ≤ x.key := by
          rcases List.mem_cons.1 hx with rfl | hx
          · omega
          · have := hlt x hx
            omega
        simpa using hle
      have hall : (e :: es).filter (key ≤ ·.key) = e :: es := List.filter_eq_self.2 fun x hx => by
        have hnot := List.filter_eq_nil_iff.1 hnone x hx
        simpa using hnot
      rw [hnone, hall, List.nil_append]

/-- A walk starts at the first entry at or above the key, if there is one, and else
at the first of all. -/
theorem Built.start_eq (h : index.Built t) (key : Int) :
    index.start key
      = firstSlot (t.entries.filter (key ≤ ·.key) ++ t.entries.filter (·.key < key)) := by
  have hceiling := h.ceiling_eq key
  unfold start
  cases hhigh : t.entries.filter (key ≤ ·.key) with
  | nil =>
    have hsplit := entries_split h.ordered key
    rw [hhigh] at hceiling hsplit
    rw [List.append_nil] at hsplit
    rw [hceiling, List.nil_append, ← hsplit]
    exact h.minimum_eq
  | cons e rest =>
    have hmem : e ∈ t.entries.filter (key ≤ ·.key) := by
      rw [hhigh]
      exact List.mem_cons_self
    have hne := h.slot_ne_zero e (List.mem_of_mem_filter hmem)
    rw [hhigh, firstSlot_cons] at hceiling
    rw [hceiling, List.cons_append, firstSlot_cons]
    cases hslot : e.slot with
    | zero => exact absurd hslot hne
    | succ i => rfl

/-- Walking clockwise meets the owners from the key on and then those before it. -/
theorem Built.clockwise_eq (h : index.Built t) (n : Nat) (key : Int) :
    index.clockwise n key
      = ((t.entries.filter (key ≤ ·.key) ++ t.entries.filter (·.key < key)).map
          Entry.host).eraseDups.take n := by
  have hsplit := entries_split h.ordered key
  have hstart := h.start_eq key
  have hchain := h.isChain hsplit
  have hperm : (t.entries.filter (key ≤ ·.key) ++ t.entries.filter (·.key < key)).Perm
      t.entries := List.perm_append_comm.trans (List.Perm.of_eq hsplit.symm)
  generalize t.entries.filter (key ≤ ·.key) ++ t.entries.filter (·.key < key) = around at *
  unfold clockwise
  split_ifs with hnone
  · rcases hnone with rfl | hroot
    · rw [List.take_zero]
    · have hleaf : t = .leaf := by
        by_contra hne
        exact h.shows.tidy.top_ne_zero hne (h.shows.root.symm.trans hroot)
      rw [hleaf] at hperm
      rw [List.Perm.eq_nil hperm]
      simp
  · have hhosts : ∀ e ∈ around, (index.slot e.slot).host = e.host := fun e he =>
      (h.read_of_mem (hperm.mem_iff.1 he)).2
    rw [hstart, h.size_eq, ← hperm.length_eq, walk_eq hchain hhosts List.nodup_nil (by simp; omega),
      List.nil_append]

end Index

end QuorumStore.Placement
