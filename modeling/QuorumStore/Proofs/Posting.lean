import Mathlib.Tactic.SplitIfs
import QuorumStore.Membership.Directory

/-!
# Posting to peers

Posting an event to peers makes none of them alive and changes no role: those that cannot
be reached count as dead afterwards. Where nothing failed, every peer that was alive has
acknowledged the event.
-/

namespace QuorumStore.Directory

variable {d d' d'' : Directory} {url other : Host} {σ : Type}

/-! ## Who is alive -/

theorem mem_live : url ∈ d.live ↔ ∃ p, d.peers[url]? = some p ∧ p.alive = true := by
  unfold live
  rw [List.mem_filterMap]
  constructor
  · rintro ⟨⟨url', p⟩, hm, hlive⟩
    dsimp only at hlive
    split_ifs at hlive with halive
    cases hlive
    exact ⟨p, Std.TreeMap.mem_toList_iff_getElem?_eq_some.1 hm, halive⟩
  · rintro ⟨p, hp, halive⟩
    exact ⟨(url, p), Std.TreeMap.mem_toList_iff_getElem?_eq_some.2 hp, if_pos halive⟩

/-- A peer that is alive is listed in the role that it told. -/
theorem mem_current {p : PeerStatus} {role : Role} (hp : d.peers[url]? = some p)
    (halive : p.alive = true) (hrole : p.role = some role) : url ∈ d.current role := by
  have hm := Std.TreeMap.mem_toList_iff_getElem?_eq_some.2 hp
  unfold current
  split_ifs
  · refine mem_sortedNames.2 (List.mem_cons_of_mem d.self ?_)
    exact List.mem_filterMap.2 ⟨(url, p), hm, if_pos ⟨halive, hrole⟩⟩
  · exact List.mem_filterMap.2 ⟨(url, p), hm, if_pos ⟨halive, hrole⟩⟩

theorem getElem?_mark (d : Directory) (url other : Host) (alive : Bool) (role : Option Role) :
    (d.mark url alive role).peers[other]?
      = if url = other then d.peers[other]?.map fun p => ⟨role.or p.role, alive⟩
        else d.peers[other]? := by
  by_cases h : url = other
  · simp [mark, h]
  · simp [mark, Std.TreeMap.getElem?_modify, h]

/-! ## Posting -/

/-- A directory after posting: no peer has come to life or changed its role. -/
def Dimmed (d d' : Directory) : Prop :=
  ∀ (url : Host) (p' : PeerStatus), d'.peers[url]? = some p' →
    ∃ p, d.peers[url]? = some p ∧ p'.role = p.role ∧ (p'.alive = true → p.alive = true)

theorem Dimmed.refl (d : Directory) : Dimmed d d := fun _ p hp => ⟨p, hp, rfl, id⟩

theorem Dimmed.trans (h : Dimmed d d') (h' : Dimmed d' d'') : Dimmed d d'' := by
  intro url p'' hp''
  obtain ⟨p', hp', hrole', halive'⟩ := h' url p'' hp''
  obtain ⟨p, hp, hrole, halive⟩ := h url p' hp'
  exact ⟨p, hp, hrole'.trans hrole, halive ∘ halive'⟩

/-- Whoever is alive was alive. -/
theorem Dimmed.mem_live (h : Dimmed d d') (hlive : url ∈ d'.live) : url ∈ d.live := by
  obtain ⟨p', hp', halive'⟩ := Directory.mem_live.1 hlive
  obtain ⟨p, hp, -, halive⟩ := h url p' hp'
  exact Directory.mem_live.2 ⟨p, hp, halive halive'⟩

/-- A peer that is marked dead keeps its role. -/
theorem dimmed_mark (d : Directory) (url : Host) : Dimmed d (d.mark url false none) := by
  intro other p' hp'
  rw [getElem?_mark] at hp'
  split_ifs at hp'
  · obtain ⟨p, hp, rfl⟩ := Option.map_eq_some_iff.1 hp'
    exact ⟨p, hp, Option.none_or, fun h => by cases h⟩
  · exact ⟨p', hp', rfl, id⟩

theorem dimmed_postAll (post : Host → σ → Except Fault Unit × σ) (urls : List Host)
    (d : Directory) (s : σ) : Dimmed d (postAll post urls d s).2.1 := by
  induction urls generalizing d s with
  | nil => exact Dimmed.refl d
  | cons url rest ih =>
    rw [postAll]
    rcases post url s with ⟨_ | _, s⟩
    · exact (dimmed_mark d url).trans (ih _ s)
    · exact ih d s

/-! ## Acknowledgements -/

/-- Gossip posts that were acknowledged: by whom, and what was posted. -/
abbrev Receipts := List (Host × HintEvent)

/-- Post an event to a peer that answers as told, and keep the receipt. -/
def post (answer : HintEvent → Host → Except Fault Unit) (e : HintEvent) (url : Host)
    (receipts : Receipts) : Except Fault Unit × Receipts :=
  match answer e url with
  | .ok _ => (.ok (), (url, e) :: receipts)
  | .error fault => (.error fault, receipts)

/-- Posting loses no receipt, and where nothing failed there is one of every peer. -/
theorem receipts_postAll (answer : HintEvent → Host → Except Fault Unit) (e : HintEvent)
    (urls : List Host) (d : Directory) (receipts : Receipts) :
    (∀ receipt ∈ receipts, receipt ∈ (postAll (post answer e) urls d receipts).2.2) ∧
      ((postAll (post answer e) urls d receipts).1 = [] →
        ∀ url ∈ urls, (url, e) ∈ (postAll (post answer e) urls d receipts).2.2) := by
  induction urls generalizing d receipts with
  | nil => exact ⟨fun _ hm => hm, fun _ _ hm => by cases hm⟩
  | cons url rest ih =>
    rw [postAll, post]
    cases answer e url with
    | error fault => exact ⟨(ih _ receipts).1, fun hnone => by cases hnone⟩
    | ok _ =>
      obtain ⟨hkept, hall⟩ := ih d ((url, e) :: receipts)
      refine ⟨fun receipt hm => hkept receipt (List.mem_cons_of_mem _ hm),
        fun hnone url' hm => ?_⟩
      rcases List.mem_cons.1 hm with rfl | hm
      · exact hkept _ List.mem_cons_self
      · exact hall hnone url' hm

end QuorumStore.Directory
