import LabelTree.Proofs.Session.Effects
import LabelTree.Proofs.Store.Frame

/-!
# Session — what the parts of an edit leave as it was

Frames of the stores that an edit goes through: a chain of new nodes, values with siblings for more
of them, and the node that shows the number of saves.
-/

namespace LabelTree.Store

variable {s t : Store} {p id : NodeId} {l : String} {labels : List String}

theorem Chain.still (h : s.Chain p labels id t) (hs : s.WellFormed) : s.Still t := by
  induction h with
  | nil => exact Frame.refl _ _ _
  | cons happend _ ih => exact (hs.still_insertChild happend).trans (ih (hs.insertChild happend))

namespace WellFormed

theorem still_withSiblings (hs : s.WellFormed) (parent : NodeId) (label : String) (prev : NodeId)
    (values : List (Option String)) : s.Still (s.withSiblings parent label prev values) := by
  induction values generalizing s prev with
  | nil => exact Frame.refl _ _ _
  | cons value rest ih =>
    unfold withSiblings
    split
    · exact Frame.refl _ _ _
    · rename_i id t hi
      have ht := hs.insertChild hi
      cases hv : t.setValue id value with
      | none => exact (hs.still_insertChild hi).trans (ih ht id)
      | some u => exact (hs.still_setValue_new hi hv).trans (ih (ht.setValue hv) id)

theorem frame_getD_setValue (hs : s.WellFormed) (id : NodeId) (value : Option String) :
    s.Frame (fun _ => False) (· = id) ((s.setValue id value).getD s) ∧
      ((s.setValue id value).getD s).WellFormed := by
  cases hv : s.setValue id value with
  | none => exact ⟨Frame.refl _ _ _, hs⟩
  | some t => exact ⟨hs.frame_setValue hv, hs.setValue hv⟩

theorem frame_withValues (hs : s.WellFormed) (id : NodeId) (first : Option String)
    (rest : List (Option String)) :
    s.Frame (fun _ => False) (· = id) (s.withValues id first rest) := by
  obtain ⟨hframe, ht⟩ := hs.frame_getD_setValue id first
  unfold withValues
  dsimp only
  generalize (s.setValue id first).getD s = t at hframe ht ⊢
  split
  · rename_i parent label _ _
    refine (hframe.trans (ht.still_withSiblings parent label id rest)).mono ?_ ?_ <;> simp
  · exact hframe

theorem still_findOrAppend (hs : s.WellFormed) (h : s.findOrAppend p l = some (id, t)) :
    s.Still t ∧ t.WellFormed := by
  unfold findOrAppend at h
  split at h
  · cases h
    exact ⟨Frame.refl _ _ _, hs⟩
  · exact ⟨hs.still_insertChild h, hs.insertChild h⟩

/-- A node that was there before was found, and nothing was made. -/
theorem findOrAppend_of_contains (hs : s.WellFormed) (h : s.findOrAppend p l = some (id, t))
    (hid : s.contains id = true) : s.findChild? p l = some id ∧ t = s := by
  unfold findOrAppend at h
  split at h
  · rename_i found hfound
    cases h
    exact ⟨hfound, rfl⟩
  · rw [(hs.freeExact.inserts h).fresh] at hid
    cases hid

/-- The node that shows the saves is the one that is there for that, or new. -/
theorem frame_recordSaves (hs : s.WellFormed) (node : NodeId) (saves : Nat) :
    s.Frame (fun _ => False)
      (fun j => ∃ events, s.findChild? node "events" = some events ∧
        s.findChild? events "saved" = some j)
      (Edit.recordSaves s node saves) := by
  unfold Edit.recordSaves
  split
  · exact Frame.refl _ _ _
  · rename_i events t hevents
    obtain ⟨hst, ht⟩ := hs.still_findOrAppend hevents
    split
    · exact hst.mono (fun _ _ => id) fun _ _ => False.elim
    · rename_i saved u hsaved
      obtain ⟨htu, hu⟩ := ht.still_findOrAppend hsaved
      refine (hst.trans (htu.trans (hu.frame_getD_setValue saved _).1)).mono (fun _ _ => id) ?_
      rintro j hj rfl
      -- a child that is there has a parent that is there, so neither was made
      have hcontains : t.contains j = true := by
        unfold findOrAppend at hevents
        split at hevents
        · cases hevents
          exact hj
        · exact ((hs.freeExact.inserts hevents).contains j).mpr (.inr hj)
      obtain ⟨hchild, -⟩ := ht.findOrAppend_of_contains hsaved hcontains
      have hparent := parent_of_findChild? ht hchild
      cases hold : s.contains events with
      | true =>
        obtain ⟨hfound, rfl⟩ := hs.findOrAppend_of_contains hevents hold
        exact ⟨events, hfound, hchild⟩
      | false =>
        rw [hst.parent j hj hcontains id] at hparent
        rw [hs.contains_of_parent hparent] at hold
        cases hold

end WellFormed

end LabelTree.Store
