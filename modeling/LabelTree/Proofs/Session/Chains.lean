import LabelTree.Proofs.Session.Siblings

/-!
# Session — what hangs below an anchor

The missing steps of a path are made as a chain of new nodes below their anchor. Afterwards the
chain can be read off parents and labels (`Hangs`), and only the list of the anchor's children is
another one.
-/

namespace LabelTree.Store

variable {s t u : Store} {c id p q : NodeId} {l : String} {labels rest : List String}
  {values : List (Option String)} {ids left right : List NodeId} {touched : NodeId → Prop}

/-- That `id` is reached from `p` down over children with these labels, and is `p` if there are
none. -/
inductive Hangs (s : Store) : NodeId → List String → NodeId → Prop
  | nil (p : NodeId) : Hangs s p [] p
  | cons {p c id : NodeId} {l : String} {rest : List String} (hp : s.parent c = some p)
    (hl : s.label c = some l) (h : Hangs s c rest id) : Hangs s p (l :: rest) id

namespace Hangs

/-- What hangs below an anchor still does when nodes are added. -/
theorem of_extends (h : s.Hangs p labels id) (ht : s.Extends touched t) : t.Hangs p labels id := by
  induction h with
  | nil p => exact .nil p
  | cons hp hl _ ih =>
    have hc := Store.contains_of_parent hp
    exact .cons (by rw [ht.parent _ hc, hp]) (by rw [ht.label _ hc, hl]) ih

end Hangs

theorem WellFormed.splices_appendAfterLabel (hs : s.WellFormed)
    (h : s.appendAfterLabel p l = some (id, t)) :
    ∃ left right, s.EndsLabelled p l left right ∧ s.Splices p l left right [id] [none] t := by
  obtain ⟨left, right, hends, hindex⟩ := s.exists_endsLabelled p l
  exact ⟨left, right, hends, hs.splices_insertChild h hends.children hindex⟩

/-- New nodes below a node that had no children are last siblings, whatever was made before them. -/
theorem WritesLast.of_new_parent (h : u.WritesLast q l ids values t) (hu : s.Extends touched u)
    (hafter : u.children q = []) (hbefore : s.children q = []) : s.WritesLast q l ids values t := by
  obtain ⟨left, right, hends, hcs⟩ := h.children
  obtain ⟨rfl, rfl⟩ := List.append_eq_nil_iff.mp (hends.children.symm.trans hafter)
  constructor
  case parent => exact h.parent
  case fresh => exact fun c hc => hu.fresh (h.fresh c hc)
  case values => exact h.values
  case others => exact fun c hc => (h.others c (hu.contains c hc)).trans (hu.value c hc)
  case children =>
    exact ⟨[], [],
      ⟨hbefore, by simp, fun _ => rfl, fun hne => absurd (labelled_eq_nil hbefore l) hne⟩, hcs⟩
  case labelled => rw [h.labelled, labelled_eq_nil hafter, labelled_eq_nil hbefore]

namespace Chain

/-- The last node of a chain and what was made before it. -/
theorem exists_last (h : s.Chain p (labels ++ [l]) id t) :
    ∃ q u, s.Chain p labels q u ∧ u.appendAfterLabel q l = some (id, t) := by
  induction labels generalizing s p with
  | nil =>
    cases h with
    | cons happend hrest =>
      cases hrest
      exact ⟨p, s, .nil s p, happend⟩
  | cons first labels ih =>
    cases h with
    | cons happend hrest =>
      obtain ⟨q, u, hchain, hlast⟩ := ih hrest
      exact ⟨q, u, .cons happend hchain, hlast⟩

theorem extends_p (h : s.Chain p labels id t) (hs : s.WellFormed) : s.Extends (· = p) t := by
  induction h with
  | nil s p => exact .refl hs _
  | @cons s s' t p c id label rest happend _ ih =>
    have hfirst := hs.extends_insertChild happend
    have hins := hs.freeExact.inserts happend
    refine hfirst.trans (ih hfirst.wellFormed) fun j hj heq => ?_
    exact absurd heq (hins.ne hj)

theorem hangs (h : s.Chain p labels id t) (hs : s.WellFormed) : t.Hangs p labels id := by
  induction h with
  | nil s p => exact .nil p
  | @cons s s' t p c id label rest happend hrest ih =>
    have hs' := hs.insertChild happend
    have hins := hs.freeExact.inserts happend
    have hc : s'.contains c = true := (hins.contains c).mpr (.inl rfl)
    have hlater := hrest.extends_p hs'
    refine .cons ?_ ?_ (ih hs')
    · rw [hlater.parent c hc, hins.parent, if_pos rfl]
    · rw [hlater.label c hc, hins.label, if_pos rfl]

/-- The last node of a chain has no children, unless it is the anchor. -/
theorem children_eq_nil (h : s.Chain p labels id t) (hs : s.WellFormed) (hne : labels ≠ []) :
    t.children id = [] := by
  induction h with
  | nil => exact absurd rfl hne
  | @cons s s' t p c id label rest happend hrest ih =>
    cases rest with
    | nil =>
      cases hrest
      rw [(hs.freeExact.inserts happend).children, if_pos rfl]
    | cons => exact ih (hs.insertChild happend) (by simp)

/-- Values that are written to a node just made at the end of a chain and to siblings after it are
written to new last siblings. -/
theorem writesLast {good : String → Prop} (h : s.Chain p (labels ++ [l]) id t) (hs : s.Rooted good)
    (hgood : ∀ l ∈ labels, good l) (hp : s.contains p = true) (first : Option String)
    (rest : List (Option String)) :
    ∃ q ids, (t.withValues id first rest).Hangs p labels q ∧
      (labels ≠ [] → s.contains q = false) ∧
      s.WritesLast q l (id :: ids) (first :: rest) (t.withValues id first rest) := by
  obtain ⟨q, u, hchain, hlast⟩ := h.exists_last
  have hu := hchain.extends_p hs.wellFormed
  obtain ⟨left, right, hends, hmade⟩ := hu.wellFormed.splices_appendAfterLabel hlast
  have hcs : t.children q = left ++ id :: right := by
    rw [hmade.children]
    simp
  have ht := hmade.extends_p.wellFormed
  obtain ⟨w, ids, hw, hrest⟩ :=
    ht.splices_withValues hcs (hmade.label id List.mem_cons_self) first rest
  have hall := (hmade.setValue hw).append hrest
  generalize t.withValues id first rest = v at hall ⊢
  have hfresh := (hchain.grows hs hgood hp).2.2
  have hwrites := hall.writesLast hu.wellFormed hends
  refine ⟨q, ids, (hchain.hangs hs.wellFormed).of_extends hall.extends_p, hfresh, ?_⟩
  by_cases hnil : labels = []
  · subst hnil
    cases hchain
    exact hwrites
  · -- the parent is new too, so it had no children before
    exact hwrites.of_new_parent hu (hchain.children_eq_nil hs.wellFormed hnil)
      (children_of_not_contains (hfresh hnil))

end Chain

end LabelTree.Store
