import LabelTree.Proofs.Session.Unmarked
import LabelTree.Proofs.Store.Labelled

/-!
# Session — values in a row

Several values are written by making one sibling after the other, each at an index that is looked up
anew. What comes of it is said without indices: the new nodes stand together between two parts of
the children that there were, and such changes compose (`Splices.append`). From that follows how the
children with one label stand before and after.
-/

namespace LabelTree.Store

variable {s t u : Store} {c id p prev : NodeId} {i : Nat} {l : String} {v w : Option String}
  {before after left right ids news : List NodeId} {values more : List (Option String)}

/-! ## Children made in a row -/

/-- What making children in a row does: they have one label and some values, and stand between two
parts of the children that there were. -/
structure Splices (s : Store) (p : NodeId) (l : String) (before after ids : List NodeId)
    (values : List (Option String)) (t : Store) : Prop where
  extends_p : s.Extends (· = p) t
  contains_p : s.contains p = true
  children_before : s.children p = before ++ after
  children : t.children p = before ++ ids ++ after
  fresh : ∀ id ∈ ids, s.contains id = false
  label : ∀ id ∈ ids, t.label id = some l
  leaf : ∀ id ∈ ids, t.children id = []
  values : ids.map t.value = values

namespace Splices

theorem nil (hs : s.WellFormed) (hp : s.contains p = true) (h : s.children p = before ++ after)
    (l : String) : s.Splices p l before after [] [] s where
  extends_p := .refl hs _
  contains_p := hp
  children_before := h
  children := by rw [h, List.append_nil]
  fresh := by simp
  label := by simp
  leaf := by simp
  values := rfl

theorem contains (h : s.Splices p l before after ids values t) (hid : id ∈ ids) :
    t.contains id = true := by
  have hmem : id ∈ t.children p := by
    rw [h.children]
    simp [hid]
  exact h.extends_p.wellFormed.contains_of_child hmem

theorem ne_p (h : s.Splices p l before after ids values t) (hid : id ∈ ids) : id ≠ p :=
  (ne_of_contains h.contains_p (h.fresh id hid)).symm

/-- What is put right after goes on with what was put before. -/
theorem append (h : s.Splices p l before after ids values t)
    (h' : t.Splices p l (before ++ ids) after news more u) :
    s.Splices p l before after (ids ++ news) (values ++ more) u where
  extends_p := h.extends_p.trans h'.extends_p fun _ _ hj => hj
  contains_p := h.contains_p
  children_before := h.children_before
  children := by rw [h'.children, List.append_assoc before]
  fresh id hid :=
    (List.mem_append.mp hid).elim (h.fresh id) fun hid => h.extends_p.fresh (h'.fresh id hid)
  label id hid := by
    rcases List.mem_append.mp hid with hid | hid
    · rw [h'.extends_p.label id (h.contains hid), h.label id hid]
    · exact h'.label id hid
  leaf id hid := by
    rcases List.mem_append.mp hid with hid | hid
    · rw [h'.extends_p.children id (h.contains hid) (h.ne_p hid), h.leaf id hid]
    · exact h'.leaf id hid
  values := by
    have hkept : ids.map u.value = ids.map t.value :=
      List.map_congr_left fun id hid => h'.extends_p.value id (h.contains hid)
    rw [List.map_append, hkept, h.values, h'.values]

/-- One child that is made and then given a value. -/
theorem setValue (h : s.Splices p l before after [id] [w] t) (hv : t.setValue id v = some u) :
    s.Splices p l before after [id] [v] u := by
  have hset := setsValue hv
  constructor
  case extends_p => exact h.extends_p.setValue (h.fresh id List.mem_cons_self) hv
  case contains_p => exact h.contains_p
  case children_before => exact h.children_before
  case children => rw [hset.shape.children, h.children]
  case fresh => exact h.fresh
  case label =>
    intro j hj
    rw [hset.label, h.label j hj]
  case leaf =>
    intro j hj
    rw [hset.shape.children, h.leaf j hj]
  case values => rw [List.map_singleton, hset.value, if_pos rfl]

/-- The new ones are all labelled, and the others are so if they were. -/
theorem labelled (h : s.Splices p l before after ids values t) (hs : s.WellFormed) :
    t.labelled p l =
      (before.filter fun c => s.label c = some l) ++ ids ++
        after.filter fun c => s.label c = some l := by
  have hold : ∀ cs : List NodeId, (∀ c ∈ cs, c ∈ s.children p) →
      (cs.filter fun c => t.label c = some l) = cs.filter fun c => s.label c = some l := by
    intro cs hcs
    refine List.filter_congr fun c hc => ?_
    rw [h.extends_p.label c (hs.contains_of_child (hcs c hc))]
  have hnew : (ids.filter fun c => t.label c = some l) = ids :=
    List.filter_eq_self.mpr fun c hc => by simpa using h.label c hc
  rw [Store.labelled, h.children, List.filter_append, List.filter_append, hnew,
    hold before fun c hc => by simp [h.children_before, hc],
    hold after fun c hc => by simp [h.children_before, hc]]

end Splices

theorem WellFormed.splices_insertChild (hs : s.WellFormed) (h : s.insertChild p i l = some (id, t))
    (hcs : s.children p = left ++ right) (hi : i = left.length) :
    s.Splices p l left right [id] [none] t := by
  have hins := hs.freeExact.inserts h
  constructor
  case extends_p => exact hs.extends_insertChild h
  case contains_p => exact hins.contains_parent
  case children_before => exact hcs
  case children =>
    rw [hins.children_parent, spliced_eq, hcs, hi, List.take_left, List.drop_left,
      List.append_assoc, List.singleton_append]
  case fresh => simpa using hins.fresh
  case label => simp [hins.label]
  case leaf => simp [hins.children]
  case values => simp [hins.value]

/-! ## Values -/

theorem exists_setValue (v : Option String) (h : s.contains id = true) :
    ∃ t, s.setValue id v = some t := by
  simp [Store.setValue, h]

theorem WellFormed.splices_withSiblings (hs : s.WellFormed)
    (h : s.children p = left ++ prev :: right) (l : String) (values : List (Option String)) :
    ∃ ids, s.Splices p l (left ++ [prev]) right ids values (s.withSiblings p l prev values) := by
  have hp : s.contains p = true := contains_of_mem_children (c := prev) (by simp [h])
  induction values generalizing s left prev with
  | nil => exact ⟨[], .nil hs hp (by simp [h]) l⟩
  | cons value rest ih =>
    have hindex := hs.indexInParent_of_children h
    obtain ⟨id, t, hi⟩ := insertChild_isSome (left.length + 1) l hp
    have hmade : s.Splices p l (left ++ [prev]) right [id] [none] t :=
      hs.splices_insertChild hi (by simp [h]) (by simp)
    obtain ⟨u, hu⟩ := exists_setValue value (hmade.contains List.mem_cons_self)
    have hfirst := hmade.setValue hu
    -- the next one is put after the node just made
    have hcs : u.children p = (left ++ [prev]) ++ id :: right := by
      rw [hfirst.children]
      simp
    obtain ⟨ids, hrest⟩ := ih hfirst.extends_p.wellFormed hcs (hfirst.extends_p.contains p hp)
    refine ⟨id :: ids, ?_⟩
    simp only [withSiblings, hindex, Option.map_some, Option.getD_some, hi, hu]
    exact hfirst.append hrest

/-- The values of a node and of the siblings made after it. -/
theorem WellFormed.splices_withValues (hs : s.WellFormed) (h : s.children p = left ++ id :: right)
    (hl : s.label id = some l) (first : Option String) (rest : List (Option String)) :
    ∃ t ids, s.setValue id first = some t ∧
      t.Splices p l (left ++ [id]) right ids rest (s.withValues id first rest) := by
  have hp : s.parent id = some p := (hs.mem_children p id).mp (by simp [h])
  obtain ⟨t, ht⟩ := exists_setValue first (Store.contains_of_parent hp)
  have hset := setsValue ht
  obtain ⟨ids, hids⟩ := (hs.setValue ht).splices_withSiblings
    ((hset.shape.children p).trans h) l rest
  refine ⟨t, ids, ht, ?_⟩
  rw [← hset.shape.parent] at hp
  rw [← hset.label] at hl
  simpa [Store.withValues, ht, hp, hl] using hids

/-! ## What was written -/

/-- What writing values from a node on does: the first is its value, and new siblings right after it
have the others. -/
structure WritesFrom (s : Store) (p : NodeId) (l : String) (id : NodeId) (ids : List NodeId)
    (values : List (Option String)) (t : Store) : Prop where
  parent : s.parent id = some p
  label : s.label id = some l
  fresh : ∀ c ∈ ids, s.contains c = false
  values : (id :: ids).map t.value = values
  others : ∀ c, s.contains c = true → c ≠ id → t.value c = s.value c
  children : ∃ left right, s.children p = left ++ id :: right ∧
    t.children p = left ++ (id :: ids) ++ right
  position : (s.labelled p l)[s.position id - 1]? = some id ∧ 0 < s.position id
  labelled : t.labelled p l =
    (s.labelled p l).take (s.position id - 1) ++ (id :: ids) ++
      (s.labelled p l).drop (s.position id)

/-- What writing values to new siblings does: they stand right after the last one with the label, or
at the end when there is none. -/
structure WritesLast (s : Store) (p : NodeId) (l : String) (ids : List NodeId)
    (values : List (Option String)) (t : Store) : Prop where
  parent : ∀ c ∈ ids, t.parent c = some p
  fresh : ∀ c ∈ ids, s.contains c = false
  values : ids.map t.value = values
  others : ∀ c, s.contains c = true → t.value c = s.value c
  children : ∃ left right, s.EndsLabelled p l left right ∧ t.children p = left ++ ids ++ right
  labelled : t.labelled p l = s.labelled p l ++ ids

theorem WellFormed.writesFrom (hs : s.WellFormed) (hp : s.parent id = some p)
    (hl : s.label id = some l) (first : Option String) (rest : List (Option String)) :
    ∃ ids, s.WritesFrom p l id ids (first :: rest) (s.withValues id first rest) := by
  obtain ⟨left, right, hcs⟩ := hs.exists_children_eq hp
  obtain ⟨t, ids, ht, h⟩ := hs.splices_withValues hcs hl first rest
  have hset := setsValue ht
  have hc : t.contains id = true := by
    rw [hset.shape.contains]
    exact Store.contains_of_parent hp
  have hposition := hs.position_of_children hcs hl
  have hold : s.labelled p l = (left.filter fun c => s.label c = some l) ++
      id :: right.filter fun c => s.label c = some l := by
    rw [labelled, hcs, List.filter_append, List.filter_cons_of_pos (by simpa using hl)]
  refine ⟨ids, hp, hl, ?_, ?_, ?_, ⟨left, right, hcs, by rw [h.children]; simp⟩, ?_, ?_⟩
  · intro c hc
    rw [← hset.shape.contains]
    exact h.fresh c hc
  · rw [List.map_cons, h.values, h.extends_p.value id hc, hset.value, if_pos rfl]
  · intro c hcs hne
    rw [← hset.shape.contains] at hcs
    rw [h.extends_p.value c hcs, hset.value, if_neg hne]
  · rw [hposition, hold]
    simp
  · rw [h.labelled (hs.setValue ht), hposition, hold]
    simp [hset.label, hl, List.drop_append]

theorem Splices.writesLast (h : s.Splices p l left right ids values t) (hs : s.WellFormed)
    (hends : s.EndsLabelled p l left right) : s.WritesLast p l ids values t where
  parent c hc := (h.extends_p.wellFormed.mem_children p c).mp (by rw [h.children]; simp [hc])
  fresh := h.fresh
  values := h.values
  others := h.extends_p.value
  children := ⟨left, right, hends, h.children⟩
  labelled := by rw [h.labelled hs, hends.labelled.1, hends.labelled.2, List.append_nil]

end LabelTree.Store
