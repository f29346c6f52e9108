import LabelTree.Proofs.Session.Chains
import LabelTree.Proofs.Session.Writes

/-!
# Session — the nodes made for missing steps

The steps that are missing below an anchor are made one below the other. What is there afterwards is
a strand: each of the new nodes is the only child of the one before it, and none has a value. The
first stands among the children of the anchor, after the last one with its label. A location tells
beforehand that none of this can fail (`create_missing_steps`).
-/

namespace LabelTree

variable {path : Path} {context anchor c id p : NodeId} {i : Nat} {l : String}
    {labels : List String}
  {ids : List NodeId}

namespace Store

variable {s s' t : Store} {touched : NodeId → Prop}

/-- That `ids` hang below `p` with these labels and without value, each the only child of the one
before it. -/
inductive Strand (s : Store) : NodeId → List String → List NodeId → Prop
  | nil (p : NodeId) : Strand s p [] []
  | cons {p c : NodeId} {l : String} {labels : List String} {ids : List NodeId}
    (parent : s.parent c = some p) (label : s.label c = some l) (value : s.value c = none)
    (children : s.children c = ids.head?.toList) (below : Strand s c labels ids) :
    Strand s p (l :: labels) (c :: ids)

/-- What making a node for each label does, the first below `p` and each other below the one before
it. -/
structure MakesStrand (s : Store) (p : NodeId) (labels : List String) (ids : List NodeId)
    (t : Store) :
    Prop where
  strand : t.Strand p labels ids
  nodup : ids.Nodup
  fresh : ∀ id ∈ ids, s.contains id = false
  contains : ∀ j, t.contains j = true ↔ j ∈ ids ∨ s.contains j = true
  /-- Of the nodes that there were, only `p` has other children than before. -/
  extends_p : s.Extends (· = p) t
  children : ∃ left right, s.children p = left ++ right ∧
    t.children p = left ++ ids.head?.toList ++ right ∧
    ∀ l, labels.head? = some l → s.EndsLabelled p l left right

theorem Strand.length_eq (h : s.Strand p labels ids) : ids.length = labels.length := by
  induction h with
  | nil => rfl
  | cons _ _ _ _ _ ih => rw [List.length_cons, List.length_cons, ih]

/-- A strand of at least one node has a last node. -/
theorem Strand.getLast?_eq (h : s.Strand p labels ids) (hne : labels ≠ [])
    (hlast : ids.getLast?.getD p = id) : ids.getLast? = some id := by
  cases h with
  | nil => exact absurd rfl hne
  | cons => simpa [List.getLast?_cons] using hlast

namespace MakesStrand

theorem nil (hs : s.WellFormed) (p : NodeId) : s.MakesStrand p [] [] s where
  strand := .nil p
  nodup := .nil
  fresh := by simp
  contains j := by simp
  extends_p := .refl hs _
  children := ⟨s.children p, [], by simp, by simp, by simp⟩

/-- A new child, and a strand below it. -/
theorem cons (hs : s.WellFormed) (hfirst : s.appendAfterLabel p l = some (c, s'))
    (h : s'.MakesStrand c labels ids t) : s.MakesStrand p (l :: labels) (c :: ids) t := by
  obtain ⟨left, right, hends, hmade⟩ := hs.splices_appendAfterLabel hfirst
  have hins := hs.freeExact.inserts hfirst
  have hc : s'.contains c = true := hmade.contains List.mem_cons_self
  have hp : s'.contains p = true := hmade.extends_p.contains p hmade.contains_p
  have hpc : p ≠ c := hins.ne hmade.contains_p
  have hfresh := hins.fresh
  constructor
  case strand =>
    -- the new child had no children, so the strand below it is all it has
    obtain ⟨before, after, hnone, hcs, -⟩ := h.children
    rw [hmade.leaf c List.mem_cons_self] at hnone
    obtain ⟨rfl, rfl⟩ := List.append_eq_nil_iff.mp hnone.symm
    refine .cons ?_ ?_ ?_ (by simpa using hcs) h.strand
    · rw [h.extends_p.parent c hc, hins.parent, if_pos rfl]
    · rw [h.extends_p.label c hc, hins.label, if_pos rfl]
    · rw [h.extends_p.value c hc, hins.value, if_pos rfl]
  case nodup =>
    refine List.nodup_cons.mpr ⟨fun hmem => ?_, h.nodup⟩
    rw [h.fresh c hmem] at hc
    cases hc
  case fresh =>
    intro id hid
    rcases List.mem_cons.mp hid with rfl | hid
    · exact hfresh
    · exact hmade.extends_p.fresh (h.fresh id hid)
  case contains =>
    intro j
    rw [h.contains, hins.contains, List.mem_cons, or_assoc, or_left_comm]
  case extends_p =>
    refine hmade.extends_p.trans h.extends_p ?_
    rintro j hj rfl
    rw [hfresh] at hj
    cases hj
  case children =>
    refine ⟨left, right, hends.children, ?_, ?_⟩
    · rw [h.extends_p.children p hp hpc, hmade.children]
      rfl
    · rintro l' hl
      cases hl
      exact hends

end MakesStrand

/-- A chain of new nodes is a strand, with its last node at the end. -/
theorem Chain.makesStrand (h : s.Chain p labels id t) (hs : s.WellFormed) :
    ∃ ids, ids.getLast?.getD p = id ∧ s.MakesStrand p labels ids t := by
  induction h with
  | nil s p => exact ⟨[], rfl, .nil hs p⟩
  | cons happend _ ih =>
    obtain ⟨ids, hlast, hbelow⟩ := ih (hs.insertChild happend)
    refine ⟨_ :: ids, ?_, hbelow.cons hs happend⟩
    rw [List.getLast?_cons, Option.getD_some, hlast]

theorem WellFormed.exists_chain (hs : s.WellFormed) (hp : s.contains p = true)
    (labels : List String) :
    ∃ id t, s.Chain p labels id t := by
  induction labels generalizing s p with
  | nil => exact ⟨p, s, .nil s p⟩
  | cons l rest ih =>
    obtain ⟨c, s', happend⟩ := insertChild_isSome (s.indexAfterLabel p l) l hp
    have hc : s'.contains c = true := ((hs.freeExact.inserts happend).contains c).mpr (.inl rfl)
    obtain ⟨id, t, hrest⟩ := ih (hs.insertChild happend) hc
    exact ⟨id, t, .cons happend hrest⟩

end Store

/-! ## Steps that are missing -/

/-- What a location says of the steps that are missing below its anchor, whatever node the path
starts at. -/
theorem Store.WellFormed.missing_steps {s : Store} (hs : s.WellFormed)
    (hstart : s.contains (start path context) = true)
    (h : s.locate path context = .ok (.missing anchor i)) :
    s.contains anchor = true ∧
      ∃ labels, labels ≠ [] ∧ (path.steps.drop i).map Step.newLabel? = labels.map some := by
  have hagain : start path (start path context) = start path context := by
    unfold start
    split <;> rfl
  rw [Store.locate, ← hagain] at h
  obtain ⟨hanchor, hne, hall⟩ := hs.of_locate_missing hstart h
  obtain ⟨labels, hlabels⟩ := Step.exists_labels hall
  exact ⟨hanchor, labels, Step.labels_ne_nil hne hlabels, hlabels⟩

variable {s : Session}

/-- Making the missing steps of a path succeeds. The new nodes are a strand below the anchor with
the labels of the steps, the first after the children that share its label; the last is answered and
marked, and everything else is as before. -/
theorem create_missing_steps (hs : s.store.WellFormed)
    (hstart : s.store.contains (Store.start path context) = true)
    (h : s.store.locate path context = .ok (.missing anchor i)) :
    ∃ labels ids id t, (Edit.create path anchor i).run.run s = (.ok id, t) ∧
      ids.length = path.steps.length - i ∧ 0 < ids.length ∧ ids.getLast? = some id ∧
      (path.steps.drop i).map Step.newLabel? = labels.map some ∧
      s.store.MakesStrand anchor labels ids t.store ∧ t = { s with store := t.store }.touch id := by
  obtain ⟨hanchor, labels, hne, hlabels⟩ := hs.missing_steps hstart h
  obtain ⟨id, store, hchain⟩ := hs.exists_chain hanchor labels
  obtain ⟨ids, hlast, hmade⟩ := hchain.makesStrand hs
  have hlength : ids.length = path.steps.length - i := by
    rw [hmade.strand.length_eq, ← List.length_drop, ← List.length_map Step.newLabel?, hlabels,
      List.length_map]
  have hpos : 0 < ids.length := by
    rw [hmade.strand.length_eq]
    exact List.length_pos_iff.mpr hne
  have hrun : (Edit.create path anchor i).run.run s = (.ok id, { s with store }.touch id) :=
    Edit.run_reach (.made hlabels hchain)
  exact ⟨labels, ids, id, _, hrun, hlength, hpos, hmade.strand.getLast?_eq hne hlast, hlabels,
    by simpa using hmade, by simp⟩

/-- A second node beside an existing one with its label, and one below it. -/
theorem create_missing_steps_after_sibling :
    let s := Session.create "/" none .none
    let path : Path := ⟨"/files[2]/a", true,
      [.select (.child (.exact "files")) [.position 2], .select (.child (.exact "a")) []]⟩
    s.store.locate path Store.root = .ok (.missing Store.root 0) ∧
      ∃ labels ids id t, (Edit.create path Store.root 0).run.run s = (.ok id, t) ∧ ids.length = 2 ∧
        s.store.MakesStrand Store.root labels ids t.store := by
  intro s path
  have hs : s.store.Rooted fun _ => True :=
    Session.rooted_create (fun _ _ => trivial) "/" none .none
  have hlocate : s.store.locate path Store.root = .ok (.missing Store.root 0) := rfl
  obtain ⟨labels, ids, id, t, hrun, hlength, -, -, -, hmade, -⟩ :=
    create_missing_steps hs.wellFormed
      (hs.wellFormed.contains_start path hs.wellFormed.contains_root) hlocate
  exact ⟨hlocate, labels, ids, id, t, hrun, hlength, hmade⟩

end LabelTree
