import LabelTree.Proofs.Snapshot.Subtree
import LabelTree.Proofs.Store.Grow
import LabelTree.Proofs.Store.Runs
import Mathlib.Data.List.Forall2

/-!
# Snapshot — a graft copies

After a graft the copy of the target has the children that it had and, after them, those of the
snapshot (`Grafts.snapshot_eq`). Only the target and new nodes gain children, and a subtree that
none of these lies in is copied as before (`Extends.snapshot_eq`).
-/

namespace LabelTree.Store

variable {s s' t : Store} {id p : NodeId} {l : String} {v : Option String}
  {touched later : NodeId → Prop}

/-! ## Stores with more nodes -/

/-- A store with more nodes, in which only nodes that are touched have other children than
before. -/
structure Extends (s : Store) (touched : NodeId → Prop) (s' : Store) : Prop where
  wellFormed : s'.WellFormed
  contains : ∀ j, s.contains j = true → s'.contains j = true
  label : ∀ j, s.contains j = true → s'.label j = s.label j
  value : ∀ j, s.contains j = true → s'.value j = s.value j
  parent : ∀ j, s.contains j = true → s'.parent j = s.parent j
  children : ∀ j, s.contains j = true → ¬ touched j → s'.children j = s.children j

namespace Extends

theorem refl (hs : s.WellFormed) (touched : NodeId → Prop) : s.Extends touched s :=
  ⟨hs, fun _ hj => hj, fun _ _ => rfl, fun _ _ => rfl, fun _ _ => rfl, fun _ _ _ => rfl⟩

/-- Nodes touched later matter as far as the first store has them. -/
theorem trans (h : s.Extends touched t) (h' : t.Extends later s')
    (hlater : ∀ j, s.contains j = true → later j → touched j) : s.Extends touched s' where
  wellFormed := h'.wellFormed
  contains j hj := h'.contains j (h.contains j hj)
  label j hj := (h'.label j (h.contains j hj)).trans (h.label j hj)
  value j hj := (h'.value j (h.contains j hj)).trans (h.value j hj)
  parent j hj := (h'.parent j (h.contains j hj)).trans (h.parent j hj)
  children j hj hout :=
    (h'.children j (h.contains j hj) fun hl => hout (hlater j hj hl)).trans (h.children j hj hout)

theorem mono (h : s.Extends touched s') (hlater : ∀ j, touched j → later j) :
    s.Extends later s' :=
  { h with children := fun j hj hout => h.children j hj fun ht => hout (hlater j ht) }

theorem isWithin (h : s.Extends touched s') (hs : s.WellFormed) (hid : s.contains id = true)
    (a : NodeId) : s'.isWithin id a = s.isWithin id a :=
  hs.isWithin_congr h.wellFormed h.parent a hid

theorem fresh (h : s.Extends touched s') (hid : s'.contains id = false) :
    s.contains id = false := by
  rw [← Bool.not_eq_true]
  intro hold
  rw [h.contains id hold] at hid
  cases hid

/-- A subtree that holds no touched node is copied as before. -/
theorem snapshot_eq (h : s.Extends touched s') (hs : s.WellFormed) (hid : s.contains id = true)
    (hout : ∀ j, s.contains j = true → touched j → s.isWithin j id = false) :
    s'.snapshot id = s.snapshot id := by
  refine hs.snapshot_congr h.wellFormed hid fun j hj hjid => ⟨h.label j hj, h.value j hj, ?_⟩
  refine h.children j hj fun ht => ?_
  rw [hout j hj ht] at hjid
  cases hjid

end Extends

theorem WellFormed.extends_insertChild {i : Nat} (hs : s.WellFormed)
    (h : s.insertChild p i l = some (id, t)) : s.Extends (· = p) t := by
  have hins := hs.freeExact.inserts h
  have hne : ∀ j, s.contains j = true → j ≠ id := fun j hj => ne_of_contains hj hins.fresh
  constructor
  case wellFormed => exact hs.insertChild h
  case contains =>
    intro j hj
    exact (hins.contains j).mpr (.inr hj)
  case label =>
    intro j hj
    rw [hins.label, if_neg (hne j hj)]
  case value =>
    intro j hj
    rw [hins.value, if_neg (hne j hj)]
  case parent =>
    intro j hj
    rw [hins.parent, if_neg (hne j hj)]
  case children =>
    intro j hj hjp
    rw [hins.children, if_neg (hne j hj), if_neg hjp]

/-- A new node is given a value. -/
theorem Extends.setValue (h : s.Extends touched t) (hid : s.contains id = false)
    (hv : t.setValue id v = some s') : s.Extends touched s' where
  wellFormed := h.wellFormed.setValue hv
  contains j hj := ((setsValue hv).shape.contains j).trans (h.contains j hj)
  label j hj := ((setsValue hv).label j).trans (h.label j hj)
  value j hj := by
    rw [(setsValue hv).value, if_neg (ne_of_contains hj hid)]
    exact h.value j hj
  parent j hj := ((setsValue hv).shape.parent j).trans (h.parent j hj)
  children j hj hout := ((setsValue hv).shape.children j).trans (h.children j hj hout)

/-! ## One copy -/

/-- Whether a node is a copy of the top of `source` alone. -/
structure IsTop (s : Store) (id : NodeId) (source : Snapshot) : Prop where
  contains : s.contains id = true
  label : s.label id = some source.label
  value : s.value id = source.value
  children : s.children id = []

theorem IsTop.extends {source : Snapshot} (h : s.IsTop id source) (he : s.Extends touched s')
    (hid : ¬ touched id) : s'.IsTop id source where
  contains := he.contains id h.contains
  label := (he.label id h.contains).trans h.label
  value := (he.value id h.contains).trans h.value
  children := (he.children id h.contains hid).trans h.children

theorem exists_isTop {ids : List NodeId} {sources : List Snapshot}
    (h : List.Forall₂ s.IsTop ids sources) (hid : id ∈ ids) : ∃ source, s.IsTop id source := by
  induction h with
  | nil => cases hid
  | cons htop _ ih =>
    rcases List.mem_cons.mp hid with rfl | hid
    · exact ⟨_, htop⟩
    · exact ih hid

/-- What making copies of the tops of `sources` below `p` does. -/
structure Tops (s : Store) (p : NodeId) (sources : List Snapshot) (ids : List NodeId) (s' : Store) :
    Prop where
  extends_p : s.Extends (· = p) s'
  children : s'.children p = s.children p ++ ids
  fresh : ∀ id ∈ ids, s.contains id = false
  tops : List.Forall₂ s'.IsTop ids sources

theorem Tops.nodup {sources : List Snapshot} {ids : List NodeId} (h : s.Tops p sources ids s') :
    ids.Nodup := by
  have hchildren := h.extends_p.wellFormed.nodup_children p
  rw [h.children] at hchildren
  exact (List.nodup_append.mp hchildren).2.1

/-- A last child is made and given its value. -/
theorem WellFormed.appendChild_top (hs : s.WellFormed) (hp : s.contains p = true)
    (source : Snapshot) :
    ∃ id t, s.appendChild p source.label = some (id, t) ∧
      s.Tops p [source] [id] ((t.setValue id source.value).getD t) := by
  obtain ⟨id, t, hi⟩ := insertChild_isSome (s.children p).length source.label hp
  have hins := hs.freeExact.inserts hi
  have hid : t.contains id = true := (hins.contains id).mpr (.inl rfl)
  obtain ⟨u, hu⟩ : ∃ u, t.setValue id source.value = some u := by simp [Store.setValue, hid]
  have hset := setsValue hu
  have hpid : p ≠ id := ne_of_contains hp hins.fresh
  refine ⟨id, t, hi, ?_⟩
  rw [hu, Option.getD_some]
  constructor
  case extends_p => exact (hs.extends_insertChild hi).setValue hins.fresh hu
  case children =>
    rw [hset.shape.children, hins.children, if_neg hpid, if_pos rfl, spliced, Nat.min_self,
      List.insertIdx_length_self]
  case fresh => simpa using hins.fresh
  case tops =>
    refine .cons ⟨?_, ?_, ?_, ?_⟩ .nil
    · rw [hset.shape.contains, hid]
    · rw [hset.label, hins.label, if_pos rfl]
    · rw [hset.value, if_pos rfl]
    · rw [hset.shape.children, hins.children, if_pos rfl]

/-! ## The tops -/

theorem appendTops_cons {source : Snapshot} (h : s.appendChild p source.label = some (id, t))
    (rest : List Snapshot) :
    s.appendTops p (source :: rest) =
      (some id :: (((t.setValue id source.value).getD t).appendTops p rest).1,
        (((t.setValue id source.value).getD t).appendTops p rest).2) := by
  rw [appendTops, h]

theorem WellFormed.appendTops_tops (hs : s.WellFormed) (hp : s.contains p = true)
    (sources : List Snapshot) :
    ∃ ids : List NodeId, (s.appendTops p sources).1 = ids.map some ∧
      s.Tops p sources ids (s.appendTops p sources).2 := by
  induction sources generalizing s with
  | nil => exact ⟨[], rfl, .refl hs _, (List.append_nil _).symm, by simp, .nil⟩
  | cons source rest ih =>
    obtain ⟨id, t, ha, hfirst⟩ := hs.appendChild_top hp source
    have htop : ((t.setValue id source.value).getD t).IsTop id source := by
      cases hfirst.tops with
      | cons htop _ => exact htop
    rw [appendTops_cons ha]
    generalize (t.setValue id source.value).getD t = u at hfirst htop ⊢
    have hpu := hfirst.extends_p.contains p hp
    obtain ⟨ids, hids, hrest⟩ := ih hfirst.extends_p.wellFormed hpu
    have hidp : id ≠ p := (ne_of_contains hp (hfirst.fresh id List.mem_cons_self)).symm
    refine ⟨id :: ids, by simp [hids], ?_⟩
    constructor
    case extends_p => exact hfirst.extends_p.trans hrest.extends_p fun _ _ hj => hj
    case children =>
      rw [hrest.children, hfirst.children, List.append_assoc, List.singleton_append]
    case fresh =>
      intro j hj
      rcases List.mem_cons.mp hj with rfl | hj
      · exact hfirst.fresh j List.mem_cons_self
      · exact hfirst.extends_p.fresh (hrest.fresh j hj)
    case tops => exact .cons (htop.extends hrest.extends_p hidp) hrest.tops

/-! ## What is below the tops -/

/-- Nothing but a node itself is below a node without children. -/
theorem WellFormed.eq_of_isWithin_leaf (hs : s.WellFormed) (hleaf : s.children p = [])
    (h : s.isWithin id p = true) : id = p := by
  induction id using hs.upward with
  | step id ih =>
    rcases hs.isWithin_iff.mp h with heq | ⟨q, hq, hqp⟩
    · exact heq
    · rw [ih q hq hqp] at hq
      have hmem := (hs.mem_children p id).mpr hq
      rw [hleaf] at hmem
      cases hmem

theorem snd_graftBelow_cons (s : Store) (id : NodeId) (ids : List (Option NodeId))
    (source : Snapshot) (rest : List Snapshot) :
    (s.graftBelow (some id :: ids) (source :: rest)).2 =
      ((s.graftBelow ids rest).2.graft id source).2 := by
  rw [graftBelow]

/-- What a graft of `sources` below `p` does. -/
structure Grafts (s : Store) (p : NodeId) (sources : List Snapshot) (ids : List NodeId)
    (s' : Store) : Prop where
  extends_p : s.Extends (· = p) s'
  children : s'.children p = s.children p ++ ids
  fresh : ∀ id ∈ ids, s.contains id = false
  copies : ids.map s'.snapshot = sources

mutual

theorem WellFormed.grafts : ∀ {s : Store} {p : NodeId} (source : Snapshot), s.WellFormed →
    s.contains p = true → ∃ ids, s.Grafts p source.children ids (s.graft p source).2
  | s, p, ⟨_, _, children⟩, hs, hp => by
    obtain ⟨ids, hids, htops⟩ := hs.appendTops_tops hp children
    obtain ⟨hbelow, hcopies⟩ :=
      graftBelow_copies children htops.extends_p.wellFormed htops.tops htops.nodup
    have hold : ∀ j, s.contains j = true → j ∉ ids := by
      intro j hj hmem
      exact ne_of_contains hj (htops.fresh j hmem) rfl
    rw [graft]
    simp only [hids]
    refine ⟨ids, ?_, ?_, htops.fresh, hcopies⟩
    · exact htops.extends_p.trans hbelow fun j hj hmem => absurd hmem (hold j hj)
    · rw [hbelow.children p (htops.extends_p.contains p hp) (hold p hp), htops.children]

/-- What is below each of some tops is copied, and the copies of the tops become whole. -/
theorem WellFormed.graftBelow_copies : ∀ {s : Store} {ids : List NodeId} (sources : List Snapshot),
    s.WellFormed → List.Forall₂ s.IsTop ids sources → ids.Nodup →
      s.Extends (· ∈ ids) (s.graftBelow (ids.map some) sources).2 ∧
        ids.map (s.graftBelow (ids.map some) sources).2.snapshot = sources
  | s, _, [], hs, .nil, _ => ⟨.refl hs _, rfl⟩
  | s, id :: ids, source :: rest, hs, .cons htop htops, hnodup => by
    obtain ⟨hid, hnodup⟩ := List.nodup_cons.mp hnodup
    obtain ⟨hlater, hcopies⟩ := graftBelow_copies rest hs htops hnodup
    rw [List.map_cons, snd_graftBelow_cons]
    generalize (s.graftBelow (ids.map some) rest).2 = t at hlater hcopies ⊢
    have htop' := htop.extends hlater hid
    obtain ⟨below, hgraft⟩ := WellFormed.grafts source hlater.wellFormed htop'.contains
    generalize (t.graft id source).2 = u at hgraft ⊢
    have hfirst : u.snapshot id = source := by
      rw [hgraft.extends_p.wellFormed.snapshot_eq, shownLabel, hgraft.children, htop'.children,
        List.nil_append, hgraft.copies, hgraft.extends_p.label id htop'.contains, htop'.label,
        hgraft.extends_p.value id htop'.contains, htop'.value]
      cases source
      rfl
    have hrest : ids.map u.snapshot = ids.map t.snapshot := by
      apply List.map_congr_left
      intro j hj
      obtain ⟨_, hj'⟩ := exists_isTop htops hj
      refine hgraft.extends_p.snapshot_eq hlater.wellFormed (hlater.contains j hj'.contains) ?_
      rintro k hk rfl
      -- tops had no children, so none of them was below another
      rw [hlater.isWithin hs htop.contains, ← Bool.not_eq_true]
      intro hw
      rw [hs.eq_of_isWithin_leaf hj'.children hw] at hid
      exact hid hj
    refine ⟨?_, by rw [List.map_cons, hfirst, hrest, hcopies]⟩
    refine (hlater.mono fun j hj => List.mem_cons_of_mem id hj).trans hgraft.extends_p ?_
    rintro j _ rfl
    exact List.mem_cons_self

end

/-- After a graft the copy of the target has the children of the snapshot after its own. -/
theorem Grafts.snapshot_eq {sources : List Snapshot} {ids : List NodeId}
    (h : s.Grafts p sources ids s') (hs : s.WellFormed) (hp : s.contains p = true) :
    s'.snapshot p = { s.snapshot p with children := (s.snapshot p).children ++ sources } := by
  have hold : (s.children p).map s'.snapshot = (s.children p).map s.snapshot := by
    apply List.map_congr_left
    intro c hc
    refine h.extends_p.snapshot_eq hs (hs.contains_of_child hc) ?_
    rintro j _ rfl
    exact hs.not_isWithin_child ((hs.mem_children j c).mp hc)
  rw [h.extends_p.wellFormed.snapshot_eq, hs.snapshot_eq, shownLabel, shownLabel,
    h.extends_p.label p hp, h.extends_p.value p hp, h.children, List.map_append, hold, h.copies]

end LabelTree.Store
