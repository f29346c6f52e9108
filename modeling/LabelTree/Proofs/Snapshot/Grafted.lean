import LabelTree.Proofs.Snapshot.Copy
import LabelTree.Snapshot.Worklist

/-!
# Snapshot — grafting undone by copying

What a graft hangs below a node is what a copy of the node shows behind the children it had
(`graft_appends_copy`). The recursion over the snapshot carries the proof; that it makes the nodes
in the order of a stack is a statement of its own (`graftStack_cons`), by recursion over the
snapshot for the copy on top and over its children for those that come onto the stack.
-/

namespace LabelTree.Store

variable {s : Store} {p : NodeId}

/-! ## The stack -/

mutual

/-- The copy on top of the stack is finished before the others are begun. -/
theorem graftStack_cons : ∀ {s : Store} (p : NodeId) (source : Snapshot)
    (stack : List (NodeId × Snapshot)),
    s.graftStack ((p, source) :: stack) =
      ((s.graft p source).1 + ((s.graft p source).2.graftStack stack).1,
        ((s.graft p source).2.graftStack stack).2)
  | s, p, ⟨_, _, children⟩, stack => by
    have hbelow := graftStack_copied (s := (s.appendTops p children).2)
      (s.appendTops p children).1 children stack
    rw [graftStack, graft]
    exact hbelow

theorem graftStack_copied : ∀ {s : Store} (ids : List (Option NodeId)) (children : List Snapshot)
    (stack : List (NodeId × Snapshot)),
    ((Snapshot.copied ids children).length +
        (s.graftStack ((Snapshot.copied ids children).reverse ++ stack)).1,
      (s.graftStack ((Snapshot.copied ids children).reverse ++ stack)).2) =
      ((s.graftBelow ids children).1 + ((s.graftBelow ids children).2.graftStack stack).1,
        ((s.graftBelow ids children).2.graftStack stack).2)
  | s, some id :: ids, child :: rest, stack => by
    have hlater := graftStack_copied (s := s) ids rest ((id, child) :: stack)
    rw [graftStack_cons id child stack, Prod.mk.injEq] at hlater
    simp only [Snapshot.copied, List.reverse_cons, List.append_assoc, List.singleton_append,
      List.length_cons, graftBelow, Prod.mk.injEq]
    refine ⟨?_, hlater.2⟩
    omega
  | s, none :: ids, _ :: rest, stack => by
    have hlater := graftStack_copied (s := s) ids rest stack
    rw [Snapshot.copied, graftBelow]
    exact hlater
  | s, [], _, stack => by simp [Snapshot.copied, graftBelow]
  | s, _ :: _, [], stack => by simp [Snapshot.copied, graftBelow]

end

theorem graftStack_eq_graft (s : Store) (p : NodeId) (source : Snapshot) :
    s.graftStack [(p, source)] = s.graft p source := by
  rw [graftStack_cons, graftStack, Nat.add_zero]

/-! ## The number of copies -/

theorem fst_graftBelow_cons (s : Store) (id : NodeId) (ids : List (Option NodeId))
    (source : Snapshot) (rest : List Snapshot) :
    (s.graftBelow (some id :: ids) (source :: rest)).1 =
      (s.graftBelow ids rest).1 + ((s.graftBelow ids rest).2.graft id source).1 + 1 := by
  rw [graftBelow]

mutual

theorem WellFormed.fst_graft : ∀ {s : Store} {p : NodeId} (source : Snapshot), s.WellFormed →
    s.contains p = true → (s.graft p source).1 + 1 = source.size
  | s, p, ⟨_, _, children⟩, hs, hp => by
    obtain ⟨ids, hids, htops⟩ := hs.appendTops_tops hp children
    have hbelow := fst_graftBelow children htops.extends_p.wellFormed htops.tops htops.nodup
    rw [graft, Snapshot.size]
    simp only [hids]
    rw [hbelow]

theorem WellFormed.fst_graftBelow : ∀ {s : Store} {ids : List NodeId} (sources : List Snapshot),
    s.WellFormed → List.Forall₂ s.IsTop ids sources → ids.Nodup →
      (s.graftBelow (ids.map some) sources).1 = Snapshot.sizeAll sources
  | s, _, [], _, .nil, _ => by simp [graftBelow, Snapshot.sizeAll]
  | s, id :: ids, source :: rest, hs, .cons htop htops, hnodup => by
    obtain ⟨-, hnodup⟩ := List.nodup_cons.mp hnodup
    have hlater := fst_graftBelow rest hs htops hnodup
    have hkept := (hs.graftBelow_copies rest htops hnodup).1
    have hfirst := WellFormed.fst_graft source hkept.wellFormed (hkept.contains id htop.contains)
    rw [List.map_cons, fst_graftBelow_cons, Snapshot.sizeAll, ← hfirst, ← hlater]
    omega

end

/-! ## A graft -/

/-- After a graft the copy of the target is what it was, with the children of the snapshot behind
those that it had. As many nodes are made as the snapshot has below its top, in the order of a
stack, and all others are as before but for the children of the target. -/
theorem graft_appends_copy (hs : s.WellFormed) (hp : s.contains p = true) (source : Snapshot) :
    let n := (s.graft p source).1
    let t := (s.graft p source).2
    ((t.snapshot p).label = (s.snapshot p).label ∧ (t.snapshot p).value = (s.snapshot p).value ∧
        (t.snapshot p).children = (s.snapshot p).children ++ source.children) ∧
      n + 1 = source.size ∧
      (∀ j, s.contains j = true → t.contains j = true ∧ t.label j = s.label j ∧
        t.value j = s.value j ∧ t.parent j = s.parent j ∧ (j ≠ p → t.children j = s.children j)) ∧
      s.graftStack [(p, source)] = (n, t) := by
  intro n t
  obtain ⟨ids, hgraft⟩ := WellFormed.grafts source hs hp
  refine ⟨?_, WellFormed.fst_graft source hs hp, fun j hj => ?_, graftStack_eq_graft s p source⟩
  · rw [hgraft.snapshot_eq hs hp]
    exact ⟨rfl, rfl, rfl⟩
  · have h := hgraft.extends_p
    exact ⟨h.contains j hj, h.label j hj, h.value j hj, h.parent j hj, h.children j hj⟩

/-- Copies take a slot that was emptied, and what is below the later sibling is made first. -/
theorem graft_appends_copy_reused :
    let s := new.applyAll [.appendChild root "a", .appendChild root "b", .appendChild ⟨2, 0⟩ "c",
      .remove ⟨1, 0⟩]
    let source : Snapshot :=
      ⟨"", none, [⟨"d", some "1", [⟨"e", none, []⟩]⟩, ⟨"f", none, [⟨"g", some "", []⟩]⟩]⟩
    let t := (s.graft ⟨2, 0⟩ source).2
    s.WellFormed ∧ s.contains ⟨2, 0⟩ = true ∧ (s.graft ⟨2, 0⟩ source).1 = 4 ∧
      (t.children ⟨2, 0⟩ = [⟨3, 0⟩, ⟨1, 1⟩, ⟨4, 0⟩] ∧ t.children ⟨4, 0⟩ = [⟨5, 0⟩]) ∧
      (t.snapshot ⟨2, 0⟩).children = ⟨"c", none, []⟩ :: source.children := by
  intro s source t
  have hs : s.WellFormed := Reachable.wellFormed ⟨_, rfl⟩
  have hp : s.contains ⟨2, 0⟩ = true := rfl
  have hcopy : (s.snapshot ⟨2, 0⟩).children = [⟨"c", none, []⟩] := rfl
  have hsize : source.size = 5 := rfl
  obtain ⟨⟨-, -, hchildren⟩, hn, -, -⟩ := graft_appends_copy hs hp source
  rw [hcopy] at hchildren
  rw [hsize] at hn
  refine ⟨hs, hp, Nat.succ.inj hn, ⟨?_, ?_⟩, hchildren⟩
  · decide
  · decide

end LabelTree.Store
