import LabelTree.Proofs.Resolve.Locate
import LabelTree.Proofs.Store.Prune

/-!
# Resolve — paths that lose nodes only

A path may ask of its candidates that a child with some label is there, or that a value is some
text. A node that meets such conditions when there is less of the tree meets them in the whole tree,
so deleting nodes never leads such a path to other nodes (`PartOf.resolve_subset`). Positions and
negated comparisons are different: a node can come to stand first, or lose the child that has the
text.
-/

namespace LabelTree

/-- A predicate that asks for something to be there. -/
inductive Predicate.Positive : Predicate → Prop
  | hasChild (name : String) : Positive (.hasChild name)
  | compare (operand : Operand) (literal : String) : Positive (.compare operand literal false)

/-- A step, along any axis, whose predicates ask for something to be there. -/
inductive Step.Positive : Step → Prop
  | append (label : String) (offset : Nat) : Positive (.append label offset)
  | select (axis : Axis) {predicates : List Predicate} (h : ∀ p ∈ predicates, p.Positive) :
    Positive (.select axis predicates)

namespace Store.PartOf

variable {s t : Store} {id : NodeId} {ids ids' nodes nodes' : List NodeId} {step : Step}
  {steps : List Step} {predicate : Predicate}

theorem holds (h : t.PartOf s) {operand : Operand} {literal : String}
    (hid : t.holds operand literal id = true) : s.holds operand literal id = true := by
  cases operand with
  | self =>
    simp only [Store.holds, decide_eq_true_eq] at hid ⊢
    exact h.value id literal hid
  | child name =>
    simp only [Store.holds, List.any_eq_true, Bool.and_eq_true, decide_eq_true_eq] at hid ⊢
    obtain ⟨c, hc, hl, hv⟩ := hid
    exact ⟨c, h.children id hc, h.label c name hl, h.value c literal hv⟩

theorem narrow_subset (h : t.PartOf s) (hp : predicate.Positive) (hsub : ids' ⊆ ids) :
    t.narrow ids' predicate ⊆ s.narrow ids predicate := by
  intro id hid
  cases hp with
  | hasChild name =>
    simp only [narrow, List.mem_filter, List.any_eq_true, decide_eq_true_eq] at hid ⊢
    obtain ⟨hmem, c, hc, hl⟩ := hid
    exact ⟨hsub hmem, c, h.children id hc, h.label c name hl⟩
  | compare operand literal =>
    simp only [narrow, List.mem_filter, Bool.bne_false] at hid ⊢
    exact ⟨hsub hid.1, h.holds hid.2⟩

theorem axisNodes_subset (h : t.PartOf s) (axis : Axis) (node : NodeId) :
    t.axisNodes axis node ⊆ s.axisNodes axis node := by
  intro id hid
  cases axis with
  | child matcher =>
    simp only [axisNodes, List.mem_filter, Option.any_eq_true] at hid ⊢
    obtain ⟨hmem, l, hl, haccepts⟩ := hid
    exact ⟨h.children node hmem, l, h.label id l hl, haccepts⟩
  | self => exact hid
  | parent =>
    rw [axisNodes, Option.mem_toList] at hid ⊢
    exact h.parent node id hid

theorem candidates_subset (h : t.PartOf s) (hstep : step.Positive) (node : NodeId) :
    t.candidates step node ⊆ s.candidates step node := by
  cases hstep with
  | append => exact fun _ hid => hid
  | @select axis predicates hpredicates =>
    have haxis := h.axisNodes_subset axis node
    show predicates.foldl t.narrow (t.axisNodes axis node) ⊆
      predicates.foldl s.narrow (s.axisNodes axis node)
    generalize t.axisNodes axis node = ids' at haxis ⊢
    generalize s.axisNodes axis node = ids at haxis ⊢
    induction predicates generalizing ids ids' with
    | nil => exact haxis
    | cons predicate rest ih =>
      exact ih (fun p hp => hpredicates p (List.mem_cons_of_mem _ hp)) _ _
        (h.narrow_subset (hpredicates predicate List.mem_cons_self) haxis)

/-- One step leads from fewer nodes of a part to fewer nodes. -/
theorem advance_subset (h : t.PartOf s) (hstep : step.Positive) (hsub : nodes' ⊆ nodes) :
    t.advance nodes' step ⊆ s.advance nodes step := by
  intro id hid
  obtain ⟨a, ha, hmem⟩ := mem_advance.mp hid
  exact mem_advance.mpr ⟨a, hsub ha, h.candidates_subset hstep a hmem⟩

theorem foldl_advance_subset (h : t.PartOf s) (hsteps : ∀ step ∈ steps, step.Positive)
    (hsub : nodes' ⊆ nodes) : steps.foldl t.advance nodes' ⊆ steps.foldl s.advance nodes := by
  induction steps generalizing nodes nodes' with
  | nil => exact hsub
  | cons step rest ih =>
    exact ih (fun step hstep => hsteps step (List.mem_cons_of_mem _ hstep))
      (h.advance_subset (hsteps step List.mem_cons_self) hsub)

/-- In a part of a store a path with positive steps leads to some of the nodes that it leads to in
the store. -/
theorem resolve_subset (h : t.PartOf s) {path : Path} (hsteps : ∀ step ∈ path.steps, step.Positive)
    (context : NodeId) : t.resolve path context ⊆ s.resolve path context :=
  h.foldl_advance_subset hsteps fun _ hid => hid

end Store.PartOf

/-- A position leads to the next sibling when the first one is deleted. -/
example :
    let s := Store.new.applyAll [.appendChild Store.root "a", .appendChild Store.root "a"]
    let path : Path := ⟨"/a[1]", true, [.select (.child (.exact "a")) [.position 1]]⟩
    s.resolve path Store.root = [⟨1, 0⟩] ∧
      (s.pruned [⟨1, 0⟩]).resolve path Store.root = [⟨2, 0⟩] := by
  decide

end LabelTree
