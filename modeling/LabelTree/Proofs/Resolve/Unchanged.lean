import LabelTree.Proofs.Resolve.Locate
import LabelTree.Proofs.Snapshot.Copy
import LabelTree.Proofs.Store.Labelled

/-!
# Resolve — changes that a path does not see

A path without comparisons does not see values (`resolve_congr`). A path of labels and positions
goes one level down with each step, so it does not see nodes that are added below the last ones it
leads to (`foldl_advance_of_extends`).
-/

namespace LabelTree

/-- Whether a step looks at values. -/
def Step.comparesValues : Step → Bool
  | .append .. => false
  | .select _ predicates =>
    predicates.any fun
      | .compare .. => true
      | _ => false

/-- A step to the children with a label, or to one of them by its position. -/
inductive Step.Literal : Step → Prop
  | plain (label : String) : Literal (.select (.child (.exact label)) [])
  | position (label : String) (n : Nat) : Literal (.select (.child (.exact label)) [.position n])

namespace Step.Literal

variable {step : Step}

theorem isAppend (h : step.Literal) : step.isAppend = false := by
  cases h <;> rfl

theorem comparesValues (h : step.Literal) : step.comparesValues = false := by
  cases h <;> rfl

end Step.Literal

namespace Store

variable {s t : Store} {id p node : NodeId} {step : Step} {steps : List Step} {nodes : List NodeId}
  {touched : NodeId → Prop} {label : String}

/-! ## Values -/

theorem narrow_congr (hs : s.SameShape t) (hl : ∀ j, t.label j = s.label j) {predicate : Predicate}
    (h : ∀ operand literal negated, predicate ≠ .compare operand literal negated)
    (ids : List NodeId) : t.narrow ids predicate = s.narrow ids predicate := by
  cases predicate with
  | compare operand literal negated => exact absurd rfl (h operand literal negated)
  | position n => cases n <;> rfl
  | last back => rfl
  | hasChild name => simp only [narrow, hs.children, hl]

theorem candidates_congr (hs : s.SameShape t) (hl : ∀ j, t.label j = s.label j)
    (h : step.comparesValues = false) (node : NodeId) :
    t.candidates step node = s.candidates step node := by
  cases step with
  | append label offset => rfl
  | select axis predicates =>
    have haxis : t.axisNodes axis node = s.axisNodes axis node := by
      cases axis with
      | child matcher => simp only [axisNodes, hs.children, hl]
      | self => rfl
      | parent => simp only [axisNodes, hs.parent]
    simp only [Step.comparesValues, List.any_eq_false] at h
    rw [candidates, candidates, haxis]
    generalize s.axisNodes axis node = ids
    induction predicates generalizing ids with
    | nil => rfl
    | cons predicate rest ih =>
      have hfirst : ∀ operand literal negated, predicate ≠ .compare operand literal negated := by
        rintro operand literal negated rfl
        exact h _ List.mem_cons_self rfl
      rw [List.foldl_cons, List.foldl_cons, narrow_congr hs hl hfirst]
      exact ih (fun predicate hp => h predicate (List.mem_cons_of_mem _ hp)) _

theorem advance_congr (h : ∀ node ∈ nodes, t.candidates step node = s.candidates step node) :
    t.advance nodes step = s.advance nodes step := by
  have hreached : nodes.flatMap (t.candidates step) = nodes.flatMap (s.candidates step) :=
    List.flatMap_congr h
  unfold advance
  rw [hreached]

/-- Where only values differ, a path that compares none leads to the same nodes. -/
theorem resolve_congr (hs : s.SameShape t) (hl : ∀ j, t.label j = s.label j) {path : Path}
    (h : ∀ step ∈ path.steps, step.comparesValues = false) (context : NodeId) :
    t.resolve path context = s.resolve path context := by
  unfold resolve
  generalize [start path context] = nodes
  generalize path.steps = steps at h
  induction steps generalizing nodes with
  | nil => rfl
  | cons step steps ih =>
    rw [List.foldl_cons, List.foldl_cons,
      advance_congr fun node _ => candidates_congr hs hl (h step List.mem_cons_self) node]
    exact ih _ fun step hstep => h step (List.mem_cons_of_mem _ hstep)

/-! ## New nodes -/

theorem candidates_plain (s : Store) (label : String) (node : NodeId) :
    s.candidates (.select (.child (.exact label)) []) node = s.labelled node label :=
  s.axisNodes_exact label node

theorem candidates_position (s : Store) (label : String) (n : Nat) (node : NodeId) :
    s.candidates (.select (.child (.exact label)) [.position n]) node =
      s.narrow (s.labelled node label) (.position n) := by
  rw [candidates, axisNodes_exact]
  rfl

theorem Extends.labelled (h : s.Extends touched t) (hs : s.WellFormed) (hp : s.contains p = true)
    (hout : ¬ touched p) (l : String) : t.labelled p l = s.labelled p l := by
  rw [Store.labelled, h.children p hp hout]
  exact List.filter_congr fun c hc => by rw [h.label c (hs.contains_of_child hc)]

end Store

namespace Step.Literal

variable {s t : Store} {id node : NodeId} {step : Step}

/-- Which children a step selects is settled by those with its label. -/
theorem candidates_eq (h : step.Literal) (hl : ∀ l, t.labelled node l = s.labelled node l) :
    t.candidates step node = s.candidates step node := by
  cases h with
  | plain label => rw [Store.candidates_plain, Store.candidates_plain, hl]
  | position label n =>
    rw [Store.candidates_position, Store.candidates_position, hl]
    cases n <;> rfl

theorem advance_eq (h : step.Literal) (nodes : List NodeId) :
    s.advance nodes step = nodes.flatMap (s.candidates step) := by
  cases h <;> rfl

theorem mem_children (h : step.Literal) (hid : id ∈ s.candidates step node) :
    id ∈ s.children node := by
  cases h with
  | plain label => exact List.mem_of_mem_filter ((s.candidates_sublist _ _ node).subset hid)
  | position label n => exact List.mem_of_mem_filter ((s.candidates_sublist _ _ node).subset hid)

/-- A step down leads to children of the nodes that it starts from. -/
theorem exists_parent (h : step.Literal) {nodes : List NodeId} (hid : id ∈ s.advance nodes step) :
    ∃ node ∈ nodes, id ∈ s.children node := by
  rw [h.advance_eq, List.mem_flatMap] at hid
  obtain ⟨node, hnode, hid⟩ := hid
  exact ⟨node, hnode, h.mem_children hid⟩

end Step.Literal

namespace Store

variable {s t : Store} {id p : NodeId} {steps : List Step} {nodes : List NodeId}

theorem length_lineage_of_mem_foldl (hs : s.WellFormed) (hsteps : ∀ step ∈ steps, step.Literal)
    {n : Nat} (hnodes : ∀ node ∈ nodes, (s.lineage node).length = n)
    (hid : id ∈ steps.foldl s.advance nodes) : (s.lineage id).length = n + steps.length := by
  induction steps generalizing nodes n with
  | nil => exact hnodes id hid
  | cons step steps ih =>
    have hnext : ∀ node ∈ s.advance nodes step, (s.lineage node).length = n + 1 := by
      intro node hnode
      obtain ⟨q, hq, hc⟩ := (hsteps step List.mem_cons_self).exists_parent hnode
      rw [hs.length_lineage_child hc, hnodes q hq]
    have hlen := ih (fun step hstep => hsteps step (List.mem_cons_of_mem _ hstep)) hnext hid
    rw [hlen, List.length_cons]
    omega

/-- Steps down do not see what is added below a node as deep as the last ones that they lead to. -/
theorem foldl_advance_of_extends (h : s.Extends (· = p) t) (hs : s.WellFormed)
    (hsteps : ∀ step ∈ steps, step.Literal) (hnodes : ∀ node ∈ nodes, s.contains node = true)
    (hdepth : ∀ node ∈ nodes, (s.lineage node).length + steps.length = (s.lineage p).length) :
    steps.foldl t.advance nodes = steps.foldl s.advance nodes := by
  induction steps generalizing nodes with
  | nil => rfl
  | cons step steps ih =>
    have hstep := hsteps step List.mem_cons_self
    simp only [List.length_cons] at hdepth
    have hfirst : t.advance nodes step = s.advance nodes step := by
      refine advance_congr fun node hnode => hstep.candidates_eq fun l => ?_
      refine h.labelled hs (hnodes node hnode) ?_ l
      rintro rfl
      have hlen := hdepth node hnode
      omega
    rw [List.foldl_cons, List.foldl_cons, hfirst]
    refine ih (fun step hstep => hsteps step (List.mem_cons_of_mem _ hstep)) ?_ ?_
    · intro c hc
      obtain ⟨q, -, hc⟩ := hstep.exists_parent hc
      exact hs.contains_of_child hc
    · intro c hc
      obtain ⟨q, hq, hc⟩ := hstep.exists_parent hc
      have hlen := hdepth q hq
      rw [hs.length_lineage_child hc]
      omega

end Store

end LabelTree
