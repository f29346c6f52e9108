import LabelTree.Checked.Resolve
import LabelTree.Proofs.Checked.Path
import LabelTree.Proofs.Resolve.Deepest

/-!
# Partial steps — resolving paths

The steps of the evaluator stay in their domains on every store, whether or not it is well-formed:
an index from the end is taken after it was compared with the number of candidates, and there is an
anchor because a set that leads nowhere further was not empty itself.
-/

namespace LabelTree.Checked

variable {s : Store} {nodes : List NodeId}

theorem narrow_eq (s : Store) (candidates : List NodeId) (predicate : Predicate) :
    narrow s candidates predicate = some (s.narrow candidates predicate) := by
  cases predicate with
  | position n =>
    cases n with
    | zero => rfl
    | succ n =>
      rw [narrow, if_neg (Nat.succ_ne_zero n), sub_of_le (Nat.le_add_left 1 n)]
      rfl
  | last back =>
    rw [narrow, Store.narrow]
    split
    · rename_i h
      rw [List.getElem?_eq_none (by simpa using h)]
      rfl
    · rename_i h
      have hlt : back < candidates.length := Nat.lt_of_not_le h
      have hi : candidates.length - 1 - back < candidates.length := by omega
      rw [sub_of_le (show 1 ≤ candidates.length by omega), List.getElem?_reverse hlt]
      simp [sub_of_le (show back ≤ candidates.length - 1 by omega), hi]
  | compare operand literal negated => rfl
  | hasChild name => rfl

theorem foldlM_narrow (s : Store) (predicates : List Predicate) (nodes : List NodeId) :
    predicates.foldlM (narrow s) nodes = some (predicates.foldl s.narrow nodes) := by
  induction predicates generalizing nodes with
  | nil => rfl
  | cons predicate predicates ih =>
    rw [List.foldlM_cons, narrow_eq]
    exact ih _

theorem candidates_eq (s : Store) (step : Step) (node : NodeId) :
    candidates s step node = some (s.candidates step node) := by
  cases step with
  | append label offset => rfl
  | select axis predicates => exact foldlM_narrow s predicates _

theorem mapM_candidates (s : Store) (step : Step) (nodes : List NodeId) :
    nodes.mapM (candidates s step) = some (nodes.map (s.candidates step)) := by
  induction nodes with
  | nil => rfl
  | cons node nodes ih => simp [candidates_eq, ih]

theorem advance_eq (s : Store) (nodes : List NodeId) (step : Step) :
    advance s nodes step = some (s.advance nodes step) := by
  simp only [advance, mapM_candidates, Store.advance, List.flatMap_def, Option.bind_eq_bind,
    Option.bind_some]
  cases step with
  | append label offset => rfl
  | select axis predicates => cases axis <;> rfl

theorem follow_eq (s : Store) (nodes : List NodeId) (steps : List Step) :
    follow s nodes steps = some (steps.foldl s.advance nodes) := by
  induction steps generalizing nodes with
  | nil => rfl
  | cons step steps ih =>
    rw [follow, advance_eq, List.foldl_cons]
    cases hnext : s.advance nodes step with
    | nil => rw [Store.foldl_advance_nil]; rfl
    | cons id ids => exact ih _

theorem resolve_eq (s : Store) (path : Path) (context : NodeId) :
    resolve s path context = some (s.resolve path context) :=
  follow_eq s _ path.steps

theorem locateFrom_eq (hne : nodes ≠ []) (i : Nat) (steps : List Step) :
    locateFrom s nodes i steps = some (s.locateFrom nodes i steps) := by
  induction steps generalizing nodes i with
  | nil => rfl
  | cons step steps ih =>
    simp only [locateFrom, advance_eq, Store.locateFrom, Option.bind_eq_bind, Option.bind_some]
    cases s.advance nodes step with
    | cons id ids => exact ih (List.cons_ne_nil id ids) (i + 1)
    | nil =>
      -- the nodes before the step are the anchor alone, or too many
      cases nodes with
      | nil => contradiction
      | cons anchor others =>
        cases others with
        | nil => cases hfault : s.firstFault? anchor i (step :: steps) <;> simp [hfault]
        | cons other others => simp

theorem locate_eq (s : Store) (path : Path) (context : NodeId) :
    locate s path context = some (s.locate path context) :=
  locateFrom_eq (List.cons_ne_nil _ _) 0 path.steps

end LabelTree.Checked
