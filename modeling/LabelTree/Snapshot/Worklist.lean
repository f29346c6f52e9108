import LabelTree.Snapshot.Graft
import Mathlib.Algebra.Order.BigOperators.Group.List
import Mathlib.Algebra.Order.Ring.Nat

/-!
# Grafting with a stack

The order in which a graft makes nodes, said with an explicit stack: it holds the copies whose
children are still to be made, each with what it is a copy of. The children of the copy on top are
made, and come onto the stack the last of them first.
-/

namespace LabelTree

/-- Number of nodes of the snapshots on a stack. -/
def Snapshot.sizeStack (stack : List (NodeId × Snapshot)) : Nat :=
  (stack.map fun entry => entry.2.size).sum

/-- The copies that were made, each with what it is a copy of. -/
def Snapshot.copied : List (Option NodeId) → List Snapshot → List (NodeId × Snapshot)
  | some id :: ids, child :: rest => (id, child) :: copied ids rest
  | none :: ids, _ :: rest => copied ids rest
  | _, _ => []

theorem Snapshot.sizeStack_copied_le : ∀ (ids : List (Option NodeId)) (children : List Snapshot),
    sizeStack (copied ids children) ≤ sizeAll children
  | some id :: ids, child :: rest => by
    have hrest := sizeStack_copied_le ids rest
    simp only [sizeStack, copied, List.map_cons, List.sum_cons, sizeAll] at hrest ⊢
    omega
  | none :: ids, _ :: rest => by
    have hrest := sizeStack_copied_le ids rest
    rw [copied, sizeAll]
    omega
  | [], _ => by simp [sizeStack, copied]
  | _ :: _, [] => by simp [sizeStack, copied]

/-- Makes what is below the tops of the snapshots on a stack. Answers the number of nodes made. -/
def Store.graftStack (s : Store) : List (NodeId × Snapshot) → Nat × Store
  | [] => (0, s)
  | (parent, ⟨_, _, children⟩) :: stack =>
    let (ids, s) := s.appendTops parent children
    let made := Snapshot.copied ids children
    let (n, s) := s.graftStack (made.reverse ++ stack)
    (made.length + n, s)
  termination_by stack => Snapshot.sizeStack stack
  decreasing_by
    rename_i ids _ _
    have hmade := Snapshot.sizeStack_copied_le ids children
    simp only [Snapshot.sizeStack, List.map_append, List.map_reverse, List.sum_append,
      List.sum_reverse, List.map_cons, List.sum_cons, Snapshot.size] at hmade ⊢
    omega

end LabelTree
