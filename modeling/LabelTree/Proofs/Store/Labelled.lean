import LabelTree.Proofs.Store.Preservation
import LabelTree.Store.Edit
import Mathlib.Data.List.TakeWhile

/-!
# Store — siblings with one label

A position counts the siblings that share a label, and one more of them is put right after the last.
Both are said here of the list of children cut in two.
-/

namespace LabelTree.Store

variable {s : Store} {id p : NodeId} {l : String} {left right : List NodeId}

/-- The children of a node that have a label. -/
def labelled (s : Store) (p : NodeId) (l : String) : List NodeId :=
  (s.children p).filter fun c => s.label c = some l

theorem labelled_eq_nil (h : s.children p = []) (l : String) : s.labelled p l = [] := by
  rw [labelled, h, List.filter_nil]

/-! ## One of the siblings -/

theorem WellFormed.not_mem_of_children (hs : s.WellFormed)
    (h : s.children p = left ++ id :: right) :
    id ∉ left := by
  have hnodup := hs.nodup_children p
  rw [h] at hnodup
  exact fun hmem => (List.nodup_append.mp hnodup).2.2 id hmem id List.mem_cons_self rfl

theorem WellFormed.exists_children_eq (hs : s.WellFormed) (hp : s.parent id = some p) :
    ∃ left right, s.children p = left ++ id :: right :=
  List.append_of_mem ((hs.mem_children p id).mpr hp)

theorem WellFormed.indexInParent_of_children (hs : s.WellFormed)
    (h : s.children p = left ++ id :: right) : s.indexInParent id = some left.length := by
  have hp : s.parent id = some p := (hs.mem_children p id).mp (by simp [h])
  have hleft : left.findIdx? (· = id) = none := by
    rw [List.findIdx?_eq_none_iff]
    intro c hc
    simpa using ne_of_mem_of_not_mem hc (hs.not_mem_of_children h)
  rw [indexInParent, hp, Option.bind_some, h, List.findIdx?_append, hleft]
  simp [List.findIdx?_cons]

theorem rank_append_of_notMem {label : String} {ids rest : List NodeId} (hid : id ∉ ids) :
    s.rank label id (ids ++ rest) =
      (ids.countP fun c => s.label c = some label) + s.rank label id rest := by
  induction ids with
  | nil => simp
  | cons c cs ih =>
    rw [List.mem_cons, not_or] at hid
    have hc : c ≠ id := Ne.symm hid.1
    rw [List.cons_append, rank, ih hid.2, List.countP_cons]
    simp only [hc, if_false, decide_eq_true_eq]
    omega

theorem WellFormed.position_of_children (hs : s.WellFormed) (h : s.children p = left ++ id :: right)
    (hl : s.label id = some l) :
    s.position id = (left.filter fun c => s.label c = some l).length + 1 := by
  have hp : s.parent id = some p := (hs.mem_children p id).mp (by simp [h])
  have hnot := hs.not_mem_of_children h
  rw [position, hp, hl]
  simp [h, rank_append_of_notMem hnot, rank, hl, List.countP_eq_length_filter]

/-! ## After the last of them -/

/-- The place for one more child with a label is right after the last one, or after all children. -/
structure EndsLabelled (s : Store) (p : NodeId) (l : String) (left right : List NodeId) : Prop where
  children : s.children p = left ++ right
  not_right : ∀ c ∈ right, s.label c ≠ some l
  right_of_none : s.labelled p l = [] → right = []
  last : s.labelled p l ≠ [] → left.getLast? = (s.labelled p l).getLast?

theorem EndsLabelled.labelled (h : s.EndsLabelled p l left right) :
    s.labelled p l = (left.filter fun c => s.label c = some l) ∧
      (right.filter fun c => s.label c = some l) = [] := by
  have hright : (right.filter fun c => s.label c = some l) = [] := by
    simpa [List.filter_eq_nil_iff] using h.not_right
  rw [Store.labelled, h.children, List.filter_append, hright, List.append_nil]
  exact ⟨rfl, rfl⟩

theorem exists_endsLabelled (s : Store) (p : NodeId) (l : String) :
    ∃ left right, s.EndsLabelled p l left right ∧ s.indexAfterLabel p l = left.length := by
  have hsplit := List.takeWhile_append_dropWhile (p := fun c => s.label c ≠ some l)
    (l := (s.children p).reverse)
  have hafter : ∀ c ∈ (s.children p).reverse.takeWhile fun c => s.label c ≠ some l,
      s.label c ≠ some l := by
    intro c hc
    simpa using List.mem_takeWhile_imp hc
  unfold indexAfterLabel
  dsimp only
  generalize (s.children p).reverse.takeWhile _ = after at hsplit hafter
  cases hupTo : (s.children p).reverse.dropWhile fun c => s.label c ≠ some l with
  | nil =>
    rw [hupTo, List.append_nil] at hsplit
    have hnone : s.labelled p l = [] := by
      rw [labelled, List.filter_eq_nil_iff]
      intro c hc
      simpa using hafter c (by simpa [hsplit] using hc)
    exact ⟨s.children p, [], ⟨by simp, by simp, fun _ => rfl, fun h => absurd hnone h⟩, rfl⟩
  | cons last upTo =>
    rw [hupTo] at hsplit
    have hlast : s.label last = some l := by
      have hno := List.head?_dropWhile_not (fun c => s.label c ≠ some l) (s.children p).reverse
      rw [hupTo] at hno
      simpa using hno
    have hcs : s.children p = upTo.reverse ++ [last] ++ after.reverse := by
      rw [← List.reverse_inj, ← hsplit]
      simp
    have hright : (after.reverse.filter fun c => s.label c = some l) = [] := by
      simpa [List.filter_eq_nil_iff] using hafter
    have hlabelled :
        s.labelled p l = (upTo.reverse.filter fun c => s.label c = some l) ++ [last] := by
      rw [labelled, hcs, List.filter_append, List.filter_append, hright, List.append_nil,
        List.filter_cons_of_pos (by simpa using hlast), List.filter_nil]
    refine ⟨upTo.reverse ++ [last], after.reverse, ⟨hcs, ?_, fun h => ?_, fun _ => ?_⟩, by simp⟩
    · simpa using hafter
    · simp [hlabelled] at h
    · simp [hlabelled]

end LabelTree.Store
