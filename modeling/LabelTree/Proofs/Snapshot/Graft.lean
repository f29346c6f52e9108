import LabelTree.Proofs.Store.Effect
import LabelTree.Snapshot.Graft

/-!
# Snapshot — what a graft keeps

A graft makes nodes one at a time, each a last child that is given its value at once. What each of
these steps keeps the whole graft keeps (`graft_keeps`); the steps may rely on the labels, which are
those below the top of the snapshot.
-/

namespace LabelTree

namespace Snapshot

mutual

/-- The labels below the top, in document order. -/
def labelsBelow : Snapshot → List String
  | ⟨_, _, children⟩ => labelsAmong children

/-- The labels of `children` and of everything below them. -/
def labelsAmong : List Snapshot → List String
  | [] => []
  | child :: rest => child.label :: (child.labelsBelow ++ labelsAmong rest)

end

mutual

theorem isPlainLabel_of_firstBadLabel : ∀ {snapshot : Snapshot},
    snapshot.firstBadLabel = none → ∀ l ∈ snapshot.labelsBelow, isPlainLabel l = true
  | ⟨_, _, children⟩, h => by
    rw [firstBadLabel] at h
    rw [labelsBelow]
    exact isPlainLabel_of_firstBadAmong h

theorem isPlainLabel_of_firstBadAmong : ∀ {children : List Snapshot},
    firstBadAmong children = none → ∀ l ∈ labelsAmong children, isPlainLabel l = true
  | [], _ => by simp [labelsAmong]
  | child :: rest, h => by
    rw [firstBadAmong] at h
    split at h
    · rename_i hl
      split at h
      · cases h
      · rename_i hc
        have hchild := isPlainLabel_of_firstBadLabel hc
        have hrest := isPlainLabel_of_firstBadAmong h
        intro l hmem
        rcases List.mem_cons.mp hmem with rfl | hmem
        · exact hl
        · rcases List.mem_append.mp hmem with hmem | hmem
          · exact hchild l hmem
          · exact hrest l hmem
    · cases h

end

mutual

/-- The first label that is not plain is the first of those below the top. -/
theorem firstBadLabel_eq_find? : ∀ (snapshot : Snapshot),
    snapshot.firstBadLabel = snapshot.labelsBelow.find? fun l => !isPlainLabel l
  | ⟨_, _, children⟩ => by
    rw [firstBadLabel, labelsBelow]
    exact firstBadAmong_eq_find? children

theorem firstBadAmong_eq_find? : ∀ (children : List Snapshot),
    firstBadAmong children = (labelsAmong children).find? fun l => !isPlainLabel l
  | [] => rfl
  | child :: rest => by
    have hchild := firstBadLabel_eq_find? child
    have hrest := firstBadAmong_eq_find? rest
    rw [firstBadAmong, labelsAmong, List.find?_cons, List.find?_append, ← hchild, ← hrest]
    cases isPlainLabel child.label with
    | false => rfl
    | true => cases child.firstBadLabel <;> rfl

end

end Snapshot

namespace Store

/-- That making a last child with a good label and giving it a value keeps `P`. -/
def AppendKeeps (P : Store → Prop) (good : String → Prop) : Prop :=
  ∀ {s p l v id s'}, P s → good l → s.appendChild p l = some (id, s') →
    P ((s'.setValue id v).getD s')

variable {P : Store → Prop} {good : String → Prop}

theorem appendTops_keeps (step : AppendKeeps P good) :
    ∀ {children : List Snapshot} {s : Store} {parent : NodeId}, P s →
      (∀ l ∈ Snapshot.labelsAmong children, good l) → P (s.appendTops parent children).2
  | [], s, parent, hs, _ => hs
  | child :: rest, s, parent, hs, hl => by
    have hrest : ∀ l ∈ Snapshot.labelsAmong rest, good l := by
      intro l hmem
      exact hl l (by simp [Snapshot.labelsAmong, hmem])
    rw [appendTops]
    split
    · exact appendTops_keeps step hs hrest
    · rename_i id s' ha
      exact appendTops_keeps step (step hs (hl _ (by simp [Snapshot.labelsAmong])) ha) hrest

mutual

theorem graft_keeps (step : AppendKeeps P good) :
    ∀ {snapshot : Snapshot} {s : Store} {parent : NodeId}, P s →
      (∀ l ∈ snapshot.labelsBelow, good l) → P (s.graft parent snapshot).2
  | ⟨_, _, children⟩, s, parent, hs, hl => by
    rw [Snapshot.labelsBelow] at hl
    rw [graft]
    exact graftBelow_keeps step (appendTops_keeps step hs hl) hl

theorem graftBelow_keeps (step : AppendKeeps P good) :
    ∀ {children : List Snapshot} {s : Store} {ids : List (Option NodeId)}, P s →
      (∀ l ∈ Snapshot.labelsAmong children, good l) → P (s.graftBelow ids children).2
  | child :: rest, s, some id :: ids, hs, hl => by
    have hrest : ∀ l ∈ Snapshot.labelsAmong rest, good l := by
      intro l hmem
      exact hl l (by simp [Snapshot.labelsAmong, hmem])
    have hchild : ∀ l ∈ child.labelsBelow, good l := by
      intro l hmem
      exact hl l (by simp [Snapshot.labelsAmong, hmem])
    rw [graftBelow]
    exact graft_keeps step (graftBelow_keeps step hs hrest) hchild
  | child :: rest, s, none :: ids, hs, hl => by
    rw [graftBelow]
    refine graftBelow_keeps step hs ?_
    intro l hmem
    exact hl l (by simp [Snapshot.labelsAmong, hmem])
  | [], s, ids, hs, _ => by
    cases ids <;> simpa [graftBelow] using hs
  | _ :: _, s, [], hs, _ => by simpa [graftBelow] using hs

end

end Store

end LabelTree
