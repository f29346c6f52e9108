import LabelTree.Proofs.Store.Runs
import Mathlib.Algebra.Order.BigOperators.Group.List
import Mathlib.Algebra.Order.Ring.Nat

/-!
# Store — how many nodes were made

The generation of a slot counts the nodes deleted from it, so the slots tell how many nodes a store
has ever made (`made`). Making a node adds one and nothing takes one away. No index and no
generation exceeds that number (`Reachable.slots_le_made`), so ids whose two numbers are wide enough
for it never wrap around.
-/

namespace LabelTree

/-- How many nodes a slot has held. -/
def Slot.made (slot : Slot) : Nat :=
  slot.generation + if slot.node.isSome then 1 else 0

namespace Store

variable {s : Store} {id : NodeId} {i : Nat} {slot : Slot} {f : Slot → Slot}

/-- How many nodes a store has made, the root and those deleted since included. -/
def made (s : Store) : Nat :=
  (s.slots.toList.map Slot.made).sum

/-! ## One slot -/

theorem sum_made_modify {slots : List Slot} (h : slots[i]? = some slot) :
    ((slots.modify i f).map Slot.made).sum + slot.made =
      (slots.map Slot.made).sum + (f slot).made := by
  induction slots generalizing i with
  | nil => simp at h
  | cons first rest ih =>
    cases i with
    | zero =>
      have hfirst : first = slot := by simpa using h
      simp only [hfirst, List.modify_zero_cons, List.map_cons, List.sum_cons]
      omega
    | succ i =>
      have hrest := ih (i := i) (by simpa using h)
      simp only [List.modify_succ_cons, List.map_cons, List.sum_cons]
      omega

/-- A change of one slot changes the number as it changes that of the slot. -/
theorem made_modify (h : s.slots[i]? = some slot) (free : List Nat) :
    (⟨s.slots.modify i f, free⟩ : Store).made + slot.made = s.made + (f slot).made := by
  rw [made, made, Array.toList_modify]
  exact sum_made_modify (by simpa using h)

theorem made_modifyNode (s : Store) (id : NodeId) (g : Node → Node) :
    (s.modifyNode id g).made = s.made := by
  cases h : s.slots[id.index]? with
  | none =>
    have hsize : s.slots.size ≤ id.index := Array.getElem?_eq_none_iff.mp h
    rw [made, made, modifyNode, Array.toList_modify, List.modify_eq_self (by simpa using hsize)]
  | some slot =>
    have hmade := made_modify (f := fun slot =>
      if slot.generation = id.generation then { slot with node := slot.node.map g }
      else slot) h s.free
    have hslot : (if slot.generation = id.generation then { slot with node := slot.node.map g }
        else slot).made = slot.made := by
      split <;> simp [Slot.made]
    rw [modifyNode]
    omega

theorem made_release (s : Store) (id : NodeId) : (s.release id).made = s.made := by
  by_cases hc : s.contains id = true
  · obtain ⟨n, hn⟩ := contains_iff.mp hc
    have hmade := made_modify (f := fun slot => ⟨slot.generation + 1, none⟩)
      (node?_eq_some_iff.mp hn) (id.index :: s.free)
    simp only [Slot.made] at hmade
    rw [release, if_pos hc]
    simpa using hmade
  · rw [release, if_neg hc]

theorem FreeExact.made_alloc (h : s.FreeExact) (node : Node) :
    (s.alloc node).2.made = s.made + 1 := by
  obtain ⟨i, g, rest, -, hslot, ha⟩ | ⟨-, ha⟩ := h.alloc_cases node
  · have hmade := made_modify (f := fun slot => { slot with node := some node }) hslot rest
    simp only [Slot.made] at hmade
    rw [ha]
    simpa [Nat.add_comm, Nat.add_assoc] using hmade
  · rw [ha]
    simp [made, Slot.made]

theorem FreeExact.made_insertChild {p : NodeId} {l : String} {t : Store} (hs : s.FreeExact)
    (h : s.insertChild p i l = some (id, t)) : t.made = s.made + 1 := by
  rw [insertChild] at h
  split at h
  · simp only [Option.some.injEq, Prod.mk.injEq] at h
    obtain ⟨-, rfl⟩ := h
    rw [linkChild, made_modifyNode, hs.made_alloc]
  · cases h

theorem made_editKept (n : Nat) : EditKept fun s => s.made = n where
  modifyNode id f h := (made_modifyNode _ id f).trans h
  release id h := (made_release _ id).trans h

/-! ## Runs -/

/-- A store keeps an exact free list, and has made `n` nodes or more. -/
theorem slotKept_made (n : Nat) : SlotKept fun s => s.FreeExact ∧ n ≤ s.made where
  modifyNode id g h := ⟨h.1.modifyNode id g, by rw [made_modifyNode]; exact h.2⟩
  alloc node h := ⟨h.1.alloc node, by rw [h.1.made_alloc]; exact Nat.le_succ_of_le h.2⟩
  release id h := ⟨h.1.release id, by rw [made_release]; exact h.2⟩

/-- That every slot has held a node. -/
def AllUsed (s : Store) : Prop :=
  ∀ slot ∈ s.slots.toList, 0 < slot.made

theorem AllUsed.modify (hs : s.AllUsed) (hf : ∀ slot, slot.made ≤ (f slot).made) (i : Nat)
    (free : List Nat) : AllUsed ⟨s.slots.modify i f, free⟩ := by
  intro slot hslot
  rw [Array.toList_modify, List.mem_iff_getElem?] at hslot
  obtain ⟨k, hk⟩ := hslot
  rw [List.getElem?_modify] at hk
  obtain ⟨old, hold, rfl⟩ := Option.map_eq_some_iff.mp hk
  have hpos := hs old (List.mem_of_getElem? hold)
  split
  · exact Nat.lt_of_lt_of_le hpos (hf old)
  · exact hpos

theorem allUsed_slotKept : SlotKept AllUsed where
  modifyNode id g h := by
    refine h.modify (fun slot => ?_) id.index _
    split <;> simp [Slot.made]
  alloc {s} node h := by
    rw [alloc]
    split
    · refine h.modify (fun slot => ?_) _ _
      simp only [Slot.made, Option.isSome_some, if_true]
      split <;> omega
    · intro slot hslot
      rw [Array.toList_push, List.mem_append, List.mem_singleton] at hslot
      rcases hslot with hold | rfl
      · exact h slot hold
      · exact Nat.zero_lt_one
  release {s} id h := by
    rw [release]
    split
    · refine h.modify (fun slot => ?_) _ _
      simp only [Slot.made]
      split <;> simp
    · exact h

theorem AllUsed.size_le_made (hs : s.AllUsed) : s.slots.size ≤ s.made := by
  have hone : ∀ n ∈ s.slots.toList.map Slot.made, 1 ≤ n := by
    intro n hn
    obtain ⟨slot, hslot, rfl⟩ := List.mem_map.mp hn
    exact hs slot hslot
  simpa [made] using List.length_le_sum_of_one_le _ hone

theorem slot_made_le (h : slot ∈ s.slots.toList) : slot.made ≤ s.made :=
  List.single_le_sum (fun _ _ => Nat.zero_le _) _ (List.mem_map_of_mem h)

/-- A store never forgets that a node was made. -/
theorem Reachable.made_le (h : s.Reachable) (changes : List Change) :
    s.made ≤ (s.applyAll changes).made :=
  ((slotKept_made s.made).kept.applyAll ⟨h.wellFormed.freeExact, Nat.le_refl _⟩ changes).2

/-- There are no more slots than nodes were made, and no generation is greater than their number. -/
theorem Reachable.slots_le_made (h : s.Reachable) :
    s.slots.size ≤ s.made ∧ ∀ slot ∈ s.slots.toList, slot.generation ≤ s.made := by
  obtain ⟨changes, rfl⟩ := h
  have hnew : new.AllUsed := by
    intro slot hslot
    cases List.mem_singleton.mp hslot
    exact Nat.zero_lt_one
  have hused := allUsed_slotKept.kept.applyAll hnew changes
  refine ⟨hused.size_le_made, fun slot hslot => ?_⟩
  exact Nat.le_trans (Nat.le_add_right _ _) (slot_made_le hslot)

end Store

end LabelTree
