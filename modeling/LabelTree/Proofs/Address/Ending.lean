import LabelTree.Proofs.Address.Steps
import LabelTree.Proofs.Path.Joined

/-!
# Address — how addresses end

An address is that of the parent and one more step. So it ends as its last step does: in the bracket
around a position, or as the label ends, whether the label's last character is escaped or not.
-/

namespace LabelTree

/-! ## The last character of a label in writing -/

theorem getLast?_escapeLabel (label : String) :
    (escapeLabel label).toList.getLast? = label.toList.getLast? := by
  rw [escapeLabel, String.toList_ofList, Glyph.getLast?_flatMap_written, Glyph.map_char_spell]

theorem getLast?_addressStep {label : String} (hlabel : label ≠ "") (position : Option Nat) :
    (addressStep label position).toList.getLast? =
      if position.isSome then some ']' else label.toList.getLast? := by
  cases position with
  | none =>
    have hne : (escapeLabel label).toList ≠ [] := by
      intro h
      have hlast := getLast?_escapeLabel label
      rw [h, List.getLast?_nil, eq_comm, List.getLast?_eq_none_iff] at hlast
      exact hlabel (String.toList_eq_nil_iff.mp hlast)
    rw [addressStep, String.toList_append, List.getLast?_append_of_ne_nil _ hne,
      getLast?_escapeLabel]
    rfl
  | some n =>
    rw [addressStep, String.toList_append, List.getLast?_append_of_ne_nil _ (by simp)]
    rfl

/-! ## One more step -/

namespace Store

variable {s : Store} {id p : NodeId}

theorem lastStep_eq (s : Store) (id : NodeId) :
    s.lastStep id = addressStep (s.shownLabel id) (s.position? id) := rfl

theorem WellFormed.address_of_parent (hs : s.WellFormed) (hp : s.parent id = some p) :
    s.address id = (if p = root then "" else s.address p) ++ s.lastStep id := by
  have hid := hs.ne_root_of_parent hp
  rw [address, if_neg hid]
  show s.stepsDown (s.belowRoot id) = _
  rw [hs.belowRoot_of_parent hid hp, stepsDown]
  split
  · rename_i hroot
    rw [hroot, belowRoot_root, stepsDown]
  · rename_i hroot
    rw [address, if_neg hroot]
    rfl

theorem exists_toList_lastStep (s : Store) (id : NodeId) :
    ∃ cs, (s.lastStep id).toList = '/' :: cs := by
  rw [lastStep_eq]
  cases s.position? id with
  | none => exact ⟨(escapeLabel (s.shownLabel id)).toList, by simp [addressStep]⟩
  | some n =>
    exact ⟨(escapeLabel (s.shownLabel id)).toList ++ '[' :: (Nat.toDigits 10 n ++ [']']),
      by simp [addressStep]⟩

theorem belowRoot_eq_cons (hid : id ≠ root) : ∃ above, s.belowRoot id = id :: above := by
  rw [belowRoot, lineage, walkLimit, lineageUpTo, List.takeWhile_cons_of_pos (by simpa using hid)]
  exact ⟨_, rfl⟩

/-- An address is made of last steps, from the top down. -/
theorem exists_address_eq (hid : id ≠ root) :
    ∃ above, s.belowRoot id = id :: above ∧ s.address id = s.stepsDown above ++ s.lastStep id := by
  obtain ⟨above, habove⟩ := s.belowRoot_eq_cons hid
  refine ⟨above, habove, ?_⟩
  rw [address, if_neg hid]
  show s.stepsDown (s.belowRoot id) = _
  rw [habove, stepsDown]

/-- The address of a node other than the root ends as the last step does. -/
theorem getLast?_address (hid : id ≠ root) :
    (s.address id).toList.getLast? = (s.lastStep id).toList.getLast? := by
  obtain ⟨above, -, haddress⟩ := s.exists_address_eq hid
  obtain ⟨cs, hcs⟩ := s.exists_toList_lastStep id
  rw [haddress, String.toList_append, List.getLast?_append_of_ne_nil _ (by simp [hcs])]

end Store

end LabelTree
