import LabelTree.Proofs.Checked.Path

/-!
# Errors — the mark in a path

The record of a path error shows the path with a mark at the offset of the fault. The offset may
belong to another text: it may point into a character of the path or past its end. The mark stands
behind the longest beginning of the path that takes no more bytes than the offset says, so the path
is cut between characters and nothing of it is lost (`EngineError.details_mark_cut`).
-/

namespace LabelTree

namespace Text

variable {n : Nat} {before rest cs : List Char}

/-! ## Bytes of strings -/

theorem utf8ByteSize_ofList (cs : List Char) : (String.ofList cs).utf8ByteSize = byteLength cs := by
  induction cs with
  | nil => rfl
  | cons c cs ih =>
    have hsplit : String.ofList (c :: cs) = String.singleton c ++ String.ofList cs := by
      rw [String.singleton_eq_ofList, ← String.ofList_append]
      rfl
    rw [hsplit, String.utf8ByteSize_append, String.utf8ByteSize_singleton, ih, byteLength]

theorem byteLength_toList (s : String) : byteLength s.toList = s.utf8ByteSize := by
  rw [← utf8ByteSize_ofList, String.ofList_toList]

/-! ## The longest beginning -/

theorem byteLength_splitAtByte_le (n : Nat) (cs : List Char) :
    byteLength (splitAtByte n cs).1 ≤ n := by
  induction cs generalizing n with
  | nil => exact Nat.zero_le n
  | cons c cs ih =>
    rw [splitAtByte]
    by_cases hle : c.utf8Size ≤ n
    · have htail := ih (n - c.utf8Size)
      rw [if_pos hle, byteLength]
      omega
    · rw [if_neg hle]
      exact Nat.zero_le n

/-- A beginning that takes at most `n` bytes is part of what is cut off. -/
theorem prefix_splitAtByte (hcs : before ++ rest = cs) (hle : byteLength before ≤ n) :
    before <+: (splitAtByte n cs).1 := by
  induction before generalizing n cs with
  | nil => exact List.nil_prefix
  | cons c before ih =>
    subst hcs
    rw [byteLength] at hle
    rw [List.cons_append, splitAtByte, if_pos (by omega)]
    exact List.cons_prefix_cons.mpr ⟨rfl, ih rfl (by omega)⟩

end Text

namespace EngineError

/-- What is recorded of a path error, for any path and any offset: the mark stands behind the
longest beginning of the path that takes at most as many bytes as the offset says, and the offset is
kept as it is. Going back from the offset to a place between two characters meets one there. -/
theorem details_mark_cut (path : String) (fault : PathFault) (offset : Nat) :
    ∃ left right : String, left ++ right = path ∧ left.utf8ByteSize ≤ offset ∧
      (∀ before rest : String, before ++ rest = path → before.utf8ByteSize ≤ offset →
        before.toList <+: left.toList) ∧
      ErrorInfo.ofError (.invalidPath path ⟨fault, offset⟩) =
        ⟨.invalidPath, left ++ "|=|" ++ right ++ " (" ++ fault.message ++ ")", some offset⟩ ∧
      Checked.details (.invalidPath path ⟨fault, offset⟩) =
        some (left ++ "|=|" ++ right ++ " (" ++ fault.message ++ ")") := by
  refine ⟨String.ofList (Text.splitAtByte offset path.toList).1,
    String.ofList (Text.splitAtByte offset path.toList).2, ?_, ?_, ?_, rfl, Checked.details_eq _⟩
  · rw [← String.ofList_append, Text.splitAtByte_append, String.ofList_toList]
  · rw [Text.utf8ByteSize_ofList]
    exact Text.byteLength_splitAtByte_le offset path.toList
  · intro before rest hpath hle
    rw [← Text.byteLength_toList] at hle
    rw [String.toList_ofList]
    exact Text.prefix_splitAtByte (by rw [← hpath, String.toList_append]) hle

/-- Inside a character the mark stands before it. -/
example : details (.invalidPath "aéb" ⟨.emptyStep, 2⟩) = "a|=|éb (empty step between slashes)" := by
  decide

end EngineError

end LabelTree
