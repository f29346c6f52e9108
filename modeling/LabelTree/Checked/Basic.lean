import LabelTree.Text.Cut

/-!
# Partial steps

Some steps have a domain: a subtraction must not go below zero, an index must lie in its list, and a
text can only be cut between two characters. Elsewhere these steps are made total, with some outcome
outside their domain. Here each of them answers `none` there, and the operations of the library are
followed with these steps in place of the total ones, so that an operation answers `none` as soon as
one of its steps leaves its domain.
-/

namespace LabelTree.Checked

/-- `a - b`, when that is not below zero. -/
def sub (a b : Nat) : Option Nat :=
  if b ≤ a then some (a - b) else none

theorem sub_of_le {a b : Nat} (h : b ≤ a) : sub a b = some (a - b) :=
  if_pos h

/-! ## Lists -/

variable {α : Type}

/-- Puts `a` at index `i`, which may be the one past the end. -/
def insertAt (i : Nat) (a : α) (as : List α) : Option (List α) :=
  if i ≤ as.length then some (as.insertIdx i a) else none

/-- Takes out the element at index `i`. -/
def removeAt (i : Nat) (as : List α) : Option (List α) :=
  if i < as.length then some (as.eraseIdx i) else none

/-- The elements from index `i` on, which may be the one past the end. -/
def dropFrom (i : Nat) (as : List α) : Option (List α) :=
  if i ≤ as.length then some (as.drop i) else none

theorem insertAt_of_le {i : Nat} {as : List α} (h : i ≤ as.length) (a : α) :
    insertAt i a as = some (as.insertIdx i a) :=
  if_pos h

theorem removeAt_of_lt {i : Nat} {as : List α} (h : i < as.length) :
    removeAt i as = some (as.eraseIdx i) :=
  if_pos h

theorem dropFrom_of_le {i : Nat} {as : List α} (h : i ≤ as.length) :
    dropFrom i as = some (as.drop i) :=
  if_pos h

/-! ## Texts -/

/-- Cuts a text at a byte offset. There is no cut inside a character or past the end. -/
def cutAt (n : Nat) : List Char → Option (List Char × List Char)
  | [] => if n = 0 then some ([], []) else none
  | c :: cs =>
    if n = 0 then some ([], c :: cs)
    else do
      let (left, right) ← cutAt (← sub n c.utf8Size) cs
      return (c :: left, right)

theorem cutAt_zero (cs : List Char) : cutAt 0 cs = some ([], cs) := by
  cases cs <;> rfl

theorem cutAt_of_le {n : Nat} {c : Char} (h : c.utf8Size ≤ n) (cs : List Char) :
    cutAt n (c :: cs) = (cutAt (n - c.utf8Size) cs).map fun (left, right) =>
      (c :: left, right) := by
  have hpos : 0 < c.utf8Size := c.utf8Size_pos
  rw [cutAt, if_neg (by omega), sub_of_le h]
  exact Option.map_eq_bind.symm

theorem cutAt_of_lt {n : Nat} {c : Char} (hn : n ≠ 0) (h : n < c.utf8Size) (cs : List Char) :
    cutAt n (c :: cs) = none := by
  rw [cutAt, if_neg hn, sub, if_neg (Nat.not_le_of_lt h)]
  rfl

/-- Whether a text can be cut at a byte offset. -/
def isBoundary (n : Nat) (cs : List Char) : Bool :=
  (cutAt n cs).isSome

/-- Shortens a text to `n` bytes; nothing happens to a text that is not longer. -/
def truncate (n : Nat) (cs : List Char) : Option (List Char) :=
  if Text.byteLength cs ≤ n then some cs else (cutAt n cs).map Prod.fst

example : cutAt 3 ['a', 'é', 'b'] = some (['a', 'é'], ['b']) := by decide
example : cutAt 2 ['a', 'é', 'b'] = none := by decide

end LabelTree.Checked
