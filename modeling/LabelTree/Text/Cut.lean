/-!
# Text: where it is cut

Offsets into a text count the bytes of its UTF-8 form. `byteLength` measures a list of characters,
and `splitAtByte` cuts it at an offset without cutting a character.

A line ends at a line feed, and a carriage return right before that line feed belongs to the ending.
What follows the last line feed is a line too, unless it is empty.

Fields stand between separators. A text without separator is one field.
-/

namespace LabelTree.Text

/-! ## Bytes -/

/-- Number of bytes that `cs` takes in UTF-8. -/
def byteLength : List Char → Nat
  | [] => 0
  | c :: cs => c.utf8Size + byteLength cs

/-- Cuts `cs` after the longest beginning of whole characters that takes at most `n` bytes. -/
def splitAtByte (n : Nat) : List Char → List Char × List Char
  | [] => ([], [])
  | c :: cs =>
    if c.utf8Size ≤ n then
      let (left, right) := splitAtByte (n - c.utf8Size) cs
      (c :: left, right)
    else ([], c :: cs)

@[simp] theorem byteLength_append (cs ds : List Char) :
    byteLength (cs ++ ds) = byteLength cs + byteLength ds := by
  induction cs with
  | nil => simp [byteLength]
  | cons c cs ih => simp [byteLength, ih, Nat.add_assoc]

theorem splitAtByte_append (n : Nat) (cs : List Char) :
    (splitAtByte n cs).1 ++ (splitAtByte n cs).2 = cs := by
  induction cs generalizing n with
  | nil => rfl
  | cons c cs ih =>
    rw [splitAtByte]
    split
    · simp [ih]
    · rfl

theorem splitAtByte_byteLength (cs ds : List Char) :
    splitAtByte (byteLength cs) (cs ++ ds) = (cs, ds) := by
  induction cs with
  | nil =>
    cases ds with
    | nil => rfl
    | cons d ds =>
      have hd : ¬ d.utf8Size ≤ 0 := Nat.not_le.mpr d.utf8Size_pos
      simp [byteLength, splitAtByte, hd]
  | cons c cs ih => simp [byteLength, splitAtByte, ih]

/-! ## Lines -/

/-- The lines of a list of characters, without their endings. -/
def splitLines : List Char → List (List Char)
  | [] => []
  | '\n' :: cs => [] :: splitLines cs
  | '\r' :: '\n' :: cs => [] :: splitLines cs
  | c :: cs =>
    match splitLines cs with
    | [] => [[c]]
    | line :: rest => (c :: line) :: rest

/-- The lines of a text, without their endings. -/
def lines (s : String) : List String :=
  (splitLines s.toList).map String.ofList

example : lines "a\r\n\nb\r" = ["a", "", "b\r"] := by decide

/-! ## Fields -/

/-- The fields of a list of characters. -/
def splitFields (separator : Char) : List Char → List (List Char)
  | [] => [[]]
  | c :: cs =>
    if c = separator then [] :: splitFields separator cs
    else
      match splitFields separator cs with
      | [] => [[c]]
      | field :: rest => (c :: field) :: rest

/-- The fields of a text that are not empty. -/
def fields (separator : Char) (s : String) : List String :=
  ((splitFields separator s.toList).filter fun field => !field.isEmpty).map String.ofList

example : fields ':' "/a::/b:" = ["/a", "/b"] := by decide

end LabelTree.Text
