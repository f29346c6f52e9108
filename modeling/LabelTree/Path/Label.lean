import LabelTree.Text.Class
import LabelTree.Text.Letter

/-!
# Labels and names as written in paths

Outside brackets a label is written as glyphs: a character as it is, or a backslash and a character.
Plain blanks at the end of a label do not belong to it. `Glyph.spell` writes any label so that it
reads back as that label.

Inside brackets a predicate names children without escapes: a name begins with a letter, `_` or `#`
and goes on with letters, numerals and `_`, `#`, `-`, `.`, `:`.
-/

namespace LabelTree

/-! ## Labels -/

/-- Characters that end a label. -/
def isStepDelimiter (c : Char) : Bool :=
  c = '/' || c = '[' || c = ']' || c = '*'

inductive Glyph where
  | plain (c : Char)
  | escaped (c : Char)
  deriving DecidableEq, Repr

namespace Glyph

/-- The character that a glyph stands for. -/
def char : Glyph → Char
  | plain c => c
  | escaped c => c

/-- The characters that a glyph is written with. -/
def written : Glyph → List Char
  | plain c => [c]
  | escaped c => ['\\', c]

def isPlainBlank : Glyph → Bool
  | plain c => Text.isBlank c
  | escaped _ => false

/-- Glyphs up to the next delimiter, and what follows them; `none` when the text ends in a
backslash with nothing to escape. -/
def read : List Char → Option (List Glyph × List Char)
  | [] => some ([], [])
  | ['\\'] => none
  | '\\' :: c :: cs => (read cs).map fun (glyphs, rest) => (escaped c :: glyphs, rest)
  | c :: cs =>
    if isStepDelimiter c then some ([], c :: cs)
    else (read cs).map fun (glyphs, rest) => (plain c :: glyphs, rest)

/-- The glyphs that belong to a label: all but the plain blanks at the end. -/
def trim (glyphs : List Glyph) : List Glyph :=
  (glyphs.reverse.dropWhile isPlainBlank).reverse

/-- The label that glyphs stand for. -/
def label (glyphs : List Glyph) : String :=
  String.ofList (glyphs.map char)

/-- Glyphs for the characters after a label's first. The last one is escaped when it is blank. -/
def spellTail : List Char → List Glyph
  | [] => []
  | c :: cs =>
    (if isStepDelimiter c || c = '\\' || (cs.isEmpty && Text.isBlank c) then escaped c
      else plain c) :: spellTail cs

/-- Glyphs for a label. A blank is escaped at either end, a delimiter and a backslash everywhere,
and the first dot of the labels `.` and `..`, which would read as steps of another kind. -/
def spell : List Char → List Glyph
  | [] => []
  | c :: cs =>
    (if isStepDelimiter c || c = '\\' || Text.isBlank c ||
        c :: cs = ['.'] || c :: cs = ['.', '.'] then escaped c
      else plain c) :: spellTail cs

end Glyph

/-- A label written so that it reads back as one step's label. -/
def escapeLabel (label : String) : String :=
  String.ofList ((Glyph.spell label.toList).flatMap Glyph.written)

example : escapeLabel "a/b" = "a\\/b" := by decide
example : escapeLabel ".." = "\\.." := by decide
example : escapeLabel " x y " = "\\ x y\\ " := by decide

/-! ## Names -/

def isNameStart (c : Char) : Bool :=
  Text.isLetter c || c = '_' || c = '#'

def isNameChar (c : Char) : Bool :=
  Text.isLetter c || Text.isNumeral c || c = '_' || c = '#' || c = '-' || c = '.' || c = ':'

/-- A name that a predicate can hold. -/
def isName : List Char → Bool
  | [] => false
  | c :: cs => isNameStart c && cs.all isNameChar

theorem isNameChar_of_isNameStart {c : Char} (h : isNameStart c = true) : isNameChar c = true := by
  simp only [isNameStart, isNameChar, Bool.or_eq_true] at *
  rcases h with (h | h) | h <;> simp [h]

end LabelTree
