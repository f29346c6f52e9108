import LabelTree.Checked.Basic
import LabelTree.Error
import LabelTree.Path.Compile

/-!
# Partial steps — reading paths

Two steps of the reader are partial. A label is collected with the blanks at its end, while the
length up to its last other character is kept, and is then shortened to that length; and a closing
bracket takes one from the number of open ones.
-/

namespace LabelTree.Checked

/-! ## Lexemes -/

/-- Collects the characters of a label after `result`, of which `kept` bytes end in no plain blank;
`none` for a dangling escape. Answers what was collected, the bytes to keep, and what follows. -/
def scanLabel (result : List Char) (kept : Nat) : List Char → Option (List Char × Nat × List Char)
  | [] => some (result, kept, [])
  | ['\\'] => none
  | '\\' :: c :: cs => scanLabel (result ++ [c]) (Text.byteLength (result ++ [c])) cs
  | c :: cs =>
    if isStepDelimiter c then some (result, kept, c :: cs)
    else
      scanLabel (result ++ [c])
        (if Text.isBlank c then kept else Text.byteLength (result ++ [c])) cs

/-- The token for a label that was read from the text `raw`, where escaped dots differ from plain
ones. -/
def labelToken (raw label : List Char) : Token :=
  if label = ['.'] ∧ raw.head? = some '.' then .dot
  else if label = ['.', '.'] ∧ raw.take 2 = ['.', '.'] then .dotDot
  else .label (String.ofList label)

/-- Reads one token outside brackets. -/
def stepToken (c : Cursor) : Option (Except PathError (Token × Cursor)) :=
  match c.rest with
  | [] | '/' :: _ | '*' :: _ | '[' :: _ | ']' :: _ => some c.stepToken
  | cs =>
    match scanLabel [] 0 cs with
    | none => some (.error ⟨.danglingEscape, c.offset + (Text.byteLength cs - 1)⟩)
    | some (result, kept, rest) => do
      return .ok (labelToken cs (← truncate kept result), c.moveTo rest)

/-- Reads one token inside brackets. -/
def predicateToken (c : Cursor) : Option (Except PathError (Token × Cursor)) :=
  match c.rest with
  | ']' :: cs => do
    let depth ← sub c.depth 1
    return .ok (.closeBracket, { c.moveTo cs with depth })
  | _ => some c.predicateToken

/-- Reads the token at the cursor, which stands at no blank. -/
def token (c : Cursor) : Option (Except PathError (Token × Cursor)) :=
  if c.depth = 0 then stepToken c else predicateToken c

/-- Reads one lexeme. -/
def next (c : Cursor) : Option (Except PathError (Lexeme × Cursor)) := do
  let start := c.skipBlanks
  match ← token start with
  | .error e => return .error e
  | .ok (token, after) => return .ok (⟨token, start.offset⟩, after)

/-! ## Paths -/

/-- The lexemes that remain at a cursor, at most `fuel` of them. -/
def lexemes : Nat → Cursor → Option Lexemes
  | 0, _ => none
  | fuel + 1, c => do
    match ← next c with
    | .error e => return .fault e
    | .ok (l, c') =>
      if l.token = .endOfPath then return .finish l.offset
      return .next l.token l.offset (← lexemes fuel c')

/-- Compiles a path expression. A text has at most as many lexemes as characters, and the end. -/
def compile (text : String) : Option (Except PathError Path) := do
  match Path.read (← lexemes (text.toList.length + 1) (.ofText text)) with
  | .error e => return .error e
  | .ok (absolute, steps) =>
    match Path.misplacedAppend? steps with
    | some offset => return .error ⟨.misplacedAppend, offset⟩
    | none => return .ok { text, absolute, steps }

/-! ## The offset of a fault -/

/-- The last offset up to `n` at which a text can be cut. -/
def floorFrom (cs : List Char) (n : Nat) : Option Nat :=
  if isBoundary n cs then some n
  else
    match n with
    | 0 => none
    | n + 1 => floorFrom cs n

/-- The last offset up to `n`, or up to the end, at which a text can be cut. -/
def floorBoundary (cs : List Char) (n : Nat) : Option Nat :=
  if Text.byteLength cs ≤ n then some (Text.byteLength cs) else floorFrom cs n

/-- A path with the mark `|=|` at a byte offset. -/
def markPath (path : String) (offset : Nat) : Option String := do
  let (left, right) ← cutAt (← floorBoundary path.toList offset) path.toList
  return String.ofList left ++ "|=|" ++ String.ofList right

/-- What the error record shows of an error. -/
def details : EngineError → Option String
  | .invalidPath path source => do
    return (← markPath path source.offset) ++ " (" ++ source.fault.message ++ ")"
  | e => some e.details

end LabelTree.Checked
