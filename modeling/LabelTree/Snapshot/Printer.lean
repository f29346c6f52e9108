import LabelTree.Snapshot.Basic

/-!
# Writing snapshots

The JSON text of a snapshot has one key to a line, indented by two spaces a level. The keys come in
the order `label`, `value`, `children`; a missing value and an empty list of children are left out.
-/

namespace LabelTree.Snapshot

/-- How a character stands in a string. -/
def escapeChar (c : Char) : List Char :=
  match c with
  | '"' => ['\\', '"']
  | '\\' => ['\\', '\\']
  | '\x08' => ['\\', 'b']
  | '\x0c' => ['\\', 'f']
  | '\n' => ['\\', 'n']
  | '\r' => ['\\', 'r']
  | '\t' => ['\\', 't']
  | c =>
    if c.toNat < 0x20 then
      ['\\', 'u', '0', '0', Nat.digitChar (c.toNat / 16), Nat.digitChar (c.toNat % 16)]
    else [c]

/-- A string between its quotes. -/
def printText (text : String) : List Char :=
  '"' :: (text.toList.flatMap escapeChar ++ ['"'])

/-- A line feed and the indentation of a level. -/
def newLine (level : Nat) : List Char :=
  '\n' :: List.replicate (2 * level) ' '

/-- A key and the colon after it. -/
def printKey (key : String) : List Char :=
  printText key ++ [':', ' ']

/-- The line of a value, when there is one, and the comma before it. -/
def printValue (level : Nat) : Option String → List Char
  | none => []
  | some value => ',' :: (newLine level ++ printKey "value" ++ printText value)

mutual

/-- The text of a node whose braces stand at `level`. -/
def print (level : Nat) : Snapshot → List Char
  | ⟨label, value, children⟩ =>
    '{' :: (newLine (level + 1) ++ printKey "label" ++ printText label ++
      printValue (level + 1) value ++ printChildren (level + 1) children ++ newLine level ++
      ['}'])

/-- The lines of a list of children, unless it is empty, and the comma before them. -/
def printChildren (level : Nat) : List Snapshot → List Char
  | [] => []
  | child :: rest =>
    ',' :: (newLine level ++ printKey "children" ++ '[' :: (newLine (level + 1) ++
      print (level + 1) child ++ printRest (level + 1) rest ++ newLine level ++ [']']))

/-- The further elements of a list, each after a comma. -/
def printRest (level : Nat) : List Snapshot → List Char
  | [] => []
  | child :: rest => ',' :: (newLine level ++ print level child ++ printRest level rest)

end

/-- The text of a snapshot. -/
def toJson (s : Snapshot) : String :=
  String.ofList (print 0 s)

end LabelTree.Snapshot
