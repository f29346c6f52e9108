import LabelTree.Command.Split

/-!
# Reading a line

A blank line and a line whose first character other than a blank is `#` hold no command.
-/

namespace LabelTree

/-- The command that a verb makes of its arguments. -/
def Verb.command : Verb → List String → Except CommandError Command
  | .get, [path] => .ok (.get path)
  | .set, [path, value] => .ok (.set path value)
  | .clear, [path] => .ok (.clear path)
  | .rm, [path] => .ok (.rm path)
  | .mv, [src, dst] => .ok (.mv src dst)
  | .match, [path] => .ok (.match path none)
  | .match, [path, value] => .ok (.match path (some value))
  | .ls, [path] => .ok (.ls path)
  | .print, [] => .ok (.print none)
  | .print, [path] => .ok (.print (some path))
  | .ins, [label, place, path] =>
    if place = "before" then .ok (.ins label true path)
    else if place = "after" then .ok (.ins label false path)
    else .error (.insertPosition place)
  | .save, [] => .ok .save
  | .quit, [] => .ok .quit
  | verb, args => .error (.arity verb args.length)

namespace Command

def isComment (line : String) : Bool :=
  (Text.trimLeft line.toList).head? = some '#'

/-- The command on a line, if there is one. -/
def parseLine (line : String) : Except CommandError (Option Command) :=
  if isComment line then .ok none
  else
    match splitArgs line with
    | .error e => .error e
    | .ok [] => .ok none
    | .ok (name :: args) =>
      match Verb.ofName? name with
      | none => .error (.unknown name)
      | some verb => (verb.command args).map some

end Command

end LabelTree
