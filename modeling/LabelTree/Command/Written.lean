import LabelTree.Command.Parse

/-!
# Commands in writing

Any command can be written on a line: a name of its verb, and each argument between quotes after
some blanks.
-/

namespace LabelTree.Command

def verb : Command → Verb
  | get _ => .get
  | set .. => .set
  | clear _ => .clear
  | rm _ => .rm
  | mv .. => .mv
  | .match .. => .match
  | ls _ => .ls
  | print _ => .print
  | ins .. => .ins
  | save => .save
  | quit => .quit

/-- The arguments of a command. -/
def args : Command → List String
  | get path => [path]
  | set path value => [path, value]
  | clear path => [path]
  | rm path => [path]
  | mv src dst => [src, dst]
  | .match path value => path :: value.toList
  | ls path => [path]
  | print path => path.toList
  | ins label before path => [label, if before then "before" else "after", path]
  | save => []
  | quit => []

/-- Arguments in writing, each between quotes of either kind and after at least one blank. -/
inductive ArgsWritten : List String → List Char → Prop
  | nil : ArgsWritten [] []
  | cons {arg : String} {args : List String} {quote : Char} {blanks text : List Char} :
    blanks ≠ [] → blanks.all Text.isBlank = true → Text.isQuote quote = true →
      ArgsWritten args text →
      ArgsWritten (arg :: args) (blanks ++ Text.enquote quote arg.toList ++ text)

/-- A command in writing, `name` being a name of its verb. -/
def Written (c : Command) (name line : String) : Prop :=
  Verb.ofName? name = some c.verb ∧
    ∃ text, ArgsWritten c.args text ∧ line.toList = name.toList ++ text

theorem command_args (c : Command) : c.verb.command c.args = .ok c := by
  cases c with
  | «match» path value => cases value <;> rfl
  | print path => cases path <;> rfl
  | ins label before path => cases before <;> rfl
  | _ => rfl

end LabelTree.Command
