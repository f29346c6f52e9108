/-!
# Commands

A line of a script names a command and its arguments.
-/

namespace LabelTree

/-- The commands by name. -/
inductive Verb where
  | get
  | set
  | clear
  | rm
  | mv
  | match
  | ls
  | print
  | ins
  | save
  | quit
  deriving DecidableEq, Repr

namespace Verb

def name : Verb → String
  | get => "get"
  | set => "set"
  | clear => "clear"
  | rm => "rm"
  | mv => "mv"
  | .match => "match"
  | ls => "ls"
  | print => "print"
  | ins => "ins"
  | save => "save"
  | quit => "quit"

/-- The verb that a word stands for. Moving and inserting have a longer name too. -/
def ofName? : String → Option Verb
  | "get" => some get
  | "set" => some set
  | "clear" => some clear
  | "rm" => some rm
  | "mv" => some mv
  | "move" => some mv
  | "match" => some .match
  | "ls" => some ls
  | "print" => some print
  | "ins" => some ins
  | "insert" => some ins
  | "save" => some save
  | "quit" => some quit
  | _ => none

/-- How many arguments a verb takes, as messages say it. -/
def arity : Verb → String
  | get => "1"
  | set => "2"
  | clear => "1"
  | rm => "1"
  | mv => "2"
  | .match => "1 or 2"
  | ls => "1"
  | print => "0 or 1"
  | ins => "3"
  | save => "0"
  | quit => "0"

theorem ofName?_name (v : Verb) : ofName? v.name = some v := by
  cases v <;> rfl

end Verb

inductive Command where
  | get (path : String)
  | set (path value : String)
  | clear (path : String)
  | rm (path : String)
  | mv (src dst : String)
  /-- Lists matching nodes, only those with the value when one is given. -/
  | match (path : String) (value : Option String)
  | ls (path : String)
  | print (path : Option String)
  | ins (label : String) (before : Bool) (path : String)
  | save
  | quit
  deriving DecidableEq, Repr

/-- Why a line is no command. -/
inductive CommandError where
  | unknown (name : String)
  | arity (verb : Verb) (got : Nat)
  | unterminatedQuote (line : String)
  | unbalancedBrackets (line : String)
  | insertPosition (word : String)
  deriving DecidableEq, Repr

def CommandError.message : CommandError → String
  | unknown name => "unknown command '" ++ name ++ "'"
  | arity verb got =>
    "'" ++ verb.name ++ "' takes " ++ verb.arity ++ " arguments, got " ++ toString got
  | unterminatedQuote line => "unterminated quote in '" ++ line ++ "'"
  | unbalancedBrackets line => "unbalanced brackets in '" ++ line ++ "'"
  | insertPosition word => "expected 'before' or 'after', got '" ++ word ++ "'"

end LabelTree
