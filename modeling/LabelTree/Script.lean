import LabelTree.Command.Parse
import LabelTree.Engine
import LabelTree.Text.Cut

/-!
# Scripts

A script is run line by line and stops at `quit`, at a line that is no command, and at a command
that fails.
-/

namespace LabelTree

/-- Runs a command. Answers what it prints. -/
def Command.execute : Command → Call String
  | get path => do
    let found ← Engine.entries (.text path)
    if found.isEmpty then return getLine path none
    return getLine path (some (← Engine.get (.text path)))
  | set path value => do
    Engine.set (.text path) (some value)
    return ""
  | clear path => do
    Engine.clear (.text path)
    return ""
  | rm path => do
    let removed ← Engine.remove (.text path)
    return "rm : " ++ path ++ " " ++ toString removed ++ "\n"
  | mv src dst => do
    Engine.move (.text src) (.text dst)
    return ""
  | .match path value => do
    let found ← Engine.entries (.text path)
    let chosen := found.filter fun e => value.isNone || e.value = value
    if chosen.isEmpty then return "  (no matches)\n"
    return String.join (chosen.map Entry.matchLine)
  | ls path => do
    return String.join ((← Engine.children (.text path)).map Entry.lsLine)
  | print path => do
    return String.join ((← Engine.subtree (.text (path.getD "/"))).map Entry.printLine)
  | ins label before path => do
    Engine.insert (.text path) label before
    return ""
  | save => do
    let _ ← Engine.save
    return ""
  | quit => return ""

/-- How the run of a script ended. -/
inductive Outcome where
  /-- At its end, after this many commands. -/
  | done (executed : Nat)
  | failed
  | quit
  deriving DecidableEq, Repr

/-- The outcome as a number: that of the commands run, or a negative one. -/
def Outcome.status : Outcome → Int
  | done executed => executed
  | failed => -1
  | quit => -2

namespace Engine

/-- Runs the lines of a script, after `executed` commands that printed `out`. -/
def runLines (executed : Nat) (out : String) : List String → StateM Engine (Outcome × String)
  | [] => return (.done executed, out)
  | line :: rest => do
    match Command.parseLine line with
    | .error _ => return (.failed, out)
    | .ok none => runLines executed out rest
    | .ok (some .quit) => return (.quit, out)
    | .ok (some command) =>
      match ← command.execute.run with
      | .error _ => return (.failed, out)
      | .ok printed => runLines (executed + 1) (out ++ printed) rest

/-- Runs a script. Answers how it ended and what it printed. -/
def runScript (text : String) : StateM Engine (Outcome × String) := do
  if (← getThe Engine).isClosed then
    modifyThe Engine fun e => { e with record := .ofError .instanceClosed }
    return (.failed, "")
  modifyThe Engine fun e => { e with record := {} }
  runLines 0 "" (Text.lines text)

end Engine

end LabelTree
