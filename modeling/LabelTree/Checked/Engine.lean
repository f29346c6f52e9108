import LabelTree.Checked.Edit
import LabelTree.Operation

/-!
# Partial steps — engines

Calls, commands, scripts and operations of an engine, with edits that follow partial steps. The
record of a failed call shows the path with its fault, and closing counts the nodes that are let go.
-/

namespace LabelTree.Checked

/-- A call that answers nothing at all when one of its steps leaves its domain. -/
abbrev Call := ExceptT EngineError (StateT Engine Option)

/-- The record of an error. -/
def recordOf (e : EngineError) : Option ErrorInfo := do
  return { ErrorInfo.ofError e with details := ← details e }

/-- The record that the outcome of a call leaves. -/
def recordOfResult {α : Type} : Except EngineError α → Option ErrorInfo
  | .ok _ => some {}
  | .error e => recordOf e

/-- The refusal of a closed engine. -/
def refuse {α : Type} : Call α :=
  ExceptT.mk fun e => do
    return (.error .instanceClosed, { e with record := ← recordOf .instanceClosed })

/-- Runs an edit on the session of an engine. -/
def call {α : Type} (edit : Edit α) : Call α :=
  ExceptT.mk fun e =>
    match e.session with
    | none => refuse.run.run e
    | some s => do
      let (result, s) ← edit.run.run s
      return (result, ⟨some s, ← recordOfResult result⟩)

/-- Runs a question on the session of an engine. -/
def ask {α : Type} (question : Session → Answer α) : Call α :=
  call (Edit.ask question)

/-- Lets go of the session, whose nodes are counted. -/
def close : Call Unit :=
  ExceptT.mk fun e =>
    match e.session with
    | none => refuse.run.run e
    | some s => do
      let _ ← size s.store
      return (.ok (), ⟨none, {}⟩)

/-- A new engine. -/
def create (root : String) (loadPath : Option String) (flags : Flags) : Option Engine := do
  return ⟨some (← createSession root loadPath flags), {}⟩

/-! ## Scripts -/

/-- Runs a command. Answers what it prints. -/
def execute : Command → Call String
  | .get path => do
    let found ← ask (entries · (.text path) .nodes)
    if found.isEmpty then return getLine path none
    return getLine path (some (← ask (readValue · (.text path))))
  | .set path value => do
    call (Edit.set (.text path) (some value))
    return ""
  | .clear path => do
    call (Edit.set (.text path) none)
    return ""
  | .rm path => do
    let removed ← call (Edit.remove (.text path))
    return "rm : " ++ path ++ " " ++ toString removed ++ "\n"
  | .mv src dst => do
    call (Edit.move (.text src) (.text dst))
    return ""
  | .match path value => do
    let found ← ask (entries · (.text path) .nodes)
    let chosen := found.filter fun e => value.isNone || e.value = value
    if chosen.isEmpty then return "  (no matches)\n"
    return String.join (chosen.map Entry.matchLine)
  | .ls path => do
    return String.join ((← ask (entries · (.text path) .children)).map Entry.lsLine)
  | .print path => do
    return String.join
      ((← ask (entries · (.text (path.getD "/")) .subtree)).map Entry.printLine)
  | .ins label before path => do
    call (Edit.insert (.text path) label before)
    return ""
  | .save => do
    let _ ← call Edit.save
    return ""
  | .quit => return ""

/-- Runs the lines of a script, after `executed` commands that printed `out`. -/
def runLines (executed : Nat) (out : String) : List String → StateT Engine Option (Outcome × String)
  | [] => return (.done executed, out)
  | line :: rest => do
    match Command.parseLine line with
    | .error _ => return (.failed, out)
    | .ok none => runLines executed out rest
    | .ok (some .quit) => return (.quit, out)
    | .ok (some command) =>
      match ← (execute command).run with
      | .error _ => return (.failed, out)
      | .ok printed => runLines (executed + 1) (out ++ printed) rest

/-- Runs a script. Answers how it ended and what it printed. -/
def runScript (text : String) : StateT Engine Option (Outcome × String) := do
  if (← getThe Engine).isClosed then
    let record ← StateT.lift (recordOf .instanceClosed)
    modifyThe Engine fun e => { e with record }
    return (.failed, "")
  modifyThe Engine fun e => { e with record := {} }
  runLines 0 "" (Text.lines text)

/-! ## Operations -/

/-- The addresses of the nodes that a path leads to. -/
def addresses (path : PathArg) : Call (List String) :=
  return (← ask (entries · path .nodes)).map Entry.path

/-- The call that an operation stands for. -/
def operationCall : Operation → Call Reply
  | .get path => return .value (← ask (readValue · path))
  | .set path value => do
    call (Edit.set path value)
    return .done
  | .setMany path values => return .count (← call (Edit.setMany path values))
  | .clear path => do
    call (Edit.set path none)
    return .done
  | .remove path => return .count (← call (Edit.remove path))
  | .move src dst => do
    call (Edit.move src dst)
    return .done
  | .insert path label before => do
    call (Edit.insert path label before)
    return .done
  | .addresses path => return .paths (← addresses path)
  | .entries path => return .entries (← ask (entries · path .nodes))
  | .children path => return .entries (← ask (entries · path .children))
  | .subtree path => return .entries (← ask (entries · path .subtree))
  | .save => return .mode (← call Edit.save)
  | .snapshot path => return .snapshot (← ask (snapshot · path))
  | .load path source => return .count (← call (Edit.load path source))
  | .runScript text => do
    let (outcome, out) ← ExceptT.lift (runScript text)
    return .ran outcome out
  | .close => do
    close
    return .done

/-- The answer to an operation, and the engine after it. -/
def answer (e : Engine) (operation : Operation) : Option (Except EngineError Reply × Engine) :=
  (operationCall operation).run.run e

end LabelTree.Checked
