import LabelTree.Script
import LabelTree.Snapshot.Printer
import LabelTree.Snapshot.Reader

/-!
# Batch runs

A batch run opens an engine, grafts a seed below `/files`, runs a script line by line, and dumps
what is below `/files` as text that can seed another run.
-/

namespace LabelTree

structure RunOptions where
  root : String
  loadPath : Option String := none
  flags : Flags := .none
  script : String := ""
  /-- The text of a snapshot. -/
  seed : Option String := none
  /-- Show each line before what it prints. -/
  echo : Bool := false
  dump : Bool := false
  deriving DecidableEq, Repr

/-- The line at which a run stopped, with the record of the engine when a call failed. -/
structure CommandFailure where
  /-- Counted from one. -/
  line : Nat
  command : String
  error : Option ErrorInfo
  deriving DecidableEq, Repr

structure RunReport where
  output : String := ""
  /-- Number of commands that succeeded. -/
  executed : Nat := 0
  quit : Bool := false
  failure : Option CommandFailure := none
  dump : Option String := none
  deriving DecidableEq, Repr

/-- Why a run has no report. -/
inductive RunError where
  | noInput
  | seed (fault : Json.Fault)
  | engine (error : EngineError)
  deriving DecidableEq, Repr

def RunError.message : RunError → String
  | noInput => "No commands given. Pass them as arguments, use --file, or pipe them to stdin."
  | seed .malformed => "Invalid tree snapshot: malformed text"
  | seed .mistyped => "Invalid tree snapshot: value of the wrong type or key given twice"
  | seed .truncated => "Invalid tree snapshot: text ends too early"
  | engine e => "Engine error: " ++ e.message

namespace Batch

/-- The path that seeds are grafted at and dumps are taken from. -/
def filesPath : PathArg := .text "/files"

/-- How a line is shown before it is run. Blank lines are not shown. -/
def echoLine (line : String) : String :=
  if Text.isBlankText line then "" else "> " ++ Text.trim line ++ "\n"

/-- Runs the lines from number `n` on and adds to the report. -/
def runLines (echo : Bool) (n : Nat) (report : RunReport) : List String → StateM Engine RunReport
  | [] => return report
  | line :: rest => do
    let shown := if echo then echoLine line else ""
    let (outcome, printed) ← Engine.runScript line
    let report := { report with output := report.output ++ shown ++ printed }
    match outcome with
    | .quit => return { report with quit := true }
    | .failed =>
      let record := (← get).record
      let error := if record.isError then some record else none
      return { report with failure := some ⟨n, Text.trim line, error⟩ }
    | .done executed =>
      runLines echo (n + 1) { report with executed := report.executed + executed } rest

/-- Grafts the seed. -/
def plant (seed : Option String) (e : Engine) : Except RunError Engine :=
  match seed with
  | none => .ok e
  | some text =>
    match Snapshot.ofJson text with
    | .error fault => .error (.seed fault)
    | .ok snapshot =>
      match (Engine.load filesPath snapshot).run.run e with
      | (.error error, _) => .error (.engine error)
      | (.ok _, e) => .ok e

/-- The text of what is below `/files`. -/
def takeDump (e : Engine) : Except RunError String :=
  match (Engine.snapshot filesPath).run.run e with
  | (.error error, _) => .error (.engine error)
  | (.ok snapshot, _) => .ok snapshot.toJson

end Batch

/-- Runs a batch. Only a run with a dump may do without a script. -/
def RunOptions.execute (o : RunOptions) : Except RunError RunReport :=
  if Text.isBlankText o.script && !o.dump then .error .noInput
  else
    match Batch.plant o.seed (.create o.root o.loadPath o.flags) with
    | .error error => .error error
    | .ok e =>
      let (report, e) := (Batch.runLines o.echo 1 {} (Text.lines o.script)).run e
      if o.dump then (Batch.takeDump e).map fun text => { report with dump := some text }
      else .ok report

end LabelTree
