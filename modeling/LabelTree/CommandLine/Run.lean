import LabelTree.Batch
import LabelTree.CommandLine.Arguments
import LabelTree.CommandLine.FileTree

/-!
# Runs from the command line

The script is made of the words of the command line, or read from a file, or from standard input.
How files and input are read is left to the monad.
-/

namespace LabelTree.CommandLine

/-- What a run leaves. -/
structure Outcome where
  exit : Nat
  stdout : String := ""
  stderr : String := ""
  deriving DecidableEq, Repr

/-- What a run reads. -/
structure Environment (m : Type → Type) where
  fileText : String → m (Except FileError String)
  stdin : m (Except FileError String)
  /-- The root directory when the command line names none. -/
  defaultRoot : Option String

/-- Reads all that is left of standard input, which leaves nothing. -/
def takeInput : StateM String String :=
  modifyGet fun input => (input, "")

/-- An environment whose files are in memory, as is what is left of standard input. -/
def FileTree.environment (t : FileTree) (defaultRoot : Option String) :
    Environment (StateM String) where
  fileText name :=
    match t.content name with
    | .text text => return .ok text
    | .input => return .ok (← takeInput)
    | .unreadable error => return .error error
  stdin := return .ok (← takeInput)
  defaultRoot

/-- How the failure of a command is told. -/
def failureLine (f : CommandFailure) : String :=
  "error: line " ++ toString f.line ++ ": " ++
    match f.error with
    | some info => info.message ++ ": " ++ info.details ++ "\n"
    | none => "invalid command '" ++ f.command ++ "'\n"

/-- What a report prints. -/
def ofReport (r : RunReport) : Outcome where
  exit := if r.failure.isSome then 1 else 0
  stdout := r.output ++ ((r.dump.map (· ++ "\n")).getD "")
  stderr := (r.failure.map failureLine).getD ""

/-- What a run prints that could not read its script or seed. -/
def ofFileError (error : FileError) : Outcome :=
  { exit := 1, stderr := "IO error: " ++ error.message ++ "\n" }

variable {m : Type → Type} [Monad m]

/-- The text of the script. -/
def script (env : Environment m) (a : Arguments) : m (Except FileError String) :=
  match a.words, a.setting? .file with
  | [], some file => env.fileText file
  | [], none => env.stdin
  | words, _ => return .ok (" ".intercalate words)

/-- The text of the snapshot that seeds the run. -/
def seed (env : Environment m) (a : Arguments) : m (Except FileError (Option String)) :=
  match a.setting? .tree with
  | some file => return (← env.fileText file).map some
  | none => return .ok none

/-- The options of a batch run. -/
def runOptions (env : Environment m) (a : Arguments) (script : String) (seed : Option String) :
    RunOptions where
  root := (a.setting? .root).getD (env.defaultRoot.getD "/")
  loadPath := a.setting? .loadPath
  flags := a.flags
  script
  seed
  echo := a.has .echo
  dump := a.has .dump

/-- Runs a batch and tells how it went. -/
def ofOptions (o : RunOptions) : Outcome :=
  match o.execute with
  | .ok report => ofReport report
  | .error error => { exit := 1, stderr := error.message ++ "\n" }

/-- Runs what the arguments ask for. The script is read before the seed. -/
def runArguments (env : Environment m) (a : Arguments) : m Outcome := do
  match ← script env a with
  | .error error => return ofFileError error
  | .ok script =>
    match ← seed env a with
    | .error error => return ofFileError error
    | .ok seed => return ofOptions (runOptions env a script seed)

def usage : String :=
  "Usage: cfgtool [OPTIONS] [COMMAND]...\n"

/-- Runs a command line. -/
def run (env : Environment m) (args : List String) : m Outcome :=
  match Arguments.parse args with
  | .error .usage => return { exit := 2, stderr := usage }
  | .error .help => return { exit := 0, stdout := usage }
  | .error .version => return { exit := 0, stdout := "cfgtool " ++ Session.version ++ "\n" }
  | .ok a => runArguments env a

end LabelTree.CommandLine
