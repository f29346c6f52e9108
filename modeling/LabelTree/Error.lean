import LabelTree.Locate
import LabelTree.Path.Error
import LabelTree.SaveMode
import LabelTree.Snapshot.Basic
import LabelTree.Text.Cut

/-!
# Errors of operations

Each operation that fails says why; an error has a code, a message, and details that go into the
error record of the engine.
-/

namespace LabelTree

/-- The label of the subtree that holds the configuration of a session. -/
def metaLabel : String := "augeas"

/-- What is wrong with an argument. -/
inductive ArgumentFault where
  | noValues
  | rootValue
  | rootRemoved
  | rootMoved
  | rootSibling
  | insertLabel (label : String)
  | snapshotLabel (label : String)
  | snapshotDepth (path : String) (depth : Nat)
  | saveMode (name : String)
  | other (text : String)
  deriving DecidableEq, Repr

def ArgumentFault.message : ArgumentFault → String
  | noValues => "set needs at least one value"
  | rootValue => "the root node cannot hold a value"
  | rootRemoved => "the root node cannot be removed"
  | rootMoved => "the root node cannot be moved or replaced"
  | rootSibling => "cannot insert a sibling of the root node"
  | insertLabel label => "invalid label '" ++ label ++ "' for insert"
  | snapshotLabel label => "snapshot contains invalid label '" ++ label ++ "'"
  | snapshotDepth path depth =>
    "subtree at " ++ path ++ " is " ++ toString depth ++ " levels deep; snapshots hold at most " ++
      toString Snapshot.maxDepth
  | saveMode name => "unknown save mode '" ++ name ++ "' in /" ++ metaLabel ++ "/save"
  | other text => text

/-- Why the node of a path cannot be made. -/
inductive CreationFault where
  /-- The step with this number, counted from zero. -/
  | step (i : Nat) (fault : StepFault)
  | unlabelled
  | orphaned
  | other (text : String)
  deriving DecidableEq, Repr

def CreationFault.message : CreationFault → String
  | step i fault => "step " ++ toString (i + 1) ++ ": " ++ fault.message
  | unlabelled => "step does not name a label"
  | orphaned => "parent node no longer exists"
  | other text => text

inductive EngineError where
  | invalidPath (path : String) (source : PathError)
  | multipleMatches (path : String) (count : Nat)
  | noMatch (path : String)
  | moveIntoDescendant (src dst : String)
  | cannotCreate (path : String) (reason : CreationFault)
  | badArgument (fault : ArgumentFault)
  | instanceClosed
  deriving DecidableEq, Repr

inductive ErrorCode where
  | noError
  | invalidPath
  | noMatch
  | multipleMatches
  | moveIntoDescendant
  | badArgument
  | cannotCreate
  | instanceClosed
  deriving DecidableEq, Repr

namespace ErrorCode

def number : ErrorCode → Nat
  | noError => 0
  | invalidPath => 3
  | noMatch => 4
  | multipleMatches => 5
  | moveIntoDescendant => 10
  | badArgument => 12
  | cannotCreate => 13
  | instanceClosed => 14

def message : ErrorCode → String
  | noError => "No error"
  | invalidPath => "Invalid path expression"
  | noMatch => "No match for path expression"
  | multipleMatches => "Too many matches for path expression"
  | moveIntoDescendant => "Cannot move node into its descendant"
  | badArgument => "Invalid argument in function call"
  | cannotCreate => "Cannot create node for path expression"
  | instanceClosed => "Instance has been closed"

end ErrorCode

/-- A path with the mark `|=|` at a byte offset. Inside a character the mark stands before it, and
past the end it stands at the end. -/
def markPath (path : String) (offset : Nat) : String :=
  let (left, right) := Text.splitAtByte offset path.toList
  String.ofList left ++ "|=|" ++ String.ofList right

namespace EngineError

def code : EngineError → ErrorCode
  | invalidPath .. => .invalidPath
  | multipleMatches .. => .multipleMatches
  | noMatch .. => .noMatch
  | moveIntoDescendant .. => .moveIntoDescendant
  | cannotCreate .. => .cannotCreate
  | badArgument .. => .badArgument
  | instanceClosed => .instanceClosed

def message : EngineError → String
  | invalidPath path source => "invalid path expression `" ++ path ++ "`: " ++ source.message
  | multipleMatches path count => "path `" ++ path ++ "` matches " ++ toString count ++ " nodes"
  | noMatch path => "no node matches `" ++ path ++ "`"
  | moveIntoDescendant src dst =>
    "cannot move `" ++ src ++ "` into its own descendant `" ++ dst ++ "`"
  | cannotCreate path reason => "cannot create `" ++ path ++ "`: " ++ reason.message
  | badArgument fault => fault.message
  | instanceClosed => "engine instance has been closed"

def details : EngineError → String
  | invalidPath path source => markPath path source.offset ++ " (" ++ source.fault.message ++ ")"
  | multipleMatches path count => path ++ " matches " ++ toString count ++ " nodes"
  | noMatch path => path
  | moveIntoDescendant src dst => src ++ " -> " ++ dst
  | cannotCreate path reason => path ++ ": " ++ reason.message
  | badArgument fault => fault.message
  | instanceClosed => "the instance was closed"

end EngineError

/-- The save mode that a configuration value names. -/
def SaveMode.ofText (name : String) : Except EngineError SaveMode :=
  match ofName? name with
  | some mode => .ok mode
  | none => .error (.badArgument (.saveMode name))

/-- What is kept of the outcome of a call. -/
structure ErrorInfo where
  code : ErrorCode := .noError
  details : String := ""
  /-- The byte offset of a path error. -/
  minor : Option Nat := none
  deriving DecidableEq, Repr

namespace ErrorInfo

def message (i : ErrorInfo) : String :=
  i.code.message

def ofError (e : EngineError) : ErrorInfo where
  code := e.code
  details := e.details
  minor :=
    match e with
    | .invalidPath _ source => some source.offset
    | _ => none

def isError (i : ErrorInfo) : Bool :=
  i.code ≠ .noError

/-- The record that the outcome of a call leaves; a success clears it. -/
def ofResult {α : Type} : Except EngineError α → ErrorInfo
  | .ok _ => {}
  | .error e => ofError e

end ErrorInfo

end LabelTree
