import LabelTree.Session.Edit
import LabelTree.Session.Read

/-!
# Engines

An engine holds a session until it is closed, and a record of its last call: a success clears the
record, a failure puts its error there. A closed engine refuses every call.
-/

namespace LabelTree

structure Engine where
  /-- None once the engine is closed. -/
  session : Option Session
  record : ErrorInfo
  deriving DecidableEq, Repr

/-- A call of an engine, which leaves a record. -/
abbrev Call := ExceptT EngineError (StateM Engine)

namespace Engine

def create (root : String) (loadPath : Option String) (flags : Flags) : Engine :=
  ⟨some (.create root loadPath flags), {}⟩

def isClosed (e : Engine) : Bool :=
  e.session.isNone

/-- Runs an edit on the session of an engine. -/
def call {α : Type} (edit : Edit α) : Call α :=
  ExceptT.mk fun e =>
    match e.session with
    | none => (.error .instanceClosed, { e with record := .ofError .instanceClosed })
    | some s =>
      let (result, s) := edit.run.run s
      (result, ⟨some s, .ofResult result⟩)

/-- Lets go of the session. -/
def close : Call Unit :=
  ExceptT.mk fun e =>
    match e.session with
    | none => (.error .instanceClosed, { e with record := .ofError .instanceClosed })
    | some _ => (.ok (), ⟨none, {}⟩)

/-! ## Reading -/

def get (arg : PathArg) : Call (Option String) :=
  call (Edit.ask (·.get arg))

/-- One entry for each node that a path leads to. -/
def entries (arg : PathArg) : Call (List Entry) :=
  call (Edit.ask (·.entries arg .nodes))

/-- The addresses of the nodes that a path leads to. -/
def addresses (arg : PathArg) : Call (List String) :=
  return (← entries arg).map Entry.path

/-- One entry for each child of the nodes that a path leads to. -/
def children (arg : PathArg) : Call (List Entry) :=
  call (Edit.ask (·.entries arg .children))

/-- Entries for the subtrees of the nodes that a path leads to. -/
def subtree (arg : PathArg) : Call (List Entry) :=
  call (Edit.ask (·.entries arg .subtree))

def snapshot (arg : PathArg) : Call Snapshot :=
  call (Edit.ask (·.snapshot arg))

/-! ## Editing -/

def setMany (arg : PathArg) (values : List (Option String)) : Call Nat :=
  call (Edit.setMany arg values)

def set (arg : PathArg) (value : Option String) : Call Unit :=
  call (Edit.set arg value)

/-- Takes the value from the one node of a path. -/
def clear (arg : PathArg) : Call Unit :=
  set arg none

def remove (arg : PathArg) : Call Nat :=
  call (Edit.remove arg)

def move (src dst : PathArg) : Call Unit :=
  call (Edit.move src dst)

def insert (arg : PathArg) (label : String) (before : Bool) : Call Unit :=
  call (Edit.insert arg label before)

def save : Call SaveMode :=
  call Edit.save

def load (arg : PathArg) (snapshot : Snapshot) : Call Nat :=
  call (Edit.load arg snapshot)

end Engine

end LabelTree
