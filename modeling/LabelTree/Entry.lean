import LabelTree.Path.Basic
import LabelTree.Path.Label
import LabelTree.Store.Walk

/-!
# Addresses and listings

The address of a node is an absolute path that leads to it alone: its label and those of its
ancestors, with a position where siblings share a label.

An entry is what a listing shows of one node. A subtree is listed in document order, and the path of
a child is made from the path of its parent by one more step.
-/

namespace LabelTree

/-! ## Addresses -/

/-- One step of an address. -/
def addressStep (label : String) (position : Option Nat) : String :=
  match position with
  | none => "/" ++ escapeLabel label
  | some n => "/" ++ escapeLabel label ++ "[" ++ toString n ++ "]"

namespace Store

/-- The step that leads from a node's parent to the node. -/
def lastStep (s : Store) (id : NodeId) : String :=
  addressStep (s.shownLabel id) (if s.sameLabelCount id > 1 then some (s.position id) else none)

/-- The steps that lead down a lineage given nearest first. -/
def stepsDown (s : Store) : List NodeId → String
  | [] => ""
  | id :: above => s.stepsDown above ++ s.lastStep id

/-- The address of a node. In a detached subtree it starts at the subtree's top. -/
def address (s : Store) (id : NodeId) : String :=
  if id = root then "/" else s.stepsDown ((s.lineage id).takeWhile (· ≠ root))

end Store

/-! ## Entries -/

structure Entry where
  path : String
  label : String
  value : Option String
  /-- Number of children. -/
  children : Nat
  deriving DecidableEq, Repr

namespace Store

/-- The entry of a node shown under a given path. -/
def entryAt (s : Store) (id : NodeId) (path : String) : Entry where
  path
  label := s.shownLabel id
  value := s.value id
  children := (s.children id).length

/-- The entry of a node under its address. -/
def entry (s : Store) (id : NodeId) : Entry :=
  s.entryAt id (s.address id)

/-- The steps to siblings with the given labels, where `seen` holds the labels of the siblings
before them and `all` those of all siblings. -/
def childSteps (all : List String) : List String → List String → List String
  | _, [] => []
  | seen, label :: labels =>
    addressStep label (if all.count label > 1 then some (seen.count label + 1) else none) ::
      childSteps all (label :: seen) labels

/-- The children of a node, each with its path, which extends the path of the node by one step. The
slash that the root's path ends in is not repeated. -/
def childPaths (s : Store) (id : NodeId) (path : String) : List (NodeId × String) :=
  let children := s.children id
  let labels := children.map s.shownLabel
  children.zip ((childSteps labels [] labels).map (Path.trimSlashes path ++ ·))

/-- Entries of the nodes on the stack and of everything below them, at most `n` nodes. The root is
passed over. -/
def listFrom (s : Store) : Nat → List (NodeId × String) → List Entry
  | 0, _ => []
  | _ + 1, [] => []
  | n + 1, (id, path) :: stack =>
    let below := s.listFrom n (s.childPaths id path ++ stack)
    if id = root then below else s.entryAt id path :: below

/-- Entries of a subtree in document order; its top is listed unless it is the root. -/
def subtreeEntries (s : Store) (id : NodeId) : List Entry :=
  s.listFrom s.walkLimit [(id, s.address id)]

end Store

/-! ## Lines -/

/-- A value as `print` shows it between double quotes. -/
def escapeValue (value : String) : String :=
  String.ofList <| value.toList.flatMap fun
    | '"' => ['\\', '"']
    | '\\' => ['\\', '\\']
    | '\n' => ['\\', 'n']
    | '\t' => ['\\', 't']
    | c => [c]

/-- What `get` prints for a path that matches nothing, a node without value, or a value. -/
def getLine (path : String) : Option (Option String) → String
  | none => path ++ " (none)\n"
  | some none => path ++ " (o)\n"
  | some (some value) => path ++ " = " ++ value ++ "\n"

namespace Entry

def matchLine (e : Entry) : String :=
  match e.value with
  | some value => e.path ++ " = " ++ value ++ "\n"
  | none => e.path ++ "\n"

/-- What `ls` prints: a slash after the label of a node with children, else its value. -/
def lsLine (e : Entry) : String :=
  if e.children > 0 then e.label ++ "/\n"
  else
    match e.value with
    | some value => e.label ++ " = " ++ value ++ "\n"
    | none => e.label ++ "\n"

def printLine (e : Entry) : String :=
  match e.value with
  | some value => e.path ++ " = \"" ++ escapeValue value ++ "\"\n"
  | none => e.path ++ "\n"

end Entry

end LabelTree
