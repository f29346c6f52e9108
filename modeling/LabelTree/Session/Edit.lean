import LabelTree.Session.Basic
import LabelTree.Snapshot.Graft

/-!
# Editing a session

An edit runs on a session and succeeds or fails; what it changed before it failed stays changed. The
edits here settle everything that can fail before they change anything.
-/

namespace LabelTree

abbrev Edit := ExceptT EngineError (StateM Session)

namespace Edit

/-- Asks the session something that may fail. -/
def ask {α : Type} (question : Session → Except EngineError α) : Edit α := do
  match question (← get) with
  | .ok a => return a
  | .error e => throw e

/-- The store at this point. -/
def store : Edit Store :=
  return (← get).store

def setStore (store : Store) : Edit Unit :=
  modify fun s => { s with store }

/-- Marks a change at a node. -/
def touch (id : NodeId) : Edit Unit :=
  modify (·.touch id)

/-- Gives a node a value. -/
def assign (id : NodeId) (value : Option String) : Edit Unit := do
  let s ← store
  setStore ((s.setValue id value).getD s)

/-! ## Making nodes -/

/-- Makes a node for each of the steps, each below the one before it. Answers the last. -/
def createBelow (path : Path) (parent : NodeId) : List Step → Edit NodeId
  | [] => return parent
  | step :: rest => do
    match step.newLabel? with
    | none => throw (.cannotCreate path.text .unlabelled)
    | some label =>
      match (← store).appendAfterLabel parent label with
      | none => throw (.cannotCreate path.text .orphaned)
      | some (id, s) =>
        setStore s
        createBelow path id rest

/-- Makes the missing steps of a path, from number `i` on. -/
def create (path : Path) (anchor : NodeId) (i : Nat) : Edit NodeId := do
  let id ← createBelow path anchor (path.steps.drop i)
  touch id
  return id

/-- The node at a location of a path, made if it is missing. -/
def reach (path : Path) : Location → Edit NodeId
  | .found id => return id
  | .missing anchor i => create path anchor i

/-! ## Values -/

/-- Makes a sibling for each value, the first right after `prev` and each other after the one before
it. -/
def addSiblings (parent : NodeId) (label : String) (prev : NodeId) :
    List (Option String) → Edit Unit
  | [] => return
  | value :: rest => do
    let s ← store
    let index := ((s.indexInParent prev).map (· + 1)).getD (s.children parent).length
    match s.insertChild parent index label with
    | none => return
    | some (id, s) =>
      setStore s
      assign id value
      addSiblings parent label id rest

/-- Gives the one node of a path a value, and makes a sibling after it for each further value.
Answers the number of values. -/
def setMany (arg : PathArg) (values : List (Option String)) : Edit Nat := do
  match values with
  | [] => throw (.badArgument .noValues)
  | first :: rest =>
    let path ← ask (·.prepare arg)
    let location ← ask (·.locate path)
    if location = .found Store.root then throw (.badArgument .rootValue)
    let id ← reach path location
    assign id first
    let s ← store
    match s.parent id, s.label id with
    | some parent, some label => addSiblings parent label id rest
    | _, _ => pure ()
    touch id
    return values.length

/-- Gives the one node of a path a value. -/
def set (arg : PathArg) (value : Option String) : Edit Unit := do
  let _ ← setMany arg [value]

/-! ## Removing, moving and inserting -/

/-- Deletes nodes with their subtrees. Answers how many nodes were deleted. -/
def removeAll : List NodeId → Edit Nat
  | [] => return 0
  | id :: rest => do
    touch id
    let (removed, s) := (← store).remove id
    setStore s
    return removed + (← removeAll rest)

/-- Deletes the nodes that a path leads to. Answers how many nodes were deleted. -/
def remove (arg : PathArg) : Edit Nat := do
  let path ← ask (·.prepareExisting arg)
  let ids := (← get).resolve path
  if ids.contains Store.root then throw (.badArgument .rootRemoved)
  removeAll ids

/-- Whether a location is a node or would be made below it. -/
def leadsInto (s : Store) (node : NodeId) : Location → Bool
  | .found id => s.isWithin id node
  | .missing anchor _ => s.isWithin anchor node

/-- Puts `node` in the place of `target`, with its label. -/
def replace (node target : NodeId) : Edit Unit := do
  let label := (← store).shownLabel target
  touch node
  let s ← store
  let s := ((s.detach node).map Prod.snd).getD s
  let parent := (s.parent target).getD Store.root
  let index := (s.indexInParent target).getD (s.children parent).length
  let (_, s) := s.remove target
  let s := (s.attach node parent index).getD s
  setStore ((s.setLabel node label).getD s)
  touch node

/-- Moves the one node of a path to where another path points. -/
def move (src dst : PathArg) : Edit Unit := do
  let srcPath ← ask (·.prepareExisting src)
  let dstPath ← ask (·.prepare dst)
  let node ← ask (·.resolveSingle srcPath)
  let location ← ask (·.locate dstPath)
  if node = Store.root ∨ location = .found Store.root then throw (.badArgument .rootMoved)
  if leadsInto (← store) node location then
    throw (.moveIntoDescendant srcPath.text dstPath.text)
  let target ← reach dstPath location
  replace node target

/-- Makes a sibling without value right before or after the one node of a path. -/
def insert (arg : PathArg) (label : String) (before : Bool) : Edit Unit := do
  if !isPlainLabel label then throw (.badArgument (.insertLabel label))
  let path ← ask (·.prepareExisting arg)
  let sibling ← ask (·.resolveSingle path)
  let s ← store
  match s.parent sibling, s.indexInParent sibling with
  | some parent, some index =>
    match s.insertChild parent (if before then index else index + 1) label with
    | none => return
    | some (id, s) =>
      setStore s
      touch id
  | _, _ => throw (.badArgument .rootSibling)

/-! ## Saving and loading -/

/-- The save mode that the configuration names, or that of the flags when it names none. -/
def currentMode (s : Session) : Except EngineError SaveMode :=
  match s.metaValue? "save" with
  | none => .ok (.ofFlags s.flags)
  | some name => SaveMode.ofText name

/-- A store in which the configuration shows a number of saves. -/
def recordSaves (s : Store) (node : NodeId) (saves : Nat) : Store :=
  match s.findOrAppend node "events" with
  | none => s
  | some (events, s) =>
    match s.findOrAppend events "saved" with
    | none => s
    | some (saved, s) => (s.setValue saved (some (toString saves))).getD s

/-- Signals a save, which is counted when there were changes. -/
def save : Edit SaveMode := do
  let mode ← ask currentMode
  modify fun s => if s.pending then { s with saves := s.saves + 1 } else s
  let s ← get
  match s.metaNode? with
  | none => pure ()
  | some node => setStore (recordSaves s.store node s.saves)
  modify fun s => { s with pending := false }
  return mode

/-- Grafts what is below the top of a snapshot to below the one node of a path, and gives the node
the value of the top when it has one. Answers the number of nodes made by the graft. -/
def load (arg : PathArg) (snapshot : Snapshot) : Edit Nat := do
  match snapshot.firstBadLabel with
  | some label => throw (.badArgument (.snapshotLabel label))
  | none =>
    let path ← ask (·.prepare arg)
    let id ← reach path (← ask (·.locate path))
    if snapshot.value.isSome then
      if id = Store.root then throw (.badArgument .rootValue)
      assign id snapshot.value
    let (created, s) := (← store).graft id snapshot
    setStore s
    touch id
    return created

end Edit

end LabelTree
