import LabelTree.Checked.Session
import LabelTree.Session.Edit

/-!
# Partial steps — editing a session

Each edit with the changes of the store as partial steps. The steps of a path from the point where
nodes are made on are a slice of all its steps.
-/

namespace LabelTree.Checked

/-- An edit that answers nothing at all when one of its steps leaves its domain. -/
abbrev Edit := ExceptT EngineError (StateT Session Option)

namespace Edit

/-- An edit without partial steps. -/
def lift {α : Type} (edit : LabelTree.Edit α) : Edit α :=
  ExceptT.mk fun s => some (edit.run.run s)

/-- Asks the session something that may fail. -/
def ask {α : Type} (question : Session → Answer α) : Edit α :=
  ExceptT.mk fun s => do return (← (question s).run, s)

/-- The outcome of a partial step. -/
def perform {α : Type} (step : Option α) : Edit α :=
  ExceptT.mk fun s => do return (.ok (← step), s)

/-- The store at this point. -/
def store : Edit Store :=
  lift LabelTree.Edit.store

def setStore (store : Store) : Edit Unit :=
  lift (LabelTree.Edit.setStore store)

/-- Marks a change at a node. -/
def touch (id : NodeId) : Edit Unit :=
  lift (LabelTree.Edit.touch id)

/-- Gives a node a value. -/
def assign (id : NodeId) (value : Option String) : Edit Unit :=
  lift (LabelTree.Edit.assign id value)

/-! ## Making nodes -/

/-- Makes a node for each of the steps, each below the one before it. -/
def createBelow (path : Path) (parent : NodeId) : List Step → Edit NodeId
  | [] => return parent
  | step :: rest => do
    match step.newLabel? with
    | none => throw (.cannotCreate path.text .unlabelled)
    | some label =>
      match ← perform (appendAfterLabel (← store) parent label) with
      | none => throw (.cannotCreate path.text .orphaned)
      | some (id, s) =>
        setStore s
        createBelow path id rest

/-- Makes the missing steps of a path, from number `i` on. -/
def create (path : Path) (anchor : NodeId) (i : Nat) : Edit NodeId := do
  let id ← createBelow path anchor (← perform (dropFrom i path.steps))
  touch id
  return id

/-- The node at a location of a path, made if it is missing. -/
def reach (path : Path) : Location → Edit NodeId
  | .found id => return id
  | .missing anchor i => create path anchor i

/-! ## Values -/

/-- Makes a sibling for each value, the first right after `prev`. -/
def addSiblings (parent : NodeId) (label : String) (prev : NodeId) :
    List (Option String) → Edit Unit
  | [] => return
  | value :: rest => do
    let s ← store
    let index := ((s.indexInParent prev).map (· + 1)).getD (s.children parent).length
    match ← perform (insertChild s parent index label) with
    | none => return
    | some (id, s) =>
      setStore s
      assign id value
      addSiblings parent label id rest

/-- Gives the one node of a path a value, and makes a sibling after it for each further value. -/
def setMany (arg : PathArg) (values : List (Option String)) : Edit Nat := do
  match values with
  | [] => throw (.badArgument .noValues)
  | first :: rest =>
    let path ← ask (prepare · arg)
    let location ← ask (locateNode · path)
    if location = .found Store.root then throw (.badArgument .rootValue)
    let id ← reach path location
    assign id first
    let s ← store
    match s.parent id, s.label id with
    | some parent, some label => addSiblings parent label id rest
    | _, _ => pure ()
    touch id
    return values.length

/-- Gives the one node of a path a value. -/
def set (arg : PathArg) (value : Option String) : Edit Unit := do
  let _ ← setMany arg [value]

/-! ## Removing, moving and inserting -/

/-- Deletes nodes with their subtrees. -/
def removeAll : List NodeId → Edit Nat
  | [] => return 0
  | id :: rest => do
    touch id
    let (removed, s) ← perform (Checked.remove (← store) id)
    setStore s
    return removed + (← removeAll rest)

/-- Deletes the nodes that a path leads to. -/
def remove (arg : PathArg) : Edit Nat := do
  let path ← ask (prepareExisting · arg)
  let ids ← ask (resolveNodes · path)
  if ids.contains Store.root then throw (.badArgument .rootRemoved)
  removeAll ids

/-- Puts `node` in the place of `target`, with its label. -/
def replace (node target : NodeId) : Edit Unit := do
  let label := (← store).shownLabel target
  touch node
  let s ← store
  let s := ((← perform (detach s node)).map Prod.snd).getD s
  let parent := (s.parent target).getD Store.root
  let index := (s.indexInParent target).getD (s.children parent).length
  let (_, s) ← perform (Checked.remove s target)
  let s := (← perform (attach s node parent index)).getD s
  setStore ((s.setLabel node label).getD s)
  touch node

/-- Moves the one node of a path to where another path points. -/
def move (src dst : PathArg) : Edit Unit := do
  let srcPath ← ask (prepareExisting · src)
  let dstPath ← ask (prepare · dst)
  let node ← ask (resolveSingle · srcPath)
  let location ← ask (locateNode · dstPath)
  if node = Store.root ∨ location = .found Store.root then throw (.badArgument .rootMoved)
  if LabelTree.Edit.leadsInto (← store) node location then
    throw (.moveIntoDescendant srcPath.text dstPath.text)
  let target ← reach dstPath location
  replace node target

/-- Makes a sibling without value right before or after the one node of a path. -/
def insert (arg : PathArg) (label : String) (before : Bool) : Edit Unit := do
  if !isPlainLabel label then throw (.badArgument (.insertLabel label))
  let path ← ask (prepareExisting · arg)
  let sibling ← ask (resolveSingle · path)
  let s ← store
  match s.parent sibling, s.indexInParent sibling with
  | some parent, some index =>
    match ← perform (insertChild s parent (if before then index else index + 1) label) with
    | none => return
    | some (id, s) =>
      setStore s
      touch id
  | _, _ => throw (.badArgument .rootSibling)

/-! ## Saving and loading -/

/-- The first child with a label, made at the end when there is none. -/
def findOrAppend (s : Store) (parent : NodeId) (label : String) :
    Option (Option (NodeId × Store)) :=
  match s.findChild? parent label with
  | some id => some (some (id, s))
  | none => appendChild s parent label

/-- A store in which the configuration shows a number of saves. -/
def recordSaves (s : Store) (node : NodeId) (saves : Nat) : Option Store := do
  match ← findOrAppend s node "events" with
  | none => return s
  | some (events, s) =>
    match ← findOrAppend s events "saved" with
    | none => return s
    | some (saved, s) => return (s.setValue saved (some (toString saves))).getD s

/-- Signals a save, which is counted when there were changes. -/
def save : Edit SaveMode := do
  let mode ← ask fun s => answered (LabelTree.Edit.currentMode s)
  lift (modify fun s => if s.pending then { s with saves := s.saves + 1 } else s)
  let s ← lift get
  match s.metaNode? with
  | none => pure ()
  | some node => setStore (← perform (recordSaves s.store node s.saves))
  lift (modify fun s => { s with pending := false })
  return mode

/-- Grafts what is below the top of a snapshot to below the one node of a path. -/
def load (arg : PathArg) (source : Snapshot) : Edit Nat := do
  match source.firstBadLabel with
  | some label => throw (.badArgument (.snapshotLabel label))
  | none =>
    let path ← ask (prepare · arg)
    let id ← reach path (← ask (locateNode · path))
    if source.value.isSome then
      if id = Store.root then throw (.badArgument .rootValue)
      assign id source.value
    let (created, s) ← perform (graft (← store) id source)
    setStore s
    touch id
    return created

end Edit

end LabelTree.Checked
