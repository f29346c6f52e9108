import LabelTree.Checked.Path
import LabelTree.Checked.Resolve
import LabelTree.Checked.Store
import LabelTree.Session.Read

/-!
# Partial steps — sessions

How a session is opened, and what it is asked, with compiled paths, resolved nodes and new nodes
that come from partial steps.
-/

namespace LabelTree.Checked

/-! ## Opening -/

/-- A store with one more child below `parent`, when that is a node. -/
def withChild (s : Store) (parent : NodeId) (label : String) (value : Option String) :
    Option Store := do
  match ← appendChild s parent label with
  | none => return s
  | some (id, s) => return (s.setValue id value).getD s

/-- The first nodes of a session below the meta node. -/
def configure (s : Store) (node : NodeId) (root : String) (dirs : List String) (flags : Flags) :
    Option Store := do
  let s ← withChild s node "root" (some (Session.rootDirectory root))
  let s ← withChild s node "save" (some (SaveMode.ofFlags flags).name)
  let s ← withChild s node "context" (some ("/" ++ Session.filesLabel))
  let s ← withChild s node "version" (some Session.version)
  match ← appendChild s node "loadpath" with
  | none => return s
  | some (loadpath, s) => dirs.foldlM (fun s dir => withChild s loadpath "path" (some dir)) s

/-- A new session. -/
def createSession (root : String) (loadPath : Option String) (flags : Flags) : Option Session := do
  let dirs := (loadPath.map (Text.fields ':')).getD []
  let store ←
    match ← appendChild Store.new Store.root metaLabel with
    | none => pure Store.new
    | some (node, s) => configure s node root dirs flags
  let store ← withChild store Store.root Session.filesLabel none
  return { store, flags, pending := false, saves := 0 }

/-! ## Questions -/

/-- What a session answers, or an error. -/
abbrev Answer := ExceptT EngineError Option

/-- An answer without partial steps. -/
def answered {α : Type} (answer : Except EngineError α) : Answer α :=
  ExceptT.mk (some answer)

/-- The path of a text. -/
def compileText (text : String) : Answer Path :=
  ExceptT.mk do return (← compile text).mapError (.invalidPath text)

/-- The path of an argument. Text is trimmed before it is compiled. -/
def compileArg : PathArg → Answer Path
  | .compiled path => return path
  | .text text => compileText (Text.trim text)

/-- A relative path becomes one below the context. -/
def anchor (s : Session) (path : Path) : Answer Path := do
  if path.absolute then return path
  return path.rebase (← compileText s.context)

/-- The path of an argument, anchored at the context. -/
def prepare (s : Session) (arg : PathArg) : Answer Path := do
  anchor s (← compileArg arg)

/-- The same for an argument that has to name existing nodes. -/
def prepareExisting (s : Session) (arg : PathArg) : Answer Path := do
  let path ← compileArg arg
  answered (Session.rejectAppend path)
  anchor s path

/-- The nodes that an anchored path leads to. -/
def resolveNodes (s : Session) (path : Path) : Answer (List NodeId) :=
  ExceptT.lift (resolve s.store path Store.root)

/-- The one node that an anchored path leads to. -/
def resolveSingle (s : Session) (path : Path) : Answer NodeId := do
  match ← resolveNodes s path with
  | [] => throw (.noMatch path.text)
  | [id] => return id
  | ids => throw (.multipleMatches path.text ids.length)

/-- The one node that an anchored path leads to, or where it would be made. -/
def locateNode (s : Session) (path : Path) : Answer Location :=
  ExceptT.mk do
    return (← locate s.store path Store.root).mapError fun
      | .multipleMatches count => .multipleMatches path.text count
      | .cannotCreate i fault => .cannotCreate path.text (.step i fault)

/-- The value of the one node that a path leads to; none when it leads nowhere. -/
def readValue (s : Session) (arg : PathArg) : Answer (Option String) := do
  let path ← prepareExisting s arg
  match ← resolveNodes s path with
  | [] => return none
  | [id] => return s.store.value id
  | ids => throw (.multipleMatches path.text ids.length)

/-- Entries for the nodes that a path leads to. -/
def entries (s : Session) (arg : PathArg) (scope : Scope) : Answer (List Entry) := do
  let path ← prepareExisting s arg
  let ids ← resolveNodes s path
  match scope with
  | .nodes => return ids.map s.store.entry
  | .children => return (ids.flatMap s.store.children).map s.store.entry
  | .subtree => return ids.flatMap s.store.subtreeEntries

/-- A copy of the subtree of the one node that a path leads to. -/
def snapshot (s : Session) (arg : PathArg) : Answer Snapshot := do
  let path ← prepareExisting s arg
  let id ← resolveSingle s path
  let depth := s.store.subtreeDepth id
  if depth > Snapshot.maxDepth then throw (.badArgument (.snapshotDepth path.text depth))
  return s.store.snapshot id

end LabelTree.Checked
