import LabelTree.Error
import LabelTree.Path.Compile
import LabelTree.Store.Edit
import LabelTree.Text.Cut

/-!
# Sessions

A session is a tree being edited. Its configuration is part of the tree: the first top-level node
with the meta label holds the root directory, the save mode and the context, the path below which
relative paths start. A session also knows whether the tree was changed outside that subtree since
the last save, and how many saves had such changes.
-/

namespace LabelTree

structure Session where
  store : Store
  flags : Flags
  /-- Whether there are changes outside the meta subtree since the last save. -/
  pending : Bool
  /-- Number of saves that had changes. -/
  saves : Nat
  deriving DecidableEq, Repr

/-- A path argument: text yet to be compiled, or a compiled path. -/
inductive PathArg where
  | text (text : String)
  | compiled (path : Path)
  deriving DecidableEq, Repr

namespace Store

/-- A store with one more child below `parent`, when that is a node. -/
def withChild (s : Store) (parent : NodeId) (label : String) (value : Option String) : Store :=
  match s.appendChild parent label with
  | none => s
  | some (id, s) => (s.setValue id value).getD s

/-- The first child with a label. -/
def findChild? (s : Store) (parent : NodeId) (label : String) : Option NodeId :=
  (s.children parent).find? fun c => s.label c = some label

/-- The first child with a label, made at the end when there is none. -/
def findOrAppend (s : Store) (parent : NodeId) (label : String) : Option (NodeId × Store) :=
  match s.findChild? parent label with
  | some id => some (id, s)
  | none => s.appendChild parent label

end Store

namespace Session

/-! ## Opening -/

/-- The version shown in the meta subtree. -/
def version : String := "0.2.0"

/-- The label of the subtree that relative paths start in at first. -/
def filesLabel : String := "files"

/-- The root directory with a slash at its end. -/
def rootDirectory (root : String) : String :=
  if root.isEmpty then "/" else if root.toList.getLast? = some '/' then root else root ++ "/"

/-- The first nodes of a session below the meta node: its configuration and its load path. -/
def configure (s : Store) (node : NodeId) (root : String) (dirs : List String) (flags : Flags) :
    Store :=
  let s := s.withChild node "root" (some (rootDirectory root))
  let s := s.withChild node "save" (some (SaveMode.ofFlags flags).name)
  let s := s.withChild node "context" (some ("/" ++ filesLabel))
  let s := s.withChild node "version" (some version)
  match s.appendChild node "loadpath" with
  | none => s
  | some (loadpath, s) => dirs.foldl (fun s dir => s.withChild loadpath "path" (some dir)) s

/-- A new session. The load path lists directories between colons. -/
def create (root : String) (loadPath : Option String) (flags : Flags) : Session :=
  let dirs := (loadPath.map (Text.fields ':')).getD []
  let store :=
    match Store.new.appendChild Store.root metaLabel with
    | none => Store.new
    | some (node, s) => configure s node root dirs flags
  { store := store.withChild Store.root filesLabel none, flags, pending := false, saves := 0 }

/-! ## The meta subtree -/

/-- The node that holds the configuration. -/
def metaNode? (s : Session) : Option NodeId :=
  s.store.findChild? Store.root metaLabel

/-- The value of the first child of the meta node with a label. -/
def metaValue? (s : Session) (label : String) : Option String :=
  s.metaNode?.bind fun node => (s.store.findChild? node label).bind s.store.value

def inMeta (s : Session) (id : NodeId) : Bool :=
  s.metaNode?.any fun node => s.store.isWithin id node

/-- Marks a change at a node. Changes of the configuration do not count. -/
def touch (s : Session) (id : NodeId) : Session :=
  if s.inMeta id then s else { s with pending := true }

/-! ## Path arguments -/

/-- The path of an argument. Text is trimmed before it is compiled. -/
def compileArg : PathArg → Except EngineError Path
  | .compiled path => .ok path
  | .text text =>
    (Path.compile (Text.trim text)).mapError (.invalidPath (Text.trim text))

/-- The path below which relative paths start: the root when the configuration names none. -/
def context (s : Session) : String :=
  match s.metaValue? "context" with
  | some text => if Text.isBlankText text then "/" else text
  | none => "/"

/-- A relative path becomes one below the context. -/
def anchor (s : Session) (path : Path) : Except EngineError Path :=
  if path.absolute then .ok path
  else ((Path.compile s.context).mapError (.invalidPath s.context)).map path.rebase

/-- Refuses a path that ends in an append step. -/
def rejectAppend (path : Path) : Except EngineError Unit :=
  match path.appendOffset? with
  | some offset => .error (.invalidPath path.text ⟨.appendNotAllowed, offset⟩)
  | none => .ok ()

/-- The path of an argument, anchored at the context. -/
def prepare (s : Session) (arg : PathArg) : Except EngineError Path := do
  let path ← compileArg arg
  s.anchor path

/-- The same for an argument that has to name existing nodes. An append step is refused before the
path is anchored, so that its offset belongs to the text of the argument. -/
def prepareExisting (s : Session) (arg : PathArg) : Except EngineError Path := do
  let path ← compileArg arg
  rejectAppend path
  s.anchor path

/-! ## Nodes of a path -/

/-- The nodes that an anchored path leads to. -/
def resolve (s : Session) (path : Path) : List NodeId :=
  s.store.resolve path Store.root

/-- The one node that an anchored path leads to. -/
def resolveSingle (s : Session) (path : Path) : Except EngineError NodeId :=
  match s.resolve path with
  | [] => .error (.noMatch path.text)
  | [id] => .ok id
  | ids => .error (.multipleMatches path.text ids.length)

/-- The one node that an anchored path leads to, or where it would be made. -/
def locate (s : Session) (path : Path) : Except EngineError Location :=
  (s.store.locate path Store.root).mapError fun
    | .multipleMatches count => .multipleMatches path.text count
    | .cannotCreate i fault => .cannotCreate path.text (.step i fault)

end Session

end LabelTree
