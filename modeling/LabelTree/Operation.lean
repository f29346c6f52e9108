import LabelTree.Script

/-!
# Operations

The calls of an engine as values, so that a run is a list of operations.
-/

namespace LabelTree

inductive Operation where
  | get (path : PathArg)
  | set (path : PathArg) (value : Option String)
  | setMany (path : PathArg) (values : List (Option String))
  | clear (path : PathArg)
  | remove (path : PathArg)
  | move (src dst : PathArg)
  | insert (path : PathArg) (label : String) (before : Bool)
  | addresses (path : PathArg)
  | entries (path : PathArg)
  | children (path : PathArg)
  | subtree (path : PathArg)
  | save
  | snapshot (path : PathArg)
  | load (path : PathArg) (source : Snapshot)
  | runScript (text : String)
  | close

/-- What an operation answers. -/
inductive Reply where
  | done
  | value (value : Option String)
  | count (n : Nat)
  | paths (paths : List String)
  | entries (entries : List Entry)
  | mode (mode : SaveMode)
  | snapshot (snapshot : Snapshot)
  | ran (outcome : Outcome) (out : String)

/-- The call that an operation stands for. -/
def Operation.call : Operation → Call Reply
  | get path => return .value (← Engine.get path)
  | set path value => do
    Engine.set path value
    return .done
  | setMany path values => return .count (← Engine.setMany path values)
  | clear path => do
    Engine.clear path
    return .done
  | remove path => return .count (← Engine.remove path)
  | move src dst => do
    Engine.move src dst
    return .done
  | insert path label before => do
    Engine.insert path label before
    return .done
  | addresses path => return .paths (← Engine.addresses path)
  | entries path => return .entries (← Engine.entries path)
  | children path => return .entries (← Engine.children path)
  | subtree path => return .entries (← Engine.subtree path)
  | save => return .mode (← Engine.save)
  | snapshot path => return .snapshot (← Engine.snapshot path)
  | load path source => return .count (← Engine.load path source)
  | runScript text => do
    let (outcome, out) ← Engine.runScript text
    return .ran outcome out
  | close => do
    Engine.close
    return .done

namespace Engine

/-- The answer to an operation, and the engine after it. -/
def answer (e : Engine) (operation : Operation) : Except EngineError Reply × Engine :=
  operation.call.run.run e

/-- The engine after a run of operations, whatever they answered. -/
def after (e : Engine) (operations : List Operation) : Engine :=
  operations.foldl (fun e operation => (e.answer operation).2) e

end Engine

end LabelTree
