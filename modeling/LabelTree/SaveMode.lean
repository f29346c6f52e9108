/-!
# Flags and save modes
-/

namespace LabelTree

/-- Options of a session, one bit each. -/
structure Flags where
  bits : UInt32
  deriving DecidableEq, Repr

namespace Flags

def none : Flags := ⟨0⟩

/-- Keep a changed file as it was, under another name. -/
def backup : Flags := ⟨1⟩

/-- Write changes to a new file beside the changed one. -/
def newFile : Flags := ⟨2⟩

/-- Go through a save without writing. -/
def noop : Flags := ⟨4⟩

def union (a b : Flags) : Flags := ⟨a.bits ||| b.bits⟩

/-- Whether all options of `b` are among those of `a`. -/
def contains (a b : Flags) : Bool := a.bits &&& b.bits = b.bits

end Flags

/-- How changed files are written back. -/
inductive SaveMode where
  | overwrite
  | backup
  | newFile
  | noop
  deriving DecidableEq, Repr

namespace SaveMode

def name : SaveMode → String
  | overwrite => "overwrite"
  | backup => "backup"
  | newFile => "newfile"
  | noop => "noop"

def ofName? : String → Option SaveMode
  | "overwrite" => some overwrite
  | "backup" => some backup
  | "newfile" => some newFile
  | "noop" => some noop
  | _ => none

/-- The mode that flags ask for: of several the one that writes least. -/
def ofFlags (flags : Flags) : SaveMode :=
  if flags.contains .noop then noop
  else if flags.contains .newFile then newFile
  else if flags.contains .backup then backup
  else overwrite

theorem ofName?_name (m : SaveMode) : ofName? m.name = some m := by
  cases m <;> rfl

end SaveMode

end LabelTree
