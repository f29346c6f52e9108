import LabelTree.CommandLine.Run

/-!
# The program

Reads files, input and environment for a run from the command line, and prints what it leaves.
-/

namespace LabelTree.CommandLine

/-- The number of an error in the system, which may come negated. -/
def errorNumber (code : UInt32) : Nat :=
  min code.toNat (0 - code).toNat

/-- Why a file cannot be read. -/
def fileError (error : IO.Error) : FileError :=
  let known (code : UInt32) :=
    (FileError.ofNumber? (errorNumber code)).getD (.other (toString error))
  match error with
  | .noFileOrDirectory _ code _ => known code
  | .permissionDenied _ code _ => known code
  | .inappropriateType _ code _ => known code
  | .invalidArgument _ code _ => known code
  | .noSuchThing _ code _ => known code
  | _ => .other (toString error)

/-- Bytes as text. -/
def decode (bytes : ByteArray) : Except FileError String :=
  match String.fromUTF8? bytes with
  | some text => .ok text
  | none => .error .notText

/-- The text of a file. -/
def fileText (name : String) : IO (Except FileError String) := do
  try
    return decode (← IO.FS.readBinFile name)
  catch error =>
    return .error (fileError error)

/-- The rest of the bytes of a stream, after `read`. -/
partial def readAll (stream : IO.FS.Stream) (read : ByteArray) : IO ByteArray := do
  let chunk ← stream.read 65536
  if chunk.isEmpty then return read
  readAll stream (read ++ chunk)

/-- The text on standard input; a terminal has none. -/
def readInput : IO (Except FileError String) := do
  let input ← IO.getStdin
  if ← input.isTty then return .ok ""
  return decode (← readAll input ByteArray.empty)

end LabelTree.CommandLine

open LabelTree.CommandLine

def main (args : List String) : IO UInt32 := do
  let env : Environment IO :=
    { fileText, stdin := readInput, defaultRoot := ← IO.getEnv "CFGTREE_ROOT" }
  let outcome ← run env args
  IO.print outcome.stdout
  IO.eprint outcome.stderr
  return outcome.exit.toUInt32
