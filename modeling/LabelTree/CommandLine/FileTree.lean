import LabelTree.Text.Cut

/-!
# Files by name

Why a file cannot be read, and which file a name leads to. A tree of files in memory gives each file
by its way down from the top. A name is followed part by part, from the top when it begins with a
slash and from the working directory when it does not: an empty part and `.` stay, `..` goes up, and
any other part is looked up. Whatever comes next, even an empty part, asks for a directory.
-/

namespace LabelTree.CommandLine

inductive FileError where
  | notFound
  | noDevice
  | permissionDenied
  | notDirectory
  | isDirectory
  | nameTooLong
  | notText
  | other (text : String)
  deriving DecidableEq, Repr

namespace FileError

def message : FileError → String
  | notFound => "No such file or directory (os error 2)"
  | noDevice => "No such device or address (os error 6)"
  | permissionDenied => "Permission denied (os error 13)"
  | notDirectory => "Not a directory (os error 20)"
  | isDirectory => "Is a directory (os error 21)"
  | nameTooLong => "File name too long (os error 36)"
  | notText => "stream did not contain valid UTF-8"
  | other text => text

/-- The error that has a number in the system. -/
def ofNumber? : Nat → Option FileError
  | 2 => some notFound
  | 6 => some noDevice
  | 13 => some permissionDenied
  | 20 => some notDirectory
  | 21 => some isDirectory
  | 36 => some nameTooLong
  | _ => none

end FileError

/-- What reading a file gives. -/
inductive FileContent where
  | text (text : String)
  /-- What is left of standard input. -/
  | input
  | unreadable (error : FileError)
  deriving DecidableEq, Repr

structure FileTree where
  files : List (List String × FileContent)
  /-- Directories; those on the way to a file need not be among them. -/
  directories : List (List String)
  /-- The directory where names begin that begin with no slash. -/
  workingDirectory : List String
  deriving DecidableEq, Repr

/-- The parts of a file name between its slashes. -/
def nameParts (name : String) : List String :=
  (Text.splitFields '/' name.toList).map String.ofList

/-- The greatest number of bytes in a file name. -/
def maxNameLength : Nat := 4095

/-- The greatest number of bytes in one part of a file name. -/
def maxPartLength : Nat := 255

namespace FileTree

/-- Every place in the tree: each file, each directory, and all that lies on the way to them. -/
def isPlace (t : FileTree) (place : List String) : Bool :=
  (t.workingDirectory :: t.directories ++ t.files.map Prod.fst).any place.isPrefixOf

def isDirectory (t : FileTree) (place : List String) : Bool :=
  t.isPlace place && (t.files.lookup place).isNone

/-- Follows the parts of a name from a place. -/
def follow (t : FileTree) (place : List String) : List String → Except FileError (List String)
  | [] => .ok place
  | part :: rest =>
    if !t.isDirectory place then .error .notDirectory
    else if part = "" ∨ part = "." then t.follow place rest
    else if part = ".." then t.follow place.dropLast rest
    else if part.utf8ByteSize > maxPartLength then .error .nameTooLong
    else if t.isPlace (place ++ [part]) then t.follow (place ++ [part]) rest
    else .error .notFound

/-- The place that a name leads to. -/
def find (t : FileTree) (name : String) : Except FileError (List String) :=
  if name = "" then .error .notFound
  else if name.utf8ByteSize > maxNameLength then .error .nameTooLong
  else t.follow (if name.toList.head? = some '/' then [] else t.workingDirectory) (nameParts name)

/-- What reading the file of a name gives. -/
def content (t : FileTree) (name : String) : FileContent :=
  match t.find name with
  | .error error => .unreadable error
  | .ok place => (t.files.lookup place).getD (.unreadable .isDirectory)

end FileTree

end LabelTree.CommandLine
