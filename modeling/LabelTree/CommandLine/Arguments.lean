import LabelTree.SaveMode

/-!
# Arguments of the command line

Options may stand between the words of a command, in short form, long form, or several short ones
together; after `--` every argument is a word. An option that takes a value finds it after an equals
sign, right after its letter, or in the next argument, which must not look like an option. No option
may be given twice.
-/

namespace LabelTree.CommandLine

/-- Options that take a value. -/
inductive Setting where
  | root
  | loadPath
  | file
  | tree
  deriving DecidableEq, Repr

/-- Options that stand alone. -/
inductive Switch where
  | backup
  | newFile
  | noop
  | dump
  | echo
  | verbose
  deriving DecidableEq, Repr

inductive Opt where
  | setting (s : Setting)
  | switch (s : Switch)
  | help
  | version
  deriving DecidableEq, Repr

namespace Opt

def ofLetter? : Char → Option Opt
  | 'r' => some (.setting .root)
  | 'I' => some (.setting .loadPath)
  | 'f' => some (.setting .file)
  | 't' => some (.setting .tree)
  | 'b' => some (.switch .backup)
  | 'n' => some (.switch .newFile)
  | 'e' => some (.switch .echo)
  | 'v' => some (.switch .verbose)
  | 'h' => some .help
  | 'V' => some .version
  | _ => none

def ofName? : String → Option Opt
  | "root" => some (.setting .root)
  | "load-path" => some (.setting .loadPath)
  | "file" => some (.setting .file)
  | "tree" => some (.setting .tree)
  | "backup" => some (.switch .backup)
  | "new" => some (.switch .newFile)
  | "noop" => some (.switch .noop)
  | "dump" => some (.switch .dump)
  | "echo" => some (.switch .echo)
  | "verbose" => some (.switch .verbose)
  | "help" => some .help
  | "version" => some .version
  | _ => none

end Opt

/-- What the command line asks for. -/
structure Arguments where
  settings : List (Setting × String) := []
  switches : List Switch := []
  words : List String := []
  deriving DecidableEq, Repr

/-- Why the command line asks for no run. -/
inductive Stop where
  | usage
  | help
  | version
  deriving DecidableEq, Repr

namespace Arguments

def setting? (a : Arguments) (s : Setting) : Option String :=
  a.settings.lookup s

def has (a : Arguments) (s : Switch) : Bool :=
  a.switches.contains s

def addSetting (a : Arguments) (s : Setting) (value : String) : Except Stop Arguments :=
  if (a.setting? s).isSome then .error .usage
  else .ok { a with settings := (s, value) :: a.settings }

def addSwitch (a : Arguments) (s : Switch) : Except Stop Arguments :=
  if a.has s then .error .usage else .ok { a with switches := s :: a.switches }

def addWord (a : Arguments) (word : String) : Arguments :=
  { a with words := a.words ++ [word] }

/-- Takes letters of short options. Answers an option whose value is in the next argument. -/
def takeLetters (a : Arguments) : List Char → Except Stop (Arguments × Option Setting)
  | [] => .ok (a, none)
  | c :: cs =>
    match Opt.ofLetter? c with
    | none => .error .usage
    | some .help => .error .help
    | some .version => .error .version
    | some (.switch s) =>
      match a.addSwitch s with
      | .error stop => .error stop
      | .ok a => a.takeLetters cs
    | some (.setting s) =>
      match cs with
      | [] => .ok (a, some s)
      | '=' :: value => (a.addSetting s (String.ofList value)).map (·, none)
      | value => (a.addSetting s (String.ofList value)).map (·, none)

/-- Takes a long option without its dashes. Answers an option whose value is in the next
argument. -/
def takeName (a : Arguments) (cs : List Char) : Except Stop (Arguments × Option Setting) :=
  let name := String.ofList (cs.takeWhile (· ≠ '='))
  match Opt.ofName? name, cs.dropWhile (· ≠ '=') with
  | some (.setting s), _ :: value => (a.addSetting s (String.ofList value)).map (·, none)
  | some (.setting s), [] => .ok (a, some s)
  | some (.switch s), [] => (a.addSwitch s).map (·, none)
  | some .help, [] => .error .help
  | some .version, [] => .error .version
  | _, _ => .error .usage

/-- Whether an argument looks like an option; a single dash does not. -/
def isOption (arg : String) : Bool :=
  match arg.toList with
  | '-' :: _ :: _ => true
  | _ => false

/-- Takes the arguments in turn, where `awaiting` is an option whose value comes next. -/
def takeAll (a : Arguments) (awaiting : Option Setting) : List String → Except Stop Arguments
  | [] => if awaiting.isSome then .error .usage else .ok a
  | arg :: rest =>
    match awaiting with
    | some s =>
      if isOption arg then .error .usage
      else
        match a.addSetting s arg with
        | .error stop => .error stop
        | .ok a => a.takeAll none rest
    | none =>
      match arg.toList with
      | ['-', '-'] => .ok (rest.foldl addWord a)
      | '-' :: '-' :: name =>
        match a.takeName name with
        | .error stop => .error stop
        | .ok (a, awaiting) => a.takeAll awaiting rest
      | '-' :: c :: letters =>
        match a.takeLetters (c :: letters) with
        | .error stop => .error stop
        | .ok (a, awaiting) => a.takeAll awaiting rest
      | _ => (a.addWord arg).takeAll none rest

def parse (args : List String) : Except Stop Arguments :=
  takeAll {} none args

/-- The flags that the switches ask for. -/
def flags (a : Arguments) : Flags :=
  let flag (s : Switch) (f : Flags) : Flags := if a.has s then f else .none
  ((flag .backup .backup).union (flag .newFile .newFile)).union (flag .noop .noop)

end Arguments

end LabelTree.CommandLine
