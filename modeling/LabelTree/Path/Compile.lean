import LabelTree.Path.Basic
import LabelTree.Path.Lexemes

/-!
# Compiling paths

A recursive descent over the lexemes of a text. Each function takes the lexemes that remain and
returns those it leaves; a fault in the text is reported when it is met, so of two faults the one
that is read first wins. Compiling never looks at a tree.
-/

namespace LabelTree

namespace Lexemes

/-- The error for a token that cannot stand here. A fault in the text goes before it. -/
def refuse (s : Lexemes) (why : Token → PathFault) : PathError :=
  match s with
  | finish offset => ⟨why .endOfPath, offset⟩
  | fault e => e
  | next token offset _ => ⟨why token, offset⟩

/-- Reports a fault that comes next, before anything else is said about what was read. -/
def ready (s : Lexemes) : Except PathError Lexemes :=
  match s with
  | fault e => .error e
  | s => .ok s

end Lexemes

/-- What stands between a pair of brackets. -/
inductive Bracket where
  | predicate (p : Predicate)
  /-- `last()+1` -/
  | append
  deriving DecidableEq, Repr

namespace Bracket

/-- The literal that a comparison ends in. -/
def literal (operand : Operand) (negated : Bool) : Lexemes → Except PathError (Bracket × Lexemes)
  | .next (.string text) _ rest => .ok (predicate (.compare operand text negated), rest)
  | s => .error (s.refuse .expectedLiteral)

/-- A comparison after its operand, or the operand alone. A lone dot says nothing. -/
def comparison (operand : Operand) : Lexemes → Except PathError (Bracket × Lexemes)
  | .next .equal _ rest => literal operand false rest
  | .next .notEqual _ rest => literal operand true rest
  | s =>
    match operand with
    | .child name => .ok (predicate (.hasChild name), s)
    | .self => .error (s.refuse fun _ => .unknownPredicate)

/-- What follows `last()`: `+1`, a minus and a number, or nothing. -/
def lastOffset : Lexemes → Except PathError (Bracket × Lexemes)
  | .next .plus _ (.next (.number 1) _ rest) => .ok (append, rest)
  | .next .plus _ rest => .error (rest.refuse fun _ => .unknownPredicate)
  | .next .minus _ (.next (.number back) _ rest) => .ok (predicate (.last back), rest)
  | .next .minus _ rest => .error (rest.refuse fun _ => .unknownPredicate)
  | s => .ok (predicate (.last 0), s)

/-- What follows `last(`. -/
def lastCall : Lexemes → Except PathError (Bracket × Lexemes)
  | .next .closeParen _ rest => lastOffset rest
  | s => .error (s.refuse fun _ => .unknownPredicate)

/-- What begins with a name. The name `last` is a function only before a parenthesis. -/
def named (name : String) : Lexemes → Except PathError (Bracket × Lexemes)
  | .next .openParen offset rest =>
    if name = "last" then lastCall rest
    else comparison (.child name) (.next .openParen offset rest)
  | s => comparison (.child name) s

/-- What stands between brackets, up to the closing one. -/
def content : Lexemes → Except PathError (Bracket × Lexemes)
  | .next (.number n) _ rest => .ok (predicate (.position n), rest)
  | .next (.label name) _ rest => named name rest
  | .next .dot _ rest => comparison .self rest
  | s => .error (s.refuse fun _ => .unknownPredicate)

/-- Reads a bracket after its opening, closing included. -/
def read (s : Lexemes) : Except PathError (Bracket × Lexemes) :=
  match content s with
  | .error e => .error e
  | .ok (bracket, .next .closeBracket _ rest) => rest.ready.map fun rest => (bracket, rest)
  | .ok (_, s) => .error (s.refuse .unclosedPredicate)

/-! ## Progress -/

theorem length_literal {operand : Operand} {negated : Bool} {s s' : Lexemes} {b : Bracket}
    (h : literal operand negated s = .ok (b, s')) : s'.length ≤ s.length := by
  unfold literal at h
  split at h <;> cases h
  simp [Lexemes.length]

theorem length_comparison {operand : Operand} {s s' : Lexemes} {b : Bracket}
    (h : comparison operand s = .ok (b, s')) : s'.length ≤ s.length := by
  unfold comparison at h
  split at h
  · exact Nat.le_succ_of_le (length_literal h)
  · exact Nat.le_succ_of_le (length_literal h)
  · split at h <;> cases h
    exact Nat.le_refl _

theorem length_lastOffset {s s' : Lexemes} {b : Bracket}
    (h : lastOffset s = .ok (b, s')) : s'.length ≤ s.length := by
  unfold lastOffset at h
  split at h <;> cases h <;> grind [Lexemes.length]

theorem length_lastCall {s s' : Lexemes} {b : Bracket}
    (h : lastCall s = .ok (b, s')) : s'.length ≤ s.length := by
  unfold lastCall at h
  split at h
  · exact Nat.le_succ_of_le (length_lastOffset h)
  · cases h

theorem length_named {name : String} {s s' : Lexemes} {b : Bracket}
    (h : named name s = .ok (b, s')) : s'.length ≤ s.length := by
  unfold named at h
  split at h
  · split at h
    · exact Nat.le_succ_of_le (length_lastCall h)
    · exact length_comparison h
  · exact length_comparison h

theorem length_content {s s' : Lexemes} {b : Bracket}
    (h : content s = .ok (b, s')) : s'.length ≤ s.length := by
  unfold content at h
  split at h
  · cases h
    exact Nat.le_succ _
  · exact Nat.le_succ_of_le (length_named h)
  · exact Nat.le_succ_of_le (length_comparison h)
  · cases h

theorem length_ready {s s' : Lexemes} (h : s.ready = .ok s') : s' = s := by
  unfold Lexemes.ready at h
  split at h <;> cases h
  rfl

theorem length_bracket {s s' : Lexemes} {b : Bracket}
    (h : read s = .ok (b, s')) : s'.length < s.length := by
  unfold read at h
  split at h
  · cases h
  · rename_i bracket offset rest hc
    cases hr : rest.ready with
    | error e => rw [hr] at h; cases h
    | ok rest' =>
      rw [hr] at h
      cases h
      rw [length_ready hr]
      exact length_content hc
  · cases h

end Bracket

namespace Step

/-- The predicates of a step. An append marker among them is out of place. -/
def predicates (s : Lexemes) : Except PathError (List Predicate × Lexemes) :=
  match s with
  | .next .openBracket offset rest =>
    match h : Bracket.read rest with
    | .error e => .error e
    | .ok (.append, _) => .error ⟨.misplacedAppend, offset⟩
    | .ok (.predicate p, rest') =>
      have : rest'.length < rest.length := Bracket.length_bracket h
      (predicates rest').map fun (ps, rest) => (p :: ps, rest)
  | s => .ok ([], s)
  termination_by s.length
  decreasing_by simp only [Lexemes.length]; omega

/-- A step that ends in an append marker at `offset`. No bracket may follow the marker, and only a
label can be given to a new node. -/
def appended (axis : Axis) (offset : Nat) : Lexemes → Except PathError (Step × Lexemes)
  | .next .openBracket again _ => .error ⟨.misplacedAppend, again⟩
  | s =>
    match axis with
    | .child (.exact label) => .ok (append label offset, s)
    | _ => .error ⟨.unknownPredicate, offset⟩

/-- The step along `axis` whose brackets come next. -/
def qualified (axis : Axis) (s : Lexemes) : Except PathError (Step × Lexemes) :=
  match s with
  | .next .openBracket offset rest =>
    match Bracket.read rest with
    | .ok (.append, rest) => appended axis offset rest
    | _ => (predicates s).map fun (ps, rest) => (select axis ps, rest)
  | s => s.ready.map fun s => (select axis [], s)

/-- Reads one step. -/
def read : Lexemes → Except PathError (Step × Lexemes)
  | .next (.label label) _ rest => qualified (.child (.exact label)) rest
  | .next .star _ rest => qualified (.child .any) rest
  | .next .dot _ rest => qualified .self rest
  | .next .dotDot _ rest => qualified .parent rest
  | s => .error (s.refuse .expectedStep)

/-! ## Progress -/

theorem length_predicates {s s' : Lexemes} {ps : List Predicate}
    (h : predicates s = .ok (ps, s')) : s'.length ≤ s.length := by
  fun_induction predicates s generalizing ps s' with
  | case1 => cases h
  | case2 => cases h
  | case3 offset rest p rest' _ hlt ih =>
    cases hp : predicates rest' with
    | error e => rw [hp] at h; cases h
    | ok r =>
      rw [hp] at h
      cases h
      have := ih hp
      simp only [Lexemes.length]
      omega
  | case4 => cases h; exact Nat.le_refl _

theorem length_appended {axis : Axis} {offset : Nat} {s s' : Lexemes} {step : Step}
    (h : appended axis offset s = .ok (step, s')) : s'.length ≤ s.length := by
  unfold appended at h
  split at h
  · cases h
  · split at h <;> cases h
    exact Nat.le_refl _

theorem length_qualified {axis : Axis} {s s' : Lexemes} {step : Step}
    (h : qualified axis s = .ok (step, s')) : s'.length ≤ s.length := by
  unfold qualified at h
  split at h
  · split at h
    · rename_i hb
      have := length_appended h
      have := Bracket.length_bracket hb
      simp only [Lexemes.length]
      omega
    · rename_i offset rest _ _
      cases hp : predicates (.next .openBracket offset rest) with
      | error e => rw [hp] at h; cases h
      | ok r =>
        rw [hp] at h
        cases h
        exact length_predicates hp
  · cases hr : s.ready with
    | error e => rw [hr] at h; cases h
    | ok r =>
      rw [hr] at h
      cases h
      exact Nat.le_of_eq (congrArg Lexemes.length (Bracket.length_ready hr))

theorem length_step {s s' : Lexemes} {step : Step}
    (h : read s = .ok (step, s')) : s'.length < s.length := by
  unfold read at h
  split at h
  case h_5 => cases h
  all_goals exact Nat.lt_succ_of_le (length_qualified h)

end Step

namespace Path

/-- The steps that remain, at least one. A slash has to be followed by a step. -/
def readSteps (s : Lexemes) : Except PathError (List Step) :=
  match h : Step.read s with
  | .error e => .error e
  | .ok (step, .finish _) => .ok [step]
  | .ok (_, .fault e) => .error e
  | .ok (_, .next .slash offset (.finish _)) => .error ⟨.trailingSlash, offset⟩
  | .ok (_, .next .slash _ (.next .slash offset _)) => .error ⟨.emptyStep, offset⟩
  | .ok (step, .next .slash _ rest) =>
    have : rest.length + 1 < s.length := Step.length_step h
    (readSteps rest).map (step :: ·)
  | .ok (_, .next token offset _) => .error ⟨.trailingInput token, offset⟩
  termination_by s.length

/-- The absolute flag and the steps that the lexemes of a path stand for. -/
def read : Lexemes → Except PathError (Bool × List Step)
  | .finish offset => .error ⟨.empty, offset⟩
  | .next .slash _ (.finish _) => .ok (true, [])
  | .next .slash _ (.next .slash offset _) => .error ⟨.emptyStep, offset⟩
  | .next .slash _ rest => (readSteps rest).map (true, ·)
  | s => (readSteps s).map (false, ·)

/-- The bracket of the last append step that is not the final step. -/
def misplacedAppend? (steps : List Step) : Option Nat :=
  steps.dropLast.reverse.findSome? fun
    | .append _ offset => some offset
    | .select .. => none

/-- Compiles a path expression. The text is kept as it is. -/
def compile (text : String) : Except PathError Path :=
  match read (.ofText text) with
  | .error e => .error e
  | .ok (absolute, steps) =>
    match misplacedAppend? steps with
    | some offset => .error ⟨.misplacedAppend, offset⟩
    | none => .ok { text, absolute, steps }

end Path

end LabelTree
