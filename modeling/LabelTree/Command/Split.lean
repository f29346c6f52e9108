import LabelTree.Command.Basic
import LabelTree.Text.Class
import LabelTree.Text.Quoted

/-!
# Arguments of a line

Blanks separate arguments, except inside quotes and brackets. An argument that begins with a quote
is a quoted literal; any other is taken as it is written, with its backslashes and the quotes inside
its brackets.
-/

namespace LabelTree.Command

/-- Why a line cannot be split. -/
inductive SplitFault where
  | unterminatedQuote
  | unbalancedBrackets
  deriving DecidableEq, Repr

/-- Characters of an argument up to the next blank outside brackets, and what follows them. The
depth counts open brackets; a quote opens a literal only inside brackets, and a backslash takes the
character after it along. -/
def bare (depth : Nat) (quote : Option Char) :
    List Char → Except SplitFault (List Char × List Char)
  | [] =>
    if quote.isSome then .error .unterminatedQuote
    else if depth > 0 then .error .unbalancedBrackets
    else .ok ([], [])
  | '\\' :: c :: cs => (bare depth quote cs).map fun (arg, rest) => ('\\' :: c :: arg, rest)
  | c :: cs =>
    match quote with
    | some q =>
      (bare depth (if c = q then none else some q) cs).map fun (arg, rest) => (c :: arg, rest)
    | none =>
      if depth = 0 ∧ Text.isBlank c then .ok ([], c :: cs)
      else if c = ']' ∧ depth = 0 then .error .unbalancedBrackets
      else
        let depth' := if c = '[' then depth + 1 else if c = ']' then depth - 1 else depth
        let quote' := if Text.isQuote c ∧ depth > 0 then some c else none
        (bare depth' quote' cs).map fun (arg, rest) => (c :: arg, rest)

theorem append_of_map {e : Except SplitFault (List Char × List Char)} (front : List Char)
    {arg rest : List Char}
    (h : (e.map fun (a, r) => (front ++ a, r)) = .ok (arg, rest)) :
    ∃ a, e = .ok (a, rest) ∧ arg = front ++ a := by
  cases e with
  | error _ => cases h
  | ok r =>
    cases h
    exact ⟨r.1, rfl, rfl⟩

/-- An argument is taken as it is written. -/
theorem bare_append {depth : Nat} {quote : Option Char} {cs arg rest : List Char}
    (h : bare depth quote cs = .ok (arg, rest)) : arg ++ rest = cs := by
  fun_induction bare depth quote cs generalizing arg rest with
  | case3 => cases h; rfl
  | case4 depth quote c cs ih =>
    obtain ⟨a, ha, rfl⟩ := append_of_map ['\\', c] h
    simp [ih ha]
  | case5 depth c cs _ q ih =>
    obtain ⟨a, ha, rfl⟩ := append_of_map [c] h
    simp [ih ha]
  | case6 => cases h; rfl
  | case8 =>
    rename_i c cs _ _ _ _ _ ih
    obtain ⟨a, ha, rfl⟩ := append_of_map [c] h
    simp [ih ha]
  | _ => cases h

/-- An argument that begins with no blank is not empty. -/
theorem bare_ne_nil {c : Char} {cs rest : List Char} (hc : Text.isBlank c = false) :
    bare 0 none (c :: cs) ≠ .ok ([], rest) := by
  intro h
  unfold bare at h
  split at h
  · rename_i heq
    cases heq
  · rename_i d ds _
    obtain ⟨a, -, ha⟩ := append_of_map ['\\', d] h
    cases ha
  · rename_i d ds _ heq
    cases heq
    dsimp only at h
    rw [if_neg (by simp [hc])] at h
    split at h
    · cases h
    · obtain ⟨a, -, ha⟩ := append_of_map [c] h
      cases ha

theorem length_bare {c : Char} {cs arg rest : List Char} (hc : Text.isBlank c = false)
    (h : bare 0 none (c :: cs) = .ok (arg, rest)) : rest.length < (c :: cs).length := by
  cases arg with
  | nil => exact absurd h (bare_ne_nil hc)
  | cons a as =>
    rw [← bare_append h, List.length_append, List.length_cons]
    omega

/-- The blanks before an argument end where it begins. -/
theorem isBlank_of_trimLeft {cs rest : List Char} {c : Char} (h : Text.trimLeft cs = c :: rest) :
    Text.isBlank c = false := by
  have := List.head?_dropWhile_not Text.isBlank cs
  rw [Text.trimLeft] at h
  simpa [h] using this

theorem length_of_trimLeft {cs rest : List Char} {c : Char} (h : Text.trimLeft cs = c :: rest) :
    rest.length < cs.length := by
  have := (List.dropWhile_suffix Text.isBlank (l := cs)).length_le
  rw [Text.trimLeft] at h
  rw [h, List.length_cons] at this
  exact this

/-- The arguments among the characters of a line. -/
def splitChars (cs : List Char) : Except SplitFault (List (List Char)) :=
  match h : Text.trimLeft cs with
  | [] => .ok []
  | c :: rest =>
    have : rest.length < cs.length := length_of_trimLeft h
    if Text.isQuote c then
      match hq : Text.unquote c rest with
      | none => .error .unterminatedQuote
      | some (arg, rest') =>
        have : rest'.length < rest.length := Text.length_unquote hq
        (splitChars rest').map (arg :: ·)
    else
      match hb : bare 0 none (c :: rest) with
      | .error e => .error e
      | .ok (arg, rest') =>
        have : rest'.length < rest.length + 1 := length_bare (isBlank_of_trimLeft h) hb
        (splitChars rest').map (arg :: ·)
  termination_by cs.length

/-- The arguments of a line. -/
def splitArgs (line : String) : Except CommandError (List String) :=
  match splitChars line.toList with
  | .ok args => .ok (args.map String.ofList)
  | .error .unterminatedQuote => .error (.unterminatedQuote line)
  | .error .unbalancedBrackets => .error (.unbalancedBrackets line)

end LabelTree.Command
