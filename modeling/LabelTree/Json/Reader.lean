import LabelTree.Json.Skip

/-!
# JSON: readers

Reading a value of a known type. A reader takes at least one character, which is what makes the
loops over fields and elements end.
-/

namespace LabelTree.Json

/-- A reader of one value, which takes at least one character. -/
structure Reader (α : Type) where
  read : List Char → Scan α
  length_lt : ∀ {cs rest : List Char} {a : α}, read cs = .ok (a, rest) → rest.length < cs.length

/-! ## Strings -/

/-- The fault of a string in the place of another value. -/
def stringFault (cs : List Char) : Fault :=
  match quoted true cs with
  | .error e => e
  | .ok _ => .mistyped

/-- The fault of a fixed word in the place of another value. -/
def wordFault (letters cs : List Char) : Fault :=
  match word letters cs with
  | .error e => e
  | .ok _ => .mistyped

/-- The fault of a value of the wrong type. A word, number or string is read whole before its type
is found wrong, a list or an object is refused at its bracket. -/
def typeFault : List Char → Fault
  | [] => .truncated
  | 'n' :: cs => wordFault ['u', 'l', 'l'] cs
  | 't' :: cs => wordFault ['r', 'u', 'e'] cs
  | 'f' :: cs => wordFault ['a', 'l', 's', 'e'] cs
  | '-' :: cs => numberFault cs
  | '"' :: cs => stringFault cs
  | '[' :: _ => .mistyped
  | '{' :: _ => .mistyped
  | c :: cs => if c.isDigit then numberFault (c :: cs) else .malformed

/-- Reads a string. -/
def readText (cs : List Char) : Scan String :=
  match skipSpace cs with
  | '"' :: rest => (quoted true rest).map fun (text, rest) => (String.ofList text, rest)
  | other => .error (typeFault other)

/-- Reads a string or `null`. -/
def readOptionalText (cs : List Char) : Scan (Option String) :=
  match skipSpace cs with
  | 'n' :: rest => (word ['u', 'l', 'l'] rest).map fun rest => (none, rest)
  | other => (readText other).map fun (text, rest) => (some text, rest)

theorem length_readText {cs rest : List Char} {text : String}
    (h : readText cs = .ok (text, rest)) : rest.length < cs.length := by
  unfold readText at h
  split at h
  · rename_i after hc
    cases hq : quoted true after with
    | error e => rw [hq] at h; cases h
    | ok r =>
      rw [hq] at h
      cases h
      have := length_quoted hq
      have := length_of_skipSpace hc
      omega
  · cases h

theorem length_readOptionalText {cs rest : List Char} {text : Option String}
    (h : readOptionalText cs = .ok (text, rest)) : rest.length < cs.length := by
  unfold readOptionalText at h
  split at h
  · rename_i after hc
    cases hw : word ['u', 'l', 'l'] after with
    | error e => rw [hw] at h; cases h
    | ok r =>
      rw [hw] at h
      cases h
      have := length_word hw
      have := length_of_skipSpace hc
      omega
  · cases ht : readText (skipSpace cs) with
    | error e => rw [ht] at h; cases h
    | ok r =>
      rw [ht] at h
      cases h
      exact Nat.lt_of_lt_of_le (length_readText ht) (length_skipSpace cs)

/-! ## Lists -/

/-- Reads the elements of a list, at least one, and its closing bracket. -/
def elements {α : Type} (item : Reader α) (cs : List Char) : Scan (List α) :=
  match h : item.read cs with
  | .error e => .error e
  | .ok (a, rest) =>
    have : rest.length < cs.length := item.length_lt h
    match hs : skipSpace rest with
    | ']' :: after => .ok ([a], after)
    | ',' :: after =>
      have : after.length < rest.length := length_of_skipSpace hs
      (elements item after).map fun (as, rest) => (a :: as, rest)
    | [] => .error .truncated
    | _ => .error .malformed
  termination_by cs.length

theorem length_elements {α : Type} {item : Reader α} {cs rest : List Char} {as : List α}
    (h : elements item cs = .ok (as, rest)) : rest.length < cs.length := by
  fun_induction elements item cs generalizing as rest with
  | case1 => cases h
  | case2 cs a left _ hlt after hs =>
    cases h
    exact Nat.lt_trans (length_of_skipSpace hs) hlt
  | case3 cs a left _ hlt after hs hlt' ih =>
    cases he : elements item after with
    | error e => rw [he] at h; cases h
    | ok r =>
      rw [he] at h
      cases h
      have := ih he
      omega
  | case4 => cases h
  | case5 => cases h

end LabelTree.Json
