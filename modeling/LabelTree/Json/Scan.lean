import LabelTree.Text.Cut

/-!
# JSON: words

Reading JSON text from left to right stops at the first fault. The functions here read blanks, fixed
words and strings; each takes the characters that remain and returns those it leaves.
-/

namespace LabelTree.Json

/-- Why JSON text is refused. -/
inductive Fault where
  /-- The text is not JSON, or nests too deeply. -/
  | malformed
  /-- The text is JSON so far, but holds a value of the wrong type or a key twice. -/
  | mistyped
  /-- The text ends too early. -/
  | truncated
  deriving DecidableEq, Repr

abbrev Scan (α : Type) := Except Fault (α × List Char)

/-- Blanks between the words of JSON. -/
def isSpace (c : Char) : Bool :=
  c = ' ' || c = '\n' || c = '\t' || c = '\r'

def skipSpace (cs : List Char) : List Char :=
  cs.dropWhile isSpace

theorem length_skipSpace (cs : List Char) : (skipSpace cs).length ≤ cs.length :=
  (List.dropWhile_suffix isSpace).length_le

theorem length_of_skipSpace {cs rest : List Char} {c : Char} (h : skipSpace cs = c :: rest) :
    rest.length < cs.length := by
  have := length_skipSpace cs
  rw [h] at this
  exact this

/-- Reads the characters of a fixed word. -/
def word : List Char → List Char → Except Fault (List Char)
  | [], cs => .ok cs
  | _ :: _, [] => .error .truncated
  | w :: ws, c :: cs => if c = w then word ws cs else .error .malformed

theorem length_word {ws cs rest : List Char} (h : word ws cs = .ok rest) :
    rest.length ≤ cs.length := by
  fun_induction word ws cs with
  | case1 => cases h; exact Nat.le_refl _
  | case2 => cases h
  | case3 _ _ _ ih => exact Nat.le_succ_of_le (ih h)
  | case4 => cases h

/-! ## Strings -/

def hexDigit (c : Char) : Option Nat :=
  if '0' ≤ c ∧ c ≤ '9' then some (c.toNat - '0'.toNat)
  else if 'a' ≤ c ∧ c ≤ 'f' then some (c.toNat - 'a'.toNat + 10)
  else if 'A' ≤ c ∧ c ≤ 'F' then some (c.toNat - 'A'.toNat + 10)
  else none

/-- Reads four hexadecimal digits. Too few bytes are a fault of their own, whatever they hold. -/
def hexQuad (cs : List Char) : Scan Nat :=
  if Text.byteLength cs < 4 then .error .truncated
  else
    match cs with
    | a :: b :: c :: d :: rest =>
      match hexDigit a, hexDigit b, hexDigit c, hexDigit d with
      | some a, some b, some c, some d => .ok (((a * 16 + b) * 16 + c) * 16 + d, rest)
      | _, _, _, _ => .error .malformed
    | _ => .error .malformed

def isHighSurrogate (n : Nat) : Bool := 0xD800 ≤ n && n ≤ 0xDBFF

def isLowSurrogate (n : Nat) : Bool := 0xDC00 ≤ n && n ≤ 0xDFFF

/-- The character beyond U+FFFF that a pair of surrogates stands for. -/
def pairedChar (high low : Nat) : Char :=
  Char.ofNat ((high - 0xD800) * 0x400 + (low - 0xDC00) + 0x10000)

/-- Reads what follows `\u`. A surrogate has to be one of a pair; a string that is only passed over
may hold lone ones. -/
def unicodeEscape (strict : Bool) (cs : List Char) : Scan Char :=
  match hexQuad cs with
  | .error e => .error e
  | .ok (n, rest) =>
    if !strict then .ok (Char.ofNat n, rest)
    else if isLowSurrogate n then .error .malformed
    else if !isHighSurrogate n then .ok (Char.ofNat n, rest)
    else
      match rest with
      | [] => .error .truncated
      | ['\\'] => .error .truncated
      | '\\' :: 'u' :: rest =>
        match hexQuad rest with
        | .error e => .error e
        | .ok (low, rest) =>
          if isLowSurrogate low then .ok (pairedChar n low, rest) else .error .malformed
      | _ => .error .malformed

/-- Reads what follows a backslash. -/
def escape (strict : Bool) : List Char → Scan Char
  | [] => .error .truncated
  | '"' :: cs => .ok ('"', cs)
  | '\\' :: cs => .ok ('\\', cs)
  | '/' :: cs => .ok ('/', cs)
  | 'b' :: cs => .ok ('\x08', cs)
  | 'f' :: cs => .ok ('\x0c', cs)
  | 'n' :: cs => .ok ('\n', cs)
  | 'r' :: cs => .ok ('\r', cs)
  | 't' :: cs => .ok ('\t', cs)
  | 'u' :: cs => unicodeEscape strict cs
  | _ :: _ => .error .malformed

theorem length_hexQuad {cs rest : List Char} {n : Nat} (h : hexQuad cs = .ok (n, rest)) :
    rest.length < cs.length := by
  unfold hexQuad at h
  split at h
  · cases h
  · split at h
    · split at h <;> cases h
      simp only [List.length_cons]
      omega
    · cases h

theorem length_unicodeEscape {strict : Bool} {cs rest : List Char} {c : Char}
    (h : unicodeEscape strict cs = .ok (c, rest)) : rest.length < cs.length := by
  unfold unicodeEscape at h
  split at h
  · cases h
  · rename_i n after hq
    have := length_hexQuad hq
    split at h
    · cases h; exact this
    · split at h
      · cases h
      · split at h
        · cases h; exact this
        · split at h
          · cases h
          · cases h
          · split at h
            · cases h
            · rename_i low last hl
              have := length_hexQuad hl
              split at h
              · obtain ⟨-, rfl⟩ := Prod.mk.inj (Except.ok.inj h)
                simp only [List.length_cons] at *
                omega
              · cases h
          · cases h

theorem length_escape {strict : Bool} {cs rest : List Char} {c : Char}
    (h : escape strict cs = .ok (c, rest)) : rest.length < cs.length := by
  unfold escape at h
  split at h
  case h_10 => exact Nat.lt_succ_of_lt (length_unicodeEscape h)
  all_goals cases h
  all_goals simp

/-- Reads the characters of a string after its opening quote, closing quote included. -/
def quoted (strict : Bool) (cs : List Char) : Scan (List Char) :=
  match cs with
  | [] => .error .truncated
  | '"' :: rest => .ok ([], rest)
  | '\\' :: rest =>
    match h : escape strict rest with
    | .error e => .error e
    | .ok (c, rest') =>
      have : rest'.length < rest.length := length_escape h
      (quoted strict rest').map fun (text, rest) => (c :: text, rest)
  | c :: rest =>
    if c.toNat < 0x20 then .error .malformed
    else (quoted strict rest).map fun (text, rest) => (c :: text, rest)
  termination_by cs.length

theorem length_quoted {strict : Bool} {cs text rest : List Char}
    (h : quoted strict cs = .ok (text, rest)) : rest.length < cs.length := by
  fun_induction quoted strict cs generalizing text rest with
  | case1 => cases h
  | case2 => cases h; exact Nat.lt_succ_self _
  | case3 => cases h
  | case4 after c left _ hlt ih =>
    cases hq : quoted strict left with
    | error e => rw [hq] at h; cases h
    | ok r =>
      rw [hq] at h
      cases h
      have := ih hq
      simp only [List.length_cons]
      omega
  | case5 => cases h
  | case6 c after _ _ _ ih =>
    cases hq : quoted strict after with
    | error e => rw [hq] at h; cases h
    | ok r =>
      rw [hq] at h
      cases h
      have := ih hq
      simp only [List.length_cons]
      omega

end LabelTree.Json
