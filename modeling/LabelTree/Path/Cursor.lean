import LabelTree.Path.Error
import LabelTree.Path.Label
import LabelTree.Text.Cut
import LabelTree.Text.Quoted

/-!
# Reading lexemes

A cursor stands between two lexemes of a path expression. Outside brackets a label runs up to the
next delimiter; inside them words are names, numbers, quoted strings and operators. `Cursor.next`
reads one lexeme and the blanks before it, and every lexeme but the end of the path takes at least
one character (`Cursor.length_next`).
-/

namespace LabelTree

/-- What remains to be read, the byte offset where it begins, and the number of open brackets. -/
structure Cursor where
  rest : List Char
  offset : Nat
  depth : Nat
  deriving DecidableEq, Repr

/-- The greatest number that a predicate can hold. -/
def largestNumber : Nat := Nat.pow 2 64 - 1

namespace Cursor

def ofText (text : String) : Cursor :=
  ⟨text.toList, 0, 0⟩

/-- The cursor at the point where only `rest`, an ending of what remains, is left. -/
def moveTo (c : Cursor) (rest : List Char) : Cursor :=
  { c with rest, offset := c.offset + (Text.byteLength c.rest - Text.byteLength rest) }

/-- The cursor past an opening bracket. -/
def enter (c : Cursor) (rest : List Char) : Cursor :=
  { c.moveTo rest with depth := c.depth + 1 }

/-- The cursor past a closing bracket. -/
def leave (c : Cursor) (rest : List Char) : Cursor :=
  { c.moveTo rest with depth := c.depth - 1 }

def skipBlanks (c : Cursor) : Cursor :=
  c.moveTo (Text.trimLeft c.rest)

/-! ## Lexemes outside brackets -/

/-- The token for the glyphs of a step. Escaped dots make a label. -/
def stepWord (glyphs : List Glyph) : Token :=
  match Glyph.trim glyphs with
  | [.plain '.'] => .dot
  | [.plain '.', .plain '.'] => .dotDot
  | kept => .label (Glyph.label kept)

/-- Reads one token outside brackets. Only a backslash can stand last when an escape dangles, so the
offset is that of the last byte. -/
def stepToken (c : Cursor) : Except PathError (Token × Cursor) :=
  match c.rest with
  | [] => .ok (.endOfPath, c)
  | '/' :: cs => .ok (.slash, c.moveTo cs)
  | '*' :: cs => .ok (.star, c.moveTo cs)
  | '[' :: cs => .ok (.openBracket, c.enter cs)
  | ']' :: cs => .ok (.closeBracket, c.moveTo cs)
  | cs =>
    match Glyph.read cs with
    | none => .error ⟨.danglingEscape, c.offset + (Text.byteLength cs - 1)⟩
    | some (glyphs, rest) => .ok (stepWord glyphs, c.moveTo rest)

/-! ## Lexemes inside brackets -/

/-- Tokens of one character that stand for themselves inside brackets. -/
def operator : Char → Option Token
  | '(' => some .openParen
  | ')' => some .closeParen
  | '+' => some .plus
  | '-' => some .minus
  | '=' => some .equal
  | '/' => some .slash
  | '*' => some .star
  | _ => none

/-- Reads one token inside brackets. -/
def predicateToken (c : Cursor) : Except PathError (Token × Cursor) :=
  match c.rest with
  | [] => .ok (.endOfPath, c)
  | '[' :: cs => .ok (.openBracket, c.enter cs)
  | ']' :: cs => .ok (.closeBracket, c.leave cs)
  | '!' :: '=' :: cs => .ok (.notEqual, c.moveTo cs)
  | '.' :: '.' :: cs => .ok (.dotDot, c.moveTo cs)
  | '.' :: cs => .ok (.dot, c.moveTo cs)
  | ch :: cs =>
    if Text.isQuote ch then
      match Text.unquote ch cs with
      | none => .error ⟨.unterminatedString, c.offset⟩
      | some (text, rest) => .ok (.string (String.ofList text), c.moveTo rest)
    else if ch.isDigit then
      let n := Nat.ofDigitChars 10 (ch :: cs.takeWhile Char.isDigit) 0
      if n ≤ largestNumber then .ok (.number n, c.moveTo (cs.dropWhile Char.isDigit))
      else .error ⟨.numberTooLarge, c.offset⟩
    else if isNameStart ch then
      .ok (.label (String.ofList (ch :: cs.takeWhile isNameChar)),
        c.moveTo (cs.dropWhile isNameChar))
    else
      match operator ch with
      | some token => .ok (token, c.moveTo cs)
      | none => .error ⟨.unexpectedChar ch, c.offset⟩

/-! ## One lexeme -/

/-- Reads the token at the cursor, which stands at no blank. -/
def token (c : Cursor) : Except PathError (Token × Cursor) :=
  if c.depth = 0 then stepToken c else predicateToken c

/-- Reads one lexeme. At the end of the path it is `endOfPath`, however often it is read. -/
def next (c : Cursor) : Except PathError (Lexeme × Cursor) :=
  let start := c.skipBlanks
  match start.token with
  | .error e => .error e
  | .ok (token, after) => .ok (⟨token, start.offset⟩, after)

/-! ## Progress -/

theorem length_read {cs rest : List Char} {glyphs : List Glyph}
    (h : Glyph.read cs = some (glyphs, rest)) : rest.length + glyphs.length ≤ cs.length := by
  fun_induction Glyph.read cs generalizing glyphs rest with
  | case1 => cases h; simp
  | case2 => simp at h
  | case3 c cs ih =>
    obtain ⟨⟨g, r⟩, hr, h⟩ := Option.map_eq_some_iff.1 h
    cases h
    have := ih hr
    simp only [List.length_cons]
    omega
  | case4 => cases h; simp
  | case5 c cs _ _ _ ih =>
    obtain ⟨⟨g, r⟩, hr, h⟩ := Option.map_eq_some_iff.1 h
    cases h
    have := ih hr
    simp only [List.length_cons]
    omega

theorem length_read_lt {c : Char} {cs rest : List Char} {glyphs : List Glyph}
    (hc : isStepDelimiter c = false) (h : Glyph.read (c :: cs) = some (glyphs, rest)) :
    rest.length < (c :: cs).length := by
  have hl := length_read h
  suffices glyphs ≠ [] by
    have := List.length_pos_iff.2 this
    omega
  rintro rfl
  generalize hcs : c :: cs = all at h
  fun_cases Glyph.read all
  all_goals simp_all [Glyph.read]

theorem length_stepToken {c c' : Cursor} {t : Token} (h : stepToken c = .ok (t, c')) :
    t = .endOfPath ∨ c'.rest.length < c.rest.length := by
  unfold stepToken at h
  split at h
  case h_6 cs h₁ h₂ h₃ h₄ h₅ =>
    split at h
    · cases h
    · rename_i glyphs rest hr
      cases h
      refine .inr ?_
      cases hcs : c.rest with
      | nil => exact absurd hcs h₁
      | cons a as =>
        rw [hcs] at hr h₂ h₃ h₄ h₅
        refine length_read_lt ?_ hr
        simp only [isStepDelimiter, Bool.or_eq_false_iff, decide_eq_false_iff_not]
        refine ⟨⟨⟨?_, ?_⟩, ?_⟩, ?_⟩ <;> rintro rfl <;> simp_all
  all_goals cases h; simp_all [moveTo, enter]

theorem length_predicateToken {c c' : Cursor} {t : Token} (h : predicateToken c = .ok (t, c')) :
    t = .endOfPath ∨ c'.rest.length < c.rest.length := by
  unfold predicateToken at h
  split at h
  case h_7 ch cs _ _ _ _ _ hcs =>
    have hd := (List.dropWhile_suffix Char.isDigit (l := cs)).length_le
    have hn := (List.dropWhile_suffix isNameChar (l := cs)).length_le
    refine .inr ?_
    rw [hcs, List.length_cons]
    split at h
    · split at h
      · cases h
      · rename_i hu
        have := Text.length_unquote hu
        cases h
        simp only [moveTo]
        omega
    · split at h
      · dsimp only at h
        split at h <;> cases h
        simp only [moveTo]
        omega
      · split at h
        · cases h
          simp only [moveTo]
          omega
        · split at h <;> cases h
          simp [moveTo]
  case h_1 =>
    cases h
    exact .inl rfl
  all_goals
    rename_i hcs
    cases h
    refine .inr ?_
    rw [hcs]
    simp only [moveTo, enter, leave, List.length_cons]
    omega

theorem length_next {c c' : Cursor} {l : Lexeme} (h : c.next = .ok (l, c')) :
    l.token = .endOfPath ∨ c'.rest.length < c.rest.length := by
  unfold next at h
  have hs : c.skipBlanks.rest.length ≤ c.rest.length :=
    (List.dropWhile_suffix Text.isBlank).length_le
  dsimp only at h
  split at h
  · cases h
  · rename_i t after ht
    cases h
    have : t = .endOfPath ∨ c'.rest.length < c.skipBlanks.rest.length := by
      unfold token at ht
      split at ht
      · exact length_stepToken ht
      · exact length_predicateToken ht
    rcases this with h | h
    · exact .inl h
    · exact .inr (Nat.lt_of_lt_of_le h hs)

end Cursor

end LabelTree
