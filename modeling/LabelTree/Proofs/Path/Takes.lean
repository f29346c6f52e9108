import LabelTree.Proofs.Path.Words

/-!
# Path — what a lexeme takes

The tokens that can be read off the front of characters, outside and inside brackets, and what each
of them leaves. Reading a lexeme passes over blanks and then takes one of them
(`Cursor.next_eq_ok_iff`).
-/

namespace LabelTree

open Text (Stops)

/-! ## Tokens of one character -/

namespace Token

variable {t : Token} {sign : Char}

/-- The character that a token is written with, if that is the only one. Dots are left out: two of
them make a token of another kind. -/
def sign? : Token → Option Char
  | slash => some '/'
  | star => some '*'
  | equal => some '='
  | plus => some '+'
  | minus => some '-'
  | openBracket => some '['
  | closeBracket => some ']'
  | openParen => some '('
  | closeParen => some ')'
  | _ => none

theorem word_of_sign? (h : t.sign? = some sign) (inside : Bool) (quote : Char) :
    t.word inside quote = [sign] := by
  cases t <;> cases h <;> rfl

end Token

namespace Cursor

variable {c d : Cursor} {l : Lexeme} {t : Token} {cs rest : List Char} {inside : Bool}

theorem sign?_operator {ch : Char} (h : operator ch = some t) : t.sign? = some ch := by
  unfold operator at h
  split at h <;> cases h <;> rfl

theorem stepWord_cases (glyphs : List Glyph) :
    stepWord glyphs = .dot ∨ stepWord glyphs = .dotDot ∨
      ∃ label, stepWord glyphs = .label label := by
  unfold stepWord
  split
  · exact .inl rfl
  · exact .inr (.inl rfl)
  · exact .inr (.inr ⟨_, rfl⟩)

theorem sign?_stepWord (glyphs : List Glyph) : (stepWord glyphs).sign? = none := by
  rcases stepWord_cases glyphs with h | h | ⟨label, h⟩ <;> rw [h] <;> rfl

theorem stepWord_ne_endOfPath (glyphs : List Glyph) : stepWord glyphs ≠ .endOfPath := by
  rcases stepWord_cases glyphs with h | h | ⟨label, h⟩ <;> simp [h]

theorem depthAfter_stepWord (glyphs : List Glyph) (depth : Nat) :
    (stepWord glyphs).depthAfter depth = depth := by
  rcases stepWord_cases glyphs with h | h | ⟨label, h⟩ <;> rw [h] <;> rfl

/-! ## Tokens off the front -/

/-- That a token can be read off the front of characters, outside or inside brackets, and what it
leaves. At the end there is no other token than the end of the path. -/
inductive Takes : Bool → List Char → Token → List Char → Prop
  | nothing {inside : Bool} : Takes inside [] .endOfPath []
  | sign {inside : Bool} {t : Token} {ch : Char} {cs : List Char} : t.sign? = some ch →
      (inside = false → isStepDelimiter ch = true) → Takes inside (ch :: cs) t cs
  | word {cs rest : List Char} {glyphs : List Glyph} : cs ≠ [] → Stops isStepDelimiter cs →
      Glyph.read cs = some (glyphs, rest) → Takes false cs (stepWord glyphs) rest
  | notEqual {cs : List Char} : Takes true ('!' :: '=' :: cs) .notEqual cs
  | dotDot {cs : List Char} : Takes true ('.' :: '.' :: cs) .dotDot cs
  | dot {cs : List Char} : Stops (· = '.') cs → Takes true ('.' :: cs) .dot cs
  | string {quote : Char} {cs text rest : List Char} : Text.isQuote quote = true →
      Text.unquote quote cs = some (text, rest) →
      Takes true (quote :: cs) (.string (String.ofList text)) rest
  | number {ch : Char} {cs : List Char} : ch.isDigit = true →
      Nat.ofDigitChars 10 (ch :: cs.takeWhile Char.isDigit) 0 ≤ largestNumber →
      Takes true (ch :: cs) (.number (Nat.ofDigitChars 10 (ch :: cs.takeWhile Char.isDigit) 0))
        (cs.dropWhile Char.isDigit)
  | name {ch : Char} {cs : List Char} : isNameStart ch = true →
      Takes true (ch :: cs) (.label (String.ofList (ch :: cs.takeWhile isNameChar)))
        (cs.dropWhile isNameChar)

theorem Takes.eq_of_sign? {sign : Char} (h : Takes inside cs t rest) (ht : t.sign? = some sign) :
    cs = sign :: rest := by
  cases h with
  | sign hsign _ =>
    cases hsign.symm.trans ht
    rfl
  | word =>
    rw [sign?_stepWord] at ht
    cases ht
  | _ => cases ht

theorem Takes.eq_nil_of_end (h : Takes inside cs t rest) (ht : t = .endOfPath) : cs = [] := by
  cases h with
  | nothing => rfl
  | sign hsign _ =>
    subst ht
    cases hsign
  | word => exact absurd ht (stepWord_ne_endOfPath _)
  | _ => cases ht

theorem past_eq_moveTo (h : t.depthAfter c.depth = c.depth) (rest : List Char) :
    c.past t rest = c.moveTo rest := by
  rw [past, h]
  rfl

theorem past_endOfPath (h : c.rest = []) : c.past .endOfPath [] = c := by
  obtain ⟨cs, offset, depth⟩ := c
  cases h
  rfl

/-! ### Outside brackets -/

theorem stops_of_no_delimiter (hslash : ∀ ds, cs = '/' :: ds → False)
    (hstar : ∀ ds, cs = '*' :: ds → False) (hopen : ∀ ds, cs = '[' :: ds → False)
    (hclose : ∀ ds, cs = ']' :: ds → False) : Stops isStepDelimiter cs := by
  cases cs with
  | nil => exact .nil
  | cons ch cs =>
    refine .cons ?_
    simp only [isStepDelimiter, Bool.or_eq_false_iff, decide_eq_false_iff_not]
    refine ⟨⟨⟨?_, ?_⟩, ?_⟩, ?_⟩ <;> rintro rfl
    · exact hslash cs rfl
    · exact hopen cs rfl
    · exact hclose cs rfl
    · exact hstar cs rfl

/-- Outside brackets a word begins with anything but a delimiter. -/
theorem stepToken_of_stops (hne : c.rest ≠ []) (hstops : Stops isStepDelimiter c.rest) :
    stepToken c =
      match Glyph.read c.rest with
      | none => .error ⟨.danglingEscape, c.offset + (Text.byteLength c.rest - 1)⟩
      | some (glyphs, rest) => .ok (stepWord glyphs, c.moveTo rest) := by
  unfold stepToken
  split
  case h_1 h => exact absurd h hne
  case h_6 => rfl
  all_goals
    rename_i h
    rw [h] at hstops
    exact absurd (hstops _ rfl) (by decide)

theorem takes_of_stepToken (h : stepToken c = .ok (t, d)) (hdepth : c.depth = 0) :
    ∃ rest, Takes false c.rest t rest ∧ d = c.past t rest := by
  unfold stepToken at h
  split at h
  case h_1 hcs =>
    cases h
    exact ⟨[], by rw [hcs]; exact .nothing, (past_endOfPath hcs).symm⟩
  case h_5 cs hcs =>
    cases h
    refine ⟨cs, hcs ▸ .sign rfl fun _ => by decide, ?_⟩
    rw [past_eq_moveTo (by rw [hdepth]; rfl)]
  case h_6 hnil hslash hstar hopen hclose =>
    split at h
    · cases h
    · rename_i glyphs rest hread
      cases h
      refine ⟨rest, .word hnil (stops_of_no_delimiter hslash hstar hopen hclose) hread, ?_⟩
      rw [past_eq_moveTo (depthAfter_stepWord glyphs _)]
  all_goals
    rename_i cs hcs
    cases h
    exact ⟨cs, hcs ▸ .sign rfl fun _ => by decide, rfl⟩

theorem Takes.stepToken_eq (h : Takes false c.rest t rest) (hdepth : c.depth = 0) :
    stepToken c = .ok (t, c.past t rest) := by
  generalize hcs : c.rest = cs at h
  cases h with
  | nothing => rw [stepToken, hcs, past_endOfPath hcs]
  | @sign _ _ ch cs ht hch =>
    have hword : c.rest = t.word false '"' ++ rest := by rw [Token.word_of_sign? ht, hcs]; rfl
    have hdelimiter : t ∈ [Token.slash, .star, .openBracket, .closeBracket] := by
      have hch := hch rfl
      revert hch
      cases t <;> cases ht <;> decide
    exact stepToken_delimiter hdelimiter hword hdepth
  | word hne hstops hread =>
    subst hcs
    rw [stepToken_of_stops hne hstops, hread, past_eq_moveTo (depthAfter_stepWord _ _)]

/-! ### Inside brackets -/

theorem takes_of_predicateToken (h : predicateToken c = .ok (t, d)) :
    ∃ rest, Takes true c.rest t rest ∧ d = c.past t rest := by
  unfold predicateToken at h
  split at h
  case h_1 hcs =>
    cases h
    exact ⟨[], by rw [hcs]; exact .nothing, (past_endOfPath hcs).symm⟩
  case h_2 cs hcs =>
    cases h
    exact ⟨cs, hcs ▸ .sign rfl nofun, rfl⟩
  case h_3 cs hcs =>
    cases h
    exact ⟨cs, hcs ▸ .sign rfl nofun, rfl⟩
  case h_4 cs hcs =>
    cases h
    exact ⟨cs, hcs ▸ .notEqual, rfl⟩
  case h_5 cs hcs =>
    cases h
    exact ⟨cs, hcs ▸ .dotDot, rfl⟩
  case h_6 cs hdots hcs =>
    cases h
    refine ⟨cs, hcs ▸ .dot ?_, rfl⟩
    cases cs with
    | nil => exact .nil
    | cons ch cs => exact .cons (by simpa using fun hc => hdots cs (by rw [hc]))
  case h_7 ch cs _ _ _ _ _ hcs =>
    rw [hcs]
    split at h
    · rename_i hquote
      split at h
      · cases h
      · rename_i hread
        cases h
        exact ⟨_, .string hquote hread, rfl⟩
    · split at h
      · rename_i hdigit
        dsimp only at h
        split at h
        · rename_i hle
          cases h
          exact ⟨_, .number hdigit hle, rfl⟩
        · cases h
      · split at h
        · rename_i hname
          cases h
          exact ⟨_, .name hname, rfl⟩
        · split at h
          · rename_i hop
            cases h
            refine ⟨cs, .sign (sign?_operator hop) nofun, ?_⟩
            -- brackets have cases of their own
            unfold operator at hop
            split at hop <;> cases hop <;> rfl
          · cases h

theorem Takes.predicateToken_eq (h : Takes true c.rest t rest) :
    predicateToken c = .ok (t, c.past t rest) := by
  generalize hcs : c.rest = cs at h
  cases h with
  | nothing => rw [predicateToken, hcs, past_endOfPath hcs]
  | @sign _ _ ch cs ht hch =>
    have hword : c.rest = t.word true '"' ++ rest := by rw [Token.word_of_sign? ht, hcs]; rfl
    refine predicateToken_operator ?_ hword
    cases t <;> cases ht <;> decide
  | notEqual =>
    have hword : c.rest = Token.notEqual.word true '"' ++ rest := hcs
    exact predicateToken_operator (by decide) hword
  | dotDot =>
    have hword : c.rest = Token.dotDot.word true '"' ++ rest := hcs
    exact predicateToken_operator (by decide) hword
  | dot hstops => exact predicateToken_dot hstops hcs
  | string hquote hread =>
    rw [predicateToken_of_class hquote (by decide) hcs, if_pos hquote, hread]
    rfl
  | number hdigit hle =>
    have hquote := isQuote_eq_false_of_class hdigit (by decide) (by decide)
    rw [predicateToken_of_class hdigit (by decide) hcs]
    simp only [hquote, hdigit, hle, if_true]
    rfl
  | name hname =>
    have hquote := isQuote_eq_false_of_class hname (by decide) (by decide)
    have hdigit := Text.eq_false_of_apart isNameStart_of_isDigit hname
    rw [predicateToken_of_class hname (by decide) hcs]
    simp only [hquote, hdigit, hname, if_true]
    rfl

/-! ## Lexemes -/

theorem token_eq_ok_iff :
    c.token = .ok (t, d) ↔
      ∃ rest, Takes (c.depth != 0) c.rest t rest ∧ d = c.past t rest := by
  rw [token]
  by_cases hdepth : c.depth = 0
  · rw [if_pos hdepth, show (c.depth != 0) = false by simp [hdepth]]
    constructor
    · exact fun h => takes_of_stepToken h hdepth
    · rintro ⟨rest, h, rfl⟩
      exact h.stepToken_eq hdepth
  · rw [if_neg hdepth, show (c.depth != 0) = true by simp [hdepth]]
    constructor
    · exact takes_of_predicateToken
    · rintro ⟨rest, h, rfl⟩
      exact h.predicateToken_eq

/-- Reading a lexeme passes over blanks and takes a token. -/
theorem next_eq_ok_iff :
    c.next = .ok (l, d) ↔ ∃ rest, Takes (c.depth != 0) c.skipBlanks.rest l.token rest ∧
      l.offset = c.skipBlanks.offset ∧ d = c.skipBlanks.past l.token rest := by
  have htoken : c.next = .ok (l, d) ↔
      c.skipBlanks.token = .ok (l.token, d) ∧ l.offset = c.skipBlanks.offset := by
    obtain ⟨t, offset⟩ := l
    rw [next]
    cases c.skipBlanks.token with
    | error e => simp
    | ok r =>
      simp only [Except.ok.injEq, Prod.mk.injEq, Lexeme.mk.injEq]
      constructor
      · rintro ⟨⟨rfl, rfl⟩, rfl⟩
        exact ⟨rfl, rfl⟩
      · rintro ⟨rfl, rfl⟩
        exact ⟨⟨rfl, rfl⟩, rfl⟩
  rw [htoken, token_eq_ok_iff]
  constructor
  · rintro ⟨⟨rest, htakes, rfl⟩, hoffset⟩
    exact ⟨rest, htakes, hoffset, rfl⟩
  · rintro ⟨rest, htakes, hoffset, rfl⟩
    exact ⟨⟨rest, htakes, rfl⟩, hoffset⟩

end Cursor

end LabelTree
