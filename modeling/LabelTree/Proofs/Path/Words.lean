import LabelTree.Path.Lexemes
import LabelTree.Path.Written
import LabelTree.Proofs.Path.Glyphs

/-!
# Path — words are read back

The word of a token is read as that token when what follows does not go on with the word: a label
goes on to the next delimiter, a name to the next character that no name has, a number to the next
character that is no digit. Blanks before a word make no difference (`Cursor.next_word`).
-/

namespace LabelTree

open Text (Stops)

/-! ## Tokens -/

namespace Token

/-- Tokens that are words outside brackets, where only a delimiter ends them. -/
def isStepWord : Token → Bool
  | label _ | dot | dotDot => true
  | _ => false

/-- A token that has a word of its own, outside or inside brackets. -/
def isLegible (inside : Bool) : Token → Bool
  | label text => if inside then isName text.toList else !text.isEmpty
  | number n => inside && n ≤ largestNumber
  | slash | star | dot | dotDot | openBracket | closeBracket => true
  | string _ | equal | notEqual | plus | minus | openParen | closeParen => inside
  | endOfPath => false

/-- What cannot follow the word of a token without going on with it. -/
def EndsBefore (inside : Bool) (rest : List Char) : Token → Prop
  | label _ => if inside then Stops isNameChar rest else Glyph.Delimited rest
  | dot => if inside then Stops (· = '.') rest else Glyph.Delimited rest
  | dotDot => if inside then True else Glyph.Delimited rest
  | number _ => Stops Char.isDigit rest
  | _ => True

end Token

namespace Cursor

/-- The cursor past the word of a token. -/
def past (c : Cursor) (t : Token) (rest : List Char) : Cursor :=
  { c.moveTo rest with depth := t.depthAfter c.depth }

theorem next_congr {c d : Cursor} (h : c.skipBlanks = d.skipBlanks) : c.next = d.next := by
  rw [next, next, h]

theorem skipBlanks_moveTo_trimLeft (c : Cursor) {rest : List Char} (hrest : rest <:+ c.rest) :
    (c.moveTo (Text.trimLeft rest)).skipBlanks = (c.moveTo rest).skipBlanks := by
  have hcut : ∀ cs : List Char, Text.byteLength (Text.trimLeft cs) ≤ Text.byteLength cs := by
    intro cs
    have h := congrArg Text.byteLength
      (List.takeWhile_append_dropWhile (p := Text.isBlank) (l := cs))
    rw [Text.byteLength_append] at h
    simp only [Text.trimLeft]
    omega
  have hle : Text.byteLength rest ≤ Text.byteLength c.rest := by
    obtain ⟨before, h⟩ := hrest
    rw [← h, Text.byteLength_append]
    omega
  have := hcut rest
  simp only [skipBlanks, moveTo, Text.trimLeft_trimLeft, mk.injEq, true_and, and_true]
  omega

/-! ### Outside brackets -/

section Outside

variable {c : Cursor} {rest : List Char}

theorem stops_written {gs : List Glyph} (hne : gs ≠ []) (hsafe : gs.all Glyph.isSafe = true)
    (rest : List Char) :
    gs.flatMap Glyph.written ++ rest ≠ [] ∧
      Stops isStepDelimiter (gs.flatMap Glyph.written ++ rest) := by
  cases gs with
  | nil => exact absurd rfl hne
  | cons g gs =>
    rw [List.all_cons, Bool.and_eq_true] at hsafe
    cases g with
    | escaped ch => exact ⟨by simp [Glyph.written], .cons (by decide)⟩
    | plain ch =>
      have hch : isStepDelimiter ch = false ∧ ch ≠ '\\' := by simpa [Glyph.isSafe] using hsafe.1
      exact ⟨by simp [Glyph.written], .cons hch.1⟩

/-- Glyphs before a delimiter are read as one word, with the blanks after them. -/
theorem stepToken_glyphs {gs : List Glyph} (hne : gs ≠ []) (hsafe : gs.all Glyph.isSafe = true)
    (hend : Glyph.Delimited rest) (hc : c.rest = gs.flatMap Glyph.written ++ rest) :
    stepToken c = .ok (stepWord (gs ++ (rest.takeWhile Text.isBlank).map .plain),
      c.moveTo (Text.trimLeft rest)) := by
  obtain ⟨hcs, hstops⟩ := stops_written hne hsafe rest
  have hread := Glyph.read_written hsafe rest
  rw [← hc] at hcs hstops hread
  rw [Glyph.read_of_delimited hend, Option.map_some] at hread
  rw [stepToken]
  split
  case h_6 => rw [hread]
  case h_1 h => exact absurd h hcs
  all_goals
    rename_i h
    rw [h] at hstops
    exact absurd (hstops _ rfl) (by decide)

theorem takeWhile_isBlank (cs : List Char) :
    ∀ c ∈ cs.takeWhile Text.isBlank, Text.isBlank c = true :=
  List.all_eq_true.mp (List.all_takeWhile)

theorem stepToken_delimiter {t : Token} {quote : Char}
    (ht : t ∈ [Token.slash, .star, .openBracket, .closeBracket])
    (hc : c.rest = t.word false quote ++ rest) (hdepth : c.depth = 0) :
    stepToken c = .ok (t, c.past t rest) := by
  simp only [List.mem_cons, List.not_mem_nil, or_false] at ht
  rcases ht with rfl | rfl | rfl | rfl <;>
    simp [stepToken, hc, Token.word, past, Token.depthAfter, moveTo, enter, hdepth]

theorem stepToken_word {t : Token} {quote : Char} (hc : c.rest = t.word false quote ++ rest)
    (hdepth : c.depth = 0) (ht : t.isLegible false = true) (hend : t.EndsBefore false rest) :
    ∃ after, stepToken c = .ok (t, after) ∧ after.skipBlanks = (c.past t rest).skipBlanks := by
  have hsuffix : rest <:+ c.rest := ⟨_, hc.symm⟩
  have hblank := skipBlanks_moveTo_trimLeft c hsuffix
  have hblanks := takeWhile_isBlank rest
  cases t with
  | slash => exact ⟨_, stepToken_delimiter (by simp) hc hdepth, rfl⟩
  | star => exact ⟨_, stepToken_delimiter (by simp) hc hdepth, rfl⟩
  | openBracket => exact ⟨_, stepToken_delimiter (by simp) hc hdepth, rfl⟩
  | closeBracket => exact ⟨_, stepToken_delimiter (by simp) hc hdepth, rfl⟩
  | label text =>
    have hne : Glyph.spell text.toList ≠ [] := by
      intro h
      have hlabel := Glyph.label_spell text.toList
      rw [h, String.ofList_toList] at hlabel
      simp [Token.isLegible, ← hlabel, Glyph.label] at ht
    refine ⟨_, ?_, hblank⟩
    have hglyphs : c.rest = (Glyph.spell text.toList).flatMap Glyph.written ++ rest := by
      simpa [Token.word, escapeLabel] using hc
    rw [stepToken_glyphs hne (Glyph.isSafe_spell _) hend hglyphs, stepWord_spell hblanks,
      String.ofList_toList]
  | dot =>
    refine ⟨_, ?_, hblank⟩
    have hglyphs : c.rest = [Glyph.plain '.'].flatMap Glyph.written ++ rest := hc
    rw [stepToken_glyphs (by simp) (by decide) hend hglyphs, stepWord,
      Glyph.trim_append_blanks (by decide) hblanks]
    rfl
  | dotDot =>
    refine ⟨_, ?_, hblank⟩
    have hglyphs : c.rest = [Glyph.plain '.', .plain '.'].flatMap Glyph.written ++ rest := hc
    rw [stepToken_glyphs (by simp) (by decide) hend hglyphs, stepWord,
      Glyph.trim_append_blanks (by decide) hblanks]
    rfl
  | _ => cases ht

end Outside

/-! ### Inside brackets -/

section Inside

variable {c : Cursor} {rest : List Char}

theorem isQuote_eq_false_of_class {p : Char → Bool} {ch : Char} (hch : p ch = true)
    (hdouble : p '"' = false) (hsingle : p '\'' = false) : Text.isQuote ch = false := by
  simp [Text.isQuote, Text.ne_of_class hch hdouble, Text.ne_of_class hch hsingle]

/-- A character of a class without brackets, dot and exclamation mark begins a string, a number, a
name or an operator of one character. -/
theorem predicateToken_of_class {p : Char → Bool} {ch : Char} {cs : List Char} (hch : p ch = true)
    (hp : ['[', ']', '!', '.'].any p = false) (hc : c.rest = ch :: cs) :
    predicateToken c =
      if Text.isQuote ch then
        match Text.unquote ch cs with
        | none => .error ⟨.unterminatedString, c.offset⟩
        | some (text, rest) => .ok (.string (String.ofList text), c.moveTo rest)
      else if ch.isDigit then
        let n := Nat.ofDigitChars 10 (ch :: cs.takeWhile Char.isDigit) 0
        if n ≤ largestNumber then .ok (.number n, c.moveTo (cs.dropWhile Char.isDigit))
        else .error ⟨.numberTooLarge, c.offset⟩
      else if isNameStart ch then
        .ok (.label (String.ofList (ch :: cs.takeWhile isNameChar)),
          c.moveTo (cs.dropWhile isNameChar))
      else
        match operator ch with
        | some token => .ok (token, c.moveTo cs)
        | none => .error ⟨.unexpectedChar ch, c.offset⟩ := by
  rw [predicateToken, hc]
  rw [List.any_eq_false] at hp
  split
  case h_7 heq =>
    cases heq
    rfl
  case h_1 heq => cases heq
  all_goals
    rename_i heq
    injection heq with hhead
    subst hhead
    exact absurd hch (hp _ (by simp))

theorem predicateToken_quote {quote : Char} {text : String} (hq : Text.isQuote quote = true)
    (hc : c.rest = Text.enquote quote text.toList ++ rest) :
    predicateToken c = .ok (.string text, c.moveTo rest) := by
  have hcs : c.rest = quote :: (Text.escapeQuoted quote text.toList ++ quote :: rest) := by
    simpa [Text.enquote] using hc
  have hread := Text.unquote_escapeQuoted (Text.ne_of_class hq (by decide)) text.toList rest
  rw [predicateToken_of_class hq (by decide) hcs, if_pos hq, hread]
  simp

theorem predicateToken_number {n : Nat} (hn : n ≤ largestNumber) (hstop : Stops Char.isDigit rest)
    (hc : c.rest = Nat.toDigits 10 n ++ rest) :
    predicateToken c = .ok (.number n, c.moveTo rest) := by
  have hdigits : ∀ ch ∈ Nat.toDigits 10 n, ch.isDigit = true :=
    fun ch h => Nat.isDigit_of_mem_toDigits (by decide) (by decide) h
  have hvalue : Nat.ofDigitChars 10 (Nat.toDigits 10 n) 0 = n :=
    Nat.ofDigitChars_toDigits (by decide) (by decide)
  cases hds : Nat.toDigits 10 n with
  | nil => exact absurd hds Nat.toDigits_ne_nil
  | cons d ds =>
    rw [hds] at hc hdigits hvalue
    obtain ⟨hd, hds⟩ := List.forall_mem_cons.mp hdigits
    have hquote : Text.isQuote d = false := isQuote_eq_false_of_class hd (by decide) (by decide)
    rw [predicateToken_of_class hd (by decide) hc]
    simp [hquote, hd, Text.takeWhile_append_stops hds hstop,
      Text.dropWhile_append_stops hds hstop, hvalue, hn]

theorem predicateToken_name {name : String} (hname : isName name.toList = true)
    (hstop : Stops isNameChar rest) (hc : c.rest = name.toList ++ rest) :
    predicateToken c = .ok (.label name, c.moveTo rest) := by
  cases hcs : name.toList with
  | nil =>
    rw [hcs] at hname
    cases hname
  | cons ch cs =>
    rw [hcs] at hc hname
    rw [isName, Bool.and_eq_true] at hname
    obtain ⟨hch, hcs'⟩ := hname
    have hcs' : ∀ d ∈ cs, isNameChar d = true := by simpa using hcs'
    have hdigit : ch.isDigit = false := Text.eq_false_of_apart isNameStart_of_isDigit hch
    have hquote : Text.isQuote ch = false := isQuote_eq_false_of_class hch (by decide) (by decide)
    rw [predicateToken_of_class hch (by decide) hc]
    simp [hquote, hdigit, hch, Text.takeWhile_append_stops hcs' hstop,
      Text.dropWhile_append_stops hcs' hstop, ← hcs]

theorem predicateToken_operator {t : Token} {quote : Char}
    (ht : t ∈ [Token.slash, .star, .plus, .minus, .equal, .notEqual, .openParen, .closeParen,
      .openBracket, .closeBracket, .dotDot])
    (hc : c.rest = t.word true quote ++ rest) : predicateToken c = .ok (t, c.past t rest) := by
  simp only [List.mem_cons, List.not_mem_nil, or_false] at ht
  rcases ht with rfl | rfl | rfl | rfl | rfl | rfl | rfl | rfl | rfl | rfl | rfl <;>
    simp [predicateToken, hc, Token.word, past, Token.depthAfter, moveTo, enter, leave, operator,
      Text.isQuote, isNameStart, Text.isLetter]

theorem predicateToken_dot (hstop : Stops (· = '.') rest) (hc : c.rest = '.' :: rest) :
    predicateToken c = .ok (.dot, c.moveTo rest) := by
  rw [predicateToken, hc]
  cases rest with
  | nil => rfl
  | cons ch cs =>
    have hch : ch ≠ '.' := by simpa using hstop ch rfl
    simp [hch]

theorem predicateToken_word {t : Token} {quote : Char} (hq : Text.isQuote quote = true)
    (hc : c.rest = t.word true quote ++ rest) (ht : t.isLegible true = true)
    (hend : t.EndsBefore true rest) : predicateToken c = .ok (t, c.past t rest) := by
  cases t with
  | label name => exact predicateToken_name ht hend hc
  | number n => exact predicateToken_number (by simpa [Token.isLegible] using ht) hend hc
  | string text => exact predicateToken_quote hq hc
  | dot => exact predicateToken_dot hend hc
  | endOfPath => cases ht
  | _ => exact predicateToken_operator (by simp) hc

end Inside

/-! ### One lexeme -/

theorem exists_head_name {name : List Char} (h : isName name = true) :
    ∃ ch cs, name = ch :: cs ∧ isNameStart ch = true := by
  cases name with
  | nil => cases h
  | cons ch cs =>
    rw [isName, Bool.and_eq_true] at h
    exact ⟨ch, cs, rfl, h.1⟩

theorem exists_head_digits (n : Nat) :
    ∃ d ds, Nat.toDigits 10 n = d :: ds ∧ d.isDigit = true := by
  cases hds : Nat.toDigits 10 n with
  | nil => exact absurd hds Nat.toDigits_ne_nil
  | cons d ds =>
    have hd : d ∈ Nat.toDigits 10 n := hds ▸ List.mem_cons_self
    exact ⟨d, ds, rfl, Nat.isDigit_of_mem_toDigits (by decide) (by decide) hd⟩

/-- There are two quotes. -/
theorem eq_false_of_isQuote {p : Char → Bool} {quote : Char} (hq : Text.isQuote quote = true)
    (hdouble : p '"' = false) (hsingle : p '\'' = false) : p quote = false := by
  simp only [Text.isQuote, Bool.or_eq_true, decide_eq_true_eq] at hq
  rcases hq with rfl | rfl
  · exact hdouble
  · exact hsingle

/-- A legible word has a first character, and it is no blank. -/
theorem exists_head_word {t : Token} {inside : Bool} {quote : Char}
    (hq : Text.isQuote quote = true) (ht : t.isLegible inside = true) :
    ∃ ch cs, t.word inside quote = ch :: cs ∧ Text.isBlank ch = false := by
  cases t with
  | label text =>
    cases inside with
    | true =>
      obtain ⟨ch, cs, hcs, hch⟩ := exists_head_name ht
      exact ⟨ch, cs, hcs, Text.eq_false_of_apart isNameStart_of_isBlank hch⟩
    | false =>
      cases hcs : text.toList with
      | nil => simp [Token.isLegible, String.toList_eq_nil_iff.mp hcs] at ht
      | cons ch cs =>
        simp only [Token.word, escapeLabel, hcs, Glyph.spell, List.flatMap_cons,
          Bool.false_eq_true, if_false, String.toList_ofList]
        split
        · exact ⟨'\\', _, rfl, by decide⟩
        · rename_i hplain
          exact ⟨ch, _, rfl, by simp_all⟩
  | number n =>
    obtain ⟨d, ds, hds, hd⟩ := exists_head_digits n
    exact ⟨d, ds, hds, Text.eq_false_of_apart Text.isDigit_of_isBlank hd⟩
  | string text => exact ⟨quote, _, rfl, eq_false_of_isQuote hq (by decide) (by decide)⟩
  | endOfPath => cases ht
  | _ => exact ⟨_, _, rfl, by decide⟩

theorem next_word {c : Cursor} {t : Token} {quote : Char} {blanks rest : List Char}
    (hb : blanks.all Text.isBlank = true) (hq : Text.isQuote quote = true)
    (hc : c.rest = blanks ++ t.word (c.depth != 0) quote ++ rest)
    (ht : t.isLegible (c.depth != 0) = true) (hend : t.EndsBefore (c.depth != 0) rest) :
    ∃ offset after, c.next = .ok (⟨t, offset⟩, after) ∧
      ∃ d : Cursor, d.rest = rest ∧ d.depth = t.depthAfter c.depth ∧ after.next = d.next := by
  have hstart : c.skipBlanks.rest = t.word (c.depth != 0) quote ++ rest := by
    obtain ⟨ch, cs, hword, hch⟩ := exists_head_word hq ht
    rw [skipBlanks, moveTo, hc, List.append_assoc]
    exact Text.trimLeft_blanks_append hb (hword ▸ .cons hch)
  have htoken : ∃ after, c.skipBlanks.token = .ok (t, after) ∧
      after.skipBlanks = (c.skipBlanks.past t rest).skipBlanks := by
    have hdepth : c.skipBlanks.depth = c.depth := rfl
    rw [token, hdepth]
    split
    · rename_i h
      simp only [h, bne_self_eq_false] at hstart ht hend
      exact stepToken_word hstart (hdepth.trans h) ht hend
    · rename_i h
      have hinside : (c.depth != 0) = true := by simpa using h
      rw [hinside] at hstart ht hend
      exact ⟨_, predicateToken_word hq hstart ht hend, rfl⟩
  obtain ⟨after, htoken, hafter⟩ := htoken
  refine ⟨c.skipBlanks.offset, after, ?_, c.skipBlanks.past t rest, rfl, rfl, next_congr hafter⟩
  rw [next, htoken]

theorem next_blanks {c : Cursor} (hc : c.rest.all Text.isBlank = true) :
    ∃ offset, c.next = .ok (⟨.endOfPath, offset⟩, c.skipBlanks) := by
  have hrest : c.skipBlanks.rest = [] := by
    have h := Text.trimLeft_blanks_append hc Stops.nil
    rwa [List.append_nil] at h
  have htoken : c.skipBlanks.token = .ok (.endOfPath, c.skipBlanks) := by
    rw [token]
    split
    · rw [stepToken, hrest]
    · rw [predicateToken, hrest]
  refine ⟨c.skipBlanks.offset, ?_⟩
  rw [next, htoken]

end Cursor

/-! ## Sequences of lexemes -/

namespace Lexemes

variable {c d : Cursor} {l : Lexeme}

theorem ofCursor_of_end (h : c.next = .ok (l, d)) (hl : l.token = .endOfPath) :
    ofCursor c = .finish l.offset := by
  rw [ofCursor]
  split <;> simp_all

theorem ofCursor_of_next (h : c.next = .ok (l, d)) (hl : l.token ≠ .endOfPath) :
    ofCursor c = .next l.token l.offset (ofCursor d) := by
  rw [ofCursor]
  split <;> simp_all

theorem ofCursor_of_error {e : PathError} (h : c.next = .error e) : ofCursor c = .fault e := by
  rw [ofCursor]
  split <;> simp_all

theorem ofCursor_congr (h : c.next = d.next) : ofCursor c = ofCursor d := by
  cases hd : d.next with
  | error e => rw [ofCursor_of_error (h.trans hd), ofCursor_of_error hd]
  | ok r =>
    by_cases hl : r.1.token = .endOfPath
    · rw [ofCursor_of_end (h.trans hd) hl, ofCursor_of_end hd hl]
    · rw [ofCursor_of_next (h.trans hd) hl, ofCursor_of_next hd hl]

end Lexemes

end LabelTree
