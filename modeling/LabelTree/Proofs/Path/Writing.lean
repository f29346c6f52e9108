import LabelTree.Proofs.Path.Complete
import LabelTree.Proofs.Path.Words

/-!
# Path — writing compiles

Tokens of which no two run together are the lexemes of any writing of them, whatever blanks stand
between (`Lexemes.ofCursor_of_written`). The tokens of a path whose steps can be written are of this
kind, so any writing of the path compiles to it (`Path.compile_of_written`).
-/

namespace LabelTree

open Text (Stops)

/-! ## Tokens in writing -/

namespace Token

/-- Whether the word of a token ends before that of the next one when no blanks stand between. -/
def isApart (inside : Bool) (t next : Token) : Bool :=
  match t, next with
  | label _, .slash | label _, .star | label _, .openBracket | label _, .closeBracket => true
  | label _, .label _ | label _, .number _ | label _, .dot | label _, .dotDot
  | label _, .minus => false
  | label _, _ => inside
  | dot, .slash | dot, .star | dot, .openBracket | dot, .closeBracket => true
  | dot, .dot | dot, .dotDot => false
  | dot, _ => inside
  | dotDot, .slash | dotDot, .star | dotDot, .openBracket | dotDot, .closeBracket => true
  | dotDot, _ => inside
  | number _, .number _ => false
  | _, _ => true

/-- Whether all tokens are legible and no two run together. The first stands in `depth` brackets. -/
def areApart : Nat → List Token → Bool
  | _, [] => true
  | depth, t :: ts =>
    t.isLegible (depth != 0) && ts.head?.all (isApart (depth != 0) t) &&
      areApart (t.depthAfter depth) ts

@[simp] theorem all_isApart_closeBracket (inside : Bool) (next : Option Token) :
    next.all (isApart inside .closeBracket) = true := by
  cases next with
  | none => rfl
  | some next => cases next <;> rfl

@[simp] theorem all_isApart_slash (inside : Bool) (next : Option Token) :
    next.all (isApart inside .slash) = true := by
  cases next with
  | none => rfl
  | some next => cases next <;> rfl

variable {t u : Token} {quote : Char} {blanks rest : List Char}

/-- Outside brackets a delimiter ends every word. -/
theorem endsBefore_word_outside (ht : t.isLegible false = true) (h : isApart false t u = true) :
    t.EndsBefore false (u.word false quote ++ rest) := by
  have hdelimited (ht : t.isStepWord = true) : Glyph.Delimited (u.word false quote ++ rest) := by
    have hdelimiter : ∃ ch, u.word false quote = [ch] ∧ isStepDelimiter ch = true ∧
        Text.isBlank ch = false := by
      cases u with
      | slash => exact ⟨'/', rfl, by decide, by decide⟩
      | star => exact ⟨'*', rfl, by decide, by decide⟩
      | openBracket => exact ⟨'[', rfl, by decide, by decide⟩
      | closeBracket => exact ⟨']', rfl, by decide, by decide⟩
      | _ => cases t <;> simp [isStepWord, isApart] at ht h
    obtain ⟨ch, hword, hch, hblank⟩ := hdelimiter
    intro c hc
    rw [hword, List.singleton_append, Text.trimLeft_eq_self_of_head hblank] at hc
    cases hc
    exact hch
  cases t with
  | label _ => exact hdelimited rfl
  | dot => exact hdelimited rfl
  | dotDot => exact hdelimited rfl
  | number _ => cases ht
  | _ => trivial

/-- Inside brackets a word ends where its class of characters does. -/
theorem endsBefore_word_inside (hq : Text.isQuote quote = true) (hu : u.isLegible true = true)
    (h : isApart true t u = true) : t.EndsBefore true (u.word true quote ++ rest) := by
  cases t with
  | label _ =>
    cases u with
    | string _ => exact .cons (Cursor.eq_false_of_isQuote hq (by decide) (by decide))
    | label _ | number _ | dot | dotDot | minus => cases h
    | endOfPath => cases hu
    | _ => exact .cons (by decide)
  | number _ =>
    cases u with
    | label _ =>
      obtain ⟨ch, cs, hcs, hch⟩ := Cursor.exists_head_name hu
      rw [word, if_pos rfl, hcs]
      exact .cons (Text.eq_false_of_apart isNameStart_of_isDigit hch)
    | string _ => exact .cons (Cursor.eq_false_of_isQuote hq (by decide) (by decide))
    | number _ => cases h
    | endOfPath => cases hu
    | _ => exact .cons (by decide)
  | dot =>
    cases u with
    | label _ =>
      obtain ⟨ch, cs, hcs, hch⟩ := Cursor.exists_head_name hu
      rw [word, if_pos rfl, hcs]
      exact .cons (by simpa using Text.ne_of_class hch (by decide))
    | number n =>
      obtain ⟨d, ds, hds, hd⟩ := Cursor.exists_head_digits n
      rw [word, hds]
      exact .cons (by simpa using Text.ne_of_class hd (by decide))
    | string _ =>
      exact .cons (Cursor.eq_false_of_isQuote (p := (· = '.')) hq (by decide) (by decide))
    | dot | dotDot => cases h
    | endOfPath => cases hu
    | _ => exact .cons (by decide)
  | _ => trivial

/-- No word goes on with blanks. -/
theorem EndsBefore.blanks_append {inside : Bool} (h : t.EndsBefore inside rest)
    (hb : blanks.all Text.isBlank = true) : t.EndsBefore inside (blanks ++ rest) := by
  have hdelimited (h : Glyph.Delimited rest) : Glyph.Delimited (blanks ++ rest) := by
    rwa [Glyph.Delimited, Text.trimLeft, List.dropWhile_append_of_pos (by simpa using hb)]
  cases t with
  | label _ =>
    cases inside with
    | true => exact Stops.blanks_append (fun c hc => isNameChar_of_isBlank hc) hb h
    | false => exact hdelimited h
  | dot =>
    cases inside with
    | true =>
      exact Stops.blanks_append (fun c hc => by simpa using Text.ne_of_class hc (by decide)) hb h
    | false => exact hdelimited h
  | dotDot =>
    cases inside with
    | true => trivial
    | false => exact hdelimited h
  | number _ => exact Stops.blanks_append (fun c hc => Text.isDigit_of_isBlank hc) hb h
  | _ => trivial

/-- Every word ends with the text. -/
theorem endsBefore_nil (t : Token) (inside : Bool) : t.EndsBefore inside [] := by
  have hdelimited : Glyph.Delimited [] := fun c hc => by cases hc
  cases t <;> cases inside <;> first | exact Stops.nil | exact hdelimited | trivial

theorem endsBefore_word {inside : Bool} (hq : Text.isQuote quote = true)
    (ht : t.isLegible inside = true) (hu : u.isLegible inside = true)
    (h : isApart inside t u = true) : t.EndsBefore inside (u.word inside quote ++ rest) := by
  cases inside with
  | true => exact endsBefore_word_inside hq hu h
  | false => exact endsBefore_word_outside ht h

/-- The word of a bracket ends at once, and other tokens leave the depth as it is. -/
theorem depthAfter_eq_or_endsBefore (t : Token) (depth : Nat) :
    t.depthAfter depth = depth ∨ ∀ inside rest, t.EndsBefore inside rest := by
  cases t with
  | openBracket => exact .inr fun _ _ => trivial
  | closeBracket => exact .inr fun _ _ => trivial
  | _ => exact .inl rfl

theorem endsBefore_of_written {depth : Nat} {tokens : List Token} {text : List Char}
    (hw : Written (t.depthAfter depth) tokens text)
    (h : areApart depth (t :: tokens) = true) : t.EndsBefore (depth != 0) text := by
  rcases depthAfter_eq_or_endsBefore t depth with hdepth | hends
  · rw [hdepth] at hw
    cases hw with
    | nil hb => simpa using (endsBefore_nil t (depth != 0)).blanks_append hb
    | cons hb hq _ =>
      simp only [areApart, List.head?_cons, Option.all_some, Bool.and_eq_true, hdepth] at h
      obtain ⟨⟨ht, happart⟩, ⟨hu, -⟩, -⟩ := h
      rw [List.append_assoc]
      exact (endsBefore_word hq ht hu happart).blanks_append hb
  · exact hends _ _

end Token

open Lexemes (prepend)

/-! ## Sequences of tokens -/

namespace Cursor

/-- That the lexemes between two cursors have the given tokens. -/
def Reads (c : Cursor) (tokens : List Token) (d : Cursor) : Prop :=
  ∃ ls, Lexemes.ofCursor c = prepend ls (Lexemes.ofCursor d) ∧ ls.map Lexeme.token = tokens

variable {c d e : Cursor}

theorem Reads.trans {ts us : List Token} (h : c.Reads ts d) (h' : d.Reads us e) :
    c.Reads (ts ++ us) e := by
  obtain ⟨ls, hls, rfl⟩ := h
  obtain ⟨ms, hms, rfl⟩ := h'
  exact ⟨ls ++ ms, by rw [hls, hms, Lexemes.prepend_append], List.map_append⟩

theorem Reads.word {t : Token} {quote : Char} {blanks rest : List Char}
    (hb : blanks.all Text.isBlank = true) (hq : Text.isQuote quote = true)
    (hc : c.rest = blanks ++ t.word (c.depth != 0) quote ++ rest)
    (ht : t.isLegible (c.depth != 0) = true) (hend : t.EndsBefore (c.depth != 0) rest) :
    ∃ d, c.Reads [t] d ∧ d.rest = rest ∧ d.depth = t.depthAfter c.depth := by
  obtain ⟨offset, after, hnext, d, hd, hdepth, hafter⟩ := next_word hb hq hc ht hend
  have hne : t ≠ .endOfPath := by
    rintro rfl
    cases ht
  refine ⟨d, ⟨[⟨t, offset⟩], ?_, rfl⟩, hd, hdepth⟩
  rw [Lexemes.ofCursor_of_next hnext hne, Lexemes.ofCursor_congr hafter]
  rfl

end Cursor

/-- Tokens of which no two run together are the lexemes of any writing of them. -/
theorem Lexemes.ofCursor_of_written {depth : Nat} {tokens : List Token} {text : List Char}
    (hw : Token.Written depth tokens text) (h : Token.areApart depth tokens = true) {c : Cursor}
    (hrest : c.rest = text) (hdepth : c.depth = depth) :
    ∃ ls offset, ofCursor c = prepend ls (.finish offset) ∧ ls.map Lexeme.token = tokens := by
  induction hw generalizing c with
  | nil hb =>
    obtain ⟨offset, hnext⟩ := Cursor.next_blanks (hrest ▸ hb)
    exact ⟨[], offset, ofCursor_of_end hnext rfl, rfl⟩
  | @cons depth t tokens quote blanks text hb hq hw ih =>
    have hends := Token.endsBefore_of_written hw h
    simp only [Token.areApart, Bool.and_eq_true] at h
    obtain ⟨⟨ht, -⟩, htokens⟩ := h
    subst hdepth
    obtain ⟨d, ⟨first, hfirst, hmap⟩, hd, hdepth⟩ := Cursor.Reads.word hb hq hrest ht hends
    obtain ⟨ls, last, hls, hmaps⟩ := ih htokens hd hdepth
    refine ⟨first ++ ls, last, ?_, by rw [List.map_append, hmap, hmaps]; rfl⟩
    rw [hfirst, hls, prepend_append]

/-! ## Paths in writing -/

section Apart

open Token (areApart)

theorem Predicate.areApart_bracket {p : Predicate} {inner rest : List Token} (h : p.Spelled inner)
    (hp : p.isWritable = true) :
    areApart 0 (.openBracket :: (inner ++ .closeBracket :: rest)) = areApart 0 rest := by
  have hlast : isName ['l', 'a', 's', 't'] = true := by decide
  cases h with
  | position n =>
    have hn : n ≤ largestNumber := by simpa [isWritable] using hp
    simp [areApart, Token.isApart, Token.isLegible, Token.depthAfter, hn]
  | last =>
    simp [areApart, lastTokens, Token.isApart, Token.isLegible, Token.depthAfter, hlast]
  | lastBut back =>
    have hback : back ≤ largestNumber := by simpa [isWritable] using hp
    simp [areApart, lastTokens, Token.isApart, Token.isLegible, Token.depthAfter, hlast, hback]
  | hasChild name =>
    have hname : isName name.toList = true := by simpa [isWritable] using hp
    simp [areApart, Token.isApart, Token.isLegible, Token.depthAfter, hname]
  | compare operand literal negated =>
    cases operand with
    | self =>
      cases negated <;>
        simp [areApart, Token.isApart, Token.isLegible, Token.depthAfter, Operand.token,
          comparisonToken]
    | child name =>
      have hname : isName name.toList = true := by simpa [isWritable] using hp
      cases negated <;>
        simp [areApart, Token.isApart, Token.isLegible, Token.depthAfter, Operand.token,
          comparisonToken, hname]

theorem Predicate.areApart_brackets {ps : List Predicate} {tokens : List Token}
    (h : AllSpelled ps tokens) (hps : ps.all isWritable = true) (rest : List Token) :
    areApart 0 (tokens ++ rest) = areApart 0 rest := by
  induction h with
  | nil => rfl
  | @cons p ps inner tokens hp _ ih =>
    rw [List.all_cons, Bool.and_eq_true] at hps
    rw [List.cons_append, List.append_assoc, List.cons_append, areApart_bracket hp hps.1, ih hps.2]

theorem areApart_append (rest : List Token) :
    areApart 0 (appendTokens ++ rest) = areApart 0 rest := by
  have hlast : isName ['l', 'a', 's', 't'] = true := by decide
  have hone : 1 ≤ largestNumber := by decide
  simp [areApart, appendTokens, lastTokens, Token.isApart, Token.isLegible, Token.depthAfter, hlast,
    hone]

/-- Brackets and slashes end the word of an axis. -/
theorem Axis.areApart_cons {axis : Axis} {tokens : List Token}
    (haxis : axis.token.isLegible false = true) (htokens : areApart 0 tokens = true)
    (hhead : ∀ t ∈ tokens.head?, t = .slash ∨ t = .openBracket) :
    areApart 0 (axis.token :: tokens) = true := by
  have hdepth : axis.token.depthAfter 0 = 0 := by
    cases axis with
    | child matcher => cases matcher <;> rfl
    | self => rfl
    | parent => rfl
  have hends : tokens.head?.all (Token.isApart false axis.token) = true := by
    rw [Option.all_eq_true]
    intro t ht
    rcases hhead t ht with rfl | rfl <;> cases axis with
    | child matcher => cases matcher <;> rfl
    | self => rfl
    | parent => rfl
  rw [areApart, hdepth, htokens]
  simp [haxis, hends]

theorem Predicate.head_of_allSpelled {ps : List Predicate} {tokens rest : List Token}
    (h : AllSpelled ps tokens) (hrest : ∀ t ∈ rest.head?, t = .slash) :
    ∀ t ∈ (tokens ++ rest).head?, t = .slash ∨ t = .openBracket := by
  cases h with
  | nil => exact fun t ht => .inl (hrest t ht)
  | cons _ _ => exact fun t ht => .inr (by simpa using ht.symm)

/-- A step stands before a slash or at the end of the path. -/
theorem Step.areApart_step {step : Step} {ls : List Lexeme} {rest : List Token}
    (h : step.Spelled ls) (hstep : step.isWritable = true) (hrest : areApart 0 rest = true)
    (hslash : ∀ t ∈ rest.head?, t = .slash) :
    areApart 0 (ls.map Lexeme.token ++ rest) = true := by
  cases h with
  | @select axis ps head brackets hhead hps =>
    have hparts : axis.token.isLegible false = true ∧ ps.all Predicate.isWritable = true := by
      cases axis with
      | child matcher =>
        cases matcher with
        | exact label => simpa [isWritable, Axis.token, Token.isLegible] using hstep
        | any => exact ⟨rfl, hstep⟩
      | self => exact ⟨rfl, hstep⟩
      | parent => exact ⟨rfl, hstep⟩
    have hbrackets := Predicate.areApart_brackets hps hparts.2 rest
    rw [List.map_cons, hhead, List.cons_append]
    exact Axis.areApart_cons hparts.1 (hbrackets.trans hrest)
      (Predicate.head_of_allSpelled hps hslash)
  | @append label head opening marker hhead hmarker =>
    have hlabel : (Axis.child (.exact label)).token.isLegible false = true := hstep
    rw [List.map_cons, hhead, hmarker, List.cons_append]
    show areApart 0 ((Axis.child (.exact label)).token :: (appendTokens ++ rest)) = true
    refine Axis.areApart_cons hlabel ((areApart_append rest).trans hrest) ?_
    exact fun t ht => .inr (by simpa [appendTokens] using ht.symm)

theorem Step.areApart_steps {steps : List Step} {ls : List Lexeme} (h : AllSpelled steps ls)
    (hsteps : steps.all isWritable = true) : areApart 0 (ls.map Lexeme.token) = true := by
  induction h with
  | final hstep =>
    simp only [List.all_cons, List.all_nil, Bool.and_true] at hsteps
    have hend : areApart 0 ([] : List Token) = true := rfl
    simpa using areApart_step hstep hsteps hend (by simp)
  | @cons step steps ls rest slash _ hstep hslash _ ih =>
    rw [List.all_cons, Bool.and_eq_true] at hsteps
    rw [List.map_append, List.map_cons, hslash]
    refine areApart_step hstep hsteps.1 ?_ (by simp)
    simp [areApart, Token.isLegible, Token.depthAfter, ih hsteps.2]

theorem Path.areApart_path {absolute : Bool} {steps : List Step} {ls : List Lexeme}
    (h : Spelled absolute steps ls) (hsteps : steps.all Step.isWritable = true) :
    areApart 0 (ls.map Lexeme.token) = true := by
  cases h with
  | root hslash => simp [areApart, hslash, Token.isLegible]
  | absolute hslash hall =>
    have hrest := Step.areApart_steps hall hsteps
    simp [areApart, hslash, Token.isLegible, Token.depthAfter, hrest]
  | relative hall => exact Step.areApart_steps hall hsteps

end Apart

/-! ### The same tokens elsewhere -/

theorem Step.Spelled.of_tokens {step : Step} {ls ls' : List Lexeme} (h : step.Spelled ls)
    (htokens : ls'.map Lexeme.token = ls.map Lexeme.token) :
    ∃ step', Step.Spelled step' ls' ∧ step'.withoutOffset = step.withoutOffset := by
  cases h with
  | @select axis ps head brackets hhead hps =>
    obtain ⟨head', brackets', rfl, hhead', hbrackets⟩ := List.map_eq_cons_iff.mp htokens
    exact ⟨_, .select (hhead'.trans hhead) (hbrackets ▸ hps), rfl⟩
  | @append label head opening marker hhead hmarker =>
    obtain ⟨head', ls', rfl, hhead', hls⟩ := List.map_eq_cons_iff.mp htokens
    obtain ⟨opening', marker', rfl, hopening, hrest⟩ := List.map_eq_cons_iff.mp hls
    exact ⟨_, .append (hhead'.trans hhead) (hls.trans hmarker), rfl⟩

theorem Step.isAppend_of_withoutOffset {step step' : Step}
    (h : step'.withoutOffset = step.withoutOffset) : step'.isAppend = step.isAppend := by
  cases step <;> cases step' <;> first | rfl | cases h

theorem Step.AllSpelled.of_tokens {steps : List Step} {ls ls' : List Lexeme}
    (h : AllSpelled steps ls) (htokens : ls'.map Lexeme.token = ls.map Lexeme.token) :
    ∃ steps', AllSpelled steps' ls' ∧ steps'.map withoutOffset = steps.map withoutOffset := by
  induction h generalizing ls' with
  | final hstep =>
    obtain ⟨step', hstep', hsame⟩ := hstep.of_tokens htokens
    exact ⟨[step'], .final hstep', by simp [hsame]⟩
  | cons happend hstep hslash _ ih =>
    rw [List.map_append, List.map_cons] at htokens
    obtain ⟨first, others, rfl, hfirst, hothers⟩ := List.map_eq_append_iff.mp htokens
    obtain ⟨slash', rest', rfl, hslash', hrest⟩ := List.map_eq_cons_iff.mp hothers
    obtain ⟨step', hstep', hsame⟩ := hstep.of_tokens hfirst
    obtain ⟨steps', hsteps', hsames⟩ := ih hrest
    refine ⟨step' :: steps',
      .cons ?_ hstep' (hslash'.trans hslash) hsteps', by simp [hsame, hsames]⟩
    rw [isAppend_of_withoutOffset hsame, happend]

namespace Path

theorem Spelled.of_tokens {absolute : Bool} {steps : List Step} {ls ls' : List Lexeme}
    (h : Spelled absolute steps ls) (htokens : ls'.map Lexeme.token = ls.map Lexeme.token) :
    ∃ steps', Spelled absolute steps' ls' ∧
      steps'.map Step.withoutOffset = steps.map Step.withoutOffset := by
  cases h with
  | root hslash =>
    obtain ⟨slash', ls', rfl, hslash', hnil⟩ := List.map_eq_cons_iff.mp htokens
    cases List.map_eq_nil_iff.mp hnil
    exact ⟨[], .root (hslash'.trans hslash), rfl⟩
  | absolute hslash hall =>
    obtain ⟨slash', ls', rfl, hslash', hrest⟩ := List.map_eq_cons_iff.mp htokens
    obtain ⟨steps', hsteps', hsame⟩ := hall.of_tokens hrest
    exact ⟨steps', .absolute (hslash'.trans hslash) hsteps', hsame⟩
  | relative hall =>
    obtain ⟨steps', hsteps', hsame⟩ := hall.of_tokens htokens
    exact ⟨steps', .relative hsteps', hsame⟩

/-- Any writing of a path compiles to that path, up to the offset of its append marker. -/
theorem compile_of_written {absolute : Bool} {steps : List Step} {text : String}
    (h : Written absolute steps text) (hsteps : steps.all Step.isWritable = true) :
    ∃ steps', compile text = .ok ⟨text, absolute, steps'⟩ ∧
      steps'.map Step.withoutOffset = steps.map Step.withoutOffset := by
  obtain ⟨ls, hspelled, hwritten⟩ := h
  obtain ⟨ls', offset, hls', htokens⟩ :=
    Lexemes.ofCursor_of_written hwritten (areApart_path hspelled hsteps) (c := .ofText text) rfl rfl
  obtain ⟨steps', hspelled', hsame⟩ := hspelled.of_tokens htokens
  exact ⟨steps', compile_of_spelled hls' hspelled', hsame⟩

theorem eq_of_withoutOffset {steps steps' : List Step}
    (hsteps : ∀ step ∈ steps, step.isAppend = false)
    (h : steps'.map Step.withoutOffset = steps.map Step.withoutOffset) : steps' = steps := by
  induction steps generalizing steps' with
  | nil => exact List.map_eq_nil_iff.mp h
  | cons step steps ih =>
    obtain ⟨step', rest, rfl, hstep, hrest⟩ := List.map_eq_cons_iff.mp h
    rw [ih (fun x hx => hsteps x (List.mem_cons_of_mem step hx)) hrest]
    have hselect := hsteps step List.mem_cons_self
    cases step with
    | append => cases hselect
    | select axis ps =>
      cases step' with
      | append => cases hstep
      | select axis' ps' =>
        cases hstep
        rfl

/-- Any writing of a path without append marker compiles to exactly that path. -/
theorem compile_of_written_select {absolute : Bool} {steps : List Step} {text : String}
    (h : Written absolute steps text) (hsteps : steps.all Step.isWritable = true)
    (hselect : ∀ step ∈ steps, step.isAppend = false) :
    compile text = .ok ⟨text, absolute, steps⟩ := by
  obtain ⟨steps', hcompile, hsame⟩ := compile_of_written h hsteps
  rw [hcompile, eq_of_withoutOffset hselect hsame]

end Path

end LabelTree
