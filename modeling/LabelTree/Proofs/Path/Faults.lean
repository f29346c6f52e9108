import LabelTree.Proofs.Path.Offsets

/-!
# Path — where faults are met

An error of compiling holds the byte offset at which its fault was met. Reading a lexeme fails at
the character that is wrong, or at the quote or the backslash that nothing follows. The readers of
steps and brackets say their errors of lexemes that they meet, and each lexeme stands at its offset.
So the offset of an error splits the text between two characters, and what the fault is about stands
right after it (`Path.compile_error_located`).
-/

namespace LabelTree

open Lexemes (prepend)

namespace PathFault

/-- The faults that are said of any lexeme that cannot stand where it does. -/
def isOfAnyToken : PathFault → Bool
  | expectedStep _ | unknownPredicate | unclosedPredicate _ | expectedLiteral _ | trailingInput _ =>
      true
  | _ => false

/-- What a text holds before the point at which a fault is met, and what it goes on with there. -/
def MetBetween (before rest : List Char) : PathFault → Prop
  | empty => before.all Text.isBlank = true ∧ rest = []
  | emptyStep => ∃ cs, rest = '/' :: cs
  | trailingSlash => ∃ blanks, rest = '/' :: blanks ∧ blanks.all Text.isBlank = true
  | unterminatedString => ∃ quote cs, rest = quote :: cs ∧ Text.isQuote quote = true ∧
      Text.unquote quote cs = none
  | danglingEscape => rest = ['\\']
  | unexpectedChar c => ∃ cs, rest = c :: cs
  | numberTooLarge => ∃ digit cs, rest = digit :: cs ∧ digit.isDigit = true
  | misplacedAppend => ∃ cs, rest = '[' :: cs
  | appendNotAllowed => False
  | expectedStep _ | unknownPredicate | unclosedPredicate _ | expectedLiteral _ | trailingInput _ =>
      True

theorem metBetween_of_isOfAnyToken {fault : PathFault} (h : fault.isOfAnyToken = true)
    (before rest : List Char) : fault.MetBetween before rest := by
  cases fault <;> trivial

end PathFault

/-! ## Faults in a lexeme -/

theorem Glyph.read_eq_none {cs : List Char} (h : read cs = none) : ['\\'] <:+ cs := by
  fun_induction read cs with
  | case1 => cases h
  | case2 => exact List.suffix_refl _
  | case3 c cs ih =>
    have hcs : read cs = none := by simpa using h
    exact (ih hcs).trans (List.suffix_append ['\\', c] cs)
  | case4 => cases h
  | case5 c cs _ _ _ ih =>
    have hcs : read cs = none := by simpa using h
    exact (ih hcs).trans (List.suffix_cons c cs)

namespace Cursor

variable {c d : Cursor} {e : PathError}

/-- That an error is met ahead of a cursor, whatever stands before. An empty path is no such
error. -/
def Meets (c : Cursor) (e : PathError) : Prop :=
  ∃ d, c.Ahead d ∧ d.offset = e.offset ∧ ∀ before, e.fault.MetBetween before d.rest

theorem Ahead.meets (h : c.Ahead d) (hd : d.Meets e) : c.Meets e := by
  obtain ⟨point, hahead, hoffset, hmet⟩ := hd
  exact ⟨point, h.trans hahead, hoffset, hmet⟩

theorem meets_here {fault : PathFault} (h : ∀ before, fault.MetBetween before c.rest) :
    c.Meets ⟨fault, c.offset⟩ :=
  ⟨c, .refl c, rfl, h⟩

theorem meets_of_stepToken (h : stepToken c = .error e) : c.Meets e := by
  unfold stepToken at h
  split at h
  case h_6 =>
    split at h
    · rename_i hread
      cases h
      exact ⟨c.moveTo ['\\'], ahead_moveTo (Glyph.read_eq_none hread), rfl, fun _ => rfl⟩
    · cases h
  all_goals cases h

theorem meets_of_predicateToken (h : predicateToken c = .error e) : c.Meets e := by
  unfold predicateToken at h
  split at h
  case h_7 ch cs _ _ _ _ _ hcs =>
    split at h
    · rename_i hquote
      split at h
      · rename_i hunquote
        cases h
        exact meets_here fun _ => ⟨ch, cs, hcs, hquote, hunquote⟩
      · cases h
    · split at h
      · rename_i hdigit
        dsimp only at h
        split at h
        · cases h
        · cases h
          exact meets_here fun _ => ⟨ch, cs, hcs, hdigit⟩
      · split at h
        · cases h
        · split at h
          · cases h
          · cases h
            exact meets_here fun _ => ⟨cs, hcs⟩
  all_goals cases h

theorem meets_of_next (h : c.next = .error e) : c.Meets e := by
  unfold next at h
  dsimp only at h
  split at h
  · rename_i ht
    cases h
    refine c.ahead_skipBlanks.meets ?_
    unfold token at ht
    split at ht
    · exact meets_of_stepToken ht
    · exact meets_of_predicateToken ht
  · cases h

end Cursor

/-! ## Errors said of a lexeme -/

namespace Lexemes

/-- The errors that can be reported of a sequence of lexemes: the fault that ends it, and what is
said of a lexeme in it. -/
inductive Reports : Lexemes → PathError → Prop
  | fault (e : PathError) : Reports (fault e) e
  | finish {offset : Nat} {why : PathFault} : why.isOfAnyToken = true →
      Reports (finish offset) ⟨why, offset⟩
  | token {token : Token} {offset : Nat} {rest : Lexemes} {why : PathFault} :
    why.isOfAnyToken = true → Reports (next token offset rest) ⟨why, offset⟩
  | emptyStep {offset : Nat} {rest : Lexemes} :
      Reports (next .slash offset rest) ⟨.emptyStep, offset⟩
  | trailingSlash {offset last : Nat} :
    Reports (next .slash offset (finish last)) ⟨.trailingSlash, offset⟩
  | misplacedAppend {offset : Nat} {rest : Lexemes} :
    Reports (next .openBracket offset rest) ⟨.misplacedAppend, offset⟩
  | later {token : Token} {offset : Nat} {rest : Lexemes} {e : PathError} :
    Reports rest e → Reports (next token offset rest) e

variable {s : Lexemes} {e : PathError} {c : Cursor}

theorem Reports.prepend (h : s.Reports e) (ls : List Lexeme) : (prepend ls s).Reports e := by
  induction ls with
  | nil => exact h
  | cons l ls ih => exact .later ih

theorem reports_refuse {why : Token → PathFault} (hwhy : ∀ t, (why t).isOfAnyToken = true)
    (s : Lexemes) : s.Reports (s.refuse why) := by
  cases s with
  | finish offset => exact .finish (hwhy _)
  | fault e => exact .fault e
  | next token offset rest => exact .token (hwhy _)

theorem reports_of_ready (h : s.ready = .error e) : s.Reports e := by
  unfold ready at h
  split at h
  · cases h
    exact .fault e
  · cases h

/-- What is reported of the lexemes of a text is met in the text. -/
theorem Reports.meets (h : s.Reports e) (hc : ofCursor c = s) : c.Meets e := by
  have hstart : ∀ {c : Cursor} {why offset}, c.skipBlanks.offset = offset →
      (∀ before, why.MetBetween before c.skipBlanks.rest) → c.Meets ⟨why, offset⟩ := by
    rintro c why offset rfl hmet
    exact c.ahead_skipBlanks.meets (Cursor.meets_here hmet)
  induction h generalizing c with
  | fault e => exact Cursor.meets_of_next (next_of_fault hc)
  | finish hwhy =>
    obtain ⟨d, hnext⟩ := exists_next_of_finish hc
    exact hstart (Cursor.offset_next hnext).symm
      fun _ => PathFault.metBetween_of_isOfAnyToken hwhy _ _
  | @token t offset rest why hwhy =>
    obtain ⟨d, hnext, -⟩ := exists_next_of_ofCursor (l := ⟨t, offset⟩) hc
    exact hstart (Cursor.offset_next hnext).symm
      fun _ => PathFault.metBetween_of_isOfAnyToken hwhy _ _
  | @emptyStep offset rest =>
    obtain ⟨d, hnext, -⟩ := exists_next_of_ofCursor (l := ⟨.slash, offset⟩) hc
    exact hstart (Cursor.offset_next hnext).symm fun _ => ⟨_, Cursor.rest_next hnext rfl⟩
  | @trailingSlash offset last =>
    obtain ⟨d, hnext, -, hlast⟩ := exists_next_of_ofCursor (l := ⟨.slash, offset⟩) hc
    obtain ⟨_, hend⟩ := exists_next_of_finish hlast.symm
    exact hstart (Cursor.offset_next hnext).symm
      fun _ => ⟨_, Cursor.rest_next hnext rfl, Cursor.all_isBlank_of_end hend rfl⟩
  | @misplacedAppend offset rest =>
    obtain ⟨d, hnext, -⟩ := exists_next_of_ofCursor (l := ⟨.openBracket, offset⟩) hc
    exact hstart (Cursor.offset_next hnext).symm fun _ => ⟨_, Cursor.rest_next hnext rfl⟩
  | @later t offset rest e _ ih =>
    obtain ⟨d, hnext, -, hrest⟩ := exists_next_of_ofCursor (l := ⟨t, offset⟩) hc
    exact (Cursor.ahead_next hnext).meets (ih hrest.symm)

end Lexemes

open Lexemes (reports_refuse reports_of_ready)

/-! ## Brackets -/

namespace Bracket

variable {s : Lexemes} {e : PathError} {operand : Operand} {negated : Bool} {name : String}

theorem literal_reports (h : literal operand negated s = .error e) : s.Reports e := by
  unfold literal at h
  split at h
  · cases h
  · cases h
    exact reports_refuse (fun _ => rfl) s

theorem comparison_reports (h : comparison operand s = .error e) : s.Reports e := by
  unfold comparison at h
  split at h
  · exact .later (literal_reports h)
  · exact .later (literal_reports h)
  · split at h
    · cases h
    · cases h
      exact reports_refuse (fun _ => rfl) s

theorem lastOffset_reports (h : lastOffset s = .error e) : s.Reports e := by
  unfold lastOffset at h
  split at h
  · cases h
  · cases h
    exact .later (reports_refuse (fun _ => rfl) _)
  · cases h
  · cases h
    exact .later (reports_refuse (fun _ => rfl) _)
  · cases h

theorem lastCall_reports (h : lastCall s = .error e) : s.Reports e := by
  unfold lastCall at h
  split at h
  · exact .later (lastOffset_reports h)
  · cases h
    exact reports_refuse (fun _ => rfl) s

theorem named_reports (h : named name s = .error e) : s.Reports e := by
  unfold named at h
  split at h
  · split at h
    · exact .later (lastCall_reports h)
    · exact comparison_reports h
  · exact comparison_reports h

theorem content_reports (h : content s = .error e) : s.Reports e := by
  unfold content at h
  split at h
  · cases h
  · exact .later (named_reports h)
  · exact .later (comparison_reports h)
  · cases h
    exact reports_refuse (fun _ => rfl) s

theorem bracket_reports (h : read s = .error e) : s.Reports e := by
  unfold read at h
  split at h
  · rename_i hc
    cases h
    exact content_reports hc
  · rename_i bracket offset rest hc
    obtain ⟨ls, rfl, -⟩ := content_sound hc
    cases hr : rest.ready with
    | ok rest' => rw [hr] at h; cases h
    | error e' =>
      rw [hr] at h
      cases h
      exact .prepend (.later (reports_of_ready hr)) ls
  · rename_i bracket rest _ hc
    obtain ⟨ls, rfl, -⟩ := content_sound hc
    cases h
    exact (reports_refuse (fun _ => rfl) rest).prepend ls

end Bracket

/-! ## Steps -/

namespace Step

variable {s : Lexemes} {e : PathError} {axis : Axis}

theorem predicates_reports (h : predicates s = .error e) : s.Reports e := by
  fun_induction predicates s with
  | case1 offset rest e' hb =>
    cases h
    exact .later (Bracket.bracket_reports hb)
  | case2 =>
    cases h
    exact .misplacedAppend
  | case3 offset rest p rest' hb _ ih =>
    obtain ⟨ls, inner, rfl, -, -⟩ := Bracket.bracket_sound hb
    cases hp : predicates rest' with
    | ok r => rw [hp] at h; cases h
    | error e' =>
      rw [hp] at h
      cases h
      exact .later (.prepend (ih hp) ls)
  | case4 => cases h

/-- A second bracket is refused where it opens, and a marker that no label bears where the marker
does. -/
theorem appended_reports {offset : Nat} (h : appended axis offset s = .error e) :
    s.Reports e ∨ e = ⟨.unknownPredicate, offset⟩ := by
  unfold appended at h
  split at h
  · cases h
    exact .inl .misplacedAppend
  · split at h
    · cases h
    · cases h
      exact .inr rfl

theorem qualified_reports (h : qualified axis s = .error e) : s.Reports e := by
  unfold qualified at h
  split at h
  · rename_i offset rest
    split at h
    · rename_i rest' hb
      obtain ⟨ls, inner, rfl, -, -⟩ := Bracket.bracket_sound hb
      rcases appended_reports h with hlater | rfl
      · exact .later (hlater.prepend ls)
      · exact .token rfl
    · cases hp : predicates (.next .openBracket offset rest) with
      | ok r => rw [hp] at h; cases h
      | error e' =>
        rw [hp] at h
        cases h
        exact predicates_reports hp
  · cases hr : s.ready with
    | ok r => rw [hr] at h; cases h
    | error e' =>
      rw [hr] at h
      cases h
      exact reports_of_ready hr

theorem step_reports (h : read s = .error e) : s.Reports e := by
  unfold read at h
  split at h
  case h_5 =>
    cases h
    exact reports_refuse (fun _ => rfl) s
  all_goals exact .later (qualified_reports h)

end Step

/-! ## Paths -/

namespace Path

variable {s : Lexemes} {e : PathError} {steps : List Step}

theorem readSteps_reports (h : readSteps s = .error e) : s.Reports e := by
  fun_induction readSteps s with
  | case1 s e' hr =>
    cases h
    exact Step.step_reports hr
  | case2 => cases h
  | case3 s step e' hr =>
    cases h
    obtain ⟨ls, rfl, -⟩ := Step.step_sound hr
    exact (Lexemes.Reports.fault e).prepend ls
  | case4 s step offset last hr =>
    cases h
    obtain ⟨ls, rfl, -⟩ := Step.step_sound hr
    exact Lexemes.Reports.trailingSlash.prepend ls
  | case5 s step slash offset rest hr =>
    cases h
    obtain ⟨ls, rfl, -⟩ := Step.step_sound hr
    exact .prepend (.later .emptyStep) ls
  | case6 s step offset rest _ _ hr _ ih =>
    obtain ⟨ls, rfl, -⟩ := Step.step_sound hr
    cases hrest : readSteps rest with
    | ok later => rw [hrest] at h; cases h
    | error e' =>
      rw [hrest] at h
      cases h
      exact .prepend (.later (ih hrest)) ls
  | case7 s step token offset rest _ _ _ hr =>
    cases h
    obtain ⟨ls, rfl, -⟩ := Step.step_sound hr
    exact .prepend (.token rfl) ls

/-- The bracket of an append step is a lexeme of it. -/
theorem readSteps_reports_append (h : readSteps s = .ok steps) {label : String} {offset : Nat}
    (hmem : .append label offset ∈ steps) : s.Reports ⟨.misplacedAppend, offset⟩ := by
  have hone : ∀ {ls : List Lexeme} {rest : Lexemes}, (Step.append label offset).Spelled ls →
      (prepend ls rest).Reports ⟨.misplacedAppend, offset⟩ := by
    intro ls rest hspelled
    cases hspelled with
    | @append _ head opening marker _ hmarker =>
      obtain ⟨token, o⟩ := opening
      cases (List.cons.inj hmarker).1
      exact .later .misplacedAppend
  fun_induction readSteps s generalizing steps with
  | case2 s step last hr =>
    cases h
    cases List.mem_singleton.mp hmem
    obtain ⟨ls, rfl, hspelled⟩ := Step.step_sound hr
    exact hone hspelled
  | case6 s step slash rest _ _ hr _ ih =>
    obtain ⟨ls, rfl, hspelled⟩ := Step.step_sound hr
    cases hrest : readSteps rest with
    | error e' => rw [hrest] at h; cases h
    | ok later =>
      rw [hrest] at h
      cases h
      rcases List.mem_cons.mp hmem with rfl | hmem
      · exact hone hspelled
      · exact .prepend (.later (ih hrest hmem)) ls
  | _ => cases h

/-- A path that begins in none of its lexemes is empty. -/
theorem read_reports (h : read s = .error e) :
    s.Reports e ∨ ∃ offset, s = .finish offset ∧ e = ⟨.empty, offset⟩ := by
  have hsteps : ∀ {rest : Lexemes} {flag : Bool}, (readSteps rest).map (flag, ·) = .error e →
      rest.Reports e := by
    intro rest flag h
    cases hrest : readSteps rest with
    | ok steps => rw [hrest] at h; cases h
    | error e' =>
      rw [hrest] at h
      cases h
      exact readSteps_reports hrest
  unfold read at h
  split at h
  · cases h
    exact .inr ⟨_, rfl, rfl⟩
  · cases h
  · cases h
    exact .inl (.later .emptyStep)
  · exact .inl (.later (hsteps h))
  · exact .inl (hsteps h)

theorem read_reports_append {absolute : Bool} (h : read s = .ok (absolute, steps)) {label : String}
    {offset : Nat} (hmem : .append label offset ∈ steps) :
    s.Reports ⟨.misplacedAppend, offset⟩ := by
  have hsteps : ∀ {rest : Lexemes} {flag : Bool},
      (readSteps rest).map (flag, ·) = .ok (absolute, steps) →
      rest.Reports ⟨.misplacedAppend, offset⟩ := by
    intro rest flag h
    cases hrest : readSteps rest with
    | error e' => rw [hrest] at h; cases h
    | ok later =>
      rw [hrest] at h
      cases h
      exact readSteps_reports_append hrest hmem
  unfold read at h
  split at h
  · cases h
  · cases h
    cases hmem
  · cases h
  · exact .later (hsteps h)
  · exact hsteps h

theorem exists_append_of_misplacedAppend? {offset : Nat}
    (h : misplacedAppend? steps = some offset) :
    ∃ label, .append label offset ∈ steps := by
  obtain ⟨step, hmem, hstep⟩ := List.exists_of_findSome?_eq_some h
  have hsteps := List.dropLast_subset steps (List.mem_reverse.mp hmem)
  cases step with
  | select axis ps => cases hstep
  | append label o =>
    cases hstep
    exact ⟨label, hsteps⟩

theorem compile_reports {text : String} (h : compile text = .error e) :
    (Lexemes.ofText text).Reports e ∨
      ∃ offset, Lexemes.ofText text = .finish offset ∧ e = ⟨.empty, offset⟩ := by
  unfold compile at h
  split at h
  · rename_i hread
    cases h
    exact read_reports hread
  · rename_i absolute steps hread
    split at h
    · rename_i offset hm
      cases h
      obtain ⟨label, hmem⟩ := exists_append_of_misplacedAppend? hm
      exact .inl (read_reports_append hread hmem)
    · cases h

theorem metBetween_of_compile {text : String} (h : compile text = .error e) :
    ∃ before rest, text.toList = before ++ rest ∧ Text.byteLength before = e.offset ∧
      e.fault.MetBetween before rest := by
  have hpoint : ∃ d, (Cursor.ofText text).Ahead d ∧ d.offset = e.offset ∧
      ∀ before, text.toList = before ++ d.rest → e.fault.MetBetween before d.rest := by
    rcases compile_reports h with hreports | ⟨offset, hfinish, rfl⟩
    · obtain ⟨d, hahead, hoffset, hmet⟩ := hreports.meets rfl
      exact ⟨d, hahead, hoffset, fun before _ => hmet before⟩
    · -- nothing but blanks is left before the end
      obtain ⟨_, hnext⟩ := Lexemes.exists_next_of_finish hfinish
      have hrest := Cursor.rest_of_end hnext rfl
      refine ⟨_, Cursor.ahead_skipBlanks _, (Cursor.offset_next hnext).symm, fun before htext => ?_⟩
      rw [hrest, List.append_nil] at htext
      exact ⟨htext ▸ Cursor.all_isBlank_of_end hnext rfl, hrest⟩
  obtain ⟨d, ⟨before, (htext : text.toList = before ++ d.rest), hbytes⟩, hoffset, hmet⟩ := hpoint
  refine ⟨before, d.rest, htext, ?_, hmet before htext⟩
  rw [← hoffset, hbytes]
  exact (Nat.zero_add _).symm

/-- Compiling refuses no marker where one may stand. -/
theorem fault_ne_appendNotAllowed {text : String} (h : compile text = .error e) :
    e.fault ≠ .appendNotAllowed := by
  obtain ⟨before, rest, -, -, hmet⟩ := metBetween_of_compile h
  intro hfault
  rw [hfault] at hmet
  exact hmet

/-- The offset of an error of compiling lies within the text and between two of its characters, and
what the fault is about stands there. -/
theorem compile_error_located {text : String} (h : compile text = .error e) :
    e.offset ≤ Text.byteLength text.toList ∧
      ∃ before rest, text.toList = before ++ rest ∧ Text.byteLength before = e.offset ∧
        e.fault.MetBetween before rest := by
  obtain ⟨before, rest, htext, hbefore, hmet⟩ := metBetween_of_compile h
  refine ⟨?_, before, rest, htext, hbefore, hmet⟩
  rw [htext, Text.byteLength_append, hbefore]
  exact Nat.le_add_right _ _

/-- A quote that is not closed, after a character of two bytes and a blank. -/
theorem compile_error_located_quote :
    compile "é[ 'x" = .error ⟨.unterminatedString, 4⟩ ∧
      ∃ before rest, "é[ 'x".toList = before ++ rest ∧ Text.byteLength before = 4 ∧
        PathFault.unterminatedString.MetBetween before rest := by
  have h : compile "é[ 'x" = .error ⟨.unterminatedString, 4⟩ := by with_unfolding_all rfl
  exact ⟨h, (compile_error_located h).2⟩

end Path

end LabelTree
