import LabelTree.Proofs.Path.Writing

/-!
# Path — compiling undoes writing

The tokens that a path is printed with spell its steps, provided that an append step stands last and
that a relative path has a step. So such a path has a writing, and as every writing compiles, the
path is read back from whatever is written for it (`Path.compile_undoes_writing`).
-/

namespace LabelTree

theorem map_token_map (tokens : List Token) (offset : Nat) :
    (tokens.map fun t => (⟨t, offset⟩ : Lexeme)).map Lexeme.token = tokens := by
  induction tokens with
  | nil => rfl
  | cons t tokens ih => rw [List.map_cons, List.map_cons, ih]

theorem Token.Written.cons_word {depth : Nat} {t : Token} {tokens : List Token} {text : List Char}
    (h : Written (t.depthAfter depth) tokens text) :
    Written depth (t :: tokens) (t.word (depth != 0) '"' ++ text) := by
  have hblanks : ([] : List Char).all Text.isBlank = true := rfl
  exact .cons hblanks rfl h

theorem Token.written_print (depth : Nat) (tokens : List Token) :
    Written depth tokens (print depth tokens) := by
  induction tokens generalizing depth with
  | nil => exact .nil rfl
  | cons t tokens ih => exact .cons_word (ih (t.depthAfter depth))

/-! ## Printed tokens spell the path -/

theorem Predicate.spelled_tokens (p : Predicate) : p.Spelled p.tokens := by
  cases p with
  | position n => exact .position n
  | last back =>
    cases back with
    | zero => exact .last
    | succ back => exact .lastBut (back + 1)
  | compare operand literal negated => exact .compare operand literal negated
  | hasChild name => exact .hasChild name

theorem Predicate.allSpelled_tokens (ps : List Predicate) :
    AllSpelled ps (ps.flatMap fun p => .openBracket :: (p.tokens ++ [.closeBracket])) := by
  induction ps with
  | nil => exact .nil
  | cons p ps ih => simpa using AllSpelled.cons p.spelled_tokens ih

namespace Step

/-- The offset of a step's append marker does not show in its tokens, so it is chosen to fit. -/
theorem exists_spelled_tokens (step : Step) :
    ∃ ls, step.Spelled ls ∧ ls.map Lexeme.token = step.tokens := by
  cases step with
  | select axis ps =>
    refine ⟨(select axis ps).tokens.map (⟨·, 0⟩), .select rfl ?_, map_token_map _ 0⟩
    rw [map_token_map]
    exact Predicate.allSpelled_tokens ps
  | append label offset =>
    have hmarker := map_token_map appendTokens offset
    refine ⟨⟨.label label, offset⟩ :: appendTokens.map (⟨·, offset⟩), .append rfl hmarker, ?_⟩
    rw [List.map_cons, hmarker, tokens]

theorem exists_allSpelled_tokens {steps : List Step} (hne : steps ≠ [])
    (happend : ∀ step ∈ steps.dropLast, step.isAppend = false) :
    ∃ ls, AllSpelled steps ls ∧ ls.map Lexeme.token = Path.stepTokens steps := by
  induction steps with
  | nil => exact absurd rfl hne
  | cons step steps ih =>
    obtain ⟨ls, hls, htokens⟩ := step.exists_spelled_tokens
    cases steps with
    | nil => exact ⟨ls, .final hls, htokens⟩
    | cons next steps =>
      rw [List.dropLast_cons_cons, List.forall_mem_cons] at happend
      obtain ⟨ls', hls', htokens'⟩ := ih (List.cons_ne_nil next steps) happend.2
      refine ⟨ls ++ ⟨.slash, 0⟩ :: ls', .cons happend.1 hls rfl hls', ?_⟩
      rw [List.map_append, List.map_cons, htokens, htokens']
      rfl

end Step

namespace Path

variable {absolute : Bool} {steps : List Step}

/-- A path is a writing of itself, unless an append step stands before another step or a relative
path has no steps. -/
theorem written_print (happend : ∀ step ∈ steps.dropLast, step.isAppend = false)
    (hsome : absolute = true ∨ steps ≠ []) : Written absolute steps (print absolute steps) := by
  have hspelled : ∃ ls, Spelled absolute steps ls ∧
      ls.map Lexeme.token = (if absolute then [.slash] else []) ++ stepTokens steps := by
    cases steps with
    | nil =>
      cases absolute with
      | true => exact ⟨[⟨.slash, 0⟩], .root rfl, rfl⟩
      | false => simp at hsome
    | cons step later =>
      obtain ⟨ls, hls, htokens⟩ :=
        Step.exists_allSpelled_tokens (List.cons_ne_nil step later) happend
      cases absolute with
      | true => exact ⟨⟨.slash, 0⟩ :: ls, .absolute rfl hls, by simp [htokens]⟩
      | false => exact ⟨ls, .relative hls, by simp [htokens]⟩
  obtain ⟨ls, hls, htokens⟩ := hspelled
  refine ⟨ls, hls, ?_⟩
  rw [htokens, print, String.toList_ofList]
  exact Token.written_print 0 _

/-- A path that can be written has a writing, and every writing of it compiles to that path, up to
the offset of its append marker. -/
theorem compile_undoes_writing (hsteps : steps.all Step.isWritable = true)
    (happend : ∀ step ∈ steps.dropLast, step.isAppend = false)
    (hsome : absolute = true ∨ steps ≠ []) :
    Written absolute steps (print absolute steps) ∧
      ∀ text, Written absolute steps text →
        ∃ steps', compile text = .ok ⟨text, absolute, steps'⟩ ∧
          steps'.map Step.withoutOffset = steps.map Step.withoutOffset :=
  ⟨written_print happend hsome, fun _ h => compile_of_written h hsteps⟩

/-- Blanks stand between the tokens, and those that belong to a label are escaped. -/
theorem compile_undoes_writing_blanks :
    let steps : List Step :=
      [.select (.child (.exact "a ")) [.compare .self "'" true], .append "b" 0]
    let text := " a\\ [ .!= '\\'' ]/ b [last() +1] "
    steps.all Step.isWritable = true ∧ (∀ step ∈ steps.dropLast, step.isAppend = false) ∧
      Written false steps text ∧ ∃ steps', compile text = .ok ⟨text, false, steps'⟩ ∧
        steps'.map Step.withoutOffset = steps.map Step.withoutOffset := by
  intro steps text
  have hsteps : steps.all Step.isWritable = true := by decide
  have happend : ∀ step ∈ steps.dropLast, step.isAppend = false := by decide
  have hsome : false = true ∨ steps ≠ [] := .inr (List.cons_ne_nil _ _)
  have hwritten : Written false steps text := by
    obtain ⟨ls, hls, htokens⟩ := Step.exists_allSpelled_tokens (List.cons_ne_nil _ _) happend
    refine ⟨ls, .relative hls, ?_⟩
    rw [htokens]
    have hwords := @Token.Written.cons 0 (.label "a ") _ '"' [' '] _ rfl rfl <|
      @Token.Written.cons 0 .openBracket _ '"' [] _ rfl rfl <|
      @Token.Written.cons 1 .dot _ '"' [' '] _ rfl rfl <|
      @Token.Written.cons 1 .notEqual _ '"' [] _ rfl rfl <|
      @Token.Written.cons 1 (.string "'") _ '\'' [' '] _ rfl rfl <|
      @Token.Written.cons 1 .closeBracket _ '"' [' '] _ rfl rfl <|
      @Token.Written.cons 0 .slash _ '"' [] _ rfl rfl <|
      @Token.Written.cons 0 (.label "b") _ '"' [' '] _ rfl rfl <|
      @Token.Written.cons 0 .openBracket _ '"' [' '] _ rfl rfl <|
      @Token.Written.cons 1 (.label "last") _ '"' [] _ rfl rfl <|
      @Token.Written.cons 1 .openParen _ '"' [] _ rfl rfl <|
      @Token.Written.cons 1 .closeParen _ '"' [] _ rfl rfl <|
      @Token.Written.cons 1 .plus _ '"' [' '] _ rfl rfl <|
      @Token.Written.cons 1 (.number 1) _ '"' [] _ rfl rfl <|
      @Token.Written.cons 1 .closeBracket _ '"' [] _ rfl rfl <|
      @Token.Written.nil 0 [' '] rfl
    refine (?_ : _ = text.toList) ▸ hwords
    decide
  exact ⟨hsteps, happend, hwritten,
    (compile_undoes_writing hsteps happend hsome).2 text hwritten⟩

end Path

end LabelTree
