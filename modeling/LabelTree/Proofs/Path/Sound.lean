import LabelTree.Path.Compile
import LabelTree.Path.Grammar

/-!
# Path — what is compiled is spelled

Soundness of the recursive descent, reader by reader: the lexemes that a reader takes spell what it
answers, and what it leaves is the rest. A text that compiles is read to its end, and all its
lexemes together spell the steps of the path (`spelled_of_compile`).
-/

namespace LabelTree

namespace Lexemes

/-- Lexemes that come before a sequence. -/
def prepend (lexemes : List Lexeme) (s : Lexemes) : Lexemes :=
  lexemes.foldr (fun l rest => next l.token l.offset rest) s

@[simp] theorem prepend_nil (s : Lexemes) : prepend [] s = s := rfl

@[simp] theorem prepend_cons (l : Lexeme) (ls : List Lexeme) (s : Lexemes) :
    prepend (l :: ls) s = next l.token l.offset (prepend ls s) := rfl

theorem prepend_append (ls ls' : List Lexeme) (s : Lexemes) :
    prepend (ls ++ ls') s = prepend ls (prepend ls' s) :=
  List.foldr_append

theorem toList_prepend (ls : List Lexeme) (s : Lexemes) :
    (prepend ls s).toList = ls ++ s.toList := by
  induction ls with
  | nil => rfl
  | cons l ls ih => rw [prepend_cons, toList, ih, List.cons_append]

end Lexemes

open Lexemes (prepend)

/-! ## Brackets -/

namespace Bracket

/-- The tokens between a pair of brackets. -/
inductive Spelled : Bracket → List Token → Prop
  | predicate {p : Predicate} {tokens : List Token} : p.Spelled tokens →
      Spelled (.predicate p) tokens
  | append : Spelled .append (lastTokens ++ [.plus, .number 1])

variable {s s' : Lexemes} {b : Bracket} {operand : Operand} {negated : Bool} {name : String}

theorem literal_sound (h : literal operand negated s = .ok (b, s')) :
    ∃ text offset, s = .next (.string text) offset s' ∧
      b = .predicate (.compare operand text negated) := by
  unfold literal at h
  split at h
  · cases h
    exact ⟨_, _, rfl, rfl⟩
  · cases h

theorem comparison_sound (h : comparison operand s = .ok (b, s')) :
    ∃ ls, s = prepend ls s' ∧ b.Spelled (operand.token :: ls.map Lexeme.token) := by
  unfold comparison at h
  split at h
  · rename_i offset rest
    obtain ⟨text, offset', rfl, rfl⟩ := literal_sound h
    exact ⟨[⟨.equal, offset⟩, ⟨.string text, offset'⟩], rfl,
      .predicate (.compare operand text false)⟩
  · rename_i offset rest
    obtain ⟨text, offset', rfl, rfl⟩ := literal_sound h
    exact ⟨[⟨.notEqual, offset⟩, ⟨.string text, offset'⟩], rfl,
      .predicate (.compare operand text true)⟩
  · split at h
    · cases h
      exact ⟨[], rfl, .predicate (.hasChild _)⟩
    · cases h

theorem lastOffset_sound (h : lastOffset s = .ok (b, s')) :
    ∃ ls, s = prepend ls s' ∧ b.Spelled (lastTokens ++ ls.map Lexeme.token) := by
  unfold lastOffset at h
  split at h
  · rename_i offset offset' rest
    cases h
    exact ⟨[⟨.plus, offset⟩, ⟨.number 1, offset'⟩], rfl, .append⟩
  · cases h
  · rename_i offset back offset' rest
    cases h
    exact ⟨[⟨.minus, offset⟩, ⟨.number back, offset'⟩], rfl, .predicate (.lastBut back)⟩
  · cases h
  · cases h
    exact ⟨[], rfl, .predicate .last⟩

theorem lastCall_sound (h : lastCall s = .ok (b, s')) :
    ∃ ls, s = prepend ls s' ∧
      b.Spelled (.label "last" :: .openParen :: ls.map Lexeme.token) := by
  unfold lastCall at h
  split at h
  · rename_i offset rest
    obtain ⟨ls, rfl, hb⟩ := lastOffset_sound h
    exact ⟨⟨.closeParen, offset⟩ :: ls, rfl, hb⟩
  · cases h

theorem named_sound (h : named name s = .ok (b, s')) :
    ∃ ls, s = prepend ls s' ∧ b.Spelled (.label name :: ls.map Lexeme.token) := by
  unfold named at h
  split at h
  · rename_i offset rest
    split at h
    · rename_i hname
      obtain ⟨ls, rfl, hb⟩ := lastCall_sound h
      exact ⟨⟨.openParen, offset⟩ :: ls, rfl, hname ▸ hb⟩
    · exact comparison_sound h
  · exact comparison_sound h

theorem content_sound (h : content s = .ok (b, s')) :
    ∃ ls, s = prepend ls s' ∧ b.Spelled (ls.map Lexeme.token) := by
  unfold content at h
  split at h
  · rename_i n offset rest
    cases h
    exact ⟨[⟨.number n, offset⟩], rfl, .predicate (.position n)⟩
  · rename_i name offset rest
    obtain ⟨ls, rfl, hb⟩ := named_sound h
    exact ⟨⟨.label name, offset⟩ :: ls, rfl, hb⟩
  · rename_i offset rest
    obtain ⟨ls, rfl, hb⟩ := comparison_sound h
    exact ⟨⟨.dot, offset⟩ :: ls, rfl, hb⟩
  · cases h

theorem bracket_sound (h : read s = .ok (b, s')) :
    ∃ ls inner, s = prepend ls s' ∧ ls.map Lexeme.token = inner ++ [.closeBracket] ∧
      b.Spelled inner := by
  unfold read at h
  split at h
  · cases h
  · rename_i bracket offset rest hc
    cases hr : rest.ready with
    | error e => rw [hr] at h; cases h
    | ok rest' =>
      rw [hr] at h
      cases h
      rw [length_ready hr]
      obtain ⟨ls, rfl, hb⟩ := content_sound hc
      refine ⟨ls ++ [⟨.closeBracket, offset⟩], ls.map Lexeme.token, ?_, by simp, hb⟩
      rw [Lexemes.prepend_append]
      rfl
  · cases h

end Bracket

/-! ## Steps -/

namespace Step

variable {s s' : Lexemes} {step : Step} {axis : Axis}

theorem predicates_sound {ps : List Predicate} (h : predicates s = .ok (ps, s')) :
    ∃ ls, s = prepend ls s' ∧ Predicate.AllSpelled ps (ls.map Lexeme.token) := by
  fun_induction predicates s generalizing ps s' with
  | case1 => cases h
  | case2 => cases h
  | case3 offset rest p rest' hb hlt ih =>
    cases hp : predicates rest' with
    | error e => rw [hp] at h; cases h
    | ok r =>
      rw [hp] at h
      cases h
      obtain ⟨ls, inner, rfl, hls, hspelled⟩ := Bracket.bracket_sound hb
      obtain ⟨ls', rfl, hps⟩ := ih hp
      cases hspelled with
      | predicate hspelled =>
        refine ⟨⟨.openBracket, offset⟩ :: (ls ++ ls'), ?_, ?_⟩
        · rw [Lexemes.prepend_cons, Lexemes.prepend_append]
        · simpa [hls] using Predicate.AllSpelled.cons hspelled hps
  | case4 =>
    cases h
    exact ⟨[], rfl, .nil⟩

theorem appended_sound {offset : Nat} (h : appended axis offset s = .ok (step, s')) :
    ∃ label, axis = .child (.exact label) ∧ step = append label offset ∧ s' = s := by
  unfold appended at h
  split at h
  · cases h
  · split at h
    · cases h
      exact ⟨_, rfl, rfl, rfl⟩
    · cases h

theorem qualified_sound (h : qualified axis s = .ok (step, s')) :
    ∃ ls, s = prepend ls s' ∧ ∀ head : Lexeme, head.token = axis.token →
      step.Spelled (head :: ls) := by
  unfold qualified at h
  split at h
  · rename_i offset rest
    split at h
    · rename_i rest' hb
      obtain ⟨label, rfl, rfl, rfl⟩ := appended_sound h
      obtain ⟨ls, inner, rfl, hls, hspelled⟩ := Bracket.bracket_sound hb
      cases hspelled
      refine ⟨⟨.openBracket, offset⟩ :: ls, rfl, fun head hhead => ?_⟩
      have hmarker :
          (⟨.openBracket, offset⟩ :: ls : List Lexeme).map Lexeme.token = appendTokens := by
        simp [hls, appendTokens]
      exact .append hhead hmarker
    · cases hp : predicates (.next .openBracket offset rest) with
      | error e => rw [hp] at h; cases h
      | ok r =>
        rw [hp] at h
        cases h
        obtain ⟨ls, hs, hps⟩ := predicates_sound hp
        exact ⟨ls, hs, fun head hhead => .select hhead hps⟩
  · cases hr : s.ready with
    | error e => rw [hr] at h; cases h
    | ok r =>
      rw [hr] at h
      cases h
      exact ⟨[], (Bracket.length_ready hr).symm, fun head hhead => .select hhead .nil⟩

theorem step_sound (h : read s = .ok (step, s')) :
    ∃ ls, s = prepend ls s' ∧ step.Spelled ls := by
  -- each first token is that of one axis
  have hread : ∃ axis offset rest, s = .next (Axis.token axis) offset rest ∧
      qualified axis rest = .ok (step, s') := by
    unfold read at h
    split at h
    · exact ⟨.child (.exact _), _, _, rfl, h⟩
    · exact ⟨.child .any, _, _, rfl, h⟩
    · exact ⟨.self, _, _, rfl, h⟩
    · exact ⟨.parent, _, _, rfl, h⟩
    · cases h
  obtain ⟨axis, offset, rest, rfl, hq⟩ := hread
  obtain ⟨ls, rfl, hspelled⟩ := qualified_sound hq
  exact ⟨⟨axis.token, offset⟩ :: ls, rfl, hspelled _ rfl⟩

end Step

/-! ## Paths -/

namespace Path

theorem misplacedAppend?_eq_none_iff {steps : List Step} :
    misplacedAppend? steps = none ↔ ∀ step ∈ steps.dropLast, step.isAppend = false := by
  rw [misplacedAppend?, List.findSome?_eq_none_iff]
  refine forall_congr' fun step => ?_
  rw [List.mem_reverse]
  cases step <;> simp [Step.isAppend]

theorem misplacedAppend?_cons {step next : Step} {steps : List Step}
    (h : misplacedAppend? (step :: next :: steps) = none) :
    step.isAppend = false ∧ misplacedAppend? (next :: steps) = none := by
  rw [misplacedAppend?_eq_none_iff, List.dropLast_cons_cons, List.forall_mem_cons] at h
  exact ⟨h.1, misplacedAppend?_eq_none_iff.mpr h.2⟩

theorem readSteps_ne_nil {s : Lexemes} {steps : List Step} (h : readSteps s = .ok steps) :
    steps ≠ [] := by
  fun_induction readSteps s generalizing steps with
  | case2 s step offset hr =>
    cases h
    simp
  | case6 s step offset rest _ _ hr hlt ih =>
    cases hrest : readSteps rest with
    | error e => rw [hrest] at h; cases h
    | ok later =>
      rw [hrest] at h
      cases h
      simp
  | _ => cases h

theorem readSteps_sound {s : Lexemes} {steps : List Step} (h : readSteps s = .ok steps)
    (hm : misplacedAppend? steps = none) :
    ∃ ls offset, s = prepend ls (.finish offset) ∧ Step.AllSpelled steps ls := by
  fun_induction readSteps s generalizing steps with
  | case2 s step offset hr =>
    cases h
    obtain ⟨ls, hs, hstep⟩ := Step.step_sound hr
    exact ⟨ls, offset, hs, .final hstep⟩
  | case6 s step offset rest _ _ hr hlt ih =>
    cases hrest : readSteps rest with
    | error e => rw [hrest] at h; cases h
    | ok later =>
      rw [hrest] at h
      cases h
      cases later with
      | nil => exact absurd rfl (readSteps_ne_nil hrest)
      | cons next later =>
        -- steps follow, so this one must not be an append step
        obtain ⟨hstep, hlater⟩ := misplacedAppend?_cons hm
        obtain ⟨ls, hs, hspelled⟩ := Step.step_sound hr
        obtain ⟨ls', offset', rfl, hls'⟩ := ih hrest hlater
        refine ⟨ls ++ ⟨.slash, offset⟩ :: ls', offset', ?_, .cons hstep hspelled rfl hls'⟩
        rw [hs, Lexemes.prepend_append]
        rfl
  | _ => cases h

theorem read_sound {s : Lexemes} {absolute : Bool} {steps : List Step}
    (h : read s = .ok (absolute, steps)) (hm : misplacedAppend? steps = none) :
    ∃ ls offset, s = prepend ls (.finish offset) ∧ Spelled absolute steps ls := by
  have hsteps : ∀ {rest : Lexemes} {flag : Bool},
      (readSteps rest).map (flag, ·) = .ok (absolute, steps) →
      flag = absolute ∧ readSteps rest = .ok steps := by
    intro rest flag h
    cases hrest : readSteps rest with
    | error e => rw [hrest] at h; cases h
    | ok later =>
      rw [hrest] at h
      cases h
      exact ⟨rfl, rfl⟩
  unfold read at h
  split at h
  · cases h
  · rename_i offset offset'
    cases h
    exact ⟨[⟨.slash, offset⟩], offset', rfl, .root rfl⟩
  · cases h
  · rename_i offset rest _ _
    obtain ⟨rfl, hrest⟩ := hsteps h
    obtain ⟨ls, offset', rfl, hls⟩ := readSteps_sound hrest hm
    exact ⟨⟨.slash, offset⟩ :: ls, offset', rfl, .absolute rfl hls⟩
  · obtain ⟨rfl, hrest⟩ := hsteps h
    obtain ⟨ls, offset', rfl, hls⟩ := readSteps_sound hrest hm
    exact ⟨ls, offset', rfl, .relative hls⟩

theorem compile_eq_ok {text : String} {path : Path} (h : compile text = .ok path) :
    path.text = text ∧ read (.ofText text) = .ok (path.absolute, path.steps) ∧
      misplacedAppend? path.steps = none := by
  unfold compile at h
  split at h
  · cases h
  · rename_i absolute steps hr
    split at h
    · cases h
    · rename_i hm
      cases h
      exact ⟨rfl, hr, hm⟩

/-- A text that compiles is read to its end, and its lexemes spell the path. -/
theorem spelled_of_compile {text : String} {path : Path} (h : compile text = .ok path) :
    ∃ ls offset, Lexemes.ofText text = prepend ls (.finish offset) ∧
      Spelled path.absolute path.steps ls := by
  obtain ⟨-, hr, hm⟩ := compile_eq_ok h
  exact read_sound hr hm

/-- Only the final step of a compiled path may append. -/
theorem isAppend_of_compile {text : String} {path : Path} (h : compile text = .ok path) :
    ∀ step ∈ path.steps.dropLast, step.isAppend = false :=
  misplacedAppend?_eq_none_iff.mp (compile_eq_ok h).2.2

/-- A relative path has a step. -/
theorem steps_ne_nil_of_compile {text : String} {path : Path} (h : compile text = .ok path)
    (hrel : path.absolute = false) : path.steps ≠ [] := by
  obtain ⟨ls, offset, -, hspelled⟩ := spelled_of_compile h
  intro hnil
  rw [hrel, hnil] at hspelled
  cases hspelled with
  | relative hall => cases hall

/-! ### Append steps -/

variable {path : Path}

theorem isSome_appendOffset? (path : Path) : path.appendOffset?.isSome = path.isAppend := by
  rw [appendOffset?, isAppend]
  cases path.steps.getLast? with
  | none => rfl
  | some step => cases step <;> rfl

theorem getLast?_of_appendOffset? {offset : Nat} (h : path.appendOffset? = some offset) :
    ∃ label, path.steps.getLast? = some (.append label offset) := by
  unfold appendOffset? at h
  split at h
  · rename_i hlast
    cases h
    exact ⟨_, hlast⟩
  · cases h

theorem exists_append_iff (path : Path) :
    (∃ step ∈ path.steps, step.isAppend = true) ↔
      (∃ step ∈ path.steps.dropLast, step.isAppend = true) ∨ path.isAppend = true := by
  rw [isAppend]
  rcases List.eq_nil_or_concat path.steps with hnil | ⟨init, last, hlast⟩
  · simp [hnil]
  · simp [hlast, or_and_right, exists_or]

theorem exists_append_iff_of_compile {text : String} (h : compile text = .ok path) :
    (∃ step ∈ path.steps, step.isAppend = true) ↔ path.isAppend = true := by
  rw [exists_append_iff, or_iff_right]
  rintro ⟨step, hmem, happend⟩
  cases (isAppend_of_compile h step hmem).symm.trans happend

theorem rebase_of_relative (hrel : path.absolute = false) (base : Path) :
    path.rebase base = ⟨trimSlashes base.text ++ "/" ++ path.text, base.absolute,
      base.steps ++ path.steps⟩ := by
  rw [rebase, hrel]
  rfl

theorem dropLast_steps_rebase (hrel : path.absolute = false) (hne : path.steps ≠ []) (base : Path) :
    (path.rebase base).steps.dropLast = base.steps ++ path.steps.dropLast := by
  rw [rebase_of_relative hrel]
  exact List.dropLast_append_of_ne_nil hne

theorem appendOffset?_rebase (hrel : path.absolute = false) (hne : path.steps ≠ []) (base : Path) :
    (path.rebase base).appendOffset? = path.appendOffset? := by
  rw [rebase_of_relative hrel, appendOffset?, appendOffset?, List.getLast?_append,
    List.getLast?_eq_some_getLast hne]
  rfl

theorem isAppend_rebase (hrel : path.absolute = false) (hne : path.steps ≠ []) (base : Path) :
    (path.rebase base).isAppend = path.isAppend := by
  rw [← isSome_appendOffset?, appendOffset?_rebase hrel hne, isSome_appendOffset?]

end Path

end LabelTree
