import LabelTree.Proofs.Path.Sound

/-!
# Path — what is spelled compiles

The other half of the grammar: lexemes that spell a path are read to that path, reader by reader and
with any lexemes after them that a reader leaves alone. A text whose lexemes spell a path compiles
to it (`compile_of_spelled`).
-/

namespace LabelTree

open Lexemes (prepend)

namespace Lexemes

/-- Lexemes before which a step is complete: a slash, or the end of the path. -/
inductive EndsStep : Lexemes → Prop
  | finish (offset : Nat) : EndsStep (finish offset)
  | slash (offset : Nat) (rest : Lexemes) : EndsStep (next .slash offset rest)

theorem EndsStep.ready {s : Lexemes} (h : s.EndsStep) : s.ready = .ok s := by
  cases h <;> rfl

theorem ready_prepend (ls : List Lexeme) {s : Lexemes} (h : s.ready = .ok s) :
    (prepend ls s).ready = .ok (prepend ls s) := by
  cases ls with
  | nil => exact h
  | cons l ls => rfl

end Lexemes

open Lexemes (EndsStep)

/-! ## Brackets -/

namespace Bracket

variable {b : Bracket} {ls : List Lexeme} {rest : Lexemes} {offset : Nat}

theorem content_last (o₁ o₂ o₃ : Nat) (s : Lexemes) :
    content (prepend [⟨.label "last", o₁⟩, ⟨.openParen, o₂⟩, ⟨.closeParen, o₃⟩] s) =
      lastOffset s := by
  simp [content, named, lastCall]

theorem content_complete (h : b.Spelled (ls.map Lexeme.token)) (offset : Nat) (rest : Lexemes) :
    content (prepend ls (.next .closeBracket offset rest)) =
      .ok (b, .next .closeBracket offset rest) := by
  generalize htokens : ls.map Lexeme.token = tokens at h
  cases h with
  | predicate h =>
    cases h with
    | position n =>
      simp only [List.map_eq_cons_iff, List.map_eq_nil_iff] at htokens
      obtain ⟨⟨_, o⟩, _, rfl, rfl, rfl⟩ := htokens
      rfl
    | last =>
      simp only [lastTokens, List.map_eq_cons_iff, List.map_eq_nil_iff] at htokens
      obtain ⟨⟨_, o₁⟩, _, rfl, rfl, ⟨_, o₂⟩, _, rfl, rfl, ⟨_, o₃⟩, _, rfl, rfl, rfl⟩ := htokens
      exact content_last o₁ o₂ o₃ _
    | lastBut back =>
      simp only [lastTokens, List.cons_append, List.nil_append, List.map_eq_cons_iff,
        List.map_eq_nil_iff] at htokens
      obtain ⟨⟨_, o₁⟩, _, rfl, rfl, ⟨_, o₂⟩, _, rfl, rfl, ⟨_, o₃⟩, _, rfl, rfl,
        ⟨_, o₄⟩, _, rfl, rfl, ⟨_, o₅⟩, _, rfl, rfl, rfl⟩ := htokens
      exact content_last o₁ o₂ o₃ _
    | hasChild name =>
      simp only [List.map_eq_cons_iff, List.map_eq_nil_iff] at htokens
      obtain ⟨⟨_, o⟩, _, rfl, rfl, rfl⟩ := htokens
      rfl
    | compare operand literal negated =>
      simp only [List.map_eq_cons_iff, List.map_eq_nil_iff] at htokens
      obtain ⟨⟨_, o₁⟩, _, rfl, rfl, ⟨_, o₂⟩, _, rfl, rfl, ⟨_, o₃⟩, _, rfl, rfl, rfl⟩ := htokens
      cases operand <;> cases negated <;> rfl
  | append =>
    simp only [lastTokens, List.cons_append, List.nil_append, List.map_eq_cons_iff,
      List.map_eq_nil_iff] at htokens
    obtain ⟨⟨_, o₁⟩, _, rfl, rfl, ⟨_, o₂⟩, _, rfl, rfl, ⟨_, o₃⟩, _, rfl, rfl, ⟨_, o₄⟩, _, rfl, rfl,
      ⟨_, o₅⟩, _, rfl, rfl, rfl⟩ := htokens
    exact content_last o₁ o₂ o₃ _

theorem bracket_complete {inner : List Token} (hls : ls.map Lexeme.token = inner ++ [.closeBracket])
    (h : b.Spelled inner) (hrest : rest.ready = .ok rest) :
    read (prepend ls rest) = .ok (b, rest) := by
  obtain ⟨content, closing, rfl, rfl, hclosing⟩ := List.map_eq_append_iff.mp hls
  obtain ⟨last, tail, rfl, hlast, htail⟩ := List.map_eq_cons_iff.mp hclosing
  cases List.map_eq_nil_iff.mp htail
  obtain ⟨token, offset⟩ := last
  cases hlast
  have hc := content_complete h offset rest
  rw [Lexemes.prepend_append, Lexemes.prepend_cons, Lexemes.prepend_nil, read, hc]
  show rest.ready.map (fun rest => (b, rest)) = .ok (b, rest)
  rw [hrest]
  rfl

end Bracket

/-! ## Steps -/

namespace Step

variable {step : Step} {axis : Axis} {ls : List Lexeme} {s : Lexemes}

theorem predicates_of_endsStep (hs : s.EndsStep) : predicates s = .ok ([], s) := by
  cases hs <;> simp [predicates]

theorem predicates_bracket {rest rest' : Lexemes} {offset : Nat} {p : Predicate}
    (h : Bracket.read rest = .ok (.predicate p, rest')) :
    predicates (.next .openBracket offset rest) =
      (predicates rest').map fun (ps, rest) => (p :: ps, rest) := by
  rw [predicates]
  split
  · rename_i heq
    rw [h] at heq
    cases heq
  · rename_i heq
    rw [h] at heq
    cases heq
  · rename_i heq
    rw [h] at heq
    cases heq
    rfl

/-- The lexemes of a bracket and of those after it. -/
theorem bracket_of_allSpelled {p : Predicate} {ps : List Predicate}
    (h : Predicate.AllSpelled (p :: ps) (ls.map Lexeme.token)) :
    ∃ offset first others inner, ls = ⟨.openBracket, offset⟩ :: (first ++ others) ∧
      first.map Lexeme.token = inner ++ [.closeBracket] ∧ p.Spelled inner ∧
      Predicate.AllSpelled ps (others.map Lexeme.token) := by
  generalize htokens : ls.map Lexeme.token = tokens at h
  cases h with
  | @cons _ _ inner rest hp hps =>
    obtain ⟨⟨token, offset⟩, ls, rfl, rfl, h⟩ := List.map_eq_cons_iff.mp htokens
    have hsplit : ls.map Lexeme.token = (inner ++ [.closeBracket]) ++ rest := by simpa using h
    obtain ⟨first, others, rfl, hfirst, rfl⟩ := List.map_eq_append_iff.mp hsplit
    exact ⟨offset, first, others, inner, rfl, hfirst, hp, hps⟩

theorem predicates_complete {ps : List Predicate}
    (h : Predicate.AllSpelled ps (ls.map Lexeme.token)) (hs : s.EndsStep) :
    predicates (prepend ls s) = .ok (ps, s) := by
  induction ps generalizing ls with
  | nil =>
    generalize htokens : ls.map Lexeme.token = tokens at h
    cases h
    cases List.map_eq_nil_iff.mp htokens
    exact predicates_of_endsStep hs
  | cons p ps ih =>
    obtain ⟨offset, first, others, inner, rfl, hfirst, hp, hps⟩ := bracket_of_allSpelled h
    have hready := Lexemes.ready_prepend others hs.ready
    have hread := Bracket.bracket_complete hfirst (.predicate hp) hready
    rw [Lexemes.prepend_cons, Lexemes.prepend_append, predicates_bracket hread, ih hps]
    rfl

theorem qualified_of_endsStep (axis : Axis) (hs : s.EndsStep) :
    qualified axis s = .ok (select axis [], s) := by
  cases hs <;> rfl

theorem qualified_select {ps : List Predicate}
    (h : Predicate.AllSpelled ps (ls.map Lexeme.token)) (hs : s.EndsStep) :
    qualified axis (prepend ls s) = .ok (select axis ps, s) := by
  have hps := predicates_complete h hs
  cases ps with
  | nil =>
    generalize htokens : ls.map Lexeme.token = tokens at h
    cases h
    cases List.map_eq_nil_iff.mp htokens
    exact qualified_of_endsStep axis hs
  | cons p ps =>
    obtain ⟨offset, first, others, inner, rfl, hfirst, hp, -⟩ := bracket_of_allSpelled h
    have hready := Lexemes.ready_prepend others hs.ready
    have hread := Bracket.bracket_complete hfirst (.predicate hp) hready
    rw [Lexemes.prepend_cons, Lexemes.prepend_append] at hps ⊢
    simp only [qualified, hread, hps]
    rfl

theorem qualified_append {label : String} {opening : Lexeme} {marker : List Lexeme}
    (h : (opening :: marker).map Lexeme.token = appendTokens) (hs : s.EndsStep) :
    qualified (.child (.exact label)) (prepend (opening :: marker) s) =
      .ok (append label opening.offset, s) := by
  obtain ⟨token, offset⟩ := opening
  rw [List.map_cons, appendTokens, List.cons.injEq] at h
  obtain ⟨rfl, hmarker⟩ := h
  have hinner : marker.map Lexeme.token =
      (lastTokens ++ [.plus, .number 1]) ++ [.closeBracket] := hmarker
  have hread : Bracket.read (prepend marker s) = .ok (.append, s) :=
    Bracket.bracket_complete hinner .append hs.ready
  rw [Lexemes.prepend_cons]
  simp only [qualified, hread]
  cases hs <;> rfl

theorem step_complete (h : step.Spelled ls) (hs : s.EndsStep) :
    read (prepend ls s) = .ok (step, s) := by
  -- the first lexeme names the axis, the others are its brackets
  have hhead : ∀ (head : Lexeme) (axis : Axis) (rest : Lexemes), head.token = axis.token →
      read (.next head.token head.offset rest) = qualified axis rest := by
    intro head axis rest h
    rw [h]
    cases axis with
    | child matcher => cases matcher <;> rfl
    | self => rfl
    | parent => rfl
  cases h with
  | @select axis ps head brackets ht hps =>
    rw [Lexemes.prepend_cons, hhead head axis _ ht]
    exact qualified_select hps hs
  | @append label head opening marker ht hmarker =>
    rw [Lexemes.prepend_cons, hhead head (.child (.exact label)) _ ht]
    exact qualified_append hmarker hs

end Step

/-! ## Paths -/

theorem Axis.token_ne_slash (axis : Axis) : axis.token ≠ .slash := by
  cases axis with
  | child matcher => cases matcher <;> simp [Axis.token]
  | self => simp [Axis.token]
  | parent => simp [Axis.token]

namespace Path

variable {steps : List Step} {ls : List Lexeme} {absolute : Bool} {offset : Nat}

/-- The first lexeme of steps names an axis. -/
theorem exists_axis_of_allSpelled (h : Step.AllSpelled steps ls) :
    ∃ (axis : Axis) (o : Nat) (ls' : List Lexeme), ls = ⟨axis.token, o⟩ :: ls' := by
  have hone : ∀ {step : Step} {ls : List Lexeme}, step.Spelled ls →
      ∃ (axis : Axis) (o : Nat) (ls' : List Lexeme), ls = ⟨axis.token, o⟩ :: ls' := by
    intro step ls h
    cases h with
    | @select axis ps head brackets ht _ => exact ⟨axis, head.offset, brackets, by rw [← ht]⟩
    | @append label head opening marker ht _ =>
      exact ⟨.child (.exact label), head.offset, opening :: marker, by rw [Axis.token, ← ht]⟩
  cases h with
  | final h => exact hone h
  | cons _ h _ _ =>
    obtain ⟨axis, o, ls', rfl⟩ := hone h
    exact ⟨axis, o, _, rfl⟩

theorem isAppend_of_allSpelled (h : Step.AllSpelled steps ls) :
    ∀ step ∈ steps.dropLast, step.isAppend = false := by
  induction h with
  | final _ => simp
  | @cons step steps _ _ _ hstep _ _ hrest ih =>
    obtain ⟨next, steps, rfl⟩ : ∃ next later, steps = next :: later := by
      cases hrest with
      | final _ => exact ⟨_, [], rfl⟩
      | cons _ _ _ _ => exact ⟨_, _, rfl⟩
    rw [List.dropLast_cons_cons, List.forall_mem_cons]
    exact ⟨hstep, ih⟩

theorem readSteps_final {s : Lexemes} {step : Step} (h : Step.read s = .ok (step, .finish offset)) :
    readSteps s = .ok [step] := by
  rw [readSteps]
  split <;> simp_all

theorem readSteps_cons {s rest : Lexemes} {step : Step} {axis : Axis} {o o' : Nat}
    (h : Step.read s = .ok (step, .next .slash o (.next axis.token o' rest))) :
    readSteps s = (readSteps (.next axis.token o' rest)).map (step :: ·) := by
  have hslash := axis.token_ne_slash
  rw [readSteps]
  split <;> simp_all

theorem readSteps_complete (h : Step.AllSpelled steps ls) (offset : Nat) :
    readSteps (prepend ls (.finish offset)) = .ok steps := by
  induction h with
  | final h => exact readSteps_final (Step.step_complete h (.finish offset))
  | @cons step steps ls rest slash _ h hslash hrest ih =>
    obtain ⟨token, o⟩ := slash
    cases hslash
    obtain ⟨axis, o', ls', rfl⟩ := exists_axis_of_allSpelled hrest
    have hread :=
      Step.step_complete h (.slash o (prepend (⟨axis.token, o'⟩ :: ls') (.finish offset)))
    rw [Lexemes.prepend_append, Lexemes.prepend_cons, Lexemes.prepend_cons]
    rw [Lexemes.prepend_cons] at hread ih
    rw [readSteps_cons hread, ih]
    rfl

theorem read_complete (h : Spelled absolute steps ls) :
    read (prepend ls (.finish offset)) = .ok (absolute, steps) := by
  cases h with
  | @root slash ht =>
    obtain ⟨token, o⟩ := slash
    cases ht
    rfl
  | @absolute _ slash ls ht hall =>
    obtain ⟨token, o⟩ := slash
    cases ht
    have hsteps := readSteps_complete hall offset
    obtain ⟨axis, o', ls', rfl⟩ := exists_axis_of_allSpelled hall
    have hread : read (prepend (⟨.slash, o⟩ :: ⟨axis.token, o'⟩ :: ls') (.finish offset)) =
        (readSteps (prepend (⟨axis.token, o'⟩ :: ls') (.finish offset))).map (true, ·) := by
      cases axis with
      | child matcher => cases matcher <;> rfl
      | self => rfl
      | parent => rfl
    rw [hread, hsteps]
    rfl
  | relative hall =>
    have hsteps := readSteps_complete hall offset
    obtain ⟨axis, o', ls', rfl⟩ := exists_axis_of_allSpelled hall
    have hread : read (prepend (⟨axis.token, o'⟩ :: ls') (.finish offset)) =
        (readSteps (prepend (⟨axis.token, o'⟩ :: ls') (.finish offset))).map (false, ·) := by
      cases axis with
      | child matcher => cases matcher <;> rfl
      | self => rfl
      | parent => rfl
    rw [hread, hsteps]
    rfl

/-- A text whose lexemes spell a path compiles to that path. -/
theorem compile_of_spelled {text : String}
    (hls : Lexemes.ofText text = prepend ls (.finish offset)) (h : Spelled absolute steps ls) :
    compile text = .ok ⟨text, absolute, steps⟩ := by
  have hm : misplacedAppend? steps = none := by
    cases h with
    | root _ => rfl
    | absolute _ hall => exact misplacedAppend?_eq_none_iff.mpr (isAppend_of_allSpelled hall)
    | relative hall => exact misplacedAppend?_eq_none_iff.mpr (isAppend_of_allSpelled hall)
  rw [compile, hls, read_complete h]
  simp only [hm]

end Path

end LabelTree
