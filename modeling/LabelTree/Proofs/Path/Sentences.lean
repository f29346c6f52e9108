import LabelTree.Proofs.Path.Complete
import LabelTree.Proofs.Path.Labels
import LabelTree.Proofs.Path.Offsets

/-!
# Path — the texts that compile

A text compiles exactly when it is read to its end and its lexemes spell a path. Lexemes spell one
path at most, and that is the path the text compiles to; its labels and names are not empty, and
only its final step may append, with the offset at which the marker's bracket stands
(`Path.compile_exactly_spelled`).
-/

namespace LabelTree

open Lexemes (prepend)

namespace Lexemes

/-- That a text is read to its end and its lexemes spell a path. -/
def Spells (s : Lexemes) (absolute : Bool) (steps : List Step) : Prop :=
  ∃ offset, s.ending = .ok offset ∧ Path.Spelled absolute steps s.toList

theorem ending_prepend_finish (ls : List Lexeme) (offset : Nat) :
    (prepend ls (finish offset)).ending = .ok offset := by
  induction ls with
  | nil => rfl
  | cons l ls ih => exact ih

theorem eq_prepend_of_ending {s : Lexemes} {offset : Nat} (h : s.ending = .ok offset) :
    s = prepend s.toList (finish offset) := by
  induction s with
  | finish o =>
    cases h
    rfl
  | fault e => cases h
  | next token o rest ih =>
    rw [toList, prepend_cons, ← ih h]

theorem spells_iff {s : Lexemes} {absolute : Bool} {steps : List Step} :
    s.Spells absolute steps ↔
      ∃ ls offset, s = prepend ls (finish offset) ∧ Path.Spelled absolute steps ls := by
  constructor
  · rintro ⟨offset, hend, hspelled⟩
    exact ⟨s.toList, offset, eq_prepend_of_ending hend, hspelled⟩
  · rintro ⟨ls, offset, rfl, hspelled⟩
    refine ⟨offset, ending_prepend_finish ls offset, ?_⟩
    rwa [toList_prepend, toList, List.append_nil]

end Lexemes

namespace Path

variable {text : String} {path : Path} {absolute absolute' : Bool} {steps steps' : List Step}
  {ls : List Lexeme}

/-- Lexemes spell one path at most: they are read to it. -/
theorem Spelled.unique (h : Spelled absolute steps ls) (h' : Spelled absolute' steps' ls) :
    absolute = absolute' ∧ steps = steps' := by
  have hread : read (prepend ls (.finish 0)) = .ok (absolute, steps) := read_complete h
  rw [read_complete h', Except.ok.injEq, Prod.mk.injEq] at hread
  exact ⟨hread.1.symm, hread.2.symm⟩

theorem compile_eq_ok_iff :
    compile text = .ok path ↔
      path.text = text ∧ (Lexemes.ofText text).Spells path.absolute path.steps := by
  rw [Lexemes.spells_iff]
  constructor
  · exact fun h => ⟨(compile_eq_ok h).1, spelled_of_compile h⟩
  · rintro ⟨rfl, ls, offset, hls, hspelled⟩
    exact compile_of_spelled hls hspelled

/-! ## The append marker -/

/-- The lexemes of an append step end with those of its marker. -/
theorem Spelled.exists_marker (h : Spelled absolute steps ls) {label : String} {offset : Nat}
    (hlast : steps.getLast? = some (.append label offset)) :
    ∃ before opening marker, ls = before ++ opening :: marker ∧ opening.offset = offset ∧
      (opening :: marker).map Lexeme.token = appendTokens := by
  have hsteps : ∀ {steps ls}, Step.AllSpelled steps ls →
      steps.getLast? = some (.append label offset) →
      ∃ before opening marker, ls = before ++ opening :: marker ∧ opening.offset = offset ∧
        (opening :: marker).map Lexeme.token = appendTokens := by
    intro steps ls h hlast
    induction h with
    | final hstep =>
      cases hlast
      cases hstep with
      | @append _ head opening marker _ hmarker =>
        exact ⟨[head], opening, marker, rfl, rfl, hmarker⟩
    | @cons step steps first rest slash _ _ _ hrest ih =>
      have hne : steps ≠ [] := by
        rintro rfl
        cases hrest
      rw [List.getLast?_cons_of_ne_nil hne] at hlast
      obtain ⟨before, opening, marker, rfl, hmarker⟩ := ih hlast
      exact ⟨first ++ slash :: before, opening, marker, by simp, hmarker⟩
  cases h with
  | root _ => cases hlast
  | @absolute _ slash ls _ hall =>
    obtain ⟨before, opening, marker, rfl, hmarker⟩ := hsteps hall hlast
    exact ⟨slash :: before, opening, marker, rfl, hmarker⟩
  | relative hall => exact hsteps hall hlast

/-- That an append marker stands at an offset of a text and ends it: a bracket stands there, and
what is read from it on are the lexemes of the marker. -/
def MarkerAt (text : String) (offset : Nat) : Prop :=
  ∃ before rest, text.toList = before ++ '[' :: rest ∧ Text.byteLength before = offset ∧
    ∃ depth, (Lexemes.ofCursor ⟨'[' :: rest, offset, depth⟩).toList.map Lexeme.token = appendTokens

theorem markerAt_of_compile (h : compile text = .ok path) {offset : Nat}
    (hoffset : path.appendOffset? = some offset) : MarkerAt text offset := by
  obtain ⟨label, hlast⟩ := getLast?_of_appendOffset? hoffset
  obtain ⟨ls, last, hls, hspelled⟩ := spelled_of_compile h
  obtain ⟨before, opening, marker, rfl, rfl, hmarker⟩ := hspelled.exists_marker hlast
  have hopening : opening.token = .openBracket := (List.cons.inj hmarker).1
  rw [Lexemes.prepend_append, Lexemes.prepend_cons] at hls
  obtain ⟨c, ⟨taken, hrest, hbytes⟩, hc, hread, hsign⟩ := Lexemes.exists_cursor hls
  obtain ⟨cs, hcs⟩ := hsign '[' (by rw [hopening]; rfl)
  refine ⟨taken, cs, by rw [← hcs, ← hrest]; rfl, ?_, c.depth, ?_⟩
  · rw [← hc, hbytes]
    exact (Nat.zero_add _).symm
  · rw [← hcs, ← hc, hread, Lexemes.toList, Lexemes.toList_prepend, Lexemes.toList,
      List.append_nil]
    exact hmarker

/-! ## The texts that compile -/

/-- A text compiles exactly when it is read to its end and its lexemes spell a path. The lexemes
spell the compiled path alone, no label or name in it is empty, and it appends with its final step
only, at the offset of the marker's bracket. -/
theorem compile_exactly_spelled (text : String) :
    ((∃ path, compile text = .ok path) ↔
        ∃ absolute steps, (Lexemes.ofText text).Spells absolute steps) ∧
      ∀ path, compile text = .ok path →
        path.text = text ∧
        (∀ absolute steps, (Lexemes.ofText text).Spells absolute steps ↔
          absolute = path.absolute ∧ steps = path.steps) ∧
        (∀ step ∈ path.steps, ∀ name ∈ step.names, name ≠ "") ∧
        (∀ step ∈ path.steps.dropLast, step.isAppend = false) ∧
        ∀ offset, path.appendOffset? = some offset → MarkerAt text offset := by
  refine ⟨⟨?_, ?_⟩, fun path h => ?_⟩
  · rintro ⟨path, h⟩
    exact ⟨path.absolute, path.steps, (compile_eq_ok_iff.mp h).2⟩
  · rintro ⟨absolute, steps, h⟩
    exact ⟨⟨text, absolute, steps⟩, compile_eq_ok_iff.mpr ⟨rfl, h⟩⟩
  · obtain ⟨htext, hspells⟩ := compile_eq_ok_iff.mp h
    refine ⟨htext, fun absolute steps => ⟨?_, ?_⟩, ne_empty_of_compile h,
      isAppend_of_compile h,
      fun offset => markerAt_of_compile h⟩
    · rintro ⟨_, _, hspelled⟩
      obtain ⟨_, _, hspelled'⟩ := hspells
      exact hspelled.unique hspelled'
    · rintro ⟨rfl, rfl⟩
      exact hspells

/-- The offset counts bytes: the label before the marker takes two. -/
theorem compile_exactly_spelled_marker :
    let path : Path := ⟨"é[ last() + 1 ]", false, [.append "é" 2]⟩
    compile "é[ last() + 1 ]" = .ok path ∧
      (Lexemes.ofText "é[ last() + 1 ]").Spells false [.append "é" 2] ∧
      MarkerAt "é[ last() + 1 ]" 2 := by
  intro path
  have h : compile "é[ last() + 1 ]" = .ok path := by with_unfolding_all rfl
  obtain ⟨-, hpath⟩ := compile_exactly_spelled "é[ last() + 1 ]"
  obtain ⟨-, hspells, -, -, hmarker⟩ := hpath path h
  exact ⟨h, (hspells _ _).mpr ⟨rfl, rfl⟩, hmarker 2 rfl⟩

end Path

end LabelTree
