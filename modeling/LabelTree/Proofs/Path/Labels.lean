import LabelTree.Locate
import LabelTree.Proofs.Path.Sound
import LabelTree.Proofs.Path.Takes

/-!
# Path — labels are not empty

Blanks before a lexeme are passed over and only plain blanks at the end of a label are dropped, so a
label keeps the glyph it begins with. Hence no lexeme of a text is an empty label, no label or name
in a compiled path is empty (`ne_empty_of_compile`), and its steps make nodes with labels that are
not empty (`names_of_compile`).
-/

namespace LabelTree

/-! ## Glyphs -/

namespace Glyph

theorem trim_ne_nil {g : Glyph} (gs : List Glyph) (hg : g.isPlainBlank = false) :
    trim (g :: gs) ≠ [] := by
  intro h
  rw [trim, List.reverse_eq_nil_iff, List.reverse_cons, List.dropWhile_append] at h
  split at h
  · simp [hg] at h
  · simp at h

theorem label_ne_empty {glyphs : List Glyph} (h : glyphs ≠ []) : label glyphs ≠ "" := by
  intro he
  have hl : (label glyphs).toList = [] := by rw [he]; rfl
  rw [label, String.toList_ofList, List.map_eq_nil_iff] at hl
  exact h hl

/-- The glyph that comes first stands for itself or is escaped. -/
theorem read_cons {c : Char} {cs rest : List Char} {glyphs : List Glyph}
    (hc : isStepDelimiter c = false) (h : read (c :: cs) = some (glyphs, rest)) :
    ∃ g gs, glyphs = g :: gs ∧ (g = plain c ∨ ∃ d, g = escaped d) := by
  generalize hcs : c :: cs = all at h
  unfold read at h
  split at h
  · cases hcs
  · cases h
  · rename_i d ds
    obtain ⟨⟨gs, r⟩, -, heq⟩ := Option.map_eq_some_iff.mp h
    cases heq
    exact ⟨escaped d, gs, rfl, .inr ⟨d, rfl⟩⟩
  · cases hcs
    rw [hc] at h
    obtain ⟨⟨gs, r⟩, -, heq⟩ := Option.map_eq_some_iff.mp h
    cases heq
    exact ⟨plain c, gs, rfl, .inl rfl⟩

end Glyph

/-! ## Tokens -/

/-- That a token is no empty label. -/
def Token.Named (t : Token) : Prop :=
  t ≠ .label ""

namespace Cursor

theorem named_stepWord {g : Glyph} (gs : List Glyph) (hg : g.isPlainBlank = false) :
    (stepWord (g :: gs)).Named := by
  have hkept := Glyph.trim_ne_nil gs hg
  unfold stepWord
  split
  · simp [Token.Named]
  · simp [Token.Named]
  · intro h
    exact Glyph.label_ne_empty hkept (Token.label.inj h)

/-- Before a token the blanks are passed over, so that the word of a step begins with no blank. -/
theorem Takes.named {inside : Bool} {cs rest : List Char} {t : Token} (h : Takes inside cs t rest)
    (hblank : Text.Stops Text.isBlank cs) : t.Named := by
  cases h with
  | sign hsign _ =>
    rintro rfl
    cases hsign
  | @word cs _ _ hne hstops hread =>
    cases cs with
    | nil => exact absurd rfl hne
    | cons a as =>
      obtain ⟨g, gs, rfl, hg⟩ := Glyph.read_cons (hstops a rfl) hread
      refine named_stepWord gs ?_
      rcases hg with rfl | ⟨d, rfl⟩
      · exact hblank a rfl
      · rfl
  | name =>
    intro he
    have hl := congrArg String.toList (Token.label.inj he)
    simp at hl
  | _ => simp [Token.Named]

theorem named_next {c c' : Cursor} {l : Lexeme} (h : c.next = .ok (l, c')) : l.token.Named := by
  obtain ⟨rest, htakes, -, -⟩ := next_eq_ok_iff.mp h
  exact htakes.named (Text.stops_trimLeft c.rest)

end Cursor

namespace Lexemes

theorem named_ofCursor (c : Cursor) : ∀ l ∈ (ofCursor c).toList, l.token.Named := by
  fun_induction ofCursor c with
  | case1 => simp [toList]
  | case2 => simp [toList]
  | case3 c l c' h hl hlt ih =>
    intro x hx
    rw [toList, List.mem_cons] at hx
    rcases hx with rfl | hx
    · exact Cursor.named_next h
    · exact ih x hx

end Lexemes

/-! ## Steps -/

/-- The label that an axis names, if it names one. -/
def Axis.names : Axis → List String
  | child (.exact label) => [label]
  | _ => []

def Operand.names : Operand → List String
  | child name => [name]
  | self => []

/-- The name in a predicate, if there is one. -/
def Predicate.names : Predicate → List String
  | compare operand _ _ => operand.names
  | hasChild name => [name]
  | _ => []

namespace Step

/-- The label of a step and the names in its predicates. -/
def names : Step → List String
  | select axis ps => axis.names ++ ps.flatMap Predicate.names
  | append label _ => [label]

theorem newLabel?_mem_names {step : Step} {l : String} (h : step.newLabel? = some l) :
    l ∈ step.names := by
  unfold newLabel? at h
  split at h <;> cases h <;> simp [names, Axis.names]

end Step

theorem Axis.token_of_mem_names {axis : Axis} {name : String} (h : name ∈ axis.names) :
    axis.token = .label name := by
  unfold names at h
  split at h
  · rw [List.mem_singleton.mp h]
    rfl
  · cases h

theorem Predicate.Spelled.mem_of_mem_names {p : Predicate} {tokens : List Token} {name : String}
    (h : p.Spelled tokens) (hname : name ∈ p.names) : .label name ∈ tokens := by
  cases h with
  | hasChild =>
    cases List.mem_singleton.mp hname
    exact List.mem_cons_self
  | compare operand =>
    cases operand with
    | self => cases hname
    | child =>
      cases List.mem_singleton.mp hname
      exact List.mem_cons_self
  | _ => cases hname

theorem Predicate.AllSpelled.mem_of_mem_names {ps : List Predicate} {tokens : List Token}
    {name : String} (h : AllSpelled ps tokens) (hname : name ∈ ps.flatMap names) :
    .label name ∈ tokens := by
  induction h with
  | nil => cases hname
  | cons hp _ ih =>
    rw [List.flatMap_cons, List.mem_append] at hname
    rcases hname with hname | hname
    · simp [hp.mem_of_mem_names hname]
    · simp [ih hname]

/-- What a step names is spelled by one of its lexemes. -/
theorem Step.Spelled.mem_of_mem_names {step : Step} {ls : List Lexeme} {name : String}
    (h : step.Spelled ls) (hname : name ∈ step.names) : .label name ∈ ls.map Lexeme.token := by
  cases h with
  | @select axis ps head brackets hhead hps =>
    rw [List.map_cons, List.mem_cons]
    rcases List.mem_append.mp hname with hname | hname
    · exact .inl (hhead.trans (Axis.token_of_mem_names hname)).symm
    · exact .inr (hps.mem_of_mem_names hname)
  | append hhead _ =>
    rw [List.mem_singleton.mp hname]
    exact List.mem_cons.mpr (.inl hhead.symm)

theorem Step.AllSpelled.mem_of_mem_names {steps : List Step} {ls : List Lexeme} {step : Step}
    {name : String} (h : AllSpelled steps ls) (hstep : step ∈ steps) (hname : name ∈ step.names) :
    .label name ∈ ls.map Lexeme.token := by
  induction h with
  | final hs =>
    rw [List.mem_singleton.mp hstep] at hname
    exact hs.mem_of_mem_names hname
  | cons _ hs _ _ ih =>
    rw [List.map_append, List.mem_append, List.map_cons, List.mem_cons]
    rcases List.mem_cons.mp hstep with rfl | hstep
    · exact .inl (hs.mem_of_mem_names hname)
    · exact .inr (.inr (ih hstep))

theorem Path.Spelled.mem_of_mem_names {absolute : Bool} {steps : List Step} {ls : List Lexeme}
    {step : Step} {name : String} (h : Path.Spelled absolute steps ls) (hstep : step ∈ steps)
    (hname : name ∈ step.names) : .label name ∈ ls.map Lexeme.token := by
  cases h with
  | root _ => cases hstep
  | absolute _ hall => exact List.mem_cons_of_mem _ (hall.mem_of_mem_names hstep hname)
  | relative hall => exact hall.mem_of_mem_names hstep hname

namespace Path

/-- No label and no name in a compiled path is empty. -/
theorem ne_empty_of_compile {text : String} {path : Path} (h : compile text = .ok path) :
    ∀ step ∈ path.steps, ∀ name ∈ step.names, name ≠ "" := by
  obtain ⟨ls, offset, hls, hspelled⟩ := spelled_of_compile h
  intro step hstep name hname
  obtain ⟨x, hx, htoken⟩ := List.mem_map.mp (hspelled.mem_of_mem_names hstep hname)
  have hnamed : x.token.Named := by
    refine Lexemes.named_ofCursor (.ofText text) x ?_
    rw [← Lexemes.ofText, hls, Lexemes.toList_prepend]
    exact List.mem_append_left _ hx
  rintro rfl
  exact hnamed htoken

/-- That the steps of a path make nodes with good labels only. -/
def Names (good : String → Prop) (path : Path) : Prop :=
  ∀ step ∈ path.steps, ∀ l, step.newLabel? = some l → good l

variable {good : String → Prop} {path base : Path}

theorem Names.rebase (hp : path.Names good) (hb : base.Names good) :
    (path.rebase base).Names good := by
  rw [Path.rebase]
  split
  · exact hp
  · intro step hstep
    rcases List.mem_append.mp hstep with hstep | hstep
    · exact hb step hstep
    · exact hp step hstep

/-- A compiled path makes no node with an empty label. -/
theorem names_of_compile {text : String} (hgood : ∀ l, l ≠ "" → good l)
    (h : compile text = .ok path) : path.Names good :=
  fun step hstep l hl => hgood l (ne_empty_of_compile h step hstep l (Step.newLabel?_mem_names hl))

/-- The paths there are: compiled from a text, or put below another one. -/
inductive Compiled : Path → Prop
  | compile {text : String} {path : Path} : Path.compile text = .ok path → Compiled path
  | rebase {path base : Path} : Compiled path → Compiled base → Compiled (path.rebase base)

theorem Compiled.names (hgood : ∀ l, l ≠ "" → good l) (h : path.Compiled) : path.Names good := by
  induction h with
  | compile hc => exact names_of_compile hgood hc
  | rebase _ _ hp hb => exact hp.rebase hb

end Path

end LabelTree
