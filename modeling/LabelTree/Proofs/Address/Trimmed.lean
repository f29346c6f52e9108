import LabelTree.Proofs.Address.Ending
import LabelTree.Text.Class

/-!
# Address — addresses that are trimmed

An address begins with a slash, so trimming it can only take blanks from its end. Such a blank is
the last character of the label and stands escaped, so that one blank goes and leaves its backslash
behind. What is left does not compile: its last escape dangles (`compile_trim_address`).
-/

namespace LabelTree

open Lexemes (prepend)

/-- Whether a text ends in a blank. -/
def Text.endsInBlank (text : String) : Bool :=
  text.toList.getLast?.any isBlank

/-! ## Faults after steps -/

namespace Path

variable {steps : List Step} {ls : List Lexeme} {offset : Nat} {e : PathError}

theorem readSteps_of_error {s : Lexemes} (h : Step.read s = .error e) : readSteps s = .error e := by
  have hok : ∀ r, Step.read s ≠ .ok r := by
    intro r hr
    rw [h] at hr
    cases hr
  rw [readSteps]
  split
  case h_1 e' he =>
    rw [h] at he
    cases he
    rfl
  all_goals exact absurd ‹_› (hok _)

/-- A fault after steps and a slash is what is reported. -/
theorem readSteps_allSpelled_fault (h : Step.AllSpelled steps ls) (offset : Nat) (e : PathError) :
    readSteps (prepend ls (.next .slash offset (.fault e))) = .error e := by
  induction h with
  | final hstep =>
    have hread := Step.step_complete hstep (.slash offset (.fault e))
    have hfault : readSteps (.fault e) = .error e := readSteps_of_error rfl
    rw [readSteps]
    split <;> simp_all
    rfl
  | @cons step steps ls rest slash _ hstep hslash hrest ih =>
    obtain ⟨token, o⟩ := slash
    cases hslash
    obtain ⟨axis, o', ls', rfl⟩ := exists_axis_of_allSpelled hrest
    have hread := Step.step_complete hstep
      (.slash o (prepend (⟨axis.token, o'⟩ :: ls') (.next .slash offset (.fault e))))
    rw [Lexemes.prepend_append, Lexemes.prepend_cons, Lexemes.prepend_cons]
    rw [Lexemes.prepend_cons] at hread ih
    rw [readSteps_cons hread, ih]
    rfl

theorem read_slash_fault {o : Nat} : read (.next .slash o (.fault e)) = .error e := by
  have hfault : readSteps (.fault e) = .error e := readSteps_of_error rfl
  simp only [read, hfault]
  rfl

theorem read_allSpelled_fault {o : Nat} (h : Step.AllSpelled steps ls) :
    read (.next .slash o (prepend ls (.next .slash offset (.fault e)))) = .error e := by
  have hfault := readSteps_allSpelled_fault h offset e
  obtain ⟨axis, o', ls', rfl⟩ := exists_axis_of_allSpelled h
  rw [Lexemes.prepend_cons] at hfault ⊢
  have hread : read (.next .slash o (.next axis.token o'
      (prepend ls' (.next .slash offset (.fault e))))) = (readSteps (.next axis.token o'
        (prepend ls' (.next .slash offset (.fault e))))).map (true, ·) := by
    cases axis with
    | child matcher => cases matcher <;> rfl
    | self => rfl
    | parent => rfl
  rw [hread, hfault]
  rfl

theorem compile_of_read_error {text : String} {cs : List Char} (hcs : text.toList = cs)
    (h : read (.ofCursor ⟨cs, 0, 0⟩) = .error e) : compile text = .error e := by
  subst hcs
  rw [compile, Lexemes.ofText, Cursor.ofText, h]

end Path

/-! ## Labels that end in a blank -/

namespace Glyph

/-- A blank that ends a label is escaped. -/
theorem spellTail_append_blank {c : Char} (hc : Text.isBlank c = true) (cs : List Char) :
    ∃ gs, spellTail (cs ++ [c]) = gs ++ [escaped c] := by
  induction cs with
  | nil => exact ⟨[], by simp [spellTail, hc]⟩
  | cons d ds ih =>
    obtain ⟨gs, hgs⟩ := ih
    rw [List.cons_append, spellTail, hgs]
    exact ⟨_ :: gs, rfl⟩

theorem spell_append_blank {c : Char} (hc : Text.isBlank c = true) (cs : List Char) :
    ∃ gs, spell (cs ++ [c]) = gs ++ [escaped c] := by
  cases cs with
  | nil => exact ⟨[], by simp [spell, spellTail, hc]⟩
  | cons d ds =>
    obtain ⟨gs, hgs⟩ := spellTail_append_blank hc ds
    rw [List.cons_append, spell, hgs]
    exact ⟨_ :: gs, rfl⟩

theorem read_written_backslash {gs : List Glyph} (h : gs.all isSafe = true) :
    read (gs.flatMap written ++ ['\\']) = none := by
  rw [read_written h]
  rfl

end Glyph

namespace Cursor

/-- A word that ends in a backslash is refused. -/
theorem next_dangling {c : Cursor} {gs : List Glyph} (hdepth : c.depth = 0)
    (hsafe : gs.all Glyph.isSafe = true)
    (hblank : Text.Stops Text.isBlank (gs.flatMap Glyph.written ++ ['\\']))
    (hc : c.rest = gs.flatMap Glyph.written ++ ['\\']) :
    ∃ offset, c.next = .error ⟨.danglingEscape, offset⟩ := by
  have hstops : Text.Stops isStepDelimiter (gs.flatMap Glyph.written ++ ['\\']) := by
    cases gs with
    | nil => exact .cons (by decide)
    | cons g gs => exact (stops_written (by simp) hsafe _).2
  have hstart : c.skipBlanks.rest = gs.flatMap Glyph.written ++ ['\\'] := by
    rw [skipBlanks, moveTo, hc]
    exact hblank.dropWhile
  have hread := Glyph.read_written_backslash hsafe
  rw [← hstart] at hstops hread
  have htoken : ∃ offset, c.skipBlanks.token = .error ⟨.danglingEscape, offset⟩ := by
    rw [token, if_pos (show c.skipBlanks.depth = 0 from hdepth), stepToken]
    split
    case h_6 => exact ⟨_, by rw [hread]⟩
    case h_1 h =>
      rw [h] at hstart
      simp at hstart
    all_goals
      rename_i h
      rw [h] at hstops
      exact absurd (hstops _ rfl) (by decide)
  obtain ⟨offset, htoken⟩ := htoken
  exact ⟨offset, by rw [next, htoken]⟩

end Cursor

/-! ## Reading addresses step by step -/

namespace Cursor

/-- The word of a token at the cursor, outside or inside brackets as `depth` says. -/
theorem reads_word {c : Cursor} {t : Token} {depth : Nat} {rest : List Char}
    (hdepth : c.depth = depth) (hc : c.rest = t.word (depth != 0) '"' ++ rest)
    (ht : t.isLegible (depth != 0) = true) (hend : t.EndsBefore (depth != 0) rest) :
    ∃ d, c.Reads [t] d ∧ d.rest = rest ∧ d.depth = t.depthAfter depth := by
  subst hdepth
  have hblanks : ([] : List Char).all Text.isBlank = true := rfl
  exact Reads.word hblanks (by decide) hc ht hend

theorem reads_addressStep {c : Cursor} {label : String} {position : Option Nat} {rest : List Char}
    (hlabel : label ≠ "") (hposition : ∀ n ∈ position, n ≤ largestNumber) (hdepth : c.depth = 0)
    (hc : c.rest = (addressStep label position).toList ++ '/' :: rest) :
    ∃ d, c.Reads (.slash :: .label label :: positionTokens position) d ∧
      d.rest = '/' :: rest ∧ d.depth = 0 := by
  have hlegible : Token.isLegible false (.label label) = true := by
    simpa [Token.isLegible] using hlabel
  have hdelimited : ∀ {ch : Char} {cs : List Char}, isStepDelimiter ch = true →
      Text.isBlank ch = false → Glyph.Delimited (ch :: cs) := by
    intro ch cs hch hblank d hd
    rw [Text.trimLeft_eq_self_of_head hblank] at hd
    cases hd
    exact hch
  cases position with
  | none =>
    have hchars : c.rest = '/' :: ((escapeLabel label).toList ++ '/' :: rest) := by
      simpa [addressStep] using hc
    obtain ⟨d₁, h₁, hr₁, hd₁⟩ := reads_word (t := .slash) hdepth hchars rfl trivial
    obtain ⟨d₂, h₂, hr₂, hd₂⟩ := reads_word (t := .label label) hd₁ hr₁ hlegible
      (hdelimited (by decide) (by decide))
    exact ⟨d₂, h₁.trans h₂, hr₂, hd₂⟩
  | some n =>
    have hchars : c.rest =
        '/' :: ((escapeLabel label).toList ++
          '[' :: (Nat.toDigits 10 n ++ ']' :: '/' :: rest)) := by
      simpa [addressStep, Nat.repr_eq_ofList_toDigits] using hc
    have hn : Token.isLegible true (.number n) = true := by
      simpa [Token.isLegible] using hposition n rfl
    obtain ⟨d₁, h₁, hr₁, hd₁⟩ := reads_word (t := .slash) hdepth hchars rfl trivial
    obtain ⟨d₂, h₂, hr₂, hd₂⟩ := reads_word (t := .label label) hd₁ hr₁ hlegible
      (hdelimited (by decide) (by decide))
    obtain ⟨d₃, h₃, hr₃, hd₃⟩ := reads_word (t := .openBracket) hd₂ hr₂ rfl trivial
    obtain ⟨d₄, h₄, hr₄, hd₄⟩ := reads_word (t := .number n) hd₃ hr₃ hn (.cons (by decide))
    obtain ⟨d₅, h₅, hr₅, hd₅⟩ := reads_word (t := .closeBracket) hd₄ hr₄ rfl trivial
    exact ⟨d₅, h₁.trans (h₂.trans (h₃.trans (h₄.trans h₅))), hr₅, hd₅⟩

/-- The lexemes of a last step whose label ends in a backslash. -/
theorem ofCursor_dangling {c : Cursor} {gs : List Glyph} (hdepth : c.depth = 0)
    (hsafe : gs.all Glyph.isSafe = true)
    (hblank : Text.Stops Text.isBlank (gs.flatMap Glyph.written ++ ['\\']))
    (hc : c.rest = '/' :: (gs.flatMap Glyph.written ++ ['\\'])) :
    ∃ o offset, Lexemes.ofCursor c = .next .slash o (.fault ⟨.danglingEscape, offset⟩) := by
  obtain ⟨d, ⟨ls, hls, htokens⟩, hd, hdepth'⟩ := reads_word (t := .slash) hdepth hc rfl trivial
  obtain ⟨offset, hfault⟩ := next_dangling hdepth' hsafe hblank hd
  obtain ⟨slash, rest, rfl, hslash, hnil⟩ := List.map_eq_cons_iff.mp htokens
  cases List.map_eq_nil_iff.mp hnil
  refine ⟨slash.offset, offset, ?_⟩
  rw [hls, Lexemes.ofCursor_of_error hfault, Lexemes.prepend_cons, hslash]
  rfl

end Cursor

namespace Store

variable {s : Store} {id : NodeId}

theorem position?_le_largestNumber (hfit : s.PositionsFit) :
    ∀ n ∈ s.position? id, n ≤ largestNumber := by
  intro n hn
  rw [position?] at hn
  split at hn
  · cases hn
    exact position_le_largestNumber hfit id
  · cases hn

/-- Steps down from the root that a slash follows, the topmost node first. -/
theorem reads_steps (hfit : s.PositionsFit) {ids : List NodeId} (hne : ids ≠ [])
    (hlabels : ∀ id ∈ ids, s.shownLabel id ≠ "") {c : Cursor} {rest : List Char}
    (hdepth : c.depth = 0)
    (hc : c.rest = (ids.flatMap fun id => (s.lastStep id).toList) ++ '/' :: rest) :
    ∃ slash ls d, Lexemes.ofCursor c = prepend (slash :: ls) (Lexemes.ofCursor d) ∧
      slash.token = .slash ∧ Step.AllSpelled (ids.map s.leadingStep) ls ∧
      d.rest = '/' :: rest ∧ d.depth = 0 := by
  induction ids generalizing c with
  | nil => exact absurd rfl hne
  | cons id below ih =>
    have hread : ∀ after, c.rest = (s.lastStep id).toList ++ '/' :: after →
        ∃ slash ls d, Lexemes.ofCursor c = prepend (slash :: ls) (Lexemes.ofCursor d) ∧
          slash.token = .slash ∧ (s.leadingStep id).Spelled ls ∧ d.rest = '/' :: after ∧
          d.depth = 0 := by
      intro after hafter
      rw [lastStep_eq] at hafter
      obtain ⟨d, ⟨all, hall, htokens⟩, hd⟩ := Cursor.reads_addressStep
        (hlabels id List.mem_cons_self) (position?_le_largestNumber hfit) hdepth hafter
      obtain ⟨slash, ls, rfl, hslash, hls⟩ := List.map_eq_cons_iff.mp htokens
      exact ⟨slash, ls, d, hall, hslash, spelled_leadingStep hls, hd⟩
    cases below with
    | nil =>
      obtain ⟨slash, ls, d, hall, hslash, hls, hd⟩ := hread rest (by simpa using hc)
      exact ⟨slash, ls, d, hall, hslash, .final hls, hd⟩
    | cons next below =>
      obtain ⟨cs, hcs⟩ := s.exists_toList_lastStep next
      have hnext : c.rest = (s.lastStep id).toList ++
          '/' :: (cs ++ (below.flatMap fun id => (s.lastStep id).toList) ++ '/' :: rest) := by
        simpa [hcs] using hc
      obtain ⟨slash, ls, d, hall, hslash, hls, hd, hdepth'⟩ := hread _ hnext
      obtain ⟨slash', ls', d', hall', hslash', hls', hd'⟩ := ih (by simp)
        (fun x hx => hlabels x (List.mem_cons_of_mem id hx)) hdepth' (by simpa [hcs] using hd)
      refine ⟨slash, ls ++ slash' :: ls', d', ?_, hslash, .cons rfl hls hslash' hls', hd'⟩
      rw [hall, hall', ← Lexemes.prepend_append, List.cons_append]

/-! ## Trimming an address -/

theorem exists_toList_address (s : Store) (id : NodeId) :
    ∃ cs, (s.address id).toList = '/' :: cs := by
  by_cases hid : id = root
  · exact ⟨[], by rw [address, if_pos hid]; rfl⟩
  · rw [address, if_neg hid, toList_stepsDown]
    cases hids : ((s.lineage id).takeWhile (· ≠ root)).reverse with
    | nil =>
      have hne := s.belowRoot_ne_nil hid
      exact absurd (List.reverse_eq_nil_iff.mp hids) hne
    | cons top ids =>
      obtain ⟨cs, hcs⟩ := s.exists_toList_lastStep top
      exact ⟨_, by rw [List.flatMap_cons, hcs]; rfl⟩

theorem trimLeft_address (s : Store) (id : NodeId) :
    Text.trimLeft (s.address id).toList = (s.address id).toList := by
  obtain ⟨cs, hcs⟩ := s.exists_toList_address id
  rw [hcs]
  exact Text.trimLeft_eq_self_of_head (by decide)

/-- An address that does not end in a blank is left as it is. -/
theorem trim_address (h : Text.endsInBlank (s.address id) = false) :
    Text.trim (s.address id) = s.address id := by
  have hstops : Text.Stops Text.isBlank (s.address id).toList.reverse := by
    intro c hc
    rw [List.head?_reverse] at hc
    rw [Text.endsInBlank, Option.mem_def.mp hc] at h
    exact h
  rw [Text.trim, trimLeft_address, Text.trimRight, hstops.dropWhile, List.reverse_reverse,
    String.ofList_toList]

/-- A label that ends in a blank is written as glyphs, a backslash and that blank. -/
theorem exists_glyphs_of_blank {label : String} (hlabel : label ≠ "")
    (h : label.toList.getLast?.any Text.isBlank = true) :
    ∃ (gs : List Glyph) (c : Char), Text.isBlank c = true ∧ gs.all Glyph.isSafe = true ∧
      (escapeLabel label).toList = gs.flatMap Glyph.written ++ ['\\', c] ∧
      Text.Stops Text.isBlank (gs.flatMap Glyph.written ++ ['\\']) := by
  obtain ⟨c, hlast, hc⟩ := Option.any_eq_true _ _ |>.mp h
  obtain ⟨cs, hcs⟩ := List.getLast?_eq_some_iff.mp hlast
  obtain ⟨gs, hgs⟩ := Glyph.spell_append_blank hc cs
  have hsafe := Glyph.isSafe_spell (cs ++ [c])
  rw [hgs, List.all_append, Bool.and_eq_true] at hsafe
  have hwritten : (escapeLabel label).toList = gs.flatMap Glyph.written ++ ['\\', c] := by
    simp [escapeLabel, hcs, hgs, Glyph.written]
  refine ⟨gs, c, hc, hsafe.1, hwritten, ?_⟩
  -- the label does not begin with a blank, and neither does a backslash
  have hlegible : Token.isLegible false (.label label) = true := by
    simpa [Token.isLegible] using hlabel
  have hquote : Text.isQuote '"' = true := by decide
  obtain ⟨ch, rest, hword, hch⟩ := Cursor.exists_head_word hquote hlegible
  have hchars : gs.flatMap Glyph.written ++ ['\\', c] = ch :: rest := hwritten.symm.trans hword
  intro d hd
  cases hgs : gs.flatMap Glyph.written with
  | nil =>
    rw [hgs] at hd
    cases hd
    decide
  | cons e es =>
    rw [hgs] at hchars hd
    cases hchars
    cases hd
    exact hch

/-- What is left of an address that ends in a blank: the steps before, and a label that ends in a
backslash. -/
theorem exists_trim_address (hid : id ≠ root) (hlabel : s.shownLabel id ≠ "")
    (h : Text.endsInBlank (s.address id) = true) :
    ∃ (above : List NodeId) (gs : List Glyph), s.belowRoot id = id :: above ∧
      gs.all Glyph.isSafe = true ∧
      Text.Stops Text.isBlank (gs.flatMap Glyph.written ++ ['\\']) ∧
      (Text.trim (s.address id)).toList =
        (above.reverse.flatMap fun id => (s.lastStep id).toList) ++
          '/' :: (gs.flatMap Glyph.written ++ ['\\']) := by
  obtain ⟨above, habove, haddress⟩ := s.exists_address_eq hid
  rw [Text.endsInBlank, getLast?_address hid, lastStep_eq, getLast?_addressStep hlabel] at h
  -- a bracket does not end in a blank, so the label comes last
  cases hposition : s.position? id with
  | some n =>
    rw [hposition] at h
    cases h
  | none =>
    rw [hposition] at h
    obtain ⟨gs, c, hc, hsafe, hwritten, hstops⟩ := exists_glyphs_of_blank hlabel h
    have hstep : (s.lastStep id).toList = '/' :: (gs.flatMap Glyph.written ++ ['\\', c]) := by
      rw [lastStep_eq, hposition, addressStep, String.toList_append, hwritten]
      rfl
    have hbackslash : Text.isBlank '\\' = false := by decide
    refine ⟨above, gs, habove, hsafe, hstops, ?_⟩
    rw [Text.trim, trimLeft_address, haddress, String.toList_append, toList_stepsDown, hstep,
      String.toList_ofList, Text.trimRight]
    simp [hc, hbackslash]

/-- An address that ends in a blank loses it, and what is left does not compile. -/
theorem WellFormed.compile_trim_address (hs : s.WellFormed)
    (hlabels : ∀ id l, s.label id = some l → l ≠ "") (hfit : s.PositionsFit)
    (hid : s.contains id = true) (h : Text.endsInBlank (s.address id) = true) :
    ∃ offset, Path.compile (Text.trim (s.address id)) = .error ⟨.danglingEscape, offset⟩ := by
  have hroot : id ≠ root := by
    rintro rfl
    rw [address, if_pos rfl] at h
    exact absurd h (by decide)
  have hshown : ∀ x ∈ s.belowRoot id, s.shownLabel x ≠ "" := by
    intro x hx
    obtain ⟨hxroot, hxc⟩ := hs.mem_belowRoot hid hx
    exact shownLabel_ne_empty hs hlabels hxroot hxc
  obtain ⟨above, gs, habove, hsafe, hblank, htrim⟩ :=
    exists_trim_address hroot (shownLabel_ne_empty hs hlabels hroot hid) h
  cases hids : above.reverse with
  | nil =>
    rw [hids, List.flatMap_nil, List.nil_append] at htrim
    obtain ⟨o, offset, hread⟩ := Cursor.ofCursor_dangling (c := ⟨_, 0, 0⟩) rfl hsafe hblank rfl
    refine ⟨offset, Path.compile_of_read_error htrim ?_⟩
    rw [hread]
    exact Path.read_slash_fault
  | cons top ids =>
    have hmem : ∀ x ∈ above.reverse, s.shownLabel x ≠ "" := by
      intro x hx
      exact hshown x (habove ▸ List.mem_cons_of_mem id (List.mem_reverse.mp hx))
    obtain ⟨slash, ls, d, hall, hslash, hls, hd, hdepth⟩ :=
      reads_steps hfit (List.ne_nil_of_length_pos (by simp [hids])) hmem (c := ⟨_, 0, 0⟩) rfl rfl
    -- whatever comes before, the last word is refused
    obtain ⟨o, offset, hread⟩ := Cursor.ofCursor_dangling hdepth hsafe hblank hd
    refine ⟨offset, Path.compile_of_read_error htrim ?_⟩
    rw [hall, hread, Lexemes.prepend_cons, hslash]
    exact Path.read_allSpelled_fault hls

end Store

end LabelTree
