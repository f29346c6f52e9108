import LabelTree.Checked.Path
import LabelTree.Proofs.Path.Words

/-!
# Partial steps — reading paths

The steps of the reader stay in their domains for every text. A label is shortened to the bytes of
its glyphs without the plain blanks at its end, which is a beginning of what was collected
(`truncate_byteLength`); a bracket is closed inside brackets only; and the offset of a fault,
whatever it is, goes back to the start of a character before the path is cut there
(`cutAt_floorBoundary`).
-/

namespace LabelTree

/-! ## Cutting texts -/

namespace Checked

/-- A text can be cut after any of its beginnings. -/
theorem cutAt_byteLength (left right : List Char) :
    cutAt (Text.byteLength left) (left ++ right) = some (left, right) := by
  induction left with
  | nil => exact cutAt_zero right
  | cons c left ih =>
    rw [List.cons_append, Text.byteLength, cutAt_of_le (Nat.le_add_right _ _),
      Nat.add_sub_cancel_left, ih]
    rfl

theorem truncate_byteLength (left right : List Char) :
    truncate (Text.byteLength left) (left ++ right) = some left := by
  rw [truncate, cutAt_byteLength, Text.byteLength_append]
  split
  · rename_i h
    cases right with
    | nil => rw [List.append_nil]
    | cons c right =>
      have hpos : 0 < c.utf8Size := c.utf8Size_pos
      simp only [Text.byteLength] at h
      omega
  · rfl

theorem splitAtByte_of_cutAt {n : Nat} {cs : List Char} {parts : List Char × List Char}
    (h : cutAt n cs = some parts) : Text.splitAtByte n cs = parts := by
  induction cs generalizing n parts with
  | nil =>
    rw [cutAt, Option.ite_none_right_eq_some] at h
    exact Option.some.inj h.2
  | cons c cs ih =>
    by_cases hle : c.utf8Size ≤ n
    · rw [cutAt_of_le hle] at h
      obtain ⟨⟨left, right⟩, hcut, rfl⟩ := Option.map_eq_some_iff.mp h
      rw [Text.splitAtByte, if_pos hle, ih hcut]
    · rw [Text.splitAtByte, if_neg hle]
      by_cases hn : n = 0
      · subst hn
        exact Option.some.inj ((cutAt_zero _).symm.trans h)
      · rw [cutAt_of_lt hn (by omega)] at h
        cases h

/-- An offset where no cut can be made splits as the one before it. -/
theorem splitAtByte_succ {n : Nat} {cs : List Char} (h : cutAt (n + 1) cs = none) :
    Text.splitAtByte (n + 1) cs = Text.splitAtByte n cs := by
  induction cs generalizing n with
  | nil => rfl
  | cons c cs ih =>
    by_cases hle : c.utf8Size ≤ n + 1
    · rw [cutAt_of_le hle, Option.map_eq_none_iff] at h
      have hne : n + 1 - c.utf8Size ≠ 0 := by
        intro h0
        rw [h0, cutAt_zero] at h
        cases h
      have hsub : n + 1 - c.utf8Size = n - c.utf8Size + 1 := by omega
      rw [Text.splitAtByte, Text.splitAtByte, if_pos hle, if_pos (by omega), hsub,
        ih (hsub ▸ h)]
    · rw [Text.splitAtByte, Text.splitAtByte, if_neg hle, if_neg (by omega)]

/-- Going back from any offset meets one where the text can be cut. -/
theorem cutAt_floorFrom (cs : List Char) (n : Nat) :
    (floorFrom cs n).bind (cutAt · cs) = some (Text.splitAtByte n cs) := by
  induction n with
  | zero =>
    rw [floorFrom, isBoundary, cutAt_zero, Option.isSome_some, if_pos rfl, Option.bind_some,
      cutAt_zero, splitAtByte_of_cutAt (cutAt_zero cs)]
  | succ n ih =>
    rw [floorFrom, isBoundary]
    cases hcut : cutAt (n + 1) cs with
    | none => rw [splitAtByte_succ hcut]; exact ih
    | some parts =>
      rw [splitAtByte_of_cutAt hcut]
      exact hcut

theorem splitAtByte_of_byteLength_le {n : Nat} {cs : List Char} (h : Text.byteLength cs ≤ n) :
    Text.splitAtByte n cs = (cs, []) := by
  induction cs generalizing n with
  | nil => rfl
  | cons c cs ih =>
    rw [Text.byteLength] at h
    rw [Text.splitAtByte, if_pos (by omega), ih (by omega)]

theorem cutAt_floorBoundary (cs : List Char) (n : Nat) :
    (floorBoundary cs n).bind (cutAt · cs) = some (Text.splitAtByte n cs) := by
  rw [floorBoundary]
  split
  · rename_i h
    have hcut := cutAt_byteLength cs []
    rw [List.append_nil] at hcut
    rw [Option.bind_some, hcut, splitAtByte_of_byteLength_le h]
  · exact cutAt_floorFrom cs n

theorem markPath_eq (path : String) (offset : Nat) :
    markPath path offset = some (LabelTree.markPath path offset) := by
  have h := cutAt_floorBoundary path.toList offset
  obtain ⟨n, hn, hcut⟩ := Option.bind_eq_some_iff.mp h
  simp [markPath, hn, hcut, LabelTree.markPath]

theorem details_eq (e : EngineError) : details e = some e.details := by
  cases e with
  | invalidPath path source => simp [details, markPath_eq, EngineError.details]
  | _ => rfl

end Checked

/-! ## Labels -/

namespace Glyph

theorem trim_concat_of_isPlainBlank {g : Glyph} (h : g.isPlainBlank = true) (gs : List Glyph) :
    trim (gs ++ [g]) = trim gs := by
  simp [trim, h]

theorem trim_concat {g : Glyph} (h : g.isPlainBlank = false) (gs : List Glyph) :
    trim (gs ++ [g]) = gs ++ [g] := by
  simp [trim, h]

theorem exists_eq_trim_append (gs : List Glyph) : ∃ blanks, gs = trim gs ++ blanks := by
  refine ⟨(gs.reverse.takeWhile isPlainBlank).reverse, ?_⟩
  rw [trim, ← List.reverse_append, List.takeWhile_append_dropWhile, List.reverse_reverse]

theorem eq_of_read {cs rest : List Char} {gs : List Glyph} (h : read cs = some (gs, rest)) :
    cs = gs.flatMap written ++ rest := by
  fun_induction read cs generalizing gs rest with
  | case1 => cases h; rfl
  | case2 => cases h
  | case3 c cs ih =>
    obtain ⟨⟨gs', r⟩, hr, heq⟩ := Option.map_eq_some_iff.mp h
    cases heq
    simp [written, ← ih hr]
  | case4 => cases h; rfl
  | case5 c cs _ _ _ ih =>
    obtain ⟨⟨gs', r⟩, hr, heq⟩ := Option.map_eq_some_iff.mp h
    cases heq
    simp [written, ← ih hr]

end Glyph

namespace Checked

open Glyph (char trim)

/-- The bytes kept are those of the glyphs without the plain blanks at their end. -/
def kept (gs : List Glyph) : Nat :=
  Text.byteLength ((trim gs).map char)

theorem kept_escaped (done : List Glyph) (c : Char) :
    kept (done ++ [.escaped c]) = Text.byteLength (done.map char ++ [c]) := by
  rw [kept, Glyph.trim_concat rfl, List.map_append]
  rfl

theorem kept_plain (done : List Glyph) (c : Char) :
    kept (done ++ [.plain c]) =
      if Text.isBlank c then kept done else Text.byteLength (done.map char ++ [c]) := by
  cases h : Text.isBlank c with
  | true =>
    have hg : Glyph.isPlainBlank (.plain c) = true := h
    rw [kept, Glyph.trim_concat_of_isPlainBlank hg, kept, if_pos rfl]
  | false =>
    have hg : Glyph.isPlainBlank (.plain c) = false := h
    rw [kept, Glyph.trim_concat hg, List.map_append, if_neg Bool.false_ne_true]
    rfl

/-- What was collected when the glyphs `done` were read: their characters, and the bytes kept. -/
theorem scanLabel_eq (done : List Glyph) (cs : List Char) :
    scanLabel (done.map char) (kept done) cs =
      (Glyph.read cs).map fun (gs, rest) => ((done ++ gs).map char, kept (done ++ gs), rest) := by
  -- a glyph that is read goes over to `done`, which only then decides what is kept
  fun_induction Glyph.read cs generalizing done with
  | case1 => simp [scanLabel]
  | case2 => rfl
  | case3 c cs ih =>
    have h := ih (done ++ [.escaped c])
    rw [kept_escaped, List.map_append] at h
    simpa [scanLabel, Function.comp_def, char] using h
  | case4 c cs h1 h2 hd => rw [scanLabel.eq_4 _ _ _ _ h1 h2, if_pos hd]; simp
  | case5 c cs h1 h2 hd ih =>
    have h := ih (done ++ [.plain c])
    rw [kept_plain, List.map_append] at h
    rw [scanLabel.eq_4 _ _ _ _ h1 h2, if_neg hd]
    simpa [Function.comp_def, char] using h

/-- A label is shortened to its glyphs without the plain blanks at their end. -/
theorem truncate_kept (gs : List Glyph) :
    truncate (kept gs) (gs.map char) = some ((trim gs).map char) := by
  obtain ⟨blanks, h⟩ := Glyph.exists_eq_trim_append gs
  calc truncate (kept gs) (gs.map char)
      = truncate (kept gs) ((trim gs).map char ++ blanks.map char) := by
        rw [← List.map_append, ← h]
    _ = some ((trim gs).map char) := truncate_byteLength _ _

theorem labelToken_eq {cs rest : List Char} {gs : List Glyph}
    (h : Glyph.read cs = some (gs, rest)) :
    labelToken cs ((trim gs).map char) = Cursor.stepWord gs := by
  obtain ⟨blanks, hgs⟩ := Glyph.exists_eq_trim_append gs
  have hcs : cs = (trim gs).flatMap Glyph.written ++ (blanks.flatMap Glyph.written ++ rest) := by
    rw [← List.append_assoc, ← List.flatMap_append, ← hgs]
    exact Glyph.eq_of_read h
  rw [Cursor.stepWord, hcs]
  generalize trim gs = word
  generalize blanks.flatMap Glyph.written ++ rest = more
  -- a dot that is read first or second is plain exactly when the text shows it in that place
  rcases word with _ | ⟨g, _ | ⟨g', _ | ⟨g'', gs'⟩⟩⟩
  · simp [labelToken, Glyph.label]
  · cases g with
    | plain c => by_cases hc : c = '.' <;> simp [labelToken, Glyph.label, char, Glyph.written, hc]
    | escaped c => simp [labelToken, Glyph.label, char, Glyph.written]
  · cases g with
    | plain c =>
      cases g' with
      | plain d =>
        by_cases hc : c = '.' <;> by_cases hd : d = '.' <;>
          simp [labelToken, Glyph.label, char, Glyph.written, hc, hd]
      | escaped d => simp [labelToken, Glyph.label, char, Glyph.written]
    | escaped c => simp [labelToken, Glyph.label, char, Glyph.written]
  · simp [labelToken, Glyph.label]

/-! ## Tokens -/

theorem stepToken_eq (c : Cursor) : stepToken c = some c.stepToken := by
  unfold stepToken
  split
  case h_6 h1 h2 h3 h4 h5 =>
    have hscan := scanLabel_eq [] c.rest
    cases hread : Glyph.read c.rest with
    | none =>
      have hmodel : c.stepToken =
          .error ⟨.danglingEscape, c.offset + (Text.byteLength c.rest - 1)⟩ := by
        unfold Cursor.stepToken
        split <;> simp_all
      rw [hread] at hscan
      rw [hmodel, show scanLabel [] 0 c.rest = none from hscan]
    | some r =>
      obtain ⟨gs, rest⟩ := r
      have hmodel : c.stepToken = .ok (Cursor.stepWord gs, c.moveTo rest) := by
        unfold Cursor.stepToken
        split <;> simp_all
      rw [hread] at hscan
      rw [hmodel, show scanLabel [] 0 c.rest = some (gs.map char, kept gs, rest) from hscan]
      simp [truncate_kept, labelToken_eq hread]
  all_goals rfl

theorem predicateToken_eq {c : Cursor} (h : c.depth ≠ 0) :
    predicateToken c = some c.predicateToken := by
  unfold predicateToken
  split
  · rename_i cs hcs
    rw [sub_of_le (Nat.one_le_iff_ne_zero.mpr h), Cursor.predicateToken, hcs]
    rfl
  · rfl

example : predicateToken ⟨[']'], 0, 0⟩ = none := rfl

theorem token_eq (c : Cursor) : token c = some c.token := by
  rw [token, Cursor.token]
  split
  · exact stepToken_eq c
  · rename_i h
    exact predicateToken_eq h

theorem next_eq (c : Cursor) : next c = some c.next := by
  rw [next, token_eq, Cursor.next]
  cases c.skipBlanks.token <;> rfl

/-! ## Paths -/

theorem lexemes_eq {fuel : Nat} {c : Cursor} (h : c.rest.length < fuel) :
    lexemes fuel c = some (Lexemes.ofCursor c) := by
  induction fuel generalizing c with
  | zero => cases h
  | succ fuel ih =>
    rw [lexemes, next_eq]
    cases hc : c.next with
    | error e => rw [Lexemes.ofCursor_of_error hc]; rfl
    | ok r =>
      obtain ⟨l, c'⟩ := r
      by_cases hl : l.token = .endOfPath
      · rw [Lexemes.ofCursor_of_end hc hl]
        simp [hl]
      · have hlt := (Cursor.length_next hc).resolve_left hl
        rw [Lexemes.ofCursor_of_next hc hl]
        simp [hl, ih (show c'.rest.length < fuel by omega)]

theorem compile_eq (text : String) : compile text = some (Path.compile text) := by
  have h : lexemes (text.toList.length + 1) (.ofText text) = some (.ofText text) :=
    lexemes_eq (Nat.lt_succ_self _)
  rw [compile, h, Path.compile]
  simp only [Option.bind_eq_bind, Option.bind_some]
  cases Path.read (.ofText text) with
  | error e => rfl
  | ok r =>
    obtain ⟨absolute, steps⟩ := r
    dsimp only
    cases Path.misplacedAppend? steps <;> rfl

end Checked

end LabelTree
